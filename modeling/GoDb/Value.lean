import GoDb.Time
import GoDb.Foundation.Binary64

/-! The values of a row, how `fmt` writes them, and how conditions compare them. -/
namespace GoDb
open Foundation

/-- A comparison by `<` and `>` alone. -/
def orderBy {α : Type} (less : α → α → Bool) (a b : α) : Ordering :=
  if less a b then .lt else if less b a then .gt else .eq

def textOrder (a b : Bytes) : Ordering := orderBy (fun a b => decide (a < b)) a b

/-- What an `any` holds here. A `[]byte` may be nil; a time is in UTC; a float is its bits. -/
inductive Value
  | nil
  | int (i : Int64)
  | string (s : Bytes)
  | bool (b : Bool)
  | float (bits : UInt64)
  | bytes (b : Option Bytes)
  | time (ns : Int)
  -- A `?` that was never bound to an argument.
  | parameter (index : Nat)
  deriving DecidableEq, Repr

/-- `strconv.FormatFloat(f, 'g', -1, 64)`, as `%v` writes a `float64`. -/
def floatText (bits : UInt64) : Bytes :=
  if Binary64.isNaN bits then ascii "NaN"
  else if Binary64.isInfinite bits then if Binary64.negative bits then ascii "-Inf" else ascii "+Inf"
  else
    let sign : Bytes := if Binary64.negative bits then [45] else []
    if Binary64.magnitude bits = 0 then sign ++ [48]
    else
      let (n,k) := Binary64.shortest bits
      let all := decimal 0 n
      let digits := (all.reverse.dropWhile (· == 48)).reverse
      -- The point stands behind this many digits.
      let point : Int := all.length + k
      let exp := point - 1
      if exp < -4 ∨ 6 ≤ exp then
        let tail := digits.drop 1
        let fraction : Bytes := if tail = [] then [] else 46::tail
        sign ++ digits.take 1 ++ fraction ++ 101::(if exp < 0 then 45 else 43)::decimal 2 exp.natAbs
      else if point ≤ 0 then sign ++ [48,46] ++ List.replicate (-point).toNat 48 ++ digits
      else
        let p := point.toNat
        let whole := digits.take p ++ List.replicate (p - digits.length) 48
        let fraction : Bytes := if digits.length ≤ p then [] else 46::digits.drop p
        sign ++ whole ++ fraction

def joinSpaces : List Bytes → Bytes
  | [] => []
  | [word] => word
  | word::words => word ++ 32::joinSpaces words

namespace Value

/-- `fmt.Sprint` of one value. -/
def sprint : Value → Bytes
  | .nil => ascii "<nil>"
  | .int i => decimalInt 0 i.toInt
  | .string s => s
  | .bool b => if b then ascii "true" else ascii "false"
  | .float bits => floatText bits
  | .bytes b => 91::joinSpaces ((b.getD []).map fun c => decimal 0 c.toNat) ++ [93]
  | .time ns => Time.text ns
  | .parameter index => 123::decimal 0 index ++ [125]

/-- `fmt.Sprintf("%T:%#v", v, v)`, up to the names of the texts: this text tells any two values
apart, except that all NaNs are written alike. -/
def indexValue : Value → Value
  | .float bits => .float (if Binary64.isNaN bits then Binary64.nan else bits)
  | v => v

def number : Value → Option UInt64
  | .int i => some (Binary64.ofInt i.toInt)
  | .float bits => some bits
  | _ => none

def compare (a b : Value) : Ordering :=
  match number a,number b with
  | some x,some y => orderBy Binary64.less x y
  | _,_ =>
    -- Two ints are numbers and never come here.
    match a,b with
    | .string x,.string y => textOrder x y
    | .bool x,.bool y => if x = y then .eq else if !x then .lt else .gt
    | a,b => textOrder (sprint a) (sprint b)

end Value
end GoDb
