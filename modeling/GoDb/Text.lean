import GoDb.Statement

/-! The parts of Go's `strconv` and `strings` packages that the SQL parser uses. -/
namespace GoDb
open Foundation

/-- `strings.EqualFold(s, word)` for an ASCII word. Besides the two cases of a letter, the long s folds to an s, and
the Kelvin sign to a k. -/
def foldsTo : Bytes → Bytes → Bool
  | [],[] => true
  | 0xC5::0xBF::s,c::word => toLower [c] = ascii "s" && foldsTo s word
  | 0xE2::0x84::0xAA::s,c::word => toLower [c] = ascii "k" && foldsTo s word
  | b::s,c::word => toLower [b] = toLower [c] && foldsTo s word
  | _,_ => false

/-- `strings.ToUpper(s) == word` for an ASCII word. Besides the small letters, the long s goes to S, and the dotless i
to I. -/
def upperIs : Bytes → Bytes → Bool
  | [],[] => true
  | 0xC5::0xBF::s,c::word => [c] = ascii "S" && upperIs s word
  | 0xC4::0xB1::s,c::word => [c] = ascii "I" && upperIs s word
  | b::s,c::word => toUpper [b] = [c] && upperIs s word
  | _,_ => false

/-- Why a text is no number: "invalid syntax" or "value out of range". -/
inductive NumError
  | malformed
  | range
  deriving DecidableEq, Repr

/-- The loop of `ParseUint` in base 10. -/
def parseUint : Nat → Bytes → Except NumError Nat
  | n,[] => .ok n
  | n,c::s =>
    if !Time.isDigit c then .error .malformed
    else if 2^64 ≤ 10 * n + (c.toNat - 48) then .error .range
    else parseUint (10 * n + (c.toNat - 48)) s

/-- A sign in front, and what is behind it. -/
def splitSign : Bytes → Bool × Bytes
  | 45::s => (true,s)
  | 43::s => (false,s)
  | s => (false,s)

/-- `strconv.Atoi`, for an int of 64 bits. -/
def atoi (s : Bytes) : Except NumError Int64 :=
  let (neg,digits) := splitSign s
  if digits = [] then .error .malformed
  else
    match parseUint 0 digits with
    | .error e => .error e
    | .ok n =>
      if neg then if n ≤ 2^63 then .ok (Int64.ofInt (-n)) else .error .range
      else if n < 2^63 then .ok (Int64.ofInt n) else .error .range

def lower (c : UInt8) : UInt8 := c ||| 32

def isHexLetter (c : UInt8) : Bool := 97 ≤ lower c && lower c ≤ 102

/-- What `readFloat` knows of the digits: their value, how many are behind the point, and whether it has seen a point,
a digit and an underscore. -/
structure Mantissa where
  value : Nat
  fraction : Nat
  sawdot : Bool
  sawdigits : Bool
  underscores : Bool

def Mantissa.digit (base d : Nat) (m : Mantissa) : Mantissa :=
  {m with
    value := base * m.value + d
    fraction := if m.sawdot then m.fraction + 1 else m.fraction
    sawdigits := true}

def readMantissa (base : Nat) : Bytes → Mantissa → Mantissa × Bytes
  | [],m => (m,[])
  | c::s,m =>
    if c = 95 then readMantissa base s {m with underscores := true}
    else if c = 46 then if m.sawdot then (m,c::s) else readMantissa base s {m with sawdot := true}
    else if Time.isDigit c then readMantissa base s (m.digit base (c.toNat - 48))
    else if base = 16 && isHexLetter c then readMantissa base s (m.digit base ((lower c).toNat - 87))
    else (m,c::s)

/-- The digits of an exponent. From 10000 on, more digits do not count. -/
def readExponent : Bytes → Nat → Bool → Nat × Bool × Bytes
  | [],e,underscores => (e,underscores,[])
  | c::s,e,underscores =>
    if c = 95 then readExponent s e true
    else if Time.isDigit c then readExponent s (if e < 10000 then 10 * e + (c.toNat - 48) else e) underscores
    else (e,underscores,c::s)

/-- What `underscoreOK` saw last. -/
inductive Saw
  | start
  | digit
  | underscore
  | other
  deriving DecidableEq

def separated (hex : Bool) : Saw → Bytes → Bool
  | saw,[] => saw != .underscore
  | saw,c::s =>
    if Time.isDigit c || hex && isHexLetter c then separated hex .digit s
    else if c = 95 then saw = .digit && separated hex .underscore s
    else saw != .underscore && separated hex .other s

def underscoreOK (s : Bytes) : Bool :=
  match (splitSign s).2 with
  | 48::x::rest =>
    if lower x = 98 ∨ lower x = 111 ∨ lower x = 120 then separated (lower x = 120) .digit rest
    else separated false .start (48::x::rest)
  | s => separated false .start s

/-- `special`: infinities and NaN, in any case. -/
def specialFloat (s : Bytes) : Option UInt64 :=
  let (neg,name) := splitSign s
  if toLower name = ascii "inf" ∨ toLower name = ascii "infinity" then
    some (Binary64.signed neg Binary64.infinityBits)
  else if toLower s = ascii "nan" then some Binary64.nan
  else none

/-- The exponent behind the digits, and what is left of the text. A hexadecimal number has one. -/
def exponentPart (hex : Bool) (s : Bytes) : Option (Int × Bool × Bytes) :=
  match s with
  | [] => if hex then none else some (0,false,[])
  | c::rest =>
    if lower c = (if hex then 112 else 101) then
      let (neg,digits) := splitSign rest
      match digits with
      | [] => none
      | d::_ =>
        if !Time.isDigit d then none
        else
          let (e,underscores,left) := readExponent digits 0 false
          some (if neg then -e else e,underscores,left)
    else if hex then none
    else some (0,false,c::rest)

/-- `strconv.ParseFloat(s, 64)`: the nearest number, and an error when that is infinite. -/
def parseFloat (s : Bytes) : Except NumError UInt64 :=
  match specialFloat s with
  | some bits => .ok bits
  | none =>
    let (neg,number) := splitSign s
    let (hex,digits) := match number with
      | 48::x::c::rest => if lower x = 120 then (true,c::rest) else (false,number)
      | _ => (false,number)
    let (m,rest) := readMantissa (if hex then 16 else 10) digits ⟨0,0,false,false,false⟩
    if !m.sawdigits then .error .malformed
    else
      match exponentPart hex rest with
      | none => .error .malformed
      | some (e,underscores,left) =>
        if left ≠ [] ∨ (m.underscores || underscores) && !underscoreOK s then .error .malformed
        else
          let base := if hex then 2 else 10
          let scale : Int := e - (if hex then 4 * m.fraction else m.fraction)
          let magnitude := Binary64.roundMagnitude (m.value * base^scale.toNat) (base^(-scale).toNat)
          if magnitude = Binary64.infinityBits then .error .range else .ok (Binary64.signed neg magnitude)

end GoDb
