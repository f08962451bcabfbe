import Mathlib.Algebra.Order.Group.Int
import Mathlib.Algebra.Order.Group.Nat
import Mathlib.Data.Nat.Log

/-! Binary floating-point numbers of 64 bits, as their bit patterns: the order of the
numbers, rounding a ratio to the nearest of them (to the even one when two are equally
near), the operations defined through exact ratios, and the shortest decimal that
rounds to a number. -/
namespace GoDb.Foundation.Binary64

def infinityBits : Nat := 2047 * 2^52

def magnitude (bits : UInt64) : Nat := bits.toNat % 2^63

def negative (bits : UInt64) : Bool := 2^63 ≤ bits.toNat

def isNaN (bits : UInt64) : Bool := infinityBits < magnitude bits

def isInfinite (bits : UInt64) : Bool := infinityBits = magnitude bits

def nan : UInt64 := 0x7FF8000000000001

def signed (neg : Bool) (mag : Nat) : UInt64 := UInt64.ofNat (if neg then 2^63 + mag else mag)

/-- The place of a number on the line; both zeros have place 0. -/
def rank (bits : UInt64) : Int := if negative bits then -(magnitude bits : Int) else magnitude bits

def less (a b : UInt64) : Bool := !isNaN a && !isNaN b && rank a < rank b

/-- The exponent of the binary digit in front, for a ratio that is not 0. -/
def exponent (num den : Nat) : Int :=
  let guess : Int := Nat.log2 num - Nat.log2 den
  if den * 2^guess.toNat ≤ num * 2^(-guess).toNat then guess else guess - 1

def roundMagnitude (num den : Nat) : Nat :=
  if num = 0 then 0
  else
    let e := exponent num den
    let unit : Int := max (e - 52) (-1074)
    let n := num * 2^(-unit).toNat
    let d := den * 2^unit.toNat
    let q := n / d
    let r := n % d
    let q := if d < 2 * r ∨ d = 2 * r ∧ q % 2 = 1 then q + 1 else q
    min ((max (e + 1022) 0).toNat * 2^52 + q) infinityBits

def ofInt (i : Int) : UInt64 := signed (i < 0) (roundMagnitude i.natAbs 1)

def ratio (bits : UInt64) : Nat × Nat :=
  let e := magnitude bits / 2^52
  let f := magnitude bits % 2^52
  if e = 0 then (f,2^1074)
  else ((2^52 + f) * 2^(e - 1075),2^(1075 - e))

def add (a b : UInt64) : UInt64 :=
  if isNaN a || isNaN b then nan
  else if isInfinite a then if isInfinite b && negative a != negative b then nan else a
  else if isInfinite b then b
  else
    let (m,d) := ratio a
    let (n,e) := ratio b
    let sum : Int := (if negative a then -(m * e : Int) else m * e) + (if negative b then -(n * d : Int) else n * d)
    if sum = 0 then signed (negative a && negative b) 0
    else signed (sum < 0) (roundMagnitude sum.natAbs (d * e))

def div (a b : UInt64) : UInt64 :=
  let neg := negative a != negative b
  if isNaN a || isNaN b then nan
  else if isInfinite a then if isInfinite b then nan else signed neg infinityBits
  else if isInfinite b then signed neg 0
  else
    let (m,d) := ratio a
    let (n,e) := ratio b
    if n = 0 then if m = 0 then nan else signed neg infinityBits
    else signed neg (roundMagnitude (m * e) (d * n))

/-- The part of a number before the point, as a 64-bit integer; what does not fit gives the least of them. -/
def truncate (bits : UInt64) : Int64 :=
  let whole : Int := if infinityBits ≤ magnitude bits then -2^63 else
    let (m,d) := ratio bits
    if negative bits then -(m / d : Nat) else (m / d : Nat)
  if -2^63 ≤ whole ∧ whole < 2^63 then Int64.ofInt whole else Int64.ofInt (-2^63)

def leading (num den : Nat) : Int :=
  if den ≤ num then Nat.log 10 (num / den) else -(Nat.clog 10 ((den + num - 1) / num) : Int)

/-- The multiple of a power of ten, not above, or one step further, that lies within the bounds of a number. -/
def candidate (num den lowNum highNum : Nat) (inclusive : Bool) (k : Int) : Option Nat :=
  let n := num * 10^(-k).toNat
  let d := den * 10^k.toNat
  let down := n / d
  let low := lowNum * 10^(-k).toNat
  let high := highNum * 10^(-k).toNat
  let okdown : Bool := low < down * d || inclusive && low = down * d
  let okup : Bool := (down + 1) * d < high || inclusive && (down + 1) * d = high
  if okdown && okup then
    if 2 * (n % d) < d ∨ 2 * (n % d) = d ∧ down % 2 = 0 then some down else some (down + 1)
  else if okdown then some down
  else if okup then some (down + 1)
  else none

def shortestFrom (num den lowNum highNum : Nat) (inclusive : Bool) : Nat → Int → Nat × Int
  | 0,k => (num * 10^(-k).toNat / (den * 10^k.toNat),k)
  | fuel+1,k =>
    match candidate num den lowNum highNum inclusive k with
    | some found => (found,k)
    | none => shortestFrom num den lowNum highNum inclusive fuel (k - 1)

/-- The decimal with the fewest digits that rounds to a finite number that is not 0: a
multiple of a power of ten. Seventeen digits are always enough. -/
def shortest (bits : UInt64) : Nat × Int :=
  let e := magnitude bits / 2^52
  let f := magnitude bits % 2^52
  let (m,d) := ratio bits
  -- The bounds lie half way to the neighbours; below a power of two the neighbour is nearer.
  let unit := if e = 0 then 1 else 2^(e - 1075)
  let near : Bool := f = 0 && 1 < e
  shortestFrom (4 * m) (4 * d) (4 * m - (if near then unit else 2 * unit)) (4 * m + 2 * unit) (f % 2 = 0) 18
    (leading (4 * m + 2 * unit) (4 * d))

end GoDb.Foundation.Binary64
