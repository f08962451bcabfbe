import GoDb.Bytes

/-! The parts of Go's `time` package that tables use. A `time.Time` in UTC is the number
of nanoseconds since 1970; the calendar is the proleptic Gregorian one. -/
namespace GoDb

/-- The decimal digits of a number, with zeros in front up to a width. -/
def decimal (width n : Nat) : Bytes :=
  let digits := (Nat.toDigits 10 n).map fun c => UInt8.ofNat c.toNat
  List.replicate (width - digits.length) 48 ++ digits

def decimalInt (width : Nat) (i : Int) : Bytes :=
  if i < 0 then 45::decimal width i.natAbs else decimal width i.natAbs

namespace Time

def second : Int := 1000000000
def day : Int := 86400 * second

/-- Year, month and day, from the days since 1970. Years are taken to start in March, so that
the leap day is the last of them, and days are counted in eras of 400 years. -/
def civil (days : Int) : Int × Nat × Nat :=
  let z := days + 719468
  let era := z / 146097
  let doe := (z % 146097).toNat
  let yoe := (doe - doe / 1460 + doe / 36524 - doe / 146096) / 365
  let doy := doe - (365 * yoe + yoe / 4 - yoe / 100)
  let mp := (5 * doy + 2) / 153
  let month := if mp < 10 then mp + 3 else mp - 9
  (yoe + era * 400 + (if month ≤ 2 then 1 else 0),month,doy - (153 * mp + 2) / 5 + 1)

def daysOf (year : Int) (month day : Nat) : Int :=
  let y := if month ≤ 2 then year - 1 else year
  let era := y / 400
  let yoe := (y % 400).toNat
  let mp := if month ≤ 2 then month + 9 else month - 3
  let doy := (153 * mp + 2) / 5 + day - 1
  era * 146097 + (yoe * 365 + yoe / 4 - yoe / 100 + doy : Nat) - 719468

def fraction (nsec : Nat) : Bytes :=
  if nsec = 0 then [] else 46::((decimal 9 nsec).reverse.dropWhile (· == 48)).reverse

/-- `Time.String` of a time in UTC. -/
def text (ns : Int) : Bytes :=
  let (year,month,date) := civil (ns / day)
  let inDay := (ns % day).toNat
  let sec := inDay / 1000000000
  decimalInt 4 year ++ 45::decimal 2 month ++ 45::decimal 2 date ++ 32::decimal 2 (sec / 3600) ++
    58::decimal 2 (sec / 60 % 60) ++ 58::decimal 2 (sec % 60) ++ fraction (inDay % 1000000000) ++ ascii " +0000 UTC"

def isDigit (c : UInt8) : Bool := 48 ≤ c && c ≤ 57

def number (digits : Bytes) : Nat := digits.foldl (fun n c => 10 * n + (c.toNat - 48)) 0

def digitsOf (width : Nat) (s : Bytes) : Option (Nat × Bytes) :=
  let front := s.take width
  if front.length = width ∧ front.all isDigit then some (number front,s.drop width) else none

def skip (c : UInt8) : Bytes → Option Bytes
  | d::rest => if c = d then some rest else none
  | [] => none

def hourOf (s : Bytes) : Option (Nat × Bytes) := digitsOf 2 s <|> digitsOf 1 s

/-- A fraction of a second, which the layout does not mention; nine digits of it count. -/
def fractionOf (s : Bytes) : Nat × Bytes :=
  match s with
  | c::d::rest =>
    if (c = 46 ∨ c = 44) ∧ isDigit d then
      let digits := (d::rest).takeWhile isDigit
      (number ((digits.take 9) ++ List.replicate (9 - digits.length) 48),(d::rest).drop digits.length)
    else (0,s)
  | _ => (0,s)

def zoneOf : Bytes → Option (Int × Bytes)
  | 90::rest => some (0,rest)
  | sign::rest => do
    let (hours,rest) ← digitsOf 2 rest
    let rest ← skip 58 rest
    let (minutes,rest) ← digitsOf 2 rest
    let offset : Int := (hours * 60 + minutes : Nat) * 60
    if 24 < hours ∨ 60 < minutes then none
    else if sign = 43 then some (offset,rest)
    else if sign = 45 then some (-offset,rest)
    else none
  | [] => none

def isLeap (year : Nat) : Bool := year % 4 = 0 && (year % 100 != 0 || year % 400 = 0)

def daysIn (year month : Nat) : Nat :=
  if month = 2 then if isLeap year then 29 else 28
  else if month = 4 ∨ month = 6 ∨ month = 9 ∨ month = 11 then 30 else 31

/-- `time.Parse(time.RFC3339, s)`, in UTC. -/
def parse (s : Bytes) : Option Int := do
  let (year,s) ← digitsOf 4 s
  let s ← skip 45 s
  let (month,s) ← digitsOf 2 s
  let s ← skip 45 s
  let (date,s) ← digitsOf 2 s
  let s ← skip 84 s
  let (hour,s) ← hourOf s
  let s ← skip 58 s
  let (minute,s) ← digitsOf 2 s
  let s ← skip 58 s
  let (sec,s) ← digitsOf 2 s
  let (nsec,s) := fractionOf s
  let (offset,s) ← zoneOf s
  if s ≠ [] ∨ month < 1 ∨ 12 < month ∨ date < 1 ∨ daysIn year month < date ∨ 24 ≤ hour ∨ 60 ≤ minute ∨ 60 ≤ sec then none
  else some ((daysOf year month date * 86400 + (hour * 3600 + minute * 60 + sec : Nat) - offset) * second + nsec)

/-- `Time.UnixNano`: the nanoseconds in 64 bits. -/
def unixNano (ns : Int) : Int64 := Int64.ofInt ns

end Time
end GoDb
