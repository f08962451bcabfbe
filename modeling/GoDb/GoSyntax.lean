import GoDb.Value
import GoDb.Foundation.Quoting

/-! How `fmt` writes a value with `%#v`, which is the key that GROUP BY files rows under. -/
namespace GoDb
open Foundation Quoting

/-- `strconv.IsPrint`, which goes by tables above Latin-1; all characters there are taken to be printed. -/
def isPrint (r : Nat) : Bool := (0x20 ≤ r && r < 0x7F) || (0xA1 ≤ r && r != 0xAD)

def longMonthNames : List Bytes := ["January","February","March","April","May","June","July","August","September",
  "October","November","December"].map ascii

/-- `Time.GoString` of a time in UTC. -/
def Time.goString (ns : Int) : Bytes :=
  let (year,month,date) := civil (ns / day)
  let inDay := (ns % day).toNat
  let sec := inDay / 1000000000
  let next (n : Nat) : Bytes := ascii ", " ++ decimal 0 n
  ascii "time.Date(" ++ decimalInt 0 year ++ ascii ", time." ++ longMonthNames.getD (month - 1) [] ++ next date ++
    next (sec / 3600) ++ next (sec / 60 % 60) ++ next (sec % 60) ++ next (inDay % 1000000000) ++ ascii ", time.UTC)"

def hexByte (b : UInt8) : Bytes := ascii "0x" ++ hex (if b < 16 then 1 else 2) b.toNat

/-- `fmt.Sprintf("%#v", v)`. -/
def Value.goSyntax (isPrint : Nat → Bool) : Value → Bytes
  | .nil => ascii "<nil>"
  | .int i => decimalInt 0 i.toInt
  | .string s => quote isPrint s
  | .bool b => if b then ascii "true" else ascii "false"
  | .float bits => floatText bits
  | .bytes none => ascii "[]byte(nil)"
  | .bytes (some b) => ascii "[]byte" ++ 123::(ascii ", ").intercalate (b.map hexByte) ++ [125]
  | .time ns => Time.goString ns
  | .parameter index => ascii "sql.parameterValue" ++ 123::ascii "index:" ++ decimal 0 index ++ [125]

end GoDb
