import GoDb.Error
import GoDb.Foundation.Bitmap
import GoDb.Foundation.LittleEndian

/-! The bytes of a row: a bitmap with a bit for every column that is NULL, and the other
columns one after the other. -/
namespace GoDb
open Foundation

namespace Schema

def encodeValue (c : Column) (v : Value) : Except Error Bytes :=
  match c.type,v with
  | .int,.int i => .ok (LittleEndian.put 8 i.toUInt64.toNat)
  | .string,.string s => .ok (LittleEndian.put 4 s.length ++ s)
  | .bool,.bool b => .ok [if b then 1 else 0]
  | .float,.float bits => .ok (LittleEndian.put 8 bits.toNat)
  | .float,.int i => .ok (LittleEndian.put 8 (Binary64.ofInt i.toInt).toNat)
  | .bytes,.bytes b => .ok (LittleEndian.put 4 (b.getD []).length ++ b.getD [])
  | .timestamp,.time ns => .ok (LittleEndian.put 8 (Time.unixNano ns).toUInt64.toNat)
  | type,_ => .error (.expects c.name type)

def bitmapSize (columns : List Column) : Nat := (columns.length + 7) / 8

/-- The loop of `encode`: the bitmap and the bytes behind it so far. -/
def encodeFrom (s : Schema) (row : Row) : List Column → Bytes → Bytes → Except Error Bytes
  | [],nulls,body => .ok (nulls ++ body)
  | c::columns,nulls,body =>
    match row.lookup c.name with
    | none => .error (.missingColumn c.name)
    | some .nil =>
      if (s.constraint c.name).notNull then .error (.mayNotBeNull c.name)
      else encodeFrom s row columns (Bitmap.set nulls (indexOf s.columns c)) body
    | some v =>
      match encodeValue c v with
      | .error e => .error e
      | .ok bytes => encodeFrom s row columns nulls (body ++ bytes)

def encode (s : Schema) (row : Row) : Except Error Bytes :=
  if row.size ≠ s.columns.length then .error .wrongColumnCount
  else encodeFrom s row s.columns (List.replicate (bitmapSize s.columns) 0) []

def readAt (data : Bytes) (p width : Nat) : Nat := LittleEndian.read ((data.drop p).take width)

def decodeBlock (c : Column) (data : Bytes) (p : Nat) : Except Error (Bytes × Nat) :=
  if data.length < p + 4 then .error (.missingLength c.name c.type p data.length)
  else
    let n := readAt data p 4
    if data.length < p + 4 + n then .error (.invalidLength c.name c.type n (p + 4) data.length)
    else .ok ((data.drop (p + 4)).take n,p + 4 + n)

/-- The value of a column that is not NULL, and the offset behind it. -/
def decodeValue (c : Column) (data : Bytes) (p : Nat) : Except Error (Value × Nat) :=
  match c.type with
  | .string =>
    match decodeBlock c data p with
    | .error e => .error e
    | .ok (s,p) => .ok (.string s,p)
  | .bytes =>
    match decodeBlock c data p with
    | .error e => .error e
    -- `append([]byte(nil), ...)` of nothing is nil.
    | .ok (b,p) => .ok (.bytes (if b = [] then none else some b),p)
  | .bool =>
    match data[p]? with
    | some 0 => .ok (.bool false,p + 1)
    | some 1 => .ok (.bool true,p + 1)
    | _ => .error (.invalidBool c.name p data.length)
  | .int =>
    if data.length < p + 8 then .error (.needBytes c.name c.type p data.length)
    else .ok (.int (UInt64.ofNat (readAt data p 8)).toInt64,p + 8)
  | .float =>
    if data.length < p + 8 then .error (.needBytes c.name c.type p data.length)
    else .ok (.float (UInt64.ofNat (readAt data p 8)),p + 8)
  | .timestamp =>
    if data.length < p + 8 then .error (.needBytes c.name c.type p data.length)
    else .ok (.time (UInt64.ofNat (readAt data p 8)).toInt64.toInt,p + 8)

/-- The loop of `decode`: the offset and the row so far. -/
def decodeFrom (s : Schema) (data : Bytes) : List Column → Nat → Row → Except Error Row
  | [],p,row => if p ≠ data.length then .error (.trailingData p data.length) else .ok row
  | c::columns,p,row =>
    if Bitmap.test (data.take (bitmapSize s.columns)) (indexOf s.columns c) then
      decodeFrom s data columns p (row.insert c.name .nil)
    else
      match decodeValue c data p with
      | .error e => .error e
      | .ok (v,p) => decodeFrom s data columns p (row.insert c.name v)

def decode (s : Schema) (data : Bytes) : Except Error Row :=
  if data.length < bitmapSize s.columns then .error .missingBitmap
  else decodeFrom s data s.columns (bitmapSize s.columns) ∅

end Schema
end GoDb
