import GoDb.Error
import GoDb.Foundation.LittleEndian
import GoDb.Foundation.ListEdits

/-! Pages of `storage/page.go` and the records `kv/store.go` writes on them.
The header fields of a page are kept as numbers, its record area as bytes. The
free offset is a `uint16`; page numbers are not bounded by the 2^32 pages a
file can have. -/
namespace GoDb
open Foundation

def PageSize : Nat := 4096
def HeaderSize : Nat := 16

/-- What is on disk for one page. `next` is `none` for `NoPage`. -/
structure Block where
  id : Nat
  free : Nat
  next : Option Nat
  body : Bytes
  size : body.length = PageSize - HeaderSize
  deriving DecidableEq

structure Page where
  id : Nat
  data : Block
  deriving DecidableEq

def blank : Bytes := List.replicate (PageSize - HeaderSize) 0

/-- A page of zero bytes, as a hole in the file reads. -/
def Block.zero : Block := ⟨0,0,some 0,blank,List.length_replicate ..⟩

def newPage (id : Nat) : Page := ⟨id,⟨id,HeaderSize,none,blank,List.length_replicate ..⟩⟩

def Page.freeOffset (p : Page) : Nat := p.data.free
def Page.nextPageID (p : Page) : Option Nat := p.data.next
def Page.setNextPageID (p : Page) (id : Nat) : Page := {p with data := {p.data with next := some id}}
def Page.remaining (p : Page) : Int := PageSize - p.freeOffset

def flagLive : UInt8 := 0
def flagTombstone : UInt8 := 1
def recordHeaderSize : Nat := 5

structure Record where
  flag : UInt8
  key : Bytes
  value : Bytes
  deriving DecidableEq, Repr

def Record.size (r : Record) : Nat := recordHeaderSize + r.key.length + r.value.length

def readRecord (data : Block) (offset : Nat) : Except Error Record :=
  if PageSize < offset + recordHeaderSize then .error (.recordHeader offset)
  else
    let bytes := data.body.drop (offset - HeaderSize)
    let keyLen := LittleEndian.read ((bytes.drop 1).take 2)
    let valLen := LittleEndian.read ((bytes.drop 3).take 2)
    if PageSize < offset + recordHeaderSize + keyLen + valLen then .error (.recordBody offset)
    else .ok ⟨bytes.headD 0,(bytes.drop recordHeaderSize).take keyLen,
      (bytes.drop (recordHeaderSize + keyLen)).take valLen⟩

def Record.encode (r : Record) : Bytes :=
  r.flag::(LittleEndian.put 2 r.key.length ++ LittleEndian.put 2 r.value.length ++ r.key ++ r.value)

-- Every page that is written has a free offset behind the header, so the copy starts in the record area.
def writeRecord (page : Page) (key value : Bytes) (flag : UInt8) : Except Error Page :=
  let r : Record := ⟨flag,key,value⟩
  if page.remaining < r.size then .error .pageFull
  else .ok {page with data :=
    {page.data with
      free := (page.freeOffset + r.size) % 2^16
      body := ListEdits.overwrite page.data.body (page.freeOffset - HeaderSize) r.encode
      size := (ListEdits.length_overwrite ..).trans page.data.size}}

/-- The loop `for off < free` over the records of a page: those it reads, and the error that ends it. -/
def recordsFrom (data : Block) (free : Nat) : Nat → Nat → List Record × Option Error
  | 0,_ => ([],some .diverges)
  | fuel+1,offset =>
    if offset < free then
      match readRecord data offset with
      | .error e => ([],some e)
      | .ok r =>
        let (records,failed) := recordsFrom data free fuel (offset + r.size)
        (r::records,failed)
    else ([],none)

-- A record takes five bytes at least, so the loop makes fewer turns than the page has bytes.
def Page.records (p : Page) : List Record × Option Error :=
  recordsFrom p.data p.freeOffset PageSize HeaderSize

end GoDb
