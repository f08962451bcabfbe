import GoDb.PageChains
import GoDb.WalRecords

/-! Pages as their 4096 bytes, with the 16-bit offsets and lengths of `storage/page.go`
and `kv/store.go`. The header and the records share one array, and an index or a slice
out of its range panics. Read as a `Page`, what the functions here do to the bytes is what
those of `GoDb.Page` do to the fields. -/
namespace GoDb
open Foundation Outcome

structure RawPage where
  id : UInt32
  data : Bytes
  size : data.length = PageSize
  deriving DecidableEq

variable {offset : UInt16} {bytes key value : Bytes} {r : Record} {flag : UInt8}

namespace RawPage

abbrev RawPageM := Proc Error RawPage

def overwrite (p : RawPage) (start : Nat) (bytes : Bytes) : RawPage where
  id := p.id
  data := ListEdits.overwrite p.data start bytes
  size := (ListEdits.length_overwrite ..).trans p.size

def newPage (id : UInt32) : RawPage :=
  let p : RawPage := ⟨id,List.replicate PageSize 0,List.length_replicate ..⟩
  let p := p.overwrite 0 (LittleEndian.put 4 id.toNat)
  let p := p.overwrite 4 (LittleEndian.put 2 HeaderSize)
  p.overwrite 6 (LittleEndian.put 4 NoPage)

def freeOffset (p : RawPage) : UInt16 := .ofNat (LittleEndian.read ((p.data.drop 4).take 2))
def setFreeOffset (p : RawPage) (offset : UInt16) : RawPage := p.overwrite 4 (LittleEndian.put 2 offset.toNat)
def nextPageID (p : RawPage) : UInt32 := .ofNat (LittleEndian.read ((p.data.drop 6).take 4))
def setNextPageID (p : RawPage) (id : UInt32) : RawPage := p.overwrite 6 (LittleEndian.put 4 id.toNat)
def remaining (p : RawPage) : Int := PageSize - p.freeOffset.toNat

/-- `binary.LittleEndian.Uint16(data[low:high])`. -/
def uint16 (data : Bytes) (low high : UInt16) : Except Error UInt16 := do
  let bytes ← Wal.slice data low.toNat high.toNat
  if bytes.length < 2 then .error .panics else .ok (.ofNat (LittleEndian.read (bytes.take 2)))

def readRecord (data : Bytes) (offset : UInt16) : Except Error Record :=
  if data.length < offset.toNat + recordHeaderSize then .error (.recordHeader offset.toNat)
  else do
    let flag ← Wal.index data offset.toNat
    let keyLen ← uint16 data (offset + 1) (offset + 3)
    let valLen ← uint16 data (offset + 3) (offset + 5)
    let start := offset.toNat + recordHeaderSize
    let stop := start + keyLen.toNat + valLen.toNat
    if data.length < stop then .error (.recordBody offset.toNat)
    else do
      let key ← Wal.slice data start (start + keyLen.toNat)
      let value ← Wal.slice data (start + keyLen.toNat) stop
      .ok ⟨flag,key,value⟩

/-- A write to a part of the array, which panics when that part is not inside. -/
def store (inside : Prop) [Decidable inside] (start : Nat) (bytes : Bytes) : RawPageM Unit := do
  Proc.refuse (¬inside) .panics
  modify (·.overwrite start bytes)

/-- `data[i] = byte`. -/
def setByte (i : UInt16) (byte : UInt8) : RawPageM Unit := store (i.toNat < PageSize) i.toNat [byte]

/-- `binary.LittleEndian.PutUint16(data[low:high], n)`. -/
def putUint16 (low high n : UInt16) : RawPageM Unit :=
  store (low.toNat + 2 ≤ high.toNat ∧ high.toNat ≤ PageSize) low.toNat (LittleEndian.put 2 n.toNat)

/-- `copy(data[start:], bytes)`. -/
def copy (start : Nat) (bytes : Bytes) : RawPageM Unit := store (start ≤ PageSize) start bytes

def writeRecord (key value : Bytes) (flag : UInt8) : RawPageM Unit := do
  let page ← get
  let needed := recordHeaderSize + key.length + value.length
  Proc.refuse (page.remaining < needed) .pageFull
  let offset := page.freeOffset
  setByte offset flag
  putUint16 (offset + 1) (offset + 3) (.ofNat key.length)
  putUint16 (offset + 3) (offset + 5) (.ofNat value.length)
  let start := offset.toNat + recordHeaderSize
  copy start key
  copy (start + key.length) value
  modify (·.setFreeOffset (offset + .ofNat needed))

/-- The loop `for off < free` with its 16-bit offset: the records it reads, each with its offset. -/
def recordsFrom (data : Bytes) (free : UInt16) : Nat → UInt16 → List (UInt16 × Record) × Option Error
  | 0,_ => ([],some .diverges)
  | fuel+1,offset =>
    if offset < free then
      match readRecord data offset with
      | .error e => ([],some e)
      | .ok r =>
        let (records,failed) := recordsFrom data free fuel (offset + .ofNat r.size)
        ((offset,r)::records,failed)
    else ([],none)

def records (p : RawPage) : List (UInt16 × Record) × Option Error :=
  recordsFrom p.data p.freeOffset PageSize (.ofNat HeaderSize)

def page (p : RawPage) : Page := ⟨p.id.toNat,Block.ofBytes p.data p.size⟩

variable {p : RawPage}

theorem add_exact {step : UInt16} {n : Nat} (sized : step.toNat = n) (small : offset.toNat + n < 2^16) :
    (offset + step).toNat = offset.toNat + n := by
  rw [UInt16.toNat_add,sized,Nat.mod_eq_of_lt small]

theorem toNat_ofNat_exact {n : Nat} (small : n < 2^16) : (UInt16.ofNat n).toNat = n := by
  rw [UInt16.toNat_ofNat',Nat.mod_eq_of_lt small]

theorem freeOffset_page (p : RawPage) : p.freeOffset.toNat = p.page.data.free := by
  apply toNat_ofNat_exact
  apply (LittleEndian.read_lt _).trans_le
  rw [List.length_take,List.length_drop,p.size]
  decide

theorem uint16_ok {data : Bytes} {low high : UInt16} (two : high.toNat = low.toNat + 2)
    (inside : high.toNat ≤ data.length) :
    uint16 data low high = .ok (.ofNat (LittleEndian.read ((data.drop low.toNat).take 2))) := by
  have length : ((data.drop low.toNat).take 2).length = 2 := by
    rw [List.length_take,List.length_drop]
    omega
  have sliced : Wal.slice data low.toNat high.toNat = .ok ((data.drop low.toNat).take 2) := by
    rw [Wal.slice_ok (by omega) inside]
    congr 2
    omega
  unfold uint16
  rw [sliced]
  simp only [bind,Except.bind]
  rw [if_neg (by omega),List.take_of_length_le (Nat.le_of_eq length)]

theorem index_ok {data : Bytes} {i : Nat} (inside : i < data.length) :
    Wal.index data i = .ok ((data.drop i).headD 0) := by
  unfold Wal.index
  rw [List.getElem?_eq_getElem inside,← List.getElem_cons_drop inside]
  rfl

theorem toNat_read (short : bytes.length ≤ 2) :
    (UInt16.ofNat (LittleEndian.read bytes)).toNat = LittleEndian.read bytes := by
  apply toNat_ofNat_exact
  apply (LittleEndian.read_lt bytes).trans_le
  exact Nat.pow_le_pow_right (by decide) short

theorem readRecord_page (start : HeaderSize ≤ offset.toNat) :
    readRecord p.data offset = GoDb.readRecord p.page.data offset.toNat := by
  have here : p.page.data.body.drop (offset.toNat - HeaderSize) = p.data.drop offset.toNat := by
    change (p.data.drop HeaderSize).drop _ = _
    rw [List.drop_drop,Nat.add_sub_cancel' start]
  unfold readRecord GoDb.readRecord
  rw [p.size,here]
  by_cases header : PageSize < offset.toNat + recordHeaderSize
  · rw [if_pos header,if_pos header]
  rw [if_neg header,if_neg header]
  have inside : offset.toNat + 5 ≤ 4096 := Nat.le_of_not_lt header
  have one : (offset + 1).toNat = offset.toNat + 1 := add_exact rfl (by omega)
  have three : (offset + 3).toNat = offset.toNat + 3 := add_exact rfl (by omega)
  have five : (offset + 5).toNat = offset.toNat + 5 := add_exact rfl (by omega)
  have size : p.data.length = 4096 := p.size
  rw [index_ok (by omega),uint16_ok (by omega) (by omega),uint16_ok (by omega) (by omega),one,three]
  simp only [bind,Except.bind,List.drop_drop]
  rw [toNat_read (List.length_take_le _ _),toNat_read (List.length_take_le _ _)]
  generalize LittleEndian.read ((p.data.drop (offset.toNat + 1)).take 2) = keyLen
  generalize LittleEndian.read ((p.data.drop (offset.toNat + 3)).take 2) = valLen
  by_cases body : PageSize < offset.toNat + recordHeaderSize + keyLen + valLen
  · rw [if_pos body,if_pos body]
  · have fits : offset.toNat + recordHeaderSize + keyLen + valLen ≤ p.data.length := p.size ▸ Nat.le_of_not_lt body
    rw [if_neg body,if_neg body,Wal.slice_ok (by omega) (by omega),Wal.slice_ok (by omega) fits]
    rw [Nat.add_sub_cancel_left,Nat.add_sub_cancel_left,Nat.add_assoc]

theorem readRecord_inside {data : Block} {offset : Nat} (read : GoDb.readRecord data offset = .ok r)
    (start : HeaderSize ≤ offset) : offset + r.size ≤ PageSize := by
  obtain ⟨rest,here⟩ := encode_of_readRecord start read
  have lengths := congrArg List.length here
  rw [List.length_drop,List.length_append,r.length_encode,data.size] at lengths
  have positive : 0 < r.size := by unfold Record.size recordHeaderSize; omega
  unfold PageSize HeaderSize at *
  omega

def placed : UInt16 → List Record → List (UInt16 × Record)
  | _,[] => []
  | offset,r::records => (offset,r)::placed (offset + .ofNat r.size) records

theorem advance (inside : offset.toNat + r.size ≤ PageSize) :
    (offset + .ofNat r.size).toNat = offset.toNat + r.size := by
  unfold PageSize at inside
  exact add_exact (toNat_ofNat_exact (by omega)) (by omega)

theorem recordsFrom_page (free : UInt16) {fuel : Nat} (start : HeaderSize ≤ offset.toNat) :
    recordsFrom p.data free fuel offset =
      (placed offset (GoDb.recordsFrom p.page.data free.toNat fuel offset.toNat).1,
        (GoDb.recordsFrom p.page.data free.toNat fuel offset.toNat).2) := by
  induction fuel generalizing offset with
  | zero => rfl
  | succ fuel ih =>
    unfold recordsFrom GoDb.recordsFrom
    by_cases more : offset < free
    · rw [if_pos more,if_pos (UInt16.lt_iff_toNat_lt.mp more),readRecord_page start]
      cases read : GoDb.readRecord p.page.data offset.toNat with
      | error e => rfl
      | ok r =>
        have next := advance (readRecord_inside read start)
        dsimp only
        rw [ih (by omega),next]
        rfl
    · rw [if_neg more,if_neg fun less => more (UInt16.lt_iff_toNat_lt.mpr less)]
      rfl

theorem records_page (p : RawPage) : p.records = (placed (.ofNat HeaderSize) p.page.records.1,p.page.records.2) := by
  unfold records Page.records
  rw [recordsFrom_page _ (by decide),freeOffset_page]
  rfl

theorem overwrite_next {start next : Nat} {first second : Bytes} (behind : next = start + first.length)
    (fits : next + second.length ≤ PageSize) :
    (p.overwrite start first).overwrite next second = p.overwrite start (first ++ second) := by
  rw [behind] at fits ⊢
  have same := ListEdits.overwrite_overwrite (p.size.symm ▸ fits : _ ≤ p.data.length)
  unfold overwrite
  congr 1

theorem overwrite_data {start : Nat} (fits : start + bytes.length ≤ PageSize) :
    (p.overwrite start bytes).data = p.data.take start ++ bytes ++ p.data.drop (start + bytes.length) :=
  ListEdits.overwrite_of_fits (p.size.symm ▸ fits)

theorem store_exec {inside : Prop} [Decidable inside] (holds : inside) (start : Nat) (bytes : Bytes) :
    (store inside start bytes).exec p = (.ok (),p.overwrite start bytes) := by
  have passed : (Proc.refuse (¬inside) Error.panics : RawPageM Unit).exec p = (.ok (),p) := by
    rw [exec_refuse,if_neg (not_not_intro holds)]
  unfold store
  rw [exec_bind_ok passed,exec_modify]

theorem writeRecord_full (full : PageSize < p.freeOffset.toNat + (Record.mk flag key value).size) :
    (writeRecord key value flag).exec p = (.error .pageFull,p) := by
  unfold writeRecord
  rw [exec_bind_ok (exec_get p)]
  apply exec_bind_error
  have size : (Record.mk flag key value).size = recordHeaderSize + key.length + value.length := rfl
  rw [exec_refuse,if_pos]
  unfold remaining
  omega

theorem overwrite_encode {offset : Nat} (room : offset + r.size ≤ PageSize) :
    ((((p.overwrite offset [r.flag]).overwrite (offset + 1) (LittleEndian.put 2 r.key.length)).overwrite (offset + 3)
      (LittleEndian.put 2 r.value.length)).overwrite (offset + 5) r.key).overwrite (offset + 5 + r.key.length) r.value =
        p.overwrite offset r.encode := by
  unfold Record.size recordHeaderSize at room
  have lengths : (LittleEndian.put 2 r.key.length).length = 2 ∧ (LittleEndian.put 2 r.value.length).length = 2 :=
    ⟨LittleEndian.length_put ..,LittleEndian.length_put ..⟩
  rw [Record.encode]
  generalize LittleEndian.put 2 r.key.length = keyLen at lengths ⊢
  generalize LittleEndian.put 2 r.value.length = valLen at lengths ⊢
  rw [overwrite_next rfl (by omega),overwrite_next (by omega) (by simp only [List.length_append]; omega),
    overwrite_next (by omega) (by simp only [List.length_append]; omega),
    overwrite_next (by rfl) (by simp only [List.length_append]; omega)]
  simp

/-- The five writes are to bytes that follow each other, and together they are the encoded record. -/
theorem writeRecord_room (room : p.freeOffset.toNat + (Record.mk flag key value).size ≤ PageSize) :
    (writeRecord key value flag).exec p =
      (.ok (),(p.overwrite p.freeOffset.toNat (Record.mk flag key value).encode).setFreeOffset
        (p.freeOffset + .ofNat (Record.mk flag key value).size)) := by
  have bound : p.freeOffset.toNat + (5 + key.length + value.length) ≤ 4096 := room
  have one : (p.freeOffset + 1).toNat = p.freeOffset.toNat + 1 := add_exact rfl (by omega)
  have three : (p.freeOffset + 3).toNat = p.freeOffset.toNat + 3 := add_exact rfl (by omega)
  have five : (p.freeOffset + 5).toNat = p.freeOffset.toNat + 5 := add_exact rfl (by omega)
  have keyLen : (UInt16.ofNat key.length).toNat = key.length := toNat_ofNat_exact (by omega)
  have valLen : (UInt16.ofNat value.length).toNat = value.length := toNat_ofNat_exact (by omega)
  have passed : (Proc.refuse (p.remaining < (5 + key.length + value.length : Nat)) Error.pageFull :
      RawPageM Unit).exec p = (.ok (),p) := by
    rw [exec_refuse,if_neg]
    unfold remaining PageSize
    omega
  unfold writeRecord setByte putUint16 copy recordHeaderSize
  rw [exec_bind_ok (exec_get p)]
  dsimp only
  rw [exec_bind_ok passed]
  have inside : p.freeOffset.toNat + 5 + key.length ≤ PageSize := by
    unfold PageSize
    omega
  rw [exec_bind_ok (store_exec (by omega) _ _),exec_bind_ok (store_exec (by omega) _ _),
    exec_bind_ok (store_exec (by omega) _ _),exec_bind_ok (store_exec (by omega) _ _),
    exec_bind_ok (store_exec (by omega) _ _),exec_modify,one,three,keyLen,valLen,
    overwrite_encode (r := ⟨flag,key,value⟩) room]
  rfl

theorem header_written {offset : Nat} (start : HeaderSize ≤ offset) (fits : offset + bytes.length ≤ PageSize)
    (free : UInt16) : let q := (p.overwrite offset bytes).setFreeOffset free
    q.data.take 4 = p.data.take 4 ∧ (q.data.drop 4).take 2 = LittleEndian.put 2 free.toNat ∧
      (q.data.drop 6).take 4 = (p.data.drop 6).take 4 ∧
      q.data.drop HeaderSize = ListEdits.overwrite (p.data.drop HeaderSize) (offset - HeaderSize) bytes := by
  intro q
  unfold HeaderSize PageSize at *
  have inside : offset + bytes.length ≤ p.data.length := p.size.symm ▸ fits
  have length : (LittleEndian.put 2 free.toNat).length = 2 := LittleEndian.length_put ..
  have header : 4 + (LittleEndian.put 2 free.toNat).length ≤ (p.overwrite offset bytes).data.length := by
    rw [length,(p.overwrite offset bytes).size]
    decide
  have rest : ∀ n, 6 ≤ n → n ≤ offset →
      q.data.drop n = ListEdits.overwrite (p.data.drop n) (offset - n) bytes := by
    intro n behind before
    exact (ListEdits.drop_overwrite header (by omega)).trans (ListEdits.drop_overwrite_inside inside before)
  refine ⟨?_,?_,?_,rest 16 (by decide) start⟩
  · exact (ListEdits.take_overwrite header (Nat.le_refl 4)).trans (ListEdits.take_overwrite inside (by omega))
  · have here := ListEdits.overwrite_slice header
    rwa [length] at here
  · rw [rest 6 (Nat.le_refl 6) (by omega)]
    apply ListEdits.take_overwrite
    · rw [List.length_drop]
      omega
    · omega

theorem header_linked (id : UInt32) : let q := p.setNextPageID id
    q.data.take 6 = p.data.take 6 ∧ (q.data.drop 6).take 4 = LittleEndian.put 4 id.toNat ∧
      q.data.drop HeaderSize = p.data.drop HeaderSize := by
  intro q
  have length : (LittleEndian.put 4 id.toNat).length = 4 := LittleEndian.length_put ..
  have fits : 6 + (LittleEndian.put 4 id.toNat).length ≤ p.data.length := by
    rw [length,p.size]
    decide
  refine ⟨ListEdits.take_overwrite fits (Nat.le_refl 6),?_,ListEdits.drop_overwrite fits (by rw [length]; decide)⟩
  have here := ListEdits.overwrite_slice fits
  rwa [length] at here

theorem read_put_uint16 (n : UInt16) : LittleEndian.read (LittleEndian.put 2 n.toNat) = n.toNat :=
  LittleEndian.read_put_of_lt n.toNat_lt

theorem block_ext {b c : Block} (id : b.id = c.id) (free : b.free = c.free) (next : b.next = c.next)
    (body : b.body = c.body) : b = c := by
  cases b
  cases c
  cases id
  cases free
  cases next
  cases body
  rfl

theorem writeRecord_page (start : HeaderSize ≤ p.freeOffset.toNat) (key value : Bytes) (flag : UInt8) :
    match GoDb.writeRecord p.page key value flag with
    | .error e => (writeRecord key value flag).exec p = (.error e,p)
    | .ok page => ∃ p', (writeRecord key value flag).exec p = (.ok (),p') ∧ p'.page = page := by
  have free := freeOffset_page p
  by_cases room : p.freeOffset.toNat + (Record.mk flag key value).size ≤ PageSize
  · have fits : p.freeOffset.toNat + (Record.mk flag key value).encode.length ≤ PageSize :=
      (Record.mk flag key value).length_encode.symm ▸ room
    obtain ⟨id,offset,next,body⟩ := header_written start fits (p.freeOffset + .ofNat (Record.mk flag key value).size)
    rw [GoDb.writeRecord,if_neg (by unfold Page.remaining Page.freeOffset; omega)]
    refine ⟨_,writeRecord_room room,?_⟩
    unfold page
    congr 1
    apply block_ext
    · exact congrArg LittleEndian.read id
    · change LittleEndian.read _ = (p.page.data.free + _) % 2^16
      rw [offset,read_put_uint16,advance room,← free]
      unfold PageSize at room
      omega
    · change (if LittleEndian.read _ = NoPage then none else _) = _
      rw [next]
      rfl
    · refine body.trans ?_
      rw [free]
      rfl
  · rw [GoDb.writeRecord_full (by omega)]
    exact writeRecord_full (by omega)

theorem setNextPageID_holds {records : List Record} (holds : p.page.data.Holds records) (id : UInt32) :
    (p.setNextPageID id).page.data.Holds records := by
  obtain ⟨front,-,body⟩ := header_linked (p := p) id
  constructor
  · refine Eq.trans ?_ holds.free
    change LittleEndian.read (((p.setNextPageID id).data.drop 4).take 2) = LittleEndian.read ((p.data.drop 4).take 2)
    rw [List.take_drop,front,List.drop_take]
  · have inside := holds.inside
    change encodeAll records <+: p.data.drop HeaderSize at inside
    rwa [← body] at inside

theorem newPage_data (id : UInt32) : (newPage id).data =
    LittleEndian.put 4 id.toNat ++ (LittleEndian.put 2 HeaderSize ++
      (LittleEndian.put 4 NoPage ++ List.replicate (PageSize - 10) 0)) := by
  have length (width n : Nat) : (LittleEndian.put width n).length = width := LittleEndian.length_put width n
  unfold newPage
  dsimp only
  rw [overwrite_next (by rw [length]) (by rw [length]; decide),
    overwrite_next (by rw [length]) (by rw [List.length_append,length,length]; decide),
    overwrite_data (by rw [List.length_append,List.length_append,length,length,length]; decide)]
  simp only [List.take_zero,List.nil_append,List.length_append,length,List.drop_replicate,List.append_assoc]

theorem newPage_page (id : UInt32) : (newPage id).page = GoDb.newPage id.toNat := by
  have length (width n : Nat) : (LittleEndian.put width n).length = width := LittleEndian.length_put width n
  have data := newPage_data id
  have same : (newPage id).id = id := rfl
  generalize newPage id = p at data same
  unfold page
  rw [same]
  refine congrArg (Page.mk id.toNat) (block_ext ?_ ?_ ?_ ?_)
  · change LittleEndian.read (p.data.take 4) = id.toNat
    rw [data,List.take_left' (length ..),LittleEndian.read_put_of_lt id.toNat_lt]
  · change LittleEndian.read ((p.data.drop 4).take 2) = HeaderSize
    rw [data,List.drop_left' (length ..),List.take_left' (length ..)]
    rfl
  · change (if LittleEndian.read ((p.data.drop 6).take 4) = NoPage then none else _) = none
    have next : (p.data.drop 6).take 4 = LittleEndian.put 4 NoPage := by
      rw [data,← List.append_assoc,List.drop_left' (by rw [List.length_append,length,length]),
        List.take_left' (length ..)]
    rw [next,LittleEndian.read_put_of_lt (by decide),if_pos rfl]
  · change p.data.drop HeaderSize = List.replicate (PageSize - HeaderSize) 0
    have front : (LittleEndian.put 4 id.toNat ++ LittleEndian.put 2 HeaderSize ++
        LittleEndian.put 4 NoPage).length = 10 := by
      rw [List.length_append,List.length_append,length,length,length]
    rw [data,← List.append_assoc,← List.append_assoc,List.drop_append,front,
      List.drop_eq_nil_of_le (front ▸ by decide),List.drop_replicate]
    rfl

inductive Edit
  | writeRecord (key value : Bytes) (flag : UInt8)
  | setNextPageID (id : UInt32)

def Edit.run : Edit → RawPageM Unit
  | .writeRecord key value flag => RawPage.writeRecord key value flag
  | .setNextPageID id => modify (·.setNextPageID id)

def edited (id : UInt32) (edits : List Edit) : RawPage := edits.foldl (fun p edit => (edit.run.exec p).2) (newPage id)

theorem free_of_holds {records : List Record} (holds : p.page.data.Holds records) :
    p.freeOffset.toNat = HeaderSize + (encodeAll records).length ∧ p.freeOffset.toNat ≤ PageSize := by
  have bounds := holds.free_le
  rw [freeOffset_page]
  exact ⟨holds.free,bounds.2⟩

structure Appended (p : RawPage) (r : Record) (p' : RawPage) : Prop where
  id : p'.id = p.id
  header : p'.data.take 4 = p.data.take 4
  next : (p'.data.drop 6).take 4 = (p.data.drop 6).take 4
  holds : ∀ {records}, p.page.data.Holds records → p'.page.data.Holds (records ++ [r])

theorem writeRecord_appended (start : HeaderSize ≤ p.freeOffset.toNat)
    (room : p.freeOffset.toNat + (Record.mk flag key value).size ≤ PageSize) :
    ∃ p', (writeRecord key value flag).exec p = (.ok (),p') ∧ Appended p ⟨flag,key,value⟩ p' := by
  have fits : p.freeOffset.toNat + (Record.mk flag key value).encode.length ≤ PageSize :=
    (Record.mk flag key value).length_encode.symm ▸ room
  obtain ⟨header,-,next,-⟩ := header_written start fits (p.freeOffset + .ofNat (Record.mk flag key value).size)
  refine ⟨_,writeRecord_room room,rfl,header,next,fun {records} holds => ?_⟩
  obtain ⟨page,done,written⟩ := GoDb.writeRecord_room (freeOffset_page p ▸ room)
  have same := writeRecord_page start key value flag
  rw [done,writeRecord_room room] at same
  obtain ⟨p',run,rfl⟩ := same
  rw [(Prod.mk.inj run).2]
  exact written.holds holds

theorem writeRecord_holds {records : List Record} (holds : p.page.data.Holds records) (key value : Bytes) (flag : UInt8) :
    (PageSize < p.freeOffset.toNat + (Record.mk flag key value).size ∧
        (writeRecord key value flag).exec p = (.error .pageFull,p)) ∨
      p.freeOffset.toNat + (Record.mk flag key value).size ≤ PageSize ∧ ∃ p',
        (writeRecord key value flag).exec p = (.ok (),p') ∧ Appended p ⟨flag,key,value⟩ p' := by
  by_cases full : PageSize < p.freeOffset.toNat + (Record.mk flag key value).size
  · exact .inl ⟨full,writeRecord_full full⟩
  · have start : HeaderSize ≤ p.freeOffset.toNat := freeOffset_page p ▸ holds.free_le.1
    exact .inr ⟨Nat.le_of_not_lt full,writeRecord_appended start (Nat.le_of_not_lt full)⟩

theorem Edit.holds {records : List Record} (holds : p.page.data.Holds records) (edit : Edit) :
    ∃ records', (edit.run.exec p).2.page.data.Holds records' := by
  cases edit with
  | setNextPageID id => exact ⟨records,setNextPageID_holds holds id⟩
  | writeRecord key value flag =>
    change ∃ records', ((RawPage.writeRecord key value flag).exec p).2.page.data.Holds records'
    rcases writeRecord_holds holds key value flag with ⟨-,full⟩ | ⟨-,p',done,written⟩
    · rw [full]
      exact ⟨records,holds⟩
    · rw [done]
      exact ⟨_,written.holds holds⟩

theorem edited_holds (id : UInt32) (edits : List Edit) : ∃ records, (edited id edits).page.data.Holds records := by
  unfold edited
  have start : ∃ records, (newPage id).page.data.Holds records := ⟨[],newPage_page id ▸ newPage_holds id.toNat⟩
  generalize newPage id = p at start
  induction edits generalizing p with
  | nil => exact start
  | cons edit edits ih =>
    obtain ⟨records,holds⟩ := start
    exact ih _ (edit.holds holds)

/-- The sums of an offset with the positions of `size` bytes behind it stay in 16 bits. -/
def Unwrapped (offset : UInt16) (size : Nat) : Prop := ∀ n ≤ size, (offset + .ofNat n).toNat = offset.toNat + n

theorem unwrapped_of_inside {size : Nat} (inside : offset.toNat + size ≤ PageSize) : Unwrapped offset size := by
  unfold PageSize at inside
  intro n before
  exact add_exact (toNat_ofNat_exact (by omega)) (by omega)

theorem length_encodeAll_cons (r : Record) (records : List Record) :
    (encodeAll (r::records)).length = r.size + (encodeAll records).length := by
  rw [encodeAll_cons,List.length_append,r.length_encode]

theorem placed_concat {free : UInt16} {records : List Record} (r : Record)
    (ends : free.toNat = offset.toNat + (encodeAll records).length) (inside : free.toNat ≤ PageSize) :
    placed offset (records ++ [r]) = placed offset records ++ [(free,r)] := by
  induction records generalizing offset with
  | nil =>
    rw [UInt16.toNat_inj.mp ends]
    rfl
  | cons first records ih =>
    rw [length_encodeAll_cons] at ends
    have next := advance (show offset.toNat + first.size ≤ PageSize by omega)
    rw [List.cons_append,placed,placed,ih (by omega),List.cons_append]

theorem placed_inside {records : List Record} (inside : offset.toNat + (encodeAll records).length ≤ PageSize)
    {entry : UInt16 × Record} (member : entry ∈ placed offset records) : entry.1.toNat + entry.2.size ≤ PageSize := by
  induction records generalizing offset with
  | nil => cases member
  | cons r records ih =>
    rw [length_encodeAll_cons] at inside
    rcases List.mem_cons.mp member with rfl | later
    · dsimp only
      omega
    · have next := advance (show offset.toNat + r.size ≤ PageSize by omega)
      exact ih (by omega) later

theorem records_of_holds {records : List Record} (holds : p.page.data.Holds records) :
    p.records = (placed (.ofNat HeaderSize) records,none) := by
  rw [records_page,Page.records_of_holds holds]

theorem nextPageID_of_page {q : RawPage} (next : (q.data.drop 6).take 4 = (p.data.drop 6).take 4) :
    q.nextPageID = p.nextPageID := by
  unfold nextPageID
  rw [next]

/-- A page that was made by `NewPage` and changed by any of these calls is a list of records to which `writeRecord`
appends, or which it leaves as it is when there is no room. -/
theorem page_append_only (id : UInt32) (edits : List Edit) (flag : UInt8) (key value : Bytes) :
    let p := edited id edits
    let result := (writeRecord key value flag).exec p
    (result.1 = .ok () ↔ 5 + key.length + value.length ≤ 4096 - p.freeOffset.toNat) ∧
      (result.1 = .ok () →
        (∃ records, p.records = (records,none) ∧
          result.2.records = (records ++ [(p.freeOffset,⟨flag,key,value⟩)],none)) ∧
        result.2.id = p.id ∧ result.2.data.take 4 = p.data.take 4 ∧ result.2.nextPageID = p.nextPageID) ∧
      (∀ e, result.1 = .error e → e = .pageFull ∧ result.2 = p) ∧
      (p.freeOffset.toNat ≤ 4096 ∧ (∀ entry ∈ p.records.1, Unwrapped entry.1 entry.2.size) ∧
        (result.1 = .ok () → (UInt16.ofNat key.length).toNat = key.length ∧
          (UInt16.ofNat value.length).toNat = value.length ∧
          Unwrapped p.freeOffset (5 + key.length + value.length) ∧
          result.2.freeOffset.toNat = p.freeOffset.toNat + (5 + key.length + value.length))) := by
  intro p result
  obtain ⟨records,holds⟩ : ∃ records, p.page.data.Holds records := edited_holds id edits
  obtain ⟨ends,bound⟩ := free_of_holds holds
  have unwrapped : ∀ entry ∈ p.records.1, Unwrapped entry.1 entry.2.size := by
    intro entry member
    rw [records_of_holds holds] at member
    apply unwrapped_of_inside
    exact placed_inside (ends ▸ bound) member
  have size : (Record.mk flag key value).size = 5 + key.length + value.length := rfl
  rcases writeRecord_holds holds key value flag with ⟨full,run⟩ | ⟨room,p',run,appended⟩
  · have none : result = (.error .pageFull,p) := run
    rw [none]
    refine ⟨⟨fun done => (nomatch done),fun room => ?_⟩,fun done => (nomatch done),?_,bound,unwrapped,
      fun done => nomatch done⟩
    · change 5 + key.length + value.length ≤ PageSize - p.freeOffset.toNat at room
      omega
    · intro e failed
      exact ⟨(Except.error.inj failed).symm,rfl⟩
  · have done : result = (.ok (),p') := run
    have ends' := (free_of_holds (appended.holds holds)).1
    rw [encodeAll_concat,List.length_append,Record.length_encode,size] at ends'
    rw [size] at room
    have inside : p.freeOffset.toNat + (5 + key.length + value.length) ≤ 4096 := room
    rw [done]
    refine ⟨⟨fun _ => by omega,fun _ => rfl⟩,fun _ => ⟨⟨_,records_of_holds holds,?_⟩,appended.id,appended.header,
      nextPageID_of_page appended.next⟩,fun _ failed => (nomatch failed),bound,unwrapped,fun _ => ?_⟩
    · rw [records_of_holds (appended.holds holds),placed_concat _ ends bound]
    · refine ⟨toNat_ofNat_exact (by omega),toNat_ofNat_exact (by omega),unwrapped_of_inside room,?_⟩
      dsimp only
      omega

theorem page_append_only_new :
    let p := edited 7 []
    let result := (writeRecord [1] [2] flagLive).exec p
    result.1 = .ok () ∧ result.2.id = p.id ∧ result.2.nextPageID = p.nextPageID := by
  have free : (edited 7 []).freeOffset.toNat = 16 := by
    rw [freeOffset_page]
    exact congrArg (fun page : Page => page.data.free) (newPage_page 7)
  obtain ⟨room,appended,-⟩ := page_append_only 7 [] flagLive [1] [2]
  have done := room.mpr (by rw [free]; decide)
  obtain ⟨-,id,-,next⟩ := appended done
  exact ⟨done,id,next⟩

end RawPage
end GoDb
