import GoDb.Page

/-! A page holds a list of records: its record area starts with their encodings,
and the free offset is where they end. Reading gives the list back, writing
appends to it. -/
namespace GoDb
open Foundation

theorem Record.length_encode (r : Record) : r.encode.length = r.size := by
  simp only [Record.encode,Record.size,recordHeaderSize,List.length_cons,List.length_append,
    LittleEndian.length_put]
  omega

def encodeAll (records : List Record) : Bytes := records.flatMap Record.encode

theorem encodeAll_cons (r : Record) (records : List Record) :
    encodeAll (r::records) = r.encode ++ encodeAll records := List.flatMap_cons

theorem encodeAll_concat (records : List Record) (r : Record) :
    encodeAll (records ++ [r]) = encodeAll records ++ r.encode := by
  simp [encodeAll]

theorem length_le_encodeAll (records : List Record) : 5 * records.length ≤ (encodeAll records).length := by
  induction records with
  | nil => exact Nat.zero_le _
  | cons r records ih =>
    rw [encodeAll_cons,List.length_append,List.length_cons,r.length_encode,Record.size,recordHeaderSize]
    omega

structure Block.Holds (b : Block) (records : List Record) : Prop where
  free : b.free = HeaderSize + (encodeAll records).length
  inside : encodeAll records <+: b.body

variable {records : List Record} {data : Block} {offset : Nat}

theorem Block.Holds.length_le {b : Block} (holds : b.Holds records) :
    (encodeAll records).length ≤ PageSize - HeaderSize :=
  b.size ▸ holds.inside.length_le

theorem Block.Holds.free_le {b : Block} (holds : b.Holds records) : HeaderSize ≤ b.free ∧ b.free ≤ PageSize := by
  have inside := holds.length_le
  have free := holds.free
  unfold PageSize HeaderSize at *
  omega

theorem newPage_holds (id : Nat) : (newPage id).data.Holds [] := ⟨rfl,List.nil_prefix⟩

private theorem read_slices (r : Record) (rest : Bytes) (small : r.size ≤ PageSize) :
    let bytes := r.encode ++ rest
    LittleEndian.read ((bytes.drop 1).take 2) = r.key.length ∧
      LittleEndian.read ((bytes.drop 3).take 2) = r.value.length ∧
      (bytes.drop recordHeaderSize).take r.key.length = r.key ∧
      (bytes.drop (recordHeaderSize + r.key.length)).take r.value.length = r.value := by
  have short : r.key.length < 256^2 ∧ r.value.length < 256^2 := by
    simp only [Record.size,recordHeaderSize,PageSize] at small
    omega
  have keyLen := LittleEndian.read_put_of_lt short.1
  have valLen := LittleEndian.read_put_of_lt short.2
  simp only [LittleEndian.put] at keyLen valLen
  refine ⟨?_,?_,?_,?_⟩
  · simpa [Record.encode,LittleEndian.put] using keyLen
  · simpa [Record.encode,LittleEndian.put] using valLen
  · simp [Record.encode,LittleEndian.put,recordHeaderSize]
  · rw [← List.drop_drop]
    simp [Record.encode,LittleEndian.put,recordHeaderSize]

theorem readRecord_encode {r : Record} {rest : Bytes} (start : HeaderSize ≤ offset)
    (here : data.body.drop (offset - HeaderSize) = r.encode ++ rest) : readRecord data offset = .ok r := by
  have lengths := congrArg List.length here
  rw [List.length_drop,List.length_append,r.length_encode,data.size] at lengths
  have positive : recordHeaderSize ≤ r.size := by unfold Record.size; omega
  have inside : offset + r.size ≤ PageSize := by
    unfold HeaderSize PageSize recordHeaderSize at *
    omega
  obtain ⟨keyLen,valLen,key,value⟩ := read_slices r rest (by omega)
  have sized : offset + recordHeaderSize + r.key.length + r.value.length = offset + r.size := by
    unfold Record.size
    omega
  rw [readRecord,if_neg (by omega)]
  simp only [here,keyLen,valLen,key,value]
  rw [if_neg (by omega)]
  rfl

private theorem recordsFrom_encodeAll (records : List Record) {fuel : Nat} {rest : Bytes}
    (start : HeaderSize ≤ offset) (here : data.body.drop (offset - HeaderSize) = encodeAll records ++ rest)
    (enough : records.length < fuel) :
    recordsFrom data (offset + (encodeAll records).length) fuel offset = (records,none) := by
  induction records generalizing fuel offset with
  | nil =>
    obtain ⟨fuel,rfl⟩ := Nat.exists_eq_succ_of_ne_zero (Nat.ne_of_gt enough)
    simp [recordsFrom,encodeAll]
  | cons r records ih =>
    obtain ⟨fuel,rfl⟩ := Nat.exists_eq_succ_of_ne_zero (Nat.ne_of_gt (Nat.lt_of_le_of_lt (Nat.zero_le _) enough))
    have found : data.body.drop (offset - HeaderSize) = r.encode ++ (encodeAll records ++ rest) := by
      rw [here,encodeAll_cons,List.append_assoc]
    have next : data.body.drop (offset + r.size - HeaderSize) = encodeAll records ++ rest := by
      rw [Nat.sub_add_comm start,← List.drop_drop,found,← r.length_encode,List.drop_left]
    have positive : 0 < r.size := by unfold Record.size recordHeaderSize; omega
    have length : (encodeAll (r::records)).length = r.size + (encodeAll records).length := by
      rw [encodeAll_cons,List.length_append,r.length_encode]
    rw [recordsFrom,if_pos (by omega),readRecord_encode start found,length,← Nat.add_assoc]
    simp only [ih (by omega) next (Nat.lt_of_succ_lt_succ enough)]

theorem Page.records_of_holds {p : Page} (holds : p.data.Holds records) : p.records = (records,none) := by
  obtain ⟨rest,body⟩ := holds.inside
  have few : records.length < PageSize := by
    have bytes := length_le_encodeAll records
    have inside := holds.length_le
    unfold PageSize HeaderSize at *
    omega
  rw [Page.records,Page.freeOffset,holds.free]
  exact recordsFrom_encodeAll records (Nat.le_refl _) (by rw [Nat.sub_self,List.drop_zero,body]) few

theorem encode_of_readRecord {r : Record} (start : HeaderSize ≤ offset) (read : readRecord data offset = .ok r) :
    ∃ rest, data.body.drop (offset - HeaderSize) = r.encode ++ rest := by
  unfold readRecord at read
  have size := data.size
  by_cases header : PageSize < offset + recordHeaderSize
  · rw [if_pos header] at read
    cases read
  rw [if_neg header] at read
  have length : (data.body.drop (offset - HeaderSize)).length = PageSize - offset := by
    rw [List.length_drop,size]
    unfold PageSize HeaderSize at *
    omega
  generalize data.body.drop (offset - HeaderSize) = bytes at read length
  rcases bytes with _ | ⟨flag,_ | ⟨k₀,_ | ⟨k₁,_ | ⟨v₀,_ | ⟨v₁,rest⟩⟩⟩⟩⟩
  iterate 5
    simp only [List.length_nil,List.length_cons] at length
    unfold PageSize recordHeaderSize at *
    omega
  have key := LittleEndian.put_read [k₀,k₁]
  have value := LittleEndian.put_read [v₀,v₁]
  simp only [List.drop_succ_cons,List.drop_zero,List.take_succ_cons,List.take_zero,List.headD_cons,recordHeaderSize] at read
  generalize LittleEndian.read [k₀,k₁] = keyLen at read key
  generalize LittleEndian.read [v₀,v₁] = valLen at read value
  by_cases body : PageSize < offset + 5 + keyLen + valLen
  · rw [if_pos body] at read
    cases read
  rw [if_neg body] at read
  cases read
  simp only [List.length_cons] at length
  have room : keyLen + valLen ≤ rest.length := by omega
  have keyLength : (rest.take keyLen).length = keyLen := List.length_take_of_le (by omega)
  have valueLength : ((rest.drop keyLen).take valLen).length = valLen :=
    List.length_take_of_le (by rw [List.length_drop]; omega)
  have behind : (flag::k₀::k₁::v₀::v₁::rest).drop (5 + keyLen) = rest.drop keyLen := by
    rw [← List.drop_drop]
    rfl
  refine ⟨rest.drop (keyLen + valLen),?_⟩
  rw [Record.encode,behind,keyLength,valueLength]
  simp only [List.length_cons,List.length_nil] at key value
  rw [key,value]
  simp only [List.cons_append,List.nil_append,List.append_assoc]
  rw [← List.drop_drop,List.take_append_drop,List.take_append_drop]

theorem recordsFrom_inside {free fuel : Nat} (start : HeaderSize ≤ offset)
    (read : recordsFrom data free fuel offset = (records,none)) :
    (∃ rest, data.body.drop (offset - HeaderSize) = encodeAll records ++ rest) ∧
      free ≤ offset + (encodeAll records).length := by
  induction fuel generalizing offset records with
  | zero => cases read
  | succ fuel ih =>
    unfold recordsFrom at read
    by_cases more : offset < free
    · rw [if_pos more] at read
      cases first : readRecord data offset with
      | error e =>
        rw [first] at read
        cases read
      | ok r =>
        rw [first] at read
        obtain ⟨rest,here⟩ := encode_of_readRecord start first
        rcases tail : recordsFrom data free fuel (offset + r.size) with ⟨later,failed⟩
        simp only [tail] at read
        obtain ⟨rfl,rfl⟩ := Prod.mk.inj read
        obtain ⟨⟨rest',inside⟩,bound⟩ := ih (by omega) tail
        have next : data.body.drop (offset + r.size - HeaderSize) = rest := by
          rw [Nat.sub_add_comm start,← List.drop_drop,here,← r.length_encode,List.drop_left]
        rw [encodeAll_cons,List.length_append,r.length_encode]
        refine ⟨⟨rest',?_⟩,by omega⟩
        rw [here,List.append_assoc,← inside,next]
    · rw [if_neg more] at read
      cases read
      exact ⟨⟨_,rfl⟩,by omega⟩

theorem Page.records_inside {p : Page} (read : p.records = (records,none)) :
    encodeAll records <+: p.data.body ∧ p.data.free ≤ HeaderSize + (encodeAll records).length := by
  obtain ⟨⟨rest,inside⟩,bound⟩ := recordsFrom_inside (Nat.le_refl _) read
  rw [Nat.sub_self,List.drop_zero] at inside
  exact ⟨⟨rest,inside.symm⟩,bound⟩

theorem writeRecord_full {page : Page} {key value : Bytes} {flag : UInt8}
    (full : PageSize < page.data.free + (Record.mk flag key value).size) :
    writeRecord page key value flag = .error .pageFull := by
  rw [writeRecord,if_pos]
  unfold Page.remaining Page.freeOffset
  omega

structure Written (page : Page) (r : Record) (page' : Page) : Prop where
  id : page'.id = page.id
  header : page'.data.id = page.data.id
  next : page'.data.next = page.data.next
  holds : ∀ {records}, page.data.Holds records → page'.data.Holds (records ++ [r])

theorem writeRecord_room {page : Page} {key value : Bytes} {flag : UInt8}
    (room : page.data.free + (Record.mk flag key value).size ≤ PageSize) :
    ∃ page', writeRecord page key value flag = .ok page' ∧ Written page ⟨flag,key,value⟩ page' := by
  rw [writeRecord,if_neg (by unfold Page.remaining Page.freeOffset; omega)]
  refine ⟨_,rfl,rfl,rfl,rfl,fun {records} holds => ?_⟩
  have length := (Record.mk flag key value).length_encode
  have free : page.freeOffset - HeaderSize = (encodeAll records).length := by
    rw [Page.freeOffset,holds.free,Nat.add_sub_cancel_left]
  constructor
  · change (page.data.free + _) % 2^16 = _
    rw [Nat.mod_eq_of_lt (Nat.lt_of_le_of_lt room (by decide)),holds.free,encodeAll_concat,
      List.length_append,length,Nat.add_assoc]
  · change _ <+: ListEdits.overwrite page.data.body (page.freeOffset - HeaderSize) _
    rw [encodeAll_concat,free]
    apply ListEdits.overwrite_prefix holds.inside
    have start := holds.free
    rw [length,page.data.size]
    unfold PageSize HeaderSize at *
    omega

end GoDb
