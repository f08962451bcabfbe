import GoDb.CodecMeaning
import Mathlib.Data.List.Perm.Subperm

/-! The row codec in both directions. What is written is read back, except that a byte
slice of length 0 comes back as nil; what was read is written as the same bytes, except for
the bits of the bitmap that stand for no column. -/
namespace GoDb.Schema
open Foundation

variable {s : Schema} {row acc : Row} {columns : List Column} {data : Bytes} {p : Nat} {c : Column} {v : Value}
  {b : Bytes}

private theorem word_bytes (inside : ¬data.length < p + 8) :
    data.drop p = LittleEndian.put 8 (UInt64.ofNat (readAt data p 8)).toNat ++ data.drop (p + 8) := by
  have width : ((data.drop p).take 8).length = 8 := by
    rw [List.length_take,List.length_drop]
    omega
  have bytes := LittleEndian.put_read ((data.drop p).take 8)
  have bound := LittleEndian.read_lt ((data.drop p).take 8)
  rw [width] at bytes bound
  have word : (UInt64.ofNat (readAt data p 8)).toNat = readAt data p 8 := UInt64.toNat_ofNat_of_lt' bound
  rw [word,readAt,bytes,← List.drop_drop,List.take_append_drop]

private theorem drop_of_getElem? {byte : UInt8} (here : data[p]? = some byte) :
    data.drop p = byte::data.drop (p + 1) := by
  obtain ⟨inside,rfl⟩ := List.getElem?_eq_some_iff.mp here
  exact List.drop_eq_getElem_cons inside

private theorem block_bytes {q : Nat} {block : Bytes} (decoded : decodeBlock c data p = .ok (block,q)) :
    data.drop p = (LittleEndian.put 4 block.length ++ block) ++ data.drop q := by
  unfold decodeBlock at decoded
  split_ifs at decoded with short
  dsimp only at decoded
  split_ifs at decoded with long
  obtain ⟨rfl,rfl⟩ := Prod.mk.inj (Except.ok.inj decoded)
  have width : ((data.drop p).take 4).length = 4 := by
    rw [List.length_take,List.length_drop]
    omega
  have length : ((data.drop (p + 4)).take (readAt data p 4)).length = readAt data p 4 := by
    rw [List.length_take,List.length_drop]
    omega
  have bytes : LittleEndian.put 4 (readAt data p 4) = (data.drop p).take 4 := by
    have same := LittleEndian.put_read ((data.drop p).take 4)
    rwa [width] at same
  rw [length,bytes,List.append_assoc,← List.drop_drop (i := readAt data p 4),List.take_append_drop,← List.drop_drop,
    List.take_append_drop]

theorem encodeValue_decodeValue {q : Nat} (decoded : decodeValue c data p = .ok (v,q)) :
    ∃ bytes, encodeValue c v = .ok bytes ∧ data.drop p = bytes ++ data.drop q ∧ v ≠ .nil ∧ v.stored c.type = v := by
  unfold decodeValue at decoded
  split at decoded
  all_goals rename_i type
  · rcases block : decodeBlock c data p with e | ⟨b,q'⟩
    · rw [block] at decoded
      cases decoded
    · rw [block] at decoded
      cases decoded
      exact ⟨_,by simp only [encodeValue,type],block_bytes block,by simp,by simp [Value.stored,type]⟩
  · rcases block : decodeBlock c data p with e | ⟨b,q'⟩
    · rw [block] at decoded
      cases decoded
    · rw [block] at decoded
      cases decoded
      have held : (if b = [] then none else some b : Option Bytes).getD [] = b := by
        split_ifs with empty
        · exact empty.symm
        · rfl
      exact ⟨_,by simp only [encodeValue,type,held],block_bytes block,by simp,by simp [Value.stored,type,held]⟩
  · split at decoded
    · rename_i here
      cases decoded
      exact ⟨[0],by simp [encodeValue,type],drop_of_getElem? here,by simp,by simp [Value.stored,type]⟩
    · rename_i here
      cases decoded
      exact ⟨[1],by simp [encodeValue,type],drop_of_getElem? here,by simp,by simp [Value.stored,type]⟩
    · cases decoded
  · split_ifs at decoded with short
    cases decoded
    exact ⟨_,by simp [encodeValue,type],word_bytes short,by simp,by simp [Value.stored,type]⟩
  · split_ifs at decoded with short
    cases decoded
    exact ⟨_,by simp [encodeValue,type],word_bytes short,by simp,by simp [Value.stored,type]⟩
  · split_ifs at decoded with short
    cases decoded
    refine ⟨_,?_,word_bytes short,by simp,by simp [Value.stored,type,Time.unixNano]⟩
    simp only [encodeValue,type,Time.unixNano,Int64.ofInt_toInt]
    rfl

private theorem decodeFrom_cons (decoded : decodeFrom s data (c::columns) p acc = .ok row) :
    ∃ v bytes q, decodeFrom s data columns q (acc.insert c.name v) = .ok row ∧ v.stored c.type = v ∧
      data.drop p = bytes ++ data.drop q ∧
      ((v = .nil ∧ bytes = [] ∧ Bitmap.test (data.take (bitmapSize s.columns)) (indexOf s.columns c) = true) ∨
        v ≠ .nil ∧ encodeValue c v = .ok bytes ∧
          Bitmap.test (data.take (bitmapSize s.columns)) (indexOf s.columns c) = false) := by
  unfold decodeFrom at decoded
  split_ifs at decoded with null
  · exact ⟨.nil,[],p,decoded,Value.stored_nil _,rfl,.inl ⟨rfl,rfl,null⟩⟩
  · rcases value : decodeValue c data p with e | ⟨v,q⟩
    · rw [value] at decoded
      cases decoded
    · rw [value] at decoded
      obtain ⟨bytes,encoded,split,some,stored⟩ := encodeValue_decodeValue value
      exact ⟨v,bytes,q,decoded,stored,split,.inr ⟨some,encoded,by simpa using null⟩⟩

private theorem decodeFrom_end (decoded : decodeFrom s data [] p acc = .ok row) : p = data.length ∧ acc = row := by
  unfold decodeFrom at decoded
  split_ifs at decoded with trailing
  exact ⟨not_not.mp trailing,Except.ok.inj decoded⟩

private theorem decodeFrom_other {name : Bytes} (decoded : decodeFrom s data columns p acc = .ok row)
    (other : name ∉ columns.map Column.name) : row.lookup name = acc.lookup name := by
  induction columns generalizing p acc with
  | nil => rw [(decodeFrom_end decoded).2]
  | cons c columns ih =>
    obtain ⟨different,absent⟩ := not_or.mp (mt List.mem_cons.mpr other)
    obtain ⟨v,bytes,q,decoded,-⟩ := decodeFrom_cons decoded
    rw [ih decoded absent,SortedMap.lookup_insert,if_neg different]

theorem decodeFrom_stored (distinct : (columns.map Column.name).Nodup)
    (decoded : decodeFrom s data columns p acc = .ok row) : row = storedFrom row acc columns := by
  induction columns generalizing p acc with
  | nil => exact (decodeFrom_end decoded).2.symm
  | cons c columns ih =>
    obtain ⟨fresh,rest⟩ := List.nodup_cons.mp distinct
    obtain ⟨v,bytes,q,decoded,stored,-⟩ := decodeFrom_cons decoded
    have value : row.get c.name = v := by
      rw [Row.get,decodeFrom_other decoded fresh,SortedMap.lookup_insert,if_pos rfl]
      rfl
    change row = storedFrom row (acc.insert c.name ((row.get c.name).stored c.type)) columns
    rw [value,stored]
    exact ih rest decoded

private theorem encodeFrom_value {bytes : Bytes} (found : row.lookup c.name = some v) (some : v ≠ .nil)
    (encoded : encodeValue c v = .ok bytes) (bits body : Bytes) :
    encodeFrom s row (c::columns) bits body = encodeFrom s row columns bits (body ++ bytes) := by
  rw [encodeFrom,found]
  cases v with
  | nil => exact absurd rfl some
  | int | string | bool | float | bytes | time | parameter =>
    dsimp only
    rw [encoded]

theorem encodeFrom_decodeFrom (distinct : (columns.map Column.name).Nodup)
    (given : ∀ c ∈ columns, (s.constraint c.name).notNull → row.get c.name ≠ .nil)
    (decoded : decodeFrom s data columns p acc = .ok row) (bits body : Bytes) :
    encodeFrom s row columns bits body = .ok (nulls s row columns bits ++ (body ++ data.drop p)) ∧
      ∀ c ∈ columns, Bitmap.test (data.take (bitmapSize s.columns)) (indexOf s.columns c) =
        decide (row.get c.name = .nil) := by
  induction columns generalizing p acc bits body with
  | nil =>
    obtain ⟨rfl,-⟩ := decodeFrom_end decoded
    simp [encodeFrom,nulls]
  | cons c columns ih =>
    obtain ⟨fresh,rest⟩ := List.nodup_cons.mp distinct
    obtain ⟨own,others⟩ := List.forall_mem_cons.mp given
    obtain ⟨v,bytes,q,decoded,-,split,cases⟩ := decodeFrom_cons decoded
    have found : row.lookup c.name = some v := by
      rw [decodeFrom_other decoded fresh,SortedMap.lookup_insert,if_pos rfl]
    have value : row.get c.name = v := by rw [Row.get,found,Option.getD_some]
    rw [nulls,value,split]
    rcases cases with ⟨rfl,rfl,test⟩ | ⟨some,encoded,test⟩
    · obtain ⟨whole,tests⟩ := ih rest others decoded (Bitmap.set bits (indexOf s.columns c)) body
      have nullable : ¬(s.constraint c.name).notNull = true := fun must => own must value
      unfold encodeFrom
      simp only [found,if_neg nullable,if_true,List.nil_append]
      exact ⟨whole,List.forall_mem_cons.mpr ⟨by simp [test,value],tests⟩⟩
    · obtain ⟨whole,tests⟩ := ih rest others decoded bits (body ++ bytes)
      rw [encodeFrom_value found some encoded,if_neg some,← List.append_assoc body]
      exact ⟨whole,List.forall_mem_cons.mpr ⟨by simp [test,value,some],tests⟩⟩

theorem stored_of_decode (valid : s.validate = .ok ()) (decoded : s.decode data = .ok row) : s.stored row = row := by
  unfold decode at decoded
  split_ifs at decoded
  exact (decodeFrom_stored (distinct_of_validate valid) decoded).symm

def NotNull (s : Schema) (row : Row) : Prop := ∀ c ∈ s.columns, (s.constraint c.name).notNull → row.get c.name ≠ .nil

instance (s : Schema) : DecidablePred s.NotNull := fun _ => inferInstanceAs (Decidable (∀ c ∈ s.columns, _))

/-- Writing a row that was read gives the bytes back, with the bits of no column cleared. -/
theorem encode_decode (valid : s.validate = .ok ()) (given : s.NotNull row) (decoded : s.decode data = .ok row) :
    s.encode row = .ok (Bitmap.clearFrom data s.columns.length) := by
  have distinct := distinct_of_validate valid
  have size : row.size = s.columns.length := by
    rw [← stored_of_decode valid decoded]
    exact size_stored distinct
  unfold decode at decoded
  split_ifs at decoded with short
  obtain ⟨encoded,tests⟩ := encodeFrom_decodeFrom distinct given decoded
    (List.replicate (bitmapSize s.columns) 0) []
  unfold encode
  rw [if_neg (not_not.mpr size),encoded,List.nil_append]
  congr 1
  have width : (data.take (bitmapSize s.columns)).length = (s.columns.length + 7) / 8 := by
    rw [List.length_take]
    exact Nat.min_eq_left (Nat.le_of_not_lt short)
  have bitmap : nulls s row s.columns (List.replicate (bitmapSize s.columns) 0) =
      Bitmap.clearFrom (data.take (bitmapSize s.columns)) s.columns.length := by
    apply Bitmap.ext
    · rw [length_nulls,List.length_replicate,Bitmap.length_clearFrom,width]
      rfl
    · intro j inside
      rw [length_nulls,List.length_replicate] at inside
      rw [test_bitmap distinct,Bitmap.test_clearFrom width (by rw [width]; exact inside)]
      by_cases column : j < s.columns.length
      · have test := tests _ (List.getElem_mem column)
        rw [indexOf_getElem distinct column] at test
        simp [column,test]
      · simp [column]
  rw [bitmap,← Bitmap.clearFrom_append width,List.take_append_drop]

theorem encodeFrom_found {bits body : Bytes} (encoded : encodeFrom s row columns bits body = .ok b) :
    ∀ c ∈ columns, ∃ v, row.lookup c.name = some v ∧ (v = .nil ∨ ∃ bytes, encodeValue c v = .ok bytes) := by
  induction columns generalizing bits body with
  | nil => exact List.forall_mem_nil _
  | cons c columns ih =>
    rcases encodeFrom_cons.mp encoded with ⟨found,-,encoded⟩ | ⟨v,bytes,found,-,written,encoded⟩
    · exact List.forall_mem_cons.mpr ⟨⟨.nil,found,.inl rfl⟩,ih encoded⟩
    · exact List.forall_mem_cons.mpr ⟨⟨v,found,.inr ⟨bytes,written⟩⟩,ih encoded⟩

theorem encodeFrom_notNull {bits body : Bytes} (encoded : encodeFrom s row columns bits body = .ok b) :
    ∀ c ∈ columns, (s.constraint c.name).notNull → row.get c.name ≠ .nil := by
  induction columns generalizing bits body with
  | nil => exact List.forall_mem_nil _
  | cons c columns ih =>
    rcases encodeFrom_cons.mp encoded with ⟨-,nullable,encoded⟩ | ⟨v,bytes,found,some,-,encoded⟩
    · refine List.forall_mem_cons.mpr ⟨fun required => ?_,ih encoded⟩
      rw [nullable] at required
      cases required
    · have value : row.get c.name = v := by simp [Row.get,found]
      exact List.forall_mem_cons.mpr ⟨fun _ => value ▸ some,ih encoded⟩

theorem encode_keys (distinct : (s.columns.map Column.name).Nodup) (encoded : s.encode row = .ok b) :
    (row.entries.map Prod.fst).Perm (s.columns.map Column.name) := by
  unfold encode at encoded
  split_ifs at encoded with size
  have found := encodeFrom_found encoded
  have every : s.columns.map Column.name ⊆ row.entries.map Prod.fst := by
    intro name member
    obtain ⟨c,there,rfl⟩ := List.mem_map.mp member
    obtain ⟨v,value,-⟩ := found c there
    exact List.mem_map.mpr ⟨(c.name,v),(SortedMap.mem_entries _).mpr value,rfl⟩
  have length : (row.entries.map Prod.fst).length ≤ (s.columns.map Column.name).length := by
    rw [List.length_map,List.length_map]
    exact (not_not.mp size).le
  exact ((List.subperm_of_subset distinct every).perm_of_length_le length).symm

private theorem stored_eq_iff {bytes : Bytes} (encoded : encodeValue c v = .ok bytes) (timeless : c.type ≠ .timestamp)
    (exact : c.type = .float → ∀ i, v ≠ .int i) : v.stored c.type = v ↔ v ≠ .bytes (some []) := by
  unfold encodeValue at encoded
  split at encoded <;> rename_i type <;> cases encoded <;> rw [type] <;> simp only [Value.stored]
  · simp
  · simp
  · simp
  · simp
  · exact absurd rfl (exact type _)
  · rename_i b
    rcases b with _ | ⟨_ | ⟨byte,rest⟩⟩ <;> simp
  · exact absurd type timeless

/-- A row of INT, STRING, BOOL, FLOAT and BYTES columns is read back as it was just when no byte slice in it is empty
without being nil. And what was read is written as the same bytes, but for the bits of the bitmap behind the columns. -/
theorem row_codec_iff (valid : s.validate = .ok ()) :
    (∀ row b, (∀ c ∈ s.columns, c.type ≠ .timestamp) → s.encode row = .ok b →
        (∀ c ∈ s.columns, c.type = .float → ∀ i, row.get c.name ≠ .int i) →
        (∀ c ∈ s.columns, (row.get c.name).Measured) →
        (s.decode b = .ok row ↔ ∀ c ∈ s.columns, row.get c.name ≠ .bytes (some []))) ∧
      ∀ b row, (∀ c ∈ s.columns, (s.constraint c.name).notNull = false) → s.decode b = .ok row →
        s.encode row = .ok (Bitmap.clearFrom b s.columns.length) := by
  have distinct := distinct_of_validate valid
  refine ⟨fun row b timeless encoded floats measured => ?_,fun b row nullable decoded =>
    encode_decode valid (fun c member must => absurd must (by rw [nullable c member]; decide)) decoded⟩
  have keys := encode_keys distinct encoded
  have read := decode_encode_measured valid encoded measured
  unfold encode at encoded
  split_ifs at encoded
  have found := encodeFrom_found encoded
  have same : ∀ c ∈ s.columns, (row.get c.name).stored c.type = row.get c.name ↔ row.get c.name ≠ .bytes (some []) := by
    intro c member
    obtain ⟨v,value,kind⟩ := found c member
    have get : row.get c.name = v := by rw [Row.get,value,Option.getD_some]
    have whole := floats c member
    rw [get] at whole ⊢
    rcases kind with rfl | ⟨bytes,written⟩
    · simp
    · exact stored_eq_iff written (timeless c member) whole
  rw [read,Except.ok.injEq]
  constructor
  · intro back c member
    have value : (s.stored row).lookup c.name = some ((row.get c.name).stored c.type) := lookup_stored distinct member
    rw [back] at value
    apply (same c member).mp
    conv_rhs => rw [Row.get,value,Option.getD_some]
  · intro full
    ext1 name
    by_cases column : name ∈ s.columns.map Column.name
    · obtain ⟨c,member,rfl⟩ := List.mem_map.mp column
      obtain ⟨v,value,-⟩ := found c member
      rw [lookup_stored distinct member,(same c member).mpr (full c member),value,Row.get,value,Option.getD_some]
    · rw [stored,lookup_storedFrom row ∅ distinct]
      have missing : row.lookup name = none := by
        cases value : row.lookup name with
        | none => rfl
        | some v =>
          have key : name ∈ row.entries.map Prod.fst := List.mem_map.mpr ⟨(name,v),(SortedMap.mem_entries _).mpr value,rfl⟩
          exact absurd (keys.mem_iff.mp key) column
      have unknown : (s.columns.find? fun c => c.name = name) = none := by
        rw [List.find?_eq_none]
        intro c member equal
        exact column (List.mem_map.mpr ⟨c,member,of_decide_eq_true equal⟩)
      rw [missing,unknown]
      rfl

theorem row_codec_two_columns :
    let s : Schema := ⟨[⟨[97],.int⟩,⟨[98],.bytes⟩],∅⟩
    let row : Row := ((∅ : Row).insert [97] (.int 5)).insert [98] (.bytes (some [1]))
    s.decode [0,5,0,0,0,0,0,0,0,1,0,0,0,1] = .ok row ∧
      s.encode row = .ok (Bitmap.clearFrom [0,5,0,0,0,0,0,0,0,1,0,0,0,1] 2) := by
  intro s row
  have codec := row_codec_iff (s := s) (by decide +kernel)
  have encoded : s.encode row = .ok [0,5,0,0,0,0,0,0,0,1,0,0,0,1] := by decide +kernel
  have floatless : ∀ c ∈ s.columns, c.type ≠ .float := by decide
  have read := (codec.1 row _ (by decide) encoded (fun c member float => absurd float (floatless c member)) ?_).mpr
    (by decide +kernel)
  · exact ⟨read,codec.2 _ row (by decide +kernel) read⟩
  · intro c member
    rcases List.mem_cons.mp member with rfl | member
    · trivial
    · obtain rfl := List.mem_singleton.mp member
      exact show 1 < 2^32 by decide

theorem empty_bytes_read_as_nil :
    let s : Schema := ⟨[⟨[97],.bytes⟩],∅⟩
    s.encode ((∅ : Row).insert [97] (.bytes (some []))) = .ok [0,0,0,0,0] ∧
      s.decode [0,0,0,0,0] = .ok ((∅ : Row).insert [97] (.bytes none)) := by
  decide +kernel

end GoDb.Schema
