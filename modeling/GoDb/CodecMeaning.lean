import GoDb.Codec
import GoDb.Table

/-! What a row reads back as once it is written: an int in a FLOAT column is a float, an
empty byte slice is nil, and a time is what its nanoseconds keep of it. A row that was
read is written as the same bytes again. -/
namespace GoDb
open Foundation

def Value.stored (type : ColumnType) (v : Value) : Value :=
  match type,v with
  | .float,.int i => .float (Binary64.ofInt i.toInt)
  | .bytes,.bytes b => .bytes (if b.getD [] = [] then none else some (b.getD []))
  | .timestamp,.time ns => .time (Time.unixNano ns).toInt
  | _,v => v

@[simp] theorem Value.stored_nil (type : ColumnType) : Value.nil.stored type = .nil := by
  cases type <;> rfl

def Value.Measured : Value → Prop
  | .string s => s.length < 2^32
  | .bytes b => (b.getD []).length < 2^32
  | _ => True

variable {c : Column} {v : Value} {bits body b : Bytes}

namespace Schema

variable {s : Schema} {row : Row} {columns : List Column}

def fillFrom (f : Column → Value) (acc : Row) (columns : List Column) : Row :=
  columns.foldl (fun acc c => acc.insert c.name (f c)) acc

def storedFrom (row acc : Row) (columns : List Column) : Row :=
  columns.foldl (fun acc c => acc.insert c.name ((row.get c.name).stored c.type)) acc

def stored (s : Schema) (row : Row) : Row := storedFrom row ∅ s.columns

theorem lookup_fillFrom (f : Column → Value) (acc : Row) (distinct : (columns.map Column.name).Nodup) (name : Bytes) :
    (fillFrom f acc columns).lookup name =
      match columns.find? fun c => c.name = name with
      | some c => some (f c)
      | none => acc.lookup name := by
  induction columns generalizing acc with
  | nil => rfl
  | cons c columns ih =>
    obtain ⟨fresh,rest⟩ := List.nodup_cons.mp distinct
    change (fillFrom f _ columns).lookup name = _
    rw [ih _ rest,List.find?_cons]
    by_cases same : c.name = name
    · subst same
      have absent : (columns.find? fun d => d.name = c.name) = none := by
        rw [List.find?_eq_none]
        intro d member equal
        exact fresh (List.mem_map.mpr ⟨d,member,of_decide_eq_true equal⟩)
      simp [absent]
    · simp [same,Ne.symm same]

theorem lookup_storedFrom (row acc : Row) (distinct : (columns.map Column.name).Nodup) (name : Bytes) :
    (storedFrom row acc columns).lookup name =
      match columns.find? fun c => c.name = name with
      | some c => some ((row.get name).stored c.type)
      | none => acc.lookup name := by
  change (fillFrom _ acc columns).lookup name = _
  rw [lookup_fillFrom _ acc distinct]
  rcases found : columns.find? fun c => c.name = name with _ | c
  · rw [found]
  · have same : c.name = name := by simpa using List.find?_some found
    rw [found,← same]

theorem find_column (distinct : (columns.map Column.name).Nodup) (member : c ∈ columns) :
    (columns.find? fun d => d.name = c.name) = some c := by
  induction columns with
  | nil => cases member
  | cons d columns ih =>
    obtain ⟨fresh,rest⟩ := List.nodup_cons.mp distinct
    rcases List.mem_cons.mp member with rfl | member
    · simp
    · have other : d.name ≠ c.name := fun same => fresh (same ▸ List.mem_map_of_mem member)
      simp [other,ih rest member]

theorem lookup_stored (distinct : (s.columns.map Column.name).Nodup) (member : c ∈ s.columns) :
    (s.stored row).lookup c.name = some ((row.get c.name).stored c.type) := by
  rw [stored,lookup_storedFrom row ∅ distinct,find_column distinct member]

theorem size_stored (distinct : (s.columns.map Column.name).Nodup) : (s.stored row).size = s.columns.length := by
  have names : ((s.stored row).entries.map Prod.fst).Perm (s.columns.map Column.name) := by
    rw [List.perm_ext_iff_of_nodup (s.stored row).increasing.keys.nodup distinct]
    intro name
    have found := lookup_storedFrom row ∅ distinct name
    constructor
    · intro member
      obtain ⟨e,there,rfl⟩ := List.mem_map.mp member
      have value := (SortedMap.mem_entries e).mp there
      rcases column : s.columns.find? fun c => c.name = e.1 with _ | c
      · rw [stored,found,column] at value
        cases value
      · exact List.mem_map.mpr ⟨c,List.mem_of_find?_eq_some column,by simpa using List.find?_some column⟩
    · intro member
      obtain ⟨c,there,rfl⟩ := List.mem_map.mp member
      exact List.mem_map.mpr ⟨(c.name,_),(SortedMap.mem_entries _).mpr (lookup_stored distinct there),rfl⟩
  simpa [SortedMap.size] using names.length_eq

theorem indexOf_getElem (distinct : (columns.map Column.name).Nodup) {i : Nat} (inside : i < columns.length) :
    indexOf columns columns[i] = i := by
  have first : columns.findIdx? (fun c => c.name = columns[i].name) = some i := by
    rw [List.findIdx?_eq_some_iff_getElem]
    refine ⟨inside,by simp,fun j before => ?_⟩
    have differ := List.pairwise_iff_getElem.mp distinct j i (by simp; omega) (by simpa using inside) before
    simpa using differ
  rw [indexOf,first]
  rfl

theorem validateFrom_distinct {seen : List Bytes} (valid : validateFrom seen columns = .ok ()) :
    (columns.map Column.name).Nodup ∧ ∀ c ∈ columns, c.name ∉ seen := by
  induction columns generalizing seen with
  | nil => exact ⟨List.nodup_nil,fun _ member => nomatch member⟩
  | cons c columns ih =>
    unfold validateFrom at valid
    split_ifs at valid with taken
    obtain ⟨distinct,fresh⟩ := ih valid
    have unseen : c.name ∉ seen := fun old => taken (.inr old)
    refine ⟨List.nodup_cons.mpr ⟨fun again => ?_,distinct⟩,List.forall_mem_cons.mpr ⟨unseen,fun d member old => ?_⟩⟩
    · obtain ⟨d,member,same⟩ := List.mem_map.mp again
      exact fresh d member (same ▸ List.mem_cons_self)
    · exact fresh d member (List.mem_cons_of_mem _ old)

theorem distinct_of_validate (valid : s.validate = .ok ()) : (s.columns.map Column.name).Nodup :=
  (validateFrom_distinct valid).1

theorem named_of_validate (valid : s.validate = .ok ()) : ∀ c ∈ s.columns, c.name ≠ [] := by
  have loop : ∀ (columns : List Column) (seen : List Bytes), validateFrom seen columns = .ok () →
      ∀ c ∈ columns, c.name ≠ [] := by
    intro columns
    induction columns with
    | nil => exact fun _ _ _ member => nomatch member
    | cons c columns ih =>
      intro seen valid
      unfold validateFrom at valid
      split_ifs at valid with taken
      exact List.forall_mem_cons.mpr ⟨fun empty => taken (.inl empty),ih _ valid⟩
  exact loop _ _ valid

private theorem readAt_put (before rest : Bytes) (width n : Nat) :
    readAt (before ++ (LittleEndian.put width n ++ rest)) before.length width = n % 256^width := by
  rw [readAt,List.drop_left,List.take_left' (LittleEndian.length_put width n),LittleEndian.read_put]

private theorem readAt_word (before rest : Bytes) (n : UInt64) :
    UInt64.ofNat (readAt (before ++ (LittleEndian.put 8 n.toNat ++ rest)) before.length 8) = n := by
  rw [readAt_put,Nat.mod_eq_of_lt (show n.toNat < 256^8 from n.toNat_lt)]
  exact UInt64.ofNat_toNat

private theorem decodeBlock_put (c : Column) (before block rest : Bytes) (small : block.length < 2^32) :
    decodeBlock c (before ++ (LittleEndian.put 4 block.length ++ block ++ rest)) before.length =
      .ok (block,before.length + 4 + block.length) := by
  have length : readAt (before ++ (LittleEndian.put 4 block.length ++ block ++ rest)) before.length 4 = block.length := by
    rw [List.append_assoc,readAt_put]
    exact Nat.mod_eq_of_lt small
  have skipped : (before ++ (LittleEndian.put 4 block.length ++ block ++ rest)).drop (before.length + 4) = block ++ rest := by
    rw [← List.append_assoc,← List.append_assoc,List.append_assoc (before ++ _)]
    exact List.drop_left' (by simp)
  unfold decodeBlock
  rw [if_neg (by simp)]
  dsimp only
  rw [length,if_neg (by simp; omega),skipped,List.take_left]

theorem measured_of_encodeValue {bytes : Bytes} (encoded : encodeValue c v = .ok bytes) (small : bytes.length < 2^32) :
    v.Measured := by
  unfold encodeValue at encoded
  split at encoded <;> cases encoded <;> try trivial
  all_goals
    rw [List.length_append,LittleEndian.length_put] at small
    exact (Nat.le_add_left _ _).trans_lt small

theorem decodeValue_encodeValue {bytes : Bytes} (encoded : encodeValue c v = .ok bytes) (measured : v.Measured)
    (before rest : Bytes) :
    decodeValue c (before ++ (bytes ++ rest)) before.length = .ok (v.stored c.type,before.length + bytes.length) := by
  unfold encodeValue at encoded
  unfold decodeValue
  split at encoded <;> rename_i type <;> cases encoded <;> rw [type] <;> dsimp only
  · rw [if_neg (by simp),readAt_word]
    simp [Value.stored]
  · rw [decodeBlock_put c before _ rest measured]
    simp [Value.stored,Nat.add_assoc]
  · rename_i b
    cases b <;> simp [Value.stored]
  · rw [if_neg (by simp),readAt_word]
    simp [Value.stored]
  · rw [if_neg (by simp),readAt_word]
    simp [Value.stored]
  · rw [decodeBlock_put c before _ rest measured]
    simp [Value.stored,Nat.add_assoc]
  · rw [if_neg (by simp),readAt_word]
    simp [Value.stored]

def nulls (s : Schema) (row : Row) : List Column → Bytes → Bytes
  | [],bits => bits
  | c::columns,bits =>
    nulls s row columns (if row.get c.name = .nil then Bitmap.set bits (indexOf s.columns c) else bits)

theorem length_nulls (columns : List Column) (bits : Bytes) : (nulls s row columns bits).length = bits.length := by
  induction columns generalizing bits with
  | nil => rfl
  | cons c columns ih =>
    rw [nulls,ih]
    split_ifs <;> simp

theorem test_nulls (inside : ∀ c ∈ columns, indexOf s.columns c < 8 * bits.length) (j : Nat) :
    Bitmap.test (nulls s row columns bits) j =
      (Bitmap.test bits j || columns.any fun c => row.get c.name = .nil && indexOf s.columns c = j) := by
  induction columns generalizing bits with
  | nil => simp [nulls]
  | cons c columns ih =>
    obtain ⟨here,rest⟩ := List.forall_mem_cons.mp inside
    rw [nulls,List.any_cons]
    by_cases null : row.get c.name = .nil
    · rw [if_pos null,ih (by simpa using rest),Bitmap.test_set here]
      simp only [null,decide_true,Bool.true_and]
      rw [Bool.or_comm (decide _),Bool.or_assoc]
    · rw [if_neg null,ih rest]
      simp [null]

theorem test_bitmap (distinct : (s.columns.map Column.name).Nodup) (j : Nat) :
    Bitmap.test (nulls s row s.columns (List.replicate (bitmapSize s.columns) 0)) j =
      (s.columns[j]?).any fun c => row.get c.name = .nil := by
  have place : ∀ c ∈ s.columns, indexOf s.columns c < s.columns.length := by
    intro c member
    obtain ⟨i,inside,rfl⟩ := List.getElem_of_mem member
    rw [indexOf_getElem distinct inside]
    exact inside
  have room : s.columns.length ≤ 8 * bitmapSize s.columns := by
    unfold bitmapSize
    omega
  rw [test_nulls,Bitmap.test_replicate,Bool.false_or,Bool.eq_iff_iff,List.any_eq_true,Option.any_eq_true]
  · constructor
    · rintro ⟨c,member,same⟩
      simp only [Bool.and_eq_true,decide_eq_true_eq] at same
      obtain ⟨i,inside,rfl⟩ := List.getElem_of_mem member
      rw [indexOf_getElem distinct inside] at same
      obtain ⟨null,rfl⟩ := same
      exact ⟨_,List.getElem?_eq_getElem inside,decide_eq_true null⟩
    · rintro ⟨c,here,null⟩
      obtain ⟨inside,rfl⟩ := List.getElem?_eq_some_iff.mp here
      exact ⟨_,List.getElem_mem inside,by simpa [indexOf_getElem distinct inside] using null⟩
  · intro c member
    rw [List.length_replicate]
    exact (place c member).trans_le room

theorem encodeFrom_cons :
    encodeFrom s row (c::columns) bits body = .ok b ↔
      (row.lookup c.name = some .nil ∧ (s.constraint c.name).notNull = false ∧
        encodeFrom s row columns (Bitmap.set bits (indexOf s.columns c)) body = .ok b) ∨
      ∃ v bytes, row.lookup c.name = some v ∧ v ≠ .nil ∧ encodeValue c v = .ok bytes ∧
        encodeFrom s row columns bits (body ++ bytes) = .ok b := by
  rw [encodeFrom]
  split
  · rename_i absent
    simp [absent]
  · rename_i found
    cases nullable : (s.constraint c.name).notNull <;> simp [found,nullable]
  · rename_i v some found
    have value : v ≠ .nil := some
    cases written : encodeValue c v <;> simp [found,written,value]

theorem decodeFrom_encodeFrom (encoded : encodeFrom s row columns bits body = .ok b)
    (measured : ∀ c ∈ columns, (row.get c.name).Measured) :
    ∃ tail, b = nulls s row columns bits ++ (body ++ tail) ∧ ∀ before acc,
      (∀ c ∈ columns, Bitmap.test ((before ++ tail).take (bitmapSize s.columns)) (indexOf s.columns c) =
        decide (row.get c.name = .nil)) →
      decodeFrom s (before ++ tail) columns before.length acc = .ok (storedFrom row acc columns) := by
  -- The bitmap is in front of what is read, so every column finds its bit in `before`.
  induction columns generalizing bits body with
  | nil =>
    obtain rfl := Except.ok.inj encoded
    exact ⟨[],by simp [nulls],fun before acc _ => by simp [decodeFrom,storedFrom]⟩
  | cons c columns ih =>
    obtain ⟨own,others⟩ := List.forall_mem_cons.mp measured
    rcases encodeFrom_cons.mp encoded with ⟨found,-,encoded⟩ | ⟨v,bytes,found,some,written,encoded⟩
    · have null : row.get c.name = .nil := by simp [Row.get,found]
      obtain ⟨tail,rfl,decoded⟩ := ih encoded others
      refine ⟨tail,?_,fun before acc tests => ?_⟩
      · rw [nulls,if_pos null]
      · obtain ⟨here,rest⟩ := List.forall_mem_cons.mp tests
        rw [null] at here
        unfold decodeFrom
        rw [if_pos (by simpa using here),decoded before _ rest]
        simp [storedFrom,null]
    · have value : row.get c.name = v := by simp [Row.get,found]
      obtain ⟨tail,rfl,decoded⟩ := ih encoded others
      refine ⟨bytes ++ tail,?_,fun before acc tests => ?_⟩
      · rw [nulls,if_neg (value ▸ some),List.append_assoc]
      · obtain ⟨here,rest⟩ := List.forall_mem_cons.mp tests
        have read := decodeValue_encodeValue written (value ▸ own) before tail
        unfold decodeFrom
        rw [if_neg (by simpa [value,some] using here),read]
        have next := decoded (before ++ bytes) (acc.insert c.name (v.stored c.type)) (by simpa using rest)
        simpa [storedFrom,value] using next

theorem measured_of_encodeFrom (encoded : encodeFrom s row columns bits body = .ok b) (small : b.length < 2^32) :
    body.length < 2^32 ∧ ∀ c ∈ columns, (row.get c.name).Measured := by
  induction columns generalizing bits body with
  | nil =>
    obtain rfl := Except.ok.inj encoded
    rw [List.length_append] at small
    exact ⟨(Nat.le_add_left _ _).trans_lt small,List.forall_mem_nil _⟩
  | cons c columns ih =>
    rcases encodeFrom_cons.mp encoded with ⟨found,-,encoded⟩ | ⟨v,bytes,found,-,written,encoded⟩
    · have null : row.get c.name = .nil := by simp [Row.get,found]
      obtain ⟨short,others⟩ := ih encoded
      exact ⟨short,List.forall_mem_cons.mpr ⟨null ▸ trivial,others⟩⟩
    · have value : row.get c.name = v := by simp [Row.get,found]
      obtain ⟨short,others⟩ := ih encoded
      rw [List.length_append] at short
      have own := measured_of_encodeValue written (by omega)
      exact ⟨by omega,List.forall_mem_cons.mpr ⟨value ▸ own,others⟩⟩

theorem decode_encode_measured (valid : s.validate = .ok ()) (encoded : s.encode row = .ok b)
    (measured : ∀ c ∈ s.columns, (row.get c.name).Measured) : s.decode b = .ok (s.stored row) := by
  have distinct := distinct_of_validate valid
  unfold encode at encoded
  split_ifs at encoded
  obtain ⟨tail,rfl,decoded⟩ := decodeFrom_encodeFrom encoded measured
  have width : (nulls s row s.columns (List.replicate (bitmapSize s.columns) 0)).length = bitmapSize s.columns := by
    simp [length_nulls]
  rw [List.nil_append]
  unfold decode
  rw [if_neg (by simp [width])]
  have read := decoded (nulls s row s.columns (List.replicate (bitmapSize s.columns) 0)) ∅ ?_
  · rw [width] at read
    exact read
  · intro c member
    rw [List.take_left' width,test_bitmap distinct]
    obtain ⟨i,inside,rfl⟩ := List.getElem_of_mem member
    rw [indexOf_getElem distinct inside,List.getElem?_eq_getElem inside]
    rfl

theorem decode_encode (valid : s.validate = .ok ()) (encoded : s.encode row = .ok b) (small : b.length < 2^32) :
    s.decode b = .ok (s.stored row) := by
  apply decode_encode_measured valid encoded
  unfold encode at encoded
  split_ifs at encoded
  exact (measured_of_encodeFrom encoded small).2

theorem encodeValue_stored {bytes : Bytes} (encoded : encodeValue c v = .ok bytes) :
    encodeValue c (v.stored c.type) = .ok bytes := by
  unfold encodeValue at encoded
  split at encoded <;> rename_i type <;> cases encoded <;> rw [type] <;> simp only [Value.stored,encodeValue,type]
  · rename_i b
    split_ifs with empty
    · rw [empty]
      rfl
    · rfl
  · rw [Time.unixNano,Time.unixNano,Int64.ofInt_toInt]

theorem stored_eq_nil {type : ColumnType} : v.stored type = .nil ↔ v = .nil := by
  cases type <;> cases v <;> simp [Value.stored]

private theorem encodeFrom_stored {row' : Row}
    (same : ∀ c ∈ columns, row'.lookup c.name = some ((row.get c.name).stored c.type))
    (encoded : encodeFrom s row columns bits body = .ok b) : encodeFrom s row' columns bits body = .ok b := by
  induction columns generalizing bits body with
  | nil => exact encoded
  | cons c columns ih =>
    obtain ⟨here,rest⟩ := List.forall_mem_cons.mp same
    rw [encodeFrom_cons] at encoded ⊢
    rcases encoded with ⟨found,nullable,encoded⟩ | ⟨v,bytes,found,some,written,encoded⟩
    · rw [Row.get,found,Option.getD_some,Value.stored_nil] at here
      exact .inl ⟨here,nullable,ih rest encoded⟩
    · rw [Row.get,found,Option.getD_some] at here
      exact .inr ⟨_,bytes,here,mt stored_eq_nil.mp some,encodeValue_stored written,ih rest encoded⟩

theorem encode_stored (valid : s.validate = .ok ()) (encoded : s.encode row = .ok b) :
    s.encode (s.stored row) = .ok b := by
  have distinct := distinct_of_validate valid
  unfold encode at encoded ⊢
  split_ifs at encoded
  rw [if_neg (by simp [size_stored distinct])]
  exact encodeFrom_stored (fun c member => lookup_stored distinct member) encoded

end Schema
end GoDb
