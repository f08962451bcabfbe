import GoDb.Timestamps
import GoDb.CodecInverse

/-! The keys of the secondary indexes. `indexRow` uses the values a row was given with and
`unindexRow` those that are read back, so both have to give the same text. A value that
does not come back as it was given may have another. -/
namespace GoDb
open Foundation

/-- A value as `Insert` is given it. A time that a caller of `Execute` made may be in a location other than UTC. -/
structure Given where
  value : Value
  location : Option Bytes

namespace Given

/-- The text `indexValue` makes of it names the location of a time. -/
def indexValue (g : Given) : Value × Option Bytes :=
  (g.value.indexValue,match g.value with
    | .time _ => g.location
    | _ => none)

def read (v : Value) : Given := ⟨v,none⟩

structure Kept (type : ColumnType) (g : Given) : Prop where
  filled : g.value ≠ .bytes (some [])
  real : type = .float → ∀ i, g.value ≠ .int i
  time : ∀ ns, g.value = .time ns → Time.Fits ns ∧ g.location = none
  measured : g.value.Measured

theorem indexValue_read (v : Value) : (read v).indexValue = (v.indexValue,none) := by
  cases v <;> rfl

theorem indexValue_eq {g h : Given} (same : g.indexValue = h.indexValue) : g.value.indexValue = h.value.indexValue :=
  (Prod.mk.inj same).1

end Given

theorem Value.measured_indexValue (v : Value) : v.indexValue.Measured ↔ v.Measured := by
  cases v <;> rfl

theorem Value.indexValue_inj {v w : Value} :
    v.indexValue = w.indexValue ↔ v = w ∨ ∃ x y, v = .float x ∧ w = .float y ∧ Binary64.isNaN x ∧ Binary64.isNaN y := by
  constructor
  · intro same
    cases v with
    | float x =>
      cases w with
      | float y =>
        have bits := Value.float.inj same
        by_cases left : Binary64.isNaN x <;> by_cases right : Binary64.isNaN y
        · exact .inr ⟨x,y,rfl,rfl,left,right⟩
        · rw [if_pos left,if_neg right] at bits
          exact absurd (bits ▸ by decide) right
        · rw [if_neg left,if_pos right] at bits
          exact absurd (bits ▸ by decide) left
        · rw [if_neg left,if_neg right] at bits
          exact .inl (congrArg Value.float bits)
      | _ => cases same
    | _ =>
      cases w with
      | float y => cases same
      | _ => exact .inl same
  · rintro (rfl | ⟨x,y,rfl,rfl,left,right⟩)
    · rfl
    · simp only [indexValue,if_pos left,if_pos right]

namespace Schema

variable {s : Schema} {c : Column} {v : Value}

theorem indexValue_stored_iff (written : v = .nil ∨ ∃ bytes, encodeValue c v = .ok bytes) (measured : v.Measured)
    (location : Option Bytes) :
    (Given.mk v location).indexValue = (Given.read (v.stored c.type)).indexValue ↔ Given.Kept c.type ⟨v,location⟩ := by
  rcases written with rfl | ⟨bytes,written⟩
  · rw [Value.stored_nil]
    exact ⟨fun _ => ⟨by simp,by simp,by simp,trivial⟩,fun _ => rfl⟩
  · unfold encodeValue at written
    split at written <;> rename_i type <;> cases written <;> rw [type]
    · exact ⟨fun _ => ⟨by simp,by simp,by simp,measured⟩,fun _ => rfl⟩
    · exact ⟨fun _ => ⟨by simp,by simp,by simp,measured⟩,fun _ => rfl⟩
    · exact ⟨fun _ => ⟨by simp,by simp,by simp,measured⟩,fun _ => rfl⟩
    · exact ⟨fun _ => ⟨by simp,by simp,by simp,measured⟩,fun _ => rfl⟩
    · constructor
      · intro same
        cases Given.indexValue_eq same
      · intro kept
        exact absurd rfl (kept.real rfl _)
    · rename_i b
      rcases b with _ | ⟨_ | ⟨byte,rest⟩⟩
      · exact ⟨fun _ => ⟨by simp,by simp,by simp,measured⟩,fun _ => rfl⟩
      · constructor
        · intro same
          cases Given.indexValue_eq same
        · intro kept
          exact absurd rfl kept.filled
      · exact ⟨fun _ => ⟨by simp,by simp,by simp,measured⟩,fun _ => rfl⟩
    · rename_i ns
      constructor
      · intro same
        obtain ⟨time,place⟩ := Prod.mk.inj same
        refine ⟨by simp,by simp,?_,measured⟩
        intro other here
        rw [← Value.time.inj here]
        exact ⟨(Time.unixNano_iff ns).mp (Value.time.inj time).symm,place⟩
      · intro kept
        obtain ⟨fits,place⟩ := kept.time ns rfl
        exact Prod.ext (congrArg Value.time ((Time.unixNano_iff ns).mpr fits).symm) place

theorem decodeBlock_measured {data block : Bytes} {p q : Nat} (decoded : decodeBlock c data p = .ok (block,q)) :
    block.length < 2^32 := by
  unfold decodeBlock at decoded
  split_ifs at decoded
  dsimp only at decoded
  split_ifs at decoded
  obtain ⟨rfl,-⟩ := Prod.mk.inj (Except.ok.inj decoded)
  have bound := LittleEndian.read_lt ((data.drop p).take 4)
  have width : 256^((data.drop p).take 4).length ≤ 256^4 :=
    Nat.pow_le_pow_right (by decide) (List.length_take_le _ _)
  exact (List.length_take_le _ _).trans_lt (bound.trans_le width)

theorem decodeValue_measured {data : Bytes} {p q : Nat} (decoded : decodeValue c data p = .ok (v,q)) : v.Measured := by
  unfold decodeValue at decoded
  split at decoded
  · rcases block : decodeBlock c data p with e | ⟨b,q'⟩
    · rw [block] at decoded
      cases decoded
    · rw [block] at decoded
      cases decoded
      exact decodeBlock_measured block
  · rcases block : decodeBlock c data p with e | ⟨b,q'⟩
    · rw [block] at decoded
      cases decoded
    · rw [block] at decoded
      cases decoded
      have short := decodeBlock_measured block
      split_ifs
      · exact (by decide : 0 < 2^32)
      · exact short
  · split at decoded <;> cases decoded <;> trivial
  all_goals
    split_ifs at decoded
    cases decoded
    trivial

theorem decodeFrom_measured {data : Bytes} {columns : List Column} {p : Nat} {acc row : Row}
    (before : ∀ name, (acc.get name).Measured) (decoded : decodeFrom s data columns p acc = .ok row) (name : Bytes) :
    (row.get name).Measured := by
  induction columns generalizing p acc with
  | nil =>
    unfold decodeFrom at decoded
    split_ifs at decoded
    exact Except.ok.inj decoded ▸ before name
  | cons c columns ih =>
    have next {v : Value} (own : v.Measured) (name : Bytes) : (Row.get (acc.insert c.name v) name).Measured := by
      unfold Row.get
      rw [SortedMap.lookup_insert]
      split_ifs
      · exact own
      · exact before name
    unfold decodeFrom at decoded
    split_ifs at decoded
    · exact ih (next (v := .nil) trivial) decoded
    · rcases value : decodeValue c data p with e | ⟨v,q⟩
      · rw [value] at decoded
        cases decoded
      · rw [value] at decoded
        exact ih (next (decodeValue_measured value)) decoded

theorem decode_measured {data : Bytes} {row : Row} (decoded : s.decode data = .ok row) (name : Bytes) :
    (row.get name).Measured := by
  unfold decode at decoded
  split_ifs at decoded
  have empty : ∀ name, (Row.get ∅ name).Measured := fun _ => trivial
  exact decodeFrom_measured empty decoded name

end Schema

/-- A row as `Insert` is given it, with the locations of its times. -/
structure GivenRow where
  row : Row
  location : Bytes → Option Bytes

def GivenRow.get (g : GivenRow) (name : Bytes) : Given := ⟨g.row.get name,g.location name⟩

def GivenRow.Stable (s : Schema) (g : GivenRow) (out : Row) : Prop :=
  ∀ c ∈ s.columns, (g.get c.name).indexValue = (Given.read (out.get c.name)).indexValue

def GivenRow.Kept (s : Schema) (g : GivenRow) : Prop := ∀ c ∈ s.columns, (g.get c.name).Kept c.type

namespace Schema

variable {s : Schema} {c : Column} {g g' : GivenRow} {b b' : Bytes} {out out' : Row}

theorem get_stored (distinct : (s.columns.map Column.name).Nodup) {row : Row} (member : c ∈ s.columns) :
    (s.stored row).get c.name = (row.get c.name).stored c.type := by
  unfold Row.get
  rw [lookup_stored distinct member]
  rfl

theorem stable_stored_iff (valid : s.validate = .ok ()) (encoded : s.encode g.row = .ok b)
    (measured : ∀ c ∈ s.columns, (g.row.get c.name).Measured) : g.Stable s (s.stored g.row) ↔ g.Kept s := by
  have distinct := distinct_of_validate valid
  unfold encode at encoded
  split_ifs at encoded
  have found := encodeFrom_found encoded
  apply forall₂_congr
  intro c member
  obtain ⟨v,value,written⟩ := found c member
  have get : g.row.get c.name = v := by rw [Row.get,value,Option.getD_some]
  have own := measured c member
  rw [get_stored distinct member]
  unfold GivenRow.get
  rw [get] at own ⊢
  exact indexValue_stored_iff written own (g.location c.name)

theorem measured_of_stable (decoded : s.decode b = .ok out) (stable : g.Stable s out) :
    ∀ c ∈ s.columns, (g.row.get c.name).Measured := by
  intro c member
  have same : (g.row.get c.name).indexValue = (out.get c.name).indexValue := Given.indexValue_eq (stable c member)
  rw [← Value.measured_indexValue,same,Value.measured_indexValue]
  exact decode_measured decoded c.name

theorem stable_iff (valid : s.validate = .ok ()) (encoded : s.encode g.row = .ok b) :
    (∃ out, s.decode b = .ok out ∧ g.Stable s out) ↔ g.Kept s := by
  constructor
  · rintro ⟨out,decoded,stable⟩
    have measured := measured_of_stable decoded stable
    have read := decode_encode_measured valid encoded measured
    rw [decoded] at read
    rw [Except.ok.inj read] at stable
    exact (stable_stored_iff valid encoded measured).mp stable
  · intro kept
    have measured : ∀ c ∈ s.columns, (g.row.get c.name).Measured := fun c member => (kept c member).measured
    exact ⟨_,decode_encode_measured valid encoded measured,(stable_stored_iff valid encoded measured).mpr kept⟩

theorem stable_of_kept (valid : s.validate = .ok ()) (encoded : s.encode g.row = .ok b) (kept : g.Kept s)
    (decoded : s.decode b = .ok out) : g.Stable s out := by
  obtain ⟨read,again,stable⟩ := (stable_iff valid encoded).mpr kept
  rw [decoded] at again
  rwa [Except.ok.inj again]

theorem indexValue_agrees (stable : g.Stable s out) (stable' : g'.Stable s out') (member : c ∈ s.columns) :
    (g.get c.name).indexValue = (g'.get c.name).indexValue ↔ out.get c.name = out'.get c.name ∨
      ∃ x y, out.get c.name = .float x ∧ out'.get c.name = .float y ∧ Binary64.isNaN x ∧ Binary64.isNaN y := by
  rw [stable c member,stable' c member,Given.indexValue_read,Given.indexValue_read,Prod.mk.injEq,and_iff_left rfl]
  exact Value.indexValue_inj

/-- A row that `Insert` takes is indexed by the texts of the row that is read back exactly when each of its values is
kept. Of rows that are kept, two have one text in a column exactly when they are read as one value there, unless
these are NaNs with other bits. -/
theorem index_keys_stable_iff (valid : s.validate = .ok ()) :
    (∀ (g : GivenRow) b, s.encode g.row = .ok b → ((∃ out, s.decode b = .ok out ∧ g.Stable s out) ↔ g.Kept s)) ∧
      ∀ (g g' : GivenRow) b b' out out', s.encode g.row = .ok b → s.encode g'.row = .ok b' → g.Kept s → g'.Kept s →
        s.decode b = .ok out → s.decode b' = .ok out' → ∀ c ∈ s.columns,
          (((g.get c.name).indexValue = (g'.get c.name).indexValue ↔ out.get c.name = out'.get c.name) ↔
            ∀ x y, out.get c.name = .float x → out'.get c.name = .float y → Binary64.isNaN x → Binary64.isNaN y →
              x = y) := by
  refine ⟨fun g b encoded => stable_iff valid encoded,?_⟩
  intro g g' b b' out out' encoded encoded' kept kept' decoded decoded' c member
  rw [indexValue_agrees (stable_of_kept valid encoded kept decoded) (stable_of_kept valid encoded' kept' decoded') member]
  constructor
  · intro agree x y left right nan nan'
    have same := agree.mp (.inr ⟨x,y,left,right,nan,nan'⟩)
    rw [left,right] at same
    exact Value.float.inj same
  · intro nans
    refine ⟨?_,Or.inl⟩
    rintro (same | ⟨x,y,left,right,nan,nan'⟩)
    · exact same
    · rw [left,right,nans x y left right nan nan']

end Schema

namespace Sample

def keyAndBytes : Schema := ⟨[⟨[97],.int⟩,⟨[98],.bytes⟩],∅⟩

def withBytes (b : Option Bytes) : Row := ((∅ : Row).insert [97] (.int 5)).insert [98] (.bytes b)

end Sample

namespace Schema

theorem index_keys_stable_filled :
    ∃ out, Sample.keyAndBytes.decode [0,5,0,0,0,0,0,0,0,1,0,0,0,7] = .ok out ∧
      GivenRow.Stable Sample.keyAndBytes ⟨Sample.withBytes (some [7]),fun _ => none⟩ out := by
  have encoded : Sample.keyAndBytes.encode (Sample.withBytes (some [7])) = .ok [0,5,0,0,0,0,0,0,0,1,0,0,0,7] := by
    decide +kernel
  apply ((index_keys_stable_iff (by decide +kernel)).1 ⟨Sample.withBytes (some [7]),fun _ => none⟩ _ encoded).mpr
  intro c member
  rcases List.mem_cons.mp member with rfl | member
  · have value : (Sample.withBytes (some [7])).get [97] = .int 5 := by decide +kernel
    refine ⟨?_,?_,?_,?_⟩ <;> simp [GivenRow.get,value,Value.Measured]
  · obtain rfl := List.mem_singleton.mp member
    have value : (Sample.withBytes (some [7])).get [98] = .bytes (some [7]) := by decide +kernel
    refine ⟨?_,?_,?_,?_⟩ <;> simp [GivenRow.get,value,Value.Measured]

/-- The INSERT of an empty text into a BYTES column gives an empty slice, and nil is read for it. -/
theorem index_key_lost :
    Sample.keyAndBytes.insertRow [([97],.int 5),([98],.string [])] ∅ = .ok (Sample.withBytes (some [])) ∧
      Sample.keyAndBytes.encode (Sample.withBytes (some [])) = .ok [0,5,0,0,0,0,0,0,0,0,0,0,0] ∧
      Sample.keyAndBytes.decode [0,5,0,0,0,0,0,0,0,0,0,0,0] = .ok (Sample.withBytes none) ∧
      ((Sample.withBytes (some [])).get [98]).indexValue ≠ ((Sample.withBytes none).get [98]).indexValue := by
  decide +kernel

end Schema
end GoDb
