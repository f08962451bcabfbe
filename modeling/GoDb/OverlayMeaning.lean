import GoDb.Overlay
import GoDb.Foundation.ListEdits
import Mathlib.Data.List.Nodup

/-! The loop over the writes of a transaction makes the edits of a finite map, if the
rows have distinct keys and no key is written twice. -/
namespace GoDb
open Foundation

namespace Overlay

variable {α : Type} {o : Overlay α} {pairs : List (Bytes × α)} {done : List Bytes}

/-- The rows with their keys. The positions are those of the rows, but for the keys that are
`done`: a deleted row leaves its position behind. -/
structure Holds (o : Overlay α) (pairs : List (Bytes × α)) (done : List Bytes) : Prop where
  rows : o.rows = pairs.map Prod.snd
  distinct : (pairs.map Prod.fst).Nodup
  found : ∀ k ∉ done, ∀ i, o.byKey.lookup k = some i ↔ (pairs.map Prod.fst)[i]? = some k

private theorem lookup_positions (keys : List Bytes) (distinct : keys.Nodup) (n : Nat) (m : GoMap Nat) (k : Bytes)
    (i : Nat) : ((keys.zipIdx n).foldl (fun m e => m.insert e.1 e.2) m).lookup k = some i ↔
      (∃ j, i = n + j ∧ keys[j]? = some k) ∨ k ∉ keys ∧ m.lookup k = some i := by
  induction keys generalizing n m with
  | nil => simp
  | cons key keys ih =>
    obtain ⟨fresh,rest⟩ := List.nodup_cons.mp distinct
    rw [List.zipIdx_cons,List.foldl_cons,ih rest,SortedMap.lookup_insert]
    constructor
    · rintro (⟨j,rfl,found⟩ | ⟨absent,found⟩)
      · exact .inl ⟨j + 1,by omega,found⟩
      · split_ifs at found with same
        · exact .inl ⟨0,by simpa using (Option.some.inj found).symm,by simp [same]⟩
        · exact .inr ⟨by simp [same,absent],found⟩
    · rintro (⟨_ | j,rfl,found⟩ | ⟨absent,found⟩)
      · obtain rfl := Option.some.inj found
        exact .inr ⟨fresh,if_pos rfl⟩
      · exact .inl ⟨j,by omega,found⟩
      · obtain ⟨other,absent⟩ := not_or.mp (mt List.mem_cons.mpr absent)
        exact .inr ⟨absent,by rw [if_neg other,found]⟩

theorem start_holds (key : α → Bytes) {rows : List α} (distinct : (rows.map key).Nodup) :
    (start key rows).Holds (rows.map fun row => (key row,row)) [] := by
  have keys : (rows.map fun row => (key row,row)).map Prod.fst = rows.map key := by simp [Function.comp_def]
  refine ⟨by simp [start,Function.comp_def],keys ▸ distinct,fun k _ i => ?_⟩
  have positions := lookup_positions (rows.map key) distinct 0 ∅ k i
  rw [List.zipIdx_map,List.foldl_map] at positions
  rw [keys,start]
  simpa using positions

theorem Holds.absent (holds : o.Holds pairs done) {k : Bytes} (fresh : k ∉ done) (none : o.byKey.lookup k = none) :
    k ∉ pairs.map Prod.fst := by
  intro member
  obtain ⟨i,there⟩ := List.getElem?_of_mem member
  rw [← holds.found k fresh i,none] at there
  cases there

theorem Holds.cut (holds : o.Holds pairs done) {k : Bytes} (fresh : k ∉ done) {i : Nat}
    (place : o.byKey.lookup k = some i) : ∃ left old right, pairs = left ++ (k,old)::right ∧ left.length = i := by
  have there := (holds.found k fresh i).mp place
  rw [List.getElem?_map] at there
  obtain ⟨⟨_,old⟩,item,rfl⟩ := Option.map_eq_some_iff.mp there
  obtain ⟨left,right,split,length⟩ := ListEdits.cut_of_getElem? item
  exact ⟨left,old,right,split,length⟩

theorem Holds.append (holds : o.Holds pairs done) {k : Bytes} (absent : k ∉ pairs.map Prod.fst) (row : α) :
    Holds ⟨o.rows ++ [row],o.byKey.insert k o.rows.length⟩ (pairs ++ [(k,row)]) (k::done) where
  rows := by simp [holds.rows]
  distinct := by
    rw [List.map_append]
    exact List.Nodup.append holds.distinct (List.nodup_singleton k) (by simpa using absent)
  found k' new i := by
    obtain ⟨other,open'⟩ := not_or.mp (mt List.mem_cons.mpr new)
    rw [SortedMap.lookup_insert,if_neg other,holds.found k' open',List.map_append,List.getElem?_append]
    split_ifs with inside
    · rfl
    · rw [List.getElem?_eq_none (Nat.not_lt.mp inside)]
      simp [List.getElem?_singleton,Ne.symm other]

theorem Holds.set {left right : List (Bytes × α)} {k : Bytes} {old : α}
    (holds : o.Holds (left ++ (k,old)::right) done) (row : α) :
    Holds {o with rows := o.rows.set left.length row} (left ++ (k,row)::right) (k::done) where
  rows := by
    have rows := ListEdits.set_cut (left.map Prod.snd) (right.map Prod.snd) old row
    rw [List.length_map] at rows
    rw [holds.rows,List.map_append,List.map_cons,rows,List.map_append,List.map_cons]
  distinct := by
    have distinct := holds.distinct
    simp only [List.map_append,List.map_cons] at distinct ⊢
    exact distinct
  found k' new i := by
    have same := holds.found k' (fun member => new (List.mem_cons_of_mem k member)) i
    simp only [List.map_append,List.map_cons] at same ⊢
    exact same

theorem Holds.erase {left right : List (Bytes × α)} {k : Bytes} {old : α}
    (holds : o.Holds (left ++ (k,old)::right) done) :
    Holds ⟨o.rows.eraseIdx left.length,o.byKey.mapValues fun j => if left.length < j then j - 1 else j⟩
      (left ++ right) (k::done) where
  rows := by
    have rows := ListEdits.eraseIdx_cut (left.map Prod.snd) (right.map Prod.snd) old
    rw [List.length_map] at rows
    simpa [holds.rows] using rows
  distinct := holds.distinct.sublist (((List.sublist_cons_self _ _).append_left left).map Prod.fst)
  found k' new i := by
    obtain ⟨other,open'⟩ := not_or.mp (mt List.mem_cons.mpr new)
    have found := holds.found k' open'
    have there : ((left ++ (k,old)::right).map Prod.fst)[left.length]? = some k := by simp
    have erased : (left ++ right).map Prod.fst = ((left ++ (k,old)::right).map Prod.fst).eraseIdx left.length := by
      simpa using (ListEdits.eraseIdx_cut (left.map Prod.fst) (right.map Prod.fst) k).symm
    -- Places behind the erased one move up, in the rows as in the map.
    rw [SortedMap.lookup_mapValues,Option.map_eq_some_iff,erased,List.getElem?_eraseIdx]
    generalize (left ++ (k,old)::right).map Prod.fst = keys at found there
    constructor
    · rintro ⟨j,place,rfl⟩
      have here := (found j).mp place
      have away : j ≠ left.length := by
        rintro rfl
        exact other (Option.some.inj (here.symm.trans there))
      split_ifs with behind before before
      · omega
      · rwa [Nat.sub_add_cancel (by omega)]
      · exact here
      · omega
    · intro here
      split_ifs at here with before
      · exact ⟨i,(found i).mpr here,if_neg (by omega)⟩
      · exact ⟨i + 1,(found (i + 1)).mpr here,if_pos (by omega)⟩

theorem Holds.write (holds : o.Holds pairs done) {k : Bytes} (fresh : k ∉ done) (w : Option α) :
    ∃ pairs', (o.write (k,w)).Holds pairs' (k::done) ∧
      ∀ k' x, (k',x) ∈ pairs' ↔ if k' = k then w = some x else (k',x) ∈ pairs := by
  cases place : o.byKey.lookup k with
  | none =>
    have absent := holds.absent fresh place
    have out {x : α} : (k,x) ∉ pairs := fun member => absent (List.mem_map_of_mem member)
    cases w with
    | none =>
      refine ⟨pairs,?_,fun k' x => ?_⟩
      · rw [Overlay.write,place]
        exact ⟨holds.rows,holds.distinct,fun k' new => holds.found k' (mt (List.mem_cons_of_mem k) new)⟩
      · split_ifs with same
        · simp [same,out]
        · rfl
    | some row =>
      refine ⟨pairs ++ [(k,row)],?_,fun k' x => ?_⟩
      · rw [Overlay.write,place]
        exact holds.append absent row
      · rw [List.mem_append,List.mem_singleton,Prod.mk.injEq]
        split_ifs with same
        · simp [same,out,eq_comm]
        · simp [same]
  | some i =>
    obtain ⟨left,old,right,rfl,rfl⟩ := holds.cut fresh place
    -- The key stands at one place only, which is the one that is changed.
    have distinct := holds.distinct
    rw [List.map_append,List.map_cons,List.nodup_middle,← List.map_append] at distinct
    have out {x : α} : (k,x) ∉ left ++ right := fun member =>
      (List.nodup_cons.mp distinct).1 (List.mem_map.mpr ⟨_,member,rfl⟩)
    have outside {x : α} := not_or.mp (mt List.mem_append.mpr (out (x := x)))
    cases w with
    | none =>
      refine ⟨left ++ right,?_,fun k' x => ?_⟩
      · rw [Overlay.write,place]
        exact holds.erase
      · split_ifs with same
        · simp [same,outside]
        · simp [same]
    | some row =>
      refine ⟨left ++ (k,row)::right,?_,fun k' x => ?_⟩
      · rw [Overlay.write,place]
        exact holds.set row
      · split_ifs with same
        · simp [same,outside,eq_comm]
        · simp [same]

theorem Holds.writeAll (holds : o.Holds pairs done) {writes : List (Bytes × Option α)}
    (once : (writes.map Prod.fst).Nodup) (fresh : ∀ k ∈ writes.map Prod.fst, k ∉ done) :
    ∃ pairs' done', (o.writeAll writes).Holds pairs' done' ∧
      ∀ k x, (k,x) ∈ pairs' ↔ (k,some x) ∈ writes ∨ k ∉ writes.map Prod.fst ∧ (k,x) ∈ pairs := by
  induction writes generalizing o pairs done with
  | nil => exact ⟨pairs,done,holds,fun k x => by simp⟩
  | cons entry writes ih =>
    obtain ⟨key,w⟩ := entry
    rw [List.map_cons,List.nodup_cons] at once
    rw [List.map_cons,List.forall_mem_cons] at fresh
    obtain ⟨pairs₁,holds₁,first⟩ := holds.write fresh.1 w
    have later : ∀ k ∈ writes.map Prod.fst, k ∉ key::done := by
      intro k member again
      rcases List.mem_cons.mp again with rfl | again
      · exact once.1 member
      · exact fresh.2 k member again
    obtain ⟨pairs₂,done₂,holds₂,rest⟩ := ih holds₁ once.2 later
    refine ⟨pairs₂,done₂,holds₂,fun k x => ?_⟩
    rw [rest,first,List.mem_cons,Prod.mk.injEq,List.map_cons,List.mem_cons,not_or]
    split_ifs with same
    · have only : (key,some x) ∉ writes := fun member => once.1 (List.mem_map.mpr ⟨_,member,rfl⟩)
      subst same
      simp [once.1,only,eq_comm]
    · simp [same]

theorem start_writeAll (key : α → Bytes) {rows : List α} (distinct : (rows.map key).Nodup)
    {writes : List (Bytes × Option α)} (once : (writes.map Prod.fst).Nodup) :
    ∃ pairs : List (Bytes × α), ((start key rows).writeAll writes).rows = pairs.map Prod.snd ∧ (pairs.map Prod.fst).Nodup ∧
      ∀ k x, (k,x) ∈ pairs ↔ (k,some x) ∈ writes ∨ k ∉ writes.map Prod.fst ∧ x ∈ rows ∧ key x = k := by
  obtain ⟨pairs,_,holds,members⟩ := (start_holds key distinct).writeAll once (fun _ _ => List.not_mem_nil)
  refine ⟨pairs,holds.rows,holds.distinct,fun k x => ?_⟩
  rw [members]
  simp [and_comm]

theorem mem_writeAll {o : Overlay α} {writes : List (Bytes × Option α)} {x : α} (member : x ∈ (o.writeAll writes).rows) :
    x ∈ o.rows ∨ ∃ key, (key,some x) ∈ writes := by
  induction writes generalizing o with
  | nil => exact .inl member
  | cons entry writes ih =>
    obtain ⟨key,w⟩ := entry
    rcases ih member with before | ⟨k,later⟩
    · have step : x ∈ o.rows ∨ w = some x := by
        cases w with
        | none =>
          rw [write] at before
          split at before
          · exact .inl before
          · exact .inl (List.mem_of_mem_eraseIdx before)
        | some row =>
          rw [write] at before
          split at before
          · exact (List.mem_or_eq_of_mem_set before).imp id fun same => congrArg some same.symm
          · exact (List.mem_append.mp before).imp id fun same => congrArg some (List.mem_singleton.mp same).symm
      exact step.imp id fun same => ⟨key,List.mem_cons.mpr (.inl (congrArg _ same.symm))⟩
    · exact .inr ⟨k,List.mem_cons_of_mem _ later⟩

end Overlay
end GoDb
