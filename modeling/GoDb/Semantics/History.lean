import GoDb.Semantics.Contents

/-! The histories of the keys of a store. Every write of a key adds a version with a new
sequence number behind the others, so a reader that remembers a number can tell which
keys were written since, and finds again what was there. -/
namespace GoDb
open Foundation

namespace Contents

variable {c c' c'' : Contents}

structure Ordered (c : Contents) : Prop where
  chain : ∀ key, (c.history key).Pairwise fun v w => v.seq < w.seq
  bound : ∀ key, ∀ v ∈ c.history key, v.seq ≤ c.seq

/-- A key gets new versions, or it stays as it is. -/
structure Moves (c c' : Contents) : Prop where
  seq : c.seq ≤ c'.seq
  keys : ∀ key, (∃ added, added ≠ [] ∧ c'.history key = c.history key ++ added ∧ ∀ v ∈ added, c.seq < v.seq) ∨
    (c'.history key = c.history key ∧ c'.entries.lookup key = c.entries.lookup key)

theorem Moves.refl (c : Contents) : c.Moves c := ⟨Nat.le_refl _,fun _ => .inr ⟨rfl,rfl⟩⟩

theorem Moves.trans (first : c.Moves c') (second : c'.Moves c'') : c.Moves c'' := by
  refine ⟨first.seq.trans second.seq,fun key => ?_⟩
  rcases second.keys key with ⟨more,some,grown,newer⟩ | ⟨same,entry⟩
  · refine .inl ?_
    have late : ∀ v ∈ more, c.seq < v.seq := fun v member => Nat.lt_of_le_of_lt first.seq (newer v member)
    rcases first.keys key with ⟨added,-,before,new⟩ | ⟨before,-⟩
    · refine ⟨added ++ more,by simp [some],by rw [grown,before,List.append_assoc],?_⟩
      exact List.forall_mem_append.mpr ⟨new,late⟩
    · exact ⟨more,some,by rw [grown,before],late⟩
  · rw [same,entry]
    exact first.keys key

theorem history_version (c : Contents) (key value : Bytes) (live : Bool) (k : Bytes) :
    (c.version key value live).history k =
      if k = key then c.history key ++ [⟨c.seq + 1,value,live⟩] else c.history k := by
  simp only [history,version,SortedMap.lookup_insert]
  split_ifs <;> rfl

theorem moves_version {key value : Bytes} {live : Bool} {entries : List BTree.Entry}
    (others : ∀ k, k ≠ key → entries.lookup k = c.entries.lookup k) :
    c.Moves {c.version key value live with entries := entries} := by
  refine ⟨Nat.le_succ _,fun k => ?_⟩
  change (∃ added, _ ∧ (c.version key value live).history k = _ ∧ _) ∨ (c.version key value live).history k = _ ∧ _
  rw [history_version]
  by_cases same : k = key
  · subst same
    rw [if_pos rfl]
    exact .inl ⟨_,List.cons_ne_nil _ _,rfl,by simp⟩
  · rw [if_neg same]
    exact .inr ⟨rfl,others k same⟩

theorem Ordered.version (ordered : c.Ordered) (key value : Bytes) (live : Bool) (entries : List BTree.Entry) :
    Ordered {c.version key value live with entries := entries} := by
  constructor
  · intro k
    change ((c.version key value live).history k).Pairwise _
    rw [history_version]
    split_ifs with same
    · refine List.pairwise_append.mpr ⟨ordered.chain key,List.pairwise_singleton _ _,?_⟩
      intro v member w new
      rw [List.mem_singleton.mp new]
      exact Nat.lt_succ_of_le (ordered.bound key v member)
    · exact ordered.chain k
  · intro k v
    change v ∈ (c.version key value live).history k → v.seq ≤ c.seq + 1
    rw [history_version]
    split_ifs with same
    · intro member
      rcases List.mem_append.mp member with old | new
      · exact (ordered.bound key v old).trans (Nat.le_succ _)
      · rw [List.mem_singleton.mp new]
    · exact fun member => (ordered.bound k v member).trans (Nat.le_succ _)

theorem moves_apply (c : Contents) (op : BatchOp) : c.Moves (c.apply op) := by
  unfold apply
  split_ifs
  · exact moves_version fun k other => by simp [other]
  · exact moves_version fun k other => by simp [other]

theorem Ordered.apply (ordered : c.Ordered) (op : BatchOp) : (c.apply op).Ordered := by
  unfold Contents.apply
  split_ifs
  · exact ordered.version op.key op.value false _
  · exact ordered.version op.key op.value true _

theorem foldl_apply (ordered : c.Ordered) (ops : List BatchOp) :
    (ops.foldl Contents.apply c).Ordered ∧ c.Moves (ops.foldl Contents.apply c) := by
  induction ops generalizing c with
  | nil => exact ⟨ordered,.refl c⟩
  | cons op ops ih =>
    obtain ⟨final,moves⟩ := ih (ordered.apply op)
    exact ⟨final,(moves_apply c op).trans moves⟩

end Contents
end GoDb
