import GoDb.Semantics.History

/-! What a snapshot sees of a store: the last version of each key that is not newer, so
what is written later changes nothing. -/
namespace GoDb
open Foundation

namespace Contents

variable {c : Contents}

def current (c : Contents) (key : Bytes) : Option Bytes :=
  match (c.history key).getLast? with
  | some v => if v.found then some v.value else none
  | none => none

def Agrees (c : Contents) : Prop := ∀ key, c.entries.lookup key = c.current key

theorem current_version (c : Contents) (key value : Bytes) (live : Bool) (k : Bytes) :
    (c.version key value live).current k = if k = key then (if live then some value else none) else c.current k := by
  rw [current,history_version]
  split_ifs with same <;> simp_all [current]

theorem Agrees.version (agrees : c.Agrees) {key value : Bytes} {live : Bool} {entries : List BTree.Entry}
    (own : entries.lookup key = if live then some value else none)
    (others : ∀ k, k ≠ key → entries.lookup k = c.entries.lookup k) :
    Agrees {c.version key value live with entries := entries} := by
  intro k
  change entries.lookup k = (c.version key value live).current k
  rw [current_version]
  by_cases same : k = key
  · rw [if_pos same,same,own]
  · rw [if_neg same,others k same,agrees k]

theorem Agrees.apply (agrees : c.Agrees) (op : BatchOp) : (c.apply op).Agrees := by
  unfold Contents.apply
  split_ifs
  · exact agrees.version (by simp) fun k other => by simp [other]
  · exact agrees.version (by simp) fun k other => by simp [other]

theorem Agrees.foldl_apply (agrees : c.Agrees) (ops : List BatchOp) : (ops.foldl Contents.apply c).Agrees := by
  induction ops generalizing c with
  | nil => exact agrees
  | cons op ops ih => exact ih (agrees.apply op)

end Contents

namespace Store

variable {s s' : Store} {snapshot : Nat} {key : Bytes}

theorem visible_append {added : List Version} (newer : ∀ v ∈ added, snapshot < v.seq)
    (versions : List Version) : visible snapshot (versions ++ added) = visible snapshot versions := by
  have unseen : added.reverse.find? (·.seq ≤ snapshot) = none := by
    simpa [List.find?_eq_none] using newer
  rw [visible,List.reverse_append,List.find?_append,unseen]
  rfl

theorem getAt_moves (moves : s.contents.Moves s'.contents) (past : snapshot ≤ s.seq)
    (key : Bytes) : s'.getAt snapshot key = s.getAt snapshot key := by
  have same : visible snapshot (s'.history key) = visible snapshot (s.history key) := by
    change visible snapshot (s'.contents.history key) = visible snapshot (s.contents.history key)
    rcases moves.keys key with ⟨added,-,grown,newer⟩ | ⟨same,-⟩
    · rw [grown]
      exact visible_append (fun v member => Nat.lt_of_le_of_lt past (newer v member)) _
    · rw [same]
  rw [getAt,getAt,same]

theorem keysAt_perm (s : Store) (ord : Order) (snapshot : Nat) :
    (s.keysAt ord snapshot).Perm ((s.versions.entries.map Prod.fst).filter fun key => (s.getAt snapshot key).isSome) := by
  refine ((ord.arrange_perm _).filterMap _).trans (List.Perm.of_eq ?_)
  rw [List.filter_map,← List.filterMap_eq_filter,List.map_filterMap]
  refine List.filterMap_congr fun e member => ?_
  have found : s.history e.1 = e.2 := by rw [history,(SortedMap.mem_entries e).mp member]; rfl
  simp only [Option.guard,Function.comp_apply,getAt,found]
  cases visible snapshot e.2 with
  | none => rfl
  | some v => cases seen : v.found <;> simp [seen]

theorem keysAt_nodup (s : Store) (ord : Order) (snapshot : Nat) : (s.keysAt ord snapshot).Nodup :=
  (s.keysAt_perm ord snapshot).nodup_iff.mpr ((s.versions.increasing.keys.imp ne_of_lt).filter _)

theorem mem_keysAt (s : Store) (ord : Order) :
    key ∈ s.keysAt ord snapshot ↔ (s.getAt snapshot key).isSome := by
  rw [(s.keysAt_perm ord snapshot).mem_iff,List.mem_filter,and_iff_right_iff_imp]
  intro seen
  cases found : s.versions.lookup key with
  | some versions => exact List.mem_map.mpr ⟨_,(SortedMap.mem_entries (key,versions)).mpr found,rfl⟩
  | none =>
    rw [getAt,history,found] at seen
    cases seen

theorem visible_of_bound {versions : List Version} (bound : ∀ v ∈ versions, v.seq ≤ snapshot) :
    visible snapshot versions = versions.getLast? := by
  have seen : versions.reverse.filter (·.seq ≤ snapshot) = versions.reverse := by
    simpa [List.filter_eq_self] using bound
  rw [visible,← List.head?_filter,seen,List.head?_reverse]

theorem getAt_seq (ordered : s.contents.Ordered) (key : Bytes) : s.getAt s.seq key = s.contents.current key := by
  have last : visible s.seq (s.history key) = (s.history key).getLast? := visible_of_bound (ordered.bound key)
  rw [getAt,last]
  rfl

end Store
end GoDb
