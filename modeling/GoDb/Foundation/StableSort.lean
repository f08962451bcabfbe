import Mathlib.Data.List.Sort

/-! Sorting by a key. A list has one stable sort, which insertion finds. -/
namespace GoDb.Foundation.StableSort

variable {α β : Type} [LinearOrder β] {key : α → β} {list sorted sorted' : List α}

structure Sorts (key : α → β) (list sorted : List α) : Prop where
  perm : sorted.Perm list
  ordered : sorted.Pairwise fun a b => key a ≤ key b
  ties : ∀ k, sorted.filter (fun a => key a = k) = list.filter (fun a => key a = k)

theorem insertionSort_congr {r s : α → α → Prop} [DecidableRel r] [DecidableRel s]
    (same : ∀ a ∈ list, ∀ b ∈ list, r a b ↔ s a b) : list.insertionSort r = list.insertionSort s := by
  have mapped := List.map_insertionSort r s id list same
  rwa [List.map_id,List.map_id] at mapped

theorem sorts_insertionSort {r : α → α → Prop} [DecidableRel r] (same : ∀ a ∈ list, ∀ b ∈ list, r a b ↔ key a ≤ key b) :
    Sorts key list (list.insertionSort r) := by
  let s (a b : α) : Prop := key a ≤ key b
  have total : Std.Total s := ⟨fun a b => le_total (key a) (key b)⟩
  have trans : IsTrans α s := ⟨fun a b c => le_trans⟩
  rw [insertionSort_congr same]
  have perm : (list.insertionSort s).Perm list := List.perm_insertionSort s list
  refine ⟨perm,List.pairwise_insertionSort s list,fun k => ?_⟩
  -- The equal keys are in order already, and so they are found again in the sorted list, which has no more of them.
  have tied : (list.filter fun a => key a = k).Pairwise s := by
    apply List.pairwise_of_forall_mem_list
    intro a first b second
    exact (of_decide_eq_true (List.mem_filter.mp first).2).trans (of_decide_eq_true (List.mem_filter.mp second).2).symm |>.le
  have inside := (List.sublist_insertionSort tied List.filter_sublist).filter fun a => key a = k
  rw [List.filter_filter] at inside
  simp only [Bool.and_self] at inside
  exact (inside.eq_of_length (perm.filter _).length_eq.symm).symm

theorem le_head {a b : α} (ordered : (a::list).Pairwise fun a b => key a ≤ key b) (member : b ∈ a::list) :
    key a ≤ key b := by
  rcases List.mem_cons.mp member with rfl | later
  · exact le_refl (key b)
  · exact (List.pairwise_cons.mp ordered).1 b later

theorem eq_of_ties (perm : sorted.Perm sorted') (ordered : sorted.Pairwise fun a b => key a ≤ key b)
    (ordered' : sorted'.Pairwise fun a b => key a ≤ key b)
    (ties : ∀ k, sorted.filter (fun a => key a = k) = sorted'.filter (fun a => key a = k)) : sorted = sorted' := by
  induction sorted generalizing sorted' with
  | nil => exact perm.nil_eq
  | cons a sorted ih =>
    cases sorted' with
    | nil => exact absurd perm.eq_nil (List.cons_ne_nil a sorted)
    | cons b sorted' =>
      -- The heads have the least key, and so they are the first among their ties.
      have least : key b = key a :=
        le_antisymm (le_head ordered' (perm.mem_iff.mp List.mem_cons_self))
          (le_head ordered (perm.mem_iff.mpr List.mem_cons_self))
      have heads := ties (key a)
      rw [List.filter_cons,List.filter_cons,if_pos (decide_eq_true rfl),if_pos (decide_eq_true least)] at heads
      obtain rfl : a = b := (List.cons.inj heads).1
      congr 1
      apply ih perm.cons_inv ordered.of_cons ordered'.of_cons
      intro k
      have both := ties k
      rw [List.filter_cons,List.filter_cons] at both
      split_ifs at both with here
      · exact (List.cons.inj both).2
      · exact both

theorem Sorts.unique (first : Sorts key list sorted) (second : Sorts key list sorted') : sorted = sorted' :=
  eq_of_ties (first.perm.trans second.perm.symm) first.ordered second.ordered
    fun k => (first.ties k).trans (second.ties k).symm

end GoDb.Foundation.StableSort
