import Mathlib.Data.List.Nodup

/-! Lists whose members carry distinct keys, as a map that is kept in an order of its own. -/
namespace GoDb.Foundation.Keyed

variable {α K : Type} [DecidableEq K] (key : α → K)

theorem find_eq_some {items : List α} (distinct : (items.map key).Nodup) {k : K} {x : α} :
    items.find? (key · = k) = some x ↔ x ∈ items ∧ key x = k := by
  constructor
  · intro found
    exact ⟨List.mem_of_find?_eq_some found,by simpa using List.find?_some found⟩
  · rintro ⟨member,rfl⟩
    have unique : items.find? (key · = key x) = some x := by
      induction items with
      | nil => cases member
      | cons y rest ih =>
        rw [List.map_cons,List.nodup_cons] at distinct
        rcases List.mem_cons.mp member with rfl | member
        · simp
        · have other : key y ≠ key x := fun same => distinct.1 (same ▸ List.mem_map_of_mem member)
          rw [List.find?_cons_of_neg (by simpa using other)]
          exact ih distinct.2 member
    exact unique

theorem find_eq_none {items : List α} {k : K} : items.find? (key · = k) = none ↔ k ∉ items.map key := by
  simp [List.find?_eq_none]

theorem nodup_front {items : List α} (distinct : (items.map key).Nodup) (x : α) :
    ((x::items.filter (key · ≠ key x)).map key).Nodup := by
  rw [List.map_cons,List.nodup_cons]
  refine ⟨?_,distinct.sublist (List.filter_sublist.map key)⟩
  simp

theorem mem_front {items : List α} {x y : α} :
    y ∈ x::items.filter (key · ≠ key x) ↔ y = x ∨ y ∈ items ∧ key y ≠ key x := by
  simp

theorem mem_keys_front {items : List α} {x : α} {k : K} :
    k ∈ (x::items.filter (key · ≠ key x)).map key ↔ k = key x ∨ k ∈ items.map key := by
  simp only [List.map_cons,List.mem_cons,List.mem_map,List.mem_filter,decide_eq_true_eq]
  constructor
  · rintro (same | ⟨y,⟨member,-⟩,rfl⟩)
    · exact .inl same
    · exact .inr ⟨y,member,rfl⟩
  · rintro (same | ⟨y,member,rfl⟩)
    · exact .inl same
    · by_cases same : key y = key x
      · exact .inl same
      · exact .inr ⟨y,⟨member,same⟩,rfl⟩

end GoDb.Foundation.Keyed
