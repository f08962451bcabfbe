import Mathlib.Algebra.Order.BigOperators.Group.List
import Mathlib.Algebra.Order.Ring.Nat

/-! Next-fit packing. Items go one after another into bins of one capacity, and only the
newest bin is open: an item that it has no room for opens another. -/
namespace GoDb.Foundation.NextFit

variable {capacity : Nat} {sizes : List Nat}

def place (capacity : Nat) (state : Nat × Nat) (size : Nat) : Nat × Nat :=
  if state.2 + size ≤ capacity then (state.1,state.2 + size) else (state.1 + 1,size)

-- No bin is open before the first item, as if the one before were full.
def pack (capacity : Nat) (sizes : List Nat) : Nat × Nat := sizes.foldl (place capacity) (0,capacity)

def count (capacity : Nat) (sizes : List Nat) : Nat := (pack capacity sizes).1

section order

def Ahead (a b : Nat × Nat) : Prop := a.1 < b.1 ∨ a.1 = b.1 ∧ a.2 ≤ b.2

variable {a : Nat × Nat} {bins load size : Nat}

private theorem Ahead.place (ahead : Ahead a (bins,load)) (fits : load + size ≤ capacity) :
    Ahead (NextFit.place capacity a size) (bins,load + size) := by
  unfold NextFit.place
  rcases ahead with fewer | ⟨same,less⟩
  · split_ifs with room
    · exact .inl fewer
    · rcases Nat.lt_or_eq_of_le fewer with fewer | same
      · exact .inl fewer
      · exact .inr ⟨same,Nat.le_add_left _ _⟩
  · rw [if_pos ((Nat.add_le_add_right less size).trans fits)]
    exact .inr ⟨same,Nat.add_le_add_right less size⟩

private theorem Ahead.grow (ahead : Ahead a (bins,load)) (size : Nat) : Ahead a (bins,load + size) := by
  rcases ahead with fewer | ⟨same,less⟩
  · exact .inl fewer
  · exact .inr ⟨same,Nat.le_add_right_of_le less⟩

private theorem Ahead.next (ahead : Ahead a (bins,load)) : Ahead a (bins + 1,0) := by
  apply Or.inl
  rcases ahead with fewer | ⟨same,-⟩
  · exact Nat.lt_succ_of_lt fewer
  · exact Nat.lt_succ_of_le (Nat.le_of_eq same)

/-- Whatever part of a bin's items is placed, next-fit stays ahead of the bin. -/
private theorem Ahead.bin {bin : List Nat} (part : sizes.Sublist bin) (ahead : Ahead a (bins,load))
    (fits : load + bin.sum ≤ capacity) : Ahead (sizes.foldl (NextFit.place capacity) a) (bins,load + bin.sum) := by
  induction part generalizing a load with
  | slnil => exact ahead
  | cons size part ih =>
    rw [List.sum_cons,← Nat.add_assoc] at fits ⊢
    exact ih (ahead.grow size) fits
  | cons_cons size part ih =>
    rw [List.sum_cons,← Nat.add_assoc] at fits ⊢
    exact ih (ahead.place (Nat.le_of_add_right_le fits)) fits

private theorem Ahead.all {packed : List (List Nat)} (part : sizes.Sublist packed.flatten)
    (ahead : Ahead a (bins,load)) (fit : ∀ bin ∈ packed, bin.sum ≤ capacity) :
    (sizes.foldl (NextFit.place capacity) a).1 ≤ bins + packed.length := by
  induction packed generalizing sizes a bins load with
  | nil =>
    obtain rfl := List.sublist_nil.mp part
    rcases ahead with fewer | ⟨same,-⟩
    · exact Nat.le_of_lt fewer
    · exact Nat.le_of_eq same
  | cons bin packed ih =>
    obtain ⟨fits,others⟩ := List.forall_mem_cons.mp fit
    obtain ⟨first,rest,rfl,here,later⟩ := List.sublist_append_iff.mp part
    rw [List.foldl_append,List.length_cons,Nat.add_comm packed.length,← Nat.add_assoc]
    exact ih later (ahead.next.bin here (by rwa [Nat.zero_add])) others

theorem count_le {packed : List (List Nat)} (part : sizes.Sublist packed.flatten)
    (fit : ∀ bin ∈ packed, bin.sum ≤ capacity) : count capacity sizes ≤ packed.length := by
  have bound := Ahead.all part (show Ahead (0,capacity) (0,capacity) from .inr ⟨rfl,Nat.le_refl _⟩) fit
  rwa [Nat.zero_add] at bound

end order

theorem sum_flatten_le {packed : List (List Nat)} (fit : ∀ bin ∈ packed, bin.sum ≤ capacity) :
    packed.flatten.sum ≤ packed.length * capacity := by
  rw [List.sum_flatten]
  have bound := List.sum_le_card_nsmul (packed.map List.sum) capacity (List.forall_mem_map.mpr fit)
  rwa [List.length_map] at bound

private theorem foldl_place_le (capacity : Nat) (state : Nat × Nat) (positive : ∀ size ∈ sizes, 0 < size) (begun : 0 < state.2) :
    0 < (sizes.foldl (place capacity) state).2 ∧
      (sizes.foldl (place capacity) state).1 * capacity + (sizes.foldl (place capacity) state).2 ≤
        state.1 * capacity + state.2 + 2 * sizes.sum := by
  induction sizes generalizing state with
  | nil => exact ⟨begun,Nat.le_refl _⟩
  | cons size sizes ih =>
    obtain ⟨some,others⟩ := List.forall_mem_cons.mp positive
    rw [List.foldl_cons,List.sum_cons]
    have step : 0 < (place capacity state size).2 ∧
        (place capacity state size).1 * capacity + (place capacity state size).2 ≤
          state.1 * capacity + state.2 + 2 * size := by
      unfold place
      split_ifs with room
      · exact ⟨by omega,by dsimp only; omega⟩
      · refine ⟨some,?_⟩
        dsimp only
        rw [Nat.add_mul,Nat.one_mul]
        omega
    obtain ⟨filled,bound⟩ := ih (place capacity state size) others step.1
    exact ⟨filled,by omega⟩

theorem count_le_double {bins : Nat} (some : 0 < capacity) (positive : ∀ size ∈ sizes, 0 < size)
    (total : sizes.sum ≤ bins * capacity) : count capacity sizes ≤ 2 * bins := by
  obtain ⟨filled,bound⟩ := foldl_place_le capacity (0,capacity) positive some
  have less : count capacity sizes * capacity < (2 * bins + 1) * capacity := by
    unfold count pack
    rw [Nat.add_mul,Nat.one_mul,Nat.mul_assoc]
    omega
  exact Nat.le_of_lt_succ (Nat.lt_of_mul_lt_mul_right less)

end GoDb.Foundation.NextFit
