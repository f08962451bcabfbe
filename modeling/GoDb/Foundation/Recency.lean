import Mathlib.Data.List.Basic
import Mathlib.Data.List.Nodup

/-! The order of a cache that evicts the least recently used key: the most recently
used key comes first, and no more keys are kept than the cache has places. -/
namespace GoDb.Foundation.Recency

variable {K : Type} [DecidableEq K]

def touch (places : Nat) (keys : List K) (key : K) : List K := (key::keys.filter (· ≠ key)).take places

variable {keys : List K} {key : K} {places : Nat}

private theorem filter_of_absent (absent : key ∉ keys) : keys.filter (· ≠ key) = keys := by
  refine List.filter_eq_self.mpr fun k member => ?_
  simp only [ne_eq,decide_eq_true_eq]
  exact fun same => absent (same ▸ member)

theorem touch_of_absent (absent : key ∉ keys) : touch places keys key = (key::keys).take places := by
  rw [touch,filter_of_absent absent]

theorem length_filter_ne (member : key ∈ keys) (distinct : keys.Nodup) :
    (keys.filter (· ≠ key)).length + 1 = keys.length := by
  have same : keys.filter (· ≠ key) = keys.erase key := by
    rw [distinct.erase_eq_filter]
    refine List.filter_congr fun k _ => ?_
    by_cases equal : k = key <;> simp [equal]
  have positive := List.length_pos_of_mem member
  rw [same,List.length_erase_of_mem member]
  omega

theorem touch_of_mem (member : key ∈ keys) (distinct : keys.Nodup) (bound : keys.length ≤ places) :
    touch places keys key = key::keys.filter (· ≠ key) := by
  have length := length_filter_ne member distinct
  exact List.take_of_length_le (by rw [List.length_cons]; omega)

theorem touch_last (places : Nat) (keys : List K) (absent : key ∉ keys) :
    touch places ((keys ++ [key]).take places) key = (key::keys).take places := by
  have kept : ((keys ++ [key]).take places).filter (· ≠ key) = keys.take places := by
    rw [List.take_append,List.filter_append]
    have first := filter_of_absent (fun member => absent (List.mem_of_mem_take (i := places) member))
    have second : (List.take (places - keys.length) [key]).filter (· ≠ key) = [] := by
      refine List.filter_eq_nil_iff.mpr fun k member => ?_
      simpa using List.mem_of_mem_take member
    rw [first,second,List.append_nil]
  rw [touch,kept]
  cases places with
  | zero => rfl
  | succ places => rw [List.take_succ_cons,List.take_succ_cons,List.take_take,Nat.min_eq_left (Nat.le_succ _)]

theorem mem_touch_of_mem {k : K} (member : k ∈ keys ∧ key ∈ keys) (distinct : keys.Nodup)
    (bound : keys.length ≤ places) : k ∈ touch places keys key := by
  rw [touch_of_mem member.2 distinct bound]
  by_cases same : k = key
  · exact same ▸ List.mem_cons_self
  · exact List.mem_cons_of_mem _ (List.mem_filter.mpr ⟨member.1,by simpa using same⟩)

theorem touch_head (absent : key ∉ keys) (bound : keys.length < places) : touch places (key::keys) key = key::keys := by
  rw [touch,List.filter_cons_of_neg (by simp),filter_of_absent absent]
  exact List.take_of_length_le bound

theorem touch_swap {first second : K} (one : first ∉ keys) (two : second ∉ keys) (different : first ≠ second)
    (bound : keys.length + 2 ≤ places) :
    touch places (touch places (first::second::keys) second) first = first::second::keys := by
  have swapped : touch places (first::second::keys) second = second::first::keys := by
    rw [touch,List.filter_cons_of_pos (by simpa using different),List.filter_cons_of_neg (by simp),
      filter_of_absent two]
    exact List.take_of_length_le bound
  rw [swapped,touch,List.filter_cons_of_pos (by simpa using different.symm),List.filter_cons_of_neg (by simp),
    filter_of_absent one]
  exact List.take_of_length_le bound

def window (places n : Nat) : List Nat := (List.range n).reverse.take places

theorem window_succ (places n : Nat) :
    window (places + 1) (n + 1) = n::(List.range n).reverse.take places := by
  rw [window,List.range_succ,List.reverse_append]
  rfl

theorem range_split {n j : Nat} (before : j < n) :
    (List.range' j (n - j)).reverse = (List.range' (j + 1) (n - (j + 1))).reverse ++ [j] := by
  obtain ⟨rest,rfl⟩ : ∃ rest, n = j + (rest + 1) := ⟨n - j - 1,by omega⟩
  rw [Nat.add_sub_cancel_left,List.range'_succ,List.reverse_cons]
  congr 3
  omega

theorem foldl_touch_range (places n j : Nat) (bound : j ≤ n) :
    (List.range j).foldl (touch places) (window places n) =
      ((List.range j).reverse ++ (List.range' j (n - j)).reverse).take places := by
  induction j with
  | zero => simp [window,List.range_eq_range']
  | succ j ih =>
    have absent : j ∉ (List.range j).reverse ++ (List.range' (j + 1) (n - (j + 1))).reverse := by
      simp only [List.mem_append,List.mem_reverse,List.mem_range,List.mem_range'_1]
      omega
    rw [List.range_succ,List.foldl_append,ih (by omega),range_split bound,← List.append_assoc]
    simp only [List.foldl_cons,List.foldl_nil]
    rw [touch_last places _ absent]
    simp

theorem scan_window (places n : Nat) : (List.range n).foldl (touch places) (window places n) = window places n := by
  rw [foldl_touch_range places n n (Nat.le_refl n)]
  simp [window]

end GoDb.Foundation.Recency
