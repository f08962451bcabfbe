import GoDb.Query
import GoDb.Foundation.Binary64Integers

/-! Integers in comparisons and sums, which go through `float64`. Two integers compare as
they are unless they are rounded to the same float; a sum is exact as long as it stays
within 53 bits. -/
namespace GoDb
open Foundation

theorem Int64.natAbs_toInt_lt (a : Int64) : a.toInt.natAbs < 2^64 := by
  have low := a.le_toInt
  have high := a.toInt_lt
  omega

namespace Value

theorem compare_ints (a b : Int64) :
    (Value.int a).compare (.int b) =
      if Binary64.ofInt a.toInt = Binary64.ofInt b.toInt then .eq else Ord.compare a.toInt b.toInt := by
  have forth := Binary64.less_ofInt (Int64.natAbs_toInt_lt a) (Int64.natAbs_toInt_lt b)
  have back := Binary64.less_ofInt (Int64.natAbs_toInt_lt b) (Int64.natAbs_toInt_lt a)
  change orderBy Binary64.less (Binary64.ofInt a.toInt) (Binary64.ofInt b.toInt) = _
  unfold orderBy
  rw [forth,back]
  split_ifs with less same greater same same
  · simp [same] at less
  · simp only [decide_eq_true_eq] at less
    exact (compare_lt_iff_lt.mpr less.1).symm
  · simp [same] at greater
  · simp only [decide_eq_true_eq] at greater
    exact (compare_gt_iff_gt.mpr greater.1).symm
  · rfl
  · simp only [decide_eq_true_eq] at less greater
    have equal : a.toInt = b.toInt := by
      by_contra different
      rcases Int.lt_or_gt_of_ne different with order | order
      · exact less ⟨order,same⟩
      · exact greater ⟨order,Ne.symm same⟩
    exact absurd (congrArg _ equal) same

end Value

def Short (i : Int64) : Prop := -2^53 ≤ i.toInt ∧ i.toInt ≤ 2^53

def exactSum (ints : List Int64) : Int := (ints.map Int64.toInt).sum

theorem exactSum_cons (i : Int64) (ints : List Int64) : exactSum (i::ints) = i.toInt + exactSum ints := List.sum_cons

theorem sumFrom_ints (expr : Bytes) (ints : List Int64) (s : Int) (short : ∀ i ∈ ints, Short i)
    (partly : ∀ k, (s + exactSum (ints.take k)).natAbs ≤ 2^53) :
    sumFrom expr (Binary64.ofInt s) (ints.map .int) = .ok (Binary64.ofInt (s + exactSum ints)) := by
  induction ints generalizing s with
  | nil =>
    have none : exactSum [] = 0 := rfl
    rw [none,Int.add_zero]
    rfl
  | cons i ints ih =>
    obtain ⟨here,short⟩ := List.forall_mem_cons.mp short
    have start : s.natAbs ≤ 2^53 := by simpa [exactSum] using partly 0
    have bits : i.toInt.natAbs ≤ 2^53 := by
      have low := here.1
      have high := here.2
      omega
    rw [List.map_cons,sumFrom,Value.number]
    dsimp only
    rw [Binary64.add_ofInt start bits,ih (s + i.toInt) short,exactSum_cons,Int.add_assoc]
    intro k
    have later := partly (k + 1)
    rwa [List.take_succ_cons,exactSum_cons,← Int.add_assoc] at later

theorem starts_sum {expr : Bytes} (sum : (ascii "SUM").isPrefixOf (toUpper expr) = true) :
    (ascii "COUNT").isPrefixOf (toUpper expr) = false ∧ (ascii "MIN").isPrefixOf (toUpper expr) = false ∧
      (ascii "MAX").isPrefixOf (toUpper expr) = false ∧ (ascii "AVG").isPrefixOf (toUpper expr) = false := by
  obtain ⟨rest,same⟩ := List.isPrefixOf_iff_prefix.mp sum
  rw [← same]
  exact ⟨rfl,rfl,rfl,rfl⟩

theorem aggregateValue_sum {expr : Bytes} (sum : (ascii "SUM").isPrefixOf (toUpper expr) = true) {ints : List Int64}
    (some : ints ≠ []) (short : ∀ i ∈ ints, Short i) (partly : ∀ k, (exactSum (ints.take k)).natAbs ≤ 2^53) :
    aggregateValue expr (ints.map .int) = .ok (.int (Int64.ofInt (exactSum ints))) := by
  obtain ⟨count,min,max,avg⟩ := starts_sum sum
  have total : (exactSum ints).natAbs ≤ 2^53 := by simpa using partly ints.length
  have added := sumFrom_ints expr ints 0 short (by simpa using partly)
  rw [Int.zero_add] at added
  have zero : Binary64.ofInt 0 = 0 := rfl
  rw [zero] at added
  have whole : allInts (ints.map .int) = true := by simp [allInts]
  rcases ints with _ | ⟨first,rest⟩
  · exact absurd rfl some
  · rw [List.map_cons] at added whole ⊢
    simp only [aggregateValue,count,min,max,avg,sum,added,whole]
    exact congrArg (fun i => Except.ok (Value.int i)) (Binary64.truncate_ofInt total)

end GoDb
