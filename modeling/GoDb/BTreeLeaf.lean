import GoDb.BTree
import GoDb.Foundation.Separators
import GoDb.Foundation.SortedEntries
import GoDb.Foundation.ListEdits
import Mathlib.Data.List.GetD

/-! The searches inside one B+Tree node, and what a leaf insertion does to the
entries of the leaf: `keyIndex` cuts the sorted keys at the key it looks for. -/
namespace GoDb.BTree
open Foundation.Separators Foundation.SortedEntries Foundation.ListEdits

theorem childIndex_eq_position (keys : List Bytes) (key : Bytes) :
    childIndex keys key = position keys key := by
  induction keys with
  | nil => rfl
  | cons k keys ih =>
    by_cases le : k ≤ key
    · simp only [childIndex,le,if_true,ih]
      simp [position,le]
    · simp [childIndex,position,le]

def CutAt (keys : List Bytes) (key : Bytes) (i : Nat) : Prop :=
  i ≤ keys.length ∧ (∀ k ∈ keys.take i, k < key) ∧ ∀ k ∈ keys.drop i, key ≤ k

theorem keyIndexLoop_cut (keys : List Bytes) (key : Bytes) (sorted : keys.Pairwise (· < ·))
    (fuel lo hi : Nat) (enough : hi - lo ≤ fuel) (ordered : lo ≤ hi) (bound : hi ≤ keys.length)
    (smaller : ∀ k ∈ keys.take lo, k < key) (larger : ∀ k ∈ keys.drop hi, key ≤ k) :
    CutAt keys key (keyIndexLoop keys key fuel lo hi) := by
  -- Keys before `lo` are smaller and keys from `hi` on are not.
  induction fuel generalizing lo hi with
  | zero =>
    have same : lo = hi := by omega
    subst same
    exact ⟨bound,smaller,larger⟩
  | succ fuel ih =>
    simp only [keyIndexLoop]
    split_ifs with more less
    · have inside : (lo+hi)/2 < keys.length := by omega
      rw [List.getD_eq_getElem _ _ inside] at less
      refine ih _ _ (by omega) (by omega) bound ?_ larger
      intro k member
      obtain ⟨j,jBound,rfl⟩ := List.mem_take_iff_getElem.mp member
      rcases Nat.lt_or_ge j ((lo+hi)/2) with before | last
      · exact (List.pairwise_iff_getElem.mp sorted _ _ _ _ before).trans less
      · have eq : j = (lo+hi)/2 := by omega
        simpa only [eq] using less
    · have inside : (lo+hi)/2 < keys.length := by omega
      rw [List.getD_eq_getElem _ _ inside] at less
      refine ih _ _ (by omega) (by omega) (by omega) smaller ?_
      intro k member
      obtain ⟨j,jBound,rfl⟩ := List.mem_drop_iff_getElem.mp member
      rcases Nat.eq_zero_or_pos j with rfl | later
      · simpa using le_of_not_gt less
      · have order := List.pairwise_iff_getElem.mp sorted ((lo+hi)/2) ((lo+hi)/2+j) inside (by omega) (by omega)
        exact (le_of_not_gt less).trans (le_of_lt order)
    · have same : lo = hi := by omega
      subst same
      exact ⟨bound,smaller,larger⟩

theorem keyIndex_cut (keys : List Bytes) (key : Bytes) (sorted : keys.Pairwise (· < ·)) :
    CutAt keys key (keyIndex keys key) :=
  keyIndexLoop_cut keys key sorted _ _ _ (by omega) (by omega) (le_refl _) (by simp) (by simp)

structure LeafOk (lo hi : Option Bytes) (l : Leaf) : Prop where
  size : l.keys.length = l.values.length
  sorted : l.keys.Pairwise (· < ·)
  inside : ∀ k ∈ l.keys, InRange lo hi k
  room : l.keys.length ≤ btreeOrder

variable {lo hi : Option Bytes} {l : Leaf}

theorem LeafOk.search (ok : LeafOk lo hi l) (key : Bytes) :
    ∃ before after beforeValues afterValues,
      l.keys = before ++ after ∧ l.values = beforeValues ++ afterValues ∧
      before.length = keyIndex l.keys key ∧ beforeValues.length = before.length ∧
      afterValues.length = after.length ∧ (∀ k ∈ before, k < key) ∧ ∀ k ∈ after, key ≤ k := by
  obtain ⟨bound,smaller,larger⟩ := keyIndex_cut l.keys key ok.sorted
  have size := ok.size
  refine ⟨_,_,_,_,(List.take_append_drop _ l.keys).symm,(List.take_append_drop (keyIndex l.keys key) l.values).symm,
    ?_,?_,?_,smaller,larger⟩
  · simp only [List.length_take]
    omega
  · simp only [List.length_take]
    omega
  · simp only [List.length_drop]
    omega

theorem entries_append {before after beforeValues afterValues : List Bytes}
    (size : beforeValues.length = before.length) :
    (before ++ after).zip (beforeValues ++ afterValues) = before.zip beforeValues ++ after.zip afterValues :=
  List.zip_append size.symm

theorem LeafOk.increasing (ok : LeafOk lo hi l) : Increasing l.entries := by
  have keys : (l.entries.map Prod.fst) = l.keys := List.map_fst_zip ok.size.le
  have sorted := ok.sorted
  rw [← keys] at sorted
  exact List.pairwise_map.mp sorted

theorem Leaf.mem_keys {e : Entry} (member : e ∈ l.entries) : e.1 ∈ l.keys := by
  obtain ⟨k,v⟩ := e
  exact (List.of_mem_zip member).1

theorem LeafOk.get (ok : LeafOk lo hi l) (key : Bytes) : l.get key = l.entries.lookup key := by
  obtain ⟨before,after,beforeValues,afterValues,keys,values,index,size,sizeAfter,smaller,larger⟩ := ok.search key
  have skip : (before.zip beforeValues).lookup key = none :=
    lookup_none_of_ne (fun e member => ne_of_lt (smaller _ (List.of_mem_zip member).1))
  simp only [Leaf.get,Leaf.entries,← index]
  rw [keys,values,entries_append size,List.lookup_append,skip,Option.none_or,
    List.getElem?_append_right (le_refl _),Nat.sub_self,
    List.getElem?_append_right (by omega : beforeValues.length ≤ before.length),size,Nat.sub_self]
  cases after with
  | nil =>
    cases afterValues with
    | nil => simp
    | cons v rest => simp at sizeAfter
  | cons k rest =>
    cases afterValues with
    | nil => simp at sizeAfter
    | cons v restValues =>
      rw [List.zip_cons_cons,lookup_cons_ite]
      by_cases same : k = key
      · subst same
        simp
      · have absent : (rest.zip restValues).lookup key = none := by
          refine lookup_none_of_ne (fun e member => ne_of_gt ?_)
          have sorted := ok.sorted
          rw [keys] at sorted
          have order := (List.pairwise_cons.mp (List.pairwise_append.mp sorted).2.1).1
          exact lt_of_le_of_lt (larger k List.mem_cons_self) (order _ (List.of_mem_zip member).1)
        simp [same,Ne.symm same,absent]

theorem LeafOk.insert_cases (ok : LeafOk lo hi l) (key value : Bytes) :
    ∃ before after beforeValues afterValues,
      l.keys = before ++ after ∧ l.values = beforeValues ++ afterValues ∧
      beforeValues.length = before.length ∧ afterValues.length = after.length ∧
      (∀ k ∈ before, k < key) ∧
      ((∃ rest v restValues, after = key::rest ∧ afterValues = v::restValues ∧ (∀ k ∈ rest, key < k) ∧
          l.insert key value = ⟨l.addr,l.keys,beforeValues ++ value::restValues,l.next⟩) ∨
        ((∀ k ∈ after, key < k) ∧
          l.insert key value = ⟨l.addr,before ++ key::after,beforeValues ++ value::afterValues,l.next⟩)) := by
  obtain ⟨before,after,beforeValues,afterValues,keys,values,index,size,sizeAfter,smaller,larger⟩ := ok.search key
  refine ⟨before,after,beforeValues,afterValues,keys,values,size,sizeAfter,smaller,?_⟩
  have sorted := ok.sorted
  rw [keys] at sorted
  have tail := (List.pairwise_append.mp sorted).2.1
  have miss (larger : ∀ k ∈ after, key < k) :
      l.insert key value = ⟨l.addr,before ++ key::after,beforeValues ++ value::afterValues,l.next⟩ := by
    have absent : l.keys[keyIndex l.keys key]? ≠ some key := by
      rw [← index,keys,List.getElem?_append_right (le_refl _),Nat.sub_self]
      intro found
      exact lt_irrefl key (larger key (List.mem_of_getElem? found))
    simp only [Leaf.insert,absent,if_false]
    rw [← index,keys,insertIdx_cut,← size,values,insertIdx_cut]
  cases after with
  | nil => exact .inr ⟨by simp,miss (by simp)⟩
  | cons k rest =>
    have order := (List.pairwise_cons.mp tail).1
    cases afterValues with
    | nil => simp at sizeAfter
    | cons v restValues =>
      rcases eq_or_lt_of_le (larger k List.mem_cons_self) with rfl | less
      · refine .inl ⟨rest,v,restValues,rfl,rfl,order,?_⟩
        have found : l.keys[keyIndex l.keys key]? = some key := by
          rw [← index,keys,getElem?_cut]
        simp only [Leaf.insert,found,if_true]
        rw [← index,← size,values,set_cut]
      · have all : ∀ k' ∈ k::rest, key < k' := by
          intro k' member
          rcases List.mem_cons.mp member with rfl | later
          · exact less
          · exact less.trans (order k' later)
        exact .inr ⟨all,miss all⟩

theorem LeafOk.insert (ok : LeafOk lo hi l) (key value : Bytes) (inside : InRange lo hi key)
    (space : l.keys.length < btreeOrder) :
    LeafOk lo hi (l.insert key value) ∧ (l.insert key value).entries = put key value l.entries ∧
      l.keys.length ≤ (l.insert key value).keys.length := by
  obtain ⟨before,after,beforeValues,afterValues,keys,values,size,sizeAfter,smaller,cases⟩ :=
    ok.insert_cases key value
  have front : ∀ e ∈ before.zip beforeValues, e.1 < key := fun e member => smaller _ (List.of_mem_zip member).1
  have old : l.entries = before.zip beforeValues ++ after.zip afterValues := by
    rw [Leaf.entries,keys,values,entries_append size]
  have sorted := ok.sorted
  rw [keys] at sorted
  obtain ⟨headSorted,tailSorted,cross⟩ := List.pairwise_append.mp sorted
  -- The key is there and its value is replaced, or it is put between its neighbours.
  rcases cases with ⟨rest,v,restValues,rfl,rfl,later,result⟩ | ⟨later,result⟩
  · refine ⟨?_,?_,?_⟩
    · rw [result]
      refine ⟨?_,ok.sorted,ok.inside,ok.room⟩
      have total := ok.size
      rw [values] at total
      simpa using total
    · rw [result,old]
      have back : ∀ e ∈ rest.zip restValues, key < e.1 := fun e member => later _ (List.of_mem_zip member).1
      have step := put_between key value (before.zip beforeValues) [(key,v)] (rest.zip restValues) front back
      rw [List.append_assoc] at step
      change ((l.keys).zip (beforeValues ++ value::restValues)) = _
      rw [keys,entries_append size]
      simpa [put] using step.symm
    · rw [result]
  · refine ⟨?_,?_,?_⟩
    · rw [result]
      refine ⟨?_,?_,?_,?_⟩
      · simp [size,sizeAfter]
      · refine List.pairwise_append.mpr ⟨headSorted,List.pairwise_cons.mpr ⟨later,tailSorted⟩,?_⟩
        intro a first b second
        rcases List.mem_cons.mp second with rfl | rest
        · exact smaller a first
        · exact cross a first b rest
      · intro k member
        rcases List.mem_append.mp member with first | second
        · exact ok.inside k (by rw [keys]; simp [first])
        · rcases List.mem_cons.mp second with rfl | rest
          · exact inside
          · exact ok.inside k (by rw [keys]; simp [rest])
      · rw [keys] at space
        simp only [List.length_append,List.length_cons] at space ⊢
        omega
    · rw [result,old]
      have back : ∀ e ∈ after.zip afterValues, key < e.1 := fun e member => later _ (List.of_mem_zip member).1
      have step := put_between key value (before.zip beforeValues) [] (after.zip afterValues) front back
      change ((before ++ key::after).zip (beforeValues ++ value::afterValues)) = _
      rw [entries_append size]
      simpa [put] using step.symm
    · rw [result,keys]
      simp

end GoDb.BTree
