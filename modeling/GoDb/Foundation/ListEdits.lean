import Mathlib.Data.List.Basic

/-! Edits at a known cut of a list, in the form a split `left ++ x::right` gives them,
and the copy of a block over part of a list of fixed length. -/
namespace GoDb.Foundation.ListEdits

variable {α : Type}

theorem insertIdx_cut (left right : List α) (x : α) :
    (left ++ right).insertIdx left.length x = left ++ x::right := by
  induction left with
  | nil => rfl
  | cons head rest ih => simp [ih]

theorem set_cut (left right : List α) (x y : α) :
    (left ++ x::right).set left.length y = left ++ y::right := by
  rw [List.set_append_right _ _ (Nat.le_refl _),Nat.sub_self,List.set_cons_zero]

theorem getElem?_cut (left right : List α) (x : α) : (left ++ x::right)[left.length]? = some x := by
  simp

theorem eraseIdx_cut (left right : List α) (x : α) : (left ++ x::right).eraseIdx left.length = left ++ right := by
  rw [List.eraseIdx_append_of_length_le (Nat.le_refl _),Nat.sub_self,List.eraseIdx_cons_zero]

variable {items block : List α} {start : Nat}

theorem cut_of_getElem? {i : Nat} {x : α} (found : items[i]? = some x) :
    ∃ left right, items = left ++ x::right ∧ left.length = i := by
  obtain ⟨inside,rfl⟩ := List.getElem?_eq_some_iff.mp found
  refine ⟨items.take i,items.drop (i + 1),?_,List.length_take_of_le (Nat.le_of_lt inside)⟩
  rw [List.getElem_cons_drop,List.take_append_drop]

theorem last_split (good : α → Prop) (items : List α) :
    (∀ x ∈ items, ¬good x) ∨
      ∃ before x after, items = before ++ x::after ∧ good x ∧ ∀ y ∈ after, ¬good y := by
  induction items with
  | nil => exact .inl fun _ member => nomatch member
  | cons head rest ih =>
    rcases ih with none | ⟨before,x,after,rfl,found,later⟩
    · by_cases first : good head
      · exact .inr ⟨[],head,rest,rfl,first,none⟩
      · exact .inl (List.forall_mem_cons.mpr ⟨first,none⟩)
    · exact .inr ⟨head::before,x,after,rfl,found,later⟩

/-- `block` copied over `items` from position `start` on; what reaches past the end is cut off. -/
def overwrite (items : List α) (start : Nat) (block : List α) : List α :=
  (items.take start ++ block ++ items.drop (start + block.length)).take items.length

@[simp] theorem length_overwrite (items block : List α) (start : Nat) :
    (overwrite items start block).length = items.length := by
  simp only [overwrite,List.length_take,List.length_append,List.length_drop]
  omega

theorem getElem?_overwrite {x : α} (inside : start < items.length) :
    (overwrite items start (x::block))[start]? = some x := by
  have front : (items.take start).length = start := List.length_take_of_le (Nat.le_of_lt inside)
  rw [overwrite,List.getElem?_take_of_lt inside,List.append_assoc,List.getElem?_append_right (Nat.le_of_eq front),front,
    Nat.sub_self]
  rfl

theorem overwrite_prefix {front : List α} (before : front <+: items)
    (fits : front.length + block.length ≤ items.length) : front ++ block <+: overwrite items front.length block := by
  have taken : items.take front.length = front := (List.prefix_iff_eq_take.mp before).symm
  rw [overwrite,taken]
  exact List.prefix_take_iff.mpr ⟨List.prefix_append _ _,by simpa using fits⟩

theorem overwrite_of_fits (fits : start + block.length ≤ items.length) :
    overwrite items start block = items.take start ++ block ++ items.drop (start + block.length) := by
  rw [overwrite,List.take_of_length_le]
  simp only [List.length_append,List.length_take,List.length_drop]
  omega

theorem take_overwrite {n : Nat} (fits : start + block.length ≤ items.length) (before : n ≤ start) :
    (overwrite items start block).take n = items.take n := by
  have front : n ≤ (items.take start).length := by
    rw [List.length_take]
    omega
  rw [overwrite_of_fits fits,List.append_assoc,List.take_append_of_le_length front,List.take_take,Nat.min_eq_left before]

theorem drop_overwrite {n : Nat} (fits : start + block.length ≤ items.length) (behind : start + block.length ≤ n) :
    (overwrite items start block).drop n = items.drop n := by
  have front : (items.take start ++ block).length = start + block.length := by
    rw [List.length_append,List.length_take_of_le (by omega)]
  rw [overwrite_of_fits fits,List.drop_append,front,List.drop_drop,List.drop_eq_nil_of_le (by omega),List.nil_append]
  congr 1
  omega

theorem drop_overwrite_inside {n : Nat} (fits : start + block.length ≤ items.length) (before : n ≤ start) :
    (overwrite items start block).drop n = overwrite (items.drop n) (start - n) block := by
  have front : n ≤ (items.take start).length := by
    rw [List.length_take]
    omega
  have length : (items.take start).length = start := List.length_take_of_le (by omega)
  rw [overwrite_of_fits fits,overwrite_of_fits (by rw [List.length_drop]; omega),List.append_assoc,
    List.drop_append_of_le_length front,List.drop_take,List.drop_drop,List.append_assoc]
  congr 3
  omega

theorem overwrite_slice (fits : start + block.length ≤ items.length) :
    ((overwrite items start block).drop start).take block.length = block := by
  rw [drop_overwrite_inside fits (Nat.le_refl _),Nat.sub_self,overwrite_of_fits (by rw [List.length_drop]; omega)]
  simp

theorem overwrite_overwrite {first second : List α} (fits : start + first.length + second.length ≤ items.length) :
    overwrite (overwrite items start first) (start + first.length) second = overwrite items start (first ++ second) := by
  have inside : start + first.length ≤ items.length := by omega
  have front : (items.take start ++ first).length = start + first.length := by
    rw [List.length_append,List.length_take_of_le (by omega)]
  have both : start + (first ++ second).length ≤ items.length := by
    rw [List.length_append]
    omega
  have fits' : start + first.length + second.length ≤ (overwrite items start first).length := by
    rwa [length_overwrite]
  rw [overwrite_of_fits fits',overwrite_of_fits both,drop_overwrite inside (Nat.le_add_right _ _),
    overwrite_of_fits inside,List.take_left' front,List.length_append,Nat.add_assoc,List.append_assoc _ first second]

end GoDb.Foundation.ListEdits
