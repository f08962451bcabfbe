import Mathlib.Data.List.Perm.Basic
import Mathlib.Data.List.Range

/-! The order in which a program goes over a collection that has none of its own. An
`Order` fixes an order for each of the loops of a computation: the loops are
told apart by a path, and `Order.at` gives a part of the computation its own paths. -/
namespace GoDb.Foundation

structure Order where
  pick : List Nat → Nat → List Nat
  perm : ∀ path n, (pick path n).Perm (List.range n)

namespace Order

def «at» (ord : Order) (part : Nat) : Order := ⟨fun path => ord.pick (part::path),fun path => ord.perm (part::path)⟩

/-- The loops go over their collections as these are stored. -/
def stored : Order := ⟨fun _ n => List.range n,fun _ _ => List.Perm.refl _⟩

variable {α : Type}

def arrange (ord : Order) (items : List α) : List α := (ord.pick [] items.length).filterMap (items[·]?)

private theorem filterMap_range (items : List α) : (List.range items.length).filterMap (items[·]?) = items := by
  induction items using List.reverseRecOn with
  | nil => rfl
  | append_singleton items item ih =>
    rw [List.length_append,List.length_singleton,List.range_succ,List.filterMap_append]
    have front : (List.range items.length).filterMap ((items ++ [item])[·]?) = items := by
      conv_rhs => rw [← ih]
      refine List.filterMap_congr fun j member => ?_
      rw [List.getElem?_append_left (List.mem_range.mp member)]
    rw [front]
    simp

theorem arrange_perm (ord : Order) (items : List α) : (ord.arrange items).Perm items := by
  have same := (ord.perm [] items.length).filterMap (items[·]?)
  rwa [filterMap_range] at same

@[simp] theorem mem_arrange (ord : Order) {items : List α} {item : α} : item ∈ ord.arrange items ↔ item ∈ items :=
  (ord.arrange_perm items).mem_iff

end Order

theorem forall_zipIdx {α : Type} {items : List α} {P : α → Prop} :
    (∀ p ∈ items.zipIdx, P p.1) ↔ ∀ item ∈ items, P item := by
  conv_rhs => rw [← List.zipIdx_map_fst 0 items]
  rw [List.forall_mem_map]

end GoDb.Foundation
