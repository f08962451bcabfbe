import Mathlib.Data.Finset.Card
import Mathlib.Data.Finset.Range

/-! Following links: `after next n a` is where `n` steps lead from `a`, `none` when the
links end before. Links that stay in a finite set end within as many steps as it has
members, or not at all. -/
namespace GoDb.Foundation.Walks

variable {α : Type} {next : α → Option α} {a : α}

def after (next : α → Option α) : Nat → α → Option α
  | 0,a => some a
  | n+1,a => (next a).bind (after next n)

def Ends (next : α → Option α) (a : α) : Prop := ∃ n, after next n a = none

theorem after_add (m n : Nat) (a : α) : after next (m + n) a = (after next m a).bind (after next n) := by
  induction m generalizing a with
  | zero => rw [Nat.zero_add]; rfl
  | succ m ih =>
    rw [Nat.succ_add,after,after,Option.bind_assoc]
    exact Option.bind_congr fun b _ => ih b

theorem after_later {m n : Nat} (ended : after next m a = none) (later : m ≤ n) : after next n a = none := by
  obtain ⟨k,rfl⟩ := Nat.exists_eq_add_of_le later
  rw [after_add,ended]
  rfl

theorem after_mem {inside : Finset α} (closed : ∀ a ∈ inside, ∀ b, next a = some b → b ∈ inside) (start : a ∈ inside)
    {n : Nat} {b : α} (reached : after next n a = some b) : b ∈ inside := by
  induction n generalizing a with
  | zero => exact Option.some.inj reached ▸ start
  | succ n ih =>
    obtain ⟨c,step,rest⟩ := Option.bind_eq_some_iff.mp reached
    exact ih (closed a start c step) rest

-- From the second visit of a place on the walk repeats what it did after the first.
private theorem never_ends {i j : Nat} (before : i < j) (again : after next i a = after next j a)
    (going : ∀ n ≤ j, after next n a ≠ none) (n : Nat) : after next n a ≠ none := by
  induction n using Nat.strong_induction_on with
  | _ n ih =>
    by_cases early : n ≤ j
    · exact going n early
    · have split : n = j + (n - j) := by omega
      rw [split,after_add,← again,← after_add]
      exact ih (i + (n - j)) (by omega)

theorem ends_within {inside : Finset α} (closed : ∀ a ∈ inside, ∀ b, next a = some b → b ∈ inside)
    (start : a ∈ inside) : Ends next a ↔ after next inside.card a = none := by
  constructor
  · intro ends
    by_contra going
    have reached : ∀ n ≤ inside.card, after next n a ≠ none :=
      fun n early ended => going (after_later ended early)
    have maps : ∀ n ∈ Finset.range (inside.card + 1), after next n a ∈ inside.map Function.Embedding.some := by
      intro n member
      obtain ⟨b,here⟩ := Option.ne_none_iff_exists'.mp (reached n (Nat.le_of_lt_succ (Finset.mem_range.mp member)))
      rw [here]
      exact Finset.mem_map_of_mem _ (after_mem closed start here)
    have fewer : (inside.map Function.Embedding.some).card < (Finset.range (inside.card + 1)).card := by
      rw [Finset.card_map,Finset.card_range]
      exact Nat.lt_succ_self _
    obtain ⟨i,first,j,second,different,again⟩ := Finset.exists_ne_map_eq_of_card_lt_of_maps_to fewer maps
    obtain ⟨n,ended⟩ := ends
    have early : ∀ {k}, k ∈ Finset.range (inside.card + 1) → ∀ n ≤ k, after next n a ≠ none :=
      fun member n bound => reached n (bound.trans (Nat.le_of_lt_succ (Finset.mem_range.mp member)))
    rcases Nat.lt_or_gt_of_ne different with before | before
    · exact never_ends before again (early second) n ended
    · exact never_ends before again.symm (early first) n ended
  · intro ended
    exact ⟨_,ended⟩

end GoDb.Foundation.Walks
