import Mathlib.Data.List.Basic
import Mathlib.Data.List.Count
import Mathlib.Algebra.BigOperators.Group.List.Basic
import Mathlib.Algebra.Ring.Nat

/-! Groups of the members of a list that share a key. The keys are taken in the order in which
they are first met, and a running best is the best of a group where the comparison is transitive. -/
namespace GoDb.Foundation.Groups

variable {α K L : Type} [BEq K] [LawfulBEq K] [BEq L] [LawfulBEq L]

theorem foldl_unseen (keys seen : List K) :
    keys.foldl (fun seen key => if seen.contains key then seen else seen ++ [key]) seen =
      seen ++ (keys.filter fun key => !seen.contains key).eraseDups := by
  induction keys generalizing seen with
  | nil => exact (List.append_nil seen).symm
  | cons key keys ih =>
    rw [List.foldl_cons]
    by_cases met : seen.contains key = true
    · rw [if_pos met,ih,List.filter_cons_of_neg (by simpa using met)]
    · have others : keys.filter (fun other => !(seen ++ [key]).contains other) =
          keys.filter fun other => !other == key && !seen.contains other := by
        apply List.filter_congr
        intro other _
        rw [List.contains_append,Bool.not_or,Bool.and_comm]
        simp
      rw [if_neg met,ih,List.filter_cons_of_pos (by simpa using met),List.eraseDups_cons,List.append_assoc,List.filter_filter,
        others]
      rfl

omit [LawfulBEq K] in
theorem induction_on_keys (key : α → K) {P : List α → Prop} (nil : P [])
    (cons : ∀ a list, P (list.filter fun b => !key b == key a) → P (a::list)) (list : List α) : P list := by
  induction size : list.length using Nat.strongRecOn generalizing list with
  | _ n ih =>
    cases list with
    | nil => exact nil
    | cons a list =>
      apply cons
      apply ih _ _ _ rfl
      rw [← size]
      exact Nat.lt_succ_of_le (List.length_filter_le _ list)

theorem eraseDups_map {f : K → L} (list : List K) : (∀ a ∈ list, ∀ b ∈ list, f a = f b → a = b) →
    (list.map f).eraseDups = list.eraseDups.map f := by
  refine induction_on_keys (P := fun list => (∀ a ∈ list, ∀ b ∈ list, f a = f b → a = b) →
    (list.map f).eraseDups = list.eraseDups.map f) id ?_ ?_ list
  · intro _
    rfl
  · intro a list ih inj
    have others : (list.map f).filter (fun b => !b == f a) = (list.filter fun b => !b == a).map f := by
      rw [List.filter_map]
      congr 1
      apply List.filter_congr
      intro b member
      have same : f b = f a ↔ b = a :=
        ⟨inj b (List.mem_cons_of_mem a member) a List.mem_cons_self,congrArg f⟩
      simp [same]
    rw [List.map_cons,List.eraseDups_cons,others,List.eraseDups_cons,List.map_cons]
    congr 1
    apply ih
    intro b first c second
    exact inj b (List.mem_cons_of_mem a (List.mem_of_mem_filter first)) c
      (List.mem_cons_of_mem a (List.mem_of_mem_filter second))

theorem sum_countP (key : α → K) (p : α → Bool) (list : List α) :
    ((list.map key).eraseDups.map fun k => (list.filter fun a => key a == k).countP p).sum = list.countP p := by
  apply induction_on_keys (P := fun list =>
    ((list.map key).eraseDups.map fun k => (list.filter fun a => key a == k).countP p).sum = list.countP p) key
  · rfl
  · intro a list ih
    have keys : ((a::list).map key).eraseDups =
        key a::((list.filter fun b => !key b == key a).map key).eraseDups := by
      rw [List.map_cons,List.eraseDups_cons,List.filter_map]
      rfl
    -- The other groups have all their members among those that are left.
    have groups : ∀ k ∈ ((list.filter fun b => !key b == key a).map key).eraseDups,
        (a::list).filter (fun b => key b == k) = (list.filter fun b => !key b == key a).filter fun b => key b == k := by
      intro k member
      obtain ⟨b,there,rfl⟩ := List.mem_map.mp (List.mem_eraseDups.mp member)
      have other : key b ≠ key a := by simpa using (List.mem_filter.mp there).2
      rw [List.filter_cons_of_neg (by simpa using other.symm),List.filter_filter]
      apply List.filter_congr
      intro c _
      by_cases same : key c = key b
      · simp [same,other]
      · simp [same]
    rw [keys,List.map_cons,List.sum_cons,List.map_congr_left fun k member => congrArg (List.countP p) (groups k member),ih]
    have here : (a::list).filter (fun b => key b == key a) = a::list.filter fun b => key b == key a := by
      rw [List.filter_cons_of_pos (by simp)]
    have split := List.countP_eq_countP_filter_add list p fun b => key b == key a
    rw [here,List.countP_cons,List.countP_cons,split]
    omega

section Best

variable {R : α → α → Bool} {S : α → Prop} (irrefl : ∀ a, S a → R a a = false)
  (trans : ∀ a b c, S a → S b → S c → R a b = true → R b c = true → R a c = true)

include irrefl trans

theorem foldl_best_from (best : α) (rest : List α) (start : S best) (all : ∀ a ∈ rest, S a) :
    let final := rest.foldl (fun best a => if R a best then a else best) best
    final ∈ best::rest ∧ (∀ a, S a → R a best = false → R a final = false) ∧ ∀ a ∈ rest, R a final = false := by
  induction rest generalizing best with
  | nil => exact ⟨List.mem_singleton_self best,fun _ _ worse => worse,List.forall_mem_nil _⟩
  | cons next rest ih =>
    obtain ⟨here,later⟩ := List.forall_mem_cons.mp all
    rw [List.foldl_cons]
    by_cases up : R next best = true
    · rw [if_pos up]
      obtain ⟨member,kept,worse⟩ := ih next here later
      refine ⟨List.mem_cons_of_mem best member,?_,List.forall_mem_cons.mpr ⟨kept next here (irrefl next here),worse⟩⟩
      intro a inside other
      apply kept a inside
      by_contra above
      rw [trans a next best inside here start (Bool.not_eq_false _ ▸ above) up] at other
      cases other
    · rw [if_neg up]
      obtain ⟨member,kept,worse⟩ := ih best start later
      refine ⟨?_,kept,List.forall_mem_cons.mpr ⟨kept next here (Bool.not_eq_true _ ▸ up),worse⟩⟩
      rcases List.mem_cons.mp member with same | there
      · exact List.mem_cons.mpr (.inl same)
      · exact List.mem_cons_of_mem best (List.mem_cons_of_mem next there)

theorem foldl_best (first : α) (rest : List α) (all : ∀ a ∈ first::rest, S a) :
    let final := rest.foldl (fun best a => if R a best then a else best) first
    final ∈ first::rest ∧ ∀ a ∈ first::rest, R a final = false := by
  obtain ⟨here,later⟩ := List.forall_mem_cons.mp all
  obtain ⟨member,kept,worse⟩ := foldl_best_from irrefl trans first rest here later
  exact ⟨member,List.forall_mem_cons.mpr ⟨kept first here (irrefl first here),worse⟩⟩

end Best

end GoDb.Foundation.Groups
