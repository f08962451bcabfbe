import Mathlib.Data.List.Forall2

/-! Results of computations that may fail, one after the other and two side by side. -/
namespace GoDb.Foundation.Results

variable {ε α β α' β' γ : Type} {f : α → Except ε β} {list : List α} {x : Except ε α}

theorem bind_congr_ok {r : Except ε α} {g : α → Except ε β} (same : ∀ a, r = .ok a → f a = g a) :
    r >>= f = r >>= g := by
  cases r with
  | error => rfl
  | ok a => exact same a rfl

theorem mapM_congr {g : α → Except ε β} (same : ∀ a ∈ list, f a = g a) : list.mapM f = list.mapM g := by
  induction list with
  | nil => rfl
  | cons a list ih =>
    obtain ⟨here,later⟩ := List.forall_mem_cons.mp same
    rw [List.mapM_cons,List.mapM_cons,here,ih later]

theorem mapM_succeeds (list : List α) (each : ∀ a ∈ list, ∃ b, f a = .ok b) :
    ∃ out, list.mapM f = .ok out ∧ List.Forall₂ (fun a b => a ∈ list ∧ f a = .ok b) list out := by
  induction list with
  | nil => exact ⟨[],rfl,.nil⟩
  | cons a list ih =>
    obtain ⟨⟨b,here⟩,later⟩ := List.forall_mem_cons.mp each
    obtain ⟨out,ran,all⟩ := ih later
    refine ⟨b::out,?_,.cons ⟨List.mem_cons_self,here⟩ (all.imp fun _ _ there => ⟨List.mem_cons_of_mem a there.1,there.2⟩)⟩
    rw [List.mapM_cons,here,ran]
    rfl

theorem mapM_ok_mem {out : List β} (done : list.mapM f = .ok out) : ∀ a ∈ list, ∃ b, f a = .ok b := by
  induction list generalizing out with
  | nil => exact List.forall_mem_nil _
  | cons a list ih =>
    rw [List.mapM_cons] at done
    cases here : f a with
    | error => rw [here] at done; cases done
    | ok b =>
      rw [here] at done
      cases later : list.mapM f with
      | error => rw [later] at done; cases done
      | ok rest => exact List.forall_mem_cons.mpr ⟨⟨b,here⟩,ih later⟩

theorem mapM_error {e : ε} (failed : list.mapM f = .error e) : ∃ a ∈ list, f a = .error e := by
  induction list with
  | nil => cases failed
  | cons a list ih =>
    rw [List.mapM_cons] at failed
    cases here : f a with
    | error => exact ⟨a,List.mem_cons_self,by rw [here] at failed; rw [here,Except.error.inj failed]⟩
    | ok b =>
      rw [here] at failed
      cases later : list.mapM f with
      | error =>
        rw [later] at failed
        obtain ⟨a',member,there⟩ := ih (later.trans (congrArg _ (Except.error.inj failed)))
        exact ⟨a',List.mem_cons_of_mem a member,there⟩
      | ok => rw [later] at failed; cases failed

theorem foldlM_error {f : β → α → Except ε β} {b : β} {e : ε} (failed : list.foldlM f b = .error e) :
    ∃ a ∈ list, ∃ b, f b a = .error e := by
  induction list generalizing b with
  | nil => cases failed
  | cons a list ih =>
    rw [List.foldlM_cons] at failed
    cases here : f b a with
    | error => exact ⟨a,List.mem_cons_self,b,by rw [here] at failed; rw [here,Except.error.inj failed]⟩
    | ok next =>
      rw [here] at failed
      obtain ⟨a',member,there⟩ := ih failed
      exact ⟨a',List.mem_cons_of_mem a member,there⟩

inductive Agree (R : α → β → Prop) : Except ε α → Except ε β → Prop
  | ok {a : α} {b : β} (related : R a b) : Agree R (.ok a) (.ok b)
  | error (e e' : ε) : Agree R (.error e) (.error e')

theorem Agree.refl (x : Except ε α) : Agree (· = ·) x x := by
  cases x with
  | error e => exact .error e e
  | ok a => exact .ok rfl

theorem Agree.ok_iff {y : Except ε α} (agree : Agree (· = ·) x y) {a : α} : x = .ok a ↔ y = .ok a := by
  cases agree with
  | ok related => rw [related]
  | error => exact iff_of_false (fun same => by cases same) fun same => by cases same

variable {R : α → β → Prop}

theorem Agree.bind {y : Except ε β} {S : α' → β' → Prop} {f : α → Except ε α'} {g : β → Except ε β'}
    (first : Agree R x y) (next : ∀ a b, R a b → Agree S (f a) (g b)) : Agree S (x >>= f) (y >>= g) := by
  cases first with
  | ok related => exact next _ _ related
  | error e e' => exact .error e e'

theorem Agree.ite {p : Prop} [Decidable p] {x' : Except ε α} {y y' : Except ε β} (yes : Agree R x y)
    (no : Agree R x' y') : Agree R (if p then x else x') (if p then y else y') := by
  by_cases holds : p
  · rw [if_pos holds,if_pos holds]
    exact yes
  · rw [if_neg holds,if_neg holds]
    exact no

theorem Agree.mapM {f : γ → Except ε α} {g : γ → Except ε β} {list : List γ} (each : ∀ a ∈ list, Agree R (f a) (g a)) :
    Agree (List.Forall₂ R) (list.mapM f) (list.mapM g) := by
  induction list with
  | nil => exact .ok .nil
  | cons a list ih =>
    obtain ⟨here,later⟩ := List.forall_mem_cons.mp each
    rw [List.mapM_cons,List.mapM_cons]
    refine here.bind fun b c first => (ih later).bind fun bs cs rest => ?_
    exact .ok (.cons first rest)

end GoDb.Foundation.Results
