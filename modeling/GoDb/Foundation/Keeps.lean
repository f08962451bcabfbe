import GoDb.Foundation.Outcome

/-! What a procedure does to its state whatever it returns: a relation that is reflexive
and transitive holds from the state before it to the state after it, when it does so for
each of its steps. -/
namespace GoDb.Foundation.Outcome

variable {ε σ τ α β : Type}

structure Frame (R : σ → σ → Prop) : Prop where
  refl : ∀ s, R s s
  trans : ∀ {a b c}, R a b → R b c → R a c

def Proc.Keeps (R : σ → σ → Prop) (x : Proc ε σ α) : Prop := ∀ s, R s (x.exec s).2

namespace Keeps

variable {R : σ → σ → Prop} {x : Proc ε σ α} {f : α → Proc ε σ β}

theorem pure (frame : Frame R) (a : α) : Proc.Keeps R (Pure.pure a : Proc ε σ α) := frame.refl

theorem throw (frame : Frame R) (e : ε) : Proc.Keeps R (MonadExcept.throw e : Proc ε σ α) := frame.refl

theorem get (frame : Frame R) : Proc.Keeps R (MonadState.get : Proc ε σ σ) := frame.refl

theorem of (frame : Frame R) (r : Except ε α) : Proc.Keeps R (Proc.of r : Proc ε σ α) := frame.refl

theorem modify {f : σ → σ} (step : ∀ s, R s (f s)) : Proc.Keeps R (modify f : Proc ε σ PUnit) := step

theorem bind_at (frame : Frame R) {s : σ} (first : R s (x.exec s).2) (next : ∀ a, Proc.Keeps R (f a)) :
    R s ((x >>= f).exec s).2 := by
  rw [exec_bind]
  generalize x.exec s = result at first ⊢
  rcases result with ⟨_ | a,s'⟩
  · exact first
  · exact frame.trans first (next a s')

theorem bind (frame : Frame R) (first : Proc.Keeps R x) (next : ∀ a, Proc.Keeps R (f a)) :
    Proc.Keeps R (x >>= f) := fun s => bind_at frame (first s) next

theorem refuse (frame : Frame R) (p : Prop) [Decidable p] (e : ε) :
    Proc.Keeps R (Proc.refuse p e : Proc ε σ Unit) := by
  intro s
  rw [exec_refuse]
  exact frame.refl s

theorem of_bind_at {r : Except ε α} {s : σ} (here : R s s) (next : ∀ a, r = .ok a → R s ((f a).exec s).2) :
    R s ((Proc.of r >>= f).exec s).2 := by
  rw [exec_bind,exec_of]
  cases r with
  | error e => exact here
  | ok a => exact next a rfl

theorem of_bind {r : Except ε α} (frame : Frame R) (next : ∀ a, r = .ok a → Proc.Keeps R (f a)) :
    Proc.Keeps R (Proc.of r >>= f) := fun s => of_bind_at (frame.refl s) fun a made => next a made s

theorem refuse_bind_at {p : Prop} [Decidable p] {e : ε} {f : Unit → Proc ε σ β} {s : σ} (here : R s s)
    (next : R s ((f ()).exec s).2) : R s ((Proc.refuse p e >>= f).exec s).2 := by
  rw [exec_bind,exec_refuse]
  by_cases holds : p
  · rw [if_pos holds]
    exact here
  · rw [if_neg holds]
    exact next

theorem get_bind {f : σ → Proc ε σ β} (next : ∀ s, R s ((f s).exec s).2) :
    Proc.Keeps R (MonadState.get >>= f) := by
  intro s
  rw [exec_bind,exec_get]
  exact next s

theorem tryCatch (frame : Frame R) (first : Proc.Keeps R x) {handle : ε → Proc ε σ α}
    (next : ∀ e, Proc.Keeps R (handle e)) : Proc.Keeps R (MonadExcept.tryCatch x handle) := by
  intro s
  rw [exec_tryCatch]
  have before := first s
  generalize x.exec s = result at before ⊢
  rcases result with ⟨e | a,s'⟩
  · exact frame.trans before (next e s')
  · exact before

theorem ite {p : Prop} [Decidable p] {y : Proc ε σ α} (yes : p → Proc.Keeps R x) (no : ¬p → Proc.Keeps R y) :
    Proc.Keeps R (if p then x else y) := by
  by_cases holds : p
  · rw [if_pos holds]
    exact yes holds
  · rw [if_neg holds]
    exact no holds

end Keeps

/-- Where the procedure fails, it has not yet left the relation. -/
def Proc.Refuses (R : σ → σ → Prop) (x : Proc ε σ α) : Prop := ∀ {s e s'}, x.exec s = (.error e,s') → R s s'

namespace Refuses

variable {R : σ → σ → Prop} {x : Proc ε σ α} {f : α → Proc ε σ β}

theorem throw (frame : Frame R) (e : ε) : Proc.Refuses R (MonadExcept.throw e : Proc ε σ α) := by
  rintro s e' s' failed
  obtain ⟨-,rfl⟩ := Prod.mk.inj failed
  exact frame.refl s

theorem bind (frame : Frame R) (first : Proc.Keeps R x) (next : ∀ a, Proc.Refuses R (f a)) :
    Proc.Refuses R (x >>= f) := by
  intro s e s' failed
  have before := first s
  rw [exec_bind] at failed
  generalize x.exec s = result at before failed
  rcases result with ⟨_ | a,s₁⟩
  · obtain ⟨-,rfl⟩ := Prod.mk.inj failed
    exact before
  · exact frame.trans before (next a failed)

end Refuses
end GoDb.Foundation.Outcome
