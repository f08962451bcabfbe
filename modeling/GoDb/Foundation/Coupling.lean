import GoDb.Foundation.Outcome

/-! Two procedures side by side. Where the first one succeeds from related states, the
second one succeeds too, and the results and the states are related again. -/
namespace GoDb.Foundation.Outcome

variable {ε ε' σ τ α β α' β' : Type}

def Coupled (before : σ → τ → Prop) (x : Proc ε σ α) (y : Proc ε' τ β) (after : α → β → σ → τ → Prop) : Prop :=
  ∀ s t, before s t → ∀ a s', x.exec s = (.ok a,s') → ∃ b t', y.exec t = (.ok b,t') ∧ after a b s' t'

namespace Coupled

variable {before : σ → τ → Prop} {x : Proc ε σ α} {y : Proc ε' τ β} {after : α → β → σ → τ → Prop}

theorem bind {f : α → Proc ε σ α'} {g : β → Proc ε' τ β'} {last : α' → β' → σ → τ → Prop}
    (first : Coupled before x y after) (next : ∀ a b, Coupled (after a b) (f a) (g b) last) :
    Coupled before (x >>= f) (y >>= g) last := by
  intro s t related a' left done
  obtain ⟨a,mid,ran,rest⟩ := bind_success done
  obtain ⟨b,t',ran',related'⟩ := first s t related a mid ran
  obtain ⟨b',left',rest',related''⟩ := next a b mid t' related' a' left rest
  exact ⟨b',left',(exec_bind_ok ran').trans rest',related''⟩

theorem pure {a : α} {b : β} (holds : ∀ s t, before s t → after a b s t) :
    Coupled before (Pure.pure a : Proc ε σ α) (Pure.pure b : Proc ε' τ β) after := by
  intro s t related a' s' done
  obtain ⟨same,rfl⟩ := Prod.mk.inj done
  obtain rfl := Except.ok.inj same
  exact ⟨b,t,rfl,holds s t related⟩

theorem throw (e : ε) : Coupled before (MonadExcept.throw e : Proc ε σ α) y after := by
  intro s t related a s' done
  cases done

theorem ite {p : Prop} [Decidable p] {x' : Proc ε σ α} {y' : Proc ε' τ β} (yes : Coupled before x y after)
    (no : Coupled before x' y' after) : Coupled before (if p then x else x') (if p then y else y') after := by
  by_cases holds : p
  · rw [if_pos holds,if_pos holds]
    exact yes
  · rw [if_neg holds,if_neg holds]
    exact no

theorem mono {after' : α → β → σ → τ → Prop} (coupled : Coupled before x y after)
    (weaker : ∀ a b s t, after a b s t → after' a b s t) : Coupled before x y after' := by
  intro s t related a s' done
  obtain ⟨b,t',ran,holds⟩ := coupled s t related a s' done
  exact ⟨b,t',ran,weaker a b s' t' holds⟩

end Coupled
end GoDb.Foundation.Outcome
