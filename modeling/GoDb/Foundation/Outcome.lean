import Mathlib.Control.Basic

/-! Procedures that change a state and may fail. A failed procedure keeps the
changes it made before it failed, as an imperative method that returns an error does. -/
namespace GoDb.Foundation.Outcome

abbrev Proc (ε σ : Type) := ExceptT ε (StateM σ)

variable {ε σ τ α β : Type}

def Proc.exec (x : Proc ε σ α) (s : σ) : Except ε α × σ := (ExceptT.run x).run s

def Proc.within (read : σ → τ) (write : σ → τ → σ) (x : τ → Except ε α × τ) : Proc ε σ α :=
  fun s => ((x (read s)).1,write s (x (read s)).2)

def Proc.of (r : Except ε α) : Proc ε σ α := fun s => (r,s)

def Proc.refuse (p : Prop) [Decidable p] (e : ε) : Proc ε σ Unit := if p then throw e else pure ()

variable {r : Except ε α} {s : σ}

theorem eq_ok_of_toOption {a : α} (found : r.toOption = some a) : r = .ok a := by
  cases r with
  | error => cases found
  | ok b => rw [Option.some.inj found]

variable {x : Proc ε σ α}

theorem exec_of_toOption {a : α} (found : (x.exec s).1.toOption = some a) :
    x.exec s = (.ok a,(x.exec s).2) := Prod.ext (eq_ok_of_toOption found) rfl

theorem exec_of_error {e : ε} (failed : (x.exec s).1 = .error e) :
    x.exec s = (.error e,(x.exec s).2) := Prod.ext failed rfl

@[simp] theorem exec_of (r : Except ε α) (s : σ) : Proc.exec (Proc.of r : Proc ε σ α) s = (r,s) := rfl

@[simp] theorem exec_pure (a : α) (s : σ) : Proc.exec (pure a : Proc ε σ α) s = (.ok a,s) := rfl

@[simp] theorem exec_throw (e : ε) (s : σ) : Proc.exec (throw e : Proc ε σ α) s = (.error e,s) := rfl

@[simp] theorem exec_get (s : σ) : Proc.exec (get : Proc ε σ σ) s = (.ok s,s) := rfl

theorem exec_refuse (p : Prop) [Decidable p] (e : ε) (s : σ) :
    Proc.exec (Proc.refuse p e) s = (if p then .error e else .ok (),s) := by
  unfold Proc.refuse
  by_cases holds : p
  · rw [if_pos holds,if_pos holds,exec_throw]
  · rw [if_neg holds,if_neg holds,exec_pure]

@[simp] theorem exec_modify (f : σ → σ) (s : σ) :
    Proc.exec (modify f : Proc ε σ PUnit) s = (.ok ⟨⟩,f s) := rfl

@[simp] theorem exec_within (read : σ → τ) (write : σ → τ → σ) (x : τ → Except ε α × τ) (s : σ) :
    Proc.exec (Proc.within read write x) s = ((x (read s)).1,write s (x (read s)).2) := rfl

theorem exec_bind (x : Proc ε σ α) (f : α → Proc ε σ β) (s : σ) :
    Proc.exec (x >>= f) s =
      match Proc.exec x s with
      | (.ok a,s') => Proc.exec (f a) s'
      | (.error e,s') => (.error e,s') := by
  change (match (Proc.exec x s).1 with | .ok a => _ | .error e => _ : StateM σ (Except ε β)) (Proc.exec x s).2 = _
  rcases Proc.exec x s with ⟨e | a,s'⟩ <;> rfl

theorem exec_tryCatch (x : Proc ε σ α) (handle : ε → Proc ε σ α) (s : σ) :
    Proc.exec (tryCatch x handle) s =
      match Proc.exec x s with
      | (.ok a,s') => (.ok a,s')
      | (.error e,s') => Proc.exec (handle e) s' := by
  change (match (Proc.exec x s).1 with | .ok a => _ | .error e => _ : StateM σ (Except ε α)) (Proc.exec x s).2 = _
  rcases Proc.exec x s with ⟨e | a,s'⟩ <;> rfl

variable {f : α → Proc ε σ β}

theorem exec_bind_ok {s' : σ} {a : α} (ok : Proc.exec x s = (.ok a,s')) :
    Proc.exec (x >>= f) s = Proc.exec (f a) s' := by
  rw [exec_bind,ok]

theorem exec_bind_error {s' : σ} {e : ε} (failed : Proc.exec x s = (.error e,s')) :
    Proc.exec (x >>= f) s = (.error e,s') := by
  rw [exec_bind,failed]

theorem exec_of_bind {a : α} (ok : r = .ok a) (f : α → Proc ε σ β) (s : σ) :
    Proc.exec (Proc.of r >>= f) s = Proc.exec (f a) s := by
  rw [exec_bind,exec_of,ok]

theorem bind_success {left : σ} {b : β} (ok : Proc.exec (x >>= f) s = (.ok b,left)) :
    ∃ a mid, Proc.exec x s = (.ok a,mid) ∧ Proc.exec (f a) mid = (.ok b,left) := by
  rw [exec_bind] at ok
  rcases found : Proc.exec x s with ⟨e | a,mid⟩
  · rw [found] at ok
    cases ok
  · rw [found] at ok
    exact ⟨a,mid,rfl,ok⟩

theorem exec_bind_pure (x : Proc ε σ α) (f : α → β) (s : σ) :
    (Proc.exec (x >>= fun a => pure (f a)) s).2 = (Proc.exec x s).2 := by
  rw [exec_bind]
  rcases Proc.exec x s with ⟨_ | a,s'⟩ <;> rfl

theorem answer_bind_pure (x : Proc ε σ α) (f : α → β) (s : σ) :
    (Proc.exec (x >>= fun a => pure (f a)) s).1 = (Proc.exec x s).1.map f := by
  rw [exec_bind]
  rcases Proc.exec x s with ⟨_ | a,s'⟩ <;> rfl

theorem of_bind_success {left : σ} {b : β} (ok : Proc.exec (Proc.of r >>= f) s = (.ok b,left)) :
    ∃ a, r = .ok a ∧ Proc.exec (f a) s = (.ok b,left) := by
  obtain ⟨a,mid,first,rest⟩ := bind_success ok
  obtain ⟨made,rfl⟩ := Prod.mk.inj first
  exact ⟨a,made,rest⟩

end GoDb.Foundation.Outcome
