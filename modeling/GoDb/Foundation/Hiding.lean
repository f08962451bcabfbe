import GoDb.Foundation.Runs

/-! Requests that are hidden from an observer. What the observer sees of a run is what there is to see of the run without
them, if they leave alone what is seen, and the other requests go by nothing else. -/
namespace GoDb.Foundation.Runs

variable {ι ρ σ : Type} {step : ι → σ → ρ × σ} {hidden : ι → Bool} {alike : σ → σ → Prop}

def seen (hidden : ι → Bool) (answers : List (ι × ρ)) : List (ι × ρ) := answers.filter fun answer => !hidden answer.1

/-- One state may be in the place of the other where a request is seen, and stays so where one is hidden. -/
structure Hides (step : ι → σ → ρ × σ) (hidden : ι → Bool) (alike : σ → σ → Prop) (op : ι) : Prop where
  hides : hidden op = true → ∀ s s', alike s s' → alike (step op s).2 s'
  shows : hidden op = false → ∀ s s', alike s s' → (step op s).1 = (step op s').1 ∧ alike (step op s).2 (step op s').2

theorem run_hides {ops : List ι} (each : ∀ op ∈ ops, Hides step hidden alike op) {s s' : σ} (start : alike s s') :
    seen hidden (run step ops s).1 = (run step (ops.filter fun op => !hidden op) s').1 ∧
      alike (after step ops s) (after step (ops.filter fun op => !hidden op) s') := by
  induction ops generalizing s s' with
  | nil => exact ⟨rfl,start⟩
  | cons op ops ih =>
    obtain ⟨here,later⟩ := List.forall_mem_cons.mp each
    cases secret : hidden op with
    | true =>
      obtain ⟨answers,final⟩ := ih later (here.hides secret s s' start)
      rw [List.filter_cons_of_neg (by simp [secret])]
      refine ⟨?_,final⟩
      rw [← answers,seen,seen]
      exact List.filter_cons_of_neg (by simp [secret])
    | false =>
      obtain ⟨answer,next⟩ := here.shows secret s s' start
      obtain ⟨answers,final⟩ := ih later next
      rw [List.filter_cons_of_pos (by simp [secret])]
      refine ⟨?_,final⟩
      change seen hidden ((op,(step op s).1)::(run step ops (step op s).2).1) = (op,(step op s').1)::_
      rw [← answers,← answer,seen,seen]
      exact List.filter_cons_of_pos (by simp [secret])

end GoDb.Foundation.Runs
