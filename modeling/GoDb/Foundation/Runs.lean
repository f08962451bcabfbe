import GoDb.Foundation.Keeps
import Mathlib.Data.List.Basic

/-! Runs of a machine that answers each request, and what a step rule gives for them. -/
namespace GoDb.Foundation.Runs

variable {ι ρ σ α : Type}

/-- The requests with their answers, and the state after the last of them. -/
def run (step : ι → σ → ρ × σ) : List ι → σ → List (ι × ρ) × σ
  | [],s => ([],s)
  | op::ops,s =>
    let (answer,s) := step op s
    let (answers,last) := run step ops s
    ((op,answer)::answers,last)

theorem run_requests (step : ι → σ → ρ × σ) (ops : List ι) (s : σ) : (run step ops s).1.map Prod.fst = ops := by
  induction ops generalizing s with
  | nil => rfl
  | cons op ops ih => simp [run,ih]

variable {step : ι → σ → ρ × σ}

/-- A simulation that holds for the steps with these answers holds for the runs that have no others. -/
theorem run_simulates {related : σ → α → Prop} {next : α → ι × ρ → α} (allowed : ι × ρ → Prop)
    (simulated : ∀ s a op, related s a → allowed (op,(step op s).1) →
      related (step op s).2 (next a (op,(step op s).1))) (ops : List ι) (s : σ) (a : α) (start : related s a)
    (all : ∀ answer ∈ (run step ops s).1, allowed answer) :
    related (run step ops s).2 ((run step ops s).1.foldl next a) := by
  induction ops generalizing s a with
  | nil => exact start
  | cons op ops ih =>
    exact ih _ _ (simulated s a op start (all _ List.mem_cons_self))
      (fun answer member => all answer (List.mem_cons_of_mem _ member))

theorem run_answers {related : σ → α → Prop} {next : α → ι × ρ → α} (allowed good : ι × ρ → Prop)
    (simulated : ∀ s a op, related s a → allowed (op,(step op s).1) →
      related (step op s).2 (next a (op,(step op s).1))) (answered : ∀ s a op, related s a → good (op,(step op s).1))
    (ops : List ι) (s : σ) (a : α) (start : related s a) (all : ∀ answer ∈ (run step ops s).1, allowed answer) :
    ∀ answer ∈ (run step ops s).1, good answer := by
  induction ops generalizing s a with
  | nil => exact fun _ member => nomatch member
  | cons op ops ih =>
    intro answer member
    rcases List.mem_cons.mp member with rfl | member
    · exact answered s a op start
    · exact ih _ _ (simulated s a op start (all _ List.mem_cons_self))
        (fun answer member => all answer (List.mem_cons_of_mem _ member)) answer member

def after (step : ι → σ → ρ × σ) (ops : List ι) (s : σ) : σ := (run step ops s).2

@[simp] theorem after_nil (step : ι → σ → ρ × σ) (s : σ) : after step [] s = s := rfl

@[simp] theorem after_cons (step : ι → σ → ρ × σ) (op : ι) (ops : List ι) (s : σ) :
    after step (op::ops) s = after step ops (step op s).2 := rfl

theorem after_append (step : ι → σ → ρ × σ) (first second : List ι) (s : σ) :
    after step (first ++ second) s = after step second (after step first s) := by
  induction first generalizing s with
  | nil => rfl
  | cons op first ih => exact ih _

theorem after_invariant (invariant : σ → Prop) (allowed : ι × ρ → Prop)
    (kept : ∀ s op, invariant s → allowed (op,(step op s).1) → invariant (step op s).2) (ops : List ι) (s : σ)
    (start : invariant s) (all : ∀ answer ∈ (run step ops s).1, allowed answer) : invariant (after step ops s) := by
  induction ops generalizing s with
  | nil => exact start
  | cons op ops ih =>
    exact ih _ (kept s op start (all _ List.mem_cons_self))
      (fun answer member => all answer (List.mem_cons_of_mem _ member))

/-- What every step with these answers keeps of the requests so far, the runs that have no others keep. -/
theorem after_history {related : σ → List ι → Prop} (allowed : ι × ρ → Prop)
    (kept : ∀ s before op, related s before → allowed (op,(step op s).1) → related (step op s).2 (before ++ [op]))
    (ops : List ι) (s : σ) (before : List ι) (start : related s before)
    (all : ∀ answer ∈ (run step ops s).1, allowed answer) : related (after step ops s) (before ++ ops) := by
  induction ops generalizing s before with
  | nil => simpa using start
  | cons op ops ih =>
    have rest := ih (step op s).2 (before ++ [op]) (kept s before op start (all _ List.mem_cons_self))
      (fun answer member => all answer (List.mem_cons_of_mem _ member))
    simpa using rest

/-- Each request of a run is one of these in the state where it comes. -/
def Along (step : ι → σ → ρ × σ) (P : σ → ι → Prop) : List ι → σ → Prop
  | [],_ => True
  | op::ops,s => P s op ∧ Along step P ops (step op s).2

theorem after_keeps {R : σ → σ → Prop} (frame : Outcome.Frame R) (keeps : ∀ op s, R s (step op s).2) (ops : List ι)
    (s : σ) : R s (after step ops s) := by
  induction ops generalizing s with
  | nil => exact frame.refl s
  | cons op ops ih => exact frame.trans (keeps op s) (ih _)

end GoDb.Foundation.Runs
