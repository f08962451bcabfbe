import GoDb.StoreOpen
import GoDb.StoreCompact
import GoDb.Foundation.Runs

/-! A store that is always closed before it is opened again behaves as a finite map. -/
namespace GoDb.Store
open Foundation Outcome SortedEntries Runs

inductive Op
  | put (key value : Bytes)
  | delete (key : Bytes)
  | applyBatch (id : Nat) (ops : List BatchOp)
  | flush
  | compact
  | reopen
  deriving DecidableEq

def reopen (s : Store) : Except Error Unit × Store :=
  match close.exec s with
  | (.error e,s) => (.error e,s)
  | (.ok (),s) =>
    match Store.open s.image with
    | (.error e,_) => (.error e,s)
    | (.ok s,_) => (.ok (),s)

def Op.run : Op → Store → Except Error Unit × Store
  | .put key value => (Store.put key value).exec
  | .delete key => (Store.delete key).exec
  | .applyBatch id ops => (Store.applyBatch id ops).exec
  | .flush => Store.flush.exec
  | .compact => Store.compact.exec
  | .reopen => Store.reopen

def Op.effect (m : Bytes → Option Bytes) : Op → Bytes → Option Bytes
  | .put key value => Function.update m key (some value)
  | .delete key => Function.update m key none
  | .applyBatch _ ops => effects m ops
  | .flush => m
  | .compact => m
  | .reopen => m

def effectOf (m : Bytes → Option Bytes) : Op × Except Error Unit → Bytes → Option Bytes
  | (op,.ok ()) => op.effect m
  | (_,.error _) => m

def folded (outcomes : List (Op × Except Error Unit)) : Bytes → Option Bytes :=
  outcomes.foldl effectOf fun _ => none

structure Means (s : Store) (m : Bytes → Option Bytes) : Prop where
  holds : ∃ c, s.Holds c ∧ c.activeSnapshots = 0 ∧ ∀ key, c.entries.lookup key = m key

variable {s : Store} {m : Bytes → Option Bytes}

theorem Means.get (means : s.Means m) (key : Bytes) : s.get key = m key := by
  obtain ⟨c,holds,-,same⟩ := means.holds
  rw [holds.get,same]

private theorem WriteOutcome.means {c after : Contents} {key value : Bytes} {live : Bool}
    {result : Except Error Unit × Store} {op : Op} (outcome : WriteOutcome s c after key value live result)
    (means : s.Means m) (idle : c.activeSnapshots = 0) (same : ∀ key, c.entries.lookup key = m key)
    (leases : after.activeSnapshots = c.activeSnapshots)
    (entries : ∀ key, after.entries.lookup key = op.effect m key) : result.2.Means (effectOf m (op,result.1)) := by
  cases outcome with
  | done _ holds => exact ⟨_,holds,leases.trans idle,entries⟩
  | tooLarge _ holds => exact ⟨_,holds,idle,same⟩
  | walTooLarge => exact means

theorem reopen_means (means : s.Means m) : (reopen s).1 = .ok () ∧ (reopen s).2.Means m := by
  obtain ⟨c,holds,-,same⟩ := means.holds
  obtain ⟨content,ok⟩ := holds.ok
  obtain ⟨s₁,closed,-,-,files⟩ := flush_exec ok
  obtain ⟨s₂,opened,ok₂,entries,idle⟩ := open_clean ok.pages ok.valid.increasing ok.fits
  have result : reopen s = (.ok (),s₂) := by
    have done : close.exec s = (.ok (),s₁) := closed
    simp only [reopen,done,files,opened]
  rw [result]
  refine ⟨rfl,⟨_,ok₂.holds,idle,fun key => ?_⟩⟩
  change s₂.index.entries.lookup key = _
  rw [entries,holds.entries,same]

theorem run_means (op : Op) (means : s.Means m)
    (batch : ∀ id ops, op = .applyBatch id ops → (op.run s).1 = .ok ()) :
    (op.run s).2.Means (effectOf m (op,(op.run s).1)) := by
  obtain ⟨c,holds,idle,same⟩ := means.holds
  obtain ⟨content,ok⟩ := holds.ok
  cases op with
  | put key value =>
    refine (put_outcome holds key value).means means idle same rfl fun k => ?_
    simp [Op.effect,Function.update_apply,same]
  | delete key =>
    refine (delete_outcome holds key).means means idle same rfl fun k => ?_
    simp [Op.effect,Function.update_apply,same]
  | applyBatch id ops =>
    have succeeded := batch id ops rfl
    obtain ⟨-,final⟩ := applyBatch_of_ok holds succeeded
    rw [succeeded]
    refine ⟨_,final,(Contents.activeSnapshots_foldl_apply c ops).trans idle,fun key => ?_⟩
    rw [Contents.lookup_foldl_apply,funext same]
    rfl
  | flush =>
    obtain ⟨s',done,ok',contents,-⟩ := flush_exec ok
    change (Store.flush.exec s).2.Means (effectOf m (.flush,(Store.flush.exec s).1))
    rw [done]
    exact ⟨c,⟨⟨_,ok'⟩,contents.trans holds.contents⟩,idle,same⟩
  | compact =>
    -- No lease is held between the requests, so `Compact` is never refused.
    have leases : s.activeSnapshots = 0 := (congrArg Contents.activeSnapshots holds.contents).trans idle
    obtain ⟨s',content',done,ok',contents⟩ := compact_exec ok leases
    change (Store.compact.exec s).2.Means (effectOf m (.compact,(Store.compact.exec s).1))
    rw [done]
    exact ⟨c,⟨⟨_,ok'⟩,contents.trans holds.contents⟩,idle,same⟩
  | reopen =>
    obtain ⟨done,meant⟩ := reopen_means means
    change (Store.reopen s).2.Means (effectOf m (.reopen,(Store.reopen s).1))
    rw [done]
    exact meant

theorem tooLarge_get {op : Op} {s' : Store} {e : Error} (means : s.Means m)
    (failed : op.run s = (.error (.recordTooLarge e),s'))
    (single : ∀ id ops, op ≠ .applyBatch id ops) (key : Bytes) : s'.get key = s.get key := by
  have after := run_means op means (fun id ops same => absurd same (single id ops))
  rw [failed] at after
  rw [after.get,means.get]
  rfl

private def BatchDone (answer : Op × Except Error Unit) : Prop :=
  ∀ id batch, answer.1 = .applyBatch id batch → answer.2 = .ok ()

private theorem step_means (s : Store) (m : Bytes → Option Bytes) (op : Op) (means : s.Means m)
    (batch : BatchDone (op,(op.run s).1)) : (op.run s).2.Means (effectOf m (op,(op.run s).1)) :=
  run_means op means batch

theorem created_means : created.Means fun _ => none := ⟨_,created_ok.holds,rfl,fun _ => rfl⟩

theorem run_folded (ops : List Op)
    (batches : ∀ id batch r, (.applyBatch id batch,r) ∈ (Runs.run Op.run ops created).1 → r = .ok ()) :
    (Runs.run Op.run ops created).2.Means (folded (Runs.run Op.run ops created).1) := by
  refine run_simulates BatchDone step_means ops created _ created_means ?_
  rintro ⟨op,r⟩ member id batch rfl
  exact batches id batch r member

/-- The store, closed and opened again any number of times, answers as the fold of the
operations that succeeded; it can always be opened again. -/
theorem clean_shutdown (ops : List Op)
    (batches : ∀ id batch r, (.applyBatch id batch,r) ∈ (Runs.run Op.run ops created).1 → r = .ok ()) :
    Store.open ⟨[],[],none⟩ = (.ok created,created.image) ∧
      (∀ key, (Runs.run Op.run ops created).2.get key = folded (Runs.run Op.run ops created).1 key) ∧
      (∀ r, (.reopen,r) ∈ (Runs.run Op.run ops created).1 → r = .ok ()) ∧
      ∀ (op : Op) (e : Error) (s' : Store), (∃ key value, op = .put key value) ∨ (∃ key, op = .delete key) →
        op.run (Runs.run Op.run ops created).2 = (.error (.recordTooLarge e),s') →
        ∀ key, s'.get key = (Runs.run Op.run ops created).2.get key := by
  have final := run_folded ops batches
  refine ⟨open_empty,final.get,?_,?_⟩
  · intro r member
    have reopened : ∀ (s : Store) m op, s.Means m → op = Op.reopen → (op.run s).1 = .ok () := by
      rintro s m op means rfl
      exact (reopen_means means).1
    refine run_answers BatchDone (fun answer => answer.1 = .reopen → answer.2 = .ok ()) step_means reopened ops
      created _ created_means ?_ _ member rfl
    rintro ⟨op,r⟩ member id batch rfl
    exact batches id batch r member
  · intro op e s' single failed key
    refine tooLarge_get final failed (fun id batch same => ?_) key
    subst same
    rcases single with ⟨_,_,absurd⟩ | ⟨_,absurd⟩ <;> cases absurd

theorem clean_shutdown_batch :
    let ops : List Op := [.put [1] [2],.applyBatch 7 [⟨[3],[4],false⟩,⟨[1],[],true⟩],.compact,.reopen]
    ∀ key, (Runs.run Op.run ops created).2.get key = folded (Runs.run Op.run ops created).1 key := by
  refine (clean_shutdown _ fun id batch r member => ?_).2.1
  have answers : ((Runs.run Op.run [.put [1] [2],.applyBatch 7 [⟨[3],[4],false⟩,⟨[1],[],true⟩],.compact,.reopen]
      created).1.all fun answer => answer.2.isOk) = true := by decide +kernel
  have done := List.all_eq_true.mp answers _ member
  cases r with
  | ok => rfl
  | error => cases done

end GoDb.Store
