import GoDb.Executor
import GoDb.Foundation.Keeps
import GoDb.StoreOpen

/-! What statements and requests keep, from what the steps keep that they are made of: the
writes to a table, the writes staged in a transaction, and new tables. -/
namespace GoDb.Executor
open Foundation Outcome

variable {R : Executor → Executor → Prop}

/-- A relation that the steps of INSERT, UPDATE and DELETE keep. They write to a table only outside of transactions,
and a row under the key that the table has for it. -/
structure DataRule (R : Executor → Executor → Prop) : Prop where
  frame : Frame R
  put : ∀ {e : Executor}, e.tx = none → ∀ t row,
    R e ((onTable t (Table.insert ((e.db.table t).schema.keyOf row) row)).exec e).2
  remove : ∀ {e : Executor}, e.tx = none → ∀ t key, R e ((onTable t (Table.delete key)).exec e).2
  stage : ∀ t key ref row, Proc.Keeps R (recordWrite t key ref row)
  stageDelete : ∀ t key, Proc.Keeps R (recordDelete t key)

namespace DataRule

variable (rule : DataRule R)
include rule

theorem outside {e : Executor} {x : ExecutorM Unit} (keeps : e.tx = none → R e (x.exec e).2) :
    R e ((outside e x).exec e).2 := by
  unfold Executor.outside
  split_ifs with closed
  · exact keeps (Option.isNone_iff_eq_none.mp closed)
  · exact rule.frame.refl e

theorem insert (ord : Order) (q : Insert) : Proc.Keeps R (insert ord q) := by
  apply Keeps.get_bind
  intro e
  have here := rule.frame.refl e
  refine Keeps.of_bind_at here fun t _ => Keeps.of_bind_at here fun given _ => Keeps.refuse_bind_at here ?_
  refine Keeps.of_bind_at here fun row _ => Keeps.of_bind_at here fun _ _ => ?_
  refine Keeps.bind_at rule.frame ?_ fun _ => Keeps.pure rule.frame _
  split_ifs with opened
  · exact rule.stage _ _ _ _ e
  · rw [Option.not_isSome_iff_eq_none] at opened
    exact rule.put opened t row

theorem updateEach (t : Nat) (w : Option Condition) (set : Row) (refs : List RowRef) :
    Proc.Keeps R (updateEach t w set refs) := by
  have frame := rule.frame
  induction refs with
  | nil => exact Keeps.pure frame _
  | cons ref refs ih =>
    apply Keeps.get_bind
    intro e
    split_ifs
    · refine Keeps.bind_at frame (rule.outside fun closed => rule.put closed t _) fun _ => ?_
      exact Keeps.bind frame (rule.stage _ _ _ _) fun _ => Keeps.bind frame ih fun _ => Keeps.pure frame _
    · exact ih e

theorem deleteEach (t : Nat) (w : Option Condition) (refs : List RowRef) : Proc.Keeps R (deleteEach t w refs) := by
  have frame := rule.frame
  induction refs with
  | nil => exact Keeps.pure frame _
  | cons ref refs ih =>
    apply Keeps.get_bind
    intro e
    split_ifs
    · refine Keeps.bind_at frame (rule.outside fun closed => rule.remove closed t _) fun _ => ?_
      exact Keeps.bind frame (rule.stageDelete _ _) fun _ => Keeps.bind frame ih fun _ => Keeps.pure frame _
    · exact ih e

theorem executeStatement (ord : Order) {st : Statement} (plain : ¬st.isControl)
    (new : ∀ q, st = .createTable q → Proc.Keeps R (create q)) : Proc.Keeps R (executeStatement ord st) := by
  have frame := rule.frame
  cases st with
  | begin | commit | rollback => exact absurd rfl plain
  | insert q => exact rule.insert ord q
  | select q => exact Keeps.bind frame (Keeps.get frame) fun _ => Keeps.of frame _
  | update q =>
    refine Keeps.bind frame (Keeps.get frame) fun e => Keeps.of_bind frame fun t _ => ?_
    refine Keeps.of_bind frame fun set _ => Keeps.of_bind frame fun refs _ => ?_
    exact Keeps.bind frame (rule.updateEach _ _ _ _) fun _ => Keeps.pure frame _
  | delete q =>
    refine Keeps.bind frame (Keeps.get frame) fun e => Keeps.of_bind frame fun t _ => ?_
    exact Keeps.of_bind frame fun refs _ => Keeps.bind frame (rule.deleteEach _ _ _) fun _ => Keeps.pure frame _
  | createTable q => exact new q rfl

end DataRule

structure UndoRule (R : Executor → Executor → Prop) : Prop where
  frame : Frame R
  put : ∀ e t row, R e ((onTable t (Table.insert ((e.db.table t).schema.keyOf row) row)).exec e).2
  clear : ∀ t, Proc.Keeps R (onTable t (Table.deleteWhere fun _ => true))

theorem attempt_exec {α : Type} (x : ExecutorM α) (e : Executor) : (attempt x).exec e = (.ok (),(x.exec e).2) := by
  unfold attempt
  rw [exec_tryCatch,exec_bind]
  rcases x.exec e with ⟨err | a,e'⟩ <;> rfl

theorem executeEach_frame (frame : Frame R) {P : Statement → Prop}
    (each : ∀ ord st, P st → Proc.Keeps R (executeStatement ord st)) (ord : Order) {statements : List (Statement × Nat)}
    (all : ∀ st ∈ statements, P st.1) (out : Result) : Proc.Keeps R (executeEach ord statements out) := by
  induction statements generalizing out with
  | nil => exact Keeps.pure frame _
  | cons st statements ih =>
    obtain ⟨first,rest⟩ := List.forall_mem_cons.mp all
    exact Keeps.bind frame (each _ _ first) fun out => ih rest out

namespace UndoRule

variable (rule : UndoRule R)
include rule

theorem insertEach (t : Nat) (rows : List Row) : Proc.Keeps R (insertEach t rows) := by
  induction rows with
  | nil => exact Keeps.pure rule.frame _
  | cons row rows ih => exact Keeps.get_bind fun e => Keeps.bind_at rule.frame (rule.put e t row) fun _ => ih

theorem rollbackTables (states : List TransactionTableState) : Proc.Keeps R (rollbackTables states) := by
  have frame := rule.frame
  induction states with
  | nil => exact Keeps.pure frame _
  | cons state states ih =>
    exact Keeps.bind frame (rule.clear _) fun _ => Keeps.bind frame (rule.insertEach _ _) fun _ => ih

theorem restore (snaps : List (Nat × List Row)) : Proc.Keeps R (restore snaps) := by
  have frame := rule.frame
  have tried {α : Type} {x : ExecutorM α} {e : Executor} (keeps : R e (x.exec e).2) : R e ((attempt x).exec e).2 := by
    rwa [attempt_exec]
  have reinserted (t : Nat) (rows : List Row) : Proc.Keeps R (reinsert t rows) := by
    induction rows with
    | nil => exact Keeps.pure frame _
    | cons row rows ih => exact Keeps.get_bind fun e => Keeps.bind_at frame (tried (rule.put e t row)) fun _ => ih
  induction snaps with
  | nil => exact Keeps.pure frame _
  | cons snap snaps ih =>
    refine Keeps.bind frame (fun e => tried (rule.clear snap.1 e)) fun _ => ?_
    exact Keeps.bind frame (reinserted _ _) fun _ => ih

theorem execute {P : Statement → Prop} (each : ∀ ord st, P st → Proc.Keeps R (executeStatement ord st)) (ord : Order)
    {statements : List Statement} (all : ∀ st ∈ statements, P st) : Proc.Keeps R (execute ord statements) := by
  have frame := rule.frame
  rcases statements with _ | ⟨first,_ | ⟨second,rest⟩⟩
  · exact Keeps.throw frame _
  · exact each ord first (all first List.mem_cons_self)
  · have ran := executeEach_frame frame each ord (forall_zipIdx.mpr all) .empty
    refine Keeps.bind frame (Keeps.get frame) fun e => Keeps.ite (fun _ => ran) fun _ => ?_
    refine Keeps.of_bind frame fun snaps _ => Keeps.tryCatch frame ran fun err => ?_
    exact Keeps.bind frame (rule.restore snaps) fun _ => Keeps.throw frame _

end UndoRule

section control

variable (frame : Frame R)
include frame

theorem commitTables_frame (each : ∀ t ord id writes, Proc.Keeps R (onTable t (Table.applyRowsBatch ord id writes)))
    (ord : Order) (id : Nat) (states : List (TransactionTableState × Nat)) : Proc.Keeps R (commitTables ord id states) := by
  induction states with
  | nil => exact Keeps.pure frame _
  | cons state states ih => exact Keeps.bind frame (each _ _ _ _) fun _ => ih

theorem releaseSnapshots_frame (each : ∀ t, Proc.Keeps R (onTable t (modify Table.releaseSnapshot)))
    (states : List TransactionTableState) : Proc.Keeps R (releaseSnapshots states) := by
  induction states with
  | nil => exact Keeps.pure frame _
  | cons state states ih => exact Keeps.bind frame (each _) fun _ => ih

section endings

variable (released : ∀ states, Proc.Keeps R (releaseSnapshots states)) (closed : ∀ e : Executor, R e {e with tx := none})
include released closed

theorem commit_frame (begun : ∀ {e : Executor} {tx : Transaction}, e.tx = some tx →
      R e ⟨{e.db with nextCommitSequence := e.db.nextCommitSequence + 1},
        some {tx with commit := e.db.nextCommitSequence + 1}⟩)
    (tables : ∀ ord id states, Proc.Keeps R (commitTables ord id states)) (ord : Order) : Proc.Keeps R (commit ord) := by
  apply Keeps.get_bind
  intro e
  rcases opened : e.tx with _ | tx
  · exact frame.refl e
  · dsimp only
    cases conflict e.db (ord.at 0) tx.tables with
    | some key => exact frame.refl e
    | none =>
      refine frame.trans (begun opened) (Keeps.bind frame (tables _ _ _) (fun _ => ?_) _)
      refine Keeps.bind frame (released tx.tables) fun _ => ?_
      exact Keeps.bind frame (Keeps.modify closed) fun _ => Keeps.pure frame _

theorem rollback_frame (tables : ∀ states, Proc.Keeps R (rollbackTables states)) : Proc.Keeps R rollback := by
  refine Keeps.bind frame (Keeps.get frame) fun e => ?_
  cases e.tx with
  | none => exact Keeps.throw frame _
  | some tx =>
    refine Keeps.bind frame (tables tx.tables) fun _ => Keeps.bind frame (released tx.tables) fun _ => ?_
    exact Keeps.bind frame (Keeps.modify closed) fun _ => Keeps.pure frame _

end endings

theorem create_frame (new : ∀ (e : Executor) (name : Bytes) {schema : Schema} {table : Table},
      Table.new Store.created schema = .ok table → R e {e with db := {e.db with
        tables := e.db.tables ++ [table]
        registry := e.db.registry.insert name e.db.tables.length}}) (q : CreateTable) : Proc.Keeps R (create q) := by
  refine Keeps.bind frame (Keeps.get frame) fun e => Keeps.bind frame (Keeps.refuse frame _ _) fun _ => ?_
  refine Keeps.of_bind frame fun store opened => Keeps.of_bind frame fun table made => ?_
  obtain rfl : Store.created = store := Except.ok.inj (Store.open_empty ▸ opened)
  exact Keeps.bind frame (Keeps.modify fun e => new e _ made) fun _ => Keeps.pure frame _

end control

end GoDb.Executor
