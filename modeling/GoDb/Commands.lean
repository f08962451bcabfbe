import GoDb.DataDefinition
import GoDb.ServerInvariant

/-! Requests of an executor without a catalog that may alter tables as well. What they do
without ALTER TABLE is what `Executor.execute` does. -/
namespace GoDb
open Foundation Outcome

inductive Command
  | plain (st : Statement)
  | alter (q : AlterTable)

def Command.isControl : Command → Bool
  | .plain st => st.isControl
  | .alter _ => false

/-- A relation that the operations keep which write the rows of a table. -/
structure Table.Rule (R : Table → Table → Prop) : Prop where
  frame : Frame R
  insert : ∀ key row, Proc.Keeps R (Table.insert key row)
  delete : ∀ key, Proc.Keeps R (Table.delete key)
  batch : ∀ ord id writes, Proc.Keeps R (Table.applyRowsBatch ord id writes)
  alter : ∀ schema, Proc.Keeps R (Table.alter schema)

namespace Table

theorem Rule.of_store {S : Store → Store → Prop} (kept : Frame S) (put : ∀ key value, Proc.Keeps S (Store.put key value))
    (delete : ∀ key, Proc.Keeps S (Store.delete key)) (batch : ∀ id ops, Proc.Keeps S (Store.applyBatch id ops)) :
    Rule fun t t' => S t.store t'.store := by
  have frame : Frame fun t t' : Table => S t.store t'.store := ⟨fun t => kept.refl t.store,fun first => kept.trans first⟩
  have memory {f : Table → Table} (same : ∀ t, (f t).store = t.store) :
      Proc.Keeps (fun t t' => S t.store t'.store) (modify f : TableM PUnit) := by
    apply Keeps.modify
    intro t
    rw [same]
    exact kept.refl t.store
  have rewritten (rows : List Row) : Proc.Keeps (fun t t' => S t.store t'.store) (rewrite rows) := by
    induction rows with
    | nil => exact Keeps.pure frame _
    | cons row rows ih =>
      refine Keeps.bind frame (Keeps.get frame) fun t => Keeps.of_bind frame fun b _ => ?_
      refine Keeps.bind frame (fun t => put _ _ t.store) fun _ => ?_
      exact Keeps.bind frame (memory (indexRow_store _ _)) fun _ => ih
  refine ⟨frame,fun key row => ?_,fun key => ?_,fun ord id writes => ?_,fun schema => ?_⟩
  · refine Keeps.bind frame (Keeps.get frame) fun t => Keeps.of_bind frame fun b _ => ?_
    refine Keeps.of_bind frame fun _ _ => Keeps.of_bind frame fun old _ => ?_
    refine Keeps.bind frame (fun t => put _ _ t.store) fun _ => ?_
    cases old with
    | none => exact memory (indexRow_store key row)
    | some old => exact Keeps.bind frame (memory (unindexRow_store key old)) fun _ => memory (indexRow_store key row)
  · refine Keeps.bind frame (Keeps.get frame) fun t => Keeps.of_bind frame fun old _ => ?_
    cases old with
    | none => exact Keeps.pure frame _
    | some old => exact Keeps.bind frame (fun t => delete _ t.store) fun _ => memory (unindexRow_store key old)
  · refine Keeps.bind frame (Keeps.get frame) fun t => Keeps.of_bind frame fun ops _ t => ?_
    exact batch _ _ t.store
  · refine Keeps.bind frame (Keeps.get frame) fun t => Keeps.of_bind frame fun _ _ => ?_
    refine Keeps.of_bind frame fun rows _ => Keeps.bind frame (memory fun _ => rfl) fun _ => ?_
    exact Keeps.bind frame (Keeps.refuse frame _ _) fun _ => rewritten _

def StoreSteps (t t' : Table) : Prop := t.store.Steps (fun _ => True) t'.store

theorem storeRule : Rule StoreSteps :=
  .of_store Store.steps (fun key _ => Store.put_keeps key trivial) Store.delete_keeps fun id _ =>
    Store.applyBatch_keeps id fun _ _ _ => trivial

end Table

namespace Executor

def alter (q : AlterTable) : ExecutorM Result := do
  let e ← get
  let t ← Proc.of (e.table q.table)
  onTable t (Table.alter ((e.db.table t).schema.altered q.action))
  pure {Result.empty with affected := 1}

theorem alter_uncataloged (e : Executor) (q : AlterTable) :
    (CatalogExecutor.alter q).exec ⟨e,none⟩ = (((alter q).exec e).1,⟨((alter q).exec e).2,none⟩) := by
  rw [CatalogExecutor.alter,alter,exec_bind_ok (exec_get _),exec_bind_ok (exec_get e),exec_bind,exec_bind,exec_of,exec_of]
  rcases e.table q.table with err | t
  · rfl
  · dsimp only
    rw [exec_bind,exec_bind,CatalogExecutor.onExecutor_exec]
    rcases (onTable t (Table.alter ((e.db.table t).schema.altered q.action))).exec e with ⟨err | _,e'⟩ <;> rfl

def executeCommand (ord : Order) : Command → ExecutorM Result
  | .plain st => executeStatement ord st
  | .alter q => alter q

def executeCommands (ord : Order) : List (Command × Nat) → Result → ExecutorM Result
  | [],out => pure out
  | (c,k)::commands,_ => do
    let out ← executeCommand (ord.at k) c
    executeCommands ord commands out

/-- `Execute`. -/
def executeRequest (ord : Order) : List Command → ExecutorM Result
  | [] => throw .emptyRequest
  | [c] => executeCommand ord c
  | commands => do
    let e ← get
    if e.tx.isSome || commands.any Command.isControl then executeCommands ord commands.zipIdx .empty
    else
      let snaps ← Proc.of (e.scanAll ((ord.at commands.length).arrange e.db.registry.entries))
      tryCatch (executeCommands ord commands.zipIdx .empty) fun err => do
        restore snaps
        throw (.rolledBack err)

theorem executeCommands_plain (ord : Order) (statements : List (Statement × Nat)) (out : Result) :
    executeCommands ord (statements.map fun st => (.plain st.1,st.2)) out = executeEach ord statements out := by
  induction statements generalizing out with
  | nil => rfl
  | cons st statements ih =>
    rw [List.map_cons,executeCommands,executeEach]
    exact congrArg _ (funext ih)

theorem executeRequest_plain (ord : Order) (statements : List Statement) :
    executeRequest ord (statements.map .plain) = execute ord statements := by
  rcases statements with _ | ⟨first,_ | ⟨second,rest⟩⟩
  · rfl
  · rfl
  · have numbered : ((first::second::rest).map Command.plain).zipIdx =
        (first::second::rest).zipIdx.map fun st => (.plain st.1,st.2) := List.zipIdx_map ..
    have control : ((first::second::rest).map Command.plain).any Command.isControl =
        (first::second::rest).any Statement.isControl := List.any_map
    have length : ((first::second::rest).map Command.plain).length = (first::second::rest).length := List.length_map _
    rw [List.map_cons,List.map_cons] at numbered control length ⊢
    simp only [executeRequest,execute,numbered,control,length,executeCommands_plain]

theorem executeRequest_failed {e e₁ e' : Executor} (closed : e.tx = none) {ord : Order} {commands : List Command}
    (many : 2 ≤ commands.length) (plain : ∀ c ∈ commands, ¬c.isControl) {snaps : List (Nat × List Row)}
    (saved : e.scanAll ((ord.at commands.length).arrange e.db.registry.entries) = .ok snaps) {err : Error}
    (failed : (executeCommands ord commands.zipIdx .empty).exec e = (.error err,e₁))
    (restored : (restore snaps).exec e₁ = (.ok (),e')) :
    (executeRequest ord commands).exec e = (.error (.rolledBack err),e') := by
  rcases commands with _ | ⟨first,_ | ⟨second,rest⟩⟩
  · exact absurd many (by decide)
  · exact absurd many (by simp)
  · have outside : ¬(e.tx.isSome || (first::second::rest).any Command.isControl) := by
      rw [closed,Option.isSome_none,Bool.false_or,List.any_eq_true]
      exact fun ⟨c,member,control⟩ => plain c member control
    unfold executeRequest
    rw [exec_bind_ok (exec_get e),if_neg outside,exec_of_bind saved,exec_tryCatch,failed]
    dsimp only
    rw [exec_bind_ok restored]
    rfl

/-- A relation that holds for what statements do, since it holds for what they do to one table, for what they stage
in a transaction, and for new tables. -/
structure Rule (T : Table → Table → Prop) (R : Executor → Executor → Prop) : Prop where
  table : Table.Rule T
  frame : Frame R
  onTable : ∀ {α : Type} (t : Nat) {x : TableM α}, Proc.Keeps T x → Proc.Keeps R (onTable t x)
  stage : ∀ t key ref row, Proc.Keeps R (recordWrite t key ref row)
  stageDelete : ∀ t key, Proc.Keeps R (recordDelete t key)
  create : ∀ q, Proc.Keeps R (create q)

namespace Rule

variable {T : Table → Table → Prop} {R : Executor → Executor → Prop} (rule : Rule T R)
include rule

theorem data : DataRule R where
  frame := rule.frame
  put _ t _ := rule.onTable t (rule.table.insert _ _) _
  remove _ t _ := rule.onTable t (rule.table.delete _) _
  stage := rule.stage
  stageDelete := rule.stageDelete

theorem undo : UndoRule R where
  frame := rule.frame
  put _ t _ := rule.onTable t (rule.table.insert _ _) _
  clear t := rule.onTable t (Table.deleteWhere_frame rule.table.frame rule.table.delete _)

theorem commitTables (ord : Order) (id : Nat) (states : List (TransactionTableState × Nat)) :
    Proc.Keeps R (commitTables ord id states) :=
  commitTables_frame rule.frame (fun t _ _ _ => rule.onTable t (rule.table.batch _ _ _)) ord id states

theorem alter (q : AlterTable) : Proc.Keeps R (alter q) := by
  have frame := rule.frame
  refine Keeps.bind frame (Keeps.get frame) fun e => Keeps.of_bind frame fun t _ => ?_
  exact Keeps.bind frame (rule.onTable t (rule.table.alter _)) fun _ => Keeps.pure frame _

theorem executeCommand (ord : Order) {c : Command} (plain : ¬c.isControl) : Proc.Keeps R (executeCommand ord c) := by
  cases c with
  | alter q => exact rule.alter q
  | plain st => exact rule.data.executeStatement ord plain fun q _ => rule.create q

theorem executeCommands (ord : Order) {commands : List (Command × Nat)} (plain : ∀ c ∈ commands, ¬c.1.isControl)
    (out : Result) : Proc.Keeps R (executeCommands ord commands out) := by
  have frame := rule.frame
  induction commands generalizing out with
  | nil => exact Keeps.pure frame _
  | cons c commands ih =>
    obtain ⟨first,rest⟩ := List.forall_mem_cons.mp plain
    exact Keeps.bind frame (rule.executeCommand _ first) fun out => ih rest out

theorem executeRequest (control : ∀ ord st, st.isControl → Proc.Keeps R (executeStatement ord st)) (ord : Order)
    (commands : List Command) : Proc.Keeps R (executeRequest ord commands) := by
  have frame := rule.frame
  have one (ord : Order) (c : Command) : Proc.Keeps R (Executor.executeCommand ord c) := by
    by_cases plain : c.isControl
    · rcases c with st | q
      · exact control ord st plain
      · cases plain
    · exact rule.executeCommand ord plain
  have all (commands : List (Command × Nat)) (out : Result) : Proc.Keeps R (Executor.executeCommands ord commands out) := by
    induction commands generalizing out with
    | nil => exact Keeps.pure frame _
    | cons c commands ih => exact Keeps.bind frame (one _ _) fun out => ih out
  rcases commands with _ | ⟨first,_ | ⟨second,rest⟩⟩
  · exact Keeps.throw frame _
  · exact one ord first
  · unfold Executor.executeRequest
    refine Keeps.bind frame (Keeps.get frame) fun e => Keeps.ite (fun _ => all _ _) fun _ => ?_
    refine Keeps.of_bind frame fun snaps _ => Keeps.tryCatch frame (all _ _) fun err => ?_
    exact Keeps.bind frame (rule.undo.restore snaps) fun _ => Keeps.throw frame _

end Rule

section frames

variable {e e' : Executor} {R : Table → Table → Prop}

/-- The relation holds for every table that was there. -/
structure Each (R : Table → Table → Prop) (e e' : Executor) : Prop where
  length : e.db.tables.length ≤ e'.db.tables.length
  tables : ∀ t < e.db.tables.length, R (e.db.table t) (e'.db.table t)

theorem each (frame : Frame R) : Frame (Each R) where
  refl _ := ⟨Nat.le_refl _,fun _ _ => frame.refl _⟩
  trans first second := ⟨first.length.trans second.length,fun t inside =>
    frame.trans (first.tables t inside) (second.tables t (Nat.lt_of_lt_of_le inside first.length))⟩

theorem onTable_each {α : Type} (frame : Frame R) (t : Nat) {x : TableM α} (keeps : Proc.Keeps R x) :
    Proc.Keeps (Each R) (onTable t x) := by
  intro e
  rw [onTable_exec]
  refine ⟨List.length_set.ge,fun t' _ => ?_⟩
  rw [Db.table_withTable]
  split_ifs with changed
  · rw [← changed.1]
    exact keeps _
  · exact frame.refl _

theorem create_each (frame : Frame R) (q : CreateTable) : Proc.Keeps (Each R) (create q) := by
  apply create_frame (each frame)
  intro e name schema table made
  refine ⟨List.length_append ▸ Nat.le_add_right _ _,fun t inside => ?_⟩
  change R _ ((e.db.tables ++ [table]).getD t default)
  rw [List.getD_append _ _ _ _ inside]
  exact frame.refl _

theorem eachRule (rule : Table.Rule R) : Rule R (Each R) where
  table := rule
  frame := each rule.frame
  onTable t _ keeps := onTable_each rule.frame t keeps
  stage _ _ _ _ _ := ⟨Nat.le_refl _,fun _ _ => rule.frame.refl _⟩
  stageDelete _ _ _ := ⟨Nat.le_refl _,fun _ _ => rule.frame.refl _⟩
  create q := create_each rule.frame q

end frames

end Executor
end GoDb
