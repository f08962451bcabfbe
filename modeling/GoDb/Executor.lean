import GoDb.Overlay
import GoDb.Query
import GoDb.Table

/-! The executor of `sql/sql.go`. Its tables are shared with other executors: they have
addresses, by which the registry and the open transactions refer to them. The executors
of a server have no catalog. -/
namespace GoDb
open Foundation Outcome

/-- A staged write: the address of its row map, or a mark that the key is deleted. -/
inductive TransactionWrite
  | row (cell : Nat)
  | deleted
  deriving DecidableEq

/-- `cells` are the row maps the writes refer to. An UPDATE changes them in place. -/
structure TransactionTableState where
  t : Nat
  readAt : Nat
  rollback : List Row
  writes : GoMap TransactionWrite
  cells : List Row

structure Transaction where
  id : Nat
  commit : Nat
  tables : List TransactionTableState

/-- What the executors share: all tables ever made, the registry, and the counters. -/
structure Db where
  tables : List Table
  registry : GoMap Nat
  nextTransactionID : Nat
  nextCommitSequence : Nat

structure Executor where
  db : Db
  tx : Option Transaction

abbrev ExecutorM := Proc Error Executor

/-- A row of `Executor.rows`: read from the table, or one of the maps of the transaction. -/
inductive RowRef
  | read (row : Row)
  | staged (cell : Nat)

instance : Inhabited Table := ⟨⟨⟨Pager.open [],0,false,{},[],none,0,∅,0⟩,⟨[],∅⟩,∅⟩⟩

def Db.table (db : Db) (t : Nat) : Table := db.tables.getD t default

namespace TransactionTableState

def cell (state : TransactionTableState) (c : Nat) : Row := state.cells.getD c ∅

def deref (state : TransactionTableState) : RowRef → Row
  | .read row => row
  | .staged c => state.cell c

/-- The writes as `commit` passes them on. -/
def batch (state : TransactionTableState) : GoMap TransactionRow :=
  state.writes.mapValues fun
    | .row c => some (state.cell c)
    | .deleted => none

/-- The writes as the loop of `rows` meets them. -/
def overlays (state : TransactionTableState) (ord : Order) : List (Bytes × Option RowRef) :=
  (ord.arrange state.writes.entries).map fun e =>
    (e.1,match e.2 with
      | .row c => some (.staged c)
      | .deleted => none)

/-- A row goes into the write set. A map that was read is new to the transaction. -/
def stage (state : TransactionTableState) (key : Bytes) (ref : RowRef) (row : Row) : TransactionTableState :=
  match ref with
  | .read _ => {state with
      cells := state.cells ++ [row]
      writes := state.writes.insert key (.row state.cells.length)}
  | .staged c => {state with
      cells := state.cells.set c row
      writes := state.writes.insert key (.row c)}

def stageDelete (state : TransactionTableState) (key : Bytes) : TransactionTableState :=
  {state with writes := state.writes.insert key .deleted}

end TransactionTableState

namespace Executor

def onTable {α : Type} (t : Nat) (x : TableM α) : ExecutorM α :=
  Proc.within (fun e => e.db.table t)
    (fun e table => {e with db := {e.db with tables := e.db.tables.set t table}}) x.exec

def state (e : Executor) (t : Nat) : Option TransactionTableState :=
  match e.tx with
  | none => none
  | some tx => tx.tables.find? fun state => state.t = t

def deref (e : Executor) (t : Nat) (ref : RowRef) : Row :=
  match e.state t,ref with
  | some state,ref => state.deref ref
  | none,.read row => row
  | none,.staged _ => ∅

/-- `rows`, with the rows of a transaction by reference. An error of `ScanAt` is dropped. -/
def rowRefs (e : Executor) (ord : Order) (t : Nat) : Except Error (List RowRef) :=
  match e.state t with
  | some state =>
    let read := ((e.db.table t).scanAt (ord.at 0) state.readAt).toOption.getD []
    let start := Overlay.start (fun ref => (e.db.table t).schema.keyOf (state.deref ref)) (read.map .read)
    .ok (start.writeAll (state.overlays (ord.at 1))).rows
  | none =>
    match (e.db.table t).scan with
    | .error e => .error e
    | .ok rows => .ok (rows.map .read)

def rows (e : Executor) (ord : Order) (t : Nat) : Except Error (List Row) :=
  match e.rowRefs ord t with
  | .error err => .error err
  | .ok refs => .ok (refs.map (e.deref t))

def changeState (t : Nat) (f : TransactionTableState → TransactionTableState) :
    List TransactionTableState → List TransactionTableState
  | [] => []
  | state::states => if state.t = t then f state::states else state::changeState t f states

/-- Changes the state of a table in the open transaction. A table it does not have is passed over. -/
def onState (t : Nat) (f : TransactionTableState → TransactionTableState) : ExecutorM Unit :=
  modify fun e => {e with tx := e.tx.map fun tx => {tx with tables := changeState t f tx.tables}}

def recordWrite (t : Nat) (key : Bytes) (ref : RowRef) (row : Row) : ExecutorM Unit :=
  onState t fun state => state.stage key ref row

def recordDelete (t : Nat) (key : Bytes) : ExecutorM Unit := onState t fun state => state.stageDelete key

def table (e : Executor) (name : Bytes) : Except Error Nat :=
  match e.db.registry.lookup (toLower name) with
  | none => .error (.unknownTable name)
  | some t => .ok t

def beginTables : List (Bytes × Nat) → ExecutorM (List TransactionTableState)
  | [] => pure []
  | (_,t)::registered => do
    let readAt ← onTable t (fun table => ((.ok table.snapshot.1 : Except Error Nat),table.snapshot.2))
    let e ← get
    let rows ← Proc.of (e.db.table t).scan
    let states ← beginTables registered
    pure (⟨t,readAt,rows,∅,[]⟩::states)

def begin (ord : Order) : ExecutorM Result := do
  let e ← get
  Proc.refuse (e.tx.isSome) .transactionInProgress
  modify fun e => {e with db := {e.db with nextTransactionID := e.db.nextTransactionID + 1}}
  let id := e.db.nextTransactionID + 1
  let states ← beginTables (ord.arrange e.db.registry.entries)
  modify fun e => {e with tx := some ⟨id,0,states⟩}
  pure .empty

/-- The first key, in the order of the loops, that was changed since the transaction began. -/
def conflict (db : Db) (ord : Order) (states : List TransactionTableState) : Option Bytes :=
  states.zipIdx.findSome? fun (state,k) =>
    ((ord.at k).arrange state.writes.entries).findSome? fun e =>
      if (db.table state.t).store.changedSince state.readAt e.1 then some e.1 else none

def commitTables (ord : Order) (id : Nat) : List (TransactionTableState × Nat) → ExecutorM Unit
  | [] => pure ()
  | (state,k)::states => do
    onTable state.t (Table.applyRowsBatch (ord.at k) id state.batch)
    commitTables ord id states

def releaseSnapshots : List TransactionTableState → ExecutorM Unit
  | [] => pure ()
  | state::states => do
    onTable state.t (modify Table.releaseSnapshot)
    releaseSnapshots states

def commit (ord : Order) : ExecutorM Result := do
  let e ← get
  match e.tx with
  | none => throw .noTransaction
  | some tx =>
    match conflict e.db (ord.at 0) tx.tables with
    | some key => throw (.conflict key)
    | none =>
      let id := e.db.nextCommitSequence + 1
      modify fun e => {db := {e.db with nextCommitSequence := id},tx := some {tx with commit := id}}
      commitTables (ord.at 1) id tx.tables.zipIdx
      releaseSnapshots tx.tables
      modify fun e => {e with tx := none}
      pure .empty

def insertEach (t : Nat) : List Row → ExecutorM Unit
  | [] => pure ()
  | row::rows => do
    let e ← get
    onTable t (Table.insert ((e.db.table t).schema.keyOf row) row)
    insertEach t rows

def rollbackTables : List TransactionTableState → ExecutorM Unit
  | [] => pure ()
  | state::states => do
    let _ ← onTable state.t (Table.deleteWhere fun _ => true)
    insertEach state.t state.rollback
    rollbackTables states

def rollback : ExecutorM Result := do
  let e ← get
  match e.tx with
  | none => throw .noTransaction
  | some tx =>
    rollbackTables tx.tables
    releaseSnapshots tx.tables
    modify fun e => {e with tx := none}
    pure .empty

end Executor

def coerceValue (v : Value) (type : ColumnType) : Except Error Value :=
  match type,v with
  | _,.nil => .ok .nil
  | .float,.int i => .ok (.float (Binary64.ofInt i.toInt))
  | .float,.float bits => .ok (.float bits)
  | .bytes,.string s => .ok (.bytes (some s))
  | .bytes,.bytes b => .ok (.bytes b)
  | .timestamp,.string s =>
    match Time.parse s with
    | none => .error (.invalidTimestamp s)
    | some ns => .ok (.time ns)
  | .timestamp,.time ns => .ok (.time ns)
  | .float,_ => .error (.wrongType type)
  | .bytes,_ => .error (.wrongType type)
  | .timestamp,_ => .error (.wrongType type)
  | _,v => .ok v

namespace Schema

def columnNamed (s : Schema) (name : Bytes) : Option Column := s.columns.find? fun c => equalFold c.name name

/-- The row an INSERT gives. The names are kept as the statement writes them. -/
def insertRow (s : Schema) : List (Bytes × Value) → Row → Except Error Row
  | [],row => .ok row
  | (name,v)::rest,row =>
    match s.columnNamed name with
    | none => insertRow s rest (row.insert name v)
    | some c =>
      match coerceValue v c.type with
      | .error e => .error e
      | .ok v => insertRow s rest (row.insert name v)

def updateSet (s : Schema) : List (Bytes × Value) → Row → Except Error Row
  | [],set => .ok set
  | (name,v)::rest,set =>
    match s.columnNamed name with
    | none => .error (.unknownColumn name)
    | some c =>
      match coerceValue v c.type with
      | .error e => .error e
      | .ok v => updateSet s rest (set.insert name v)

/-- The id behind the largest one; ids below 1 do not count, and the addition wraps around. -/
def nextId (s : Schema) (rows : List Row) : Int64 :=
  rows.foldl (fun next row =>
    match row.get s.keyColumn with
    | .int id => if next ≤ id then id + 1 else next
    | _ => next) 1

end Schema

namespace Executor

/-- The row of an INSERT with its key, which is made up when the statement has none. -/
def keyedRow (e : Executor) (ord : Order) (t : Nat) (row : Row) : Except Error Row :=
  let s := (e.db.table t).schema
  match row.lookup s.keyColumn with
  | some _ => .ok row
  | none =>
    if s.columns.head?.map Column.type ≠ some .int then .error (.keyRequired s.keyColumn)
    else
      match e.rows ord t with
      | .error err => .error err
      | .ok rows => .ok (row.insert s.keyColumn (.int (s.nextId rows)))

/-- The check of REFERENCES, over the columns from some place on. -/
def checkReferences (e : Executor) (ord : Order) (s : Schema) (row : Row) : List (Column × Nat) → Except Error Unit
  | [] => .ok ()
  | (c,k)::columns =>
    match (s.constraint c.name).references with
    | none => checkReferences e ord s row columns
    | some ref =>
      if row.get c.name = .nil then checkReferences e ord s row columns
      else
        match e.table ref.table with
        | .error err => .error err
        | .ok other =>
          let rows := (e.rows (ord.at k) other).toOption.getD []
          if rows.any fun r => r.get ref.column != .nil && (r.get ref.column).compare (row.get c.name) = .eq then
            checkReferences e ord s row columns
          else .error (.foreignKeyFailed c.name)

def insert (ord : Order) (q : Insert) : ExecutorM Result := do
  let e ← get
  let t ← Proc.of (e.table q.table)
  let s := (e.db.table t).schema
  let given ← Proc.of (s.insertRow (q.columns.zip q.values) ∅)
  Proc.refuse (s.columns = []) .tableWithoutColumns
  let row ← Proc.of (e.keyedRow (ord.at 0) t given)
  Proc.of (e.checkReferences (ord.at 1) s row s.columns.zipIdx)
  (if e.tx.isSome then recordWrite t (s.keyOf row) (.read row) row
    else onTable t (Table.insert (s.keyOf row) row))
  pure {Result.empty with affected := 1}

def outside (e : Executor) (x : ExecutorM Unit) : ExecutorM Unit := if e.tx.isNone then x else pure ()

def updateEach (t : Nat) (w : Option Condition) (set : Row) : List RowRef → ExecutorM Nat
  | [] => pure 0
  | ref::refs => do
    let e ← get
    if matchRow w (e.deref t ref) then
      let row := (e.deref t ref).insertAll set.entries
      let key := (e.db.table t).schema.keyOf row
      outside e (onTable t (Table.insert key row))
      recordWrite t key ref row
      let n ← updateEach t w set refs
      pure (n + 1)
    else updateEach t w set refs

def update (ord : Order) (q : Update) : ExecutorM Result := do
  let e ← get
  let t ← Proc.of (e.table q.table)
  let set ← Proc.of ((e.db.table t).schema.updateSet ((ord.at 0).arrange q.set.entries) ∅)
  let refs ← Proc.of (e.rowRefs (ord.at 1) t)
  let n ← updateEach t q.condition set refs
  pure {Result.empty with affected := n}

def deleteEach (t : Nat) (w : Option Condition) : List RowRef → ExecutorM Nat
  | [] => pure 0
  | ref::refs => do
    let e ← get
    if matchRow w (e.deref t ref) then
      let key := (e.db.table t).schema.keyOf (e.deref t ref)
      outside e (onTable t (Table.delete key))
      recordDelete t key
      let n ← deleteEach t w refs
      pure (n + 1)
    else deleteEach t w refs

def delete (ord : Order) (q : Delete) : ExecutorM Result := do
  let e ← get
  let t ← Proc.of (e.table q.table)
  let refs ← Proc.of (e.rowRefs ord t)
  let n ← deleteEach t q.condition refs
  pure {Result.empty with affected := n}

/-- The column and value of a condition that an index answers. -/
def indexedEquality (t : Table) : Option Condition → Option (Bytes × Value)
  | some (.test column .equal value) =>
    if column ≠ [] ∧ value ≠ .nil ∧ t.hasIndex column then some (column,value) else none
  | _ => none

def selectedRows (e : Executor) (ord : Order) (t : Nat) (q : Select) : Except Error (List Row) :=
  let rows := e.rows (ord.at 0) t
  let indexed := if e.tx.isNone ∧ q.joinTable = [] then indexedEquality (e.db.table t) q.condition else none
  match indexed with
  | none =>
    match rows with
    | .error err => .error (.readingTable q.table err)
    | .ok rows => .ok rows
  | some (column,value) =>
    match (e.db.table t).find (ord.at 1) column value with
    | .error err => .error err
    | .ok found =>
      match rows with
      | .error err => .error (.readingTable q.table err)
      | .ok _ => .ok found

def selectRows (e : Executor) (ord : Order) (q : Select) : Except Error Result := do
  let t ← e.table q.table
  let rows ← e.selectedRows (ord.at 0) t q
  if q.joinTable = [] then finishSelect (e.db.table t).schema q rows
  else
    let other ← e.table q.joinTable
    let others ← e.rows (ord.at 1) other
    finishSelect (e.db.table t).schema q (joinRows (ord.at 2) q rows others)

/-- The columns of a new table, with an `id` in front if there is none. -/
def createColumns (columns : List Column) : List Column :=
  if columns.any fun c => equalFold c.name (ascii "id") then columns else ⟨ascii "id",.int⟩::columns

def create (q : CreateTable) : ExecutorM Result := do
  let e ← get
  Proc.refuse (e.db.registry.lookup (toLower q.table)).isSome (.tableExists q.table)
  -- The path is one of a new temporary file.
  let store ← Proc.of (Store.open ⟨[],[],none⟩).1
  let table ← Proc.of (Table.new store ⟨createColumns q.columns,q.constraints⟩)
  modify fun e => {e with db := {e.db with
    tables := e.db.tables ++ [table]
    registry := e.db.registry.insert (toLower q.table) e.db.tables.length}}
  pure {Result.empty with affected := 1}

def executeStatement (ord : Order) : Statement → ExecutorM Result
  | .begin => begin ord
  | .commit => commit ord
  | .rollback => rollback
  | .insert q => insert ord q
  | .select q => do
    let e ← get
    Proc.of (e.selectRows ord q)
  | .update q => update ord q
  | .delete q => delete ord q
  | .createTable q => create q

end Executor

def Statement.isControl : Statement → Bool
  | .begin => true
  | .commit => true
  | .rollback => true
  | _ => false

namespace Executor

/-- The statements one after the other, up to the first that fails; the last result counts. -/
def executeEach (ord : Order) : List (Statement × Nat) → Result → ExecutorM Result
  | [],out => pure out
  | (s,k)::statements,_ => do
    let out ← executeStatement (ord.at k) s
    executeEach ord statements out

def scanAll (e : Executor) : List (Bytes × Nat) → Except Error (List (Nat × List Row))
  | [] => .ok []
  | (_,t)::registered => do
    let rows ← (e.db.table t).scan
    let snaps ← scanAll e registered
    .ok ((t,rows)::snaps)

def attempt {α : Type} (x : ExecutorM α) : ExecutorM Unit := tryCatch (do let _ ← x) fun _ => pure ()

def reinsert (t : Nat) : List Row → ExecutorM Unit
  | [] => pure ()
  | row::rows => do
    let e ← get
    attempt (onTable t (Table.insert ((e.db.table t).schema.keyOf row) row))
    reinsert t rows

/-- What a failed request of several statements does with the rows it has saved. -/
def restore : List (Nat × List Row) → ExecutorM Unit
  | [] => pure ()
  | (t,rows)::snaps => do
    attempt (onTable t (Table.deleteWhere fun _ => true))
    reinsert t rows
    restore snaps

def execute (ord : Order) : List Statement → ExecutorM Result
  | [] => throw .emptyRequest
  | [s] => executeStatement ord s
  | statements => do
    let e ← get
    if e.tx.isSome || statements.any Statement.isControl then executeEach ord statements.zipIdx .empty
    else
      let snaps ← Proc.of (e.scanAll ((ord.at statements.length).arrange e.db.registry.entries))
      tryCatch (executeEach ord statements.zipIdx .empty) fun err => do
        restore snaps
        throw (.rolledBack err)

end Executor
end GoDb
