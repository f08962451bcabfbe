import GoDb.Catalog
import GoDb.Server

/-! The statements of `sql/sql.go` that define tables, for executors with a catalog and
without one, and `Alter` of `kv/table.go`. The executor a server is made with may have a
catalog; the executors it makes for its connections have none. -/
namespace GoDb
open Foundation Outcome

/-- The value of a column that `Alter` has nothing for. -/
def ColumnType.zero : ColumnType → Value
  | .int => .int 0
  | .string => .string []
  | .bool => .bool false
  | .float => .float 0
  | .bytes => .bytes (some [])
  -- The beginning of the year 1.
  | .timestamp => .time (-62135596800 * 10^9)

namespace Schema

/-- The value of column `i` in a row that was read with the old schema. -/
def convertValue (old new : Schema) (row : Row) (c : Column) (i : Nat) : Value :=
  match row.lookup c.name with
  | some v => v
  | none =>
    match old.columns[i]? with
    | none => c.type.zero
    | some before =>
      -- The column was renamed in place.
      if new.columns.length = old.columns.length ∧ before.type = c.type then row.get before.name else c.type.zero

def convertRow (old new : Schema) (row : Row) : Row :=
  new.columns.zipIdx.foldl (fun converted (c,i) => converted.insert c.name (convertValue old new row c i)) ∅

/-- The schema that `alter` passes on. The constraints are looked up by the name as the statement has it. -/
def altered (s : Schema) : Alteration → Schema
  | .add column => {s with columns := s.columns ++ [column]}
  | .drop name => ⟨s.columns.filter fun c => !equalFold c.name name,s.constraints.erase name⟩
  | .rename name newName =>
    ⟨s.columns.map fun c => if equalFold c.name name then {c with name := newName} else c,
      match s.constraints.lookup name with
      | none => s.constraints
      | some constraint => (s.constraints.erase name).insert newName constraint⟩

end Schema

namespace Table

def rewrite : List Row → TableM Unit
  | [] => pure ()
  | row::rows => do
    let t ← MonadState.get
    let b ← Proc.of (t.schema.encode row)
    onStore (Store.put (t.schema.keyOf row) b)
    modify (indexRow (t.schema.keyOf row) row)
    rewrite rows

def alter (schema : Schema) : TableM Unit := do
  let t ← MonadState.get
  Proc.of schema.validate
  let rows ← Proc.of t.scan
  modify fun t => unindexed t.store schema
  -- `schema.Columns[1:]`
  Proc.refuse (schema.columns = []) .panics
  rewrite (rows.map (t.schema.convertRow schema))

def close : TableM Unit := onStore Store.close

end Table

structure CatalogExecutor where
  executor : Executor
  catalog : Option Catalog

abbrev CatalogM := Proc Error CatalogExecutor

/-- The statements that define tables. The path of a new table is one that `os.CreateTemp` has found. -/
inductive Definition
  | create (path : Bytes) (q : CreateTable)
  | alter (q : AlterTable)
  | drop (q : DropTable)

namespace CatalogExecutor

def onExecutor {α : Type} (x : ExecutorM α) : CatalogM α :=
  Proc.within executor (fun e executor => {e with executor := executor}) x.exec

theorem onExecutor_exec {α : Type} (x : ExecutorM α) (e : CatalogExecutor) :
    (onExecutor x).exec e = ((x.exec e.executor).1,{e with executor := (x.exec e.executor).2}) := rfl

def onCatalog (f : Catalog → Except Error Catalog) : CatalogM Unit := do
  let e ← get
  match e.catalog with
  | none => pure ()
  | some c =>
    let c ← Proc.of (f c)
    modify fun e => {e with catalog := some c}

def unregister (name : Bytes) : ExecutorM Unit :=
  modify fun e => {e with db := {e.db with registry := e.db.registry.erase name}}

def drop (q : DropTable) : CatalogM Result := do
  let e ← get
  let t ← Proc.of (e.executor.table q.table)
  onExecutor (unregister (toLower q.table))
  onCatalog fun c => .ok (c.delete (toLower q.table))
  onExecutor (Executor.onTable t Table.close)
  pure {Result.empty with affected := 1}

def pathOf (c : Catalog) (name : Bytes) : Bytes :=
  match c.list.find? fun existing => existing.name = name with
  | none => []
  | some existing => existing.path

def alter (q : AlterTable) : CatalogM Result := do
  let e ← get
  let t ← Proc.of (e.executor.table q.table)
  let s := (e.executor.db.table t).schema.altered q.action
  onExecutor (Executor.onTable t (Table.alter s))
  onCatalog fun c => c.set ⟨toLower q.table,pathOf c (toLower q.table),s⟩
  pure {Result.empty with affected := 1}

def create (path : Bytes) (q : CreateTable) : CatalogM Result := do
  let e ← get
  let result ← onExecutor (Executor.create q)
  tryCatch (onCatalog fun c => c.set ⟨toLower q.table,path,⟨Executor.createColumns q.columns,q.constraints⟩⟩) fun err => do
    onExecutor (unregister (toLower q.table))
    onExecutor (Executor.attempt (Executor.onTable e.executor.db.tables.length Table.close))
    throw err
  pure result

def define : Definition → CatalogM Result
  | .create path q => create path q
  | .alter q => alter q
  | .drop q => drop q

end CatalogExecutor

/-- A server with the catalog of the executor it was made with. -/
structure CatalogServer where
  server : Server
  catalog : Catalog

/-- A statement that comes over a connection. `NewExecutor` has made the executor of the connection. -/
def CatalogServer.define (r : Nat × Definition) (s : CatalogServer) : Except Error Result × CatalogServer :=
  let (answer,e) := (CatalogExecutor.define r.2).exec ⟨s.server.executor r.1,none⟩
  (answer,{s with server := s.server.withExecutor r.1 e.executor})

end GoDb
