import GoDb.Codec
import GoDb.Store
import Mathlib.Data.List.AList

/-! Tables of `kv/table.go`: rows in a store, under the printed value of their first
column, and an index over each of the other columns. -/
namespace GoDb
open Foundation Outcome

abbrev KeySet := GoMap Unit

/-- One column of the secondary index: the keys of the rows with a value. -/
abbrev ColumnIndex := AList fun _ : Value => KeySet

structure Table where
  store : Store
  schema : Schema
  secondary : GoMap ColumnIndex

abbrev TableM := Proc Error Table

/-- A `TransactionRow`; `none` is one that is marked as deleted. -/
abbrev TransactionRow := Option Row

namespace ColumnIndex

def keys (m : ColumnIndex) (v : Value) : KeySet := (m.lookup v).getD ∅

def add (m : ColumnIndex) (v : Value) (key : Bytes) : ColumnIndex := m.insert v ((m.keys v).insert key ())

def remove (m : ColumnIndex) (v : Value) (key : Bytes) : ColumnIndex :=
  let rest := (m.keys v).erase key
  if rest.size = 0 then m.erase v else m.insert v rest

end ColumnIndex

namespace Schema

def validateFrom (seen : List Bytes) : List Column → Except Error Unit
  | [] => .ok ()
  | c::columns =>
    if c.name = [] ∨ c.name ∈ seen then .error (.invalidColumn c.name)
    else validateFrom (c.name::seen) columns

-- A column type out of range, which is refused as well, cannot be written here.
def validate (s : Schema) : Except Error Unit := validateFrom [] s.columns

def decodeAll (s : Schema) : List Bytes → Except Error (List Row)
  | [] => .ok []
  | data::rest => do
    let row ← s.decode data
    let rows ← decodeAll s rest
    .ok (row::rows)

def keyOf (s : Schema) (row : Row) : Bytes := (row.get s.keyColumn).sprint

/-- The operations `ApplyRowsBatch` makes of the writes, in this order. -/
def batchOps (s : Schema) : List (Bytes × TransactionRow) → Except Error (List BatchOp)
  | [] => .ok []
  | (key,none)::writes => do
    let ops ← batchOps s writes
    .ok (⟨key,[],true⟩::ops)
  | (key,some row)::writes => do
    let value ← s.encode row
    let ops ← batchOps s writes
    .ok (⟨key,value,false⟩::ops)

end Schema

namespace Table

def onStore {α : Type} (x : StoreM α) : TableM α :=
  Proc.within Table.store (fun t s => {t with store := s}) x.exec

def column (t : Table) (name : Bytes) : ColumnIndex := (t.secondary.lookup name).getD ∅

def indexRow (key : Bytes) (row : Row) (t : Table) : Table :=
  t.schema.columns.tail.foldl (fun t c =>
    {t with secondary := t.secondary.insert c.name ((t.column c.name).add (row.get c.name).indexValue key)}) t

def unindexRow (key : Bytes) (row : Row) (t : Table) : Table :=
  t.schema.columns.tail.foldl (fun t c =>
    {t with secondary := t.secondary.insert c.name ((t.column c.name).remove (row.get c.name).indexValue key)}) t

def get (t : Table) (key : Bytes) : Except Error (Option Row) :=
  match t.store.get key with
  | none => .ok none
  | some b =>
    match t.schema.decode b with
    | .error e => .error e
    | .ok row => .ok (some row)

/-- `Scan` walks the leaves of the index as `entries` does. -/
def scan (t : Table) : Except Error (List Row) := t.schema.decodeAll (t.store.index.entries.map Prod.snd)

def getAt (t : Table) (snapshot : Nat) (key : Bytes) : Except Error (Option Row) :=
  match t.store.getAt snapshot key with
  | none => .ok none
  | some b =>
    match t.schema.decode b with
    | .error e => .error e
    | .ok row => .ok (some row)

def getAllAt (t : Table) (snapshot : Nat) : List Bytes → Except Error (List Row)
  | [] => .ok []
  | key::keys => do
    let found ← t.getAt snapshot key
    let rows ← getAllAt t snapshot keys
    .ok (found.toList ++ rows)

def scanAt (t : Table) (ord : Order) (snapshot : Nat) : Except Error (List Row) :=
  t.getAllAt snapshot (t.store.keysAt ord snapshot)

def validateConstraints (t : Table) (key : Bytes) (row : Row) : Except Error Unit := do
  let rows ← t.scan
  let taken (c : Column) : Bool := rows.any fun old =>
    t.schema.keyOf old != key && (old.get c.name).indexValue = (row.get c.name).indexValue
  match t.schema.columns.find? fun c => (t.schema.constraint c.name).unique && row.get c.name != .nil && taken c with
  | some c => .error (.uniqueFailed c.name)
  | none => .ok ()

def insert (key : Bytes) (row : Row) : TableM Unit := do
  let t ← MonadState.get
  let b ← Proc.of (t.schema.encode row)
  Proc.of (t.validateConstraints key row)
  let old ← Proc.of (t.get key)
  onStore (Store.put key b)
  match old with
  | some old => modify (unindexRow key old)
  | none => pure ()
  modify (indexRow key row)

def delete (key : Bytes) : TableM Unit := do
  let t ← MonadState.get
  match ← Proc.of (t.get key) with
  | none => pure ()
  | some old =>
    onStore (Store.delete key)
    modify (unindexRow key old)

def updateEach (wanted : Row → Bool) (set : Row) : List Row → TableM Nat
  | [] => pure 0
  | row::rows => do
    if wanted row then
      let t ← MonadState.get
      let new := row.insertAll set.entries
      insert (t.schema.keyOf new) new
      let n ← updateEach wanted set rows
      pure (n + 1)
    else updateEach wanted set rows

def update (wanted : Row → Bool) (set : Row) : TableM Nat := do
  let t ← MonadState.get
  let rows ← Proc.of t.scan
  updateEach wanted set rows

def deleteEach (wanted : Row → Bool) : List Row → TableM Nat
  | [] => pure 0
  | row::rows => do
    if wanted row then
      let t ← MonadState.get
      delete (t.schema.keyOf row)
      let n ← deleteEach wanted rows
      pure (n + 1)
    else deleteEach wanted rows

def deleteWhere (wanted : Row → Bool) : TableM Nat := do
  let t ← MonadState.get
  let rows ← Proc.of t.scan
  deleteEach wanted rows

def applyRowsBatch (ord : Order) (id : Nat) (writes : GoMap TransactionRow) : TableM Unit := do
  let t ← MonadState.get
  let ops ← Proc.of (t.schema.batchOps (ord.arrange writes.entries))
  onStore (Store.applyBatch id ops)

def findAll (t : Table) : List Bytes → Except Error (List Row)
  | [] => .ok []
  | key::keys => do
    let found ← t.get key
    let rows ← findAll t keys
    .ok (found.toList ++ rows)

def find (t : Table) (ord : Order) (column : Bytes) (value : Value) : Except Error (List Row) :=
  t.findAll ((ord.arrange ((t.column column).keys value.indexValue).entries).map Prod.fst)

def hasIndex (t : Table) (column : Bytes) : Bool := (t.secondary.lookup column).isSome

def snapshot (t : Table) : Nat × Table := (t.store.beginSnapshot.1,{t with store := t.store.beginSnapshot.2})

def releaseSnapshot (t : Table) : Table := {t with store := t.store.releaseSnapshot}

/-- The table of `NewTable` before the rows of its store are indexed. -/
def unindexed (store : Store) (schema : Schema) : Table :=
  ⟨store,schema,schema.columns.tail.foldl (fun m c => m.insert c.name ∅) ∅⟩

def new (store : Store) (schema : Schema) : Except Error Table :=
  match schema.validate with
  | .error e => .error e
  | .ok () =>
    if schema.columns = [] then .error .noColumns
    else
      match (unindexed store schema).scan with
      | .error e => .error e
      | .ok rows => .ok (rows.foldl (fun t row => indexRow (schema.keyOf row) row t) (unindexed store schema))

end Table
end GoDb
