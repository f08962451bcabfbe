import GoDb.Value

/-! Columns, schemas and rows of `kv/table.go`. -/
namespace GoDb

inductive ColumnType
  | int
  | string
  | bool
  | float
  | bytes
  | timestamp
  deriving DecidableEq, Repr

structure Column where
  name : Bytes
  type : ColumnType
  deriving DecidableEq, Repr

structure Reference where
  table : Bytes
  column : Bytes
  deriving DecidableEq

structure ColumnConstraint where
  notNull : Bool
  unique : Bool
  references : Option Reference
  deriving DecidableEq

structure Schema where
  columns : List Column
  constraints : GoMap ColumnConstraint
  deriving DecidableEq

namespace Schema

/-- `Constraints[name]`, with the zero value for a column that has none. -/
def constraint (s : Schema) (name : Bytes) : ColumnConstraint :=
  (s.constraints.lookup name).getD ⟨false,false,none⟩

/-- `Columns[0].Name`. Every table has a column. -/
def keyColumn (s : Schema) : Bytes := (s.columns.head?.map Column.name).getD []

end Schema

def indexOf (columns : List Column) (want : Column) : Nat :=
  (columns.findIdx? fun c => c.name = want.name).getD 0

abbrev Row := GoMap Value

/-- `r[name]`, which is nil for a name that is not there. -/
def Row.get (r : Row) (name : Bytes) : Value := (r.lookup name).getD .nil

end GoDb
