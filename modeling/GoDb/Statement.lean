import GoDb.Error

/-! Parsed statements of `sql/sql.go`, and the conditions of their WHERE clauses. -/
namespace GoDb

/-- `strings.ToLower`, on ASCII letters. -/
def toLower (s : Bytes) : Bytes := s.map fun c => if 65 ≤ c && c ≤ 90 then c + 32 else c

/-- `strings.ToUpper`, on ASCII letters. -/
def toUpper (s : Bytes) : Bytes := s.map fun c => if 97 ≤ c && c ≤ 122 then c - 32 else c

def equalFold (a b : Bytes) : Bool := toLower a = toLower b

inductive Operator
  | equal
  | notEqual
  | less
  | greater
  | lessEqual
  | greaterEqual
  | isNull
  | isNotNull
  deriving DecidableEq, Repr

/-- A node with `Logic` set has no test of its own. -/
inductive Condition
  | test (column : Bytes) (operator : Operator) (value : Value)
  | and (left right : Condition)
  | or (left right : Condition)
  deriving DecidableEq, Repr

structure Select where
  columns : List Bytes
  table : Bytes
  condition : Option Condition
  orderBy : Bytes
  desc : Bool
  limit : Int64
  offset : Int64
  groupBy : List Bytes
  joinTable : Bytes
  joinLeft : Bytes
  joinRight : Bytes
  deriving DecidableEq

/-- The parser gives as many values as columns. -/
structure Insert where
  table : Bytes
  columns : List Bytes
  values : List Value
  deriving DecidableEq

structure Update where
  table : Bytes
  set : GoMap Value
  condition : Option Condition
  deriving DecidableEq

structure Delete where
  table : Bytes
  condition : Option Condition
  deriving DecidableEq

structure CreateTable where
  table : Bytes
  columns : List Column
  constraints : GoMap ColumnConstraint
  deriving DecidableEq

structure DropTable where
  table : Bytes
  deriving DecidableEq

/-- `Action` with the fields that go with it. -/
inductive Alteration
  | add (column : Column)
  | drop (name : Bytes)
  | rename (name newName : Bytes)
  deriving DecidableEq

structure AlterTable where
  table : Bytes
  action : Alteration
  deriving DecidableEq

inductive Statement
  | begin
  | commit
  | rollback
  | insert (q : Insert)
  | select (q : Select)
  | update (q : Update)
  | delete (q : Delete)
  | createTable (q : CreateTable)
  deriving DecidableEq

def afterPoint : Bytes → Option Bytes
  | [] => none
  | 46::rest => some rest
  | _::rest => afterPoint rest

def lookupColumn (r : Row) (name : Bytes) : Option Value :=
  match r.lookup name with
  | some v => some v
  | none =>
    match afterPoint name with
    | some bare => r.lookup bare
    | none => none

def lookup (r : Row) (name : Bytes) : Value := (lookupColumn r name).getD .nil

def Operator.accepts : Operator → Ordering → Bool
  | .equal,cmp => cmp = .eq
  | .notEqual,cmp => cmp != .eq
  | .less,cmp => cmp = .lt
  | .greater,cmp => cmp = .gt
  | .lessEqual,cmp => cmp != .gt
  | .greaterEqual,cmp => cmp != .lt
  | _,_ => false

def Condition.holds (r : Row) : Condition → Bool
  | .and left right => left.holds r && right.holds r
  | .or left right => left.holds r || right.holds r
  | .test column operator value =>
    let found := lookup r column
    if operator = .isNull then found = .nil
    else if operator = .isNotNull then found != .nil
    else if found = .nil ∨ value = .nil then false
    else operator.accepts (found.compare value)

def matchRow (w : Option Condition) (r : Row) : Bool :=
  match w with
  | none => true
  | some c => c.holds r

end GoDb
