import GoDb.Statement
import GoDb.GoSyntax
import GoDb.Foundation.Iteration
import Mathlib.Data.List.Sort

/-! What `selectRows` makes of the rows it has read: joining, filtering, grouping,
projecting, ordering and paging. -/
namespace GoDb
open Foundation

structure Result where
  columns : List Bytes
  rows : List Row
  affected : Nat
  deriving DecidableEq

def Result.empty : Result := ⟨[],[],0⟩

/-- A row of the join: a column of the second table whose name is taken gets the table in front. -/
def mergeRows (ord : Order) (joinTable : Bytes) (a b : Row) : Row :=
  (ord.arrange b.entries).foldl (fun n e =>
    if (n.lookup e.1).isSome then n.insert (joinTable ++ 46::e.1) e.2 else n.insert e.1 e.2) a

/-- The buckets of the hash join keep the rows of the second table in their order. -/
def joinRows (ord : Order) (q : Select) (rows others : List Row) : List Row :=
  rows.zipIdx.flatMap fun (a,i) =>
    let bucket := others.filter fun b => (lookup b q.joinRight).indexValue = (lookup a q.joinLeft).indexValue
    let equal := bucket.filter fun b => (lookup a q.joinLeft).compare (lookup b q.joinRight) = .eq
    equal.zipIdx.map fun (b,j) => mergeRows ((ord.at i).at j) q.joinTable a b

def aggregateNames : List Bytes := ["COUNT(","SUM(","AVG(","MIN(","MAX("].map ascii

def isAggregate (s : Bytes) : Bool := aggregateNames.any fun name => name.isPrefixOf (toUpper s)

/-- `groupKey`: the texts of the columns, each closed by a bar. -/
def groupKey (isPrint : Nat → Bool) (columns : List Bytes) (r : Row) : Bytes :=
  columns.flatMap fun c => (r.get c).goSyntax isPrint ++ [124]

def isSpace (c : UInt8) : Bool := c = 32 || 9 ≤ c && c ≤ 13

def trimSpace (s : Bytes) : Bytes := ((s.dropWhile isSpace).reverse.dropWhile isSpace).reverse

def allInts (vals : List Value) : Bool := vals.all fun | .int _ => true | _ => false

def sumFrom (expr : Bytes) (sum : UInt64) : List Value → Except Error UInt64
  | [] => .ok sum
  | v::vals =>
    match v.number with
    | none => .error (.aggregateNumeric expr)
    | some n => sumFrom expr (Binary64.add sum n) vals

/-- The value of an aggregate over the values of its column that are not NULL. -/
def aggregateValue (expr : Bytes) (vals : List Value) : Except Error Value :=
  let starts (name : String) : Bool := (ascii name).isPrefixOf (toUpper expr)
  if starts "COUNT" then .ok (.int (Int64.ofNat vals.length))
  else
    match vals with
    | [] => .ok .nil
    | first::rest =>
      if starts "MIN" || starts "MAX" then
        .ok (rest.foldl (fun best v =>
          let cmp := v.compare best
          if (starts "MIN" && cmp = .lt) || (starts "MAX" && cmp = .gt) then v else best) first)
      else do
        let sum ← sumFrom expr 0 (first::rest)
        let sum := if starts "AVG" then Binary64.div sum (Binary64.ofInt (first::rest).length) else sum
        if starts "SUM" && allInts (first::rest) then .ok (.int (Binary64.truncate sum)) else .ok (.float sum)

/-- One entry of the select list in the row of a group. -/
def aggregateColumn (rows : List Row) (out : Row) (expr : Bytes) : Except Error Row :=
  match expr.findIdx? (· == 40) with
  | none =>
    match rows with
    | [] => .error (.groupColumn expr)
    | first::_ => .ok (out.insert expr (first.get expr))
  | some opened =>
    -- `expr[open+1 : len(expr)-1]`.
    if expr.length - 1 < opened + 1 then .error .panics
    else
      let column := trimSpace ((expr.take (expr.length - 1)).drop (opened + 1))
      if column = [42] then
        if (ascii "COUNT").isPrefixOf (toUpper expr) then .ok (out.insert expr (.int (Int64.ofNat rows.length)))
        else .ok out
      else
        match aggregateValue expr ((rows.map (·.get column)).filter (· != .nil)) with
        | .error e => .error e
        | .ok v => .ok (out.insert expr v)

def aggregateRow (columns groups : List Bytes) (rows : List Row) : Except Error Row :=
  let start : Row := match rows with
    | [] => ∅
    | first::_ => groups.foldl (fun out c => out.insert c (first.get c)) ∅
  columns.foldlM (aggregateColumn rows) start

def groupOrder (keys : List Bytes) : List Bytes :=
  keys.foldl (fun seen key => if seen.contains key then seen else seen ++ [key]) []

def orderRows (q : Select) (rows : List Row) : List Row :=
  let less (a b : Row) : Bool :=
    let c := (a.get q.orderBy).compare (b.get q.orderBy)
    if q.desc then c = .gt else c = .lt
  rows.insertionSort fun a b => less b a = false

def applyPagingAndOrder (out : Result) (q : Select) : Except Error Result :=
  let rows := if q.orderBy = [] then out.rows else orderRows q out.rows
  let size := Int64.ofNat rows.length
  let start := if q.offset < 0 then 0 else q.offset
  let start := if size < start then size else start
  -- The addition wraps around.
  let stop := if 0 ≤ q.limit ∧ start + q.limit < size then start + q.limit else size
  if stop < start then .error .panics
  else .ok {out with rows := (rows.take stop.toInt.toNat).drop start.toInt.toNat}

def projectRow (columns : List Bytes) (r : Row) : Except Error Row :=
  columns.foldlM (fun selected c =>
    match lookupColumn r c with
    | none => .error (.unknownColumn c)
    | some v => .ok (selected.insert c v)) ∅

/-- `selectRows` from the rows of the table, or of the join, on. -/
def finishSelect (s : Schema) (q : Select) (rows : List Row) : Except Error Result := do
  let columns := if q.columns = [[42]] then s.columns.map Column.name else q.columns
  let filtered := rows.filter (matchRow q.condition)
  match q.groupBy.find? fun c => filtered.any fun r => lookup r c = .nil with
  | some c => .error (.unknownColumn c)
  | none =>
    let aggregate := columns.any isAggregate
    if aggregate || q.groupBy != [] then
      let order := groupOrder (filtered.map (groupKey isPrint q.groupBy))
      let order := if order = [] ∧ aggregate ∧ q.groupBy = [] then [[]] else order
      let rows ← order.mapM fun key =>
        aggregateRow columns q.groupBy (filtered.filter fun r => groupKey isPrint q.groupBy r = key)
      applyPagingAndOrder ⟨columns,rows,0⟩ q
    else
      let rows ← filtered.mapM (projectRow columns)
      applyPagingAndOrder ⟨columns,rows,0⟩ q

end GoDb
