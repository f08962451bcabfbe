import GoDb.Parser

/-! Prepared statements of `sql/sql.go`: the number of parameters of a statement, and the
values that are put in their places. -/
namespace GoDb
open Foundation Outcome

def Condition.values : Condition → List Value
  | .test _ _ value => [value]
  | .and left right => left.values ++ right.values
  | .or left right => left.values ++ right.values

def whereValues (w : Option Condition) : List Value := w.elim [] Condition.values

def Statement.values : Statement → List Value
  | .insert q => q.values
  | .update q => q.set.entries.map Prod.snd ++ whereValues q.condition
  | .delete q => whereValues q.condition
  | .select q => whereValues q.condition
  | .begin => []
  | .commit => []
  | .rollback => []
  | .createTable _ => []

/-- The values that the `walk` of `countStatementParameters` comes to. -/
def Parsed.values : Parsed → List Value
  | .plain s => s.values
  | .explain s => s.values
  | .explainTable _ => []
  | .listTables => []
  | .dropTable _ => []
  | .alterTable _ => []

def largerIndex (max : Int) : Value → Int
  | .parameter index => if max < index then index else max
  | _ => max

def countStatementParameters (s : Parsed) : Nat := (s.values.foldl largerIndex (-1) + 1).toNat

section binding

variable (args : List Value)

/-- `bind`, which has no result where its index is out of range. -/
def bindValue : Value → Option Value
  | .parameter index => args[index]?
  | v => some v

def bindCondition : Condition → Option Condition
  | .test column operator value => do
    let value ← bindValue args value
    pure (.test column operator value)
  | .and left right => do
    let left ← bindCondition left
    let right ← bindCondition right
    pure (.and left right)
  | .or left right => do
    let left ← bindCondition left
    let right ← bindCondition right
    pure (.or left right)

def bindWhere : Option Condition → Option (Option Condition)
  | none => some none
  | some c => do
    let c ← bindCondition args c
    pure (some c)

def bindSet (set : GoMap Value) : Option (GoMap Value) := do
  let entries ← set.entries.mapM fun e => do
    let v ← bindValue args e.2
    pure (e.1,v)
  pure ((∅ : GoMap Value).insertAll entries)

/-- `bindStatement` without its case for EXPLAIN. -/
def Statement.bind : Statement → Option Statement
  | .insert q => do
    let values ← q.values.mapM (bindValue args)
    pure (.insert {q with values})
  | .update q => do
    let set ← bindSet args q.set
    let condition ← bindWhere args q.condition
    pure (.update {q with set,condition})
  | .delete q => do
    let condition ← bindWhere args q.condition
    pure (.delete {q with condition})
  | .select q => do
    let condition ← bindWhere args q.condition
    pure (.select {q with condition})
  | s => some s

def bindStatement : Parsed → Option Parsed
  | .plain s => do
    let s ← s.bind args
    pure (.plain s)
  | .explain s => do
    let s ← s.bind args
    pure (.explain s)
  | s => some s

end binding

namespace Parser

def literal : Value → Option Token
  | .int i => some ⟨.number,decimalInt 0 i.toInt⟩
  | .string s => some ⟨.string,s⟩
  | .bool b => some ⟨.boolean,if b then ascii "TRUE" else ascii "FALSE"⟩
  | .nil => some ⟨.null,ascii "NULL"⟩
  | _ => none

/-- The first parameter is replaced by the literal of the first argument, the second one by that of the second one, and
so on. -/
def replaceParameters : List Token → List Value → List Token
  | [],_ => []
  | t::tokens,args =>
    if t.type = .parameter then (args.head?.bind literal).getD t::replaceParameters tokens args.tail
    else t::replaceParameters tokens args

/-- A reading that stops at a parameter, wherever it is not read by `readValue`, and at the second assignment of a
column. -/
def strict : Reading where
  look k := do
    let t ← look k
    Proc.refuse (t.type = .parameter) .misplaced
    pure t
  take := do
    let t ← look 0
    Proc.refuse (t.type = .parameter) .misplaced
    take
  assign set n v := do
    Proc.refuse ((set.lookup n).isSome = true) .misplaced
    pure (set.insert n v)

end Parser
end GoDb
