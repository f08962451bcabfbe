import GoDb.Lexer
import GoDb.Foundation.Outcome

/-! The parser of `sql/sql.go`. It is written over the way it reads its tokens, of which
`plain` is the one of the source. -/
namespace GoDb
open Foundation Outcome

/-- What `Parse` returns. -/
inductive Parsed
  | plain (s : Statement)
  | explain (s : Statement)
  | explainTable (table : Bytes)
  | listTables
  | dropTable (q : DropTable)
  | alterTable (q : AlterTable)
  deriving DecidableEq

structure Parser where
  t : List Token
  p : Nat

abbrev ParserM := Proc SyntaxError Parser

/-- How the parser reads: `p.t[p.p+k]`, `take`, and `set[n] = v`. -/
structure Reading where
  look : Nat → ParserM Token
  take : ParserM Unit
  assign : GoMap Value → Bytes → Value → ParserM (GoMap Value)

namespace Parser

def look (k : Nat) : ParserM Token := do
  let s ← get
  match s.t[s.p + k]? with
  | some t => pure t
  | none => throw .outOfRange

def take : ParserM Unit := modify fun s => if s.p < s.t.length - 1 then {s with p := s.p + 1} else s

def plain : Reading := ⟨look,take,fun set n v => pure (set.insert n v)⟩

/-- `value`. The number of a parameter is not negative in the tokens of `Lex`. -/
def value (t : Token) : Except SyntaxError Value :=
  match t.type with
  | .parameter =>
    match atoi (if t.lexeme.head? = some 36 then t.lexeme.tail else t.lexeme) with
    | .error _ => .error .invalidParameter
    | .ok i => .ok (.parameter i.toInt.toNat)
  | .number =>
    if 46 ∈ t.lexeme then
      match parseFloat t.lexeme with
      | .error e => .error (.parseFloat t.lexeme e)
      | .ok bits => .ok (.float bits)
    else
      match atoi t.lexeme with
      | .error e => .error (.atoi t.lexeme e)
      | .ok i => .ok (.int i)
  | .string => .ok (.string t.lexeme)
  | .boolean => .ok (.bool (foldsTo t.lexeme (ascii "true")))
  | .null => .ok .nil
  | _ => .error .expectedValue

/-- `value(p.cur())` and `take`, in a value list, in a SET and in a comparison. -/
def readValue : ParserM Value := do
  let t ← look 0
  let v ← Proc.of (value t)
  take
  pure v

def turns {α : Type} (loop : Nat → ParserM α) : ParserM α := do
  let s ← get
  loop s.t.length

/-- The types that a comparison operator may have. Its lexeme says the same. -/
def operatorOf : TokenType → Option Operator
  | .equal => some .equal
  | .notEqual => some .notEqual
  | .less => some .less
  | .greater => some .greater
  | .lessEqual => some .lessEqual
  | .greaterEqual => some .greaterEqual
  | _ => none

def columnType (name : Bytes) : Except SyntaxError ColumnType :=
  let is (words : List String) : Bool := words.any fun word => upperIs name (ascii word)
  if is ["INT"] then .ok .int
  else if is ["STRING","TEXT"] then .ok .string
  else if is ["BOOL","BOOLEAN"] then .ok .bool
  else if is ["FLOAT","REAL","DOUBLE"] then .ok .float
  else if is ["BYTES","BLOB"] then .ok .bytes
  else if is ["TIMESTAMP"] then .ok .timestamp
  else .error (.unknownType name)

/-- `isAggregateName`, with the name in capital letters. -/
def aggregateName (s : Bytes) : Option Bytes := (["COUNT","SUM","AVG","MIN","MAX"].map ascii).find? (upperIs s)

section reading

variable (r : Reading)

/-- `strings.EqualFold(p.cur().Lexeme, word)`. -/
def is (word : String) : ParserM Bool := do
  let t ← r.look 0
  pure (foldsTo t.lexeme (ascii word))

def isType (type : TokenType) : ParserM Bool := do
  let t ← r.look 0
  pure (t.type = type)

def word : ParserM Bytes := do
  let t ← r.look 0
  r.take
  pure t.lexeme

def want (s : String) : ParserM Unit := do
  let t ← r.look 0
  if foldsTo t.lexeme (ascii s) then r.take else throw (.expected (ascii s) t.lexeme)

def takeIf (b : Bool) : ParserM Unit := if b then r.take else pure ()

/-- `for { ...; if p.cur().Type != Comma { break }; p.take() }`, for some number of turns. -/
def commaList {α : Type} (item : ParserM α) : Nat → ParserM (List α)
  | 0 => throw .diverges
  | turns+1 => do
    let a ← item
    if ← isType r .comma then
      r.take
      let rest ← commaList item turns
      pure (a::rest)
    else pure [a]

/-- The loops of `parseOr` and `parseAnd`. -/
def chain (word : String) (join : Condition → Condition → Condition) (operand : ParserM Condition) :
    Nat → Condition → ParserM Condition
  | 0,_ => throw .diverges
  | turns+1,left => do
    if ← is r word then
      r.take
      let right ← operand
      chain word join operand turns (join left right)
    else pure left

/-- A test of `parsePrimary`, behind its column. -/
def test (col : Bytes) : ParserM Condition := do
  if ← is r "IS" then
    r.take
    let negated ← is r "NOT"
    takeIf r negated
    let null ← is r "NULL"
    Proc.refuse (null = false) .nullAfterIs
    r.take
    pure (.test col (if negated then .isNotNull else .isNull) .nil)
  else
    let t ← r.look 0
    match operatorOf t.type with
    | none => throw .comparisonOperator
    | some op =>
      r.take
      let v ← readValue
      pure (.test col op v)

def parsePrimary (parseOr : ParserM Condition) : ParserM Condition := do
  if ← isType r .lparen then
    r.take
    let c ← parseOr
    want r ")"
    pure c
  else
    let col ← word r
    test r col

def parseAnd (parseOr : ParserM Condition) : ParserM Condition := do
  let left ← parsePrimary r parseOr
  turns fun n => chain r "AND" .and (parsePrimary r parseOr) n left

/-- `parseOr`, down to some depth of parentheses. -/
def parseOr : Nat → ParserM Condition
  | 0 => throw .diverges
  | depth+1 => do
    let left ← parseAnd r (parseOr depth)
    turns fun n => chain r "OR" .or (parseAnd r (parseOr depth)) n left

def condition : ParserM (Option Condition) := do
  if ← is r "WHERE" then
    r.take
    let c ← turns (parseOr r)
    pure (some c)
  else pure none

def selectColumn : ParserM Bytes := do
  let t ← r.look 0
  match aggregateName t.lexeme with
  | none => word r
  | some fn =>
    let t ← r.look 1
    if t.type = .lparen then
      r.take
      r.take
      let arg ← word r
      want r ")"
      pure (fn ++ ascii "(" ++ arg ++ ascii ")")
    else word r

/-- Whether a JOIN follows, and whether an INNER is in front of it. -/
def atJoin : ParserM (Bool × Bool) := do
  if ← is r "JOIN" then pure (true,false)
  else if ← is r "INNER" then
    let t ← r.look 1
    pure (foldsTo t.lexeme (ascii "JOIN"),true)
  else pure (false,false)

/-- The JOIN of a SELECT: its table and its two columns, or nothing. -/
def join : ParserM (Bytes × Bytes × Bytes) := do
  let (joins,inner) ← atJoin r
  if joins then
    takeIf r inner
    r.take
    let table ← word r
    want r "ON"
    let left ← word r
    want r "="
    let right ← word r
    pure (table,left,right)
  else pure ([],[],[])

/-- `value(p.cur())` of a LIMIT or OFFSET, and `n.(int)`. -/
def readInt : ParserM Int64 := do
  let t ← r.look 0
  let v ← Proc.of (value t)
  match v with
  | .int i =>
    r.take
    pure i
  | _ => throw .assertion

def groupBy : ParserM (List Bytes) := do
  if ← is r "GROUP" then
    r.take
    want r "BY"
    turns (commaList r (word r))
  else pure []

def orderBy : ParserM (Bytes × Bool) := do
  if ← is r "ORDER" then
    r.take
    want r "BY"
    let column ← word r
    let asc ← is r "ASC"
    let desc ← is r "DESC"
    takeIf r (asc || desc)
    pure (column,desc)
  else pure ([],false)

/-- A LIMIT or OFFSET, or what stands for none. -/
def bound (name : String) (absent : Int64) : ParserM Int64 := do
  if ← is r name then
    r.take
    readInt r
  else pure absent

def selectStmt : ParserM Statement := do
  r.take
  let columns ← turns (commaList r (selectColumn r))
  want r "FROM"
  let table ← word r
  let (joinTable,joinLeft,joinRight) ← join r
  let w ← condition r
  let groups ← groupBy r
  let (order,desc) ← orderBy r
  let limit ← bound r "LIMIT" (-1)
  let offset ← bound r "OFFSET" 0
  pure (.select ⟨columns,table,w,order,desc,limit,offset,groups,joinTable,joinLeft,joinRight⟩)

def insertStmt : ParserM Statement := do
  r.take
  want r "INTO"
  let table ← word r
  want r "("
  let columns ← turns (commaList r (word r))
  want r ")"
  want r "VALUES"
  want r "("
  let values ← turns (commaList r readValue)
  want r ")"
  Proc.refuse (columns.length ≠ values.length) .countMismatch
  pure (.insert ⟨table,columns,values⟩)

/-- The loop of `updateStmt`. -/
def assignments : Nat → GoMap Value → ParserM (GoMap Value)
  | 0,_ => throw .diverges
  | turns+1,set => do
    let n ← word r
    want r "="
    let v ← readValue
    let set ← r.assign set n v
    if ← isType r .comma then
      r.take
      assignments turns set
    else pure set

def updateStmt : ParserM Statement := do
  r.take
  let table ← word r
  want r "SET"
  let set ← turns fun n => assignments r n ∅
  let w ← condition r
  pure (.update ⟨table,set,w⟩)

def deleteStmt : ParserM Statement := do
  r.take
  want r "FROM"
  let table ← word r
  let w ← condition r
  pure (.delete ⟨table,w⟩)

/-- The loop of `createStmt` over the constraints of a column. -/
def constraintLoop : Nat → ColumnConstraint → ParserM ColumnConstraint
  | 0,_ => throw .diverges
  | turns+1,c => do
    if ← is r "NOT" then
      r.take
      want r "NULL"
      constraintLoop turns {c with notNull := true}
    else if ← is r "UNIQUE" then
      r.take
      constraintLoop turns {c with unique := true}
    else if ← is r "REFERENCES" then
      r.take
      let table ← word r
      want r "("
      let column ← word r
      want r ")"
      constraintLoop turns {c with references := some ⟨table,column⟩}
    else pure c

def createColumn : ParserM (Column × ColumnConstraint) := do
  let n ← word r
  let typ ← word r
  let ct ← Proc.of (columnType typ)
  let c ← turns fun n => constraintLoop r n ⟨false,false,none⟩
  pure (⟨n,ct⟩,c)

def createStmt : ParserM Statement := do
  r.take
  want r "TABLE"
  let table ← word r
  want r "("
  let columns ← turns (commaList r (createColumn r))
  want r ")"
  pure (.createTable ⟨table,columns.map Prod.fst,(∅ : GoMap ColumnConstraint).insertAll (columns.map fun c => (c.1.name,c.2))⟩)

def dropStmt : ParserM Parsed := do
  r.take
  if ← is r "TABLE" then
    r.take
    let n ← word r
    pure (.dropTable ⟨n⟩)
  else throw .expectedTable

def alterStmt : ParserM Parsed := do
  r.take
  want r "TABLE"
  let table ← word r
  let action ← word r
  if upperIs action (ascii "ADD") then
    want r "COLUMN"
    let n ← word r
    let typ ← word r
    let ct ← Proc.of (columnType typ)
    pure (.alterTable ⟨table,.add ⟨n,ct⟩⟩)
  else if upperIs action (ascii "DROP") then
    want r "COLUMN"
    let n ← word r
    pure (.alterTable ⟨table,.drop n⟩)
  else if upperIs action (ascii "RENAME") then
    want r "COLUMN"
    let n ← word r
    want r "TO"
    let newName ← word r
    pure (.alterTable ⟨table,.rename n newName⟩)
  else throw .alterAction

def explainStmt : ParserM Parsed := do
  let t ← r.look 0
  Proc.refuse (t.type = .eof ∨ t.type = .semicolon) .statementAfterExplain
  if foldsTo t.lexeme (ascii "TABLE") then
    r.take
    let t ← r.look 0
    Proc.refuse (t.type = .eof ∨ t.type = .semicolon) .tableAfterExplain
    let table ← word r
    pure (.explainTable table)
  else if foldsTo t.lexeme (ascii "SELECT") then Parsed.explain <$> selectStmt r
  else if foldsTo t.lexeme (ascii "INSERT") then Parsed.explain <$> insertStmt r
  else if foldsTo t.lexeme (ascii "UPDATE") then Parsed.explain <$> updateStmt r
  else if foldsTo t.lexeme (ascii "DELETE") then Parsed.explain <$> deleteStmt r
  else throw .explainSupports

def listStmt (first : String) : ParserM Parsed := do
  want r first
  want r "TABLES"
  pure .listTables

def control (s : Statement) : ParserM Parsed := do
  r.take
  pure (.plain s)

def statement : ParserM Parsed := do
  let t ← r.look 0
  let is (word : String) : Bool := foldsTo t.lexeme (ascii word)
  if is "BEGIN" then control r .begin
  else if is "COMMIT" then control r .commit
  else if is "ROLLBACK" then control r .rollback
  else if is "EXPLAIN" then do
    r.take
    explainStmt r
  else if is "SELECT" then Parsed.plain <$> selectStmt r
  else if is "INSERT" then Parsed.plain <$> insertStmt r
  else if is "CREATE" then Parsed.plain <$> createStmt r
  else if is "DROP" then dropStmt r
  else if is "ALTER" then alterStmt r
  else if is "UPDATE" then Parsed.plain <$> updateStmt r
  else if is "DELETE" then Parsed.plain <$> deleteStmt r
  else if is "SHOW" then listStmt r "SHOW"
  else if is "LIST" then listStmt r "LIST"
  else throw .expectedStatement

/-- `Parse`, behind `Lex`. -/
def whole : ParserM Parsed := do
  let s ← statement r
  let ended ← isType r .semicolon
  takeIf r ended
  let t ← r.look 0
  Proc.refuse (t.type ≠ .eof) (.afterSemicolon t.lexeme)
  pure s

end reading

def parseTokens (r : Reading) (t : List Token) : Except SyntaxError Parsed := ((whole r).exec ⟨t,0⟩).1

def parse (input : Bytes) : Except SyntaxError Parsed :=
  match Lexer.lex input with
  | .error e => .error e
  | .ok t => parseTokens plain t

end Parser
end GoDb
