import GoDb.Prepared

/-! The canonical text of a statement. It is laid out from the tokens of the statement,
with a space between two tokens, except next to the inner side of a parenthesis, before
a comma or a semicolon, and behind the name of an aggregate. -/
namespace GoDb
open Foundation

def Word (w : Bytes) : Prop := w ≠ [] ∧ ∀ c ∈ w, Lexer.isWordByte c = true

theorem word_iff (w : Bytes) : (w.isEmpty = false && w.all Lexer.isWordByte) = true ↔ Word w := by
  rw [Bool.and_eq_true,decide_eq_true_eq,List.isEmpty_eq_false_iff,List.all_eq_true]
  rfl

instance (w : Bytes) : Decidable (Word w) := decidable_of_iff _ (word_iff w)

namespace Token

def word (w : Bytes) : Token := ⟨Lexer.wordType w,w⟩

def keyword (w : String) : Token := word (ascii w)

def comma : Token := ⟨.comma,ascii ","⟩

def lparen : Token := ⟨.lparen,ascii "("⟩

def rparen : Token := ⟨.rparen,ascii ")"⟩

def equal : Token := ⟨.equal,ascii "="⟩

def semicolon : Token := ⟨.semicolon,ascii ";"⟩

def star : Token := ⟨.identifier,ascii "*"⟩

def quote (s : Bytes) : Bytes := 39::s.flatMap (fun c => if c = 39 ∨ c = 92 then [92,c] else [c]) ++ [39]

def spell (t : Token) : Bytes := if t.type = .string then quote t.lexeme else t.lexeme

def glued (t next : Token) : Bool :=
  t.type = .lparen || next.type = .comma || next.type = .rparen || next.type = .semicolon ||
    next.type = .lparen && (Parser.aggregateName t.lexeme).isSome

def layout : List Token → Bytes
  | [] => []
  | [t] => t.spell
  | t::next::tokens => t.spell ++ (if t.glued next then [] else [32]) ++ layout (next::tokens)

def commas : List (List Token) → List Token
  | [] => []
  | [item] => item
  | item::next::items => item ++ comma::commas (next::items)

end Token

open Token

def Value.tokens (v : Value) : List Token := (Parser.literal v).toList

def Value.Printable (v : Value) : Prop := (Parser.literal v).isSome = true

namespace Operator

def testsNull : Operator → Bool
  | .isNull => true
  | .isNotNull => true
  | _ => false

def tokens : Operator → List Token
  | .equal => [Token.equal]
  | .notEqual => [⟨.notEqual,ascii "!="⟩]
  | .less => [⟨.less,ascii "<"⟩]
  | .greater => [⟨.greater,ascii ">"⟩]
  | .lessEqual => [⟨.lessEqual,ascii "<="⟩]
  | .greaterEqual => [⟨.greaterEqual,ascii ">="⟩]
  | .isNull => [keyword "IS",keyword "NULL"]
  | .isNotNull => [keyword "IS",keyword "NOT",keyword "NULL"]

end Operator

namespace Condition

def level : Condition → Nat
  | .or _ _ => 0
  | .and _ _ => 1
  | .test _ _ _ => 2

/-- A condition with the tokens of it, in a place for conditions that bind as tight as the level says. -/
def placed (level : Nat) (c : Condition) (tokens : List Token) : List Token :=
  if c.level < level then lparen::tokens ++ [rparen] else tokens

def tokens : Condition → List Token
  | .test column operator value =>
    word column::operator.tokens ++ if operator.testsNull then [] else value.tokens
  | .and left right => placed 1 left left.tokens ++ keyword "AND"::placed 2 right right.tokens
  | .or left right => placed 0 left left.tokens ++ keyword "OR"::placed 1 right right.tokens

/-- A test for NULL has no value of its own. -/
def Printable : Condition → Prop
  | .test column operator value =>
    Word column ∧ if operator.testsNull then value = .nil else value.Printable
  | .and left right => left.Printable ∧ right.Printable
  | .or left right => left.Printable ∧ right.Printable

end Condition

def whereTokens : Option Condition → List Token
  | none => []
  | some c => keyword "WHERE"::c.tokens

def WherePrintable (w : Option Condition) : Prop := ∀ c ∈ w, c.Printable

namespace Select

def nameToken (name : Bytes) : Token := if name = ascii "*" then star else word name

def columnTokens (column : Bytes) : List Token :=
  if column.contains 40 then
    [word (column.takeWhile (· != 40)),lparen,nameToken ((column.dropWhile (· != 40)).tail.dropLast),rparen]
  else [nameToken column]

def Name (name : Bytes) : Prop := Word name ∨ name = ascii "*"

def aggregates : List Bytes := ["COUNT","SUM","AVG","MIN","MAX"].map ascii

def ColumnPrintable (column : Bytes) : Prop :=
  Name column ∨ ∃ fn ∈ aggregates, ∃ name, Name name ∧ column = fn ++ ascii "(" ++ name ++ ascii ")"

variable (q : Select)

def joinTokens : List Token :=
  if q.joinTable = [] then []
  else [keyword "JOIN",word q.joinTable,keyword "ON",word q.joinLeft,equal,word q.joinRight]

def groupTokens : List Token :=
  if q.groupBy = [] then [] else keyword "GROUP"::keyword "BY"::commas (q.groupBy.map fun c => [word c])

def orderTokens : List Token :=
  if q.orderBy = [] then []
  else keyword "ORDER"::keyword "BY"::word q.orderBy::if q.desc then [keyword "DESC"] else []

/-- A LIMIT or an OFFSET, unless it is the one of a statement without it. -/
def boundTokens (name : String) (absent bound : Int64) : List Token :=
  if bound = absent then [] else keyword name::(Value.int bound).tokens

def tokens : List Token :=
  keyword "SELECT"::commas (q.columns.map columnTokens) ++ (keyword "FROM"::word q.table::q.joinTokens ++
    (whereTokens q.condition ++ (q.groupTokens ++ (q.orderTokens ++
      (boundTokens "LIMIT" (-1) q.limit ++ boundTokens "OFFSET" 0 q.offset)))))

structure Printable : Prop where
  columns : q.columns ≠ []
  column : ∀ c ∈ q.columns, ColumnPrintable c
  table : Word q.table
  join : q.joinTable = [] ∧ q.joinLeft = [] ∧ q.joinRight = [] ∨ Word q.joinTable ∧ Word q.joinLeft ∧ Word q.joinRight
  condition : WherePrintable q.condition
  groupBy : ∀ c ∈ q.groupBy, Word c
  orderBy : q.orderBy = [] ∧ q.desc = false ∨ Word q.orderBy

end Select

namespace Insert

variable (q : Insert)

def tokens : List Token :=
  keyword "INSERT"::keyword "INTO"::word q.table::lparen::commas (q.columns.map fun c => [word c]) ++
    (rparen::keyword "VALUES"::lparen::commas (q.values.map Value.tokens) ++ [rparen])

structure Printable : Prop where
  table : Word q.table
  columns : q.columns ≠ []
  column : ∀ c ∈ q.columns, Word c
  values : ∀ v ∈ q.values, v.Printable
  count : q.columns.length = q.values.length

end Insert

namespace Update

variable (q : Update)

def assignmentTokens (e : Bytes × Value) : List Token := word e.1::equal::e.2.tokens

def tokens : List Token :=
  keyword "UPDATE"::word q.table::keyword "SET"::commas (q.set.entries.map assignmentTokens) ++ whereTokens q.condition

structure Printable : Prop where
  table : Word q.table
  assigned : q.set.entries ≠ []
  columns : ∀ e ∈ q.set.entries, Word e.1
  values : ∀ e ∈ q.set.entries, e.2.Printable
  condition : WherePrintable q.condition

end Update

namespace Delete

variable (q : Delete)

def tokens : List Token := keyword "DELETE"::keyword "FROM"::word q.table::whereTokens q.condition

structure Printable : Prop where
  table : Word q.table
  condition : WherePrintable q.condition

end Delete

def ColumnType.word : ColumnType → String
  | .int => "INT"
  | .string => "STRING"
  | .bool => "BOOL"
  | .float => "FLOAT"
  | .bytes => "BYTES"
  | .timestamp => "TIMESTAMP"

namespace ColumnConstraint

variable (c : ColumnConstraint)

def referenceTokens : Option Reference → List Token
  | none => []
  | some r => [keyword "REFERENCES",Token.word r.table,lparen,Token.word r.column,rparen]

def tokens : List Token :=
  (if c.notNull then [keyword "NOT",keyword "NULL"] else []) ++
    ((if c.unique then [keyword "UNIQUE"] else []) ++ referenceTokens c.references)

def Printable : Prop := ∀ r ∈ c.references, Word r.table ∧ Word r.column

end ColumnConstraint

namespace CreateTable

variable (q : CreateTable)

def columnTokens (c : Column) : List Token :=
  Token.word c.name::keyword c.type.word::(q.constraints.lookup c.name).elim [] ColumnConstraint.tokens

def tokens : List Token :=
  keyword "CREATE"::keyword "TABLE"::Token.word q.table::lparen::commas (q.columns.map q.columnTokens) ++ [rparen]

/-- The map has a constraint for each of the columns, and no others. -/
structure Printable : Prop where
  table : Word q.table
  columns : q.columns ≠ []
  names : ∀ c ∈ q.columns, Word c.name
  keys : ∀ name, (q.constraints.lookup name).isSome = true ↔ name ∈ q.columns.map Column.name
  constraint : ∀ name c, q.constraints.lookup name = some c → c.Printable

end CreateTable

namespace Statement

def tokens : Statement → List Token
  | .begin => [keyword "BEGIN"]
  | .commit => [keyword "COMMIT"]
  | .rollback => [keyword "ROLLBACK"]
  | .insert q => q.tokens
  | .select q => q.tokens
  | .update q => q.tokens
  | .delete q => q.tokens
  | .createTable q => q.tokens

def Printable : Statement → Prop
  | .begin => True
  | .commit => True
  | .rollback => True
  | .insert q => q.Printable
  | .select q => q.Printable
  | .update q => q.Printable
  | .delete q => q.Printable
  | .createTable q => q.Printable

def explained : Statement → Bool
  | .insert _ => true
  | .select _ => true
  | .update _ => true
  | .delete _ => true
  | _ => false

end Statement

namespace Alteration

def tokens : Alteration → List Token
  | .add c => [keyword "ADD",keyword "COLUMN",Token.word c.name,keyword c.type.word]
  | .drop name => [keyword "DROP",keyword "COLUMN",Token.word name]
  | .rename name newName =>
    [keyword "RENAME",keyword "COLUMN",Token.word name,keyword "TO",Token.word newName]

def Printable : Alteration → Prop
  | .add c => Word c.name
  | .drop name => Word name
  | .rename name newName => Word name ∧ Word newName

end Alteration

namespace Parsed

def tokens : Parsed → List Token
  | .plain s => s.tokens
  | .explain s => keyword "EXPLAIN"::s.tokens
  | .explainTable table => [keyword "EXPLAIN",keyword "TABLE",Token.word table]
  | .listTables => [keyword "SHOW",keyword "TABLES"]
  | .dropTable q => [keyword "DROP",keyword "TABLE",Token.word q.table]
  | .alterTable q => keyword "ALTER"::keyword "TABLE"::Token.word q.table::q.action.tokens

def Printable : Parsed → Prop
  | .plain s => s.Printable
  | .explain s => s.explained = true ∧ s.Printable
  | .explainTable table => Word table
  | .listTables => True
  | .dropTable q => Word q.table
  | .alterTable q => Word q.table ∧ q.action.Printable

def text (s : Parsed) : Bytes := layout s.tokens

end Parsed
end GoDb
