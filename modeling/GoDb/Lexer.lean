import GoDb.Text

/-! Tokens and `Lex` of `sql/sql.go`. A byte of the input counts as the character with its
number, so that the tests of `unicode` are those of Latin-1. -/
namespace GoDb
open Foundation

inductive TokenType
  | eof
  | keyword
  | identifier
  | number
  | string
  | boolean
  | null
  | parameter
  | comma
  | lparen
  | rparen
  | equal
  | notEqual
  | less
  | greater
  | lessEqual
  | greaterEqual
  | semicolon
  deriving DecidableEq, Repr

structure Token where
  type : TokenType
  lexeme : Bytes
  deriving DecidableEq, Repr

/-- The errors of `Lex` and `Parse`, each with its format string. -/
inductive SyntaxError
  -- "unexpected character %q" and "unterminated string"
  | unexpectedCharacter (c : UInt8)
  | unterminatedString
  -- "expected %s, got %s", "expected value" and "invalid parameter"
  | expected (word lexeme : Bytes)
  | expectedValue
  | invalidParameter
  -- The errors of `strconv.Atoi` and `strconv.ParseFloat`
  | atoi (text : Bytes) (e : NumError)
  | parseFloat (text : Bytes) (e : NumError)
  -- "column/value count mismatch", "expected comparison operator", "expected NULL after IS" and "unknown type %q"
  | countMismatch
  | comparisonOperator
  | nullAfterIs
  | unknownType (name : Bytes)
  -- "expected TABLE" and "unsupported ALTER action"
  | expectedTable
  | alterAction
  -- "expected statement after EXPLAIN", "expected table name after EXPLAIN TABLE" and
  -- "EXPLAIN supports SELECT, INSERT, UPDATE, or DELETE"
  | statementAfterExplain
  | tableAfterExplain
  | explainSupports
  -- "expected SELECT, INSERT, CREATE, ALTER, DROP, UPDATE, DELETE, SHOW TABLES, or LIST TABLES" and
  -- "unexpected token after ;: %s"
  | expectedStatement
  | afterSemicolon (lexeme : Bytes)
  -- No errors of the source: an index is out of range, a type assertion fails, a loop does not end.
  | outOfRange
  | assertion
  | diverges
  -- What only a strict reading of the tokens refuses.
  | misplaced
  deriving DecidableEq, Repr

namespace Lexer

def isSpace (c : UInt8) : Bool := 9 ≤ c && c ≤ 13 || c = 32 || c = 0x85 || c = 0xA0

def isLetter (c : UInt8) : Bool :=
  65 ≤ c && c ≤ 90 || 97 ≤ c && c ≤ 122 || c = 0xAA || c = 0xB5 || c = 0xBA || 0xC0 ≤ c && c != 0xD7 && c != 0xF7

def isWordByte (c : UInt8) : Bool := isLetter c || Time.isDigit c || c = 95 || c = 46

def isNumberByte (c : UInt8) : Bool := Time.isDigit c || c = 46

def keywords : List Bytes :=
  ["SELECT","FROM","WHERE","INSERT","INTO","VALUES","SHOW","TABLES","LIST","CREATE","TABLE","ALTER","ADD","COLUMN",
    "DROP","RENAME","TO","UPDATE","SET","DELETE","AND","OR","EXPLAIN","ORDER","BY","ASC","DESC","LIMIT","OFFSET",
    "GROUP","COUNT","SUM","AVG","MIN","MAX","BEGIN","COMMIT","ROLLBACK"].map ascii

/-- The type of a word. The source sets it anew with each test that holds; the last one counts. -/
def wordType (word : Bytes) : TokenType :=
  if (atoi word).isOk || (parseFloat word).isOk then .number
  else if upperIs word (ascii "NULL") then .null
  else if upperIs word (ascii "TRUE") || upperIs word (ascii "FALSE") then .boolean
  else if keywords.any (upperIs word) then .keyword
  else .identifier

def countParameters (tokens : List Token) : Nat := tokens.countP fun t => t.type = .parameter

def symbol (c : UInt8) : Option Token :=
  if c = 44 then some ⟨.comma,ascii ","⟩
  else if c = 40 then some ⟨.lparen,ascii "("⟩
  else if c = 41 then some ⟨.rparen,ascii ")"⟩
  else if c = 61 then some ⟨.equal,ascii "="⟩
  else if c = 59 then some ⟨.semicolon,ascii ";"⟩
  else if c = 42 then some ⟨.identifier,ascii "*"⟩
  else none

def comparison (c : UInt8) (s : Bytes) : Except SyntaxError (Token × Bytes) :=
  match s with
  | 61::rest => .ok (⟨if c = 33 then .notEqual else if c = 60 then .lessEqual else .greaterEqual,[c,61]⟩,rest)
  | s =>
    if c = 33 then .error (.unexpectedCharacter c)
    else .ok (⟨if c = 60 then .less else .greater,[c]⟩,s)

/-- The text of a string up to its quote, and what is behind it. A backslash stands for the byte that follows it. -/
def quoted (quote : UInt8) : Bytes → Option (Bytes × Bytes)
  | [] => none
  | c::s =>
    if c = quote then some ([],s)
    else if c = 92 then
      match s with
      | [] => none
      | d::s => (quoted quote s).map fun (text,rest) => (d::text,rest)
    else (quoted quote s).map fun (text,rest) => (c::text,rest)

/-- One turn of the loop of `Lex` at a byte that is no space, given how many parameters there were. -/
def next (parameters : Nat) (c : UInt8) (s : Bytes) : Except SyntaxError (Token × Bytes) :=
  if c = 45 ∧ s.head?.any isNumberByte then
    .ok (⟨.number,45::s.takeWhile isNumberByte⟩,s.dropWhile isNumberByte)
  else if c = 63 then .ok (⟨.parameter,36::decimal 0 parameters⟩,s)
  else
    match symbol c with
    | some t => .ok (t,s)
    | none =>
      if c = 33 ∨ c = 60 ∨ c = 62 then comparison c s
      else if c = 39 ∨ c = 34 then
        match quoted c s with
        | none => .error .unterminatedString
        | some (text,rest) => .ok (⟨.string,text⟩,rest)
      else if isWordByte c then
        let word := c::s.takeWhile isWordByte
        .ok (⟨wordType word,word⟩,s.dropWhile isWordByte)
      else .error (.unexpectedCharacter c)

def lexLoop : Nat → List Token → Bytes → Except SyntaxError (List Token)
  | _,out,[] => .ok (out ++ [⟨.eof,[]⟩])
  | 0,_,_ => .error .diverges
  | turns+1,out,c::s =>
    if isSpace c then lexLoop turns out s
    else
      match next (countParameters out) c s with
      | .error e => .error e
      | .ok (t,rest) => lexLoop turns (out ++ [t]) rest

/-- `Lex`. No turn leaves the input as it is. -/
def lex (input : Bytes) : Except SyntaxError (List Token) := lexLoop input.length [] input

end Lexer
end GoDb
