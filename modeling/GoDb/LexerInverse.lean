import GoDb.CanonicalText
import GoDb.DecimalText
import GoDb.LexerMeaning

/-! `Lex` reads the tokens of a canonical text back. -/
namespace GoDb.Lexer
open Foundation Token

/-- What follows is no part of a word, a number or an operator. -/
def Boundary (s : Bytes) : Prop := ∀ c, s.head? = some c → isWordByte c = false ∧ c ≠ 61

inductive Spelled : Token → Prop
  | word {w : Bytes} (is : Word w) : Spelled (word w)
  | negative {digits : Bytes} (some : digits ≠ []) (all : ∀ c ∈ digits, Time.isDigit c = true) :
    Spelled ⟨.number,45::digits⟩
  | string (s : Bytes) : Spelled ⟨.string,s⟩
  | symbol {c : UInt8} {t : Token} (found : symbol c = some t) : Spelled t
  | operator (o : Operator) {t : Token} (found : o.tokens = [t]) : Spelled t

variable {c : UInt8} {s : Bytes} {t : Token} {tokens : List Token} {q : Select}

theorem word_ne {d : UInt8} (is : isWordByte c = true) (other : isWordByte d = false) : c ≠ d := by
  rintro rfl
  rw [is] at other
  cases other

theorem word_space (is : isWordByte c = true) : isSpace c = false := by
  have controls : ∀ n < 14, 9 ≤ n → isWordByte (UInt8.ofNat n) = false := by decide
  have low : (9 ≤ c && c ≤ 13) = false := by
    rw [Bool.and_eq_false_iff,decide_eq_false_iff_not,decide_eq_false_iff_not,UInt8.le_iff_toNat_le,UInt8.le_iff_toNat_le,
      ← not_and_or]
    rintro ⟨least,most⟩
    have other := controls c.toNat (Nat.lt_succ_of_le most) least
    rw [UInt8.ofNat_toNat] at other
    exact word_ne is other rfl
  unfold isSpace
  rw [low,decide_eq_false (word_ne is rfl),decide_eq_false (word_ne is rfl),decide_eq_false (word_ne is rfl)]
  rfl

theorem word_symbol (is : isWordByte c = true) : Lexer.symbol c = none := by
  unfold Lexer.symbol
  rw [if_neg (word_ne is rfl),if_neg (word_ne is rfl),if_neg (word_ne is rfl),if_neg (word_ne is rfl),
    if_neg (word_ne is rfl),if_neg (word_ne is rfl)]

theorem digit_word (digit : Time.isDigit c = true) : isNumberByte c = true ∧ isWordByte c = true := by
  simp [isNumberByte,isWordByte,digit]

theorem number_word (other : isWordByte c = false) : isNumberByte c = false := by
  unfold isWordByte at other
  unfold isNumberByte
  simp only [Bool.or_eq_false_iff] at other ⊢
  exact ⟨other.1.1.2,other.2⟩

theorem span_append {p : UInt8 → Bool} {w : Bytes} (all : ∀ c ∈ w, p c = true)
    (ends : ∀ c, s.head? = some c → p c = false) : (w ++ s).takeWhile p = w ∧ (w ++ s).dropWhile p = s := by
  rw [List.takeWhile_append_of_pos all,List.dropWhile_append_of_pos all]
  cases s with
  | nil => simp
  | cons c s =>
    have stop := ends c rfl
    rw [List.takeWhile_cons_of_neg (by simp [stop]),List.dropWhile_cons_of_neg (by simp [stop])]
    exact ⟨List.append_nil w,rfl⟩

theorem spell_word (w : Bytes) : (word w).spell = w := by
  have other : wordType w ≠ .string := by
    unfold wordType
    split_ifs <;> decide
  exact if_neg other

def Reads (text : Bytes) (t : Token) (rest : Bytes) : Prop :=
  ∃ c s, text = c::s ∧ isSpace c = false ∧ ∀ n, next n c s = .ok (t,rest)

theorem reads_word {w : Bytes} (is : Word w) (boundary : Boundary s) : Reads (w ++ s) (word w) s := by
  obtain ⟨some,all⟩ := is
  cases w with
  | nil => exact absurd rfl some
  | cons c w =>
    have first := all c List.mem_cons_self
    have comparison : ¬(c = 33 ∨ c = 60 ∨ c = 62) :=
      not_or.mpr ⟨word_ne first rfl,not_or.mpr ⟨word_ne first rfl,word_ne first rfl⟩⟩
    have quote : ¬(c = 39 ∨ c = 34) := not_or.mpr ⟨word_ne first rfl,word_ne first rfl⟩
    obtain ⟨taken,left⟩ := span_append (fun d there => all d (List.mem_cons_of_mem c there)) fun d head =>
      (boundary d head).1
    refine ⟨c,w ++ s,rfl,word_space first,fun n => ?_⟩
    unfold next
    rw [if_neg fun both => word_ne first rfl both.1,if_neg (word_ne first rfl),word_symbol first]
    dsimp only
    rw [if_neg comparison,if_neg quote,if_pos first,taken,left]
    rfl

theorem reads_negative {digits : Bytes} (some : digits ≠ []) (all : ∀ c ∈ digits, Time.isDigit c = true)
    (boundary : Boundary s) : Reads (45::digits ++ s) ⟨.number,45::digits⟩ s := by
  obtain ⟨taken,left⟩ := span_append (fun c there => (digit_word (all c there)).1) fun c head =>
    number_word (boundary c head).1
  refine ⟨45,digits ++ s,rfl,rfl,fun n => ?_⟩
  cases digits with
  | nil => exact absurd rfl some
  | cons d digits =>
    have number : ((d::digits ++ s).head?.any isNumberByte) = true := (digit_word (all d List.mem_cons_self)).1
    unfold next
    rw [if_pos ⟨rfl,number⟩,taken,left]

theorem quoted_quote (text s : Bytes) :
    quoted 39 (text.flatMap (fun c => if c = 39 ∨ c = 92 then [92,c] else [c]) ++ 39::s) = some (text,s) := by
  induction text with
  | nil =>
    rw [List.flatMap_nil,List.nil_append,quoted.eq_def]
    exact if_pos rfl
  | cons c text ih =>
    rw [List.flatMap_cons,List.append_assoc]
    split_ifs with escaped
    · change (quoted 39 (text.flatMap _ ++ 39::s)).map _ = _
      rw [ih]
      rfl
    · obtain ⟨quote,backslash⟩ := not_or.mp escaped
      change quoted 39 (c::(text.flatMap _ ++ 39::s)) = _
      rw [quoted.eq_def]
      dsimp only
      rw [if_neg quote,if_neg backslash,ih]
      rfl

theorem reads_string (text s : Bytes) : Reads (quote text ++ s) ⟨.string,text⟩ s := by
  refine ⟨39,text.flatMap (fun c => if c = 39 ∨ c = 92 then [92,c] else [c]) ++ 39::s,?_,rfl,fun n => ?_⟩
  · simp [quote]
  · unfold next
    rw [if_neg fun both => absurd both.1 (by decide),if_neg (by decide)]
    simp only [show Lexer.symbol 39 = none from rfl]
    rw [if_neg (by decide),if_pos (.inl trivial),quoted_quote]

theorem reads_symbol (found : Lexer.symbol c = some t) (s : Bytes) : Reads (t.spell ++ s) t s := by
  have spelled : t.spell = [c] ∧ isSpace c = false ∧ c ≠ 45 ∧ c ≠ 63 := by
    unfold Lexer.symbol at found
    split_ifs at found with is is is is is is
    all_goals
      rw [is,← Option.some.inj found]
      decide
  obtain ⟨text,space,minus,question⟩ := spelled
  rw [text]
  refine ⟨c,s,rfl,space,fun n => ?_⟩
  unfold next
  rw [if_neg fun both => minus both.1,if_neg question,found]

theorem reads_comparison (tail : Bytes) (known : c = 33 ∨ c = 60 ∨ c = 62)
    (found : comparison c (tail ++ s) = .ok (t,s)) : Reads (c::tail ++ s) t s := by
  refine ⟨c,tail ++ s,rfl,?_,fun n => ?_⟩
  · rcases known with rfl | rfl | rfl <;> decide
  · have other : c ≠ 45 ∧ c ≠ 63 ∧ Lexer.symbol c = none := by rcases known with rfl | rfl | rfl <;> decide
    unfold next
    rw [if_neg fun both => other.1 both.1,if_neg other.2.1,other.2.2]
    dsimp only
    rw [if_pos known,found]

theorem comparison_single (other : c ≠ 33) (boundary : Boundary s) :
    comparison c s = .ok (⟨if c = 60 then .less else .greater,[c]⟩,s) := by
  unfold comparison
  split
  · exact absurd rfl (boundary 61 rfl).2
  · rw [if_neg other]

theorem reads_operator {o : Operator} (found : o.tokens = [t]) (boundary : Boundary s) :
    Reads (t.spell ++ s) t s := by
  cases o with
  | equal =>
    obtain rfl := List.cons.inj found |>.1
    exact reads_symbol (c := 61) rfl s
  | notEqual =>
    obtain rfl := List.cons.inj found |>.1
    exact reads_comparison [61] (.inl rfl) rfl
  | less =>
    obtain rfl := List.cons.inj found |>.1
    exact reads_comparison [] (.inr (.inl rfl)) (comparison_single (by decide) boundary)
  | greater =>
    obtain rfl := List.cons.inj found |>.1
    exact reads_comparison [] (.inr (.inr rfl)) (comparison_single (by decide) boundary)
  | lessEqual =>
    obtain rfl := List.cons.inj found |>.1
    exact reads_comparison [61] (.inr (.inl rfl)) rfl
  | greaterEqual =>
    obtain rfl := List.cons.inj found |>.1
    exact reads_comparison [61] (.inr (.inr rfl)) rfl
  | isNull => cases found
  | isNotNull => cases found

theorem reads_spell (spelled : Spelled t) (boundary : Boundary s) : Reads (t.spell ++ s) t s := by
  cases spelled with
  | word is =>
    rw [spell_word]
    exact reads_word is boundary
  | negative some all => exact reads_negative some all boundary
  | string text => exact reads_string text s
  | symbol found => exact reads_symbol found s
  | operator o found => exact reads_operator found boundary

def Lexes (s : Bytes) (tokens : List Token) : Prop :=
  ∀ turns out, s.length ≤ turns → lexLoop turns out s = .ok (out ++ tokens ++ [⟨.eof,[]⟩])

theorem lexes_nil : Lexes [] [] := by
  intro turns out _
  rw [List.append_nil]
  cases turns
  · rfl
  · rfl

theorem Lexes.space (lexes : Lexes s tokens) : Lexes (32::s) tokens := by
  intro turns out enough
  cases turns with
  | zero => cases enough
  | succ turns =>
    unfold lexLoop
    rw [if_pos (by decide)]
    exact lexes turns out (Nat.le_of_succ_le_succ enough)

theorem Lexes.token {text : Bytes} (reads : Reads text t s) (lexes : Lexes s tokens) : Lexes text (t::tokens) := by
  intro turns out enough
  obtain ⟨c,rest,rfl,space,found⟩ := reads
  cases turns with
  | zero => cases enough
  | succ turns =>
    have fewer := (next_inner (found 0)).1
    unfold lexLoop
    rw [if_neg (by rw [space]; decide),found]
    dsimp only
    rw [lexes turns (out ++ [t]) (fewer.trans (Nat.le_of_succ_le_succ enough)),List.append_assoc out [t] tokens]
    rfl

theorem boundary_nil : Boundary [] := nofun

theorem boundary_cons (ends : isWordByte c = false ∧ c ≠ 61) : Boundary (c::s) := by
  intro d head
  exact Option.some.inj head ▸ ends

def isMark (type : TokenType) : Bool := type = .lparen || type = .comma || type = .rparen || type = .semicolon

theorem Spelled.mark (spelled : Spelled t) (mark : isMark t.type = true) :
    ∃ c, Lexer.symbol c = some t ∧ t.spell = [c] ∧ isWordByte c = false ∧ c ≠ 61 := by
  cases spelled with
  | @word w is =>
    have other : isMark (wordType w) = false := by
      unfold wordType
      split_ifs <;> rfl
    exact absurd (other.symm.trans mark) (by decide)
  | negative => cases mark
  | string => cases mark
  | @symbol c t found =>
    refine ⟨c,found,?_⟩
    unfold Lexer.symbol at found
    split_ifs at found with is is is is is is
    all_goals
      obtain rfl := Option.some.inj found
      rw [is]
    · decide
    · decide
    · decide
    · cases mark
    · decide
    · cases mark
  | operator o found =>
    cases o
    all_goals
      obtain ⟨rfl,_⟩ := List.cons.inj found
      cases mark

theorem layout_cons (t : Token) (tokens : List Token) : ∃ s, layout (t::tokens) = t.spell ++ s := by
  cases tokens with
  | nil => exact ⟨[],(List.append_nil _).symm⟩
  | cons next tokens => exact ⟨_,List.append_assoc _ _ _⟩

theorem layout_lexes (spelled : ∀ t ∈ tokens, Spelled t) : Lexes (layout tokens) tokens := by
  induction tokens with
  | nil => exact lexes_nil
  | cons t tokens ih =>
    have first := spelled t List.mem_cons_self
    have rest := ih fun u there => spelled u (List.mem_cons_of_mem t there)
    cases tokens with
    | nil =>
      apply Lexes.token _ lexes_nil
      have reads := reads_spell first boundary_nil
      rwa [List.append_nil] at reads
    | cons next tokens =>
      rw [layout,List.append_assoc]
      cases glue : t.glued next with
      | false => exact Lexes.token (reads_spell first (boundary_cons (by decide))) rest.space
      | true =>
        apply Lexes.token _ rest
        rw [if_pos rfl,List.nil_append]
        by_cases opens : t.type = .lparen
        · obtain ⟨c,found,_⟩ := first.mark (by rw [opens]; rfl)
          exact reads_symbol found _
        · -- The token that follows is a parenthesis, a comma or a semicolon.
          have mark : isMark next.type = true := by
            unfold glued at glue
            unfold isMark
            rw [decide_eq_false opens] at glue
            generalize next.type = type at glue ⊢
            revert glue
            cases type <;> simp
          obtain ⟨c,_,text,ends⟩ := (spelled next (List.mem_cons_of_mem t List.mem_cons_self)).mark mark
          obtain ⟨s,same⟩ := layout_cons next tokens
          apply reads_spell first
          rw [same,text]
          exact boundary_cons ends

theorem lex_layout (spelled : ∀ t ∈ tokens, Spelled t) :
    lex (layout tokens) = .ok (tokens ++ [⟨.eof,[]⟩]) := layout_lexes spelled _ [] (Nat.le_refl _)

theorem layout_semicolon (some : tokens ≠ []) : layout (tokens ++ [semicolon]) = layout tokens ++ ascii ";" := by
  induction tokens with
  | nil => exact absurd rfl some
  | cons t tokens ih =>
    cases tokens with
    | nil =>
      have glue : t.glued semicolon = true := by simp [glued,semicolon]
      change t.spell ++ (if t.glued semicolon then [] else [32]) ++ layout [semicolon] = t.spell ++ ascii ";"
      rw [glue,if_pos rfl,List.append_nil]
      rfl
    | cons next tokens =>
      rw [layout,List.append_assoc,← ih (List.cons_ne_nil _ _)]
      rfl

/-! The tokens of a statement have a text. -/

def AllSpelled (tokens : List Token) : Prop := ∀ t ∈ tokens, Spelled t

namespace AllSpelled

variable {t : Token} {first second : List Token}

theorem nil : AllSpelled [] := List.forall_mem_nil _

theorem cons (head : Spelled t) (tail : AllSpelled first) : AllSpelled (t::first) := List.forall_mem_cons.mpr ⟨head,tail⟩

theorem append (left : AllSpelled first) (right : AllSpelled second) : AllSpelled (first ++ second) :=
  List.forall_mem_append.mpr ⟨left,right⟩

theorem commas {items : List (List Token)} (each : ∀ item ∈ items, AllSpelled item) : AllSpelled (commas items) := by
  induction items with
  | nil => exact nil
  | cons item items ih =>
    have first := each item List.mem_cons_self
    have rest := ih fun other there => each other (List.mem_cons_of_mem item there)
    cases items with
    | nil => exact first
    | cons next items => exact first.append (rest.cons (.symbol (c := 44) rfl))

theorem commas_map {α : Type} {f : α → List Token} {items : List α} (each : ∀ a ∈ items, AllSpelled (f a)) :
    AllSpelled (Token.commas (items.map f)) := by
  apply commas
  intro item there
  obtain ⟨a,member,rfl⟩ := List.mem_map.mp there
  exact each a member

end AllSpelled

theorem lparen_spelled : Spelled lparen := .symbol (c := 40) rfl

theorem rparen_spelled : Spelled rparen := .symbol (c := 41) rfl

theorem equal_spelled : Spelled Token.equal := .symbol (c := 61) rfl

theorem keyword_spelled (w : String) (is : Word (ascii w)) : Spelled (keyword w) := .word is

theorem decimal_word (n : Nat) : Word (decimal 0 n) :=
  ⟨decimal_ne_nil n,fun _ there => (digit_word (decimal_digits there)).2⟩

theorem literal_spelled {v : Value} (made : Parser.literal v = some t) : Spelled t := by
  cases v with
  | int i =>
    obtain rfl := Option.some.inj made
    have read := atoi_decimalInt i
    unfold decimalInt at read ⊢
    split_ifs at read ⊢ with negative
    · exact .negative (decimal_ne_nil _) fun _ => decimal_digits
    · have type : wordType (decimal 0 i.toInt.natAbs) = .number := by
        unfold wordType
        rw [read]
        rfl
      exact type ▸ .word (decimal_word i.toInt.natAbs)
  | string s =>
    obtain rfl := Option.some.inj made
    exact .string s
  | bool b =>
    obtain rfl := Option.some.inj made
    cases b
    · exact .word (w := ascii "FALSE") (by decide)
    · exact .word (w := ascii "TRUE") (by decide)
  | nil =>
    obtain rfl := Option.some.inj made
    exact .word (w := ascii "NULL") (by decide)
  | _ => cases made

theorem value_spelled (v : Value) : AllSpelled v.tokens := by
  intro t there
  exact literal_spelled (Option.mem_toList.mp there)

theorem operator_spelled (o : Operator) : AllSpelled o.tokens := by
  cases o with
  | isNull => exact .cons (keyword_spelled _ (by decide)) (.cons (keyword_spelled _ (by decide)) .nil)
  | isNotNull =>
    exact .cons (keyword_spelled _ (by decide)) (.cons (keyword_spelled _ (by decide))
      (.cons (keyword_spelled _ (by decide)) .nil))
  | equal => exact .cons (.operator .equal rfl) .nil
  | notEqual => exact .cons (.operator .notEqual rfl) .nil
  | less => exact .cons (.operator .less rfl) .nil
  | greater => exact .cons (.operator .greater rfl) .nil
  | lessEqual => exact .cons (.operator .lessEqual rfl) .nil
  | greaterEqual => exact .cons (.operator .greaterEqual rfl) .nil

theorem placed_spelled {c : Condition} (level : Nat) (all : AllSpelled tokens) :
    AllSpelled (c.placed level tokens) := by
  unfold Condition.placed
  split_ifs
  · exact .append (.cons lparen_spelled all) (.cons rparen_spelled .nil)
  · exact all

theorem condition_spelled {c : Condition} (printable : c.Printable) : AllSpelled c.tokens := by
  induction c with
  | test column operator value =>
    apply AllSpelled.append
    · exact .cons (.word printable.1) (operator_spelled operator)
    · split_ifs
      · exact .nil
      · exact value_spelled value
  | and left right leftSpelled rightSpelled =>
    exact .append (placed_spelled 1 (leftSpelled printable.1))
      (.cons (keyword_spelled _ (by decide)) (placed_spelled 2 (rightSpelled printable.2)))
  | or left right leftSpelled rightSpelled =>
    exact .append (placed_spelled 0 (leftSpelled printable.1))
      (.cons (keyword_spelled _ (by decide)) (placed_spelled 1 (rightSpelled printable.2)))

theorem where_spelled {w : Option Condition} (printable : WherePrintable w) : AllSpelled (whereTokens w) := by
  cases w with
  | none => exact .nil
  | some c => exact .cons (keyword_spelled _ (by decide)) (condition_spelled (printable c rfl))

theorem name_spelled {name : Bytes} (is : Select.Name name) : Spelled (Select.nameToken name) := by
  unfold Select.nameToken
  split_ifs with star
  · exact .symbol (c := 42) rfl
  · exact .word (is.resolve_right star)

theorem columnTokens_name {name : Bytes} (is : Select.Name name) : Select.columnTokens name = [Select.nameToken name] := by
  apply if_neg
  intro there
  rcases is with word | rfl
  · exact absurd (word.2 40 (List.contains_iff_mem.mp there)) (by decide)
  · revert there
    decide

theorem aggregate_word {fn : Bytes} (known : fn ∈ Select.aggregates) : Word fn := by
  revert fn
  decide

theorem columnTokens_aggregate {fn name : Bytes} (known : fn ∈ Select.aggregates) :
    Select.columnTokens (fn ++ ascii "(" ++ name ++ ascii ")") = [word fn,lparen,Select.nameToken name,rparen] := by
  have plain : ∀ c ∈ fn, (c != 40) = true := by
    intro c there
    rw [bne_iff_ne]
    exact word_ne ((aggregate_word known).2 c there) rfl
  have ends : ∀ c, (40::name ++ [41] : Bytes).head? = some c → (c != 40) = false := by
    intro c head
    obtain rfl := Option.some.inj head
    rfl
  obtain ⟨taken,left⟩ := span_append plain ends
  have text : fn ++ ascii "(" ++ name ++ ascii ")" = fn ++ (40::name ++ [41]) := by
    rw [List.append_assoc,List.append_assoc]
    rfl
  unfold Select.columnTokens
  rw [text,if_pos (by simp),taken,left]
  simp

theorem column_spelled {column : Bytes} (printable : Select.ColumnPrintable column) :
    AllSpelled (Select.columnTokens column) := by
  rcases printable with name | ⟨fn,known,name,is,rfl⟩
  · rw [columnTokens_name name]
    exact .cons (name_spelled name) .nil
  · rw [columnTokens_aggregate known]
    exact .cons (.word (aggregate_word known)) (.cons lparen_spelled (.cons (name_spelled is) (.cons rparen_spelled .nil)))

theorem words_spelled {names : List Bytes} (all : ∀ c ∈ names, Word c) :
    AllSpelled (commas (names.map fun c => [word c])) :=
  .commas_map fun c there => .cons (.word (all c there)) .nil

theorem bound_spelled (name : String) (is : Word (ascii name)) (absent bound : Int64) :
    AllSpelled (Select.boundTokens name absent bound) := by
  unfold Select.boundTokens
  split_ifs
  · exact .nil
  · exact .cons (keyword_spelled name is) (value_spelled _)

theorem join_spelled (printable : q.Printable) : AllSpelled q.joinTokens := by
  unfold Select.joinTokens
  split_ifs with none
  · exact .nil
  · rcases printable.join with ⟨absent,_⟩ | ⟨table,left,right⟩
    · exact absurd absent none
    · exact .cons (keyword_spelled _ (by decide)) (.cons (.word table) (.cons (keyword_spelled _ (by decide))
        (.cons (.word left) (.cons equal_spelled (.cons (.word right) .nil)))))

theorem group_spelled (printable : q.Printable) : AllSpelled q.groupTokens := by
  unfold Select.groupTokens
  split_ifs
  · exact .nil
  · exact .cons (keyword_spelled _ (by decide)) (.cons (keyword_spelled _ (by decide)) (words_spelled printable.groupBy))

theorem order_spelled (printable : q.Printable) : AllSpelled q.orderTokens := by
  unfold Select.orderTokens
  split_ifs with none desc
  · exact .nil
  all_goals
    have is : Word q.orderBy := printable.orderBy.resolve_left fun absent => none absent.1
    apply AllSpelled.cons (keyword_spelled _ (by decide))
    apply AllSpelled.cons (keyword_spelled _ (by decide))
    apply AllSpelled.cons (.word is)
  · exact .cons (keyword_spelled _ (by decide)) .nil
  · exact .nil

theorem select_spelled (printable : q.Printable) : AllSpelled q.tokens := by
  apply AllSpelled.append
  · exact .cons (keyword_spelled _ (by decide)) (.commas_map fun c there => column_spelled (printable.column c there))
  apply AllSpelled.append
  · exact .cons (keyword_spelled _ (by decide)) (.cons (.word printable.table) (join_spelled printable))
  apply AllSpelled.append (where_spelled printable.condition)
  apply AllSpelled.append (group_spelled printable)
  apply AllSpelled.append (order_spelled printable)
  exact .append (bound_spelled _ (by decide) _ _) (bound_spelled _ (by decide) _ _)

theorem insert_spelled {q : Insert} (printable : q.Printable) : AllSpelled q.tokens := by
  apply AllSpelled.append
  · exact .cons (keyword_spelled _ (by decide)) (.cons (keyword_spelled _ (by decide)) (.cons (.word printable.table)
      (.cons lparen_spelled (words_spelled printable.column))))
  apply AllSpelled.append
  · exact .cons rparen_spelled (.cons (keyword_spelled _ (by decide)) (.cons lparen_spelled
      (.commas_map fun v _ => value_spelled v)))
  · exact .cons rparen_spelled .nil

theorem update_spelled {q : Update} (printable : q.Printable) : AllSpelled q.tokens := by
  apply AllSpelled.append _ (where_spelled printable.condition)
  apply AllSpelled.cons (keyword_spelled _ (by decide))
  apply AllSpelled.cons (.word printable.table)
  apply AllSpelled.cons (keyword_spelled _ (by decide))
  exact .commas_map fun e there => .cons (.word (printable.columns e there)) (.cons equal_spelled (value_spelled e.2))

theorem delete_spelled {q : Delete} (printable : q.Printable) : AllSpelled q.tokens :=
  .cons (keyword_spelled _ (by decide)) (.cons (keyword_spelled _ (by decide)) (.cons (.word printable.table)
    (where_spelled printable.condition)))

theorem constraint_spelled {c : ColumnConstraint} (printable : c.Printable) : AllSpelled c.tokens := by
  apply AllSpelled.append
  · split_ifs
    · exact .cons (keyword_spelled _ (by decide)) (.cons (keyword_spelled _ (by decide)) .nil)
    · exact .nil
  apply AllSpelled.append
  · split_ifs
    · exact .cons (keyword_spelled _ (by decide)) .nil
    · exact .nil
  · cases found : c.references with
    | none => exact .nil
    | some r =>
      obtain ⟨table,column⟩ := printable r found
      exact .cons (keyword_spelled _ (by decide)) (.cons (.word table) (.cons lparen_spelled (.cons (.word column)
        (.cons rparen_spelled .nil))))

theorem type_spelled (type : ColumnType) : Spelled (keyword type.word) := by
  apply keyword_spelled
  cases type <;> decide

theorem create_spelled {q : CreateTable} (printable : q.Printable) : AllSpelled q.tokens := by
  apply AllSpelled.append _ (.cons rparen_spelled .nil)
  apply AllSpelled.cons (keyword_spelled _ (by decide))
  apply AllSpelled.cons (keyword_spelled _ (by decide))
  apply AllSpelled.cons (.word printable.table)
  apply AllSpelled.cons lparen_spelled
  apply AllSpelled.commas_map
  intro c there
  apply AllSpelled.cons (.word (printable.names c there))
  apply AllSpelled.cons (type_spelled c.type)
  cases found : q.constraints.lookup c.name with
  | none => exact .nil
  | some constraint => exact constraint_spelled (printable.constraint c.name constraint found)

theorem statement_spelled {s : Statement} (printable : s.Printable) : AllSpelled s.tokens := by
  cases s with
  | begin => exact .cons (keyword_spelled _ (by decide)) .nil
  | commit => exact .cons (keyword_spelled _ (by decide)) .nil
  | rollback => exact .cons (keyword_spelled _ (by decide)) .nil
  | insert q => exact insert_spelled printable
  | select q => exact select_spelled printable
  | update q => exact update_spelled printable
  | delete q => exact delete_spelled printable
  | createTable q => exact create_spelled printable

theorem alteration_spelled {a : Alteration} (printable : a.Printable) : AllSpelled a.tokens := by
  cases a with
  | add c =>
    exact .cons (keyword_spelled _ (by decide)) (.cons (keyword_spelled _ (by decide)) (.cons (.word printable)
      (.cons (type_spelled c.type) .nil)))
  | drop name =>
    exact .cons (keyword_spelled _ (by decide)) (.cons (keyword_spelled _ (by decide)) (.cons (.word printable) .nil))
  | rename name newName =>
    exact .cons (keyword_spelled _ (by decide)) (.cons (keyword_spelled _ (by decide)) (.cons (.word printable.1)
      (.cons (keyword_spelled _ (by decide)) (.cons (.word printable.2) .nil))))

theorem parsed_spelled {s : Parsed} (printable : s.Printable) : AllSpelled s.tokens := by
  cases s with
  | plain s => exact statement_spelled printable
  | explain s => exact .cons (keyword_spelled _ (by decide)) (statement_spelled printable.2)
  | explainTable table =>
    exact .cons (keyword_spelled _ (by decide)) (.cons (keyword_spelled _ (by decide)) (.cons (.word printable) .nil))
  | listTables => exact .cons (keyword_spelled _ (by decide)) (.cons (keyword_spelled _ (by decide)) .nil)
  | dropTable q =>
    exact .cons (keyword_spelled _ (by decide)) (.cons (keyword_spelled _ (by decide)) (.cons (.word printable) .nil))
  | alterTable q =>
    exact .cons (keyword_spelled _ (by decide)) (.cons (keyword_spelled _ (by decide)) (.cons (.word printable.1)
      (alteration_spelled printable.2)))

theorem statement_tokens (s : Statement) : s.tokens ≠ [] := by
  cases s <;> exact List.cons_ne_nil _ _

theorem parsed_tokens (s : Parsed) : s.tokens ≠ [] := by
  cases s with
  | plain s => exact statement_tokens s
  | _ => exact List.cons_ne_nil _ _

theorem lex_text {s : Parsed} (printable : s.Printable) :
    lex s.text = .ok (s.tokens ++ [⟨.eof,[]⟩]) ∧
      lex (s.text ++ ascii ";") = .ok (s.tokens ++ [semicolon] ++ [⟨.eof,[]⟩]) := by
  have spelled := parsed_spelled printable
  refine ⟨lex_layout spelled,?_⟩
  rw [Parsed.text,← layout_semicolon (parsed_tokens s)]
  exact lex_layout (spelled.append (.cons (.symbol (c := 59) rfl) .nil))

end GoDb.Lexer
