import GoDb.LexerInverse
import GoDb.ParserReading
import GoDb.PreparedParsing

/-! The parser over the tokens that are printed for what it returns. Each procedure is
followed from the first of them to the token behind the last one. -/
namespace GoDb.Parser
open Foundation Outcome Token

variable {α β : Type} {x y z : ParserM α} {k : α → ParserM β} {v : ParserM β} {a : α} {ts us : List Token}
  {t : Token} {F G : Token → Prop}

/-- Over these tokens, with one behind them that may follow, the first procedure comes to the second one. -/
def Reads (ts : List Token) (x y : ParserM α) (follow : Token → Prop) : Prop :=
  ∀ tokens p next rest, tokens.drop p = ts ++ next::rest → follow next →
    x.exec ⟨tokens,p⟩ = y.exec ⟨tokens,p + ts.length⟩

namespace Reads

theorem refl (x : ParserM α) : Reads [] x x F := fun _ _ _ _ _ _ => rfl

theorem mono (reads : Reads ts x y F) (weaker : ∀ t, G t → F t) : Reads ts x y G :=
  fun tokens p next rest ahead follow => reads tokens p next rest ahead (weaker next follow)

theorem trans (first : Reads ts x y F) (second : Reads us y z G) (joins : ∀ next, G next → F (us.headD next)) :
    Reads (ts ++ us) x z G := by
  intro tokens p next rest ahead follow
  rw [List.append_assoc] at ahead
  have left : tokens.drop (p + ts.length) = us ++ next::rest := by
    rw [← List.drop_drop,ahead,List.drop_left]
  have begins : us ++ next::rest = us.headD next::(us ++ next::rest).tail := by
    cases us with
    | nil => rfl
    | cons u us => rfl
  rw [first tokens p _ _ (ahead.trans (congrArg (ts ++ ·) begins)) (joins next follow),
    second tokens _ next rest left follow,List.length_append,Nat.add_assoc]

theorem bind (reads : Reads ts x (pure a) F) : Reads ts (x >>= k) (k a) F := by
  intro tokens p next rest ahead follow
  exact exec_bind_ok (reads tokens p next rest ahead follow)

theorem seq (first : Reads ts x (pure a) F) (second : Reads us (k a) v G) (joins : ∀ next, G next → F (us.headD next)) :
    Reads (ts ++ us) (x >>= k) v G := trans first.bind second joins

theorem step (first : Reads [t] x (pure a) fun _ => True) (second : Reads us (k a) v G) : Reads (t::us) (x >>= k) v G :=
  seq first second fun _ _ => trivial

theorem peek (first : Reads [] x (pure a) F) (second : Reads us (k a) v G) (joins : ∀ next, G next → F (us.headD next)) :
    Reads us (x >>= k) v G := seq first second joins

theorem done (reads : Reads ts x (pure a) F) {f : α → β} : Reads ts (f <$> x) (pure (f a)) F := by
  rw [← bind_pure_comp]
  exact reads.bind

end Reads

section steps

variable {tokens rest : List Token} {p : Nat}

theorem ahead_token (ahead : tokens.drop p = t::rest) : tokens[p]? = some t := by
  have first : (tokens.drop p)[0]? = some t := by rw [ahead]; rfl
  rwa [List.getElem?_drop] at first

theorem look_reads (t : Token) : Reads [] (plain.look 0) (pure t) (· = t) := by
  intro tokens p next rest ahead follow
  obtain rfl := follow
  exact look_of (ahead_token ahead)

theorem take_reads (t : Token) : Reads [t] plain.take (pure ()) fun _ => True := by
  intro tokens p next rest ahead _
  have length : tokens.length - p = rest.length + 2 := by
    rw [← List.length_drop,ahead]
    rfl
  have more : p < tokens.length - 1 := by omega
  change (Except.ok (),if p < tokens.length - 1 then _ else _) = _
  rw [if_pos more]
  rfl

theorem is_reads (w : String) (b : Bool) : Reads [] (is plain w) (pure b) fun next => foldsTo next.lexeme (ascii w) = b := by
  intro tokens p next rest ahead follow
  unfold is
  rw [exec_bind_ok (look_reads next tokens p next rest ahead rfl)]
  exact congrArg (fun b => (Except.ok b,(⟨tokens,p⟩ : Parser))) follow

theorem isType_reads (type : TokenType) (b : Bool) :
    Reads [] (isType plain type) (pure b) fun next => decide (next.type = type) = b := by
  intro tokens p next rest ahead follow
  unfold isType
  rw [exec_bind_ok (look_reads next tokens p next rest ahead rfl)]
  exact congrArg (fun b => (Except.ok b,(⟨tokens,p⟩ : Parser))) follow

theorem word_reads (t : Token) : Reads [t] (word plain) (pure t.lexeme) fun _ => True := by
  apply Reads.peek (look_reads t)
  · exact (take_reads t).bind
  · exact fun _ _ => rfl

theorem want_reads {w : String} (folds : foldsTo t.lexeme (ascii w) = true) :
    Reads [t] (want plain w) (pure ()) fun _ => True := by
  apply Reads.peek (look_reads t)
  · rw [if_pos folds]
    exact take_reads t
  · exact fun _ _ => rfl

theorem of_reads {r : Except SyntaxError α} (ok : r = .ok a) : Reads [] (Proc.of r) (pure a) fun _ => True := by
  rw [ok]
  exact Reads.refl _

theorem refuse_reads {q : Prop} [Decidable q] (allowed : ¬q) (e : SyntaxError) :
    Reads [] (Proc.refuse q e) (pure ()) fun _ => True := by
  unfold Proc.refuse
  rw [if_neg allowed]
  exact Reads.refl _

theorem readValue_reads {v : Value} (made : literal v = some t) : Reads [t] readValue (pure v) fun _ => True := by
  apply Reads.peek (look_reads t)
  · apply Reads.peek (of_reads (value_literal made))
    · exact (take_reads t).bind
    · exact fun _ _ => trivial
  · exact fun _ _ => rfl

theorem Reads.ask {k : Bool → ParserM β} (w : String) (b : Bool) (answer : foldsTo t.lexeme (ascii w) = b)
    (second : Reads (t::us) (k b) v G) : Reads (t::us) (is plain w >>= k) v G :=
  peek (is_reads w b) second fun _ _ => answer

theorem Reads.skip (first : Reads [] x (pure a) fun _ => True) (second : Reads us (k a) v G) :
    Reads us (x >>= k) v G := peek first second fun _ _ => trivial

theorem turns_reads {loop : Nat → ParserM α} (reads : ∀ n, ts.length < n → Reads ts (loop n) (pure a) F) :
    Reads ts (turns loop) (pure a) F := by
  intro tokens p next rest ahead follow
  have length : tokens.length - p = ts.length + (rest.length + 1) := by
    rw [← List.length_drop,ahead,List.length_append]
    rfl
  exact reads tokens.length (by omega) tokens p next rest ahead follow

end steps

theorem commas_length (items : List (List Token)) : items.length ≤ (commas items).length + 1 := by
  induction items with
  | nil => exact Nat.zero_le _
  | cons item items ih =>
    cases items with
    | nil => exact Nat.le_add_left _ _
    | cons next items =>
      rw [commas,List.length_append]
      simp only [List.length_cons] at ih ⊢
      omega

theorem commaList_reads {f : α → List Token} {item : ParserM α} {items : List α} (some : items ≠ [])
    (each : ∀ a ∈ items, Reads (f a) item (pure a) F) (comma : F comma) {n : Nat} (enough : items.length ≤ n) :
    Reads (commas (items.map f)) (commaList plain item n) (pure items) fun t => F t ∧ t.type ≠ .comma := by
  induction items generalizing n with
  | nil => exact absurd rfl some
  | cons a items ih =>
    cases n with
    | zero => cases enough
    | succ n =>
      have first := each a List.mem_cons_self
      unfold commaList
      cases items with
      | nil =>
        rw [List.map_singleton,commas,← List.append_nil (f a)]
        apply Reads.seq first
        · apply Reads.peek (isType_reads .comma false)
          · exact Reads.refl _
          · exact fun next follow => decide_eq_false follow.2
        · exact fun next follow => follow.1
      | cons b items =>
        apply Reads.seq first
        · apply Reads.peek (isType_reads .comma true)
          · apply Reads.step (take_reads _)
            have rest := ih (List.cons_ne_nil _ _) (fun c there => each c (List.mem_cons_of_mem a there))
              (Nat.le_of_succ_le_succ enough)
            exact rest.bind
          · exact fun _ _ => rfl
        · exact fun _ _ => comma

theorem list_reads {f : α → List Token} {item : ParserM α} {items : List α} (some : items ≠ [])
    (each : ∀ a ∈ items, Reads (f a) item (pure a) F) (comma : F comma) :
    Reads (commas (items.map f)) (turns (commaList plain item)) (pure items) fun t => F t ∧ t.type ≠ .comma := by
  apply turns_reads
  intro n more
  apply commaList_reads some each comma
  have length := commas_length (items.map f)
  rw [List.length_map] at length
  omega

inductive Chained (w : String) (join : Condition → Condition → Condition) (operand : ParserM Condition)
    (F : Token → Prop) : Condition → List Token → Prop
  | first {c : Condition} {ts : List Token} (reads : Reads ts operand (pure c) F) : Chained w join operand F c ts
  | more {left right : Condition} {ts us : List Token} (chained : Chained w join operand F left ts)
    (reads : Reads us operand (pure right) F) :
    Chained w join operand F (join left right) (ts ++ keyword w::us)

variable {c : Condition} {column : Bytes}

theorem Chained.split {w : String} {join : Condition → Condition → Condition} {operand : ParserM Condition}
    (chained : Chained w join operand F c ts) (self : foldsTo (ascii w) (ascii w) = true) (may : F (keyword w)) :
    ∃ seed first others m, ts = first ++ others ∧ m ≤ others.length ∧ Reads first operand (pure seed) F ∧
      (∀ next, F next → F (others.headD next)) ∧
      ∀ n, Reads others (chain plain w join operand (n + m) seed) (chain plain w join operand n c) F := by
  induction chained with
  | @first c ts reads =>
    exact ⟨c,ts,[],0,(List.append_nil ts).symm,Nat.le_refl 0,reads,fun _ follow => follow,fun n => Reads.refl _⟩
  | @more left right ts us chained reads ih =>
    obtain ⟨seed,first,others,m,rfl,count,begins,follows,goes⟩ := ih
    refine ⟨seed,first,others ++ keyword w::us,m + 1,List.append_assoc _ _ _,?_,begins,?_,fun n => ?_⟩
    · rw [List.length_append,List.length_cons]
      omega
    · intro next _
      cases others with
      | nil => exact may
      | cons u others => exact follows (keyword w) may
    · rw [show n + (m + 1) = n + 1 + m by omega]
      apply Reads.trans (goes (n + 1))
      · conv => arg 2; unfold chain
        apply Reads.peek (is_reads w true)
        · apply Reads.step (take_reads _)
          exact reads.bind
        · exact fun _ _ => self
      · exact fun _ _ => may

theorem Chained.reads {w : String} {join : Condition → Condition → Condition} {operand : ParserM Condition}
    (chained : Chained w join operand F c ts) (self : foldsTo (ascii w) (ascii w) = true) (may : F (keyword w)) :
    Reads ts (operand >>= fun left => turns fun n => chain plain w join operand n left) (pure c)
      fun t => F t ∧ foldsTo t.lexeme (ascii w) = false := by
  obtain ⟨seed,first,others,m,rfl,count,begins,follows,goes⟩ := chained.split self may
  apply Reads.seq begins
  · apply turns_reads
    intro n enough
    obtain ⟨n,rfl⟩ : ∃ i, n = i + 1 + m := ⟨n - 1 - m,by omega⟩
    rw [← List.append_nil others]
    apply Reads.trans (goes (n + 1))
    · unfold chain
      apply Reads.peek (is_reads w false)
      · exact Reads.refl _
      · exact fun next follow => follow.2
    · exact fun next follow => follow.1
  · exact fun next follow => follows next follow.1

theorem value_tokens {v : Value} (printable : v.Printable) : ∃ t, literal v = some t ∧ v.tokens = [t] := by
  obtain ⟨t,made⟩ := Option.isSome_iff_exists.mp printable
  exact ⟨t,made,by rw [Value.tokens,made]; rfl⟩

theorem comparison_reads {o : Operator} {v : Value} (known : operatorOf t.type = some o)
    (other : foldsTo t.lexeme (ascii "IS") = false) (printable : v.Printable) :
    Reads (t::v.tokens) (test plain column) (pure (.test column o v)) fun _ => True := by
  obtain ⟨literal,made,tokens⟩ := value_tokens printable
  rw [tokens]
  apply Reads.ask "IS" false other
  apply Reads.peek (look_reads t)
  · rw [known]
    exact Reads.step (take_reads t) (readValue_reads made).bind
  · exact fun _ _ => rfl

theorem test_reads {o : Operator} {v : Value} (printable : (Condition.test column o v).Printable) :
    Reads (o.tokens ++ if o.testsNull then [] else v.tokens) (test plain column) (pure (.test column o v))
      fun _ => True := by
  cases o with
  | isNull =>
    obtain rfl := printable.2
    change Reads [keyword "IS",keyword "NULL"] _ _ _
    apply Reads.ask "IS" true (by decide)
    apply Reads.step (take_reads _)
    apply Reads.ask "NOT" false (by decide)
    apply Reads.skip (Reads.refl _)
    apply Reads.ask "NULL" true (by decide)
    apply Reads.skip (refuse_reads (by decide) _)
    exact (take_reads _).bind
  | isNotNull =>
    obtain rfl := printable.2
    change Reads [keyword "IS",keyword "NOT",keyword "NULL"] _ _ _
    apply Reads.ask "IS" true (by decide)
    apply Reads.step (take_reads _)
    apply Reads.ask "NOT" true (by decide)
    apply Reads.step (take_reads _)
    apply Reads.ask "NULL" true (by decide)
    apply Reads.skip (refuse_reads (by decide) _)
    exact (take_reads _).bind
  | equal => exact comparison_reads rfl rfl printable.2
  | notEqual => exact comparison_reads rfl rfl printable.2
  | less => exact comparison_reads rfl rfl printable.2
  | greater => exact comparison_reads rfl rfl printable.2
  | lessEqual => exact comparison_reads rfl rfl printable.2
  | greaterEqual => exact comparison_reads rfl rfl printable.2

theorem word_type {w : Bytes} {type : TokenType} (mark : Lexer.isMark type = true) :
    decide ((Token.word w).type = type) = false := by
  have other : Lexer.isMark (Lexer.wordType w) = false := by
    unfold Lexer.wordType
    split_ifs <;> rfl
  apply decide_eq_false
  intro same
  exact absurd ((congrArg Lexer.isMark same).symm.trans other) (by rw [mark]; decide)

def height : Condition → Nat
  | .test _ _ _ => 1
  | .and left right => max (height left) (height right) + 1
  | .or left right => max (height left) (height right) + 1

def NotAnd (t : Token) : Prop := foldsTo t.lexeme (ascii "AND") = false

def NotOr (t : Token) : Prop := foldsTo t.lexeme (ascii "OR") = false

structure Readable (c : Condition) : Prop where
  primary : ∀ d, c.level = 2 ∨ height c ≤ d →
    Reads (c.placed 2 c.tokens) (parsePrimary plain (parseOr plain d)) (pure c) fun _ => True
  conjunct : ∀ d, c.level ≠ 0 ∨ height c ≤ d → height c ≤ d + 1 →
    Chained "AND" .and (parsePrimary plain (parseOr plain d)) (fun _ => True) c (c.placed 1 c.tokens)
  disjunct : ∀ d, height c ≤ d + 1 →
    Chained "OR" .or (parseAnd plain (parseOr plain d)) NotAnd c c.tokens

theorem Readable.and (readable : Readable c) {d : Nat} (shallow : c.level ≠ 0 ∨ height c ≤ d)
    (fits : height c ≤ d + 1) : Reads (c.placed 1 c.tokens) (parseAnd plain (parseOr plain d)) (pure c) NotAnd :=
  ((readable.conjunct d shallow fits).reads (by decide) trivial).mono fun _ follow => ⟨trivial,follow⟩

theorem or_reads {d : Nat} (chained : Chained "OR" .or (parseAnd plain (parseOr plain d)) NotAnd c c.tokens) :
    Reads c.tokens (parseOr plain (d + 1)) (pure c) fun t => NotAnd t ∧ NotOr t :=
  chained.reads (by decide) (by unfold NotAnd; decide)

theorem parens_read {d : Nat}
    (chained : ∀ d, height c ≤ d + 1 → Chained "OR" .or (parseAnd plain (parseOr plain d)) NotAnd c c.tokens)
    (shallow : height c ≤ d) :
    Reads (lparen::c.tokens ++ [rparen]) (parsePrimary plain (parseOr plain d)) (pure c) fun _ => True := by
  have positive : 0 < height c := by cases c <;> exact Nat.succ_pos _
  obtain ⟨d,rfl⟩ : ∃ i, d = i + 1 := ⟨d - 1,by omega⟩
  apply Reads.peek (isType_reads .lparen true)
  · apply Reads.step (take_reads _)
    apply Reads.seq (or_reads (chained d shallow))
    · exact (want_reads (by decide)).bind
    · exact fun _ _ => ⟨rfl,rfl⟩
  · exact fun _ _ => rfl

theorem test_readable {o : Operator} {v : Value} (printable : (Condition.test column o v).Printable) :
    Readable (.test column o v) := by
  have primary (d : Nat) : Reads (Condition.test column o v).tokens (parsePrimary plain (parseOr plain d))
      (pure (.test column o v)) fun _ => True := by
    apply Reads.peek (isType_reads .lparen false)
    · exact Reads.step (word_reads _) (test_reads printable)
    · exact fun _ _ => word_type rfl
  have conjunct (d : Nat) : Chained "AND" .and (parsePrimary plain (parseOr plain d)) (fun _ => True)
      (.test column o v) (Condition.test column o v).tokens := .first (primary d)
  refine ⟨fun d _ => primary d,fun d _ _ => conjunct d,fun d _ => .first ?_⟩
  exact ((conjunct d).reads (by decide) trivial).mono fun _ follow => ⟨trivial,follow⟩

theorem and_readable {left right : Condition} (l : Readable left) (r : Readable right) :
    Readable (.and left right) := by
  have conjunct (d : Nat) (fits : height (.and left right) ≤ d + 1) :
      Chained "AND" .and (parsePrimary plain (parseOr plain d)) (fun _ => True) (.and left right)
        (Condition.and left right).tokens := by
    unfold height at fits
    exact .more (l.conjunct d (.inr (by omega)) (by omega)) (r.primary d (.inr (by omega)))
  have disjunct (d : Nat) (fits : height (.and left right) ≤ d + 1) :
      Chained "OR" .or (parseAnd plain (parseOr plain d)) NotAnd (.and left right) (Condition.and left right).tokens :=
    .first (((conjunct d fits).reads (by decide) trivial).mono fun _ follow => ⟨trivial,follow⟩)
  refine ⟨fun d shallow => ?_,fun d _ fits => conjunct d fits,disjunct⟩
  exact parens_read disjunct (shallow.resolve_left (show ¬1 = 2 by decide))

theorem or_readable {left right : Condition} (l : Readable left) (r : Readable right) :
    Readable (.or left right) := by
  have disjunct (d : Nat) (fits : height (.or left right) ≤ d + 1) :
      Chained "OR" .or (parseAnd plain (parseOr plain d)) NotAnd (.or left right) (Condition.or left right).tokens := by
    unfold height at fits
    exact .more (l.disjunct d (by omega)) (r.and (.inr (by omega)) (by omega))
  have primary (d : Nat) (shallow : height (.or left right) ≤ d) :
      Reads (lparen::(Condition.or left right).tokens ++ [rparen]) (parsePrimary plain (parseOr plain d))
        (pure (.or left right)) fun _ => True := parens_read disjunct shallow
  refine ⟨fun d shallow => ?_,fun d shallow _ => .first ?_,disjunct⟩
  · exact primary d (shallow.resolve_left (show ¬0 = 2 by decide))
  · exact primary d (shallow.resolve_left fun other => other rfl)

theorem readable (printable : c.Printable) : Readable c := by
  induction c with
  | test column operator value => exact test_readable printable
  | and left right leftReadable rightReadable =>
    exact and_readable (leftReadable printable.1) (rightReadable printable.2)
  | or left right leftReadable rightReadable =>
    exact or_readable (leftReadable printable.1) (rightReadable printable.2)

theorem height_le (c : Condition) : height c ≤ c.tokens.length := by
  have placed (level : Nat) (c : Condition) (tokens : List Token) : tokens.length ≤ (c.placed level tokens).length := by
    unfold Condition.placed
    split_ifs
    · rw [List.length_append,List.length_cons]
      omega
    · exact Nat.le_refl _
  induction c with
  | test => exact Nat.succ_le_succ (Nat.zero_le _)
  | and left right leftSmall rightSmall =>
    have first := placed 1 left left.tokens
    have second := placed 2 right right.tokens
    rw [Condition.tokens,List.length_append,List.length_cons,height]
    omega
  | or left right leftSmall rightSmall =>
    have first := placed 0 left left.tokens
    have second := placed 1 right right.tokens
    rw [Condition.tokens,List.length_append,List.length_cons,height]
    omega

theorem tree_reads (printable : c.Printable) :
    Reads c.tokens (turns (parseOr plain)) (pure c) fun t => NotAnd t ∧ NotOr t := by
  apply turns_reads
  intro n enough
  have fits := height_le c
  obtain ⟨n,rfl⟩ : ∃ i, n = i + 1 := ⟨n - 1,by omega⟩
  exact or_reads ((readable printable).disjunct n (by omega))

end GoDb.Parser
