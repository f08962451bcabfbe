import GoDb.LexerMeaning
import GoDb.ParserReading

/-! Which inputs make `Parse` panic. The loops end, since each turn takes a token that is
not EOF, and no index is out of range; the type assertions at LIMIT and OFFSET fail on
values that are no integers. -/
namespace GoDb.Parser
open Foundation Outcome

/-- LIMIT or OFFSET, and behind it a token that is a value and no integer. -/
def BadBound (tokens : List Token) (i : Nat) : Prop :=
  ∃ t next v, tokens[i]? = some t ∧
    (foldsTo t.lexeme (ascii "LIMIT") = true ∨ foldsTo t.lexeme (ascii "OFFSET") = true) ∧
    tokens[i + 1]? = some next ∧ value next = .ok v ∧ ∀ n, v ≠ .int n

/-- The errors that may come of these tokens. -/
structure Allowed (tokens : List Token) (e : SyntaxError) : Prop where
  inside : e ≠ .outOfRange
  ends : e ≠ .diverges
  asserts : e = .assertion → ∃ i, BadBound tokens i

/-- The parser has gone on among the same tokens, and a failure is one that may come of them. -/
structure Fine {α : Type} (s : Parser) (result : Except SyntaxError α × Parser) : Prop where
  tokens : result.2.t = s.t
  forward : s.p ≤ result.2.p
  ready : result.2.Ready
  allowed : ∀ e, result.1 = .error e → Allowed s.t e

variable {α β : Type} {s s' : Parser} {x : ParserM α} {e : SyntaxError} {n : Nat}

theorem value_allowed {t : Token} (failed : value t = .error e) (tokens : List Token) : Allowed tokens e := by
  unfold value at failed
  repeat' split at failed
  all_goals
    first
      | (obtain rfl := Except.error.inj failed
         exact ⟨nofun,nofun,nofun⟩)
      | cases failed

theorem columnType_allowed {name : Bytes} (failed : columnType name = .error e) (tokens : List Token) :
    Allowed tokens e := by
  unfold columnType at failed
  dsimp only at failed
  split_ifs at failed
  obtain rfl := Except.error.inj failed
  exact ⟨nofun,nofun,nofun⟩

namespace Fine

theorem refl (ready : s.Ready) (a : α) : Fine s (Except.ok a,s) := ⟨rfl,Nat.le_refl _,ready,nofun⟩

theorem error (ready : s.Ready) (allowed : Allowed s.t e) : Fine s ((Except.error e : Except SyntaxError α),s) :=
  ⟨rfl,Nat.le_refl _,ready,fun _ same => Except.error.inj same ▸ allowed⟩

theorem advance (ready : s.Ready) (a : α) : Fine s (Except.ok a,s.advance) := by
  refine ⟨?_,?_,ready.advance,nofun⟩
  · unfold Parser.advance
    split_ifs <;> rfl
  · unfold Parser.advance
    split_ifs
    · exact Nat.le_succ _
    · exact Nat.le_refl _

theorem after {a : α} {result : Except SyntaxError β × Parser} (first : Fine s (Except.ok a,s'))
    (second : Fine s' result) : Fine s result where
  tokens := second.tokens.trans first.tokens
  forward := first.forward.trans second.forward
  ready := second.ready
  allowed e failed := (show s'.t = s.t from first.tokens) ▸ second.allowed e failed

theorem left_le {result : Except SyntaxError α × Parser} (fine : Fine s result) : result.2.left ≤ s.left := by
  have forward := fine.forward
  unfold left
  rw [fine.tokens]
  omega

theorem bind {f : α → ParserM β} (first : Fine s (x.exec s))
    (next : ∀ a s', s'.Ready → s'.t = s.t → s'.left ≤ s.left → Fine s' ((f a).exec s')) :
    Fine s ((x >>= f).exec s) := by
  rw [exec_bind]
  have fewer := first.left_le
  generalize x.exec s = result at first fewer ⊢
  rcases result with ⟨e | a,s'⟩
  · exact ⟨first.tokens,first.forward,first.ready,
      fun e' failed => first.allowed e' (congrArg Except.error (Except.error.inj failed))⟩
  · exact first.after (next a s' first.ready first.tokens fewer)

end Fine

def Safe (x : ParserM α) : Prop := ∀ s : Parser, s.Ready → Fine s (x.exec s)

namespace Safe

theorem bind {f : α → ParserM β} (first : Safe x) (next : ∀ a, Safe (f a)) : Safe (x >>= f) := fun s ready =>
  Fine.bind (first s ready) fun a s' ready' _ _ => next a s' ready'

theorem pure (a : α) : Safe (Pure.pure a) := fun _ ready => Fine.refl ready a

theorem throw (allowed : ∀ tokens, Allowed tokens e) : Safe (MonadExcept.throw e : ParserM α) :=
  fun s ready => Fine.error ready (allowed s.t)

theorem of {r : Except SyntaxError α} (allowed : ∀ e, r = .error e → ∀ tokens, Allowed tokens e) :
    Safe (Proc.of r) := by
  intro s ready
  rw [exec_of]
  cases r with
  | error e => exact Fine.error ready (allowed e rfl s.t)
  | ok a => exact Fine.refl ready a

theorem refuse (p : Prop) [Decidable p] (allowed : ∀ tokens, Allowed tokens e) : Safe (Proc.refuse p e) := by
  intro s ready
  rw [exec_refuse]
  split_ifs
  · exact Fine.error ready (allowed s.t)
  · exact Fine.refl ready ()

theorem ite {p : Prop} [Decidable p] {y : ParserM α} (yes : Safe x) (no : Safe y) : Safe (if p then x else y) := by
  split_ifs
  · exact yes
  · exact no

end Safe

theorem take_safe : Safe plain.take := fun _ ready => Fine.advance ready ()

theorem takeIf_safe (b : Bool) : Safe (takeIf plain b) := Safe.ite take_safe (Safe.pure ())

theorem look_safe : Safe (plain.look 0) := by
  intro s ready
  rw [plain_look ready]
  exact Fine.refl ready _

theorem is_safe (w : String) : Safe (is plain w) := Safe.bind look_safe fun _ => Safe.pure _

theorem isType_safe (type : TokenType) : Safe (isType plain type) := Safe.bind look_safe fun _ => Safe.pure _

theorem word_safe : Safe (word plain) := Safe.bind look_safe fun _ => Safe.bind take_safe fun _ => Safe.pure _

theorem want_safe (w : String) : Safe (want plain w) :=
  Safe.bind look_safe fun _ => Safe.ite take_safe (Safe.throw fun _ => ⟨nofun,nofun,nofun⟩)

theorem readValue_safe : Safe readValue := by
  apply Safe.bind look_safe
  intro t
  apply Safe.bind (Safe.of fun e failed => value_allowed failed)
  intro v
  exact Safe.bind take_safe fun _ => Safe.pure v

theorem Fine.of_take (ready : s.Ready) (some : s.cur ≠ eof) {f : Unit → ParserM β}
    (next : ∀ s', s'.Ready → s'.t = s.t → s'.left < s.left → Fine s' ((f ()).exec s')) :
    Fine s ((plain.take >>= f).exec s) := by
  rw [exec_bind_ok (plain_take s)]
  have taken : Fine s (Except.ok (),s.advance) := Fine.advance ready ()
  exact taken.after (next s.advance taken.ready taken.tokens (ready.advance_left some))

theorem commaList_fine {item : ParserM α} (items : Safe item) (ready : s.Ready) (enough : s.left ≤ n) :
    Fine s ((commaList plain item n).exec s) := by
  induction n generalizing s with
  | zero => exact absurd (Nat.le_zero.mp enough) ready.left_pos.ne'
  | succ n ih =>
    unfold commaList
    apply Fine.bind (items s ready)
    intro a s₁ ready₁ _ fewer
    rw [exec_bind_ok (isType_exec ready₁ _)]
    split_ifs with comma
    · apply Fine.of_take ready₁
      · intro last
        rw [last] at comma
        cases comma
      · intro s₂ ready₂ _ less
        apply Fine.bind (ih ready₂ (by omega))
        intro rest s₃ ready₃ _ _
        exact Safe.pure _ s₃ ready₃
    · exact Safe.pure _ s₁ ready₁

theorem turns_safe {loop : Nat → ParserM α}
    (fine : ∀ {n} {s : Parser}, s.Ready → s.left ≤ n → Fine s ((loop n).exec s)) : Safe (turns loop) := by
  intro s ready
  rw [turns_exec]
  exact fine ready (Nat.sub_le _ _)

theorem commaList_safe {item : ParserM α} (items : Safe item) : Safe (turns (commaList plain item)) :=
  turns_safe (commaList_fine items)

theorem chain_fine {w : String} {join : Condition → Condition → Condition} {operand : ParserM Condition} {m : Nat}
    (nonempty : ascii w ≠ []) (operands : ∀ s : Parser, s.Ready → s.left ≤ m → Fine s (operand.exec s))
    {c : Condition} (ready : s.Ready) (small : s.left ≤ m) (enough : s.left ≤ n) :
    Fine s ((chain plain w join operand n c).exec s) := by
  induction n generalizing s c with
  | zero => exact absurd (Nat.le_zero.mp enough) ready.left_pos.ne'
  | succ n ih =>
    unfold chain
    rw [exec_bind_ok (is_exec ready w)]
    split_ifs with folds
    · apply Fine.of_take ready (cur_ne_eof nonempty folds)
      intro s₁ ready₁ _ less
      apply Fine.bind (operands s₁ ready₁ (by omega))
      intro right s₂ ready₂ _ fewer
      exact ih ready₂ (by omega) (by omega)
    · exact Safe.pure _ s ready

theorem test_safe (col : Bytes) : Safe (test plain col) := by
  apply Safe.bind (is_safe _)
  intro null
  apply Safe.ite
  · apply Safe.bind take_safe
    intro _
    apply Safe.bind (is_safe _)
    intro negated
    apply Safe.bind (takeIf_safe _)
    intro _
    apply Safe.bind (is_safe _)
    intro found
    apply Safe.bind (Safe.refuse _ (e := .nullAfterIs) fun _ => ⟨nofun,nofun,nofun⟩)
    intro _
    exact Safe.bind take_safe fun _ => Safe.pure _
  · apply Safe.bind look_safe
    intro t
    split
    · exact Safe.throw fun _ => ⟨nofun,nofun,nofun⟩
    · exact Safe.bind take_safe fun _ => Safe.bind readValue_safe fun _ => Safe.pure _

theorem parsePrimary_fine {inner : ParserM Condition} {m : Nat}
    (inners : ∀ s : Parser, s.Ready → s.left ≤ m → Fine s (inner.exec s)) (ready : s.Ready) (small : s.left ≤ m + 1) :
    Fine s ((parsePrimary plain inner).exec s) := by
  unfold parsePrimary
  rw [exec_bind_ok (isType_exec ready _)]
  split_ifs with paren
  · apply Fine.of_take ready
    · intro last
      rw [last] at paren
      cases paren
    · intro s₁ ready₁ _ less
      apply Fine.bind (inners s₁ ready₁ (by omega))
      intro c s₂ ready₂ _ _
      exact Safe.bind (want_safe _) (fun _ => Safe.pure _) s₂ ready₂
  · exact Safe.bind word_safe test_safe s ready

theorem parseAnd_fine {inner : ParserM Condition} {m : Nat}
    (inners : ∀ s : Parser, s.Ready → s.left ≤ m → Fine s (inner.exec s)) (ready : s.Ready) (small : s.left ≤ m + 1) :
    Fine s ((parseAnd plain inner).exec s) := by
  unfold parseAnd
  apply Fine.bind (parsePrimary_fine inners ready small)
  intro left s₁ ready₁ _ fewer
  rw [turns_exec]
  exact chain_fine (by decide) (fun s ready => parsePrimary_fine inners ready) ready₁ (by omega) (Nat.sub_le _ _)

theorem parseOr_fine {depth : Nat} (ready : s.Ready) (small : s.left ≤ depth) :
    Fine s ((parseOr plain depth).exec s) := by
  induction depth generalizing s with
  | zero => exact absurd (Nat.le_zero.mp small) ready.left_pos.ne'
  | succ depth ih =>
    have inners : ∀ s : Parser, s.Ready → s.left ≤ depth → Fine s ((parseOr plain depth).exec s) := fun s => ih
    unfold parseOr
    apply Fine.bind (parseAnd_fine inners ready small)
    intro left s₁ ready₁ _ fewer
    rw [turns_exec]
    exact chain_fine (by decide) (fun s ready => parseAnd_fine inners ready) ready₁ (by omega) (Nat.sub_le _ _)

theorem condition_safe : Safe (condition plain) := by
  apply Safe.bind (is_safe _)
  intro there
  apply Safe.ite
  · apply Safe.bind take_safe
    intro _
    exact Safe.bind (turns_safe parseOr_fine) fun _ => Safe.pure _
  · exact Safe.pure _

theorem look_next (ready : s.Ready) (some : s.cur ≠ eof) : ∃ t, (plain.look 1).exec s = (.ok t,s) := by
  have more : s.p + 1 < s.t.length := by
    have behind := ready.behind some
    omega
  exact ⟨s.t[s.p + 1],look_of (List.getElem?_eq_getElem more)⟩

theorem aggregateName_ne_eof {name : Bytes} (found : aggregateName s.cur.lexeme = some name) : s.cur ≠ eof := by
  intro last
  rw [last] at found
  cases found

theorem selectColumn_safe : Safe (selectColumn plain) := by
  intro s ready
  unfold selectColumn
  rw [exec_bind_ok (plain_look ready)]
  split
  · exact word_safe s ready
  · rename_i fn found
    obtain ⟨t,next⟩ := look_next ready (aggregateName_ne_eof found)
    rw [exec_bind_ok next]
    apply Safe.ite _ word_safe s ready
    apply Safe.bind take_safe
    intro _
    apply Safe.bind take_safe
    intro _
    apply Safe.bind word_safe
    intro arg
    exact Safe.bind (want_safe _) fun _ => Safe.pure _

theorem atJoin_safe : Safe (atJoin plain) := by
  intro s ready
  unfold atJoin
  rw [exec_bind_ok (is_exec ready _)]
  split_ifs
  · exact Safe.pure _ s ready
  · rw [exec_bind_ok (is_exec ready _)]
    split_ifs with inner
    · obtain ⟨t,next⟩ := look_next ready (cur_ne_eof (by decide) inner)
      rw [exec_bind_ok next]
      exact Safe.pure _ s ready
    · exact Safe.pure _ s ready

theorem join_safe : Safe (join plain) := by
  apply Safe.bind atJoin_safe
  rintro ⟨joins,inner⟩
  apply Safe.ite
  · apply Safe.bind (takeIf_safe _)
    intro _
    apply Safe.bind take_safe
    intro _
    apply Safe.bind word_safe
    intro table
    apply Safe.bind (want_safe _)
    intro _
    apply Safe.bind word_safe
    intro left
    apply Safe.bind (want_safe _)
    intro _
    exact Safe.bind word_safe fun _ => Safe.pure _
  · exact Safe.pure _

theorem groupBy_safe : Safe (groupBy plain) := by
  apply Safe.bind (is_safe _)
  intro there
  apply Safe.ite
  · apply Safe.bind take_safe
    intro _
    exact Safe.bind (want_safe _) fun _ => commaList_safe word_safe
  · exact Safe.pure _

theorem orderBy_safe : Safe (orderBy plain) := by
  apply Safe.bind (is_safe _)
  intro there
  apply Safe.ite
  · apply Safe.bind take_safe
    intro _
    apply Safe.bind (want_safe _)
    intro _
    apply Safe.bind word_safe
    intro column
    apply Safe.bind (is_safe _)
    intro asc
    apply Safe.bind (is_safe _)
    intro desc
    exact Safe.bind (takeIf_safe _) fun _ => Safe.pure _
  · exact Safe.pure _

theorem readInt_fine {i : Nat} {t : Token} (ready : s.Ready) (behind : s.p = i + 1) (here : s.t[i]? = some t)
    (name : foldsTo t.lexeme (ascii "LIMIT") = true ∨ foldsTo t.lexeme (ascii "OFFSET") = true) :
    Fine s ((readInt plain).exec s) := by
  unfold readInt
  rw [exec_bind_ok (plain_look ready),exec_bind,exec_of]
  cases read : value s.cur with
  | error e => exact Fine.error ready (value_allowed read s.t)
  | ok v =>
    have bad (other : ∀ n, v ≠ .int n) : Fine s ((throw .assertion : ParserM Int64).exec s) :=
      Fine.error ready ⟨nofun,nofun,fun _ => ⟨i,t,s.cur,v,here,name,behind ▸ ready.cur,read,other⟩⟩
    cases v with
    | int n => exact Safe.bind take_safe (fun _ => Safe.pure n) s ready
    | _ => exact bad nofun

theorem bound_safe {name : String} (absent : Int64) (known : name = "LIMIT" ∨ name = "OFFSET") :
    Safe (bound plain name absent) := by
  intro s ready
  unfold bound
  rw [exec_bind_ok (is_exec ready _)]
  split_ifs with there
  · have nonempty : ascii name ≠ [] := by rcases known with rfl | rfl <;> decide
    have before := ready.behind (cur_ne_eof nonempty there)
    rw [exec_bind_ok (plain_take s)]
    apply (Fine.advance ready ()).after
    have moved : s.advance = {s with p := s.p + 1} := if_pos before
    have ready' := ready.advance
    rw [moved] at ready' ⊢
    apply readInt_fine ready' rfl ready.cur
    rcases known with rfl | rfl
    · exact .inl there
    · exact .inr there
  · exact Safe.pure _ s ready

theorem selectStmt_safe : Safe (selectStmt plain) := by
  apply Safe.bind take_safe
  intro _
  apply Safe.bind (commaList_safe selectColumn_safe)
  intro columns
  apply Safe.bind (want_safe _)
  intro _
  apply Safe.bind word_safe
  intro table
  apply Safe.bind join_safe
  rintro ⟨joinTable,joinLeft,joinRight⟩
  apply Safe.bind condition_safe
  intro w
  apply Safe.bind groupBy_safe
  intro groups
  apply Safe.bind orderBy_safe
  rintro ⟨order,desc⟩
  apply Safe.bind (bound_safe _ (.inl rfl))
  intro limit
  exact Safe.bind (bound_safe _ (.inr rfl)) fun _ => Safe.pure _

theorem insertStmt_safe : Safe (insertStmt plain) := by
  apply Safe.bind take_safe
  intro _
  apply Safe.bind (want_safe _)
  intro _
  apply Safe.bind word_safe
  intro table
  apply Safe.bind (want_safe _)
  intro _
  apply Safe.bind (commaList_safe word_safe)
  intro columns
  apply Safe.bind (want_safe _)
  intro _
  apply Safe.bind (want_safe _)
  intro _
  apply Safe.bind (want_safe _)
  intro _
  apply Safe.bind (commaList_safe readValue_safe)
  intro values
  apply Safe.bind (want_safe _)
  intro _
  exact Safe.bind (Safe.refuse _ (e := .countMismatch) fun _ => ⟨nofun,nofun,nofun⟩) fun _ => Safe.pure _

theorem assignments_fine {set : GoMap Value} (ready : s.Ready) (enough : s.left ≤ n) :
    Fine s ((assignments plain n set).exec s) := by
  induction n generalizing s set with
  | zero => exact absurd (Nat.le_zero.mp enough) ready.left_pos.ne'
  | succ n ih =>
    unfold assignments
    apply Fine.bind (word_safe s ready)
    intro name s₁ ready₁ _ fewer₁
    apply Fine.bind (want_safe _ s₁ ready₁)
    intro _ s₂ ready₂ _ fewer₂
    apply Fine.bind (readValue_safe s₂ ready₂)
    intro v s₃ ready₃ _ fewer₃
    apply Fine.bind (Safe.pure (set.insert name v) s₃ ready₃)
    intro set' s₄ ready₄ _ fewer₄
    rw [exec_bind_ok (isType_exec ready₄ _)]
    split_ifs with comma
    · apply Fine.of_take ready₄
      · intro last
        rw [last] at comma
        cases comma
      · intro s₅ ready₅ _ less
        exact ih ready₅ (by omega)
    · exact Safe.pure _ s₄ ready₄

theorem updateStmt_safe : Safe (updateStmt plain) := by
  apply Safe.bind take_safe
  intro _
  apply Safe.bind word_safe
  intro table
  apply Safe.bind (want_safe _)
  intro _
  apply Safe.bind (turns_safe assignments_fine)
  intro set
  exact Safe.bind condition_safe fun _ => Safe.pure _

theorem deleteStmt_safe : Safe (deleteStmt plain) := by
  apply Safe.bind take_safe
  intro _
  apply Safe.bind (want_safe _)
  intro _
  apply Safe.bind word_safe
  intro table
  exact Safe.bind condition_safe fun _ => Safe.pure _

theorem constraintLoop_fine {c : ColumnConstraint} (ready : s.Ready) (enough : s.left ≤ n) :
    Fine s ((constraintLoop plain n c).exec s) := by
  induction n generalizing s c with
  | zero => exact absurd (Nat.le_zero.mp enough) ready.left_pos.ne'
  | succ n ih =>
    unfold constraintLoop
    rw [exec_bind_ok (is_exec ready _)]
    split_ifs with here
    · apply Fine.of_take ready (cur_ne_eof (by decide) here)
      intro s₁ ready₁ _ less
      apply Fine.bind (want_safe _ s₁ ready₁)
      intro _ s₂ ready₂ _ fewer
      exact ih ready₂ (by omega)
    rw [exec_bind_ok (is_exec ready _)]
    split_ifs with here
    · apply Fine.of_take ready (cur_ne_eof (by decide) here)
      intro s₁ ready₁ _ less
      exact ih ready₁ (by omega)
    rw [exec_bind_ok (is_exec ready _)]
    split_ifs with here
    · apply Fine.of_take ready (cur_ne_eof (by decide) here)
      intro s₁ ready₁ _ less
      apply Fine.bind (word_safe s₁ ready₁)
      intro table s₂ ready₂ _ fewer₂
      apply Fine.bind (want_safe _ s₂ ready₂)
      intro _ s₃ ready₃ _ fewer₃
      apply Fine.bind (word_safe s₃ ready₃)
      intro column s₄ ready₄ _ fewer₄
      apply Fine.bind (want_safe _ s₄ ready₄)
      intro _ s₅ ready₅ _ fewer₅
      exact ih ready₅ (by omega)
    · exact Safe.pure _ s ready

theorem columnType_safe (name : Bytes) : Safe (Proc.of (columnType name)) :=
  Safe.of fun _ failed => columnType_allowed failed

theorem createColumn_safe : Safe (createColumn plain) := by
  apply Safe.bind word_safe
  intro n
  apply Safe.bind word_safe
  intro typ
  apply Safe.bind (columnType_safe typ)
  intro ct
  exact Safe.bind (turns_safe constraintLoop_fine) fun _ => Safe.pure _

theorem createStmt_safe : Safe (createStmt plain) := by
  apply Safe.bind take_safe
  intro _
  apply Safe.bind (want_safe _)
  intro _
  apply Safe.bind word_safe
  intro table
  apply Safe.bind (want_safe _)
  intro _
  apply Safe.bind (commaList_safe createColumn_safe)
  intro columns
  exact Safe.bind (want_safe _) fun _ => Safe.pure _

theorem dropStmt_safe : Safe (dropStmt plain) := by
  apply Safe.bind take_safe
  intro _
  apply Safe.bind (is_safe _)
  intro there
  apply Safe.ite
  · exact Safe.bind take_safe fun _ => Safe.bind word_safe fun _ => Safe.pure _
  · exact Safe.throw fun _ => ⟨nofun,nofun,nofun⟩

theorem alterStmt_safe : Safe (alterStmt plain) := by
  apply Safe.bind take_safe
  intro _
  apply Safe.bind (want_safe _)
  intro _
  apply Safe.bind word_safe
  intro table
  apply Safe.bind word_safe
  intro action
  apply Safe.ite
  · apply Safe.bind (want_safe _)
    intro _
    apply Safe.bind word_safe
    intro n
    apply Safe.bind word_safe
    intro typ
    exact Safe.bind (columnType_safe typ) fun _ => Safe.pure _
  apply Safe.ite
  · exact Safe.bind (want_safe _) fun _ => Safe.bind word_safe fun _ => Safe.pure _
  apply Safe.ite
  · apply Safe.bind (want_safe _)
    intro _
    apply Safe.bind word_safe
    intro n
    exact Safe.bind (want_safe _) fun _ => Safe.bind word_safe fun _ => Safe.pure _
  · exact Safe.throw fun _ => ⟨nofun,nofun,nofun⟩

theorem Safe.map {f : α → β} (safe : Safe x) : Safe (f <$> x) := by
  rw [← bind_pure_comp]
  exact Safe.bind safe fun _ => Safe.pure _

theorem explainStmt_safe : Safe (explainStmt plain) := by
  apply Safe.bind look_safe
  intro t
  apply Safe.bind (Safe.refuse _ (e := .statementAfterExplain) fun _ => ⟨nofun,nofun,nofun⟩)
  intro _
  apply Safe.ite
  · apply Safe.bind take_safe
    intro _
    apply Safe.bind look_safe
    intro t
    apply Safe.bind (Safe.refuse _ (e := .tableAfterExplain) fun _ => ⟨nofun,nofun,nofun⟩)
    intro _
    exact Safe.bind word_safe fun _ => Safe.pure _
  apply Safe.ite selectStmt_safe.map
  apply Safe.ite insertStmt_safe.map
  apply Safe.ite updateStmt_safe.map
  apply Safe.ite deleteStmt_safe.map
  exact Safe.throw fun _ => ⟨nofun,nofun,nofun⟩

theorem listStmt_safe (first : String) : Safe (listStmt plain first) := by
  apply Safe.bind (want_safe _)
  intro _
  exact Safe.bind (want_safe _) fun _ => Safe.pure _

theorem control_safe (s : Statement) : Safe (control plain s) := Safe.bind take_safe fun _ => Safe.pure _

theorem statement_safe : Safe (statement plain) := by
  apply Safe.bind look_safe
  intro t
  apply Safe.ite (control_safe _)
  apply Safe.ite (control_safe _)
  apply Safe.ite (control_safe _)
  apply Safe.ite (Safe.bind take_safe fun _ => explainStmt_safe)
  apply Safe.ite selectStmt_safe.map
  apply Safe.ite insertStmt_safe.map
  apply Safe.ite createStmt_safe.map
  apply Safe.ite dropStmt_safe
  apply Safe.ite alterStmt_safe
  apply Safe.ite updateStmt_safe.map
  apply Safe.ite deleteStmt_safe.map
  apply Safe.ite (listStmt_safe _)
  apply Safe.ite (listStmt_safe _)
  exact Safe.throw fun _ => ⟨nofun,nofun,nofun⟩

theorem whole_safe : Safe (whole plain) := by
  apply Safe.bind statement_safe
  intro statement
  apply Safe.bind (isType_safe _)
  intro ended
  apply Safe.bind (takeIf_safe _)
  intro _
  apply Safe.bind look_safe
  intro t
  exact Safe.bind (Safe.refuse _ (e := .afterSemicolon t.lexeme) fun _ => ⟨nofun,nofun,nofun⟩) fun _ => Safe.pure _

theorem parseTokens_allowed {tokens body : List Token} (lexed : Lexer.Lexed tokens body)
    (failed : parseTokens plain tokens = .error e) : Allowed tokens e := by
  have ready : Ready ⟨tokens,0⟩ := by
    rw [lexed.ended]
    exact ⟨by simp,by simp [eof]⟩
  exact (whole_safe _ ready).allowed e failed

end GoDb.Parser
