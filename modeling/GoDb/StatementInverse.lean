import GoDb.ParserInverse

/-! `Parse` reads a statement back from its canonical text, part by part. What may
follow each part of a SELECT is one of few tokens. -/
namespace GoDb.Parser
open Foundation Outcome Token

variable {α β : Type} {ts us : List Token} {t : Token}

def ending : List Token := [semicolon,eof]

def afterLimit : List Token := keyword "OFFSET"::ending

def afterOrder : List Token := keyword "LIMIT"::afterLimit

def afterGroup : List Token := keyword "ORDER"::afterOrder

def afterWhere : List Token := keyword "GROUP"::afterGroup

def afterJoin : List Token := keyword "WHERE"::afterWhere

theorem word_goes_on (w : Bytes) : ¬((Token.word w).type = .eof ∨ (Token.word w).type = .semicolon) :=
  not_or.mpr ⟨(Lexer.wordType_inner w).1,of_decide_eq_false (word_type rfl)⟩

variable {next : Token} {w : String} {follow : List Token} {s : Parsed}

theorem ending_comma (there : next ∈ ending) : next.type ≠ .comma := by
  rcases List.mem_cons.mp there with rfl | there
  · nofun
  · obtain rfl := List.mem_singleton.mp there
    nofun

theorem keyword_comma (others : ∀ t ∈ follow, t.type ≠ .comma) : ∀ t ∈ keyword w::follow, t.type ≠ .comma :=
  List.forall_mem_cons.mpr ⟨of_decide_eq_false (word_type rfl),others⟩

theorem ending_afterWhere : ending ⊆ afterWhere := by
  intro t there
  exact List.mem_cons_of_mem _ (List.mem_cons_of_mem _ (List.mem_cons_of_mem _ (List.mem_cons_of_mem _ there)))

theorem optional_follows (begins : us = [] ∨ ∃ rest, us = keyword w::rest) (there : next ∈ follow) :
    us.headD next ∈ keyword w::follow := by
  rcases begins with rfl | ⟨rest,rfl⟩
  · exact List.mem_cons_of_mem _ there
  · exact List.mem_cons_self

theorem headD_append (ts us : List Token) (next : Token) : (ts ++ us).headD next = ts.headD (us.headD next) := by
  cases ts with
  | nil => rfl
  | cons t ts => rfl

theorem none_folds (none : (follow.any fun t => foldsTo t.lexeme (ascii w)) = false) (there : next ∈ follow) :
    foldsTo next.lexeme (ascii w) = false := by
  rw [List.any_eq_false] at none
  exact Bool.eq_false_iff.mpr (none next there)

theorem condition_reads {w : Option Condition} (printable : WherePrintable w) :
    Reads (whereTokens w) (condition plain) (pure w) (· ∈ afterWhere) := by
  cases w with
  | none =>
    apply Reads.peek (is_reads "WHERE" false) (Reads.refl _)
    exact fun next there => none_folds (by decide) there
  | some c =>
    apply Reads.ask "WHERE" true (by decide)
    apply Reads.step (take_reads _)
    apply Reads.bind
    apply (tree_reads (printable c rfl)).mono
    exact fun next there => ⟨none_folds (by decide) there,none_folds (by decide) there⟩

theorem where_begins (w : Option Condition) : whereTokens w = [] ∨ ∃ rest, whereTokens w = keyword "WHERE"::rest := by
  cases w with
  | none => exact .inl rfl
  | some c => exact .inr ⟨c.tokens,rfl⟩

theorem name_lexeme (name : Bytes) : (Select.nameToken name).lexeme = name := by
  unfold Select.nameToken
  split_ifs with star
  · exact star.symm
  · rfl

def NotParen (t : Token) : Prop := t.type ≠ .lparen

theorem look_one {tokens rest : List Token} {p : Nat} (ahead : tokens.drop p = t::next::rest) :
    (plain.look 1).exec ⟨tokens,p⟩ = (.ok next,⟨tokens,p⟩) := by
  apply look_of
  have second : (tokens.drop p)[1]? = some next := by rw [ahead]; rfl
  rwa [List.getElem?_drop] at second

theorem column_name_reads (name : Bytes) :
    Reads [Select.nameToken name] (selectColumn plain) (pure name) NotParen := by
  have read := word_reads (Select.nameToken name)
  rw [name_lexeme] at read
  apply Reads.peek (look_reads (Select.nameToken name))
  · split
    · exact read.mono fun _ _ => trivial
    · -- The name of an aggregate, with no parenthesis behind it.
      intro tokens p next rest ahead follow
      rw [exec_bind_ok (look_one ahead),if_neg follow]
      exact read tokens p next rest ahead trivial
  · exact fun _ _ => rfl

theorem column_aggregate_reads {fn : Bytes} (known : fn ∈ Select.aggregates) (name : Bytes) :
    Reads [Token.word fn,lparen,Select.nameToken name,rparen] (selectColumn plain)
      (pure (fn ++ ascii "(" ++ name ++ ascii ")")) fun _ => True := by
  have found : aggregateName fn = some fn := by
    revert fn
    decide
  have read := word_reads (Select.nameToken name)
  rw [name_lexeme] at read
  apply Reads.peek (look_reads (Token.word fn))
  · have same : (Token.word fn).lexeme = fn := rfl
    rw [same,found]
    have behind : Reads [Token.word fn,lparen,Select.nameToken name,rparen] (do
        plain.take
        plain.take
        let arg ← word plain
        want plain ")"
        pure (fn ++ ascii "(" ++ arg ++ ascii ")")) (pure (fn ++ ascii "(" ++ name ++ ascii ")")) fun _ => True := by
      apply Reads.step (take_reads _)
      apply Reads.step (take_reads _)
      apply Reads.step read
      exact (want_reads rfl).bind
    intro tokens p next rest ahead follow
    rw [exec_bind_ok (look_one ahead),if_pos (show lparen.type = .lparen from rfl)]
    exact behind tokens p next rest ahead follow
  · exact fun _ _ => rfl

theorem column_reads {column : Bytes} (printable : Select.ColumnPrintable column) :
    Reads (Select.columnTokens column) (selectColumn plain) (pure column) NotParen := by
  rcases printable with name | ⟨fn,known,name,is,rfl⟩
  · rw [Lexer.columnTokens_name name]
    exact column_name_reads column
  · rw [Lexer.columnTokens_aggregate known]
    exact (column_aggregate_reads known name).mono fun _ _ => trivial

variable {q : Select}

theorem join_reads (printable : q.Printable) :
    Reads q.joinTokens (join plain) (pure (q.joinTable,q.joinLeft,q.joinRight)) (· ∈ afterJoin) := by
  unfold Select.joinTokens
  split_ifs with none
  · obtain ⟨table,left,right⟩ : q.joinTable = [] ∧ q.joinLeft = [] ∧ q.joinRight = [] :=
      printable.join.resolve_right fun words => words.1.1 none
    rw [table,left,right]
    have at_end : Reads [] (atJoin plain) (pure (false,false)) (· ∈ afterJoin) := by
      apply Reads.peek (is_reads "JOIN" false)
      · apply Reads.peek (is_reads "INNER" false) (Reads.refl _)
        exact fun next there => none_folds (by decide) there
      · exact fun next there => none_folds (by decide) there
    exact at_end.bind
  · have at_join : Reads [] (atJoin plain) (pure (true,false)) (· = keyword "JOIN") := by
      apply Reads.peek (is_reads "JOIN" true) (Reads.refl _)
      rintro _ rfl
      decide
    apply Reads.peek at_join
    · apply Reads.skip (Reads.refl _)
      apply Reads.step (take_reads _)
      apply Reads.step (word_reads _)
      apply Reads.step (want_reads rfl)
      apply Reads.step (word_reads _)
      apply Reads.step (want_reads rfl)
      exact (word_reads _).bind.mono fun _ _ => trivial
    · exact fun _ _ => rfl

theorem words_read {names : List Bytes} (some : names ≠ []) :
    Reads (commas (names.map fun c => [Token.word c])) (turns (commaList plain (word plain))) (pure names)
      fun t => t.type ≠ .comma :=
  (list_reads some (fun _ _ => word_reads _) trivial).mono fun _ other => ⟨trivial,other⟩

theorem group_reads (q : Select) : Reads q.groupTokens (groupBy plain) (pure q.groupBy) (· ∈ afterGroup) := by
  unfold Select.groupTokens
  split_ifs with none
  · rw [none]
    apply Reads.peek (is_reads "GROUP" false) (Reads.refl _)
    exact fun next there => none_folds (by decide) there
  · apply Reads.ask "GROUP" true (by decide)
    apply Reads.step (take_reads _)
    apply Reads.step (want_reads rfl)
    apply (words_read none).mono
    exact keyword_comma (keyword_comma (keyword_comma fun _ => ending_comma))

theorem order_reads (printable : q.Printable) :
    Reads q.orderTokens (orderBy plain) (pure (q.orderBy,q.desc)) (· ∈ afterOrder) := by
  unfold Select.orderTokens
  split_ifs with none desc
  · obtain ⟨order,asc⟩ : q.orderBy = [] ∧ q.desc = false := printable.orderBy.resolve_right fun is => is.1 none
    rw [order,asc]
    apply Reads.peek (is_reads "ORDER" false) (Reads.refl _)
    exact fun next there => none_folds (by decide) there
  all_goals
    apply Reads.ask "ORDER" true (by decide)
    apply Reads.step (take_reads _)
    apply Reads.step (want_reads rfl)
    apply Reads.step (word_reads _)
  · rw [desc]
    apply Reads.ask "ASC" false (by decide)
    apply Reads.ask "DESC" true (by decide)
    exact (take_reads _).bind.mono fun _ _ => trivial
  · rw [Bool.eq_false_iff.mpr desc]
    apply Reads.peek (is_reads "ASC" false)
    · apply Reads.peek (is_reads "DESC" false)
      · exact Reads.skip (Reads.refl _) (Reads.refl _)
      · exact fun next there => none_folds (by decide) there
    · exact fun next there => none_folds (by decide) there

theorem readInt_reads (i : Int64) : Reads (Value.int i).tokens (readInt plain) (pure i) fun _ => True := by
  apply Reads.peek (look_reads ⟨.number,decimalInt 0 i.toInt⟩)
  · apply Reads.skip (of_reads (value_literal (v := .int i) rfl))
    exact (take_reads _).bind
  · exact fun _ _ => rfl

theorem bound_reads {name : String} {absent bound : Int64} (follow : List Token)
    (self : foldsTo (ascii name) (ascii name) = true)
    (none : (follow.any fun t => foldsTo t.lexeme (ascii name)) = false) :
    Reads (Select.boundTokens name absent bound) (Parser.bound plain name absent) (pure bound) (· ∈ follow) := by
  unfold Select.boundTokens
  split_ifs with same
  · rw [same]
    apply Reads.peek (is_reads name false) (Reads.refl _)
    exact fun next there => none_folds none there
  · apply Reads.ask name true self
    apply Reads.step (take_reads _)
    exact (readInt_reads bound).mono fun _ _ => trivial

theorem bound_begins (name : String) (absent bound : Int64) :
    Select.boundTokens name absent bound = [] ∨ ∃ rest, Select.boundTokens name absent bound = keyword name::rest := by
  unfold Select.boundTokens
  split_ifs
  · exact .inl rfl
  · exact .inr ⟨_,rfl⟩

theorem order_begins (q : Select) : q.orderTokens = [] ∨ ∃ rest, q.orderTokens = keyword "ORDER"::rest := by
  unfold Select.orderTokens
  split_ifs
  · exact .inl rfl
  · exact .inr ⟨_,rfl⟩
  · exact .inr ⟨_,rfl⟩

theorem group_begins (q : Select) : q.groupTokens = [] ∨ ∃ rest, q.groupTokens = keyword "GROUP"::rest := by
  unfold Select.groupTokens
  split_ifs
  · exact .inl rfl
  · exact .inr ⟨_,rfl⟩

theorem select_reads (printable : q.Printable) :
    Reads q.tokens (selectStmt plain) (pure (.select q)) (· ∈ ending) := by
  have list := list_reads printable.columns (fun c there => column_reads (printable.column c there))
    (show NotParen comma from nofun)
  -- What may follow, part by part from the end.
  have offset (next : Token) (there : next ∈ ending) :
      (Select.boundTokens "OFFSET" 0 q.offset).headD next ∈ afterLimit := optional_follows (bound_begins _ _ _) there
  have limit (next : Token) (there : next ∈ ending) :
      (Select.boundTokens "LIMIT" (-1) q.limit ++ Select.boundTokens "OFFSET" 0 q.offset).headD next ∈ afterOrder := by
    rw [headD_append]
    exact optional_follows (bound_begins _ _ _) (offset next there)
  have order (next : Token) (there : next ∈ ending) :
      (q.orderTokens ++ (Select.boundTokens "LIMIT" (-1) q.limit ++
        Select.boundTokens "OFFSET" 0 q.offset)).headD next ∈ afterGroup := by
    rw [headD_append]
    exact optional_follows (order_begins q) (limit next there)
  have group (next : Token) (there : next ∈ ending) :
      (q.groupTokens ++ (q.orderTokens ++ (Select.boundTokens "LIMIT" (-1) q.limit ++
        Select.boundTokens "OFFSET" 0 q.offset))).headD next ∈ afterWhere := by
    rw [headD_append]
    exact optional_follows (group_begins q) (order next there)
  apply Reads.step (take_reads _)
  apply Reads.seq list
  · apply Reads.step (want_reads rfl)
    apply Reads.step (word_reads _)
    apply Reads.seq (join_reads printable)
    · apply Reads.seq (condition_reads printable.condition)
      · apply Reads.seq (group_reads q)
        · apply Reads.seq (order_reads printable)
          · apply Reads.seq (bound_reads afterLimit rfl (by decide))
            · exact (bound_reads ending rfl (by decide)).bind
            · exact offset
          · exact limit
        · exact order
      · exact group
    · intro next there
      rw [headD_append]
      exact optional_follows (where_begins _) (group next there)
  · exact fun _ _ => ⟨of_decide_eq_false (word_type rfl),of_decide_eq_false (word_type rfl)⟩

theorem insert_reads {q : Insert} (printable : q.Printable) :
    Reads q.tokens (insertStmt plain) (pure (.insert q)) fun _ => True := by
  have some : q.values ≠ [] := by
    intro none
    apply printable.columns
    rw [← List.length_eq_zero_iff,printable.count,none]
    rfl
  have each (v : Value) (there : v ∈ q.values) : Reads v.tokens readValue (pure v) fun _ => True := by
    obtain ⟨t,made,tokens⟩ := value_tokens (printable.values v there)
    rw [tokens]
    exact readValue_reads made
  have values := list_reads some each trivial
  apply Reads.step (take_reads _)
  apply Reads.step (want_reads rfl)
  apply Reads.step (word_reads _)
  apply Reads.step (want_reads rfl)
  apply Reads.seq (words_read printable.columns)
  · apply Reads.step (want_reads rfl)
    apply Reads.step (want_reads rfl)
    apply Reads.step (want_reads rfl)
    apply Reads.seq values
    · apply Reads.step (want_reads rfl)
      exact Reads.skip (refuse_reads (not_not.mpr printable.count) _) (Reads.refl _)
    · exact fun _ _ => ⟨trivial,nofun⟩
  · exact fun _ _ => nofun

theorem assignments_read {entries : List (Bytes × Value)} (some : entries ≠ [])
    (printable : ∀ e ∈ entries, e.2.Printable) {n : Nat} (enough : entries.length ≤ n) (set : GoMap Value) :
    Reads (commas (entries.map Update.assignmentTokens)) (assignments plain n set) (pure (set.insertAll entries))
      fun t => t.type ≠ .comma := by
  induction entries generalizing n set with
  | nil => exact absurd rfl some
  | cons e entries ih =>
    cases n with
    | zero => cases enough
    | succ n =>
      obtain ⟨t,made,tokens⟩ := value_tokens (printable e List.mem_cons_self)
      unfold assignments
      cases entries with
      | nil =>
        rw [List.map_singleton,commas,Update.assignmentTokens,tokens]
        apply Reads.step (word_reads _)
        apply Reads.step (want_reads rfl)
        apply Reads.step (readValue_reads made)
        apply Reads.skip (Reads.refl _)
        apply Reads.peek (isType_reads .comma false) (Reads.refl _)
        exact fun _ other => decide_eq_false other
      | cons e' entries =>
        rw [List.map_cons,List.map_cons,commas,Update.assignmentTokens,tokens]
        apply Reads.step (word_reads _)
        apply Reads.step (want_reads rfl)
        apply Reads.step (readValue_reads made)
        apply Reads.skip (Reads.refl _)
        apply Reads.peek (isType_reads .comma true)
        · apply Reads.step (take_reads _)
          exact ih (List.cons_ne_nil _ _) (fun f there => printable f (List.mem_cons_of_mem e there))
            (Nat.le_of_succ_le_succ enough) _
        · exact fun _ _ => rfl

theorem update_reads {q : Update} (printable : q.Printable) :
    Reads q.tokens (updateStmt plain) (pure (.update q)) (· ∈ ending) := by
  have set : Reads (commas (q.set.entries.map Update.assignmentTokens)) (turns fun n => assignments plain n ∅)
      (pure q.set) fun t => t.type ≠ .comma := by
    apply turns_reads
    intro n more
    have length := commas_length (q.set.entries.map Update.assignmentTokens)
    rw [List.length_map] at length
    have reads := assignments_read printable.assigned printable.values (n := n) (by omega) ∅
    rwa [SortedMap.insertAll_entries] at reads
  apply Reads.step (take_reads _)
  apply Reads.step (word_reads _)
  apply Reads.step (want_reads rfl)
  apply Reads.seq set
  · apply ((condition_reads printable.condition).mono _).bind
    exact ending_afterWhere
  · intro next there
    exact keyword_comma (fun _ => ending_comma) _ (optional_follows (where_begins _) there)

theorem delete_reads {q : Delete} (printable : q.Printable) :
    Reads q.tokens (deleteStmt plain) (pure (.delete q)) (· ∈ ending) := by
  apply Reads.step (take_reads _)
  apply Reads.step (want_reads rfl)
  apply Reads.step (word_reads _)
  apply ((condition_reads printable.condition).mono _).bind
  exact ending_afterWhere

def afterColumn : List Token := [comma,rparen]

theorem constraints_end (n : Nat) (c : ColumnConstraint) :
    Reads [] (constraintLoop plain (n + 1) c) (pure c) (· ∈ afterColumn) := by
  unfold constraintLoop
  apply Reads.peek (is_reads "NOT" false)
  · apply Reads.peek (is_reads "UNIQUE" false)
    · apply Reads.peek (is_reads "REFERENCES" false) (Reads.refl _)
      exact fun next there => none_folds (by decide) there
    · exact fun next there => none_folds (by decide) there
  · exact fun next there => none_folds (by decide) there

theorem reference_reads (r : Option Reference) (b u : Bool) {n : Nat}
    (enough : (ColumnConstraint.referenceTokens r).length < n) :
    Reads (ColumnConstraint.referenceTokens r) (constraintLoop plain n ⟨b,u,none⟩) (pure ⟨b,u,r⟩) (· ∈ afterColumn) := by
  obtain ⟨n,rfl⟩ : ∃ i, n = i + 1 := ⟨n - 1,by omega⟩
  cases r with
  | none => exact constraints_end n _
  | some r =>
    obtain ⟨n,rfl⟩ : ∃ i, n = i + 1 := ⟨n - 1,by simp only [ColumnConstraint.referenceTokens,List.length_cons] at enough; omega⟩
    rw [constraintLoop.eq_def]
    apply Reads.ask "NOT" false (by decide)
    apply Reads.ask "UNIQUE" false (by decide)
    apply Reads.ask "REFERENCES" true (by decide)
    apply Reads.step (take_reads _)
    apply Reads.step (word_reads _)
    apply Reads.step (want_reads rfl)
    apply Reads.step (word_reads _)
    exact Reads.step (want_reads rfl) (constraints_end n _)

theorem unique_reads (r : Option Reference) (b u : Bool) {n : Nat}
    (enough : ((if u then [keyword "UNIQUE"] else []) ++ ColumnConstraint.referenceTokens r).length < n) :
    Reads ((if u then [keyword "UNIQUE"] else []) ++ ColumnConstraint.referenceTokens r)
      (constraintLoop plain n ⟨b,false,none⟩) (pure ⟨b,u,r⟩) (· ∈ afterColumn) := by
  cases u with
  | false => exact reference_reads r b false enough
  | true =>
    obtain ⟨n,rfl⟩ : ∃ i, n = i + 1 := ⟨n - 1,by omega⟩
    change Reads (keyword "UNIQUE"::ColumnConstraint.referenceTokens r) _ _ _
    rw [constraintLoop.eq_def]
    apply Reads.ask "NOT" false (by decide)
    apply Reads.ask "UNIQUE" true (by decide)
    exact Reads.step (take_reads _) (reference_reads r b true (Nat.lt_of_succ_lt_succ enough))

theorem constraint_reads (c : ColumnConstraint) :
    Reads c.tokens (turns fun n => constraintLoop plain n ⟨false,false,none⟩) (pure c) (· ∈ afterColumn) := by
  apply turns_reads
  intro n enough
  rcases c with ⟨b,u,r⟩
  cases b with
  | false => exact unique_reads r false u enough
  | true =>
    obtain ⟨n,rfl⟩ : ∃ i, n = i + 1 := ⟨n - 1,by omega⟩
    change Reads (keyword "NOT"::keyword "NULL"::((if u then [keyword "UNIQUE"] else []) ++
      ColumnConstraint.referenceTokens r)) _ _ _
    rw [constraintLoop.eq_def]
    apply Reads.ask "NOT" true (by decide)
    apply Reads.step (take_reads _)
    apply Reads.step (want_reads rfl)
    exact unique_reads r true u (Nat.lt_of_succ_lt_succ (Nat.lt_of_succ_lt enough))

theorem type_reads (type : ColumnType) : columnType (ascii type.word) = .ok type := by
  cases type <;> rfl

def constraintOf (q : CreateTable) (c : Column) : ColumnConstraint :=
  (q.constraints.lookup c.name).getD ⟨false,false,none⟩

theorem constraintOf_eq {q : CreateTable} (printable : q.Printable) {c : Column} (there : c ∈ q.columns) :
    q.constraints.lookup c.name = some (constraintOf q c) := by
  obtain ⟨k,found⟩ := Option.isSome_iff_exists.mp ((printable.keys c.name).mpr (List.mem_map_of_mem there))
  rw [constraintOf,found]
  rfl

theorem createColumn_reads {q : CreateTable} (printable : q.Printable) {c : Column} (there : c ∈ q.columns) :
    Reads (q.columnTokens c) (createColumn plain) (pure (c,constraintOf q c)) (· ∈ afterColumn) := by
  unfold CreateTable.columnTokens
  rw [constraintOf_eq printable there]
  apply Reads.step (word_reads _)
  apply Reads.step (word_reads _)
  apply Reads.skip (of_reads (type_reads c.type))
  exact (constraint_reads _).bind

theorem constraints_eq {q : CreateTable} (printable : q.Printable) :
    (∅ : GoMap ColumnConstraint).insertAll (q.columns.map fun c => (c.name,constraintOf q c)) = q.constraints := by
  have keys : (q.columns.map fun c => (c.name,constraintOf q c)).map Prod.fst = q.columns.map Column.name := by
    rw [List.map_map]
    rfl
  have agree : ∀ e ∈ q.columns.map fun c => (c.name,constraintOf q c), q.constraints.lookup e.1 = some e.2 := by
    intro e there
    obtain ⟨c,member,rfl⟩ := List.mem_map.mp there
    exact constraintOf_eq printable member
  apply SortedMap.ext
  intro name
  by_cases member : name ∈ q.columns.map Column.name
  · exact SortedMap.lookup_insertAll_of_agree _ agree (keys ▸ member)
  · rw [SortedMap.lookup_insertAll_of_not_mem _ (keys ▸ member)]
    exact (Option.not_isSome_iff_eq_none.mp (mt (printable.keys name).mp member)).symm

theorem create_reads {q : CreateTable} (printable : q.Printable) :
    Reads q.tokens (createStmt plain) (pure (.createTable q)) fun _ => True := by
  have tokens : q.columns.map q.columnTokens =
      (q.columns.map fun c => (c,constraintOf q c)).map fun item => q.columnTokens item.1 := by
    rw [List.map_map]
    rfl
  have list : Reads (commas (q.columns.map q.columnTokens)) (turns (commaList plain (createColumn plain)))
      (pure (q.columns.map fun c => (c,constraintOf q c))) fun t => t ∈ afterColumn ∧ t.type ≠ .comma := by
    rw [tokens]
    apply list_reads
    · exact fun none => printable.columns (List.map_eq_nil_iff.mp none)
    · intro item there
      obtain ⟨c,member,rfl⟩ := List.mem_map.mp there
      exact createColumn_reads printable member
    · exact List.mem_cons_self
  have result : CreateTable.mk q.table ((q.columns.map fun c => (c,constraintOf q c)).map Prod.fst)
      ((∅ : GoMap ColumnConstraint).insertAll ((q.columns.map fun c => (c,constraintOf q c)).map
        fun c => (c.1.name,c.2))) = q := by
    have columns : (q.columns.map fun c => (c,constraintOf q c)).map Prod.fst = q.columns := by
      rw [List.map_map]
      exact List.map_id _
    have constraints := constraints_eq printable
    rw [columns,List.map_map]
    change CreateTable.mk q.table q.columns ((∅ : GoMap ColumnConstraint).insertAll (q.columns.map fun c =>
      (c.name,constraintOf q c))) = q
    rw [constraints]
  apply Reads.step (take_reads _)
  apply Reads.step (want_reads rfl)
  apply Reads.step (word_reads _)
  apply Reads.step (want_reads rfl)
  apply Reads.seq list
  · conv => arg 3; rw [← result]
    exact (want_reads rfl).bind
  · exact fun _ _ => ⟨List.mem_cons_of_mem _ List.mem_cons_self,nofun⟩

theorem drop_reads (table : Bytes) :
    Reads (Parsed.dropTable ⟨table⟩).tokens (dropStmt plain) (pure (.dropTable ⟨table⟩)) fun _ => True := by
  apply Reads.step (take_reads _)
  apply Reads.ask "TABLE" true (by decide)
  apply Reads.step (take_reads _)
  exact (word_reads _).bind

theorem alter_reads (q : AlterTable) :
    Reads (Parsed.alterTable q).tokens (alterStmt plain) (pure (.alterTable q)) fun _ => True := by
  apply Reads.step (take_reads _)
  apply Reads.step (want_reads rfl)
  apply Reads.step (word_reads _)
  rcases q with ⟨table,action⟩
  cases action with
  | add c =>
    apply Reads.step (word_reads _)
    apply Reads.step (want_reads rfl)
    apply Reads.step (word_reads _)
    apply Reads.step (word_reads _)
    exact (of_reads (type_reads c.type)).bind
  | drop name =>
    apply Reads.step (word_reads _)
    apply Reads.step (want_reads rfl)
    exact (word_reads _).bind
  | rename name newName =>
    apply Reads.step (word_reads _)
    apply Reads.step (want_reads rfl)
    apply Reads.step (word_reads _)
    apply Reads.step (want_reads rfl)
    exact (word_reads _).bind

theorem explained_reads {s : Statement} (explained : s.explained = true) (printable : s.Printable) :
    Reads s.tokens (explainStmt plain) (pure (.explain s)) (· ∈ ending) := by
  cases s with
  | select q =>
    apply Reads.peek (look_reads (keyword "SELECT"))
    · apply Reads.skip (refuse_reads (word_goes_on _) _)
      exact (select_reads printable).done
    · exact fun _ _ => rfl
  | insert q =>
    apply Reads.peek (look_reads (keyword "INSERT"))
    · apply Reads.skip (refuse_reads (word_goes_on _) _)
      exact (insert_reads printable).done.mono fun _ _ => trivial
    · exact fun _ _ => rfl
  | update q =>
    apply Reads.peek (look_reads (keyword "UPDATE"))
    · apply Reads.skip (refuse_reads (word_goes_on _) _)
      exact (update_reads printable).done
    · exact fun _ _ => rfl
  | delete q =>
    apply Reads.peek (look_reads (keyword "DELETE"))
    · apply Reads.skip (refuse_reads (word_goes_on _) _)
      exact (delete_reads printable).done
    · exact fun _ _ => rfl
  | _ => cases explained

theorem statement_reads (printable : s.Printable) : Reads s.tokens (statement plain) (pure s) (· ∈ ending) := by
  cases s with
  | plain s =>
    cases s with
    | begin => exact Reads.peek (look_reads (keyword "BEGIN")) ((take_reads _).bind.mono fun _ _ => trivial) fun _ _ => rfl
    | commit => exact Reads.peek (look_reads (keyword "COMMIT")) ((take_reads _).bind.mono fun _ _ => trivial) fun _ _ => rfl
    | rollback =>
      exact Reads.peek (look_reads (keyword "ROLLBACK")) ((take_reads _).bind.mono fun _ _ => trivial) fun _ _ => rfl
    | insert q =>
      exact Reads.peek (look_reads (keyword "INSERT")) ((insert_reads printable).done.mono fun _ _ => trivial) fun _ _ => rfl
    | select q => exact Reads.peek (look_reads (keyword "SELECT")) (select_reads printable).done fun _ _ => rfl
    | update q => exact Reads.peek (look_reads (keyword "UPDATE")) (update_reads printable).done fun _ _ => rfl
    | delete q => exact Reads.peek (look_reads (keyword "DELETE")) (delete_reads printable).done fun _ _ => rfl
    | createTable q =>
      exact Reads.peek (look_reads (keyword "CREATE")) ((create_reads printable).done.mono fun _ _ => trivial) fun _ _ => rfl
  | explain s =>
    apply Reads.peek (look_reads (keyword "EXPLAIN"))
    · exact Reads.step (take_reads _) (explained_reads printable.1 printable.2)
    · exact fun _ _ => rfl
  | explainTable table =>
    apply Reads.peek (look_reads (keyword "EXPLAIN"))
    · apply Reads.step (take_reads _)
      apply Reads.peek (look_reads (keyword "TABLE"))
      · apply Reads.skip (refuse_reads (word_goes_on _) _)
        apply Reads.step (take_reads _)
        apply Reads.peek (look_reads (Token.word table))
        · exact Reads.skip (refuse_reads (word_goes_on table) _) ((word_reads _).bind.mono fun _ _ => trivial)
        · exact fun _ _ => rfl
      · exact fun _ _ => rfl
    · exact fun _ _ => rfl
  | listTables =>
    apply Reads.peek (look_reads (keyword "SHOW"))
    · apply Reads.step (want_reads rfl)
      exact (want_reads rfl).bind.mono fun _ _ => trivial
    · exact fun _ _ => rfl
  | dropTable q =>
    exact Reads.peek (look_reads (keyword "DROP")) ((drop_reads q.table).mono fun _ _ => trivial) fun _ _ => rfl
  | alterTable q =>
    exact Reads.peek (look_reads (keyword "ALTER")) ((alter_reads q).mono fun _ _ => trivial) fun _ _ => rfl

theorem end_reads (s : Parsed) : Reads [] (do
    let t ← plain.look 0
    Proc.refuse (t.type ≠ .eof) (.afterSemicolon t.lexeme)
    pure s) (pure s) (· = eof) := by
  apply Reads.peek (look_reads eof)
  · exact Reads.skip (refuse_reads (not_not.mpr rfl) _) (Reads.refl _)
  · exact fun _ last => last

theorem whole_reads (printable : s.Printable) : Reads s.tokens (whole plain) (pure s) (· = eof) := by
  rw [← List.append_nil s.tokens]
  apply Reads.seq (statement_reads printable)
  · apply Reads.peek (isType_reads .semicolon false)
    · exact Reads.skip (Reads.refl _) (end_reads s)
    · rintro _ rfl
      rfl
  · rintro _ rfl
    exact List.mem_cons_of_mem _ List.mem_cons_self

theorem whole_reads_semicolon (printable : s.Printable) :
    Reads (s.tokens ++ [semicolon]) (whole plain) (pure s) (· = eof) := by
  apply Reads.seq (statement_reads printable)
  · apply Reads.peek (isType_reads .semicolon true)
    · exact Reads.step (take_reads _) (end_reads s)
    · exact fun _ _ => rfl
  · exact fun _ _ => List.mem_cons_self

theorem parseTokens_reads (reads : Reads ts (whole plain) (pure s) (· = eof)) :
    parseTokens plain (ts ++ [eof]) = .ok s :=
  congrArg Prod.fst (reads (ts ++ [eof]) 0 eof [] rfl rfl)

/-- `Parse` gives a statement back for its canonical text, with a semicolon behind it or without one. -/
theorem parse_text (s : Parsed) (printable : s.Printable) :
    parse s.text = .ok s ∧ parse (s.text ++ ascii ";") = .ok s := by
  obtain ⟨text,ended⟩ := Lexer.lex_text printable
  unfold parse
  rw [text,ended]
  exact ⟨parseTokens_reads (whole_reads printable),parseTokens_reads (whole_reads_semicolon printable)⟩

theorem parse_text_delete :
    parse (Parsed.plain (.delete ⟨ascii "t",some (.and
        (.or (.test (ascii "a") .equal (.int (-1))) (.test (ascii "or") .isNotNull .nil))
        (.test (ascii "b") .less (.string (ascii "it's"))))⟩)).text =
      .ok (.plain (.delete ⟨ascii "t",some (.and
        (.or (.test (ascii "a") .equal (.int (-1))) (.test (ascii "or") .isNotNull .nil))
        (.test (ascii "b") .less (.string (ascii "it's"))))⟩)) := by
  have printable : WherePrintable (some (.and
      (.or (.test (ascii "a") .equal (.int (-1))) (.test (ascii "or") .isNotNull .nil))
      (.test (ascii "b") .less (.string (ascii "it's"))))) := by
    rintro _ ⟨⟩
    exact ⟨⟨⟨by decide,rfl⟩,by decide,rfl⟩,by decide,rfl⟩
  exact (parse_text (.plain (.delete ⟨ascii "t",_⟩)) ⟨by decide,printable⟩).1

end GoDb.Parser
