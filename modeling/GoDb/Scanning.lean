import GoDb.DecimalText
import GoDb.LexerInverse
import Mathlib.Data.List.Forall2
import Mathlib.Data.List.TakeWhile

/-! `Lex` turn by turn. What a turn reads depends on the text that it takes and on the byte
behind it, and only the numbers of the parameters on what was read before; so texts with a
space between them are read one after the other. -/
namespace GoDb.Lexer
open Foundation

variable {n : Nat} {c : UInt8} {s v rest : Bytes} {t : Token}

def renumber : Nat → List Token → List Token
  | _,[] => []
  | n,t::tokens =>
    if t.type = .parameter then ⟨.parameter,36::decimal 0 n⟩::renumber (n + 1) tokens else t::renumber n tokens

def numbered (n : Nat) (t : Token) : Token := if t.type = .parameter then ⟨.parameter,36::decimal 0 n⟩ else t

theorem countParameters_append (first second : List Token) :
    countParameters (first ++ second) = countParameters first + countParameters second := List.countP_append

theorem renumber_cons (n : Nat) (t : Token) (tokens : List Token) :
    renumber n (t::tokens) = numbered n t::renumber (n + countParameters [numbered n t]) tokens := by
  unfold numbered
  rw [renumber]
  split_ifs with is
  · rfl
  · rw [show countParameters [t] = 0 by simp [countParameters,is],Nat.add_zero]

theorem next_parameter (found : next n c s = .ok (t,rest)) (is : t.type = .parameter) : c = 63 := by
  cases next_turn found with
  | number | string => cases is
  | parameter mark => exact mark
  | symbol there => exact absurd is (symbol_type there).2
  | comparison _ there => exact absurd is (comparison_takes there).2.2
  | word => exact absurd is (wordType_inner _).2

theorem next_numbered (found : next n c s = .ok (t,rest)) (m : Nat) : next m c s = .ok (numbered m t,rest) := by
  by_cases is : c = 63
  · have none : ¬(c = 45 ∧ s.head?.any isNumberByte = true) := fun both => by simp [is] at both
    unfold next at found ⊢
    rw [if_neg none,if_pos is] at found ⊢
    obtain ⟨rfl,rfl⟩ := Prod.mk.inj (Except.ok.inj found)
    rfl
  · rw [numbered,if_neg fun same => is (next_parameter found same),← found]
    unfold next
    rw [if_neg is,if_neg is]

/-- What the loop of `Lex` reads turn by turn, and the tokens of it. -/
inductive Scans : Bytes → List Token → Prop
  | nil : Scans [] []
  | space {c : UInt8} {s : Bytes} {body : List Token} (is : isSpace c = true) (rest : Scans s body) : Scans (c::s) body
  | token {c : UInt8} {s rest : Bytes} {t : Token} {body : List Token} (space : isSpace c = false)
    (found : ∀ n, next n c s = .ok (numbered n t,rest)) (later : Scans rest body) : Scans (c::s) (t::body)

variable {body tokens : List Token}

theorem Scans.lexLoop (scans : Scans s body) {turns : Nat} (enough : s.length ≤ turns) (out : List Token) :
    lexLoop turns out s = .ok (out ++ renumber (countParameters out) body ++ [⟨.eof,[]⟩]) := by
  induction scans generalizing turns out with
  | nil =>
    rw [renumber,List.append_nil]
    cases turns <;> rfl
  | @space c s body is _ ih =>
    cases turns with
    | zero => cases enough
    | succ turns =>
      rw [Lexer.lexLoop,if_pos is]
      exact ih (Nat.le_of_succ_le_succ enough) out
  | @token c s rest t body space found _ ih =>
    cases turns with
    | zero => cases enough
    | succ turns =>
      have fewer : rest.length ≤ turns := (next_inner (found 0)).1.trans (Nat.le_of_succ_le_succ enough)
      rw [Lexer.lexLoop,if_neg (by rw [space]; decide),found]
      dsimp only
      rw [ih fewer,countParameters_append,renumber_cons,List.append_assoc out]
      rfl

theorem Scans.lex (scans : Scans s body) :
    lex s = .ok (renumber 0 body ++ [⟨.eof,[]⟩]) := scans.lexLoop (Nat.le_refl _) []

theorem lexLoop_scans {turns : Nat} {out : List Token} (done : lexLoop turns out s = .ok tokens) :
    ∃ body, Scans s body ∧ tokens = out ++ body ++ [⟨.eof,[]⟩] := by
  induction turns generalizing out s with
  | zero =>
    cases s with
    | nil => exact ⟨[],.nil,by rw [← Except.ok.inj done,List.append_nil]⟩
    | cons => cases done
  | succ turns ih =>
    cases s with
    | nil => exact ⟨[],.nil,by rw [← Except.ok.inj done,List.append_nil]⟩
    | cons c s =>
      unfold lexLoop at done
      split_ifs at done with space
      · obtain ⟨body,scans,same⟩ := ih done
        exact ⟨body,.space space scans,same⟩
      · split at done
        · cases done
        · rename_i t rest found
          obtain ⟨body,scans,same⟩ := ih done
          refine ⟨t::body,.token (Bool.not_eq_true _ ▸ space) (next_numbered found) scans,?_⟩
          rw [same,List.append_assoc out [t] body]
          rfl

theorem lex_scans (done : lex s = .ok tokens) :
    ∃ body, Scans s body ∧ tokens = body ++ [⟨.eof,[]⟩] := lexLoop_scans done

theorem span_cut {p : UInt8 → Bool} (ends : ∀ c, v.head? = some c → p c = false) (s : Bytes) :
    (s ++ v).takeWhile p = s.takeWhile p ∧ (s ++ v).dropWhile p = s.dropWhile p ++ v := by
  have all := List.takeWhile_append_dropWhile (p := p) (l := s)
  have stop : ∀ c, (s.dropWhile p ++ v).head? = some c → p c = false := by
    intro c head
    rcases left : s.dropWhile p with _ | ⟨d,rest⟩
    · rw [left] at head
      exact ends c head
    · rw [left] at head
      obtain rfl := Option.some.inj head
      have fails := List.head_dropWhile_not p (l := s) (by simp [left])
      simpa [left] using fails
  have spans := span_append (w := s.takeWhile p) (fun c there => List.mem_takeWhile_imp there) stop
  rwa [← List.append_assoc,all] at spans

theorem comparison_other (other : s.head? ≠ some 61) :
    comparison c s = if c = 33 then .error (.unexpectedCharacter c)
      else .ok (⟨if c = 60 then .less else .greater,[c]⟩,s) := by
  unfold comparison
  split
  · exact absurd rfl other
  · rfl

structure EndsBefore (s v : Bytes) : Prop where
  equal : (s ++ v).head? = some 61 ↔ s.head? = some 61
  number : (s ++ v).head?.any isNumberByte = s.head?.any isNumberByte
  numbers : (s ++ v).takeWhile isNumberByte = s.takeWhile isNumberByte ∧
    (s ++ v).dropWhile isNumberByte = s.dropWhile isNumberByte ++ v
  words : (s ++ v).takeWhile isWordByte = s.takeWhile isWordByte ∧
    (s ++ v).dropWhile isWordByte = s.dropWhile isWordByte ++ v

theorem Boundary.ends (boundary : Boundary v) (s : Bytes) : EndsBefore s v := by
  constructor
  · rcases s with _ | ⟨d,s⟩
    · constructor
      · intro head
        exact absurd rfl (boundary 61 head).2
      · intro head
        cases head
    · rfl
  · rcases s with _ | ⟨d,s⟩
    · rcases v with _ | ⟨d,v⟩
      · rfl
      · exact number_word (boundary d rfl).1
    · rfl
  · exact span_cut (fun d head => number_word (boundary d head).1) s
  · exact span_cut (fun d head => (boundary d head).1) s

theorem quoted_append {q : UInt8} (s v : Bytes) {text : Bytes} :
    quoted q (s ++ v) = some (text,rest ++ v) ↔ quoted q s = some (text,rest) := by
  have short {u text' rest' : Bytes} (fewer : u.length ≤ v.length) : quoted q u ≠ some (text',rest' ++ v) := by
    intro same
    have less := quoted_length same
    rw [List.length_append] at less
    omega
  fun_induction quoted q s generalizing text rest with
  | case1 => simp [short (u := v) (Nat.le_refl _)]
  | case2 s =>
    rw [List.cons_append,quoted.eq_def]
    simp
  | case3 other =>
    cases v with
    | nil => simp [quoted,other]
    | cons d v =>
      have none (text : Bytes) : quoted q v ≠ some (text,rest ++ d::v) := short (Nat.le_succ _)
      simp [quoted,other,none]
  | case4 d s other ih =>
    rw [List.cons_append,List.cons_append,quoted,if_neg other,if_pos rfl]
    simp [Option.map_eq_some_iff,ih]
  | case5 c s other plain ih =>
    rw [List.cons_append,quoted.eq_def]
    simp [other,plain,ih]

theorem comparison_append (boundary : Boundary v) :
    comparison c (s ++ v) = .ok (t,rest ++ v) ↔ comparison c s = .ok (t,rest) := by
  have heads := (boundary.ends s).equal
  by_cases head : s.head? = some 61
  · obtain ⟨s,rfl⟩ := List.head?_eq_some_iff.mp head
    simp [comparison]
  · rw [comparison_other head,comparison_other (mt heads.mp head)]
    split_ifs <;> simp

theorem next_append (boundary : Boundary v) :
    next n c (s ++ v) = .ok (t,rest ++ v) ↔ next n c s = .ok (t,rest) := by
  obtain ⟨-,number,numbers,words⟩ := boundary.ends s
  unfold next
  simp only [number,numbers.1,numbers.2,words.1,words.2]
  by_cases negative : c = 45 ∧ s.head?.any isNumberByte = true
  · simp [if_pos negative]
  rw [if_neg negative,if_neg negative]
  by_cases parameter : c = 63
  · simp [if_pos parameter]
  rw [if_neg parameter,if_neg parameter]
  cases symbol c with
  | some mark => simp
  | none =>
    dsimp only
    split_ifs
    · exact comparison_append boundary
    · rcases read : quoted c s with _ | ⟨text,left⟩
      · have unread (text : Bytes) : quoted c (s ++ v) ≠ some (text,rest ++ v) := by
          rw [ne_eq,quoted_append,read]
          simp
        split
        · simp
        · rename_i text left found
          suffices left ≠ rest ++ v by simp [this]
          rintro rfl
          exact unread text found
      · rw [(quoted_append s v).mpr read]
        simp
    · simp
    · simp
theorem Scans.append {a b : Bytes} {first second : List Token} (left : Scans a first) (right : Scans b second) :
    Scans (a ++ 32::b) (first ++ second) := by
  have boundary : Boundary (32::b) := boundary_cons (by decide)
  induction left with
  | nil => exact .space rfl right
  | space is _ ih => exact .space is ih
  | token space found _ ih => exact .token space (fun n => (next_append boundary).mpr (found n)) ih

def shifted (k : Nat) (t : Token) : Token :=
  if t.type = .parameter then ⟨.parameter,36::decimal 0 (Time.number (t.lexeme.drop 1) + k)⟩ else t

theorem map_shifted (numbered : Numbered n tokens) (k : Nat) : tokens.map (shifted k) = renumber (n + k) tokens := by
  induction tokens generalizing n with
  | nil => rfl
  | cons t tokens ih =>
    unfold Numbered at numbered
    rw [List.map_cons,shifted,renumber]
    split_ifs at numbered ⊢ with is
    · obtain ⟨lexeme,rest⟩ := numbered
      rw [lexeme,List.drop_one,List.tail_cons,number_decimal,ih rest,Nat.add_right_comm]
    · rw [ih numbered]

theorem countParameters_numbered (n : Nat) (t : Token) : countParameters [numbered n t] = countParameters [t] := by
  unfold numbered
  split_ifs with is
  · simp [countParameters,is]
  · rfl

theorem renumber_append (n : Nat) (first second : List Token) :
    renumber n (first ++ second) = renumber n first ++ renumber (n + countParameters first) second := by
  induction first generalizing n with
  | nil => rfl
  | cons t first ih =>
    have count : countParameters (t::first) = countParameters [t] + countParameters first :=
      countParameters_append [t] first
    rw [List.cons_append,renumber_cons,renumber_cons,ih,countParameters_numbered,count,Nat.add_assoc]
    rfl

theorem lex_renumber (done : lex s = .ok tokens) :
    ∃ body, Scans s body ∧ tokens = body ++ [⟨.eof,[]⟩] ∧ renumber 0 body = body ∧ Numbered 0 tokens := by
  obtain ⟨body,scans,rfl⟩ := lex_scans done
  obtain ⟨_,lexed⟩ := lex_lexed done
  have same := Except.ok.inj (scans.lex.symm.trans done)
  exact ⟨body,scans,rfl,List.append_cancel_right same,lexed.numbered_tokens⟩

theorem lex_append {a b : Bytes} {first second : List Token} (left : lex a = .ok first) (right : lex b = .ok second) :
    lex (a ++ 32::b) = .ok (first.dropLast ++ second.map (shifted (countParameters first))) := by
  obtain ⟨x,before,rfl,own,-⟩ := lex_renumber left
  obtain ⟨y,behind,rfl,-,numbered⟩ := lex_renumber right
  have count : countParameters (x ++ [⟨.eof,[]⟩]) = countParameters x := countParameters_append x [⟨.eof,[]⟩]
  rw [(before.append behind).lex,renumber_append,own,count,List.dropLast_concat,map_shifted numbered,renumber_append,
    Nat.zero_add,List.append_assoc]
  rfl

theorem joinSpaces_scans {lines : List Bytes} {bodies : List (List Token)} (each : List.Forall₂ Scans lines bodies) :
    Scans (joinSpaces lines) bodies.flatten := by
  induction each with
  | nil => exact .nil
  | @cons line body lines bodies scans others ih =>
    cases others with
    | nil =>
      rw [List.flatten_cons,List.flatten_nil,List.append_nil]
      exact scans
    | cons => exact scans.append ih

theorem count_dropWhile {p : UInt8 → Bool} (stops : p 63 = false) (s : Bytes) : s.count 63 = (s.dropWhile p).count 63 := by
  have none : (s.takeWhile p).count 63 = 0 := by
    apply List.count_eq_zero.mpr
    intro there
    rw [List.mem_takeWhile_imp there] at stops
    cases stops
  conv_lhs => rw [← List.takeWhile_append_dropWhile (p := p) (l := s),List.count_append,none,Nat.zero_add]

theorem next_plain (found : next n c s = .ok (t,rest)) (quote : c ≠ 39 ∧ c ≠ 34) :
    rest <:+ s ∧ (c::s).count 63 = countParameters [t] + rest.count 63 := by
  by_cases mark : c = 63
  · subst mark
    cases next_turn found with
    | parameter => exact ⟨List.suffix_refl _,by rw [List.count_cons_self,Nat.add_comm]; rfl⟩
    | number minus => cases minus
    | symbol there => cases there
    | comparison known => simp at known
    | string known => simp at known
    | word first => cases first
  · have type : t.type ≠ .parameter := fun is => mark (next_parameter found is)
    rw [List.count_cons_of_ne mark,show countParameters [t] = 0 by simp [countParameters,type],Nat.zero_add]
    cases next_turn found with
    | number => exact ⟨List.dropWhile_suffix _,count_dropWhile rfl s⟩
    | parameter is => exact absurd is mark
    | symbol => exact ⟨List.suffix_refl _,rfl⟩
    | comparison _ there =>
      obtain ⟨rfl | rfl,-⟩ := comparison_takes there
      · exact ⟨List.suffix_refl _,rfl⟩
      · exact ⟨List.suffix_cons _ _,List.count_cons_of_ne (by decide)⟩
    | string is => exact absurd is (not_or.mpr quote)
    | word => exact ⟨List.dropWhile_suffix _,count_dropWhile rfl s⟩

theorem Scans.count (scans : Scans s body) (plain : ∀ d ∈ s, d ≠ 39 ∧ d ≠ 34) :
    countParameters body = s.count 63 := by
  induction scans with
  | nil => rfl
  | @space c s body is _ ih =>
    obtain ⟨-,others⟩ := List.forall_mem_cons.mp plain
    rw [ih others,List.count_cons_of_ne]
    rintro rfl
    cases is
  | @token c s rest t body space found _ ih =>
    obtain ⟨quote,others⟩ := List.forall_mem_cons.mp plain
    obtain ⟨suffix,count⟩ := next_plain (found 0) quote
    rw [count,countParameters_numbered,← ih fun d there => others d (suffix.subset there)]
    exact countParameters_append [t] body

theorem lex_joinSpaces {lines : List Bytes} {tokens : List (List Token)}
    (each : List.Forall₂ (fun line t => lex line = .ok t) lines tokens) :
    lex (joinSpaces lines) = .ok (renumber 0 (tokens.flatMap List.dropLast) ++ [⟨.eof,[]⟩]) := by
  have bodies : List.Forall₂ Scans lines (tokens.map List.dropLast) := by
    rw [List.forall₂_map_right_iff]
    refine each.imp fun line t done => ?_
    obtain ⟨body,scans,rfl⟩ := lex_scans done
    rwa [List.dropLast_concat]
  rw [(joinSpaces_scans bodies).lex,List.flatMap_def]

/-- Behind a space `Lex` reads a text as it does alone, but for the numbers of the parameters. So it reads lines that
are joined by spaces alike, whichever of them a token stands on. -/
theorem lex_distributes :
    (∀ a b first second, lex a = .ok first → lex b = .ok second →
      lex (a ++ 32::b) = .ok (first.dropLast ++ second.map (shifted (countParameters first))) ∧
        ((∀ c ∈ a, c ≠ 39 ∧ c ≠ 34) → countParameters first = a.count 63)) ∧
      ∀ lines lines' tokens tokens', List.Forall₂ (fun line t => lex line = .ok t) lines tokens →
        List.Forall₂ (fun line t => lex line = .ok t) lines' tokens' →
        renumber 0 (tokens.flatMap List.dropLast) = renumber 0 (tokens'.flatMap List.dropLast) →
        lex (joinSpaces lines) = lex (joinSpaces lines') := by
  constructor
  · intro a b first second left right
    refine ⟨lex_append left right,fun plain => ?_⟩
    obtain ⟨body,scans,rfl⟩ := lex_scans left
    rw [← scans.count plain]
    exact countParameters_append body [⟨.eof,[]⟩]
  · intro lines lines' tokens tokens' each each' same
    rw [lex_joinSpaces each,lex_joinSpaces each',same]

theorem lex_distributes_where :
    lex (ascii "a = ?" ++ 32::ascii "OR ?") =
        .ok [⟨.identifier,ascii "a"⟩,⟨.equal,ascii "="⟩,⟨.parameter,ascii "$0"⟩,⟨.keyword,ascii "OR"⟩,
          ⟨.parameter,ascii "$1"⟩,⟨.eof,[]⟩] ∧
      lex (joinSpaces [ascii "a =",ascii "?"]) = lex (joinSpaces [ascii "a",ascii "= ?"]) := by
  have name : lex (ascii "a") = .ok [⟨.identifier,ascii "a"⟩,⟨.eof,[]⟩] := Outcome.eq_ok_of_toOption (by decide +kernel)
  have mark : lex (ascii "?") = .ok [⟨.parameter,ascii "$0"⟩,⟨.eof,[]⟩] := Outcome.eq_ok_of_toOption (by decide +kernel)
  have front : lex (ascii "a =") = .ok [⟨.identifier,ascii "a"⟩,⟨.equal,ascii "="⟩,⟨.eof,[]⟩] :=
    Outcome.eq_ok_of_toOption (by decide +kernel)
  have back : lex (ascii "= ?") = .ok [⟨.equal,ascii "="⟩,⟨.parameter,ascii "$0"⟩,⟨.eof,[]⟩] :=
    Outcome.eq_ok_of_toOption (by decide +kernel)
  have whole : lex (ascii "a = ?") =
      .ok [⟨.identifier,ascii "a"⟩,⟨.equal,ascii "="⟩,⟨.parameter,ascii "$0"⟩,⟨.eof,[]⟩] :=
    Outcome.eq_ok_of_toOption (by decide +kernel)
  have more : lex (ascii "OR ?") = .ok [⟨.keyword,ascii "OR"⟩,⟨.parameter,ascii "$0"⟩,⟨.eof,[]⟩] :=
    Outcome.eq_ok_of_toOption (by decide +kernel)
  refine ⟨(lex_distributes.1 _ _ _ _ whole more).1,?_⟩
  exact lex_distributes.2 _ _ _ _ (.cons front (.cons mark .nil)) (.cons name (.cons back .nil)) rfl

end GoDb.Lexer
