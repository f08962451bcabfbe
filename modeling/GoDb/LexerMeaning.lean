import GoDb.Lexer

/-! What `Lex` gives: it always ends, its tokens end with EOF, and the parameters are
numbered in the order in which they stand. -/
namespace GoDb.Lexer
open Foundation

def Numbered : Nat → List Token → Prop
  | _,[] => True
  | n,t::tokens =>
    if t.type = .parameter then t.lexeme = 36::decimal 0 n ∧ Numbered (n + 1) tokens else Numbered n tokens

structure Lexed (tokens body : List Token) : Prop where
  ended : tokens = body ++ [⟨.eof,[]⟩]
  inner : ∀ t ∈ body, t.type ≠ .eof
  numbered : Numbered 0 body

variable {tokens : List Token} {t : Token} {n : Nat} {s rest : Bytes} {c : UInt8} {e : SyntaxError}

theorem Lexed.eof_last {body : List Token} {k : Nat} (lexed : Lexed tokens body) (there : tokens[k]? = some t)
    (is : t.type = .eof) : k = body.length := by
  rw [lexed.ended] at there
  rcases Nat.lt_or_ge k body.length with before | behind
  · rw [List.getElem?_append_left before] at there
    exact absurd is (lexed.inner t (List.mem_of_getElem? there))
  · rw [List.getElem?_append_right behind] at there
    obtain ⟨small,_⟩ := List.getElem?_eq_some_iff.mp there
    rw [List.length_singleton] at small
    omega

theorem numbered_append (n : Nat) (first second : List Token) :
    Numbered n (first ++ second) ↔ Numbered n first ∧ Numbered (n + countParameters first) second := by
  induction first generalizing n with
  | nil => simp [Numbered,countParameters]
  | cons t first ih =>
    by_cases here : t.type = .parameter
    · have count : countParameters (t::first) = countParameters first + 1 := by simp [countParameters,here]
      simp only [List.cons_append,Numbered,if_pos here,ih,count,and_assoc]
      rw [show n + 1 + countParameters first = n + (countParameters first + 1) by omega]
    · have count : countParameters (t::first) = countParameters first := by simp [countParameters,here]
      simp only [List.cons_append,Numbered,if_neg here,ih,count]

theorem Lexed.numbered_tokens {body : List Token} (lexed : Lexed tokens body) : Numbered 0 tokens := by
  rw [lexed.ended,numbered_append]
  exact ⟨lexed.numbered,trivial⟩

theorem Numbered.number (numbered : Numbered n tokens) (member : t ∈ tokens) (is : t.type = .parameter) :
    ∃ i, i < n + countParameters tokens ∧ t.lexeme = 36::decimal 0 i := by
  induction tokens generalizing n with
  | nil => cases member
  | cons first tokens ih =>
    unfold Numbered at numbered
    unfold countParameters at ih ⊢
    rw [List.countP_cons]
    split_ifs at numbered with here
    · rw [if_pos (decide_eq_true here)]
      rcases List.mem_cons.mp member with rfl | later
      · exact ⟨n,by omega,numbered.1⟩
      · obtain ⟨i,small,same⟩ := ih numbered.2 later
        exact ⟨i,by omega,same⟩
    · rcases List.mem_cons.mp member with rfl | later
      · exact absurd is here
      · obtain ⟨i,small,same⟩ := ih numbered later
        exact ⟨i,by omega,same⟩

theorem Numbered.token {i : Nat} (numbered : Numbered n tokens) (above : n ≤ i)
    (small : i < n + countParameters tokens) : ∃ t ∈ tokens, t.type = .parameter ∧ t.lexeme = 36::decimal 0 i := by
  induction tokens generalizing n with
  | nil => exact absurd small (Nat.not_lt.mpr above)
  | cons first tokens ih =>
    unfold Numbered at numbered
    unfold countParameters at ih small
    rw [List.countP_cons] at small
    split_ifs at numbered with here
    · rw [if_pos (decide_eq_true here)] at small
      rcases Nat.eq_or_lt_of_le above with rfl | later
      · exact ⟨first,List.mem_cons_self,here,numbered.1⟩
      · obtain ⟨t,member,rest⟩ := ih numbered.2 later (by omega)
        exact ⟨t,List.mem_cons_of_mem first member,rest⟩
    · rw [if_neg (by simpa using here)] at small
      obtain ⟨t,member,rest⟩ := ih numbered above small
      exact ⟨t,List.mem_cons_of_mem first member,rest⟩

theorem quoted_length {quote : UInt8} {text : Bytes} (found : quoted quote s = some (text,rest)) :
    rest.length < s.length := by
  fun_induction quoted quote s generalizing text rest with
  | case1 => cases found
  | case2 s =>
    obtain ⟨-,rfl⟩ := Prod.mk.inj (Option.some.inj found)
    exact Nat.lt_succ_self _
  | case3 => cases found
  | case4 d s other ih =>
    obtain ⟨⟨text,rest⟩,inner,same⟩ := Option.map_eq_some_iff.mp found
    obtain ⟨-,rfl⟩ := Prod.mk.inj same
    exact (ih inner).trans (Nat.lt_succ_of_lt (Nat.lt_succ_self _))
  | case5 c s other plain ih =>
    obtain ⟨⟨text,rest⟩,inner,same⟩ := Option.map_eq_some_iff.mp found
    obtain ⟨-,rfl⟩ := Prod.mk.inj same
    exact (ih inner).trans (Nat.lt_succ_self _)

theorem wordType_inner (word : Bytes) : wordType word ≠ .eof ∧ wordType word ≠ .parameter := by
  unfold wordType
  split_ifs <;> decide

/-- A token of `Lex` that is not the last one. A parameter has the number it was given. -/
def Inner (parameters : Nat) (t : Token) : Prop :=
  t.type ≠ .eof ∧ (t.type = .parameter → t.lexeme = 36::decimal 0 parameters)

theorem symbol_type (found : symbol c = some t) : t.type ≠ .eof ∧ t.type ≠ .parameter := by
  unfold symbol at found
  split_ifs at found <;> obtain rfl := Option.some.inj found <;> decide

theorem comparison_takes (found : comparison c s = .ok (t,rest)) :
    (s = rest ∨ s = 61::rest) ∧ t.type ≠ .eof ∧ t.type ≠ .parameter := by
  unfold comparison at found
  split at found
  · obtain ⟨rfl,rfl⟩ := Prod.mk.inj (Except.ok.inj found)
    refine ⟨.inr rfl,?_⟩
    dsimp only
    split_ifs <;> decide
  · split_ifs at found
    all_goals
      obtain ⟨rfl,rfl⟩ := Prod.mk.inj (Except.ok.inj found)
      exact ⟨.inl rfl,(nomatch ·),(nomatch ·)⟩

inductive Turn (parameters : Nat) (c : UInt8) (s : Bytes) : Token → Bytes → Prop
  | number (minus : c = 45) : Turn parameters c s ⟨.number,45::s.takeWhile isNumberByte⟩ (s.dropWhile isNumberByte)
  | parameter (mark : c = 63) : Turn parameters c s ⟨.parameter,36::decimal 0 parameters⟩ s
  | symbol {t : Token} (found : symbol c = some t) : Turn parameters c s t s
  | comparison {t : Token} {rest : Bytes} (known : c = 33 ∨ c = 60 ∨ c = 62) (found : comparison c s = .ok (t,rest)) :
    Turn parameters c s t rest
  | string {text rest : Bytes} (quote : c = 39 ∨ c = 34) (found : quoted c s = some (text,rest)) :
    Turn parameters c s ⟨.string,text⟩ rest
  | word (first : isWordByte c = true) : Turn parameters c s
    ⟨wordType (c::s.takeWhile isWordByte),c::s.takeWhile isWordByte⟩ (s.dropWhile isWordByte)

theorem next_turn (found : next n c s = .ok (t,rest)) : Turn n c s t rest := by
  unfold next at found
  split at found
  · rename_i number
    obtain ⟨rfl,rfl⟩ := Prod.mk.inj (Except.ok.inj found)
    exact .number number.1
  split at found
  · rename_i mark
    obtain ⟨rfl,rfl⟩ := Prod.mk.inj (Except.ok.inj found)
    exact .parameter mark
  split at found
  · rename_i there
    obtain ⟨rfl,rfl⟩ := Prod.mk.inj (Except.ok.inj found)
    exact .symbol there
  split at found
  · rename_i known
    exact .comparison known found
  split at found
  · rename_i quote
    split at found
    · cases found
    · rename_i there
      obtain ⟨rfl,rfl⟩ := Prod.mk.inj (Except.ok.inj found)
      exact .string quote there
  split at found
  · rename_i first
    obtain ⟨rfl,rfl⟩ := Prod.mk.inj (Except.ok.inj found)
    exact .word first
  · cases found

theorem next_inner (found : next n c s = .ok (t,rest)) : rest.length ≤ s.length ∧ Inner n t := by
  have other {t : Token} (type : t.type ≠ .eof ∧ t.type ≠ .parameter) : Inner n t :=
    ⟨type.1,fun is => absurd is type.2⟩
  cases next_turn found with
  | number => exact ⟨(List.dropWhile_suffix _).length_le,(nomatch ·),(nomatch ·)⟩
  | parameter => exact ⟨Nat.le_refl _,(nomatch ·),fun _ => rfl⟩
  | symbol there => exact ⟨Nat.le_refl _,other (symbol_type there)⟩
  | comparison _ there =>
    obtain ⟨rfl | rfl,type⟩ := comparison_takes there
    · exact ⟨Nat.le_refl _,other type⟩
    · exact ⟨Nat.le_succ _,other type⟩
  | string _ there => exact ⟨(quoted_length there).le,(nomatch ·),(nomatch ·)⟩
  | word => exact ⟨(List.dropWhile_suffix _).length_le,other (wordType_inner _)⟩

theorem next_error (failed : next n c s = .error e) :
    (∃ c, e = .unexpectedCharacter c) ∨ e = .unterminatedString := by
  unfold next at failed
  split at failed
  · cases failed
  split at failed
  · cases failed
  split at failed
  · cases failed
  split at failed
  · unfold comparison at failed
    split at failed
    · cases failed
    · split_ifs at failed
      exact .inl ⟨c,(Except.error.inj failed).symm⟩
  split at failed
  · split at failed
    · exact .inr (Except.error.inj failed).symm
    · cases failed
  split at failed
  · cases failed
  · exact .inl ⟨c,(Except.error.inj failed).symm⟩

theorem lexLoop_lexed {turns : Nat} {out : List Token} (done : lexLoop turns out s = .ok tokens)
    (inner : ∀ t ∈ out, t.type ≠ .eof) (numbered : Numbered 0 out) : ∃ body, Lexed tokens body := by
  induction turns generalizing out s with
  | zero =>
    cases s with
    | nil => exact ⟨out,(Except.ok.inj done).symm,inner,numbered⟩
    | cons => cases done
  | succ turns ih =>
    cases s with
    | nil => exact ⟨out,(Except.ok.inj done).symm,inner,numbered⟩
    | cons c s =>
      unfold lexLoop at done
      split_ifs at done with space
      · exact ih done inner numbered
      · split at done
        · cases done
        · rename_i t rest found
          obtain ⟨-,type,number⟩ := next_inner found
          refine ih done ?_ ?_
          · intro t' member
            rcases List.mem_append.mp member with before | here
            · exact inner t' before
            · rw [List.mem_singleton.mp here]
              exact type
          · rw [numbered_append,Nat.zero_add]
            refine ⟨numbered,?_⟩
            unfold Numbered
            split_ifs with is
            · exact ⟨number is,trivial⟩
            · trivial

theorem lex_lexed {input : Bytes} (done : lex input = .ok tokens) : ∃ body, Lexed tokens body :=
  lexLoop_lexed done (List.forall_mem_nil _) trivial

theorem lexLoop_error {turns : Nat} {out : List Token} (enough : s.length ≤ turns)
    (failed : lexLoop turns out s = .error e) : (∃ c, e = .unexpectedCharacter c) ∨ e = .unterminatedString := by
  induction turns generalizing out s with
  | zero =>
    obtain rfl := List.length_eq_zero_iff.mp (Nat.le_zero.mp enough)
    cases failed
  | succ turns ih =>
    cases s with
    | nil => cases failed
    | cons c s =>
      have fewer : s.length ≤ turns := Nat.le_of_succ_le_succ enough
      unfold lexLoop at failed
      split_ifs at failed
      · exact ih fewer failed
      · split at failed
        · rename_i stopped
          exact Except.error.inj failed ▸ next_error stopped
        · rename_i found
          exact ih ((next_inner found).1.trans fewer) failed

theorem lex_error {input : Bytes} (failed : lex input = .error e) :
    (∃ c, e = .unexpectedCharacter c) ∨ e = .unterminatedString := lexLoop_error (Nat.le_refl _) failed

end GoDb.Lexer
