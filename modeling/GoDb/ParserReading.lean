import GoDb.Parser

/-! The steps of the parser as the source reads its tokens, where the tokens end with EOF. -/
namespace GoDb.Parser
open Foundation Outcome

def eof : Token := ⟨.eof,[]⟩

def cur (s : Parser) : Token := s.t.getD s.p eof

def advance (s : Parser) : Parser := if s.p < s.t.length - 1 then {s with p := s.p + 1} else s

def left (s : Parser) : Nat := s.t.length - s.p

structure Ready (s : Parser) : Prop where
  inside : s.p < s.t.length
  ended : s.t[s.t.length - 1]? = some eof

variable {s s' : Parser}

theorem Ready.cur (ready : s.Ready) : s.t[s.p]? = some s.cur := by
  rw [Parser.cur,List.getD_eq_getElem?_getD,List.getElem?_eq_getElem ready.inside]
  rfl

theorem Ready.left_pos (ready : s.Ready) : 0 < s.left := Nat.sub_pos_of_lt ready.inside

theorem Ready.behind (ready : s.Ready) (some : s.cur ≠ eof) : s.p < s.t.length - 1 := by
  have inside := ready.inside
  rcases Nat.lt_or_ge s.p (s.t.length - 1) with before | last
  · exact before
  · have here : s.p = s.t.length - 1 := by omega
    have found := ready.cur
    rw [here,ready.ended] at found
    exact absurd (Option.some.inj found).symm some

theorem Ready.advance (ready : s.Ready) : s.advance.Ready := by
  have inside := ready.inside
  unfold Parser.advance
  split_ifs with more
  · exact ⟨by dsimp only; omega,ready.ended⟩
  · exact ready

theorem Ready.advance_left (ready : s.Ready) (some : s.cur ≠ eof) : s.advance.left < s.left := by
  have inside := ready.inside
  unfold Parser.advance left
  rw [if_pos (ready.behind some)]
  dsimp only
  omega

theorem cur_ne_eof {w : Bytes} (nonempty : w ≠ []) (folds : foldsTo s.cur.lexeme w = true) : s.cur ≠ eof := by
  intro end_
  rw [end_] at folds
  cases w with
  | nil => exact nonempty rfl
  | cons c w => cases folds

theorem look_of {k : Nat} {tok : Token} (there : s.t[s.p + k]? = some tok) : (look k).exec s = (.ok tok,s) := by
  unfold look
  rw [exec_bind_ok (exec_get s),there]
  rfl

theorem look_success {k : Nat} {tok : Token} (done : (look k).exec s = (.ok tok,s')) :
    s.t[s.p + k]? = some tok ∧ s' = s := by
  unfold look at done
  rw [exec_bind_ok (exec_get s)] at done
  split at done
  · rename_i found there
    obtain ⟨same,rfl⟩ := Prod.mk.inj done
    exact ⟨there.trans (congrArg some (Except.ok.inj same)),rfl⟩
  · cases done

theorem look_exec (ready : s.Ready) : (look 0).exec s = (.ok s.cur,s) := look_of ready.cur

theorem plain_look (ready : s.Ready) : (plain.look 0).exec s = (.ok s.cur,s) := look_exec ready

theorem plain_take (s : Parser) : plain.take.exec s = (.ok (),s.advance) := rfl

theorem turns_exec {α : Type} (loop : Nat → ParserM α) (s : Parser) :
    (turns loop).exec s = (loop s.t.length).exec s := rfl

theorem is_exec (ready : s.Ready) (w : String) : (is plain w).exec s = (.ok (foldsTo s.cur.lexeme (ascii w)),s) := by
  unfold is
  rw [exec_bind_ok (plain_look ready)]
  rfl

theorem isType_exec (ready : s.Ready) (type : TokenType) :
    (isType plain type).exec s = (.ok (decide (s.cur.type = type)),s) := by
  unfold isType
  rw [exec_bind_ok (plain_look ready)]
  rfl

end GoDb.Parser
