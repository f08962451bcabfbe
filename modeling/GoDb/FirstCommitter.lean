import GoDb.Commit
import GoDb.ServerInvariant

/-! The first committer wins. A COMMIT succeeds only if the keys it writes have the
histories they had at the BEGIN, and since every write of a key leaves a version there,
no other write of them has come in between. -/
namespace GoDb
open Foundation Outcome

theorem Contents.Moves.quiet {c c' : Contents} (moves : c.Moves c') (key : Bytes)
    (last : ∀ v, (c'.history key).getLast? = some v → v.seq ≤ c.seq) :
    c'.history key = c.history key ∧ c'.entries.lookup key = c.entries.lookup key := by
  rcases moves.keys key with ⟨added,new,grown,newer⟩ | same
  · have final : (c'.history key).getLast? = some (added.getLast new) := by
      rw [grown,List.getLast?_append,List.getLast?_eq_some_getLast new]
      rfl
    have late := newer _ (List.getLast_mem new)
    have early := last _ final
    omega
  · exact same

theorem Store.changedSince_eq_false {s : Store} {snapshot : Nat} {key : Bytes}
    (unchanged : s.changedSince snapshot key = false) :
    ∀ v, (s.contents.history key).getLast? = some v → v.seq ≤ snapshot := by
  intro v found
  unfold changedSince at unchanged
  change (s.history key).getLast? = some v at found
  rw [found] at unchanged
  simpa using unchanged

namespace Executor

theorem Begins.frame {e e' : Executor} {began tx : Transaction} (begins : Begins e e' began)
    (frames : tx.frames = began.frames) {state : TransactionTableState} (member : state ∈ tx.tables) :
    state.readAt = (e'.db.table state.t).store.seq ∧ (e'.db.table state.t).scan = .ok state.rollback := by
  have framed : (state.t,state.readAt,state.rollback) ∈ began.frames := frames ▸ List.mem_map_of_mem member
  obtain ⟨old,there,equal⟩ := List.mem_map.mp framed
  simp only [Prod.mk.injEq] at equal
  obtain ⟨address,readAt,rollback⟩ := equal
  have begun := begins.begun old there
  obtain ⟨n,like⟩ := begins.like.tables state.t
  have seq := begun.readAt
  have scan := begun.rollback
  rw [address] at seq scan
  rw [like,← readAt,← rollback]
  exact ⟨seq,scan⟩

end Executor

namespace Server

variable {s : Server} {client : Nat}

theorem handle_begin {ord : Order} (begun : (handle (.one client ord .begin) s).1 = .ok .empty) :
    ∃ began, (s.executor client).Begins ((handle (.one client ord .begin) s).2.executor client) began := by
  rw [handle_one] at begun ⊢
  rw [executor_withExecutor]
  change ((Executor.begin ord).exec (s.executor client)).1 = _ at begun
  change ∃ began, (s.executor client).Begins ((Executor.begin ord).exec (s.executor client)).2 began
  rcases Executor.begin_outcome ord (s.executor client) with failed | ⟨-,⟨err,e',failed,-⟩ | ⟨e',tx,done,begins⟩⟩
  · rw [failed] at begun
    cases begun
  · rw [failed] at begun
    cases begun
  · rw [done]
    exact ⟨tx,begins⟩

theorem still_open {began tx : Transaction} (ok : s.Ok) (opened : s.txs client = some began) {requests : List Request}
    (still : (s.after requests).txs client = some tx) (same : tx.id = began.id) : tx.frames = began.frames := by
  rcases (after_steps s requests ok).evolves client tx still with ⟨old,was,-,frames⟩ | new
  · obtain rfl := Option.some.inj (opened.symm.trans was)
    exact frames
  · have bound := (ok.txs client began opened).id
    rw [same] at new
    exact absurd new (Nat.not_lt.mpr bound)

def Writes (r : Request) (s : Server) (t : Nat) (key : Bytes) : Prop :=
  ((handle r s).2.db.table t).store.history key ≠ (s.db.table t).store.history key ∨
    ((handle r s).2.db.table t).store.get key ≠ (s.db.table t).store.get key

private theorem quiet_before (ok : s.Ok) (requests : List Request) {t : Nat} (inside : t < s.db.tables.length)
    {key : Bytes} (quiet : ((s.after requests).db.table t).store.changedSince (s.db.table t).store.seq key = false)
    (first rest : List Request) (split : requests = first ++ rest) :
    ((s.after first).db.table t).store.history key = ((s.after requests).db.table t).store.history key ∧
      ((s.after first).db.table t).store.get key = ((s.after requests).db.table t).store.get key := by
  subst split
  have start := after_steps s first ok
  have finish := after_steps (s.after first) rest start.ok
  rw [after_append] at quiet ⊢
  have within := Nat.lt_of_lt_of_le inside start.moves.length
  have moves := finish.moves.contents t within
  obtain ⟨history,entry⟩ := moves.quiet key fun v last =>
    (Store.changedSince_eq_false quiet v last).trans (start.moves.contents t inside).seq
  have sound := start.ok.db.sound t within
  have sound' := finish.ok.db.sound t (Nat.lt_of_lt_of_le within finish.moves.length)
  rw [sound.stored,sound'.stored]
  exact ⟨history.symm,entry.symm⟩

/-- If a COMMIT succeeds, no request since the BEGIN has written a key of its write set; if it
reports a conflict, nothing changes. -/
theorem first_committer_wins (ok : s.Ok) {ord ord' : Order} {began tx : Transaction}
    (begun : (handle (.one client ord .begin) s).1 = .ok .empty)
    (opened : (handle (.one client ord .begin) s).2.txs client = some began) (middle : List Request)
    (still : ((handle (.one client ord .begin) s).2.after middle).txs client = some tx) (same : tx.id = began.id) :
    (∀ result, (handle (.one client ord' .commit) ((handle (.one client ord .begin) s).2.after middle)).1 = .ok result →
      ∀ state ∈ tx.tables, ∀ key, (state.writes.lookup key).isSome → ∀ first r rest, middle = first ++ r::rest →
        ¬Writes r ((handle (.one client ord .begin) s).2.after first) state.t key) ∧
      ∀ key, (handle (.one client ord' .commit) ((handle (.one client ord .begin) s).2.after middle)).1 =
          .error (.conflict key) →
        (handle (.one client ord' .commit) ((handle (.one client ord .begin) s).2.after middle)).2 =
          (handle (.one client ord .begin) s).2.after middle := by
  obtain ⟨tx',begins⟩ := handle_begin begun
  have start := handle_steps (.one client ord .begin) s ok
  generalize (handle (.one client ord .begin) s).2 = s₁ at *
  obtain rfl := Option.some.inj (opened.symm.trans begins.opened)
  have finish := after_steps s₁ middle start.ok
  have frame := finish.ok.executor client
  simp only [handle_one]
  rcases Executor.commit_answer frame still ord' with ⟨key,-,failed⟩ | ⟨none,answer⟩
  · change _ ∧ ∀ key, ((Executor.commit ord').exec _).1 = _ →
      (s₁.after middle).withExecutor client ((Executor.commit ord').exec _).2 = _
    refine ⟨fun result done => ?_,fun key _ => ?_⟩
    · change ((Executor.commit ord').exec _).1 = _ at done
      rw [failed] at done
      cases done
    · rw [failed]
      exact withExecutor_executor _ _
  · refine ⟨fun result done state member key written first r rest split => ?_,fun key failed => ?_⟩
    · have frames := still_open start.ok opened still same
      obtain ⟨readAt,-⟩ := begins.frame frames member
      have inside : state.t < s₁.db.tables.length := (((start.ok.txs client _ opened).frames same frames).inside state member)
      obtain ⟨write,found⟩ := Option.isSome_iff_exists.mp written
      have quiet := Executor.conflict_eq_none.mp none state member (key,write) ((SortedMap.mem_entries _).mpr found)
      rw [readAt] at quiet
      -- No commit since the BEGIN has touched the key, so neither has this request.
      have before := quiet_before start.ok middle inside quiet first (r::rest) split
      have after := quiet_before start.ok middle inside quiet (first ++ [r]) rest (by simp [split])
      rw [after_append] at after
      rintro (history | value)
      · exact history (after.1.trans before.1.symm)
      · exact value (after.2.trans before.2.symm)
    · change ((Executor.commit ord').exec _).1 = _ at failed
      rcases answer with ⟨done,-⟩ | ⟨err,wrong,other,-⟩
      · rw [done] at failed
        cases failed
      · rw [wrong] at failed
        exact absurd (Except.error.inj failed) (other key)

def beside : List Request := Sample.requests [(1,Sample.insert "u" 1 (.int 7)),(2,Sample.insert "u" 2 (.int 8))]

theorem first_committer_wins_beside :
    ∃ s₁ tx state, s₁ = (handle (.one 1 .stored .begin) (Sample.server [(1,Sample.create "u" .int)])).2 ∧
      (s₁.after beside).txs 1 = some tx ∧ state ∈ tx.tables ∧ (state.writes.lookup (ascii "1")).isSome ∧
      ¬Writes (.one 2 .stored (Sample.insert "u" 2 (.int 8))) (s₁.after [.one 1 .stored (Sample.insert "u" 1 (.int 7))])
        state.t (ascii "1") := by
  have begun : (handle (.one 1 .stored .begin) (Sample.server [(1,Sample.create "u" .int)])).1 = .ok .empty := by
    decide +kernel
  have done : (handle (.one 1 .stored .commit)
      ((handle (.one 1 .stored .begin) (Sample.server [(1,Sample.create "u" .int)])).2.after beside)).1 = .ok .empty := by
    decide +kernel
  have ids : (((handle (.one 1 .stored .begin) (Sample.server [(1,Sample.create "u" .int)])).2.after beside).txs 1).map
      Transaction.id = some 1 ∧ ((handle (.one 1 .stored .begin) (Sample.server [(1,Sample.create "u" .int)])).2.txs 1).map
      Transaction.id = some 1 := by decide +kernel
  have writes : (((handle (.one 1 .stored .begin) (Sample.server [(1,Sample.create "u" .int)])).2.after beside).txs 1).any
      (fun tx => tx.tables.any fun state => (state.writes.lookup (ascii "1")).isSome) = true := by decide +kernel
  obtain ⟨tx,still,id⟩ := Option.map_eq_some_iff.mp ids.1
  obtain ⟨began,opened,id'⟩ := Option.map_eq_some_iff.mp ids.2
  rw [still] at writes
  obtain ⟨state,member,written⟩ := List.any_eq_true.mp writes
  refine ⟨_,tx,state,rfl,still,member,written,?_⟩
  exact (first_committer_wins (Sample.server_ok _) begun opened beside still (id.trans id'.symm)).1 _ done state member _
    written [_] _ [] rfl

end Server
end GoDb
