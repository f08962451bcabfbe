import GoDb.Committed
import GoDb.StagedWrites

/-! Acknowledged writes. What a statement of a transaction has changed is among the rows
the transaction reads from then on, and in the table once it has committed, if the table
was there at the BEGIN. -/
namespace GoDb
open Foundation Outcome

namespace Executor

variable {e e' : Executor} {t : Nat} {state : TransactionTableState}

def Carried (e : Executor) : Prop := ∀ t state, e.state t = some state → state.Staged (e.db.table t).schema

theorem Carried.onState (carried : e.Carried) (inside : e.tx.isSome) {f : TransactionTableState → TransactionTableState}
    (kept : ∀ state, (f state).t = state.t)
    (stages : ∀ state, e.state t = some state → (f state).Staged (e.db.table t).schema) :
    ∃ e', (onState t f).exec e = (.ok (),e') ∧ e'.Carried ∧ e'.db = e.db ∧ e'.tx.isSome ∧
      e'.state t = (e.state t).map f := by
  obtain ⟨e',ran,db,opened,states⟩ := onState_exec (t := t) kept inside
  refine ⟨e',ran,fun t' state found => ?_,db,opened,by rw [states,if_pos rfl]⟩
  rw [states] at found
  rw [db]
  split_ifs at found with same
  · obtain ⟨old,before,rfl⟩ := Option.map_eq_some_iff.mp found
    rw [same]
    exact stages old before
  · exact carried t' state found

theorem rowRefs_refers (staged : state.Staged (e.db.table t).schema) (found : e.state t = some state) {ord : Order}
    {refs : List RowRef} (made : e.rowRefs ord t = .ok refs) : ∀ ref ∈ refs, state.Refers ref := by
  rw [rowRefs,found] at made
  obtain rfl := Except.ok.inj made
  intro ref member
  rcases Overlay.mem_writeAll member with read | ⟨key,written⟩
  · obtain ⟨row,-,rfl⟩ := List.mem_map.mp read
    trivial
  · obtain ⟨c,rfl,stored⟩ := mem_overlays.mp written
    exact staged.refers stored

theorem updateEach_carried (w : Option Condition) {set : Row} {s : Schema} (schema : (e.db.table t).schema = s)
    (keyless : set.lookup s.keyColumn = none) {refs : List RowRef} (inside : e.tx.isSome) (carried : e.Carried)
    (refers : ∀ state, e.state t = some state → ∀ ref ∈ refs, state.Refers ref) :
    ((updateEach t w set refs).exec e).2.Carried := by
  induction refs generalizing e with
  | nil => exact carried
  | cons ref refs ih =>
    unfold updateEach
    rw [exec_bind_ok (exec_get e)]
    split_ifs with wanted
    · dsimp only
      rw [outside_eq inside,exec_bind_ok (exec_pure () e),schema]
      have stages : ∀ state, e.state t = some state →
          (state.stage (s.keyOf ((e.deref t ref).insertAll set.entries)) ref ((e.deref t ref).insertAll set.entries)).Staged
            (e.db.table t).schema := by
        intro state found
        rw [schema]
        refine (schema ▸ carried t state found).stage (refers state found ref List.mem_cons_self) ?_ rfl
        rintro c rfl
        rw [Schema.keyOf_insertAll keyless,deref_state found]
        rfl
      obtain ⟨e₁,ran,carried₁,db,opened,found₁⟩ := carried.onState inside
        (fun state => TransactionTableState.stage_t state _ ref _) stages
      rw [exec_bind_ok (show (recordWrite t _ ref _).exec e = _ from ran)]
      rw [exec_bind_pure]
      refine ih (db ▸ schema) opened carried₁ fun state found other member => ?_
      rw [found₁] at found
      obtain ⟨old,before,rfl⟩ := Option.map_eq_some_iff.mp found
      exact TransactionTableState.stage_refers ref _ _ (refers old before other (List.mem_cons_of_mem _ member))
    · exact ih schema inside carried fun state found other member =>
        refers state found other (List.mem_cons_of_mem _ member)

theorem deleteEach_carried (w : Option Condition) {refs : List RowRef} (inside : e.tx.isSome) (carried : e.Carried) :
    ((deleteEach t w refs).exec e).2.Carried := by
  induction refs generalizing e with
  | nil => exact carried
  | cons ref refs ih =>
    unfold deleteEach
    rw [exec_bind_ok (exec_get e)]
    split_ifs with wanted
    · dsimp only
      rw [outside_eq inside,exec_bind_ok (exec_pure () e)]
      obtain ⟨e₁,ran,carried₁,-,opened,-⟩ := carried.onState (t := t) inside
        (f := (·.stageDelete ((e.db.table t).schema.keyOf (e.deref t ref)))) (fun _ => rfl)
        fun state found => (carried t state found).stageDelete _
      rw [exec_bind_ok (show (recordDelete t _).exec e = _ from ran),exec_bind_pure]
      exact ih opened carried₁
    · exact ih inside carried

private abbrev Orderly (_ e' : Executor) : Prop := e'.Carried

theorem executeStatement_carried (ord : Order) {st : Statement} (data : st.isData) (keeps : e.KeepsKeys st)
    (inside : e.tx.isSome) (carried : e.Carried) : ((executeStatement ord st).exec e).2.Carried := by
  cases st with
  | select q => exact carried
  | insert q =>
    change ((insert ord q).exec e).2.Carried
    unfold insert
    rw [exec_bind_ok (exec_get e)]
    refine Keeps.of_bind_at (R := Orderly) carried fun t named => Keeps.of_bind_at carried fun given _ => ?_
    refine Keeps.refuse_bind_at carried (Keeps.of_bind_at carried fun row _ => Keeps.of_bind_at carried fun _ _ => ?_)
    have stages : ∀ state, e.state t = some state →
        (state.stage ((e.db.table t).schema.keyOf row) (.read row) row).Staged (e.db.table t).schema :=
      fun state found => (carried t state found).stage (show state.Refers (.read row) from trivial) nofun rfl
    obtain ⟨e₁,ran,carried₁,-⟩ := carried.onState inside
      (fun state => TransactionTableState.stage_t state _ (.read row) row) stages
    change Executor.Carried _
    rw [if_pos inside,exec_bind_pure,show (recordWrite t _ (.read row) row).exec e = _ from ran]
    exact carried₁
  | update q =>
    change ((update ord q).exec e).2.Carried
    unfold update
    rw [exec_bind_ok (exec_get e)]
    refine Keeps.of_bind_at (R := Orderly) carried fun t named => Keeps.of_bind_at carried fun set assigned =>
      Keeps.of_bind_at carried fun refs made => ?_
    change Executor.Carried _
    rw [exec_bind_pure]
    exact updateEach_carried q.condition rfl (Schema.updateSet_keyless (keeps t named) assigned) inside carried
      fun state found => rowRefs_refers (carried t state found) found made
  | delete q =>
    change ((delete ord q).exec e).2.Carried
    unfold delete
    rw [exec_bind_ok (exec_get e)]
    refine Keeps.of_bind_at (R := Orderly) carried fun t named => Keeps.of_bind_at carried fun refs made => ?_
    change Executor.Carried _
    rw [exec_bind_pure]
    exact deleteEach_carried q.condition inside carried
  | _ => cases data

def Idle (e e' : Executor) : Prop := ∀ tx', e'.tx = some tx' → ∃ tx, e.tx = some tx ∧ tx'.tables = tx.tables

theorem idle : Frame Idle where
  refl _ tx' opened := ⟨tx',opened,rfl⟩
  trans first second tx' opened := by
    obtain ⟨tx,before,same⟩ := second tx' opened
    obtain ⟨old,start,same'⟩ := first tx before
    exact ⟨old,start,same.trans same'⟩

theorem onTable_idle {α : Type} (t : Nat) (x : TableM α) : Proc.Keeps Idle (onTable t x) :=
  fun _ tx' opened => ⟨tx',opened,rfl⟩

theorem releaseSnapshots_idle (states : List TransactionTableState) : Proc.Keeps Idle (releaseSnapshots states) :=
  releaseSnapshots_frame idle (fun _ => onTable_idle _ _) states

theorem undoIdle : UndoRule Idle := ⟨idle,fun e t _ => onTable_idle t _ e,fun _ => onTable_idle _ _⟩

theorem commit_idle (ord : Order) : Proc.Keeps Idle (commit ord) := by
  have tables := commitTables_frame idle fun t _ _ _ => onTable_idle t _
  apply commit_frame idle releaseSnapshots_idle (fun _ => nofun) _ tables
  intro e tx opened tx' same
  exact ⟨tx,opened,by cases same; rfl⟩

theorem rollback_idle : Proc.Keeps Idle rollback :=
  rollback_frame idle releaseSnapshots_idle (fun _ => nofun) undoIdle.rollbackTables

theorem create_idle (q : CreateTable) : Proc.Keeps Idle (create q) :=
  create_frame idle (fun _ _ _ _ _ tx' opened => ⟨tx',opened,rfl⟩) q

theorem state_eq_some : e.state t = some state ↔
    ∃ tx, e.tx = some tx ∧ tx.tables.find? (fun state => state.t = t) = some state := by
  rw [Executor.state]
  cases e.tx <;> simp

theorem Idle.carried (still : e.Idle e') (ok : e.Ok) (moves : e.db.Moves e'.db) (carried : e.Carried) : e'.Carried := by
  intro t state found
  obtain ⟨tx',opened,there⟩ := state_eq_some.mp found
  obtain ⟨tx,before,same⟩ := still tx' opened
  rw [same] at there
  have member := List.mem_of_find?_eq_some there
  have address : state.t = t := by simpa using List.find?_some there
  rw [moves.schema t (address ▸ (ok.tx tx before).inside state member)]
  exact carried t state (state_eq_some.mpr ⟨tx,before,there⟩)

theorem executeStatement_idle (ord : Order) {st : Statement} (control : st.isData = false) (inside : e.tx.isSome) :
    e.Idle ((executeStatement ord st).exec e).2 := by
  cases st with
  | begin =>
    change e.Idle ((begin ord).exec e).2
    rcases begin_outcome ord e with failed | ⟨closed,-⟩
    · rw [failed]
      exact idle.refl e
    · rw [closed] at inside
      cases inside
  | commit => exact commit_idle ord e
  | rollback => exact rollback_idle e
  | createTable q => exact create_idle q e
  | _ => cases control

end Executor

namespace Server

variable {s : Server} {client : Nat}

/-- The requests of a client come one statement at a time, and its UPDATEs leave the keys alone. -/
def Careful (s : Server) (client : Nat) (r : Request) : Prop :=
  r.client = client → ∀ statements, r.body = .execute statements →
    ∃ st, statements = [st] ∧ (s.executor client).KeepsKeys st

theorem handle_carried {r : Request} (ok : s.Ok) (careful : s.Careful client r) (opened : (s.txs client).isSome)
    (carried : (s.executor client).Carried) : ((handle r s).2.executor client).Carried := by
  have step := handle_steps r s ok
  by_cases own : r.client = client
  · subst own
    obtain ⟨client,ord,body⟩ := r
    cases body with
    | disconnect =>
      have closed : (handle ⟨client,ord,.disconnect⟩ s).2.txs client = none := by
        simp only [handle,if_pos opened,withExecutor_tx]
        rfl
      intro t state found
      obtain ⟨tx,still,-⟩ := Executor.state_eq_some.mp found
      exact absurd (closed.symm.trans still) (Option.some_ne_none tx).symm
    | execute statements =>
      obtain ⟨st,rfl,keeps⟩ := careful rfl statements rfl
      have result := congrArg Prod.snd (handle_one client ord st s)
      change (handle ⟨client,ord,.execute [st]⟩ s).2 = _ at result
      rw [result,executor_withExecutor]
      cases data : st.isData with
      | true => exact Executor.executeStatement_carried ord data keeps opened carried
      | false =>
        have moves := (Executor.executeStatement_keeps ord st (s.executor client) (ok.executor client)).moves
        exact (Executor.executeStatement_idle ord data opened).carried (ok.executor client) moves carried
  · have same := handle_tx (Ne.symm own) s
    have still : (s.executor client).Idle ((handle r s).2.executor client) := fun tx' after =>
      ⟨tx',same.symm.trans after,rfl⟩
    exact still.carried (ok.executor client) step.moves carried

theorem after_carried (ok : s.Ok) {began tx : Transaction} (opened : s.txs client = some began)
    (carried : (s.executor client).Carried) {requests : List Request}
    (careful : ∀ first r rest, requests = first ++ r::rest → (s.after first).Careful client r)
    (still : (s.after requests).txs client = some tx) (same : tx.id = began.id) :
    ((s.after requests).executor client).Carried := by
  induction requests generalizing s began with
  | nil => exact carried
  | cons r requests ih =>
    have step := handle_steps r s ok
    have next := handle_carried ok (careful [] r requests rfl) (opened ▸ rfl) carried
    change ((handle r s).2.after requests).txs client = some tx at still
    rcases (after_steps _ requests step.ok).evolves client tx still with ⟨between,was,id,-⟩ | new
    · exact ih step.ok was next (fun first r' rest split => careful (r::first) r' rest (congrArg (r::·) split)) still id
    · have bound := (ok.txs client began opened).id.trans step.moves.begins
      rw [same] at new
      exact absurd new (Nat.not_lt.mpr bound)

/-- A request that leaves the write sets of a client as they are: one of another client, or a SELECT. -/
def Quiet (client : Nat) (r : Request) : Prop := r.client = client → ∃ q, r.body = .execute [.select q]

theorem after_quiet {requests : List Request} (quiet : ∀ r ∈ requests, Quiet client r) (s : Server) :
    (s.after requests).txs client = s.txs client := by
  induction requests generalizing s with
  | nil => rfl
  | cons r requests ih =>
    obtain ⟨first,rest⟩ := List.forall_mem_cons.mp quiet
    refine (ih rest (handle r s).2).trans ?_
    by_cases own : r.client = client
    · obtain ⟨client,ord,body⟩ := r
      obtain ⟨q,rfl⟩ := first own
      obtain rfl : client = _ := own
      simp only [handle,withExecutor_tx,if_true]
      rfl
    · exact handle_tx (Ne.symm own) s

end Server

def Schema.Shows (s : Schema) (rows : List Row) : Bytes × TransactionRow → Prop
  | (key,some row) => row ∈ rows ∧ s.keyOf row = key
  | (key,none) => ∀ row ∈ rows, s.keyOf row ≠ key

def Schema.readBack (s : Schema) : TransactionRow → Except Error (Option Row)
  | some row => (s.roundTrip row).map some
  | none => .ok none

namespace TransactionTableState

variable {s : Schema} {state : TransactionTableState}

theorem over_shows (staged : state.Staged s) (read : List Row) {change : Bytes × TransactionRow}
    (written : state.batch.lookup change.1 = some change.2) : s.Shows (state.overlaid s read) change := by
  obtain ⟨key,_ | row⟩ := change
  · rintro row member rfl
    rcases List.mem_append.mp member with kept | new
    · have unwritten := (List.mem_filter.mp kept).2
      rw [Option.isNone_iff_eq_none] at unwritten
      rw [batch,SortedMap.lookup_mapValues,unwritten] at written
      cases written
    · obtain ⟨⟨key,_⟩,entry,rfl⟩ := List.mem_filterMap.mp new
      have stored := (SortedMap.mem_entries _).mp entry
      rw [← staged.keyed key row stored,written] at stored
      cases stored
  · refine ⟨List.mem_append_right _ (List.mem_filterMap.mpr ⟨(key,some row),?_,rfl⟩),staged.keyed key row written⟩
    exact (SortedMap.mem_entries _).mpr written

end TransactionTableState

theorem Schema.Shows.perm {s : Schema} {rows rows' : List Row} {change : Bytes × TransactionRow}
    (shows : s.Shows rows change) (perm : rows'.Perm rows) : s.Shows rows' change := by
  obtain ⟨key,_ | row⟩ := change
  · exact fun row member => shows row (perm.mem_iff.mp member)
  · exact ⟨perm.mem_iff.mpr shows.1,shows.2⟩

theorem Executor.Begins.carried {e e' : Executor} {tx : Transaction} (begins : Begins e e' tx) : e'.Carried := by
  intro t state found
  obtain ⟨tx',opened,place⟩ := state_eq_some.mp found
  obtain rfl := Option.some.inj (begins.opened.symm.trans opened)
  have empty := (begins.begun state (List.mem_of_find?_eq_some place)).writes
  constructor
  · intro key c written
    rw [empty] at written
    cases written
  · intro key row written
    rw [TransactionTableState.batch,SortedMap.lookup_mapValues,empty] at written
    cases written

namespace Server

variable {s : Server} {client : Nat}

def assign : Statement := .update ⟨ascii "u",SortedMap.insert ∅ (ascii "a") (.int 5),none⟩

def begunBeside : Server :=
  (handle (.one 1 .stored .begin) oneRow).2.after [.one 2 .stored (Sample.insert "u" 2 (.int 8))]

def createdLater : Server := Sample.server [(1,.begin),(2,Sample.create "u" .int)]

end Server
end GoDb
