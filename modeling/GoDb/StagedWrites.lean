import GoDb.DirectWrites
import GoDb.SnapshotReads

/-! What INSERT, UPDATE and DELETE do in a transaction: they write the rows they change
over the write set of their table, each under its printed key. -/
namespace GoDb
open Foundation Outcome

variable {key : Bytes} {ref : RowRef} {e' : Executor}

namespace TransactionTableState

variable {s : Schema} {state : TransactionTableState}

structure Staged (s : Schema) (state : TransactionTableState) : Prop where
  inside : ∀ key c, state.writes.lookup key = some (.row c) → c < state.cells.length
  keyed : ∀ key row, state.batch.lookup key = some (some row) → s.keyOf row = key

theorem batch_row {c : Nat} (written : state.writes.lookup key = some (.row c)) :
    state.batch.lookup key = some (some (state.cell c)) := by
  rw [batch,SortedMap.lookup_mapValues,written]
  rfl

def Refers (state : TransactionTableState) : RowRef → Prop
  | .read _ => True
  | .staged c => c < state.cells.length

theorem Staged.refers (staged : state.Staged s) {c : Nat} (written : state.writes.lookup key = some (.row c)) :
    state.Refers (.staged c) := staged.inside key c written

theorem cell_append {cells : List Row} (row : Row) {c : Nat} (inside : c < state.cells.length)
    (appended : cells = state.cells ++ [row]) : cells.getD c ∅ = state.cell c := by
  rw [appended,List.getD_append _ _ _ _ inside]
  rfl

@[simp] theorem stage_t (state : TransactionTableState) (key : Bytes) (ref : RowRef) (row : Row) :
    (state.stage key ref row).t = state.t := by cases ref <;> rfl

@[simp] theorem stage_readAt (state : TransactionTableState) (key : Bytes) (ref : RowRef) (row : Row) :
    (state.stage key ref row).readAt = state.readAt := by cases ref <;> rfl

theorem stage_deref (ref : RowRef) (row : Row) (key : Bytes) {other : RowRef} (refers : state.Refers other)
    (apart : ∀ c, ref = .staged c → other ≠ .staged c) : (state.stage key ref row).deref other = state.deref other := by
  cases other with
  | read r => cases ref <;> rfl
  | staged c =>
    cases ref with
    | read r => exact cell_append row refers rfl
    | staged c' =>
      have other : c' ≠ c := fun same => apart c' rfl (congrArg _ same.symm)
      simp [stage,deref,cell,List.getD_eq_getElem?_getD,List.getElem?_set_ne other]

theorem stage_refers (ref : RowRef) (row : Row) (key : Bytes) {other : RowRef} (refers : state.Refers other) :
    (state.stage key ref row).Refers other := by
  cases other with
  | read r => trivial
  | staged c =>
    change c < _
    cases ref with
    | read r =>
      change c < (state.cells ++ [row]).length
      rw [List.length_append]
      exact Nat.lt_add_right _ refers
    | staged c' =>
      change c < (state.cells.set c' row).length
      rw [List.length_set]
      exact refers

theorem stage_self (refers : state.Refers ref) (row : Row) (key : Bytes) :
    (state.stage key ref row).batch.lookup key = some (some row) := by
  cases ref with
  | read r => simp [stage,batch,cell]
  | staged c =>
    have inside : c < state.cells.length := refers
    simp [stage,batch,cell,inside]

theorem stage_batch (staged : state.Staged s) (refers : state.Refers ref)
    (same : ∀ c, ref = .staged c → s.keyOf (state.cell c) = key) (row : Row) :
    (state.stage key ref row).batch = state.batch.insert key (some row) := by
  ext1 k
  rw [SortedMap.lookup_insert]
  split_ifs with self
  · rw [self]
    exact stage_self refers row key
  · have writes : (state.stage key ref row).writes.lookup k = state.writes.lookup k := by
      cases ref <;> simp [stage,self]
    rw [batch,batch,SortedMap.lookup_mapValues,SortedMap.lookup_mapValues,writes]
    rcases found : state.writes.lookup k with _ | c | _
    · rfl
    · have apart : ∀ c', ref = .staged c' → RowRef.staged c ≠ .staged c' := by
        rintro c' there ⟨⟩
        exact self ((staged.keyed k _ (batch_row found)).symm.trans (same c there))
      exact congrArg (fun row => some (some row))
        (stage_deref ref row key (staged.refers found) apart)
    · rfl

theorem Staged.stage (staged : state.Staged s) (refers : state.Refers ref)
    (same : ∀ c, ref = .staged c → s.keyOf (state.cell c) = key) {row : Row} (named : s.keyOf row = key) :
    (state.stage key ref row).Staged s := by
  constructor
  · intro k c written
    have old (found : state.writes.lookup k = some (.row c)) : (state.stage key ref row).Refers (.staged c) :=
      stage_refers ref row key (staged.refers found)
    cases ref with
    | read r =>
      simp only [TransactionTableState.stage,SortedMap.lookup_insert] at written
      split_ifs at written
      · cases written
        simp [TransactionTableState.stage]
      · exact old written
    | staged c' =>
      simp only [TransactionTableState.stage,SortedMap.lookup_insert] at written
      split_ifs at written
      · cases written
        exact stage_refers (.staged c) row key refers
      · exact old written
  · intro k row' found
    rw [stage_batch staged refers same,SortedMap.lookup_insert] at found
    split_ifs at found with self
    · cases found
      rw [self,named]
    · exact staged.keyed k row' found

theorem stageDelete_batch (state : TransactionTableState) (key : Bytes) :
    (state.stageDelete key).batch = state.batch.insert key none := by
  ext1 k
  simp only [batch,stageDelete,SortedMap.lookup_mapValues,SortedMap.lookup_insert]
  split_ifs <;> rfl

theorem Staged.stageDelete (staged : state.Staged s) (key : Bytes) : (state.stageDelete key).Staged s := by
  constructor
  · intro k c written
    simp only [TransactionTableState.stageDelete,SortedMap.lookup_insert] at written
    split_ifs at written
    · cases written
    · exact staged.inside k c written
  · intro k row found
    rw [stageDelete_batch,SortedMap.lookup_insert] at found
    split_ifs at found
    · cases found
    · exact staged.keyed k row found

end TransactionTableState

namespace Executor

variable {e : Executor} {t : Nat} {s : Schema} {state : TransactionTableState}

theorem find_changeState {f : TransactionTableState → TransactionTableState} (kept : ∀ state, (f state).t = state.t)
    (t' : Nat) (states : List TransactionTableState) :
    (changeState t f states).find? (fun state => state.t = t') =
      if t' = t then (states.find? fun state => state.t = t).map f else states.find? fun state => state.t = t' := by
  induction states with
  | nil => simp [changeState]
  | cons state states ih =>
    unfold changeState
    by_cases here : state.t = t
    · rw [if_pos here,List.find?_cons,List.find?_cons,List.find?_cons,kept,here]
      by_cases same : t' = t
      · simp [same]
      · simp [same,Ne.symm same]
    · rw [if_neg here,List.find?_cons,List.find?_cons,List.find?_cons,ih]
      by_cases same : t' = t
      · simp [same,here]
      · simp [same]

theorem onState_exec {f : TransactionTableState → TransactionTableState} (kept : ∀ state, (f state).t = state.t)
    (inside : e.tx.isSome) : ∃ e', (onState t f).exec e = (.ok (),e') ∧ e'.db = e.db ∧ e'.tx.isSome ∧
      ∀ t', e'.state t' = if t' = t then (e.state t).map f else e.state t' := by
  refine ⟨_,rfl,rfl,by simpa using inside,fun t' => ?_⟩
  obtain ⟨tx,opened⟩ := Option.isSome_iff_exists.mp inside
  simp only [state,opened,Option.map_some]
  exact find_changeState kept t' tx.tables

structure Live (s : Schema) (state : TransactionTableState) (refs : List RowRef) : Prop where
  refers : ∀ ref ∈ refs, state.Refers ref
  distinct : (refs.map fun ref => s.keyOf (state.deref ref)).Nodup

def updates (s : Schema) (w : Option Condition) (set : Row) (rows : List Row) : List (Bytes × TransactionRow) :=
  (rows.filter (matchRow w)).map fun row => (s.keyOf (row.insertAll set.entries),some (row.insertAll set.entries))

def deletions (s : Schema) (w : Option Condition) (rows : List Row) : List (Bytes × TransactionRow) :=
  (rows.filter (matchRow w)).map fun row => (s.keyOf row,none)

structure Changed (e e' : Executor) (t : Nat) (state : TransactionTableState)
    (changes : List (Bytes × TransactionRow)) : Prop where
  db : e'.db = e.db
  table : ∃ state', e'.state t = some state' ∧ state'.readAt = state.readAt ∧
    state'.batch = state.batch.insertAll changes ∧ state'.Staged (e.db.table t).schema

theorem Live.stage {refs : List RowRef} (live : Live s state (ref::refs)) (key : Bytes) (row : Row) :
    Live s (state.stage key ref row) refs ∧ refs.map (state.stage key ref row).deref = refs.map state.deref := by
  have derefs : ∀ other ∈ refs, (state.stage key ref row).deref other = state.deref other := by
    intro other member
    refine TransactionTableState.stage_deref ref row key (live.refers other (List.mem_cons_of_mem _ member)) ?_
    rintro c rfl rfl
    exact (List.nodup_cons.mp live.distinct).1 (List.mem_map_of_mem member)
  have same := List.map_congr_left derefs
  refine ⟨⟨fun other member => ?_,?_⟩,same⟩
  · exact TransactionTableState.stage_refers ref row key (live.refers other (List.mem_cons_of_mem _ member))
  · have rest := (List.nodup_cons.mp live.distinct).2
    rw [← Function.comp_def,← List.map_map] at rest ⊢
    rwa [same]

theorem updateEach_changes (schema : (e.db.table t).schema = s) (w : Option Condition) {set : Row}
    (keyless : set.lookup s.keyColumn = none) {refs : List RowRef} (inside : e.tx.isSome) (found : e.state t = some state)
    (staged : state.Staged s) (live : Live s state refs) :
    ∃ e', (updateEach t w set refs).exec e = (.ok (updates s w set (refs.map state.deref)).length,e') ∧
      Changed e e' t state (updates s w set (refs.map state.deref)) := by
  induction refs generalizing e state with
  | nil => exact ⟨e,rfl,rfl,state,found,rfl,rfl,schema ▸ staged⟩
  | cons ref refs ih =>
    obtain ⟨refers,later⟩ := List.forall_mem_cons.mp live.refers
    unfold updateEach
    rw [exec_bind_ok (exec_get e),deref_state found,List.map_cons,updates,List.filter_cons,schema]
    split_ifs with wanted
    · dsimp only
      generalize new : SortedMap.insertAll (state.deref ref) set.entries = row
      have kept : ∀ c, ref = .staged c → s.keyOf (state.cell c) = s.keyOf row := by
        rintro c rfl
        rw [← new,Schema.keyOf_insertAll keyless]
        rfl
      obtain ⟨live₁,same⟩ := live.stage (s.keyOf row) row
      obtain ⟨e₁,ran,db,opened,states⟩ := onState_exec (t := t)
        (fun state => TransactionTableState.stage_t state (s.keyOf row) ref row) inside
      have found₁ : e₁.state t = some (state.stage (s.keyOf row) ref row) := by rw [states,if_pos rfl,found]; rfl
      obtain ⟨e',rest,changed⟩ := ih (db ▸ schema) opened found₁ (staged.stage refers kept rfl) live₁
      rw [outside_eq inside,exec_bind_ok (exec_pure () e),exec_bind_ok (show (recordWrite t _ ref row).exec e = _ from ran),
        exec_bind_ok rest,exec_pure,same]
      obtain ⟨state',found',readAt,batch,staged'⟩ := changed.table
      refine ⟨e',by simp [updates],changed.db.trans db,state',found',?_,?_,db ▸ staged'⟩
      · rw [readAt,TransactionTableState.stage_readAt]
      · rw [batch,TransactionTableState.stage_batch staged refers kept,same,List.map_cons,new]
        rfl
    · exact ih schema inside found staged ⟨later,(List.nodup_cons.mp live.distinct).2⟩

theorem deleteEach_changes (schema : (e.db.table t).schema = s) (w : Option Condition) (refs : List RowRef)
    (inside : e.tx.isSome) (found : e.state t = some state) (staged : state.Staged s) :
    ∃ e', (deleteEach t w refs).exec e = (.ok (deletions s w (refs.map state.deref)).length,e') ∧
      Changed e e' t state (deletions s w (refs.map state.deref)) := by
  induction refs generalizing e state with
  | nil => exact ⟨e,rfl,rfl,state,found,rfl,rfl,schema ▸ staged⟩
  | cons ref refs ih =>
    unfold deleteEach
    rw [exec_bind_ok (exec_get e),deref_state found,List.map_cons,deletions,List.filter_cons,schema]
    split_ifs with wanted
    · dsimp only
      generalize named : s.keyOf (state.deref ref) = key
      obtain ⟨e₁,ran,db,opened,states⟩ := onState_exec (t := t) (f := (·.stageDelete key)) (fun _ => rfl) inside
      have found₁ : e₁.state t = some (state.stageDelete key) := by rw [states,if_pos rfl,found]; rfl
      obtain ⟨e',rest,changed⟩ := ih (db ▸ schema) opened found₁ (staged.stageDelete key)
      -- The rows themselves stay where they are.
      change (deleteEach t w refs).exec e₁ = (.ok (deletions s w (refs.map state.deref)).length,e') at rest
      rw [outside_eq inside,exec_bind_ok (exec_pure () e),exec_bind_ok (show (recordDelete t key).exec e = _ from ran),
        exec_bind_ok rest,exec_pure]
      obtain ⟨state',found',readAt,batch,staged'⟩ := changed.table
      refine ⟨e',by simp [deletions],changed.db.trans db,state',found',readAt,?_,db ▸ staged'⟩
      rw [batch,TransactionTableState.stageDelete_batch,List.map_cons,named]
      rfl
    · exact ih schema inside found staged

theorem live_rowRefs (schema : (e.db.table t).schema = s) (found : e.state t = some state) (staged : state.Staged s)
    {ord : Order} (distinct : (((e.db.table t).rowsAt (ord.at 0) state.readAt).map s.keyOf).Nodup) :
    ∃ refs, e.rowRefs ord t = .ok refs ∧ e.rows ord t = .ok (refs.map state.deref) ∧ Live s state refs := by
  subst schema
  obtain ⟨pairs,made,once,members⟩ := rowRefs_pairs found ord distinct
  refine ⟨_,made,by rw [rows,made,deref_state found],?_,?_⟩
  · intro ref member
    obtain ⟨⟨key,ref⟩,inside,rfl⟩ := List.mem_map.mp member
    rcases (members key ref).mp inside with ⟨c,rfl,written⟩ | ⟨-,row,-,rfl,-⟩
    · exact staged.refers written
    · trivial
  · have keys : ∀ pair ∈ pairs, (e.db.table t).schema.keyOf (state.deref pair.2) = pair.1 := by
      rintro ⟨key,ref⟩ inside
      rcases (members key ref).mp inside with ⟨c,rfl,written⟩ | ⟨-,row,-,rfl,named⟩
      · exact staged.keyed key _ (TransactionTableState.batch_row written)
      · exact named
    rw [List.map_map]
    exact (List.map_congr_left keys).symm ▸ once

end Executor

def Statement.target : Statement → Option Bytes
  | .insert q => some q.table
  | .update q => some q.table
  | .delete q => some q.table
  | _ => none

namespace Executor

variable {e : Executor} {t : Nat} {state : TransactionTableState}

/-- The changes a statement makes to the rows its executor sees, with the keys they are under. -/
def changes (e : Executor) (ord : Order) (t : Nat) : Statement → Except Error (List (Bytes × TransactionRow))
  | .insert q => do
    let given ← (e.db.table t).schema.insertRow (q.columns.zip q.values) ∅
    let row ← e.keyedRow (ord.at 0) t given
    .ok [((e.db.table t).schema.keyOf row,some row)]
  | .update q => do
    let set ← (e.db.table t).schema.updateSet ((ord.at 0).arrange q.set.entries) ∅
    let rows ← e.rows (ord.at 1) t
    .ok (updates (e.db.table t).schema q.condition set rows)
  | .delete q => do
    let rows ← e.rows ord t
    .ok (deletions (e.db.table t).schema q.condition rows)
  | _ => .ok []

def KeepsKeys (e : Executor) : Statement → Prop
  | .update q => ∀ t, e.table q.table = .ok t → q.set.lookup (e.db.table t).schema.keyColumn = none
  | _ => True

section Acknowledged

variable {ord : Order} {out : Result} (inside : e.tx.isSome) (found : e.state t = some state)
  (staged : state.Staged (e.db.table t).schema)
  (distinct : ∀ ord, (((e.db.table t).rowsAt ord state.readAt).map (e.db.table t).schema.keyOf).Nodup)

include inside found staged

theorem insert_changes {q : Insert} (named : e.table q.table = .ok t) (ran : (insert ord q).exec e = (.ok out,e')) :
    ∃ made, e.changes ord t (.insert q) = .ok made ∧ out.affected = made.length ∧ (made.map Prod.fst).Nodup ∧
      Changed e e' t state made := by
  unfold insert at ran
  rw [exec_bind_ok (exec_get e),exec_of_bind named] at ran
  obtain ⟨given,first,ran⟩ := of_bind_success ran
  obtain ⟨_,_,nonempty,ran⟩ := bind_success ran
  rw [exec_refuse] at nonempty
  obtain ⟨-,rfl⟩ := Prod.mk.inj nonempty
  obtain ⟨row,second,ran⟩ := of_bind_success ran
  obtain ⟨_,-,ran⟩ := of_bind_success ran
  rw [if_pos inside] at ran
  obtain ⟨_,_,write,ran⟩ := bind_success ran
  obtain ⟨last,rfl⟩ := Prod.mk.inj ran
  obtain rfl := Except.ok.inj last
  have refers : state.Refers (.read row) := trivial
  have kept : ∀ c, RowRef.read row = .staged c → (e.db.table t).schema.keyOf (state.cell c) =
      (e.db.table t).schema.keyOf row := nofun
  obtain ⟨e₁,done,db,-,states⟩ := onState_exec (t := t)
    (fun state => TransactionTableState.stage_t state ((e.db.table t).schema.keyOf row) (.read row) row) inside
  obtain ⟨-,rfl⟩ := Prod.mk.inj (done.symm.trans write)
  have found₁ : e₁.state t = some (state.stage ((e.db.table t).schema.keyOf row) (.read row) row) := by
    rw [states,if_pos rfl,found]
    rfl
  refine ⟨[((e.db.table t).schema.keyOf row,some row)],?_,rfl,List.nodup_singleton _,db,_,found₁,rfl,?_,?_⟩
  · simp [changes,first,second,bind,Except.bind]
  · exact TransactionTableState.stage_batch staged refers kept row
  · exact staged.stage refers kept rfl

include distinct

theorem update_changes {q : Update} (named : e.table q.table = .ok t)
    (keeps : q.set.lookup (e.db.table t).schema.keyColumn = none) (ran : (update ord q).exec e = (.ok out,e')) :
    ∃ made, e.changes ord t (.update q) = .ok made ∧ out.affected = made.length ∧ (made.map Prod.fst).Nodup ∧
      Changed e e' t state made := by
  unfold update at ran
  rw [exec_bind_ok (exec_get e),exec_of_bind named] at ran
  obtain ⟨set,assigned,ran⟩ := of_bind_success ran
  obtain ⟨refs,made,rows,live⟩ := live_rowRefs rfl found staged (distinct ((ord.at 1).at 0))
  rw [exec_of_bind made] at ran
  have keyless := Schema.updateSet_keyless keeps assigned
  obtain ⟨e₁,done,changed⟩ := updateEach_changes rfl q.condition keyless inside found staged live
  rw [exec_bind_ok done] at ran
  obtain ⟨last,rfl⟩ := Prod.mk.inj ran
  obtain rfl := Except.ok.inj last
  refine ⟨_,?_,rfl,?_,changed⟩
  · simp [changes,assigned,rows,bind,Except.bind]
  · have keys := live.distinct
    rw [← Function.comp_def,← List.map_map] at keys
    rw [updates,List.map_map]
    simp only [Function.comp_def,Schema.keyOf_insertAll keyless]
    exact keys.sublist (List.filter_sublist.map _)

theorem delete_changes {q : Delete} (named : e.table q.table = .ok t) (ran : (delete ord q).exec e = (.ok out,e')) :
    ∃ made, e.changes ord t (.delete q) = .ok made ∧ out.affected = made.length ∧ (made.map Prod.fst).Nodup ∧
      Changed e e' t state made := by
  unfold delete at ran
  rw [exec_bind_ok (exec_get e),exec_of_bind named] at ran
  obtain ⟨refs,made,rows,live⟩ := live_rowRefs rfl found staged (distinct (ord.at 0))
  rw [exec_of_bind made] at ran
  obtain ⟨e₁,done,changed⟩ := deleteEach_changes rfl q.condition refs inside found staged
  rw [exec_bind_ok done] at ran
  obtain ⟨last,rfl⟩ := Prod.mk.inj ran
  obtain rfl := Except.ok.inj last
  refine ⟨_,?_,rfl,?_,changed⟩
  · simp [changes,rows,bind,Except.bind]
  · have keys := live.distinct
    rw [← Function.comp_def,← List.map_map] at keys
    rw [deletions,List.map_map]
    exact keys.sublist (List.filter_sublist.map _)

theorem executeStatement_changes {st : Statement} {name : Bytes} (target : st.target = some name)
    (named : e.table name = .ok t) (keeps : e.KeepsKeys st) (ran : (executeStatement ord st).exec e = (.ok out,e')) :
    ∃ made, e.changes ord t st = .ok made ∧ out.affected = made.length ∧ (made.map Prod.fst).Nodup ∧
      Changed e e' t state made := by
  cases st with
  | insert q =>
    cases target
    exact insert_changes inside found staged named ran
  | update q =>
    cases target
    exact update_changes inside found staged distinct named (keeps t named) ran
  | delete q =>
    cases target
    exact delete_changes inside found staged distinct named ran
  | _ => cases target

end Acknowledged

end Executor
end GoDb
