import GoDb.ExecutorInvariant
import GoDb.TableMeaning

/-! What a COMMIT does. It checks all its keys, and then passes the write sets on, table by
table, until one of them fails. Which operations it carries out is known beforehand. -/
namespace GoDb
open Foundation Outcome

theorem Table.Applied.like {t t' t'' : Table} {ops : List BatchOp} (applied : t.Applied t' ops) (like : t'.Like t'') :
    t.Applied t'' ops := by
  obtain ⟨n,rfl⟩ := like
  exact ⟨applied.schema,applied.secondary,applied.entries⟩

namespace Executor

theorem conflict_eq_none {db : Db} {ord : Order} {states : List TransactionTableState} :
    conflict db ord states = none ↔ ∀ state ∈ states, ∀ e ∈ state.writes.entries,
      (db.table state.t).store.changedSince state.readAt e.1 = false := by
  unfold conflict
  rw [List.findSome?_eq_none_iff]
  constructor
  · intro none state member e written
    obtain ⟨k,inside⟩ := List.mem_iff_getElem?.mp member
    have each := none (state,k) (List.mem_zipIdx_iff_getElem?.mpr inside)
    rw [List.findSome?_eq_none_iff] at each
    simpa using each e ((ord.at k).mem_arrange.mpr written)
  · rintro none ⟨state,k⟩ member
    rw [List.findSome?_eq_none_iff]
    intro e written
    have there := List.mem_of_getElem? (List.mem_zipIdx_iff_getElem?.mp member)
    simp [none state there e ((ord.at k).mem_arrange.mp written)]

theorem commit_cases (ord : Order) (e : Executor) :
    e.tx = none ∧ (commit ord).exec e = (.error .noTransaction,e) ∨ ∃ tx, e.tx = some tx ∧
      ((∃ key, conflict e.db (ord.at 0) tx.tables = some key ∧ (commit ord).exec e = (.error (.conflict key),e)) ∨
        conflict e.db (ord.at 0) tx.tables = none ∧
          (commit ord).exec e = Proc.exec (do
            commitTables (ord.at 1) (e.db.nextCommitSequence + 1) tx.tables.zipIdx
            releaseSnapshots tx.tables
            modify fun e => {e with tx := none}
            pure .empty) (e.committing tx)) := by
  unfold commit
  rw [exec_bind_ok (exec_get e)]
  rcases opened : e.tx with _ | tx
  · exact .inl ⟨rfl,rfl⟩
  · refine .inr ⟨tx,rfl,?_⟩
    dsimp only
    rcases found : conflict e.db (ord.at 0) tx.tables with _ | key
    · exact .inr ⟨rfl,rfl⟩
    · exact .inl ⟨key,rfl,rfl⟩

def reached (db : Db) : List (TransactionTableState × Nat) → List (TransactionTableState × Nat)
  | [] => []
  | (state,k)::states =>
    if ∀ write ∈ state.batch.entries, (db.table state.t).schema.Writable write then (state,k)::reached db states
    else [(state,k)]

theorem reached_subset (db : Db) (states : List (TransactionTableState × Nat)) : reached db states ⊆ states := by
  induction states with
  | nil => exact fun _ member => member
  | cons p states ih =>
    unfold reached
    split_ifs
    · exact List.cons_subset_cons _ ih
    · exact List.cons_subset_cons _ (List.nil_subset _)

theorem reached_congr (db db' : Db) {states : List (TransactionTableState × Nat)}
    (schema : ∀ p ∈ states, (db'.table p.1.t).schema = (db.table p.1.t).schema) :
    reached db' states = reached db states := by
  induction states with
  | nil => rfl
  | cons p states ih =>
    obtain ⟨here,rest⟩ := List.forall_mem_cons.mp schema
    rw [reached,reached,here,ih rest]

def writeSetOps (db : Db) (ord : Order) (p : TransactionTableState × Nat) : List BatchOp :=
  (db.table p.1.t).schema.applied ((ord.at p.2).arrange p.1.batch.entries)

private theorem commitTables_outcome (ord : Order) (id : Nat) (states : List (TransactionTableState × Nat)) {e : Executor}
    (ok : e.Ok) (distinct : (states.map (·.1.t)).Nodup) (inside : ∀ p ∈ states, p.1.t < e.db.tables.length) :
    (∀ p ∈ reached e.db states, (e.db.table p.1.t).Applied (((commitTables ord id states).exec e).2.db.table p.1.t)
        (writeSetOps e.db ord p)) ∧
      (∀ t ∉ (reached e.db states).map (·.1.t), ((commitTables ord id states).exec e).2.db.table t = e.db.table t) ∧
      (((commitTables ord id states).exec e).1 = .ok () ∧
          (∀ p ∈ states, ∀ write ∈ p.1.batch.entries, (e.db.table p.1.t).schema.Writable write) ∨
        ∃ err, ((commitTables ord id states).exec e).1 = .error err ∧ (∀ key, err ≠ .conflict key) ∧
          ¬∀ p ∈ states, ∀ write ∈ p.1.batch.entries, (e.db.table p.1.t).schema.Writable write) := by
  induction states generalizing e with
  | nil => exact ⟨List.forall_mem_nil _,fun _ _ => rfl,.inl ⟨rfl,List.forall_mem_nil _⟩⟩
  | cons p states ih =>
    obtain ⟨state,k⟩ := p
    obtain ⟨fresh,others⟩ := List.nodup_cons.mp distinct
    obtain ⟨here,rest⟩ := List.forall_mem_cons.mp inside
    obtain ⟨applied,result⟩ := Table.applyRowsBatch_outcome (ok.db.sound state.t here) (ord.at k) id state.batch
    have step := onTable_keeps state.t (Table.applyRowsBatch_keeps (ord.at k) id state.batch) e ok
    have ran := onTable_exec state.t (Table.applyRowsBatch (ord.at k) id state.batch) e
    unfold commitTables reached
    rw [exec_bind,ran]
    rw [ran] at step
    generalize (Table.applyRowsBatch (ord.at k) id state.batch).exec (e.db.table state.t) = out at applied result step ⊢
    have changed : ∀ t, (e.db.withTable state.t out.2).table t = if state.t = t then out.2 else e.db.table t := by
      intro t
      rw [Db.table_withTable]
      simp [here]
    -- A table that cannot be written ends the loop, with its own batch applied as far as it got.
    rcases result with ⟨done,writable⟩ | ⟨err,failed,other,unwritable⟩
    · -- No later state is for this table, so what the batch did to it stays.
      have apart : ∀ q ∈ states, state.t ≠ q.1.t := fun q member same =>
        fresh (List.mem_map.mpr ⟨q,member,same.symm⟩)
      have kept : ∀ q ∈ states, (e.db.withTable state.t out.2).table q.1.t = e.db.table q.1.t := fun q member => by
        rw [changed,if_neg (apart q member)]
      have same := reached_congr e.db _ fun q member => congrArg Table.schema (kept q member)
      obtain ⟨each,unchanged,answer⟩ := ih step.ok others fun q member =>
        Nat.lt_of_lt_of_le (rest q member) step.moves.length
      dsimp only at each unchanged answer
      rw [same] at each unchanged
      rw [if_pos writable]
      simp only [done]
      refine ⟨List.forall_mem_cons.mpr ⟨?_,fun q member => ?_⟩,fun t absent => ?_,?_⟩
      · have untouched : state.t ∉ (reached e.db states).map (·.1.t) := fun member => by
          obtain ⟨q,there,equal⟩ := List.mem_map.mp member
          exact apart q (reached_subset _ _ there) equal.symm
        rw [unchanged _ untouched,changed,if_pos rfl]
        exact applied
      · have there := reached_subset _ _ member
        have result := each q member
        rwa [writeSetOps,kept q there] at result
      · obtain ⟨first,later⟩ := not_or.mp (List.mem_cons.not.mp absent)
        rw [unchanged t later,changed,if_neg (Ne.symm first)]
      · have writes : (∀ q ∈ (state,k)::states, ∀ write ∈ q.1.batch.entries, (e.db.table q.1.t).schema.Writable write) ↔
            ∀ q ∈ states, ∀ write ∈ q.1.batch.entries,
              ((e.db.withTable state.t out.2).table q.1.t).schema.Writable write := by
          rw [List.forall_mem_cons]
          refine ⟨fun all q member => ?_,fun all => ⟨writable,fun q member => ?_⟩⟩
          · rw [kept q member]
            exact all.2 q member
          · have result := all q member
            rwa [kept q member] at result
        rw [writes]
        exact answer
    · rw [if_neg unwritable]
      simp only [failed]
      refine ⟨List.forall_mem_singleton.mpr ?_,fun t absent => ?_,.inr ⟨err,rfl,other,fun all => ?_⟩⟩
      · rw [changed,if_pos rfl]
        exact applied
      · rw [changed,if_neg fun same => absent (by simp [same])]
      · exact unwritable (all _ List.mem_cons_self)

private theorem zipIdx_distinct {states : List TransactionTableState} (distinct : (states.map (·.t)).Nodup) :
    (states.zipIdx.map (·.1.t)).Nodup := by
  rw [← List.zipIdx_map_fst 0 states,List.map_map] at distinct
  exact distinct

/-- The operations that a COMMIT carries out on a table, before it succeeds or fails. -/
def commitOps (e : Executor) (ord : Order) (t : Nat) : List BatchOp :=
  match e.tx with
  | none => []
  | some tx =>
    if (conflict e.db (ord.at 0) tx.tables).isSome then []
    else
      match (reached e.db tx.tables.zipIdx).find? fun p => p.1.t = t with
      | none => []
      | some p => writeSetOps e.db (ord.at 1) p

def Committable (db : Db) (tx : Transaction) : Prop :=
  ∀ state ∈ tx.tables, ∀ write ∈ state.batch.entries, (db.table state.t).schema.Writable write

private theorem committing_outcome (ord : Order) {e : Executor} {tx : Transaction} (ok : e.Ok) (opened : e.tx = some tx)
    (result : Except Error Result × Executor)
    (ran : result = Proc.exec (do
      commitTables (ord.at 1) (e.db.nextCommitSequence + 1) tx.tables.zipIdx
      releaseSnapshots tx.tables
      modify fun e => {e with tx := none}
      pure .empty) (e.committing tx)) :
    (∀ p ∈ reached e.db tx.tables.zipIdx,
        (e.db.table p.1.t).Applied (result.2.db.table p.1.t) (writeSetOps e.db (ord.at 1) p)) ∧
      (∀ t ∉ (reached e.db tx.tables.zipIdx).map (·.1.t), (e.db.table t).Like (result.2.db.table t)) ∧
      (result.1 = .ok .empty ∧ result.2.tx = none ∧ Committable e.db tx ∨
        ∃ err, result.1 = .error err ∧ (∀ key, err ≠ .conflict key) ∧ ¬Committable e.db tx) := by
  have frame := (committing_steps opened ok).ok
  have inside : ∀ p ∈ tx.tables.zipIdx, p.1.t < e.db.tables.length := forall_zipIdx.mpr (ok.tx tx opened).inside
  obtain ⟨each,others,answer⟩ := commitTables_outcome (ord.at 1) (e.db.nextCommitSequence + 1) tx.tables.zipIdx frame
    (zipIdx_distinct (ok.tx tx opened).distinct) inside
  have committable : (∀ p ∈ tx.tables.zipIdx, ∀ write ∈ p.1.batch.entries,
      (e.db.table p.1.t).schema.Writable write) ↔ Committable e.db tx :=
    forall_zipIdx (P := fun state : TransactionTableState =>
      ∀ write ∈ state.batch.entries, (e.db.table state.t).schema.Writable write)
  rw [reached_congr e.db (e.committing tx).db fun _ _ => rfl] at each others
  rw [exec_bind] at ran
  generalize (commitTables (ord.at 1) (e.db.nextCommitSequence + 1) tx.tables.zipIdx).exec (e.committing tx) = middle
    at each others answer ran
  obtain ⟨outcome,after⟩ := middle
  rcases answer with ⟨rfl,writable⟩ | ⟨err,rfl,other,unwritable⟩
  · obtain ⟨last,released,like,-⟩ := releaseSnapshots_outcome tx.tables after
    dsimp only at ran
    rw [exec_bind_ok released] at ran
    subst ran
    refine ⟨fun p member => (each p member).like (like.tables _),fun t absent => ?_,
      .inl ⟨rfl,rfl,committable.mp writable⟩⟩
    have kept := others t absent
    exact (show e.db.table t = after.db.table t from kept.symm) ▸ like.tables t
  · subst ran
    refine ⟨each,fun t absent => ?_,.inr ⟨err,rfl,other,fun all => unwritable (committable.mpr all)⟩⟩
    have kept := others t absent
    exact (show e.db.table t = after.db.table t from kept.symm) ▸ .refl _

variable {e : Executor} {tx : Transaction}

/-- Whatever it answers, a COMMIT does these operations and no others. -/
theorem commit_applied (ok : e.Ok) (ord : Order) (t : Nat) :
    (e.db.table t).Applied (((commit ord).exec e).2.db.table t) (e.commitOps ord t) := by
  have same : (e.db.table t).Applied (e.db.table t) [] := ⟨rfl,rfl,rfl⟩
  unfold commitOps
  rcases commit_cases ord e with ⟨closed,failed⟩ | ⟨tx,opened,⟨key,found,failed⟩ | ⟨none,ran⟩⟩
  · rw [closed,failed]
    exact same
  · rw [opened,failed]
    dsimp only
    rw [if_pos (by simp [found])]
    exact same
  · obtain ⟨each,others,-⟩ := committing_outcome ord ok opened _ ran
    rw [opened]
    dsimp only
    rw [if_neg (by simp [none])]
    split
    · rename_i place
      refine same.like (others t fun member => ?_)
      obtain ⟨p,there,equal⟩ := List.mem_map.mp member
      exact List.find?_eq_none.mp place p there (decide_eq_true equal)
    · rename_i p place
      obtain rfl : p.1.t = t := by simpa using List.find?_some place
      exact each p (List.mem_of_find?_eq_some place)

theorem commit_answer (ok : e.Ok) (opened : e.tx = some tx) (ord : Order) :
    (∃ key, conflict e.db (ord.at 0) tx.tables = some key ∧ (commit ord).exec e = (.error (.conflict key),e)) ∨
      conflict e.db (ord.at 0) tx.tables = none ∧
        (((commit ord).exec e).1 = .ok .empty ∧ ((commit ord).exec e).2.tx = none ∧ Committable e.db tx ∨
          ∃ err, ((commit ord).exec e).1 = .error err ∧ (∀ key, err ≠ .conflict key) ∧ ¬Committable e.db tx) := by
  rcases commit_cases ord e with ⟨closed,-⟩ | ⟨tx',opened',answer⟩
  · rw [opened] at closed
    cases closed
  · obtain rfl := Option.some.inj (opened.symm.trans opened')
    rcases answer with conflicting | ⟨none,ran⟩
    · exact .inl conflicting
    · exact .inr ⟨none,(committing_outcome ord ok opened _ ran).2.2⟩

theorem reached_of_committable (committable : Committable e.db tx) :
    reached e.db tx.tables.zipIdx = tx.tables.zipIdx := by
  have all : ∀ p ∈ tx.tables.zipIdx, ∀ write ∈ p.1.batch.entries, (e.db.table p.1.t).schema.Writable write :=
    (forall_zipIdx (P := fun state : TransactionTableState =>
      ∀ write ∈ state.batch.entries, (e.db.table state.t).schema.Writable write)).mpr committable
  generalize tx.tables.zipIdx = states at all ⊢
  induction states with
  | nil => rfl
  | cons p states ih =>
    obtain ⟨here,rest⟩ := List.forall_mem_cons.mp all
    rw [reached,if_pos here,ih rest]

theorem commitOps_of_committable (ok : e.Ok) (opened : e.tx = some tx) {ord : Order}
    (none : conflict e.db (ord.at 0) tx.tables = none) (committable : Committable e.db tx) {state : TransactionTableState}
    (member : state ∈ tx.tables) : ∃ k, e.commitOps ord state.t = writeSetOps e.db (ord.at 1) (state,k) := by
  obtain ⟨k,inside⟩ := List.mem_iff_getElem?.mp member
  have there : (state,k) ∈ tx.tables.zipIdx := List.mem_zipIdx_iff_getElem?.mpr inside
  refine ⟨k,?_⟩
  unfold commitOps
  rw [opened]
  dsimp only
  rw [if_neg (by simp [none]),reached_of_committable committable]
  split
  · rename_i place
    exact absurd (decide_eq_true rfl) (List.find?_eq_none.mp place _ there)
  · rename_i p place
    have found := List.mem_of_find?_eq_some place
    have equal : p.1.t = state.t := by simpa using List.find?_some place
    -- No table comes twice.
    rw [List.inj_on_of_nodup_map (zipIdx_distinct (ok.tx tx opened).distinct) found there equal]

theorem commitOps_of_not_mem (opened : e.tx = some tx) (ord : Order) {t : Nat}
    (absent : ∀ state ∈ tx.tables, state.t ≠ t) : e.commitOps ord t = [] := by
  unfold commitOps
  rw [opened]
  dsimp only
  split_ifs
  · rfl
  · split
    · rfl
    · rename_i p place
      have found := reached_subset _ _ (List.mem_of_find?_eq_some place)
      have there := List.mem_of_getElem? (List.mem_zipIdx_iff_getElem?.mp found)
      exact absurd (by simpa using List.find?_some place) (absent p.1 there)

end Executor
end GoDb
