import GoDb.RowUpdates
import GoDb.ServerInvariant

/-! What a ROLLBACK does. It has nothing to take back, since the writes of a transaction
are its own; instead it empties the tables and fills them with the rows of the BEGIN.
Where these are still the rows of the tables, it leaves them as they are. -/
namespace GoDb
open Foundation Outcome

namespace Schema

/-- Rows that differ in the columns that are UNIQUE, as far as these are not NULL. -/
def Apart (s : Schema) (old new : Row) : Prop :=
  ∀ c ∈ s.columns, (s.constraint c.name).unique → new.get c.name ≠ .nil →
    (old.get c.name).indexValue ≠ (new.get c.name).indexValue

instance (s : Schema) : DecidableRel s.Apart := fun _ _ => inferInstanceAs (Decidable (∀ c ∈ s.columns, _))

end Schema

namespace Table

variable {t : Table}

theorem validateConstraints_of_apart (legible : t.Legible) {key : Bytes} {row : Row}
    (apart : ∀ e ∈ t.entries, t.schema.Apart (t.schema.rowOf e.2) row) : t.validateConstraints key row = .ok () := by
  simp only [validateConstraints,legible.scan,bind,Except.bind]
  split
  · rename_i c found
    have wrong := List.find?_some found
    simp only [Bool.and_eq_true,bne_iff_ne,List.any_eq_true,decide_eq_true_eq] at wrong
    obtain ⟨⟨unique,some⟩,old,member,-,taken⟩ := wrong
    obtain ⟨e,there,rfl⟩ := List.mem_map.mp member
    exact absurd taken (apart e there c (List.mem_of_find?_eq_some found) unique some)
  · rfl

theorem apart_of_validateConstraints (legible : t.Legible) {key : Bytes} {row : Row}
    (checked : t.validateConstraints key row = .ok ()) {e : BTree.Entry} (member : e ∈ t.entries)
    (other : t.schema.keyOf (t.schema.rowOf e.2) ≠ key) :
    t.schema.Apart (t.schema.rowOf e.2) row := by
  intro c column unique some taken
  simp only [validateConstraints,legible.scan,bind,Except.bind] at checked
  split at checked
  · cases checked
  · rename_i none
    refine List.find?_eq_none.mp none c column ?_
    simp only [unique,Bool.true_and,Bool.and_eq_true,bne_iff_ne,List.any_eq_true,decide_eq_true_eq]
    exact ⟨some,_,List.mem_map_of_mem member,other,taken⟩

def insertEach : List Row → TableM Unit
  | [] => pure ()
  | row::rows => do
    let t ← MonadState.get
    insert (t.schema.keyOf row) row
    insertEach rows

theorem insertEach_frame {R : Table → Table → Prop} (frame : Frame R)
    (each : ∀ t row, R t ((insert (t.schema.keyOf row) row).exec t).2) (rows : List Row) :
    Proc.Keeps R (insertEach rows) := by
  induction rows with
  | nil => exact Keeps.pure frame _
  | cons row rows ih => exact Keeps.get_bind fun t => Keeps.bind_at frame (each t row) fun _ => ih

def entryOf (s : Schema) (row : Row) : BTree.Entry := (s.keyOf row,s.bytesOf row)

theorem insertEach_all {s : Schema} (rows : List Row) {t : Table} (schema : t.schema = s) (legible : t.Legible)
    (sorted : SortedEntries.Increasing (t.entries ++ rows.map (entryOf s)))
    (writable : ∀ row ∈ rows, ∃ b, s.encode row = .ok b ∧ Store.Fits (s.keyOf row) b)
    (before : ∀ e ∈ t.entries, ∀ row ∈ rows, s.Apart (s.rowOf e.2) row)
    (apart : rows.Pairwise fun old new => s.Apart (s.stored old) new) :
    ∃ t', (insertEach rows).exec t = (.ok (),t') ∧ t.Reads t' ∧ t'.entries = t.entries ++ rows.map (entryOf s) := by
  induction rows generalizing t with
  | nil => exact ⟨t,rfl,reads.refl t,(List.append_nil _).symm⟩
  | cons row rows ih =>
    obtain ⟨⟨b,encoded,fit⟩,writable⟩ := List.forall_mem_cons.mp writable
    obtain ⟨first,apart⟩ := List.pairwise_cons.mp apart
    have smaller : ∀ e ∈ t.entries, e.1 < s.keyOf row := fun e member =>
      (List.pairwise_append.mp sorted).2.2 e member (entryOf s row) List.mem_cons_self
    have free : t.validateConstraints (s.keyOf row) row = .ok () := by
      apply validateConstraints_of_apart legible
      rw [schema]
      exact fun e member => before e member row List.mem_cons_self
    have accepts : t.Accepts (s.keyOf row) row b := ⟨schema ▸ encoded,free,fit⟩
    obtain ⟨t₁,inserted,step,grown⟩ := insert_accepted legible accepts
    have entries₁ : t₁.entries = t.entries ++ [entryOf s row] := by
      rw [grown,SortedEntries.put_last _ _ _ smaller,entryOf,Schema.bytesOf_encode encoded]
    have stored : s.rowOf (entryOf s row).2 = s.stored row := by
      rw [entryOf,Schema.bytesOf_encode encoded,← schema]
      exact legible.rowOf_accepted accepts
    have before₁ : ∀ e ∈ t₁.entries, ∀ new ∈ rows, s.Apart (s.rowOf e.2) new := by
      rw [entries₁]
      intro e member new later
      rcases List.mem_append.mp member with old | own
      · exact before e old new (List.mem_cons_of_mem row later)
      · rw [List.mem_singleton.mp own,stored]
        exact first new later
    obtain ⟨t₂,more,step₂,final⟩ := ih (step.1.trans schema) (legible.reads step) (by rw [entries₁]; simpa using sorted)
      writable before₁ apart
    refine ⟨t₂,?_,reads.trans step step₂,?_⟩
    · rw [insertEach,exec_bind_ok (exec_get t),schema,exec_bind_ok inserted]
      exact more
    · rw [final,entries₁,List.map_cons,List.append_assoc]
      rfl

def refill (rows : List Row) : TableM Unit := do
  let _ ← deleteWhere fun _ => true
  insertEach rows

theorem refill_all (legible : t.Legible) (printed : t.Printed) {rows : List Row}
    (sorted : (rows.map t.schema.keyOf).Pairwise (· < ·))
    (writable : ∀ row ∈ rows, ∃ b, t.schema.encode row = .ok b ∧ Store.Fits (t.schema.keyOf row) b)
    (apart : rows.Pairwise fun old new => t.schema.Apart (t.schema.stored old) new) :
    ∃ t', (refill rows).exec t = (.ok (),t') ∧ t.Reads t' ∧ t'.entries = rows.map (entryOf t.schema) := by
  obtain ⟨t₁,emptied,step,entries⟩ := deleteWhere_outcome (fun _ => true) legible printed
  have none : t₁.entries = [] := by simpa using entries
  have increasing : SortedEntries.Increasing (t₁.entries ++ rows.map (entryOf t.schema)) := by
    rw [none]
    exact List.pairwise_map.mpr (List.pairwise_map.mp sorted)
  obtain ⟨t₂,filled,step₂,final⟩ := insertEach_all rows step.1 (legible.reads step) increasing writable
    (by rw [none]; exact List.forall_mem_nil _) apart
  refine ⟨t₂,?_,reads.trans step step₂,?_⟩
  · rw [refill,exec_bind_ok emptied]
    exact filled
  · rw [final,none]
    rfl

theorem refill_keeps (rows : List Row) : Proc.Keeps Steps (refill rows) :=
  Keeps.bind steps (deleteWhere_keeps _) fun _ => insertEach_frame steps (fun _ _ => insert_keeps _ _ _) rows

theorem refill_same (sound : t.Sound) (printed : t.Printed)
    (apart : (t.entries.map fun e => t.schema.rowOf e.2).Pairwise t.schema.Apart) :
    ∃ t', (refill (t.entries.map fun e => t.schema.rowOf e.2)).exec t = (.ok (),t') ∧ t.Steps t' ∧
      t'.entries = t.entries := by
  have legible := sound.legible
  have entry : ∀ e ∈ t.entries, entryOf t.schema (t.schema.rowOf e.2) = e := by
    intro e member
    rw [entryOf,legible.printed printed member,Schema.bytesOf_encode (sound.encode member)]
  have whole : (t.entries.map fun e => t.schema.rowOf e.2).map (entryOf t.schema) = t.entries := by
    rw [List.map_map]
    exact (List.map_congr_left entry).trans (List.map_id _)
  have keys : (t.entries.map fun e => t.schema.rowOf e.2).map t.schema.keyOf = t.entries.map Prod.fst := by
    rw [List.map_map]
    exact List.map_congr_left fun e member => legible.printed printed member
  have writable : ∀ row ∈ t.entries.map (fun e => t.schema.rowOf e.2),
      ∃ b, t.schema.encode row = .ok b ∧ Store.Fits (t.schema.keyOf row) b := by
    refine List.forall_mem_map.mpr fun e member => ⟨e.2,sound.encode member,?_⟩
    rw [legible.printed printed member]
    exact legible.fits e member
  have stored : (t.entries.map fun e => t.schema.rowOf e.2).Pairwise fun old new =>
      t.schema.Apart (t.schema.stored old) new := by
    refine List.Pairwise.imp_of_mem (fun old _ apart => ?_) apart
    obtain ⟨e,member,rfl⟩ := List.mem_map.mp old
    rwa [Schema.stored_of_decode legible.valid (legible.decode member)]
  obtain ⟨t',ran,-,entries⟩ := refill_all legible printed (keys ▸ legible.increasing.keys) writable stored
  have step := refill_keeps (t.entries.map fun e => t.schema.rowOf e.2) t
  rw [ran] at step
  exact ⟨t',ran,step,entries.trans whole⟩

end Table

namespace Executor

variable {e : Executor} {t : Nat}

theorem insertEach_onTable (inside : t < e.db.tables.length) (rows : List Row) :
    (insertEach t rows).exec e = (onTable t (Table.insertEach rows)).exec e := by
  induction rows generalizing e with
  | nil =>
    rw [Table.insertEach,onTable_exec,exec_pure,Db.withTable_table inside]
    rfl
  | cons row rows ih =>
    rw [insertEach,exec_bind_ok (exec_get e),Table.insertEach,onTable_get_bind,onTable_bind inside,exec_bind,exec_bind,
      onTable_exec]
    rcases (Table.insert _ _).exec (e.db.table t) with ⟨err | _,table⟩
    · rfl
    · exact ih (e := ⟨e.db.withTable t table,e.tx⟩) (by rwa [Db.withTable,List.length_set])

theorem refill_onTable (inside : t < e.db.tables.length) (rows : List Row) :
    (do
      let _ ← onTable t (Table.deleteWhere fun _ => true)
      insertEach t rows : ExecutorM Unit).exec e = (onTable t (Table.refill rows)).exec e := by
  rw [Table.refill,onTable_bind inside,exec_bind,exec_bind,onTable_exec]
  rcases (Table.deleteWhere _).exec (e.db.table t) with ⟨err | _,table⟩
  · rfl
  · exact insertEach_onTable (e := ⟨e.db.withTable t table,e.tx⟩) (by rwa [Db.withTable,List.length_set]) rows

structure Restorable (table : Table) (image : List Row) : Prop where
  rows : table.scan = .ok image
  printed : table.Printed
  unique : image.Pairwise table.schema.Apart

theorem rollbackTable_same {state : TransactionTableState} (inside : state.t < e.db.tables.length)
    (sound : (e.db.table state.t).Sound) (restorable : Restorable (e.db.table state.t) state.rollback) :
    ∃ table, (do
        let _ ← onTable state.t (Table.deleteWhere fun _ => true)
        insertEach state.t state.rollback : ExecutorM Unit).exec e = (.ok (),{e with db := e.db.withTable state.t table}) ∧
      (e.db.table state.t).Steps table ∧ table.entries = (e.db.table state.t).entries := by
  have rows : state.rollback = (e.db.table state.t).entries.map fun d => (e.db.table state.t).schema.rowOf d.2 :=
    Except.ok.inj (restorable.rows.symm.trans sound.scan)
  obtain ⟨table,ran,step,same⟩ := Table.refill_same sound restorable.printed (rows ▸ restorable.unique)
  refine ⟨table,?_,step,same⟩
  rw [← rows] at ran
  rw [refill_onTable inside,onTable_exec,ran]

theorem rollbackTables_same (states : List TransactionTableState) {e : Executor} (ok : e.Ok)
    (distinct : (states.map (·.t)).Nodup) (inside : ∀ state ∈ states, state.t < e.db.tables.length)
    (restorable : ∀ state ∈ states, Restorable (e.db.table state.t) state.rollback) :
    ∃ e', (rollbackTables states).exec e = (.ok (),e') ∧ ∀ t, (e'.db.table t).schema = (e.db.table t).schema ∧
      (e'.db.table t).entries = (e.db.table t).entries := by
  induction states generalizing e with
  | nil => exact ⟨e,rfl,fun _ => ⟨rfl,rfl⟩⟩
  | cons state states ih =>
    obtain ⟨fresh,others⟩ := List.nodup_cons.mp distinct
    obtain ⟨here,rest⟩ := List.forall_mem_cons.mp inside
    obtain ⟨now,later⟩ := List.forall_mem_cons.mp restorable
    obtain ⟨table,restored,step,same⟩ := rollbackTable_same here (ok.db.sound _ here) now
    have stepped : e.Step {e with db := e.db.withTable state.t table} := by
      have keeps := Keeps.bind steps (onTable_keeps state.t (Table.deleteWhere_keeps fun _ => true))
        (fun _ => undoSteps.insertEach state.t state.rollback) e ok
      rwa [restored] at keeps
    -- The other tables of the transaction are not this one.
    have kept : ∀ other ∈ states, (e.db.withTable state.t table).table other.t = e.db.table other.t := by
      intro other member
      refine (Db.table_withTable _ _ _ _).trans (if_neg fun both => ?_)
      exact fresh (List.mem_map.mpr ⟨other,member,both.1.symm⟩)
    obtain ⟨e',done,rows⟩ := ih stepped.ok others
      (fun other member => Nat.lt_of_lt_of_le (rest other member) stepped.moves.length)
      (fun other member => by rw [kept other member]; exact later other member)
    obtain ⟨n,middle,emptied,filled⟩ := bind_success restored
    refine ⟨e',?_,fun t => ?_⟩
    · rw [rollbackTables,exec_bind_ok emptied,exec_bind_ok filled]
      exact done
    obtain ⟨schema,entries⟩ := rows t
    rw [schema,entries,Db.table_withTable]
    split_ifs with changed
    · rw [← changed.1]
      exact ⟨step.1,same⟩
    · exact ⟨rfl,rfl⟩

theorem rollback_same (ok : e.Ok)
    (restorable : ∀ tx, e.tx = some tx → ∀ state ∈ tx.tables, Restorable (e.db.table state.t) state.rollback) (t : Nat) :
    ((rollback.exec e).2.db.table t).schema = (e.db.table t).schema ∧
      ((rollback.exec e).2.db.table t).entries = (e.db.table t).entries := by
  unfold rollback
  rw [exec_bind_ok (exec_get e)]
  rcases opened : e.tx with _ | tx
  · exact ⟨rfl,rfl⟩
  · have frame := ok.tx tx opened
    obtain ⟨e',done,rows⟩ := rollbackTables_same tx.tables ok frame.distinct frame.inside (restorable tx opened)
    obtain ⟨last,released,like,-⟩ := releaseSnapshots_outcome tx.tables e'
    dsimp only
    rw [exec_bind_ok done,exec_bind_ok released]
    obtain ⟨n,same⟩ := like.tables t
    change (last.db.table t).schema = _ ∧ (last.db.table t).entries = _
    rw [same]
    exact rows t

end Executor

/-- A ROLLBACK, or the end of a connection, which makes one if a transaction is open. -/
def Request.RollsBack (r : Request) : Prop := r.body = .execute [.rollback] ∨ r.body = .disconnect

namespace Server

/-- The tables of the open transaction still have the rows they had at its BEGIN, with UNIQUE columns
that are unique and each row under its printed key. -/
def Undisturbed (s : Server) (client : Nat) : Prop :=
  ∀ tx, s.txs client = some tx → ∀ state ∈ tx.tables, Executor.Restorable (s.db.table state.t) state.rollback

/-- After any run, a ROLLBACK of an undisturbed transaction leaves the rows of all tables as they are. -/
theorem rollback_discards {s : Server} (ok : s.Ok) (requests : List Request) (r : Request) (rolls : r.RollsBack)
    (undisturbed : (s.after requests).Undisturbed r.client) (t : Nat) :
    ((handle r (s.after requests)).2.db.table t).scan = ((s.after requests).db.table t).scan := by
  have frame := (after_steps s requests ok).ok.executor r.client
  obtain ⟨schema,entries⟩ := Executor.rollback_same frame undisturbed t
  have same : ((Executor.rollback.exec ((s.after requests).executor r.client)).2.db.table t).scan =
      ((s.after requests).db.table t).scan := by
    unfold Table.entries at entries
    rw [Table.scan,schema,entries]
    rfl
  unfold handle
  rcases rolls with body | body
  · rw [body]
    exact same
  · rw [body]
    dsimp only
    split_ifs
    · exact same
    · rfl

def ownInsert : List Request := Sample.requests [(2,Sample.create "u" .int),(2,Sample.insert "u" 1 (.int 7)),(1,.begin),
  (1,Sample.insert "u" 2 (.int 8))]

theorem rollback_discards_own :
    (((start Db.empty).after ownInsert).txs 1).isSome ∧
      ((handle (.one 1 .stored .rollback) ((start Db.empty).after ownInsert)).2.db.table 0).scan =
        (((start Db.empty).after ownInsert).db.table 0).scan := by
  have ok := start_ok Db.empty_ok
  have frame := (after_steps _ ownInsert ok).ok
  refine ⟨by decide +kernel,rollback_discards ok ownInsert (.one 1 .stored .rollback) (.inl rfl) ?_ 0⟩
  intro tx opened state member
  have facts : (((start Db.empty).after ownInsert).txs 1).all (fun tx => tx.tables.all fun state =>
      let table := ((start Db.empty).after ownInsert).db.table state.t
      table.scan = .ok state.rollback ∧ (∀ e ∈ table.entries, table.schema.keyOf (table.schema.rowOf e.2) = e.1) ∧
        state.rollback.Pairwise table.schema.Apart) = true := by decide +kernel
  change ((start Db.empty).after ownInsert).txs 1 = some tx at opened
  rw [opened] at facts
  obtain ⟨rows,printed,unique⟩ := of_decide_eq_true (List.all_eq_true.mp facts state member)
  have sound := frame.db.sound state.t ((frame.txs 1 tx opened).inside state member)
  exact ⟨rows,sound.legible.printed_of printed,unique⟩

def insertedByOther : Server := Sample.server [(1,Sample.create "u" .int),(1,.begin),(2,Sample.insert "u" 1 (.int 7))]

theorem rollback_loses_row :
    (insertedByOther.db.table 0).scan ≠ .ok [] ∧
      (handle (.one 1 .stored .rollback) insertedByOther).1 = .ok .empty ∧
      ((handle (.one 1 .stored .rollback) insertedByOther).2.db.table 0).scan = .ok [] := by
  decide +kernel

end Server
end GoDb
