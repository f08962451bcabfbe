import GoDb.Committed
import GoDb.Rollback
import GoDb.SnapshotReads
import GoDb.TableRuns

/-! UNIQUE columns. `Insert` checks a row against the rows of the table, so statements that
write their tables directly keep the values of a UNIQUE column apart; a COMMIT does not
check. The check compares what is given, and what is stored is the same in columns of the
types INT, STRING and BOOL. -/
namespace GoDb
open Foundation Outcome

namespace Schema

variable {s : Schema} {row : Row}

/-- The first column and the UNIQUE columns keep their values as they are given. -/
def Plain (s : Schema) : Prop :=
  ∀ c ∈ s.columns, c.name = s.keyColumn ∨ (s.constraint c.name).unique →
    c.type = .int ∨ c.type = .string ∨ c.type = .bool

instance (s : Schema) : Decidable s.Plain := inferInstanceAs (Decidable (∀ c ∈ s.columns, _))

theorem Plain.get (plain : s.Plain) (valid : s.validate = .ok ()) {c : Column} (member : c ∈ s.columns)
    (counts : c.name = s.keyColumn ∨ (s.constraint c.name).unique) :
    (s.stored row).get c.name = row.get c.name := by
  rw [Row.get,lookup_stored (distinct_of_validate valid) member,Option.getD_some]
  rcases plain c member counts with type | type | type <;> rw [type] <;> rfl

theorem Plain.keyOf (plain : s.Plain) (valid : s.validate = .ok ()) (columns : s.columns ≠ []) :
    s.keyOf (s.stored row) = s.keyOf row := by
  have first : s.keyColumn = (s.columns.head columns).name := by
    rw [keyColumn,List.head?_eq_some_head columns]
    rfl
  rw [Schema.keyOf,Schema.keyOf,first,plain.get valid (List.head_mem columns) (.inl first.symm)]

theorem Apart.symm {old new : Row} (apart : s.Apart old new) : s.Apart new old := by
  intro c member unique some same
  by_cases null : new.get c.name = .nil
  · rw [null] at same
    refine some ?_
    cases value : old.get c.name <;> rw [value] at same <;> cases same
  · exact apart c member unique null same.symm

theorem Plain.apart (plain : s.Plain) (valid : s.validate = .ok ()) {old : Row} :
    s.Apart old (s.stored row) ↔ s.Apart old row := by
  refine forall₂_congr fun c member => forall_congr' fun unique => ?_
  rw [plain.get valid member (.inr unique)]

end Schema

namespace Table

variable {t t' : Table} {key : Bytes} {row : Row}

/-- The rows are stored under their printed keys, and differ in the UNIQUE columns. -/
structure Distinct (t : Table) : Prop where
  printed : ∀ e ∈ t.entries, t.schema.keyOf (t.schema.rowOf e.2) = e.1
  unique : ∀ e ∈ t.entries, ∀ d ∈ t.entries, e.1 ≠ d.1 → t.schema.Apart (t.schema.rowOf e.2) (t.schema.rowOf d.2)

theorem Distinct.of_entries (distinct : t.Distinct) (schema : t'.schema = t.schema) (entries : t'.entries = t.entries) :
    t'.Distinct := by
  constructor
  · rw [schema,entries]
    exact distinct.printed
  · rw [schema,entries]
    exact distinct.unique

theorem Distinct.put (distinct : t.Distinct) (sound : t.Sound) (plain : t.schema.Plain) {b : Bytes}
    (schema : t'.schema = t.schema) (entries : t'.entries = SortedEntries.put (t.schema.keyOf row) b t.entries)
    (stored : t.schema.rowOf b = t.schema.stored row)
    (checked : t.validateConstraints (t.schema.keyOf row) row = .ok ()) : t'.Distinct := by
  have cases {e : BTree.Entry} (member : e ∈ t'.entries) :
      e = (t.schema.keyOf row,b) ∨ e ∈ t.entries ∧ e.1 ≠ t.schema.keyOf row := by
    rw [entries,SortedEntries.mem_iff_lookup (SortedEntries.increasing_put sound.increasing _ _),
      SortedEntries.lookup_put] at member
    split_ifs at member with same
    · exact .inl (Prod.ext same (Option.some.inj member).symm)
    · exact .inr ⟨(SortedEntries.mem_iff_lookup sound.increasing e).mpr member,same⟩
  -- The check has compared the new row with every other one.
  have fresh {e : BTree.Entry} (member : e ∈ t.entries) (other : e.1 ≠ t.schema.keyOf row) :
      t.schema.Apart (t.schema.rowOf e.2) (t.schema.rowOf b) := by
    rw [stored,plain.apart sound.valid]
    exact apart_of_validateConstraints sound.legible checked member (distinct.printed e member ▸ other)
  constructor
  · rw [schema]
    intro e member
    rcases cases member with rfl | ⟨old,-⟩
    · rw [stored,plain.keyOf sound.valid sound.columns]
    · exact distinct.printed e old
  · rw [schema]
    intro e member d member' apart
    rcases cases member with rfl | ⟨old,other⟩
    · rcases cases member' with rfl | ⟨old',other'⟩
      · exact absurd rfl apart
      · exact (fresh old' other').symm
    · rcases cases member' with rfl | ⟨old',-⟩
      · exact fresh old other
      · exact distinct.unique e old d old' apart

theorem Distinct.remove (distinct : t.Distinct) (schema : t'.schema = t.schema)
    (entries : t'.entries = SortedEntries.remove key t.entries) : t'.Distinct := by
  have old {e : BTree.Entry} (member : e ∈ t'.entries) : e ∈ t.entries := by
    rw [entries] at member
    exact List.mem_of_mem_filter member
  constructor
  · rw [schema]
    exact fun e member => distinct.printed e (old member)
  · rw [schema]
    exact fun e member d member' => distinct.unique e (old member) d (old member')

structure Guarded (t : Table) : Prop where
  sound : t.Sound
  distinct : t.schema.Plain → t.Distinct

def Guards (t t' : Table) : Prop := t.Guarded → t'.Guarded

theorem insert_guards (t : Table) (row : Row) : t.Guards ((insert (t.schema.keyOf row) row).exec t).2 := by
  intro guarded
  have step := insert_keeps (t.schema.keyOf row) row t
  refine ⟨(guarded.sound.steps step).1,fun plain => ?_⟩
  rw [step.1] at plain
  have distinct := guarded.distinct plain
  obtain ⟨t',-,⟨b,ran,inserted⟩ | ⟨⟨err,failed⟩,-,same,-⟩⟩ :=
    insert_outcome guarded.sound.legible (t.schema.keyOf row) row
  · rw [ran] at step ⊢
    exact distinct.put guarded.sound plain step.1 inserted.entries (guarded.sound.legible.rowOf_accepted inserted.accepts)
      inserted.accepts.checked
  · rw [failed] at step ⊢
    exact distinct.of_entries step.1 same

theorem delete_guards (key : Bytes) : Proc.Keeps Guards (delete key) := by
  intro t guarded
  have step := delete_keeps key t
  refine ⟨(guarded.sound.steps step).1,fun plain => ?_⟩
  rw [step.1] at plain
  obtain ⟨t',ran,-,removed,-⟩ := delete_outcome guarded.sound.legible key
  rw [ran] at step ⊢
  exact (guarded.distinct plain).remove step.1 removed

theorem Guarded.like (guarded : t.Guarded) (like : t.Like t') : t'.Guarded := by
  obtain ⟨n,rfl⟩ := like
  have sound := guarded.sound
  refine ⟨⟨sound.valid,sound.columns,(sound.store.leases n).1⟩,fun plain => ?_⟩
  exact (guarded.distinct plain).of_entries rfl rfl

end Table

def Db.Guarded (db : Db) : Prop := ∀ t < db.tables.length, (db.table t).Guarded

namespace Executor

variable {e e' : Executor}

def Guards (e e' : Executor) : Prop := e.db.Guarded → e'.db.Guarded

theorem new_guarded {schema : Schema} {table : Table} (made : Table.new Store.created schema = .ok table) :
    table.Guarded := by
  refine ⟨new_sound made (created_sound _),fun _ => ?_⟩
  have empty : table.entries = [] := by
    unfold Table.new at made
    split at made
    · cases made
    · split_ifs at made
      split at made
      · cases made
      · obtain rfl := Except.ok.inj made
        rw [Table.entries,(indexRows_same schema _ _).1]
        rfl
  constructor <;> rw [empty] <;> exact fun _ member => absurd member List.not_mem_nil

theorem guardedInvariant : Table.Invariant Table.Guarded where
  new made := new_guarded made
  insert row := Table.insert_guards _ row
  delete key := Table.delete_guards key _
  like := Table.Guarded.like

private abbrev Sized (e e' : Executor) : Prop := e'.db.tables.length = e.db.tables.length

private theorem sized : Frame Sized := ⟨fun _ => rfl,fun first second => second.trans first⟩

theorem commit_length (ord : Order) (e : Executor) : ((commit ord).exec e).2.db.tables.length = e.db.tables.length := by
  have same {α : Type} (t : Nat) (x : TableM α) : Proc.Keeps Sized (onTable t x) := fun _ => List.length_set
  have tables := commitTables_frame sized fun t _ _ _ => same t _
  have released := releaseSnapshots_frame sized fun t => same t _
  exact commit_frame sized released (fun _ => rfl) (fun _ => rfl) tables ord e

end Executor

namespace Table

variable {t t' : Table}

/-- The rows of a table once the writes are made are under their printed keys, and differ in the
UNIQUE columns: what a COMMIT would have to check. -/
structure DistinctAfter (t : Table) (writes : GoMap TransactionRow) : Prop where
  printed : ∀ key row, t.getAfter writes key = .ok (some row) → t.schema.keyOf row = key
  unique : ∀ key row key' row', t.getAfter writes key = .ok (some row) → t.getAfter writes key' = .ok (some row') →
    key ≠ key' → t.schema.Apart row row'

theorem DistinctAfter.distinct {writes : GoMap TransactionRow} (after : t.DistinctAfter writes) (sound : t'.Sound)
    (schema : t'.schema = t.schema) (gets : ∀ key, t'.get key = t.getAfter writes key) : t'.Distinct := by
  have found {e : BTree.Entry} (member : e ∈ t'.entries) : t.getAfter writes e.1 = .ok (some (t.schema.rowOf e.2)) := by
    rw [← gets,sound.get,(SortedEntries.mem_iff_lookup sound.increasing e).mp member,schema]
    rfl
  constructor
  · rw [schema]
    exact fun e member => after.printed e.1 _ (found member)
  · rw [schema]
    exact fun e member d member' apart => after.unique e.1 _ d.1 _ (found member) (found member') apart

end Table

namespace Executor

variable {e : Executor} {tx : Transaction} {ord : Order}

theorem commit_guards (ok : e.Ok) (opened : e.tx = some tx) (committable : Committable e.db tx)
    (after : ∀ state ∈ tx.tables, (e.db.table state.t).schema.Plain → (e.db.table state.t).DistinctAfter state.batch) :
    e.Guards ((commit ord).exec e).2 := by
  intro guarded t inside
  rw [commit_length] at inside
  rcases commit_answer ok opened ord with ⟨key,-,failed⟩ | ⟨none,-⟩
  · rw [failed]
    exact guarded t inside
  · have sound := commit_sound ok ord inside
    have schema := (commit_applied ok ord t).schema
    refine ⟨sound,fun plain => ?_⟩
    rw [schema] at plain
    by_cases there : ∃ state ∈ tx.tables, state.t = t
    · obtain ⟨state,member,rfl⟩ := there
      exact (after state member plain).distinct sound schema (commit_get ok opened none committable member)
    · have absent : ∀ state ∈ tx.tables, state.t ≠ t := fun state member same => there ⟨state,member,same⟩
      have applied := commit_applied ok ord t
      rw [commitOps_of_not_mem opened ord absent] at applied
      exact ((guarded t inside).distinct plain).of_entries schema applied.entries

end Executor

namespace Server

variable {s : Server} {client : Nat}

/-- A COMMIT comes as a request of its own, with a write set that can be written and that leaves the
UNIQUE columns of its tables distinct. -/
def ChecksUnique (s : Server) (r : Request) : Prop :=
  ∀ statements, r.body = .execute statements → .commit ∈ statements → statements = [.commit] ∧
    ∀ tx, s.txs r.client = some tx → Executor.Committable s.db tx ∧ ∀ state ∈ tx.tables,
      (s.db.table state.t).schema.Plain → (s.db.table state.t).DistinctAfter state.batch

theorem handle_guards {r : Request} (ok : s.Ok) (checks : s.ChecksUnique r) (guarded : s.db.Guarded) :
    (handle r s).2.db.Guarded := by
  obtain ⟨client,ord,body⟩ := r
  cases body with
  | execute statements =>
    by_cases commits : Statement.commit ∈ statements
    · obtain ⟨rfl,checked⟩ := checks statements rfl commits
      change ((Executor.commit ord).exec (s.executor client)).2.db.Guarded
      cases opened : s.txs client with
      | none =>
        rcases Executor.commit_cases ord (s.executor client) with ⟨-,failed⟩ | ⟨tx,still,-⟩
        · rw [failed]
          exact guarded
        · exact absurd (opened.symm.trans still) (Option.some_ne_none tx).symm
      | some tx =>
        obtain ⟨committable,after⟩ := checked tx opened
        exact Executor.commit_guards (ok.executor client) opened committable after guarded
    · have others : ∀ st ∈ statements, st ≠ .commit := fun st member same => commits (same ▸ member)
      exact Executor.execute_invariably Executor.guardedInvariant ord others (s.executor client) guarded
  | disconnect =>
    unfold handle
    dsimp only
    split_ifs
    · exact Executor.rollback_invariably Executor.guardedInvariant (s.executor client) guarded
    · exact guarded

theorem after_guards (ok : s.Ok) (guarded : s.db.Guarded) {requests : List Request}
    (checks : ∀ first r rest, requests = first ++ r::rest → (s.after first).ChecksUnique r) :
    (s.after requests).db.Guarded := by
  induction requests generalizing s with
  | nil => exact guarded
  | cons r requests ih =>
    exact ih (handle_steps r s ok).ok (handle_guards ok (checks [] r requests rfl) guarded)
      fun first r' rest split => checks (r::first) r' rest (congrArg (r::·) split)

/-- In every run whose COMMITs meet this condition, no two rows of a table have the same value in a UNIQUE column. -/
theorem unique_columns {requests : List Request}
    (checks : ∀ first r rest, requests = first ++ r::rest → ((start Db.empty).after first).ChecksUnique r)
    {t : Nat} (inside : t < ((start Db.empty).after requests).db.tables.length)
    (plain : (((start Db.empty).after requests).db.table t).schema.Plain) {c : Column}
    (column : c ∈ (((start Db.empty).after requests).db.table t).schema.columns)
    (unique : ((((start Db.empty).after requests).db.table t).schema.constraint c.name).unique)
    {key key' : Bytes} {row row' : Row}
    (found : (((start Db.empty).after requests).db.table t).get key = .ok (some row))
    (found' : (((start Db.empty).after requests).db.table t).get key' = .ok (some row'))
    (same : row.get c.name = row'.get c.name) (some : row.get c.name ≠ .nil) : key = key' := by
  have guarded := after_guards (start_ok Db.empty_ok) (fun t inside => absurd inside (Nat.not_lt_zero t)) checks t inside
  generalize ((start Db.empty).after requests).db.table t = table at *
  have entry {key : Bytes} {row : Row} (found : table.get key = .ok (Option.some row)) :
      ∃ e ∈ table.entries, e.1 = key ∧ table.schema.rowOf e.2 = row := by
    rw [guarded.sound.get] at found
    obtain ⟨b,there,rfl⟩ := Option.map_eq_some_iff.mp (Except.ok.inj found)
    exact ⟨(key,b),(SortedEntries.mem_iff_lookup guarded.sound.increasing _).mpr there,rfl,rfl⟩
  obtain ⟨e,member,rfl,rfl⟩ := entry found
  obtain ⟨d,member',rfl,rfl⟩ := entry found'
  by_contra apart
  exact (guarded.distinct plain).unique e member d member' apart c column unique (same ▸ some) (congrArg _ same)

def createUnique : Statement :=
  .createTable ⟨ascii "u",[⟨ascii "a",.int⟩],SortedMap.insert ∅ (ascii "a") ⟨false,true,none⟩⟩

def insertedUnique : List (Nat × Statement) :=
  [(1,createUnique),(1,Sample.insert "u" 1 (.int 7)),(2,Sample.insert "u" 2 (.int 7)),(2,Sample.insert "u" 2 (.int 8))]

theorem unique_columns_inserted :
    ∃ row, ((Sample.server insertedUnique).db.table 0).get (ascii "1") = .ok (some row) ∧
      ∀ key row', ((Sample.server insertedUnique).db.table 0).get key = .ok (some row') →
        row.get (ascii "a") = row'.get (ascii "a") → ascii "1" = key := by
  have others : ∀ p ∈ insertedUnique, p.2 ≠ .commit := by simp [insertedUnique,createUnique,Sample.insert]
  have checks : ∀ first r rest, Sample.requests insertedUnique = first ++ r::rest →
      ((start Db.empty).after first).ChecksUnique r := by
    intro first r rest split statements body commits
    have there : r ∈ Sample.requests insertedUnique := split ▸ by simp
    obtain ⟨p,member,rfl⟩ := List.mem_map.mp there
    cases body
    exact absurd (List.mem_singleton.mp commits).symm (others p member)
  have stored : (((Sample.server insertedUnique).db.table 0).get (ascii "1")).toOption.join.map (·.get (ascii "a")) =
      some (.int 7) := by decide +kernel
  obtain ⟨row,found,value⟩ := Option.map_eq_some_iff.mp stored
  have read : ((Sample.server insertedUnique).db.table 0).get (ascii "1") = .ok (some row) := by
    generalize ((Sample.server insertedUnique).db.table 0).get (ascii "1") = answer at found ⊢
    rcases answer with _ | _ | row'
    · cases found
    · cases found
    · cases found
      rfl
  refine ⟨row,read,fun key row' found' same => ?_⟩
  exact unique_columns checks (t := 0) (by decide +kernel) (by decide +kernel) (c := ⟨ascii "a",.int⟩) (by decide +kernel)
    (by decide +kernel) read found' same (by rw [value]; exact Value.noConfusion)

def duplicates : Server := Sample.server [(1,createUnique),(1,.begin),(1,Sample.insert "u" 1 (.int 7)),
  (1,Sample.insert "u" 2 (.int 7))]

theorem committed_duplicates :
    (handle (.one 1 .stored .commit) duplicates).1 = .ok .empty ∧
      ((duplicates.db.table 0).schema.constraint (ascii "a")).unique = true ∧
      (((handle (.one 1 .stored .commit) duplicates).2.db.table 0).scan.toOption.map fun rows =>
        rows.map fun row => (row.get (ascii "id"),row.get (ascii "a"))) =
        some [(.int 1,.int 7),(.int 2,.int 7)] := by
  decide +kernel

end Server
end GoDb
