import GoDb.Commit
import GoDb.ServerInvariant

/-! The rows after a COMMIT: those of its write sets if it succeeds, and what it came to
if it fails on the way. -/
namespace GoDb
open Foundation Outcome

namespace Schema

variable {s : Schema}

def roundTrip (s : Schema) (row : Row) : Except Error Row :=
  match s.encode row with
  | .error e => .error e
  | .ok b => s.decode b

theorem applied_keys (s : Schema) (writes : List (Bytes × TransactionRow)) :
    ((s.applied writes).map BatchOp.key).Sublist (writes.map Prod.fst) := by
  unfold applied
  split
  · exact List.nil_sublist _
  · rename_i ops made
    rw [← batchOps_keys made]
    split_ifs
    · exact (List.takeWhile_sublist _).map _
    · exact List.nil_sublist _

theorem applied_distinct (s : Schema) (ord : Order) (writes : GoMap TransactionRow) :
    ((s.applied (ord.arrange writes.entries)).map BatchOp.key).Nodup :=
  (applied_keys s _).nodup (((ord.arrange_perm writes.entries).map _).nodup_iff.mpr writes.increasing.keys.nodup)

end Schema

namespace Table

variable {t t' : Table} {ops : List BatchOp}

theorem Applied.lookup (applied : t.Applied t' ops) (key : Bytes) :
    t'.entries.lookup key = effects (fun k => t.entries.lookup k) ops key := by
  rw [applied.entries,Contents.lookup_foldl_apply]
  rfl

def getAfter (t : Table) (writes : GoMap TransactionRow) (key : Bytes) : Except Error (Option Row) :=
  match writes.lookup key with
  | some (some row) => (t.schema.roundTrip row).map some
  | some none => .ok none
  | none => t.get key

theorem Applied.get_batch {ord : Order} {writes : GoMap TransactionRow} (sound : t.Sound) (sound' : t'.Sound)
    (applied : t.Applied t' (t.schema.applied (ord.arrange writes.entries)))
    (writable : ∀ write ∈ writes.entries, t.schema.Writable write) (key : Bytes) :
    t'.get key = t.getAfter writes key := by
  have distinct := t.schema.applied_distinct ord writes
  obtain ⟨ops,made,fits⟩ := Schema.writable_iff.mp fun write member =>
    writable write ((ord.mem_arrange).mp member)
  rw [Schema.applied_of_fits made fits] at applied distinct
  have related := Schema.batchOps_eq_ok.mp made
  rw [sound'.get,applied.lookup,applied.schema]
  unfold getAfter
  rcases staged : writes.lookup key with _ | write
  · have others : ∀ op ∈ ops, op.key ≠ key := by
      rintro op member rfl
      have there : op.key ∈ (ord.arrange writes.entries).map Prod.fst :=
        Schema.batchOps_keys made ▸ List.mem_map_of_mem member
      obtain ⟨e,inside,same⟩ := List.mem_map.mp there
      have value := (SortedMap.mem_entries e).mp ((ord.mem_arrange).mp inside)
      rw [same,staged] at value
      cases value
    rw [effects_of_forall_ne _ others,sound.get]
  · have there : (key,write) ∈ ord.arrange writes.entries := (ord.mem_arrange).mpr ((SortedMap.mem_entries _).mpr staged)
    obtain ⟨op,member,one⟩ : ∃ op ∈ ops, t.schema.batchOp (key,write) = .ok op := by
      obtain ⟨i,inside,value⟩ := List.getElem_of_mem there
      have same := related.get inside (related.length_eq ▸ inside)
      exact ⟨_,List.getElem_mem _,by simpa [value] using same⟩
    have named : op.key = key := Schema.batchOp_key one
    have effect := effects_of_mem (fun k => t.entries.lookup k) distinct member
    rw [named] at effect
    rw [effect]
    cases write with
    | none =>
      cases one
      rfl
    | some row =>
      rcases encoded : t.schema.encode row with err | b
      · simp [Schema.batchOp,encoded] at one
      · simp only [Schema.batchOp,encoded,Except.ok.injEq] at one
        subst one
        -- What was written can be read, since it is now an entry of the table.
        have entry : (key,b) ∈ t'.entries := by
          rw [SortedEntries.mem_iff_lookup sound'.increasing,applied.lookup,effect]
          rfl
        have decoded := sound'.decode entry
        rw [applied.schema] at decoded
        simp only [Schema.roundTrip,encoded,decoded]
        rfl

theorem Sound.scan_keys (sound : t.Sound) : ∃ keys rows, t.scan = .ok rows ∧ keys.Nodup ∧
    List.Forall₂ (fun key row => t.get key = .ok (some row)) keys rows ∧
      ∀ key row, t.get key = .ok (some row) → key ∈ keys := by
  refine ⟨t.entries.map Prod.fst,_,sound.scan,sound.increasing.keys.nodup,?_,fun key row found => ?_⟩
  · rw [List.forall₂_map_left_iff,List.forall₂_map_right_iff,List.forall₂_same]
    intro e member
    rw [sound.get,(SortedEntries.mem_iff_lookup sound.increasing e).mp member]
    rfl
  · rw [sound.get] at found
    obtain ⟨b,there,-⟩ := Option.map_eq_some_iff.mp (Except.ok.inj found)
    exact List.mem_map.mpr ⟨(key,b),(SortedEntries.mem_iff_lookup sound.increasing _).mpr there,rfl⟩

theorem Sound.same (sound : t.Sound) (sound' : t'.Sound) (schema : t'.schema = t.schema)
    (lookups : ∀ key, t'.entries.lookup key = t.entries.lookup key) :
    t'.scan = t.scan ∧ ∀ key, t'.get key = t.get key := by
  have entries : t'.entries = t.entries := SortedEntries.ext_lookup sound'.increasing sound.increasing lookups
  rw [sound.scan,sound'.scan,entries,schema]
  refine ⟨rfl,fun key => ?_⟩
  rw [sound.get,sound'.get,entries,schema]

theorem Sound.lookup_of_get (sound : t.Sound) (sound' : t'.Sound) (schema : t'.schema = t.schema) {key : Bytes}
    (same : t'.get key = t.get key) : t'.entries.lookup key = t.entries.lookup key := by
  rw [sound.get,sound'.get,schema,Except.ok.injEq] at same
  rcases found : t.entries.lookup key with _ | b
  · rw [found] at same
    exact Option.map_eq_none_iff.mp same
  · rw [found] at same
    obtain ⟨b',found',rows⟩ := Option.map_eq_some_iff.mp same
    have entry := (SortedEntries.mem_iff_lookup sound.increasing (key,b)).mpr found
    have entry' := (SortedEntries.mem_iff_lookup sound'.increasing (key,b')).mpr found'
    have bytes : b = b' := sound.rowOf_inj sound' schema entry entry' rows.symm
    rw [found',bytes]

end Table

namespace Executor

variable {e : Executor} {tx : Transaction} {ord : Order}

theorem commit_sound (ok : e.Ok) (ord : Order) {t : Nat} (inside : t < e.db.tables.length) :
    (((commit ord).exec e).2.db.table t).Sound := by
  have step := commit_keeps ord e ok
  exact step.ok.db.sound t (Nat.lt_of_lt_of_le inside step.moves.length)

theorem commit_get (ok : e.Ok) (opened : e.tx = some tx) (none : conflict e.db (ord.at 0) tx.tables = none)
    (committable : Committable e.db tx) {state : TransactionTableState} (member : state ∈ tx.tables) (key : Bytes) :
    (((commit ord).exec e).2.db.table state.t).get key = (e.db.table state.t).getAfter state.batch key := by
  have inside := (ok.tx tx opened).inside state member
  have applied := commit_applied ok ord state.t
  obtain ⟨k,ops⟩ := commitOps_of_committable ok opened none committable member
  rw [ops] at applied
  exact applied.get_batch (ok.db.sound _ inside) (commit_sound ok ord inside) (committable state member) key

theorem commit_get_other (ok : e.Ok) (opened : e.tx = some tx) {t : Nat} (inside : t < e.db.tables.length)
    (absent : ∀ state ∈ tx.tables, state.t ≠ t) (key : Bytes) :
    (((commit ord).exec e).2.db.table t).get key = (e.db.table t).get key := by
  have applied := commit_applied ok ord t
  rw [commitOps_of_not_mem opened ord absent] at applied
  exact ((ok.db.sound t inside).same (commit_sound ok ord inside) applied.schema applied.lookup).2 key

theorem commit_ok (ok : e.Ok) (opened : e.tx = some tx) (ord : Order) :
    (∃ result, ((commit ord).exec e).1 = .ok result) ↔
      conflict e.db (ord.at 0) tx.tables = none ∧ Committable e.db tx := by
  rcases commit_answer ok opened ord with ⟨key,found,failed⟩ | ⟨none,⟨done,-,committable⟩ | ⟨err,failed,-,not⟩⟩
  · rw [failed,found]
    simp
  · exact ⟨fun _ => ⟨none,committable⟩,fun _ => ⟨_,done⟩⟩
  · rw [failed]
    exact ⟨fun absurd => by simp at absurd,fun both => absurd both.2 not⟩

theorem commit_empty (ok : e.Ok) (opened : e.tx = some tx) (done : ∃ result, ((commit ord).exec e).1 = .ok result) :
    ((commit ord).exec e).1 = .ok .empty := by
  rcases commit_answer ok opened ord with ⟨key,-,failed⟩ | ⟨-,⟨empty,-⟩ | ⟨err,failed,-⟩⟩
  · rw [failed] at done
    simp at done
  · exact empty
  · rw [failed] at done
    simp at done

def rearranged (e : Executor) (tx : Transaction) (tables : List TransactionTableState) : Executor :=
  ⟨e.db,some {tx with tables := tables}⟩

theorem rearranged_ok (ok : e.Ok) (opened : e.tx = some tx) {tables : List TransactionTableState}
    (perm : tables.Perm tx.tables) : (e.rearranged tx tables).Ok := by
  refine ⟨ok.db,fun tx' same => ?_⟩
  obtain rfl := Option.some.inj same
  have before := ok.tx tx opened
  exact ⟨(perm.map _).nodup_iff.mpr before.distinct,fun state member => before.inside state (perm.mem_iff.mp member),
    fun state member => before.readAt state (perm.mem_iff.mp member),before.id⟩

theorem commit_order (ok : e.Ok) (opened : e.tx = some tx) {result : Result}
    (done : ((commit ord).exec e).1 = .ok result) (ord' : Order) {tables : List TransactionTableState}
    (perm : tables.Perm tx.tables) :
    ((commit ord').exec (e.rearranged tx tables)).1 = .ok result ∧ ∀ t < e.db.tables.length,
      (((commit ord').exec (e.rearranged tx tables)).2.db.table t).scan = (((commit ord).exec e).2.db.table t).scan ∧
        ∀ key, (((commit ord').exec (e.rearranged tx tables)).2.db.table t).get key =
          (((commit ord).exec e).2.db.table t).get key := by
  have ok' := rearranged_ok ok opened perm
  have opened' : (e.rearranged tx tables).tx = some {tx with tables := tables} := rfl
  obtain ⟨none,committable⟩ := (commit_ok ok opened ord).mp ⟨_,done⟩
  have none' : conflict e.db (ord'.at 0) tables = Option.none := conflict_eq_none.mpr fun state member =>
    conflict_eq_none.mp none state (perm.mem_iff.mp member)
  have committable' : Committable e.db {tx with tables := tables} := fun state member =>
    committable state (perm.mem_iff.mp member)
  have answer := commit_empty ok opened ⟨_,done⟩
  have answer' := commit_empty ok' opened' ((commit_ok ok' opened' ord').mpr ⟨none',committable'⟩)
  refine ⟨answer'.trans (answer.symm.trans done),fun t inside => ?_⟩
  have gets : ∀ key, (((commit ord').exec (e.rearranged tx tables)).2.db.table t).get key =
      (((commit ord).exec e).2.db.table t).get key := by
    intro key
    by_cases there : ∃ state ∈ tx.tables, state.t = t
    · obtain ⟨state,member,rfl⟩ := there
      rw [commit_get ok opened none committable member]
      exact commit_get ok' opened' none' committable' (perm.mem_iff.mpr member) key
    · have absent : ∀ state ∈ tx.tables, state.t ≠ t := fun state member same => there ⟨state,member,same⟩
      rw [commit_get_other ok opened inside absent]
      exact commit_get_other ok' opened' inside (fun state member => absent state (perm.mem_iff.mp member)) key
  have sound := commit_sound ok ord inside
  have sound' := commit_sound ok' ord' inside
  have schema : (((commit ord').exec (e.rearranged tx tables)).2.db.table t).schema =
      (((commit ord).exec e).2.db.table t).schema :=
    (commit_applied ok' ord' t).schema.trans (commit_applied ok ord t).schema.symm
  exact sound.same sound' schema fun key => sound.lookup_of_get sound' schema (gets key)

theorem commitOps_distinct (e : Executor) (ord : Order) (t : Nat) : ((e.commitOps ord t).map BatchOp.key).Nodup := by
  unfold commitOps
  split
  · exact List.nodup_nil
  · split_ifs
    · exact List.nodup_nil
    · split
      · exact List.nodup_nil
      · exact Schema.applied_distinct _ _ _

end Executor

namespace Server

/-- A COMMIT that succeeds makes the writes of its transaction and no others, in whatever order
the loops run and the tables stand. -/
theorem commit_writes {s : Server} (ok : s.Ok) {client : Nat} {tx : Transaction} (opened : s.txs client = some tx)
    {ord : Order} {result : Result} (done : (handle (.one client ord .commit) s).1 = .ok result) :
    (∀ state ∈ tx.tables, ∀ key, ((handle (.one client ord .commit) s).2.db.table state.t).get key =
        (s.db.table state.t).getAfter state.batch key) ∧
      (∀ t < s.db.tables.length, ∃ keys rows, ((handle (.one client ord .commit) s).2.db.table t).scan = .ok rows ∧
        keys.Nodup ∧
        List.Forall₂ (fun key row => ((handle (.one client ord .commit) s).2.db.table t).get key = .ok (some row))
          keys rows ∧
        ∀ key row, ((handle (.one client ord .commit) s).2.db.table t).get key = .ok (some row) → key ∈ keys) ∧
      ∀ ord' tables, tables.Perm tx.tables →
        let s' := s.withExecutor client ⟨s.db,some {tx with tables := tables}⟩
        (handle (.one client ord' .commit) s').1 = .ok result ∧ ∀ t < s.db.tables.length,
          ((handle (.one client ord' .commit) s').2.db.table t).scan =
              ((handle (.one client ord .commit) s).2.db.table t).scan ∧
            ∀ key, ((handle (.one client ord' .commit) s').2.db.table t).get key =
              ((handle (.one client ord .commit) s).2.db.table t).get key := by
  simp only [handle_one,executor_withExecutor] at done ⊢
  have frame := ok.executor client
  obtain ⟨none,committable⟩ := (Executor.commit_ok frame opened ord).mp ⟨_,done⟩
  refine ⟨fun state member key => Executor.commit_get frame opened none committable member key,
    fun t inside => (Executor.commit_sound frame ord inside).scan_keys,fun ord' tables perm => ?_⟩
  exact Executor.commit_order frame opened done ord' perm

def inserted : Server := Sample.server [(1,Sample.create "u" .int),(1,.begin),(1,Sample.insert "u" 1 (.int 7))]

theorem commit_writes_insert : ∃ tx, inserted.txs 1 = some tx ∧ ∀ state ∈ tx.tables, ∀ key,
    ((handle (.one 1 .stored .commit) inserted).2.db.table state.t).get key =
      (inserted.db.table state.t).getAfter state.batch key := by
  obtain ⟨tx,opened⟩ := Option.isSome_iff_exists.mp (show (inserted.txs 1).isSome by decide +kernel)
  have done : (handle (.one 1 .stored .commit) inserted).1 = .ok .empty := by decide +kernel
  exact ⟨tx,opened,(commit_writes (Sample.server_ok _) opened done).1⟩

/-- Whatever it answers, a COMMIT leaves all rows as they were exactly if the operations it has
come to leave their keys as they were. -/
theorem commit_unchanged_iff {s : Server} (ok : s.Ok) (client : Nat) (ord : Order) :
    (∀ t < s.db.tables.length, ((handle (.one client ord .commit) s).2.db.table t).scan = (s.db.table t).scan ∧
        ∀ key, ((handle (.one client ord .commit) s).2.db.table t).get key = (s.db.table t).get key) ↔
      ∀ t < s.db.tables.length, ∀ op ∈ (s.executor client).commitOps ord t,
        (s.db.table t).store.get op.key = if op.delete then none else some op.value := by
  simp only [handle_one]
  have frame := ok.executor client
  refine forall₂_congr fun t inside => ?_
  have sound := ok.db.sound t inside
  have applied := Executor.commit_applied frame ord t
  have sound' := Executor.commit_sound frame ord inside
  have distinct := (s.executor client).commitOps_distinct ord t
  constructor
  · rintro ⟨-,gets⟩ op member
    have same := sound.lookup_of_get sound' applied.schema (gets op.key)
    rw [applied.lookup,effects_of_mem _ distinct member] at same
    rw [sound.stored,same]
  · intro kept
    refine sound.same sound' applied.schema fun key => ?_
    refine (applied.lookup key).trans ?_
    by_cases named : ∃ op ∈ (s.executor client).commitOps ord t, op.key = key
    · obtain ⟨op,member,rfl⟩ := named
      rw [effects_of_mem _ distinct member,← kept op member,sound.stored]
    · exact effects_of_forall_ne _ fun op member same => named ⟨op,member,same⟩

/-- Client 1 has staged a row for each of two tables, the second of which cannot be written. -/
def unwritable : Server := Sample.server [(1,Sample.create "u" .int),(1,Sample.create "v" .int),(1,.begin),
  (1,Sample.insert "u" 1 (.int 7)),(1,Sample.insert "v" 1 (.string (ascii "x")))]

theorem failed_commit_writes :
    (handle (.one 1 .stored .commit) unwritable).1 = .error (.expects (ascii "a") .int) ∧
      (unwritable.db.table 0).scan = .ok [] ∧
      ((handle (.one 1 .stored .commit) unwritable).2.db.table 0).scan ≠ .ok [] := by
  decide +kernel

def withdrawn : Server := unwritable.after [.one 1 .stored (.delete ⟨ascii "u",none⟩)]

theorem commit_unchanged_withdrawn :
    (handle (.one 1 .stored .commit) withdrawn).1 = .error (.expects (ascii "a") .int) ∧
      ∀ t < withdrawn.db.tables.length,
        ((handle (.one 1 .stored .commit) withdrawn).2.db.table t).scan = (withdrawn.db.table t).scan ∧
          ∀ key, ((handle (.one 1 .stored .commit) withdrawn).2.db.table t).get key = (withdrawn.db.table t).get key := by
  have ok : withdrawn.Ok := (after_steps _ _ (Sample.server_ok _)).ok
  exact ⟨by decide +kernel,(commit_unchanged_iff ok 1 .stored).mpr (by decide +kernel)⟩

end Server
end GoDb
