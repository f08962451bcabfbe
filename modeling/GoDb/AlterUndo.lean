import GoDb.BatchUndo
import GoDb.Commands

/-! A request of several statements that alters a table and fails later. The rows were read
with the old schema; they are put back with the one that is left, and those it does not
take are lost. -/
namespace GoDb
open Foundation Outcome

namespace Table

variable {t t' : Table} {s : Schema}

def reinsertEach (rows : List Row) (t : Table) : Table :=
  rows.foldl (fun t row => ((insert (t.schema.keyOf row) row).exec t).2) t

def undone (rows : List Row) (t : Table) : Table := reinsertEach rows ((deleteWhere fun _ => true).exec t).2

theorem reinsertEach_reads (rows : List Row) (t : Table) : t.Reads (reinsertEach rows t) := by
  induction rows generalizing t with
  | nil => exact reads.refl t
  | cons row rows ih => exact reads.trans (insert_reads _ row t) (ih _)

theorem reinsertEach_other (rows : List Row) {t : Table} {key : Bytes} (schema : t.schema = s) (legible : t.Legible)
    (others : ∀ row ∈ rows, s.keyOf row ≠ key) : (reinsertEach rows t).entries.lookup key = t.entries.lookup key := by
  induction rows generalizing t with
  | nil => rfl
  | cons row rows ih =>
    obtain ⟨other,others⟩ := List.forall_mem_cons.mp others
    obtain ⟨t₁,step,⟨b,inserted,after⟩ | ⟨⟨err,failed⟩,-,entries,-⟩⟩ := insert_outcome legible (s.keyOf row) row
    · change (reinsertEach rows ((insert (t.schema.keyOf row) row).exec t).2).entries.lookup key = _
      rw [schema,inserted,ih (step.1.trans schema) (legible.reads step) others,after.entries,SortedEntries.lookup_put,
        if_neg other.symm]
    · change (reinsertEach rows ((insert (t.schema.keyOf row) row).exec t).2).entries.lookup key = _
      rw [schema,failed,ih (step.1.trans schema) (legible.reads step) others,entries]

structure Rewritable (s : Schema) (rows : List Row) : Prop where
  writable : ∀ row ∈ rows, ∃ b, s.encode row = .ok b ∧ Store.Fits (s.keyOf row) b
  apart : rows.Pairwise fun old new => s.Apart (s.stored old) new

theorem rewritable_of_live (rows : List Row) {t : Table} (schema : t.schema = s) (filed : t.Filed)
    (stable : ∀ row ∈ rows, s.KeyStable row) (distinct : (rows.map s.keyOf).Nodup)
    (fresh : ∀ row ∈ rows, t.entries.lookup (s.keyOf row) = none)
    (live : ∀ row ∈ rows, (reinsertEach rows t).entries.lookup (s.keyOf row) ≠ none) :
    Rewritable s rows ∧ ∀ e ∈ t.entries, ∀ row ∈ rows, s.Apart (s.rowOf e.2) row := by
  induction rows generalizing t with
  | nil => exact ⟨⟨List.forall_mem_nil _,List.Pairwise.nil⟩,fun _ _ => List.forall_mem_nil _⟩
  | cons row rows ih =>
    obtain ⟨new,distinct⟩ := List.nodup_cons.mp distinct
    obtain ⟨here,stable⟩ := List.forall_mem_cons.mp stable
    obtain ⟨free,fresh⟩ := List.forall_mem_cons.mp fresh
    obtain ⟨there,live⟩ := List.forall_mem_cons.mp live
    have others : ∀ other ∈ rows, s.keyOf other ≠ s.keyOf row := fun other member same =>
      new (List.mem_map.mpr ⟨other,member,same⟩)
    have different : ∀ e ∈ t.entries, e.1 ≠ s.keyOf row := by
      intro e member same
      rw [← same,SortedEntries.lookup_of_mem filed.legible.increasing member] at free
      cases free
    have first : reinsertEach (row::rows) t = reinsertEach rows ((insert (s.keyOf row) row).exec t).2 := schema ▸ rfl
    rw [first] at there live
    obtain ⟨t₁,step,⟨b,inserted,after⟩ | ⟨⟨err,failed⟩,-,entries,-⟩⟩ := insert_outcome filed.legible (s.keyOf row) row
    · have accepts := after.accepts
      have filed₁ := (insert_files (schema ▸ here) filed).2
      rw [schema,inserted] at filed₁
      rw [inserted] at live
      have fresh₁ : ∀ other ∈ rows, t₁.entries.lookup (s.keyOf other) = none := by
        intro other member
        rw [after.entries,SortedEntries.lookup_put,if_neg (others other member)]
        exact fresh other member
      obtain ⟨rest,before⟩ := ih (step.1.trans schema) filed₁ stable distinct fresh₁ live
      have placed {e : BTree.Entry} (found : t₁.entries.lookup e.1 = some e.2) : ∀ other ∈ rows, s.Apart (s.rowOf e.2) other :=
        before e ((SortedEntries.mem_iff_lookup filed₁.legible.increasing e).mpr found)
      refine ⟨⟨List.forall_mem_cons.mpr ⟨⟨b,schema ▸ accepts.encoded,accepts.fit⟩,rest.writable⟩,
        List.pairwise_cons.mpr ⟨fun other member => ?_,rest.apart⟩⟩,fun e member => List.forall_mem_cons.mpr ⟨?_,?_⟩⟩
      · have own := placed (e := (s.keyOf row,b)) (by rw [after.entries,SortedEntries.lookup_put,if_pos rfl]) other member
        rwa [← schema,filed.legible.rowOf_accepted accepts,schema] at own
      · have other := different e member
        rw [← schema] at other ⊢
        refine apart_of_validateConstraints filed.legible (schema ▸ accepts.checked) member ?_
        rwa [filed.legible.printed filed.printed member]
      · apply placed
        rw [after.entries,SortedEntries.lookup_put,if_neg (different e member)]
        exact SortedEntries.lookup_of_mem filed.legible.increasing member
    · rw [failed,reinsertEach_other rows (step.1.trans schema) (filed.legible.reads step) others,entries,free] at there
      exact absurd rfl there

theorem reinsertEach_of_insertEach {rows : List Row} (ran : (insertEach rows).exec t = (.ok (),t')) :
    reinsertEach rows t = t' := by
  induction rows generalizing t with
  | nil => exact congrArg Prod.snd ran
  | cons row rows ih =>
    rw [insertEach,exec_bind_ok (exec_get t)] at ran
    obtain ⟨_,t₁,inserted,more⟩ := bind_success ran
    change reinsertEach rows ((insert (t.schema.keyOf row) row).exec t).2 = t'
    rw [inserted]
    exact ih more

theorem undone_reads (rows : List Row) (t : Table) : t.Reads (undone rows t) :=
  reads.trans (deleteWhere_frame reads delete_reads _ t) (reinsertEach_reads rows _)

theorem undone_live_iff (filed : t.Filed) {rows : List Row} (sorted : (rows.map t.schema.keyOf).Pairwise (· < ·))
    (stable : ∀ row ∈ rows, t.schema.KeyStable row) :
    (∀ row ∈ rows, (undone rows t).entries.lookup (t.schema.keyOf row) ≠ none) ↔ Rewritable t.schema rows := by
  constructor
  · intro live
    obtain ⟨t₁,emptied,-,entries⟩ := deleteWhere_outcome (fun _ => true) filed.legible filed.printed
    obtain ⟨schema,filed₁⟩ := deleteWhere_frame files delete_files (fun _ => true) t filed
    unfold undone at live
    rw [emptied] at live schema filed₁
    have none : t₁.entries = [] := by simpa using entries
    exact (rewritable_of_live rows schema filed₁ stable (sorted.imp ne_of_lt) (by simp [none]) live).1
  · intro rewritable row member
    obtain ⟨t',ran,-,entries⟩ := refill_all filed.legible filed.printed sorted rewritable.writable rewritable.apart
    obtain ⟨n,t₁,emptied,filled⟩ := bind_success ran
    have whole : undone rows t = t' := by
      rw [undone,emptied]
      exact reinsertEach_of_insertEach filled
    have there : entryOf t.schema row ∈ t'.entries := entries ▸ List.mem_map_of_mem member
    have legible : t'.Legible := whole ▸ filed.legible.reads (undone_reads rows t)
    rw [whole]
    exact ne_of_eq_of_ne (SortedEntries.lookup_of_mem legible.increasing there) (Option.some_ne_none _)

def KeysKept (t t' : Table) : Prop := ∀ key row, t.get key = .ok (some row) → ∃ row', t'.get key = .ok (some row')

theorem keysKept_iff (legible : t.Legible) (printed : t.Printed) (legible' : t'.Legible) {rows : List Row}
    (scanned : t.scan = .ok rows) : t.KeysKept t' ↔ ∀ row ∈ rows, t'.entries.lookup (t.schema.keyOf row) ≠ none := by
  obtain rfl := Except.ok.inj (scanned.symm.trans legible.scan)
  rw [List.forall_mem_map]
  constructor
  · intro kept e member gone
    have found : t.get e.1 = .ok (some (t.schema.rowOf e.2)) := by
      rw [legible.get,SortedEntries.lookup_of_mem legible.increasing member]
      rfl
    obtain ⟨row',there⟩ := kept e.1 _ found
    rw [legible.printed printed member] at gone
    rw [legible'.get,gone] at there
    cases there
  · intro live key row found
    rw [legible.get] at found
    obtain ⟨b,there,rfl⟩ := Option.map_eq_some_iff.mp (Except.ok.inj found)
    have member : (key,b) ∈ t.entries := (SortedEntries.mem_iff_lookup legible.increasing _).mpr there
    have still := live (key,b) member
    rw [legible.printed printed member] at still
    obtain ⟨b',there'⟩ := Option.ne_none_iff_exists'.mp still
    exact ⟨t'.schema.rowOf b',by rw [legible'.get,there']; rfl⟩

theorem keysKept_undone (legible : t.Legible) (printed : t.Printed) {rows : List Row} (scanned : t.scan = .ok rows)
    (filed : t'.Filed) (first : t'.schema.columns.head? = t.schema.columns.head?) :
    t.KeysKept (undone rows t') ↔ Rewritable t'.schema rows := by
  have keyColumn : t'.schema.keyColumn = t.schema.keyColumn := by rw [Schema.keyColumn,first,Schema.keyColumn]
  have keyOf : t'.schema.keyOf = t.schema.keyOf := by
    funext row
    rw [Schema.keyOf,keyColumn,Schema.keyOf]
  obtain ⟨c,rest,columns,-⟩ := filed.first
  rw [columns,List.head?_cons] at first
  obtain ⟨rest',columns'⟩ := List.head?_eq_some_iff.mp first.symm
  have rows' := Except.ok.inj (scanned.symm.trans legible.scan)
  have stable : ∀ row ∈ rows, t'.schema.KeyStable row := by
    rw [rows']
    refine List.forall_mem_map.mpr fun e member => ?_
    rw [Schema.keyStable_iff filed.legible.valid columns,keyColumn,← Schema.keyStable_iff legible.valid columns',
      Schema.KeyStable,Schema.stored_of_decode legible.valid (legible.decode member)]
  have sorted : (rows.map t'.schema.keyOf).Pairwise (· < ·) := by
    have keys : rows.map t.schema.keyOf = t.entries.map Prod.fst := by
      rw [rows',List.map_map]
      exact List.map_congr_left fun e member => legible.printed printed member
    rw [keyOf,keys]
    exact legible.increasing.keys
  rw [keysKept_iff legible printed (filed.legible.reads (undone_reads rows t')) scanned,← keyOf]
  exact undone_live_iff filed sorted stable

end Table

namespace Executor

variable {e e' e₁ : Executor} {t : Nat}

theorem reinsert_exec (inside : t < e.db.tables.length) (rows : List Row) : (reinsert t rows).exec e =
    (.ok (),{e with db := e.db.withTable t (Table.reinsertEach rows (e.db.table t))}) := by
  induction rows generalizing e with
  | nil =>
    rw [Table.reinsertEach,List.foldl_nil,Db.withTable_table inside]
    rfl
  | cons row rows ih =>
    rw [reinsert,exec_bind_ok (exec_get e),exec_bind_ok (attempt_exec _ e),onTable_exec,
      ih (e := ⟨e.db.withTable t _,e.tx⟩) (by rwa [Db.withTable,List.length_set]),Db.table_withTable_self inside,
      Db.withTable_withTable]
    rfl

theorem restore_exec (image : Nat → List Row) (saved : List Nat) {e : Executor} (distinct : saved.Nodup)
    (inside : ∀ t ∈ saved, t < e.db.tables.length) :
    ∃ e', (restore (saved.map fun t => (t,image t))).exec e = (.ok (),e') ∧
      (∀ t ∈ saved, e'.db.table t = Table.undone (image t) (e.db.table t)) ∧
      ∀ t ∉ saved, e'.db.table t = e.db.table t := by
  induction saved generalizing e with
  | nil => exact ⟨e,rfl,List.forall_mem_nil _,fun _ _ => rfl⟩
  | cons t saved ih =>
    obtain ⟨fresh,distinct⟩ := List.nodup_cons.mp distinct
    obtain ⟨here,inside⟩ := List.forall_mem_cons.mp inside
    have other {t' : Nat} (different : t' ≠ t) (table : Table) : (e.db.withTable t table).table t' = e.db.table t' :=
      (Db.table_withTable _ _ _ _).trans (if_neg fun both => different both.1.symm)
    have undone : (do
        attempt (onTable t (Table.deleteWhere fun _ => true))
        reinsert t (image t) : ExecutorM Unit).exec e =
          (.ok (),{e with db := e.db.withTable t (Table.undone (image t) (e.db.table t))}) := by
      rw [exec_bind_ok (attempt_exec _ e),onTable_exec,
        reinsert_exec (e := ⟨e.db.withTable t _,e.tx⟩) (by rwa [Db.withTable,List.length_set]),
        Db.table_withTable_self here,Db.withTable_withTable]
      rfl
    obtain ⟨e',restored,those,others⟩ := ih (e := ⟨e.db.withTable t (Table.undone (image t) (e.db.table t)),e.tx⟩) distinct
      fun t' member => by rw [Db.withTable,List.length_set]; exact inside t' member
    obtain ⟨_,mid,emptied,filled⟩ := bind_success undone
    refine ⟨e',?_,List.forall_mem_cons.mpr ⟨?_,fun t' member => ?_⟩,fun t' absent => ?_⟩
    · rw [List.map_cons,restore,exec_bind_ok emptied,exec_bind_ok filled]
      exact restored
    · rw [others t fresh,Db.table_withTable_self here]
    · rw [those t' member,other (ne_of_mem_of_not_mem member fresh)]
    · obtain ⟨different,absent⟩ := not_or.mp (mt List.mem_cons.mpr absent)
      rw [others t' absent,other different]

structure Readable (table : Table) (rows : List Row) : Prop where
  order : table.InOrder
  printed : table.Printed
  scanned : table.scan = .ok rows

end Executor

namespace Sample

def addColumn : Command := .alter ⟨ascii "u",.add ⟨ascii "b",.int⟩⟩

def dropColumn : Command := .alter ⟨ascii "u",.drop (ascii "b")⟩

/-- A statement that fails, since there is no such table. -/
def unknown : Command := .plain (insert "v" 1 (.int 1))

def cancelled : List Command := [addColumn,dropColumn,unknown]

def cancelledLeft : Executor :=
  ((Executor.executeCommands .stored cancelled.zipIdx .empty).exec (twoRows.executor 1)).2

theorem cancelled_failed : (Executor.executeCommands .stored cancelled.zipIdx .empty).exec (twoRows.executor 1) =
    (.error (.unknownTable (ascii "v")),cancelledLeft) := exec_of_error (by decide +kernel)

theorem cancelled_filed : (cancelledLeft.db.table 0).Filed := by
  have plain : ∀ c ∈ cancelled.zipIdx, ¬c.1.isControl := by decide +kernel
  have each := (Executor.eachRule Table.storeRule).executeCommands .stored plain .empty (twoRows.executor 1)
  have store := (each.tables 0 (by decide +kernel) twoRows_sound.legible.inOrder.store).1
  have order : (cancelledLeft.db.table 0).InOrder := ⟨by decide +kernel,by decide +kernel,store⟩
  have scanned : (cancelledLeft.db.table 0).scan = (twoRows.db.table 0).scan := by decide +kernel
  have legible := order.legible (scanned.trans twoRows_sound.scan)
  exact ⟨legible,legible.printed_of (by decide +kernel),by decide +kernel⟩

end Sample

namespace Executor

end Executor
end GoDb
