import GoDb.Rollback

/-! Requests of several statements outside of a transaction. The rows of all tables are read
before; when a statement fails, every table is emptied and filled with its rows again. With
INSERT, UPDATE and DELETE the schemas stay as they are, so that all of them go back in. -/
namespace GoDb
open Foundation Outcome

def Value.Settled (type : ColumnType) (v : Value) : Prop := (v.stored type).sprint = v.sprint

theorem coerceValue_settled {type : ColumnType} {v w : Value} (timeless : type ≠ .timestamp)
    (coerced : coerceValue v type = .ok w) : w.Settled type := by
  cases type with
  | int | string | bool => rfl
  | float => cases v <;> cases coerced <;> rfl
  | bytes =>
    have printed (b : Option Bytes) : (Value.bytes b).Settled .bytes := by
      unfold Value.Settled Value.stored
      dsimp only
      split_ifs with empty
      · rw [Value.sprint,Value.sprint,empty]
        rfl
      · rfl
    cases v <;> cases coerced
    · rfl
    · exact printed _
    · exact printed _
  | timestamp => exact absurd rfl timeless

namespace Schema

variable {s : Schema} {c : Column} {rest : List Column} {row : Row}

def KeyStable (s : Schema) (row : Row) : Prop := s.keyOf (s.stored row) = s.keyOf row

theorem keyColumn_first (columns : s.columns = c::rest) : s.keyColumn = c.name := by
  rw [keyColumn,columns]
  rfl

theorem keyStable_iff (valid : s.validate = .ok ()) (columns : s.columns = c::rest) :
    s.KeyStable row ↔ (row.get s.keyColumn).Settled c.type := by
  have member : c ∈ s.columns := columns ▸ List.mem_cons_self
  rw [KeyStable,keyOf,keyOf,keyColumn_first columns,Row.get,lookup_stored (distinct_of_validate valid) member]
  rfl

theorem columnNamed_first (columns : s.columns = c::rest) : s.columnNamed s.keyColumn = some c := by
  rw [columnNamed,columns,keyColumn_first columns,List.find?_cons_of_pos]
  exact decide_eq_true rfl

theorem insertRow_settled (columns : s.columns = c::rest) (timeless : c.type ≠ .timestamp)
    {given : List (Bytes × Value)} {acc out : Row} (made : s.insertRow given acc = .ok out)
    (settled : (acc.get s.keyColumn).Settled c.type) : (out.get s.keyColumn).Settled c.type := by
  induction given generalizing acc with
  | nil => exact Except.ok.inj made ▸ settled
  | cons e given ih =>
    obtain ⟨name,v⟩ := e
    unfold insertRow at made
    by_cases key : name = s.keyColumn
    · subst key
      rw [columnNamed_first columns] at made
      dsimp only at made
      rcases coerced : coerceValue v c.type with err | w
      · rw [coerced] at made
        cases made
      · rw [coerced] at made
        apply ih made
        rw [Row.get,SortedMap.lookup_insert,if_pos rfl]
        exact coerceValue_settled timeless coerced
    · have other (w : Value) : Row.get (acc.insert name w) s.keyColumn = acc.get s.keyColumn := by
        rw [Row.get,SortedMap.lookup_insert,if_neg (Ne.symm key)]
        rfl
      split at made
      · exact ih made (by rw [other]; exact settled)
      · split at made
        · cases made
        · exact ih made (by rw [other]; exact settled)

theorem updateSet_settled (columns : s.columns = c::rest) (timeless : c.type ≠ .timestamp) {ord : Order}
    {given : GoMap Value} {set : Row} (made : s.updateSet (ord.arrange given.entries) ∅ = .ok set)
    (settled : (row.get s.keyColumn).Settled c.type) : (Row.get (row.insertAll set.entries) s.keyColumn).Settled c.type := by
  rw [Row.get,SortedMap.lookup_insertAll]
  rcases value : given.lookup s.keyColumn with _ | v
  · rw [updateSet_keyless value made]
    exact settled
  · obtain ⟨d,w,named,coerced,there⟩ := updateSet_value value made
    rw [columnNamed_first columns] at named
    obtain rfl := Option.some.inj named
    rw [there]
    exact coerceValue_settled timeless coerced

end Schema

def Schema.keyType (s : Schema) : Option ColumnType := s.columns.head?.map Column.type

variable {rows : List Row}

namespace Table

variable {t t' : Table} {key : Bytes} {row : Row}

/-- Every row can be read and is filed under its printed key, which is not a time. -/
structure Filed (t : Table) : Prop where
  legible : t.Legible
  printed : t.Printed
  timeless : t.schema.keyType ≠ some .timestamp

theorem Filed.first (filed : t.Filed) : ∃ c rest, t.schema.columns = c::rest ∧ c.type ≠ .timestamp := by
  rcases columns : t.schema.columns with _ | ⟨c,rest⟩
  · exact absurd columns filed.legible.columns
  · refine ⟨c,rest,rfl,fun time => filed.timeless ?_⟩
    rw [Schema.keyType,columns,List.head?_cons,Option.map_some,time]

theorem Filed.of_entries (filed : t.Filed) (step : t.Reads t')
    (entries : ∀ e ∈ t'.entries, e ∈ t.entries ∨ t.schema.keyOf (t.schema.rowOf e.2) = e.1) : t'.Filed := by
  have legible := filed.legible.reads step
  refine ⟨legible,legible.printed_of fun e member => ?_,?_⟩
  · rw [step.1]
    rcases entries e member with old | new
    · exact filed.legible.printed filed.printed old
    · exact new
  · rw [step.1]
    exact filed.timeless

def Files (t t' : Table) : Prop := t.Filed → t'.schema = t.schema ∧ t'.Filed

theorem files : Frame Files where
  refl _ filed := ⟨rfl,filed⟩
  trans first second filed := by
    obtain ⟨schema,filed⟩ := first filed
    obtain ⟨schema',filed⟩ := second filed
    exact ⟨schema'.trans schema,filed⟩

theorem insert_files (stable : t.schema.KeyStable row) : t.Files ((insert (t.schema.keyOf row) row).exec t).2 := by
  intro filed
  obtain ⟨t',step,⟨b,ran,inserted⟩ | ⟨⟨err,failed⟩,-,same,-⟩⟩ := insert_outcome filed.legible (t.schema.keyOf row) row
  · rw [ran]
    refine ⟨step.1,filed.of_entries step fun e member => ?_⟩
    rw [inserted.entries] at member
    rcases SortedEntries.mem_put member with rfl | old
    · exact .inr ((congrArg _ (filed.legible.rowOf_accepted inserted.accepts)).trans stable)
    · exact .inl old
  · rw [failed]
    exact ⟨step.1,filed.of_entries step fun e member => .inl (same ▸ member)⟩

theorem delete_files (key : Bytes) : Proc.Keeps Files (delete key) := by
  intro t filed
  obtain ⟨t',ran,step,entries,-⟩ := delete_outcome filed.legible key
  rw [ran]
  refine ⟨step.1,filed.of_entries step fun e member => .inl ?_⟩
  rw [entries] at member
  exact List.mem_of_mem_filter member

theorem updateEach_files (wanted : Row → Bool) {set : Row} {s : Schema} (schema : t.schema = s)
    (stable : ∀ row ∈ rows, s.KeyStable (row.insertAll set.entries)) :
    t.Files ((updateEach wanted set rows).exec t).2 := by
  induction rows generalizing t with
  | nil => exact files.refl t
  | cons row rows ih =>
    obtain ⟨here,stable⟩ := List.forall_mem_cons.mp stable
    rw [updateEach]
    split_ifs
    · rw [exec_bind_ok (exec_get t)]
      intro filed
      have step := insert_files (schema ▸ here) filed
      rw [exec_bind]
      generalize (insert _ _).exec t = result at step ⊢
      rcases result with ⟨err | _,t₁⟩
      · exact step
      · obtain ⟨schema₁,filed₁⟩ := step
        dsimp only
        rw [exec_bind_pure]
        obtain ⟨schema₂,filed₂⟩ := ih (schema₁.trans schema) stable filed₁
        exact ⟨schema₂.trans schema₁,filed₂⟩
    · exact ih schema stable

/-- Rows in key order that can be put into an empty table, and read back as they are. -/
structure Refillable (s : Schema) (rows : List Row) : Prop where
  sorted : (rows.map s.keyOf).Pairwise (· < ·)
  writable : ∀ row ∈ rows, ∃ b, s.encode row = .ok b ∧ Store.Fits (s.keyOf row) b
  apart : rows.Pairwise fun old new => s.Apart (s.stored old) new
  stored : ∀ row ∈ rows, s.stored row = row

theorem Filed.refillable (filed : t.Filed) (scanned : t.scan = .ok rows) (unique : rows.Pairwise t.schema.Apart)
    (given : ∀ row ∈ rows, t.schema.NotNull row) : Refillable t.schema rows := by
  have legible := filed.legible
  obtain rfl := Except.ok.inj (scanned.symm.trans legible.scan)
  have stored : ∀ row ∈ t.entries.map (fun e => t.schema.rowOf e.2), t.schema.stored row = row :=
    List.forall_mem_map.mpr fun e member => Schema.stored_of_decode legible.valid (legible.decode member)
  refine ⟨?_,?_,List.Pairwise.imp_of_mem (fun old _ apart => ?_) unique,stored⟩
  · have keys : (t.entries.map fun e => t.schema.rowOf e.2).map t.schema.keyOf = t.entries.map Prod.fst := by
      rw [List.map_map]
      exact List.map_congr_left fun e member => legible.printed filed.printed member
    rw [keys]
    exact legible.increasing.keys
  · -- What is written again may differ from what was read in bits of no column, but it is as long.
    refine List.forall_mem_map.mpr fun e member => ?_
    have encoded := Schema.encode_decode legible.valid (given _ (List.mem_map_of_mem member)) (legible.decode member)
    refine ⟨_,encoded,?_⟩
    have fits := legible.fits e member
    rw [legible.printed filed.printed member]
    unfold Store.Fits Store.recordSize at fits ⊢
    rwa [Bitmap.length_clearFrom]
  · rwa [stored _ old]

theorem Refillable.refill (filed : t.Filed) (fill : Refillable t.schema rows) :
    ∃ t', (refill rows).exec t = (.ok (),t') ∧ t'.Filed ∧ t'.schema = t.schema ∧ t'.scan = .ok rows := by
  have legible := filed.legible
  obtain ⟨t',ran,step,entries⟩ := refill_all legible filed.printed fill.sorted fill.writable fill.apart
  have read : ∀ row ∈ rows, t.schema.rowOf (entryOf t.schema row).2 = row := by
    intro row member
    obtain ⟨b,encoded,fit⟩ := fill.writable row member
    have short := fit.short
    rw [entryOf,Schema.bytesOf_encode encoded,Schema.rowOf,Schema.decode_encode legible.valid encoded (by omega),
      fill.stored row member]
    rfl
  refine ⟨t',ran,filed.of_entries step fun e member => .inr ?_,step.1,?_⟩
  · rw [entries] at member
    obtain ⟨row,there,rfl⟩ := List.mem_map.mp member
    rw [read row there]
    rfl
  · rw [(legible.reads step).scan,entries,step.1,List.map_map]
    exact congrArg _ ((List.map_congr_left read).trans (List.map_id _))

end Table

namespace Executor

variable {e e' : Executor} {t : Nat}

/-- No transaction is open, and the rows of the registered tables are filed. -/
structure Ready (e : Executor) : Prop where
  closed : e.tx = none
  inside : ∀ name t, e.db.registry.lookup name = some t → t < e.db.tables.length
  filed : ∀ name t, e.db.registry.lookup name = some t → (e.db.table t).Filed

/-- The same tables are there, with the same schemas. -/
structure Worked (e e' : Executor) : Prop where
  ready : e'.Ready
  registry : e'.db.registry = e.db.registry
  schema : ∀ t, (e'.db.table t).schema = (e.db.table t).schema

def Works (e e' : Executor) : Prop := e.Ready → e.Worked e'

theorem works : Frame Works where
  refl _ ready := ⟨ready,rfl,fun _ => rfl⟩
  trans first second ready := by
    have middle := first ready
    have last := second middle.ready
    exact ⟨last.ready,last.registry.trans middle.registry,fun t => (last.schema t).trans (middle.schema t)⟩

theorem onTable_works {α : Type} {x : TableM α} {name : Bytes} (ready : e.Ready) (found : e.table name = .ok t)
    (files : (e.db.table t).Files (x.exec (e.db.table t)).2) : e.Worked ((onTable t x).exec e).2 := by
  obtain ⟨schema,filed⟩ := files (ready.filed _ t (lookup_of_table found))
  rw [onTable_exec]
  refine ⟨⟨ready.closed,fun name t' there => ?_,fun name t' there => ?_⟩,rfl,fun t' => ?_⟩
  · rw [show (e.db.withTable t _).tables.length = e.db.tables.length from List.length_set]
    exact ready.inside name t' there
  · rw [Db.table_withTable]
    split_ifs
    · exact filed
    · exact ready.filed name t' there
  · rw [Db.table_withTable]
    split_ifs with changed
    · rw [schema,changed.1]
    · rfl

theorem keyedRow_stable (filed : (e.db.table t).Filed) {ord : Order} {given : List (Bytes × Value)} {row row' : Row}
    (made : (e.db.table t).schema.insertRow given ∅ = .ok row) (keyed : e.keyedRow ord t row = .ok row') :
    (e.db.table t).schema.KeyStable row' := by
  obtain ⟨c,rest,columns,timeless⟩ := filed.first
  rw [Schema.keyStable_iff filed.legible.valid columns]
  have settled := Schema.insertRow_settled columns timeless made (congrArg Value.sprint (Value.stored_nil c.type))
  rw [keyedRow.eq_def] at keyed
  dsimp only at keyed
  split at keyed
  · exact Except.ok.inj keyed ▸ settled
  · split_ifs at keyed with int
    split at keyed
    · cases keyed
    · rw [columns,List.head?_cons,Option.map_some,not_not,Option.some.injEq] at int
      rw [← Except.ok.inj keyed,int,Row.get,SortedMap.lookup_insert,if_pos rfl]
      rfl

theorem insert_works (ord : Order) (q : Insert) : Proc.Keeps Works (insert ord q) := by
  unfold insert
  refine Keeps.get_bind fun e => ?_
  have here := works.refl e
  refine Keeps.of_bind_at here fun t found => Keeps.of_bind_at here fun given made => Keeps.refuse_bind_at here ?_
  refine Keeps.of_bind_at here fun row keyed => Keeps.of_bind_at here fun _ _ => ?_
  refine Keeps.bind_at works (fun ready => ?_) fun _ => Keeps.pure works _
  rw [if_neg (by rw [ready.closed]; decide)]
  apply onTable_works ready found
  exact Table.insert_files (keyedRow_stable (ready.filed _ t (lookup_of_table found)) made keyed)

theorem update_works (ord : Order) (q : Update) : Proc.Keeps Works (update ord q) := by
  unfold update
  refine Keeps.get_bind fun e => ?_
  have here := works.refl e
  refine Keeps.of_bind_at here fun t found => Keeps.of_bind_at here fun set made => Keeps.of_bind_at here fun refs read => ?_
  refine Keeps.bind_at works (fun ready => ?_) fun _ => Keeps.pure works _
  have filed := ready.filed _ t (lookup_of_table found)
  have legible := filed.legible
  rw [rowRefs_closed ready.closed _ legible.scan] at read
  rw [← Except.ok.inj read,updateEach_closed ready.closed (ready.inside _ t (lookup_of_table found))]
  apply onTable_works ready found
  apply Table.updateEach_files _ rfl
  -- A row that was read is stable, and the SET clause gives its key the type of the first column.
  intro row member
  obtain ⟨d,there,rfl⟩ := List.mem_map.mp member
  obtain ⟨c,rest,columns,timeless⟩ := filed.first
  rw [Schema.keyStable_iff legible.valid columns]
  apply Schema.updateSet_settled columns timeless made
  rw [← Schema.keyStable_iff legible.valid columns,Schema.KeyStable,
    Schema.stored_of_decode legible.valid (legible.decode there)]

theorem delete_works (ord : Order) (q : Delete) : Proc.Keeps Works (delete ord q) := by
  unfold delete
  refine Keeps.get_bind fun e => ?_
  have here := works.refl e
  refine Keeps.of_bind_at here fun t found => Keeps.of_bind_at here fun refs read => ?_
  refine Keeps.bind_at works (fun ready => ?_) fun _ => Keeps.pure works _
  rw [rowRefs_closed ready.closed _ (ready.filed _ t (lookup_of_table found)).legible.scan] at read
  rw [← Except.ok.inj read,deleteEach_closed ready.closed (ready.inside _ t (lookup_of_table found))]
  apply onTable_works ready found
  exact Table.deleteEach_frame Table.files Table.delete_files _ _ _

theorem executeStatement_works (ord : Order) (st : Statement) (data : st.isData) :
    Proc.Keeps Works (executeStatement ord st) := by
  cases st with
  | insert q => exact insert_works ord q
  | select q => exact Keeps.bind works (Keeps.get works) fun _ => Keeps.of works _
  | update q => exact update_works ord q
  | delete q => exact delete_works ord q
  | begin | commit | rollback | createTable => cases data

theorem reinsert_of_insertEach (ran : (insertEach t rows).exec e = (.ok (),e')) :
    (reinsert t rows).exec e = (.ok (),e') := by
  induction rows generalizing e with
  | nil => exact ran
  | cons row rows ih =>
    rw [insertEach,exec_bind_ok (exec_get e)] at ran
    obtain ⟨_,mid,inserted,more⟩ := bind_success ran
    rw [reinsert,exec_bind_ok (exec_get e),exec_bind_ok (attempt_exec _ e),inserted]
    exact ih more

theorem restore_table (inside : t < e.db.tables.length) (filed : (e.db.table t).Filed)
    (fill : Table.Refillable (e.db.table t).schema rows) :
    ∃ table, (do
        attempt (onTable t (Table.deleteWhere fun _ => true))
        reinsert t rows : ExecutorM Unit).exec e = (.ok (),{e with db := e.db.withTable t table}) ∧
      table.Filed ∧ table.schema = (e.db.table t).schema ∧ table.scan = .ok rows := by
  obtain ⟨table,ran,after⟩ := fill.refill filed
  refine ⟨table,?_,after⟩
  have whole := refill_onTable inside rows
  rw [onTable_exec,ran] at whole
  obtain ⟨n,mid,emptied,filled⟩ := bind_success whole
  rw [exec_bind_ok (attempt_exec _ e),emptied]
  exact reinsert_of_insertEach filled

theorem restore_image (image : Nat → List Row) (saved : List Nat) (inside : ∀ t ∈ saved, t < e.db.tables.length)
    (filed : ∀ t ∈ saved, (e.db.table t).Filed) (fill : ∀ t ∈ saved, Table.Refillable (e.db.table t).schema (image t)) :
    ∃ e', (restore (saved.map fun t => (t,image t))).exec e = (.ok (),e') ∧
      ∀ t, (t ∈ saved → (e'.db.table t).scan = .ok (image t)) ∧ (t ∉ saved → e'.db.table t = e.db.table t) := by
  induction saved generalizing e with
  | nil => exact ⟨e,rfl,fun t => ⟨fun member => absurd member List.not_mem_nil,fun _ => rfl⟩⟩
  | cons t saved ih =>
    obtain ⟨here,inside⟩ := List.forall_mem_cons.mp inside
    obtain ⟨own,filed⟩ := List.forall_mem_cons.mp filed
    obtain ⟨now,fill⟩ := List.forall_mem_cons.mp fill
    obtain ⟨table,ran,filled,schema,scanned⟩ := restore_table here own now
    have there := Db.table_withTable_self here table
    have other {t' : Nat} (different : t' ≠ t) : (e.db.withTable t table).table t' = e.db.table t' :=
      (Db.table_withTable _ _ _ _).trans (if_neg fun both => different both.1.symm)
    -- A table may be registered twice; its rows are the same both times.
    obtain ⟨e',done,rows⟩ := ih (e := ⟨e.db.withTable t table,e.tx⟩)
      (fun t' member => by rw [Db.withTable,List.length_set]; exact inside t' member)
      (fun t' member => by
        by_cases same : t' = t
        · rw [same,there]
          exact filled
        · rw [other same]
          exact filed t' member)
      (fun t' member => by
        by_cases same : t' = t
        · rw [same,there,schema]
          exact now
        · rw [other same]
          exact fill t' member)
    obtain ⟨_,mid,emptied,refilled⟩ := bind_success ran
    refine ⟨e',?_,fun t' => ⟨fun member => ?_,fun absent => ?_⟩⟩
    · rw [List.map_cons,restore,exec_bind_ok emptied,exec_bind_ok refilled]
      exact done
    · by_cases later : t' ∈ saved
      · exact (rows t').1 later
      · rw [(rows t').2 later]
        rcases List.mem_cons.mp member with rfl | later'
        · rw [there]
          exact scanned
        · exact absurd later' later
    · obtain ⟨different,later⟩ := not_or.mp (mt List.mem_cons.mpr absent)
      rw [(rows t').2 later,other different]

theorem scanAll_image {image : Nat → List Row} {registered : List (Bytes × Nat)}
    (scanned : ∀ entry ∈ registered, (e.db.table entry.2).scan = .ok (image entry.2)) :
    e.scanAll registered = .ok ((registered.map Prod.snd).map fun t => (t,image t)) := by
  induction registered with
  | nil => rfl
  | cons entry registered ih =>
    obtain ⟨here,rest⟩ := List.forall_mem_cons.mp scanned
    rw [scanAll,here,ih rest]
    rfl

structure Undoable (table : Table) (rows : List Row) : Prop where
  order : table.InOrder
  key : table.schema.keyType ≠ some .timestamp
  restorable : Restorable table rows
  given : ∀ row ∈ rows, table.schema.NotNull row

theorem Undoable.filed {table : Table} (undoable : Undoable table rows) : table.Filed :=
  ⟨undoable.order.legible undoable.restorable.rows,undoable.restorable.printed,undoable.key⟩

theorem Worked.restores {e₁ : Executor} (worked : e.Worked e₁) {image : Nat → List Row}
    (undoable : ∀ name t, e.db.registry.lookup name = some t → Undoable (e.db.table t) (image t)) {saved : List Nat}
    (registered : ∀ t ∈ saved, ∃ name, e.db.registry.lookup name = some t) :
    ∃ e', (restore (saved.map fun t => (t,image t))).exec e₁ = (.ok (),e') ∧
      ∀ t ∈ saved, (e'.db.table t).scan = .ok (image t) := by
  have ready : ∀ t ∈ saved, t < e₁.db.tables.length ∧ (e₁.db.table t).Filed ∧
      Table.Refillable (e₁.db.table t).schema (image t) := by
    intro t member
    obtain ⟨name,found⟩ := registered t member
    have own := undoable name t found
    refine ⟨worked.ready.inside name t (worked.registry ▸ found),worked.ready.filed name t (worked.registry ▸ found),?_⟩
    rw [worked.schema t]
    exact own.filed.refillable own.restorable.rows own.restorable.unique own.given
  obtain ⟨e',restored,rows⟩ := restore_image image saved (fun t member => (ready t member).1)
    (fun t member => (ready t member).2.1) fun t member => (ready t member).2.2
  exact ⟨e',restored,fun t member => (rows t).1 member⟩

def takenValue : List Statement := [Sample.insert "u" 3 (.int 9),Sample.insert "u" 4 (.int 8)]

end Executor
end GoDb
