import GoDb.IndexUpkeep

/-! Whether the values of REFERENCES columns are there in the tables they refer to. INSERT
looks for them; UPDATE and DELETE look neither at what they write nor at what other tables
refer to. So the references hold for as long as no statement takes a value out of a column
that is referred to, and no UPDATE assigns a column that refers. -/
namespace GoDb
open Foundation Outcome

variable {key : Bytes} {new row : Row} {rows : List Row} {s : Schema}

namespace Table

variable {t t' : Table} {e : BTree.Entry}

def Holds (t : Table) (row : Row) : Prop := ∃ rows, t.scan = .ok rows ∧ row ∈ rows

theorem Legible.holds (legible : t.Legible) : t.Holds row ↔ ∃ e ∈ t.entries, t.schema.rowOf e.2 = row := by
  constructor
  · rintro ⟨rows,scanned,member⟩
    obtain rfl := Except.ok.inj (legible.scan.symm.trans scanned)
    exact List.mem_map.mp member
  · intro there
    exact ⟨_,legible.scan,List.mem_map.mpr there⟩

theorem updateEach_entries (legible : t.Legible) (wanted : Row → Bool) (set : Row) (rows : List Row)
    (member : e ∈ ((updateEach wanted set rows).exec t).2.entries) :
    e ∈ t.entries ∨ ∃ row ∈ rows, t.schema.rowOf e.2 = t.schema.stored (row.insertAll set.entries) := by
  induction rows generalizing t with
  | nil => exact .inl member
  | cons row rows ih =>
    have later {t' : Table} (reads : t.Reads t') (member : e ∈ ((updateEach wanted set rows).exec t').2.entries) :
        e ∈ t'.entries ∨ ∃ r ∈ row::rows, t.schema.rowOf e.2 = t.schema.stored (r.insertAll set.entries) := by
      apply (ih (legible.reads reads) member).imp_right
      rintro ⟨r,there,written⟩
      rw [reads.1] at written
      exact ⟨r,List.mem_cons_of_mem row there,written⟩
    unfold updateEach at member
    split_ifs at member
    · rw [exec_bind_ok (exec_get t)] at member
      obtain ⟨t',step,⟨b,inserted,after⟩ | ⟨⟨err,failed⟩,-,same,-⟩⟩ := insert_outcome legible
        (t.schema.keyOf (row.insertAll set.entries)) (row.insertAll set.entries)
      · rw [exec_bind_ok inserted] at member
        have member : e ∈ ((updateEach wanted set rows).exec t').2.entries := by
          rwa [exec_bind_pure] at member
        rcases later step member with before | new
        · rw [after.entries] at before
          rcases SortedEntries.mem_put before with rfl | before
          · exact .inr ⟨row,List.mem_cons_self,legible.rowOf_accepted after.accepts⟩
          · exact .inl before
        · exact .inr new
      · rw [exec_bind_error failed,same] at member
        exact .inl member
    · exact later (reads.refl t) member

theorem deleteEach_entries (legible : t.Legible) (wanted : Row → Bool) (rows : List Row)
    (member : e ∈ ((deleteEach wanted rows).exec t).2.entries) : e ∈ t.entries := by
  induction rows generalizing t with
  | nil => exact member
  | cons row rows ih =>
    unfold deleteEach at member
    split_ifs at member
    · obtain ⟨t',deleted,step,entries,-⟩ := delete_outcome legible (t.schema.keyOf row)
      rw [exec_bind_ok (exec_get t),exec_bind_ok deleted,exec_bind_pure] at member
      have before := ih (legible.reads step) member
      rw [entries] at before
      exact List.mem_of_mem_filter before
    · exact ih legible member

theorem insert_done (legible : t.Legible) (done : (insert key new).exec t = (.ok (),t')) :
    t.Reads t' ∧ ∃ b, t.Inserted t' key new b := by
  have reads := insert_reads key new t
  rw [done] at reads
  obtain ⟨_,-,⟨b,ran,after⟩ | ⟨⟨err,failed⟩,-⟩⟩ := insert_outcome legible key new
  · obtain ⟨-,rfl⟩ := Prod.mk.inj (ran.symm.trans done)
    exact ⟨reads,b,after⟩
  · rw [failed] at done
    cases (Prod.mk.inj done).1

theorem insert_holds (legible : t.Legible) (done : (insert key new).exec t = (.ok (),t')) (live : t'.Holds row) :
    t.Holds row ∨ row = t.schema.stored new := by
  obtain ⟨reads,b,after⟩ := insert_done legible done
  obtain ⟨e,member,rfl⟩ := (legible.reads reads).holds.mp live
  rw [reads.1]
  rw [after.entries] at member
  rcases SortedEntries.mem_put member with rfl | old
  · exact .inr (legible.rowOf_accepted after.accepts)
  · exact .inl (legible.holds.mpr ⟨e,old,rfl⟩)

theorem insert_live (legible : t.Legible) (done : (insert key new).exec t = (.ok (),t')) :
    t'.Holds (t.schema.stored new) := by
  obtain ⟨reads,b,after⟩ := insert_done legible done
  rw [(legible.reads reads).holds,reads.1,after.entries]
  refine ⟨(key,b),SortedEntries.mem_of_lookup ?_,legible.rowOf_accepted after.accepts⟩
  rw [SortedEntries.lookup_put,if_pos rfl]

theorem updateEach_holds (legible : t.Legible) {wanted : Row → Bool} {set : Row} {a : Except Error Nat}
    (ran : (updateEach wanted set rows).exec t = (a,t')) (live : t'.Holds row) :
    t.Holds row ∨ ∃ old ∈ rows, row = t.schema.stored (old.insertAll set.entries) := by
  have reads := updateEach_frame reads wanted set (fun t row => insert_reads _ row t) rows t
  rw [ran] at reads
  obtain ⟨e,member,rfl⟩ := (legible.reads reads).holds.mp live
  rw [reads.1]
  apply (updateEach_entries legible wanted set rows (by rw [ran]; exact member)).imp_left
  intro old
  exact legible.holds.mpr ⟨e,old,rfl⟩

theorem deleteEach_holds (legible : t.Legible) {wanted : Row → Bool} {a : Except Error Nat}
    (ran : (deleteEach wanted rows).exec t = (a,t')) (live : t'.Holds row) : t.Holds row := by
  have reads := deleteEach_frame reads delete_reads wanted rows t
  rw [ran] at reads
  obtain ⟨e,member,rfl⟩ := (legible.reads reads).holds.mp live
  rw [reads.1]
  exact legible.holds.mpr ⟨e,deleteEach_entries legible wanted rows (by rw [ran]; exact member),rfl⟩

end Table

namespace Db

variable {db : Db} {t : Nat} {ref : Reference} {v : Value}

def Occurs (db : Db) (ref : Reference) (v : Value) : Prop :=
  ∃ t, db.registry.lookup (toLower ref.table) = some t ∧
    ∃ row, (db.table t).Holds row ∧ row.get ref.column ≠ .nil ∧ (row.get ref.column).compare v = .eq

def Declared (db : Db) (ref : Reference) : Prop :=
  ∃ name t, db.registry.lookup name = some t ∧
    ∃ c ∈ (db.table t).schema.columns, ((db.table t).schema.constraint c.name).references = some ref

/-- The values a row refers to are there. -/
def Backs (db : Db) (s : Schema) (row : Row) : Prop :=
  ∀ c ∈ s.columns, ∀ ref, (s.constraint c.name).references = some ref → row.get c.name ≠ .nil →
    db.Occurs ref (row.get c.name)

/-- Every live row has all that it refers to. -/
def Referential (db : Db) : Prop :=
  ∀ name t, db.registry.lookup name = some t → ∀ row, (db.table t).Holds row → db.Backs (db.table t).schema row

def Retains (db db' : Db) : Prop := ∀ ref, db.Declared ref → ∀ v, db.Occurs ref v → db'.Occurs ref v

theorem Referential.change (holds : db.Referential) {name : Bytes} (found : db.registry.lookup name = some t)
    {table : Table} (schema : table.schema = (db.table t).schema)
    (backed : ∀ row, table.Holds row → db.Backs (db.table t).schema row) (retains : db.Retains (db.withTable t table)) :
    (db.withTable t table).Referential := by
  intro other t' there row live
  change db.registry.lookup other = some t' at there
  rw [table_withTable] at live ⊢
  split_ifs at live ⊢ with same
  · rw [schema]
    intro c member ref refers some
    exact retains ref ⟨name,t,found,c,member,refers⟩ _ (backed row live c member ref refers some)
  · intro c member ref refers some
    exact retains ref ⟨other,t',there,c,member,refers⟩ _ (holds other t' there row live c member ref refers some)

end Db

namespace Executor

variable {e e' : Executor} {t : Nat} {ord : Order} {name : Bytes}

theorem rows_closed (closed : e.tx = none) (ord : Order) (scanned : (e.db.table t).scan = .ok rows) :
    e.rows ord t = .ok rows := by
  rw [Executor.rows,rowRefs_closed closed ord scanned]
  dsimp only
  rw [List.map_map]
  exact congrArg _ (List.map_id'' (deref_closed closed t) rows)

theorem occurs_of_check (closed : e.tx = none) (ok : e.Ok) {columns : List (Column × Nat)}
    (checked : e.checkReferences ord s row columns = .ok ()) {c : Column} {k : Nat} (member : (c,k) ∈ columns)
    {ref : Reference} (refers : (s.constraint c.name).references = some ref) (some : row.get c.name ≠ .nil) :
    e.db.Occurs ref (row.get c.name) := by
  induction columns with
  | nil => cases member
  | cons first columns ih =>
    obtain ⟨d,i⟩ := first
    unfold checkReferences at checked
    rcases List.mem_cons.mp member with same | later
    · obtain ⟨rfl,rfl⟩ := Prod.mk.inj same
      rw [refers] at checked
      dsimp only at checked
      rw [if_neg some] at checked
      split at checked
      · cases checked
      · rename_i other there
        have registered := lookup_of_table there
        have legible := (ok.db.sound other (ok.db.registered _ _ registered)).legible
        rw [rows_closed closed _ legible.scan] at checked
        split_ifs at checked with any
        obtain ⟨r,inside,equal⟩ := List.any_eq_true.mp any
        obtain ⟨value,equal⟩ := (Bool.and_eq_true _ _).mp equal
        exact ⟨other,registered,r,⟨_,legible.scan,inside⟩,bne_iff_ne.mp value,of_decide_eq_true equal⟩
    · split at checked
      · exact ih checked later
      · split_ifs at checked
        · exact ih checked later
        · split at checked
          · cases checked
          · dsimp only at checked
            split_ifs at checked
            exact ih checked later

theorem insert_success (closed : e.tx = none) {q : Insert} {r : Result} (done : (insert ord q).exec e = (.ok r,e')) :
    ∃ t given row table, e.table q.table = .ok t ∧
      (e.db.table t).schema.insertRow (q.columns.zip q.values) ∅ = .ok given ∧ e.keyedRow (ord.at 0) t given = .ok row ∧
      e.checkReferences (ord.at 1) (e.db.table t).schema row (e.db.table t).schema.columns.zipIdx = .ok () ∧
      (Table.insert ((e.db.table t).schema.keyOf row) row).exec (e.db.table t) = (.ok (),table) ∧
      e' = {e with db := e.db.withTable t table} := by
  unfold insert at done
  rw [exec_bind_ok (exec_get e)] at done
  obtain ⟨t,found,done⟩ := of_bind_success done
  obtain ⟨given,made,done⟩ := of_bind_success done
  obtain ⟨_,mid,accepted,done⟩ := bind_success done
  rw [exec_refuse] at accepted
  obtain ⟨-,rfl⟩ := Prod.mk.inj accepted
  obtain ⟨row,keyed,done⟩ := of_bind_success done
  obtain ⟨_,checked,done⟩ := of_bind_success done
  obtain ⟨_,last,inserted,done⟩ := bind_success done
  rw [if_neg (by rw [closed]; decide),onTable_exec] at inserted
  obtain ⟨-,rfl⟩ := Prod.mk.inj done
  obtain ⟨answer,rfl⟩ := Prod.mk.inj inserted
  exact ⟨t,given,row,_,found,made,keyed,checked,Prod.ext answer rfl,rfl⟩

theorem insert_backs (closed : e.tx = none) (ok : e.Ok) (valid : s.validate = .ok ())
    (discrete : ∀ c ∈ s.columns, (s.constraint c.name).references ≠ none → c.type.Discrete)
    (checked : e.checkReferences ord s row s.columns.zipIdx = .ok ()) : e.db.Backs s (s.stored row) := by
  intro c column ref refers some
  have same : (s.stored row).get c.name = row.get c.name := by
    rw [Row.get,Schema.lookup_stored (Schema.distinct_of_validate valid) column]
    exact Value.stored_discrete (discrete c column (by rw [refers]; exact Option.some_ne_none _)) _
  rw [same] at some ⊢
  obtain ⟨i,bound,rfl⟩ := List.getElem_of_mem column
  exact occurs_of_check closed ok checked (List.mk_mem_zipIdx_iff_getElem?.mpr (List.getElem?_eq_getElem bound)) refers some

theorem update_backs {db : Db} {set : Row} (valid : s.validate = .ok ()) (held : s.stored row = row)
    (spares : ∀ c ∈ s.columns, (s.constraint c.name).references ≠ none → set.lookup c.name = none)
    (backed : db.Backs s row) : db.Backs s (s.stored (row.insertAll set.entries)) := by
  have distinct := Schema.distinct_of_validate valid
  intro c column ref refers some
  have same : (s.stored (row.insertAll set.entries)).get c.name = row.get c.name := by
    have spared := spares c column (by rw [refers]; exact Option.some_ne_none _)
    rw [Row.get,Schema.lookup_stored distinct column,Option.getD_some,Row.get,SortedMap.lookup_insertAll,spared,
      Option.none_or]
    exact Schema.value_of_stored distinct held column
  rw [same] at some ⊢
  exact backed c column ref refers some

/-- Statements outside of transactions, one after the other, that succeed. None takes a value out of a column that
is referred to, and no UPDATE assigns a column that refers. -/
inductive Linked : Executor → Prop
  | start {e : Executor} (ok : e.Ok) (closed : e.tx = none)
      (empty : ∀ t < e.db.tables.length, (e.db.table t).scan = .ok []) : Linked e
  | insert {e e' : Executor} {ord : Order} {q : Insert} {t : Nat} {r : Result} (linked : Linked e)
      (found : e.table q.table = .ok t)
      (discrete : ∀ c ∈ (e.db.table t).schema.columns,
        ((e.db.table t).schema.constraint c.name).references ≠ none → c.type.Discrete)
      (done : (executeStatement ord (.insert q)).exec e = (.ok r,e')) (retains : e.db.Retains e'.db) : Linked e'
  | update {e e' : Executor} {ord : Order} {q : Update} {t : Nat} {r : Result} (linked : Linked e)
      (found : e.table q.table = .ok t)
      (spares : ∀ c ∈ (e.db.table t).schema.columns,
        ((e.db.table t).schema.constraint c.name).references ≠ none → q.set.lookup c.name = none)
      (done : (executeStatement ord (.update q)).exec e = (.ok r,e')) (retains : e.db.Retains e'.db) : Linked e'
  | delete {e e' : Executor} {ord : Order} {q : Delete} {t : Nat} {r : Result} (linked : Linked e)
      (found : e.table q.table = .ok t)
      (done : (executeStatement ord (.delete q)).exec e = (.ok r,e')) (retains : e.db.Retains e'.db) : Linked e'

theorem relinked {st : Statement} {r : Result} {table : Table} (ok : e.Ok) (closed : e.tx = none)
    (holds : e.db.Referential) (found : e.db.registry.lookup name = some t)
    (done : (executeStatement ord st).exec e = (.ok r,e')) (changed : e' = {e with db := e.db.withTable t table})
    (schema : table.schema = (e.db.table t).schema)
    (backed : ∀ row, table.Holds row → e.db.Backs (e.db.table t).schema row) (retains : e.db.Retains e'.db) :
    e'.Ok ∧ e'.tx = none ∧ e'.db.Referential := by
  have step := (executeStatement_keeps ord st e ok).ok
  rw [done] at step
  subst changed
  exact ⟨step,closed,holds.change found schema backed retains⟩

theorem Linked.inOrder (linked : Linked e) : e.Ok ∧ e.tx = none ∧ e.db.Referential := by
  induction linked with
  | @start e ok closed empty =>
    refine ⟨ok,closed,?_⟩
    rintro name t there row ⟨rows,scanned,member⟩
    rw [empty t (ok.db.registered name t there)] at scanned
    obtain rfl := Except.ok.inj scanned
    cases member
  | @insert e e' ord q t r linked found discrete done retains ih =>
    obtain ⟨ok,closed,holds⟩ := ih
    have there := lookup_of_table found
    have legible := (ok.db.sound t (ok.db.registered _ _ there)).legible
    obtain ⟨t',given,row,table,found',-,-,checked,inserted,changed⟩ := insert_success closed done
    obtain rfl := Except.ok.inj (found.symm.trans found')
    obtain ⟨reads,-⟩ := Table.insert_done legible inserted
    apply relinked ok closed holds there done changed reads.1 _ retains
    intro live after
    rcases Table.insert_holds legible inserted after with old | rfl
    · exact holds _ t there live old
    · exact insert_backs closed ok legible.valid discrete checked
  | @update e e' ord q t r linked found spares done retains ih =>
    obtain ⟨ok,closed,holds⟩ := ih
    have there := lookup_of_table found
    have inside := ok.db.registered _ _ there
    have legible := (ok.db.sound t inside).legible
    obtain ⟨set,made,ran,changed⟩ := update_success closed inside found legible.scan done
    have reads := Table.updateEach_frame Table.reads (matchRow q.condition) set (fun t row => Table.insert_reads _ row t)
      ((e.db.table t).entries.map fun e' => (e.db.table t).schema.rowOf e'.2) (e.db.table t)
    rw [ran] at reads
    apply relinked ok closed holds there done changed reads.1 _ retains
    intro live after
    rcases Table.updateEach_holds legible ran after with old | ⟨row,member,rfl⟩
    · exact holds _ t there live old
    · obtain ⟨entry,inside,rfl⟩ := List.mem_map.mp member
      apply update_backs legible.valid (legible.held inside)
      · intro c column refers
        exact Schema.updateSet_keyless (spares c column refers) made
      · exact holds _ t there _ ⟨_,legible.scan,member⟩
  | @delete e e' ord q t r linked found done retains ih =>
    obtain ⟨ok,closed,holds⟩ := ih
    have there := lookup_of_table found
    have inside := ok.db.registered _ _ there
    have legible := (ok.db.sound t inside).legible
    obtain ⟨ran,changed⟩ := delete_success closed inside found legible.scan done
    have reads := Table.deleteEach_frame Table.reads Table.delete_reads (matchRow q.condition)
      ((e.db.table t).entries.map fun e' => (e.db.table t).schema.rowOf e'.2) (e.db.table t)
    rw [ran] at reads
    apply relinked ok closed holds there done changed reads.1 _ retains
    intro live after
    exact holds _ t there live (Table.deleteEach_holds legible ran after)

end Executor

namespace Sample

/-- Tables `p` and `c`, with a column of `c` that refers to the ids of `p`. -/
def family : Executor :=
  (server [(1,create "p" .int),(1,.createTable ⟨ascii "c",[⟨ascii "a",.int⟩],
    (∅ : GoMap ColumnConstraint).insert (ascii "a") ⟨false,false,some ⟨ascii "p",ascii "id"⟩⟩⟩)]).executor 1

def after (e : Executor) (st : Statement) : Executor := ((Executor.executeStatement .stored st).exec e).2

def parent : Executor := after family (insert "p" 1 .nil)

def child : Executor := after parent (insert "c" 2 (.int 1))

theorem family_ok : family.Ok := (server_ok _).executor 1

theorem retains_of_rows {db db' : Db} (ok : db.Ok) (registry : db'.registry = db.registry)
    (rows : ∀ t < db.tables.length, (db'.table t).scan.toOption.isSome ∧
      ∀ row ∈ (db.table t).scan.toOption.getD [], row ∈ (db'.table t).scan.toOption.getD []) : db.Retains db' := by
  rintro ref - v ⟨t,found,row,⟨before,scanned,member⟩,some,equal⟩
  obtain ⟨read,kept⟩ := rows t (ok.registered _ t found)
  obtain ⟨after,left⟩ := Option.isSome_iff_exists.mp read
  have there := kept row (by rw [scanned]; exact member)
  rw [left] at there
  exact ⟨t,registry ▸ found,row,⟨after,Outcome.eq_ok_of_toOption left,there⟩,some,equal⟩

theorem parent_linked : Executor.Linked parent := by
  have start : Executor.Linked family := .start family_ok rfl (by decide +kernel)
  refine start.insert (q := ⟨ascii "p",[ascii "id",ascii "a"],[.int 1,.nil]⟩) (t := 0) rfl (by decide +kernel)
    (Outcome.exec_of_toOption (a := {Result.empty with affected := 1}) (by decide +kernel)) ?_
  exact retains_of_rows family_ok.db rfl (by decide +kernel)

theorem child_linked : Executor.Linked child := by
  refine parent_linked.insert (q := ⟨ascii "c",[ascii "id",ascii "a"],[.int 2,.int 1]⟩) (t := 1) rfl (by decide +kernel)
    (Outcome.exec_of_toOption (a := {Result.empty with affected := 1}) (by decide +kernel)) ?_
  exact retains_of_rows parent_linked.inOrder.1.db rfl (by decide +kernel)

end Sample

namespace Executor

end Executor
end GoDb
