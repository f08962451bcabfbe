import GoDb.Committed

/-! The secondary index of a table, which is to have the keys of the live rows with each
value. While it does, an index scan finds the rows with a value, and no others. -/
namespace GoDb
open Foundation Outcome

theorem Value.indexValue_indexValue (v : Value) : v.indexValue.indexValue = v.indexValue := by
  cases v with
  | float bits =>
    by_cases nan : Binary64.isNaN bits
    · simp only [Value.indexValue,if_pos nan]
      rfl
    · simp only [Value.indexValue,if_neg nan]
  | _ => rfl

namespace Table

variable {t t' : Table}

def indexed (t : Table) (key name : Bytes) : Option Value :=
  match t.get key with
  | .ok (some row) => some (row.get name).indexValue
  | _ => none

/-- The index has, for each column but the first and each value, the keys of the live rows with it. -/
def Exact (t : Table) : Prop :=
  ∀ c ∈ t.schema.columns.tail, ∀ v : Value, ∀ key,
    (((t.column c.name).keys v.indexValue).lookup key).isSome ↔
      ∃ row, t.get key = .ok (some row) ∧ (row.get c.name).indexValue = v.indexValue

theorem indexed_eq_some {key name : Bytes} {v : Value} :
    t.indexed key name = some v ↔ ∃ row, t.get key = .ok (some row) ∧ (row.get name).indexValue = v := by
  unfold indexed
  split
  · rename_i row found
    simp [found]
  · rename_i none
    exact ⟨nofun,fun ⟨row,found,_⟩ => absurd found (none row)⟩

theorem exact_iff : t.Exact ↔ ∀ c ∈ t.schema.columns.tail, ∀ v : Value, ∀ key,
    (((t.column c.name).keys v.indexValue).lookup key).isSome ↔ t.indexed key c.name = some v.indexValue := by
  unfold Exact
  simp only [indexed_eq_some]

theorem Exact.iff_indexed (exact : t.Exact) (schema : t'.schema = t.schema) (secondary : t'.secondary = t.secondary) :
    t'.Exact ↔ ∀ c ∈ t.schema.columns.tail, ∀ key, t'.indexed key c.name = t.indexed key c.name := by
  rw [exact_iff] at exact ⊢
  have column : ∀ name, t'.column name = t.column name := fun name => by rw [column,column,secondary]
  rw [schema]
  constructor
  · intro still c member key
    have agree : ∀ v : Value, t'.indexed key c.name = some v.indexValue ↔ t.indexed key c.name = some v.indexValue := by
      intro v
      rw [← still c member v key,← exact c member v key,column]
    -- Whatever is indexed is an index value.
    have shape : ∀ (u : Table) (v : Value), u.indexed key c.name = some v → v.indexValue = v := by
      intro u v found
      obtain ⟨row,-,rfl⟩ := indexed_eq_some.mp found
      exact Value.indexValue_indexValue _
    refine Option.ext fun v => ⟨fun found => ?_,fun found => ?_⟩
    · have value := shape t' v found
      rw [← value] at found ⊢
      exact (agree v).mp found
    · have value := shape t v found
      rw [← value] at found ⊢
      exact (agree v).mpr found
  · intro same c member v key
    rw [column,same c member key]
    exact exact c member v key

/-- The index has the keys of all rows, and only such keys. -/
def Checked (t : Table) : Prop :=
  ∀ c ∈ t.schema.columns.tail,
    (∀ e ∈ t.entries,
      (((t.column c.name).keys ((t.schema.rowOf e.2).get c.name).indexValue).lookup e.1).isSome) ∧
    ∀ p ∈ (t.column c.name).entries, ∀ k ∈ p.2.entries, t.indexed k.1 c.name = some p.1

instance (t : Table) : Decidable t.Checked := inferInstanceAs (Decidable (∀ c ∈ t.schema.columns.tail, _ ∧ _))

theorem Sound.exact_of_checked (sound : t.Sound) (checked : t.Checked) : t.Exact := by
  intro c member v key
  obtain ⟨there,only⟩ := checked c member
  constructor
  · intro some
    obtain ⟨u,found⟩ := Option.isSome_iff_exists.mp some
    rcases bucket : (t.column c.name).lookup v.indexValue with _ | keys
    · rw [ColumnIndex.keys,bucket] at found
      cases found
    · rw [ColumnIndex.keys,bucket] at found
      have entry := AList.mem_lookup_iff.mp bucket
      exact indexed_eq_some.mp (only _ entry (key,u) ((SortedMap.mem_entries _).mpr found))
  · rintro ⟨row,found,value⟩
    rw [sound.get] at found
    obtain ⟨b,lookup,rfl⟩ := Option.map_eq_some_iff.mp (Except.ok.inj found)
    rw [← value]
    exact there (key,b) ((SortedEntries.mem_iff_lookup sound.increasing _).mpr lookup)

theorem findAll_of_live {keys : List Bytes} {rows : Bytes → Row} (live : ∀ key ∈ keys, t.get key = .ok (some (rows key))) :
    t.findAll keys = .ok (keys.map rows) := by
  induction keys with
  | nil => rfl
  | cons key keys ih =>
    obtain ⟨here,rest⟩ := List.forall_mem_cons.mp live
    simp [findAll,here,ih rest,bind,Except.bind]

def withValue (rows : List Row) (name : Bytes) (v : Value) : List Row :=
  rows.filter fun row => (row.get name).indexValue = v.indexValue

theorem Exact.find (exact : t.Exact) (sound : t.Sound) (ord : Order) {c : Column} (member : c ∈ t.schema.columns.tail)
    (v : Value) : ∃ rows found, t.scan = .ok rows ∧ t.find ord c.name v = .ok found ∧
      found.Perm (withValue rows c.name v) := by
  -- The rows by their keys.
  let rowAt : Bytes → Row := fun key => t.schema.rowOf ((t.entries.lookup key).getD [])
  have live : ∀ e ∈ t.entries, t.get e.1 = .ok (some (rowAt e.1)) ∧ t.schema.rowOf e.2 = rowAt e.1 := by
    intro e there
    have value := (SortedEntries.mem_iff_lookup sound.increasing e).mp there
    simp [sound.get,rowAt,value]
  let keys := (ord.arrange ((t.column c.name).keys v.indexValue).entries).map Prod.fst
  have mem_keys : ∀ key, key ∈ keys ↔ ∃ row, t.get key = .ok (some row) ∧ (row.get c.name).indexValue = v.indexValue := by
    intro key
    rw [← exact c member v key,Option.isSome_iff_exists,List.mem_map]
    constructor
    · rintro ⟨e,there,rfl⟩
      exact ⟨e.2,(SortedMap.mem_entries e).mp (ord.mem_arrange.mp there)⟩
    · rintro ⟨u,there⟩
      exact ⟨(key,u),ord.mem_arrange.mpr ((SortedMap.mem_entries _).mpr there),rfl⟩
  let wanted := t.entries.filter fun e => ((t.schema.rowOf e.2).get c.name).indexValue = v.indexValue
  have same : keys.Perm (wanted.map Prod.fst) := by
    have nodup : keys.Nodup :=
      ((ord.arrange_perm _).map _).nodup_iff.mpr ((t.column c.name).keys v.indexValue).increasing.keys.nodup
    have nodup' : (wanted.map Prod.fst).Nodup := sound.increasing.keys.nodup.sublist (List.filter_sublist.map _)
    rw [List.perm_ext_iff_of_nodup nodup nodup']
    intro key
    rw [mem_keys,List.mem_map]
    constructor
    · rintro ⟨row,found,value⟩
      rw [sound.get] at found
      obtain ⟨b,there,rfl⟩ := Option.map_eq_some_iff.mp (Except.ok.inj found)
      have entry := (SortedEntries.mem_iff_lookup sound.increasing (key,b)).mpr there
      exact ⟨(key,b),List.mem_filter.mpr ⟨entry,decide_eq_true value⟩,rfl⟩
    · rintro ⟨e,there,rfl⟩
      obtain ⟨entry,value⟩ := List.mem_filter.mp there
      obtain ⟨found,row⟩ := live e entry
      exact ⟨rowAt e.1,found,row ▸ of_decide_eq_true value⟩
  have all : ∀ key ∈ keys, t.get key = .ok (some (rowAt key)) := by
    intro key there
    obtain ⟨e,inside,rfl⟩ := List.mem_map.mp (same.mem_iff.mp there)
    exact (live e (List.mem_filter.mp inside).1).1
  refine ⟨_,keys.map rowAt,sound.scan,findAll_of_live all,?_⟩
  have rows : withValue (t.entries.map fun e => t.schema.rowOf e.2) c.name v = (wanted.map Prod.fst).map rowAt := by
    rw [withValue,List.filter_map,List.map_map]
    exact List.map_congr_left fun e inside => (live e (List.mem_filter.mp inside).1).2
  rw [rows]
  exact same.map rowAt

/-- The index value of a column in the row that a write leaves. -/
def writtenValue (s : Schema) (write : TransactionRow) (name : Bytes) : Option Value :=
  match write.map s.roundTrip with
  | some (.ok row) => some (row.get name).indexValue
  | _ => none

end Table

namespace Server

def begun : Server := Sample.server [(1,Sample.create "u" .int),(1,.begin)]

end Server

namespace Executor

private theorem filter_perm_iff (rows : List Row) (p q : Row → Bool) :
    ((rows.filter q).filter p).Perm (rows.filter p) ↔ ∀ row ∈ rows, p row → q row := by
  rw [List.filter_comm]
  constructor
  · intro perm row member accepted
    have same := List.filter_sublist.eq_of_length perm.length_eq
    exact List.filter_eq_self.mp same row (List.mem_filter.mpr ⟨member,accepted⟩)
  · intro all
    rw [List.filter_eq_self.mpr fun row member => all row (List.mem_filter.mp member).1 (List.mem_filter.mp member).2]

/-- Outside of transactions a condition `c = v` is answered by the index. The rows are those of the
sequential scan exactly if every row that matches has the index value of the literal. -/
theorem index_scan_iff {e : Executor} (ok : e.Ok) (closed : e.tx = none) {t : Nat} (inside : t < e.db.tables.length)
    (exact : (e.db.table t).Exact) {c : Column} (column : c ∈ (e.db.table t).schema.columns.tail)
    (indexed : (e.db.table t).hasIndex c.name) {v : Value} (literal : v ≠ .nil) {q : Select} (single : q.joinTable = [])
    (condition : q.condition = some (.test c.name .equal v)) (ord : Order) :
    ∃ found rows, e.selectedRows ord t q = .ok found ∧ (∀ ord', e.rows ord' t = .ok rows) ∧
      ((found.filter (matchRow q.condition)).Perm (rows.filter (matchRow q.condition)) ↔
        ∀ row ∈ rows, matchRow q.condition row → (row.get c.name).indexValue = v.indexValue) := by
  have sound := ok.db.sound t inside
  obtain ⟨rows,found,scanned,answer,perm⟩ := exact.find sound ((ord.at 1)) column v
  have named : c.name ≠ [] := Schema.named_of_validate sound.valid c (List.mem_of_mem_tail column)
  have state : ∀ t, e.state t = none := fun t => by rw [Executor.state,closed]
  have sequential : ∀ ord', e.rows ord' t = .ok rows := by
    intro ord'
    have ids : rows.map (e.deref t ∘ RowRef.read) = rows := by
      conv_rhs => rw [← List.map_id rows]
      refine List.map_congr_left fun row _ => ?_
      simp only [Function.comp,Executor.deref,state]
      rfl
    rw [Executor.rows,rowRefs,state,scanned]
    simp only [List.map_map,ids]
  have equality : indexedEquality (e.db.table t) q.condition = some (c.name,v) := by
    rw [condition,indexedEquality,if_pos ⟨named,literal,indexed⟩]
  refine ⟨found,rows,?_,sequential,?_⟩
  · unfold selectedRows
    rw [if_pos ⟨by rw [closed]; rfl,single⟩,equality,sequential]
    simp only [answer]
  · -- Both answers are filtered by the condition, so only rows the index does not find can differ.
    have filtered := perm.filter (matchRow q.condition)
    have agree := filter_perm_iff rows (matchRow q.condition) fun row =>
      (row.get c.name).indexValue = v.indexValue
    simp only [decide_eq_true_eq] at agree
    rw [← agree]
    exact ⟨fun same => filtered.symm.trans same,fun same => filtered.trans same⟩

end Executor

namespace Server

def digit : Server := Sample.server [(1,Sample.create "u" .string),(1,Sample.insert "u" 1 (.string (ascii "5")))]

def selectWhere (v : Value) : Select :=
  ⟨[ascii "*"],ascii "u",some (.test (ascii "a") .equal v),[],false,-1,0,[],[],[],[]⟩

theorem index_scan_string : ∃ found rows,
    (digit.executor 1).selectedRows .stored 0 (selectWhere (.string (ascii "5"))) = .ok found ∧
    (∀ ord', (digit.executor 1).rows ord' 0 = .ok rows) ∧
    ((found.filter (matchRow (selectWhere (.string (ascii "5"))).condition)).Perm
        (rows.filter (matchRow (selectWhere (.string (ascii "5"))).condition)) ↔
      ∀ row ∈ rows, matchRow (selectWhere (.string (ascii "5"))).condition row →
        (row.get (ascii "a")).indexValue = (Value.string (ascii "5")).indexValue) := by
  have ok : digit.Ok := Sample.server_ok _
  have inside : 0 < digit.db.tables.length := by decide +kernel
  have exact := (ok.db.sound 0 inside).exact_of_checked (by decide +kernel)
  exact Executor.index_scan_iff (ok.executor 1) (by decide +kernel) inside exact (c := ⟨ascii "a",.string⟩) (by decide +kernel)
    (by decide +kernel) (by decide) rfl rfl .stored

/-- `a = 5` matches the text, but the index has it under another value: outside of a transaction
nothing is found, inside of one the row is. -/
theorem index_scan_misses :
    (digit.db.table 0).Exact ∧
      ((handle (.one 1 .stored (.select (selectWhere (.int 5)))) digit).1.map fun out => out.rows.length) = .ok 0 ∧
      ((handle (.one 1 .stored (.select (selectWhere (.int 5)))) (handle (.one 1 .stored .begin) digit).2).1.map
        fun out => out.rows.length) = .ok 1 := by
  have ok : digit.Ok := Sample.server_ok _
  have sound := ok.db.sound 0 (by decide +kernel)
  exact ⟨sound.exact_of_checked (by decide +kernel),by decide +kernel,by decide +kernel⟩

end Server
end GoDb
