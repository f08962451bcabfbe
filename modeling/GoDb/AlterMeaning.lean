import GoDb.CatalogAgreement
import GoDb.RowUpdates

/-! What `Alter` has done when it succeeds. Every row is converted to the new schema and put
under the key that it has there; what is stored under other keys stays as it is. So the
rows are those that were there only if their keys are. -/
namespace GoDb
open Foundation Outcome

namespace Schema

variable {s old new : Schema} {row : Row} {columns : List Column} {c d : Column}

theorem zipIdx_columns (distinct : (columns.map Column.name).Nodup) :
    columns.zipIdx = columns.map fun c => (c,indexOf columns c) := by
  apply List.ext_getElem
  · simp
  · intro i inside _
    have bound : i < columns.length := by simpa using inside
    simp [indexOf_getElem distinct bound]

theorem convertRow_fill (distinct : (new.columns.map Column.name).Nodup) :
    convertRow old new row = fillFrom (fun c => convertValue old new row c (indexOf new.columns c)) ∅ new.columns := by
  rw [convertRow,zipIdx_columns distinct,List.foldl_map]
  rfl

theorem lookup_fill (f : Column → Value) (distinct : (columns.map Column.name).Nodup) (member : c ∈ columns) :
    (fillFrom f ∅ columns).lookup c.name = some (f c) := by
  rw [lookup_fillFrom f ∅ distinct,find_column distinct member]

theorem fill_eq {f : Column → Value} (distinct : (columns.map Column.name).Nodup)
    (values : ∀ c ∈ columns, row.lookup c.name = some (f c))
    (names : ∀ name, row.lookup name ≠ none → ∃ c ∈ columns, c.name = name) : fillFrom f ∅ columns = row := by
  ext1 name
  rw [lookup_fillFrom f ∅ distinct]
  rcases found : columns.find? fun c => c.name = name with _ | c
  · rw [found]
    by_contra differ
    obtain ⟨c,member,rfl⟩ := names name (Ne.symm differ)
    rw [find_column distinct member] at found
    cases found
  · have same : c.name = name := by simpa using List.find?_some found
    rw [found,← same,values c (List.mem_of_find?_eq_some found)]

theorem stored_names (distinct : (s.columns.map Column.name).Nodup) {name : Bytes}
    (some : (s.stored row).lookup name ≠ none) : ∃ c ∈ s.columns, c.name = name := by
  by_contra absent
  apply some
  have none : (s.columns.find? fun c => c.name = name) = none := by
    apply List.find?_eq_none.mpr
    intro c member same
    exact absent ⟨c,member,of_decide_eq_true same⟩
  rw [stored,lookup_storedFrom row ∅ distinct,none]
  rfl

section held

variable (distinct : (s.columns.map Column.name).Nodup) (held : s.stored row = row)

include distinct held

theorem lookup_of_stored (member : c ∈ s.columns) : row.lookup c.name = some (row.get c.name) := by
  have there : (s.stored row).lookup c.name = _ := lookup_stored distinct member
  rw [held] at there
  rw [Row.get,there]
  rfl

theorem value_of_stored (member : c ∈ s.columns) : (row.get c.name).stored c.type = row.get c.name := by
  have there : (s.stored row).lookup c.name = _ := lookup_stored distinct member
  rw [held,lookup_of_stored distinct held member] at there
  exact (Option.some.inj there).symm

theorem name_of_stored {name : Bytes} (some : row.lookup name ≠ none) : ∃ c ∈ s.columns, c.name = name := by
  rw [← held] at some
  exact stored_names distinct some

theorem convertValue_named (member : c ∈ s.columns) (i : Nat) : convertValue s new row c i = row.get c.name := by
  rw [convertValue,lookup_of_stored distinct held member]

end held

theorem stored_convertRow (distinct : (new.columns.map Column.name).Nodup) : new.stored (convertRow old new row) =
    fillFrom (fun c => (convertValue old new row c (indexOf new.columns c)).stored c.type) ∅ new.columns := by
  symm
  apply fill_eq distinct
  · intro c member
    rw [lookup_stored distinct member,Row.get,convertRow_fill distinct,lookup_fill _ distinct member]
    rfl
  · intro name some
    exact stored_names distinct some

theorem validate_calm : s.validate ≠ .error .panics := by
  have loop : ∀ (columns : List Column) (seen : List Bytes), validateFrom seen columns ≠ .error .panics := by
    intro columns
    induction columns with
    | nil => rintro _ ⟨⟩
    | cons c columns ih =>
      intro seen
      unfold validateFrom
      split_ifs
      · rintro ⟨⟩
      · exact ih _
  exact loop _ _

theorem decodeValue_calm {data : Bytes} {p : Nat} : decodeValue c data p ≠ .error .panics := by
  have block : decodeBlock c data p ≠ .error .panics := by
    unfold decodeBlock
    dsimp only
    split_ifs <;> rintro ⟨⟩
  unfold decodeValue
  split
  · split
    · rename_i failed
      rintro ⟨⟩
      exact block failed
    · rintro ⟨⟩
  · split
    · rename_i failed
      rintro ⟨⟩
      exact block failed
    · rintro ⟨⟩
  · split <;> rintro ⟨⟩
  all_goals split_ifs <;> rintro ⟨⟩

theorem decode_calm {data : Bytes} : s.decode data ≠ .error .panics := by
  have loop : ∀ (columns : List Column) (p : Nat) (row : Row), decodeFrom s data columns p row ≠ .error .panics := by
    intro columns
    induction columns with
    | nil =>
      intro p row
      unfold decodeFrom
      split_ifs <;> rintro ⟨⟩
    | cons c columns ih =>
      intro p row
      unfold decodeFrom
      split_ifs
      · exact ih _ _
      · split
        · rename_i failed
          rintro ⟨⟩
          exact decodeValue_calm failed
        · exact ih _ _
  unfold decode
  split_ifs
  · rintro ⟨⟩
  · exact loop _ _ _

theorem decodeAll_calm {bs : List Bytes} : s.decodeAll bs ≠ .error .panics := by
  induction bs with
  | nil => rintro ⟨⟩
  | cons b bs ih =>
    rw [decodeAll]
    rcases here : s.decode b with err | row
    · rintro ⟨⟩
      exact decode_calm here
    · rcases rest : s.decodeAll bs with err | rows
      · rintro ⟨⟩
        exact ih rest
      · rintro ⟨⟩

def KeepsKey (old new : Schema) : Prop :=
  ∃ c ∈ old.columns.head?, ∃ d ∈ new.columns.head?, d.name = c.name ∨
    (∀ e ∈ old.columns, e.name ≠ d.name) ∧ new.columns.length = old.columns.length ∧ d.type = c.type

theorem keyOf_convertRow (keeps : old.KeepsKey new) (distinct : (old.columns.map Column.name).Nodup)
    (distinct' : (new.columns.map Column.name).Nodup) (held : old.stored row = row) :
    new.keyOf (convertRow old new row) = old.keyOf row := by
  obtain ⟨c,first,d,first',kind⟩ := keeps
  have key : old.keyColumn = c.name := by rw [keyColumn,first]; rfl
  have key' : new.keyColumn = d.name := by rw [keyColumn,first']; rfl
  have value : (convertRow old new row).lookup d.name = some (convertValue old new row d (indexOf new.columns d)) := by
    rw [convertRow_fill distinct']
    exact lookup_fill _ distinct' (List.mem_of_mem_head? first')
  rw [keyOf,keyOf,key,key',Row.get,value,Option.getD_some]
  have there := lookup_of_stored distinct held (List.mem_of_mem_head? first)
  rcases kind with same | ⟨fresh,length,type⟩
  · rw [convertValue,same,there]
  · have absent : row.lookup d.name = none := by
      by_contra some
      obtain ⟨e,member,same⟩ := name_of_stored distinct held some
      exact fresh e member same
    have at0 : old.columns[0]? = some c := by
      rw [← List.head?_eq_getElem?]
      exact first
    have place : indexOf new.columns d = 0 := by
      rcases columns : new.columns with _ | ⟨d',rest⟩
      · rw [columns] at first'
        cases first'
      · rw [columns] at first'
        obtain rfl := Option.some.inj first'
        simp [indexOf,List.findIdx?_cons]
    rw [convertValue,absent,place,at0]
    simp [length,type]

end Schema

namespace Table

variable {t t' : Table} {new : Schema} {rows : List Row}

theorem Legible.held (legible : t.Legible) {e : BTree.Entry} (member : e ∈ t.entries) :
    t.schema.stored (t.schema.rowOf e.2) = t.schema.rowOf e.2 :=
  Schema.stored_of_decode legible.valid (legible.decode member)

structure Rewritten (t t' : Table) (rows : List Row) : Prop where
  schema : t'.schema = t.schema
  store : t'.store.Sound fun _ => True
  writable : ∀ row ∈ rows, ∃ b, t.schema.encode row = .ok b ∧ Store.Fits (t.schema.keyOf row) b
  entries : t'.entries = (rows.map fun row => (t.schema.keyOf row,t.schema.bytesOf row)).foldl
    (fun acc e => SortedEntries.put e.1 e.2 acc) t.entries
  secondary : t'.secondary = (rows.foldl (fun u row => indexRow (t.schema.keyOf row) row u) t).secondary

private theorem foldl_indexRow_store (s : Store) (f : Row → Bytes) (rows : List Row) (t : Table) :
    rows.foldl (fun u row => indexRow (f row) row u) {t with store := s} =
      {rows.foldl (fun u row => indexRow (f row) row u) t with store := s} := by
  induction rows generalizing t with
  | nil => rfl
  | cons row rows ih => rw [List.foldl_cons,List.foldl_cons,indexRow_withStore,ih]

theorem rewrite_done (store : t.store.Sound fun _ => True) (done : (rewrite rows).exec t = (.ok (),t')) :
    t.Rewritten t' rows := by
  induction rows generalizing t with
  | nil =>
    obtain ⟨-,rfl⟩ := Prod.mk.inj done
    exact ⟨rfl,store,List.forall_mem_nil _,rfl,rfl⟩
  | cons row rows ih =>
    rw [rewrite,exec_bind_ok (exec_get t)] at done
    obtain ⟨b,encoded,done⟩ := of_bind_success done
    obtain ⟨_,t₁,put,done⟩ := bind_success done
    rw [onStore_exec] at put
    have outcome := Store.put_outcome store.holds (t.schema.keyOf row) b
    have kept : Store.Sound (fun _ => True) ((Store.put (t.schema.keyOf row) b).exec t.store).2 :=
      (Store.put_keeps _ trivial t.store store).1
    generalize (Store.put (t.schema.keyOf row) b).exec t.store = result at put outcome kept
    cases outcome with
    | done fit holds =>
      obtain ⟨-,rfl⟩ := Prod.mk.inj put
      rename_i s₁
      rw [exec_bind_ok (exec_modify _ _)] at done
      have again := ih (t := indexRow (t.schema.keyOf row) row {t with store := s₁}) (by rwa [indexRow_store]) done
      have schema : (indexRow (t.schema.keyOf row) row {t with store := s₁}).schema = t.schema := indexRow_schema _ _ _
      obtain ⟨schema',store',writable,entries,secondary⟩ := again
      rw [schema] at schema' writable entries secondary
      refine ⟨schema',store',List.forall_mem_cons.mpr ⟨⟨b,encoded,fit⟩,writable⟩,?_,?_⟩
      · rw [entries,List.map_cons,List.foldl_cons,Schema.bytesOf_encode encoded]
        congr 1
        rw [Table.entries,indexRow_store]
        exact holds.entries
      · rw [secondary,indexRow_withStore,foldl_indexRow_store,List.foldl_cons]
    | tooLarge => cases put
    | walTooLarge => cases put

/-- The table after an `Alter` that succeeds. The rows are those that could be read before. -/
structure Altered (t t' : Table) (new : Schema) : Prop where
  valid : new.validate = .ok ()
  columns : new.columns ≠ []
  schema : t'.schema = new
  store : t'.store.Sound fun _ => True
  writable : ∀ e ∈ t.entries, ∃ b, new.encode (t.schema.convertRow new (t.schema.rowOf e.2)) = .ok b ∧
    Store.Fits (new.keyOf (t.schema.convertRow new (t.schema.rowOf e.2))) b
  entries : t'.entries = (t.entries.map fun e => (new.keyOf (t.schema.convertRow new (t.schema.rowOf e.2)),
      new.bytesOf (t.schema.convertRow new (t.schema.rowOf e.2)))).foldl (fun acc e => SortedEntries.put e.1 e.2 acc) t.entries
  secondary : t'.secondary = ((t.entries.map fun e => t.schema.convertRow new (t.schema.rowOf e.2)).foldl
    (fun u row => indexRow (new.keyOf row) row u) (unindexed t.store new)).secondary

theorem alter_done (legible : t.Legible) (done : (alter new).exec t = (.ok (),t')) : t.Altered t' new := by
  rw [alter,exec_bind_ok (exec_get t)] at done
  obtain ⟨_,valid,done⟩ := of_bind_success done
  obtain ⟨rows,scanned,done⟩ := of_bind_success done
  obtain rfl := Except.ok.inj (legible.scan.symm.trans scanned)
  rw [exec_bind_ok (exec_modify _ _),exec_bind,exec_refuse] at done
  by_cases empty : new.columns = []
  · rw [if_pos empty] at done
    cases done
  rw [if_neg empty] at done
  have rewritten := rewrite_done (t := unindexed t.store new) legible.inOrder.store done
  rw [List.map_map] at rewritten
  refine ⟨valid,empty,rewritten.schema,rewritten.store,?_,?_,rewritten.secondary⟩
  · intro e member
    exact rewritten.writable _ (List.mem_map_of_mem member)
  · rw [rewritten.entries,List.map_map]
    rfl

theorem alter_outcome (t : Table) (new : Schema) :
    (((∃ wrong, new.validate = .error wrong) ∨ ∃ wrong, t.scan = .error wrong) ∧
        ∃ err, (alter new).exec t = (.error err,t) ∧ err ≠ .panics) ∨
      (new.validate = .ok () ∧ ∃ rows, t.scan = .ok rows) ∧ ((alter new).exec t).2.schema = new := by
  rw [alter,exec_bind_ok (exec_get t),exec_bind,exec_of]
  rcases valid : new.validate with err | ⟨⟩
  · refine .inl ⟨.inl ⟨err,rfl⟩,err,rfl,?_⟩
    rintro rfl
    exact Schema.validate_calm valid
  · dsimp only
    rw [exec_bind,exec_of]
    rcases scanned : t.scan with err | rows
    · refine .inl ⟨.inr ⟨err,rfl⟩,err,rfl,?_⟩
      rintro rfl
      exact Schema.decodeAll_calm scanned
    · refine .inr ⟨⟨rfl,rows,rfl⟩,?_⟩
      dsimp only
      rw [exec_bind_ok (exec_modify _ _),exec_bind,exec_refuse]
      split_ifs
      · rfl
      · exact rewrite_schema _ (unindexed t.store new)

namespace Altered

variable (legible : t.Legible) (altered : t.Altered t' new)

include legible altered

theorem keyOf (keeps : t.schema.KeepsKey new) (printed : t.Printed) {e : BTree.Entry} (member : e ∈ t.entries) :
    new.keyOf (t.schema.convertRow new (t.schema.rowOf e.2)) = e.1 := by
  rw [Schema.keyOf_convertRow keeps (Schema.distinct_of_validate legible.valid) (Schema.distinct_of_validate altered.valid)
    (legible.held member)]
  exact legible.printed printed member

theorem entries_kept (keeps : t.schema.KeepsKey new) (printed : t.Printed) :
    t'.entries = t.entries.map fun e => (e.1,new.bytesOf (t.schema.convertRow new (t.schema.rowOf e.2))) := by
  have pairs : (t.entries.map fun e => (new.keyOf (t.schema.convertRow new (t.schema.rowOf e.2)),
      new.bytesOf (t.schema.convertRow new (t.schema.rowOf e.2)))) =
        t.entries.map fun e => (e.1,new.bytesOf (t.schema.convertRow new (t.schema.rowOf e.2))) := by
    apply List.map_congr_left
    intro e member
    rw [altered.keyOf legible keeps printed member]
  rw [altered.entries,pairs]
  apply SortedEntries.foldl_put_same legible.increasing
  rw [List.map_map]
  rfl

theorem sound (keeps : t.schema.KeepsKey new) (printed : t.Printed) : t'.Sound := by
  refine ⟨?_,?_,altered.store.ok,altered.store.ordered,?_⟩
  · rw [altered.schema]
    exact altered.valid
  · rw [altered.schema]
    exact altered.columns
  · change ∀ e ∈ t'.entries, _
    rw [altered.schema,altered.entries_kept legible keeps printed,List.forall_mem_map]
    intro e member
    obtain ⟨b,encoded,-⟩ := altered.writable e member
    exact ⟨_,by rw [Schema.bytesOf_encode encoded]; exact encoded⟩

omit legible in
theorem rowOf_converted {e : BTree.Entry} (member : e ∈ t.entries) :
    new.rowOf (new.bytesOf (t.schema.convertRow new (t.schema.rowOf e.2))) =
      new.stored (t.schema.convertRow new (t.schema.rowOf e.2)) := by
  obtain ⟨b,encoded,fit⟩ := altered.writable e member
  have short := fit.short
  rw [Schema.bytesOf_encode encoded,Schema.rowOf,Schema.decode_encode altered.valid encoded (by omega)]
  rfl

theorem scan_kept (keeps : t.schema.KeepsKey new) (printed : t.Printed) :
    t'.scan = .ok (t.entries.map fun e => new.stored (t.schema.convertRow new (t.schema.rowOf e.2))) := by
  rw [(altered.sound legible keeps printed).scan,altered.entries_kept legible keeps printed,List.map_map,altered.schema]
  congr 1
  apply List.map_congr_left
  intro e member
  exact altered.rowOf_converted member

omit legible in
theorem mem_keys {key : Bytes} : key ∈ t'.entries.map Prod.fst ↔ key ∈ t.entries.map Prod.fst ∨
    ∃ e ∈ t.entries, new.keyOf (t.schema.convertRow new (t.schema.rowOf e.2)) = key := by
  rw [altered.entries,SortedEntries.mem_keys_foldl_put,List.map_map]
  apply or_congr_right
  exact List.mem_map

theorem scan_perm_iff (distinct : (t.entries.map fun e => new.keyOf (t.schema.convertRow new (t.schema.rowOf e.2))).Nodup) :
    (∃ rows, t'.scan = .ok rows ∧
        rows.Perm (t.entries.map fun e => new.stored (t.schema.convertRow new (t.schema.rowOf e.2)))) ↔
      ∀ e ∈ t.entries, ∃ d ∈ t.entries, new.keyOf (t.schema.convertRow new (t.schema.rowOf d.2)) = e.1 := by
  let pairs := t.entries.map fun e => (new.keyOf (t.schema.convertRow new (t.schema.rowOf e.2)),
    new.bytesOf (t.schema.convertRow new (t.schema.rowOf e.2)))
  have keys : pairs.map Prod.fst = t.entries.map fun e => new.keyOf (t.schema.convertRow new (t.schema.rowOf e.2)) := by
    rw [List.map_map]
    rfl
  have sorted : SortedEntries.Increasing t'.entries := by
    rw [altered.entries]
    exact SortedEntries.increasing_foldl_put legible.increasing _
  constructor
  · rintro ⟨rows,scanned,perm⟩ e member
    have length : t'.entries.length = pairs.length := by
      have order : t'.InOrder := ⟨altered.schema ▸ altered.valid,altered.schema ▸ altered.columns,altered.store⟩
      obtain rfl := Except.ok.inj ((order.legible scanned).scan.symm.trans scanned)
      simpa [pairs] using perm.length_eq
    have subset : pairs.map Prod.fst ⊆ t'.entries.map Prod.fst := by
      intro key there
      rw [keys] at there
      exact altered.mem_keys.mpr (.inr (List.mem_map.mp there))
    have same := ((keys ▸ distinct : (pairs.map Prod.fst).Nodup).subperm subset).perm_of_length_le (by simp [length])
    have there := same.mem_iff.mpr (altered.mem_keys.mpr (.inl (List.mem_map_of_mem member)))
    rw [keys] at there
    exact List.mem_map.mp there
  · intro covered
    have same : t'.entries.Perm pairs := by
      have nodup : pairs.Nodup := List.Nodup.of_map Prod.fst (keys ▸ distinct)
      rw [List.perm_ext_iff_of_nodup sorted.nodup nodup]
      intro d
      have written {d : BTree.Entry} (member : d ∈ pairs) : t'.entries.lookup d.1 = some d.2 := by
        rw [altered.entries]
        exact SortedEntries.lookup_foldl_put_of_mem (keys ▸ distinct) member _
      rw [SortedEntries.mem_iff_lookup sorted]
      constructor
      · intro there
        have key := altered.mem_keys.mp (List.mem_map_of_mem ((SortedEntries.mem_iff_lookup sorted d).mpr there))
        obtain ⟨e,member,new⟩ : ∃ e ∈ pairs, e.1 = d.1 := by
          rw [← List.mem_map,keys,List.mem_map]
          rcases key with old | new
          · obtain ⟨e,member,old⟩ := List.mem_map.mp old
            rw [← old]
            exact covered e member
          · exact new
        have value := written member
        rw [new,there] at value
        rwa [show d = e from Prod.ext new.symm (Option.some.inj value)]
      · exact written
    have sound : t'.Sound := by
      refine ⟨altered.schema ▸ altered.valid,altered.schema ▸ altered.columns,altered.store.ok,altered.store.ordered,?_⟩
      intro d member
      obtain ⟨e,there,rfl⟩ := List.mem_map.mp (same.mem_iff.mp member)
      obtain ⟨b,encoded,-⟩ := altered.writable e there
      rw [altered.schema,Schema.bytesOf_encode encoded]
      exact ⟨_,encoded⟩
    refine ⟨_,sound.scan,?_⟩
    rw [altered.schema]
    refine (same.map _).trans (.of_eq ?_)
    rw [List.map_map]
    apply List.map_congr_left
    intro e member
    exact altered.rowOf_converted member

end Altered

end Table
end GoDb
