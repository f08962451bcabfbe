import GoDb.AlterMeaning
import GoDb.SecondaryIndex
import GoDb.TableReopen

/-! The secondary index of a table that no transaction writes to. It is the inverse of the
live rows: a row that goes in is indexed after the one that it replaces was taken out,
`Alter` and `OpenTable` begin with an empty index and go over all rows. -/
namespace GoDb
open Foundation Outcome

def ColumnType.Discrete (type : ColumnType) : Prop := type = .int ∨ type = .string ∨ type = .bool

instance : DecidablePred ColumnType.Discrete := fun _ => inferInstanceAs (Decidable (_ ∨ _))

theorem Value.stored_discrete {type : ColumnType} (discrete : type.Discrete) (v : Value) : v.stored type = v := by
  rcases discrete with rfl | rfl | rfl <;> rfl

variable {c : Column} {columns : List Column} {name : Bytes}

namespace Schema

variable {s : Schema} {row : Row}

def Discrete (s : Schema) : Prop := ∀ c ∈ s.columns, c.type.Discrete

instance (s : Schema) : Decidable s.Discrete := inferInstanceAs (Decidable (∀ c ∈ s.columns, c.type.Discrete))

theorem Discrete.get_stored (discrete : s.Discrete) (valid : s.validate = .ok ()) (member : c ∈ s.columns) :
    (s.stored row).get c.name = row.get c.name := by
  rw [Row.get,lookup_stored (distinct_of_validate valid) member]
  exact Value.stored_discrete (discrete c member) _

theorem Discrete.keyOf_stored (discrete : s.Discrete) (valid : s.validate = .ok ()) (columns : s.columns ≠ []) :
    s.keyOf (s.stored row) = s.keyOf row := by
  rcases some : s.columns with _ | ⟨c,rest⟩
  · exact absurd some columns
  · have key : s.keyColumn = c.name := by rw [keyColumn,some]; rfl
    rw [keyOf,keyOf,key,discrete.get_stored valid (some ▸ List.mem_cons_self)]

end Schema

namespace ColumnIndex

variable {m : ColumnIndex} {f : Bytes → Option Value} {key : Bytes} {v : Value}

/-- The keys are under their values, and there is no value without keys. -/
structure Inverts (m : ColumnIndex) (f : Bytes → Option Value) : Prop where
  keys : ∀ v key, ((m.keys v).lookup key).isSome ↔ f key = some v
  pruned : ∀ v bucket, m.lookup v = some bucket → bucket.size ≠ 0

theorem inverts_empty : Inverts ∅ fun _ => none := by
  constructor
  · intro v key
    simp [keys]
  · intro v bucket found
    simp at found

theorem lookup_add (m : ColumnIndex) (v : Value) (key : Bytes) (w : Value) :
    (m.add v key).lookup w = if w = v then some ((m.keys v).insert key ()) else m.lookup w := by
  unfold add
  split_ifs with same
  · subst same
    exact AList.lookup_insert m
  · exact AList.lookup_insert_ne same

theorem lookup_remove (m : ColumnIndex) (v : Value) (key : Bytes) (w : Value) :
    (m.remove v key).lookup w = if w = v then
      if ((m.keys v).erase key).size = 0 then none else some ((m.keys v).erase key) else m.lookup w := by
  unfold remove
  dsimp only
  split_ifs with empty same same
  · subst same
    exact AList.lookup_erase _ _
  · exact AList.lookup_erase_ne same
  · subst same
    exact AList.lookup_insert m
  · exact AList.lookup_insert_ne same

theorem keys_add (m : ColumnIndex) (v : Value) (key : Bytes) (w : Value) :
    (m.add v key).keys w = if w = v then (m.keys v).insert key () else m.keys w := by
  rw [keys,lookup_add]
  split_ifs <;> rfl

theorem keys_remove (m : ColumnIndex) (v : Value) (key : Bytes) (w : Value) :
    (m.remove v key).keys w = if w = v then (m.keys v).erase key else m.keys w := by
  rw [keys,lookup_remove]
  split_ifs with same empty
  · exact (SortedMap.size_eq_zero.mp empty).symm
  · rfl
  · rfl

theorem Inverts.add (inverts : m.Inverts f) (fresh : f key = none) (v : Value) :
    (m.add v key).Inverts (Function.update f key (some v)) := by
  constructor
  · intro w k
    have before := inverts.keys w k
    rw [keys_add]
    by_cases same : k = key
    · subst same
      rw [Function.update_self,Option.some_inj]
      split_ifs with value
      · simp [value]
      · rw [before,fresh]
        simp [Ne.symm value]
    · rw [Function.update_of_ne same,← before]
      split_ifs with value
      · rw [SortedMap.lookup_insert,if_neg same,value]
      · rfl
  · intro w bucket found
    rw [lookup_add] at found
    split_ifs at found
    · obtain rfl := Option.some.inj found
      intro empty
      have there : ((m.keys v).insert key ()).lookup key = some () := by rw [SortedMap.lookup_insert,if_pos rfl]
      rw [SortedMap.size_eq_zero.mp empty] at there
      cases there
    · exact inverts.pruned w bucket found

theorem Inverts.remove (inverts : m.Inverts f) (there : f key = some v) :
    (m.remove v key).Inverts (Function.update f key none) := by
  constructor
  · intro w k
    have before := inverts.keys w k
    rw [keys_remove]
    by_cases same : k = key
    · subst same
      rw [Function.update_self]
      split_ifs with value
      · simp
      · rw [before,there]
        simp [Ne.symm value]
    · rw [Function.update_of_ne same,← before]
      split_ifs with value
      · rw [SortedMap.lookup_erase,if_neg same,value]
      · rfl
  · intro w bucket found
    rw [lookup_remove] at found
    split_ifs at found with value some
    · obtain rfl := Option.some.inj found
      exact some
    · exact inverts.pruned w bucket found

end ColumnIndex

namespace Table

variable {t t' : Table} {known known' : Bytes → Option Row} {key : Bytes} {row : Row}

section loop

variable (g : Column → ColumnIndex → ColumnIndex)

private def eachColumn (columns : List Column) (t : Table) : Table :=
  columns.foldl (fun t c => {t with secondary := t.secondary.insert c.name (g c (t.column c.name))}) t

private theorem column_insert (t : Table) (name : Bytes) (m : ColumnIndex) (n : Bytes) :
    ({t with secondary := t.secondary.insert name m} : Table).column n = if n = name then m else t.column n := by
  rw [column,SortedMap.lookup_insert]
  split_ifs <;> rfl

private theorem eachColumn_other (absent : name ∉ columns.map Column.name) (t : Table) :
    (eachColumn g columns t).secondary.lookup name = t.secondary.lookup name := by
  induction columns generalizing t with
  | nil => rfl
  | cons c columns ih =>
    obtain ⟨other,absent⟩ := not_or.mp (mt List.mem_cons.mpr absent)
    refine (ih absent _).trans ?_
    rw [SortedMap.lookup_insert,if_neg other]

private theorem eachColumn_lookup (distinct : (columns.map Column.name).Nodup) (member : c ∈ columns) (t : Table) :
    (eachColumn g columns t).secondary.lookup c.name = some (g c (t.column c.name)) := by
  induction columns generalizing t with
  | nil => cases member
  | cons d columns ih =>
    obtain ⟨fresh,distinct⟩ := List.nodup_cons.mp distinct
    rcases List.mem_cons.mp member with rfl | member
    · refine (eachColumn_other g fresh _).trans ?_
      rw [SortedMap.lookup_insert,if_pos rfl]
    · have different : c.name ≠ d.name := fun same => fresh (same ▸ List.mem_map_of_mem member)
      refine (ih distinct member _).trans ?_
      rw [column_insert,if_neg different]

end loop

/-- The index of a table inverts these rows, and has no other columns than those of the schema. -/
structure Indexes (t : Table) (known : Bytes → Option Row) : Prop where
  columns : ∀ c ∈ t.schema.columns.tail, (t.column c.name).Inverts fun key =>
    (known key).map fun row => (row.get c.name).indexValue
  names : ∀ name, (t.secondary.lookup name).isSome ↔ name ∈ t.schema.columns.tail.map Column.name

namespace Indexes

theorem congr (indexes : t.Indexes known) (schema : t'.schema = t.schema) (secondary : t'.secondary = t.secondary)
    (same : ∀ key, ∀ c ∈ t.schema.columns.tail, ((known' key).map fun row => (row.get c.name).indexValue) =
      (known key).map fun row => (row.get c.name).indexValue) : t'.Indexes known' := by
  constructor
  · intro c member
    rw [schema] at member
    have inverts := indexes.columns c member
    rw [column,secondary]
    rwa [funext fun key => same key c member]
  · rw [schema,secondary]
    exact indexes.names

private theorem each (valid : t.schema.validate = .ok ()) (indexes : t.Indexes known) (known' : Bytes → Option Row)
    {g : Column → ColumnIndex → ColumnIndex}
    (step : ∀ c ∈ t.schema.columns.tail, ((t.column c.name).Inverts fun key =>
      (known key).map fun row => (row.get c.name).indexValue) → (g c (t.column c.name)).Inverts fun key =>
        (known' key).map fun row => (row.get c.name).indexValue) :
    (⟨t.store,t.schema,(eachColumn g t.schema.columns.tail t).secondary⟩ : Table).Indexes known' := by
  have distinct : (t.schema.columns.tail.map Column.name).Nodup := by
    rw [List.map_tail]
    exact (Schema.distinct_of_validate valid).tail
  constructor
  · intro c member
    rw [column,eachColumn_lookup g distinct member]
    exact step c member (indexes.columns c member)
  · intro name
    by_cases member : name ∈ t.schema.columns.tail.map Column.name
    · obtain ⟨c,there,rfl⟩ := List.mem_map.mp member
      rw [eachColumn_lookup g distinct there]
      exact iff_of_true rfl member
    · rw [eachColumn_other g member]
      exact indexes.names name

theorem index (valid : t.schema.validate = .ok ()) (indexes : t.Indexes known) (fresh : known key = none) (row : Row) :
    (indexRow key row t).Indexes (Function.update known key (some row)) := by
  have each := indexes.each valid (Function.update known key (some row))
    (g := fun c m => m.add (row.get c.name).indexValue key) fun c _ inverts => by
      have added := inverts.add (show (known key).map _ = none by rw [fresh]; rfl) (row.get c.name).indexValue
      convert added using 1
      ext1 k
      rw [Function.update_apply,Function.update_apply]
      split_ifs <;> rfl
  exact each.congr (indexRow_schema _ _ _) rfl fun _ _ _ => rfl

theorem unindex (valid : t.schema.validate = .ok ()) (indexes : t.Indexes known) (there : known key = some row) :
    (unindexRow key row t).Indexes (Function.update known key none) := by
  have each := indexes.each valid (Function.update known key none)
    (g := fun c m => m.remove (row.get c.name).indexValue key) fun c _ inverts => by
      have removed := inverts.remove (show (known key).map _ = some (row.get c.name).indexValue by rw [there]; rfl)
      convert removed using 1
      ext1 k
      rw [Function.update_apply,Function.update_apply]
      split_ifs <;> rfl
  exact each.congr (unindexRow_schema _ _ _) rfl fun _ _ _ => rfl

private theorem lookup_blank_other (absent : name ∉ columns.map Column.name) (m : GoMap ColumnIndex) :
    (columns.foldl (fun m c => m.insert c.name ∅) m).lookup name = m.lookup name := by
  induction columns generalizing m with
  | nil => rfl
  | cons c columns ih =>
    obtain ⟨other,absent⟩ := not_or.mp (mt List.mem_cons.mpr absent)
    rw [List.foldl_cons,ih absent,SortedMap.lookup_insert,if_neg other]

private theorem lookup_blank (member : name ∈ columns.map Column.name) (m : GoMap ColumnIndex) :
    (columns.foldl (fun m c => m.insert c.name ∅) m).lookup name = some ∅ := by
  induction columns generalizing m with
  | nil => cases member
  | cons c columns ih =>
    by_cases later : name ∈ columns.map Column.name
    · exact ih later _
    · obtain rfl := (List.mem_cons.mp member).resolve_right later
      rw [List.foldl_cons,lookup_blank_other later,SortedMap.lookup_insert,if_pos rfl]

theorem unindexed (store : Store) (s : Schema) : (Table.unindexed store s).Indexes fun _ => none := by
  constructor
  · intro c member
    have blank : (Table.unindexed store s).secondary.lookup c.name = some ∅ := lookup_blank (List.mem_map_of_mem member) ∅
    rw [column,blank]
    exact ColumnIndex.inverts_empty
  · intro name
    by_cases member : name ∈ s.columns.tail.map Column.name
    · have blank : (Table.unindexed store s).secondary.lookup name = some ∅ := lookup_blank member ∅
      rw [blank]
      exact iff_of_true rfl member
    · have none : (Table.unindexed store s).secondary.lookup name = none := lookup_blank_other member ∅
      rw [none]
      exact iff_of_false Bool.false_ne_true member

theorem all (valid : t.schema.validate = .ok ()) (f : Bytes → Row) (before left : List BTree.Entry)
    (distinct : ((before ++ left).map Prod.fst).Nodup) (keys : ∀ e ∈ left, t.schema.keyOf (f e.2) = e.1)
    (indexes : t.Indexes fun key => (before.lookup key).map f) :
    (indexAll (left.map fun e => f e.2) t).Indexes fun key => ((before ++ left).lookup key).map f := by
  induction left generalizing t before with
  | nil => rwa [List.append_nil]
  | cons e left ih =>
    obtain ⟨here,rest⟩ := List.forall_mem_cons.mp keys
    have fresh : before.lookup e.1 = none := by
      apply SortedEntries.lookup_none_of_ne
      intro d member same
      rw [List.map_append,List.map_cons] at distinct
      exact (List.nodup_append.mp distinct).2.2 d.1 (List.mem_map_of_mem member) e.1 List.mem_cons_self same
    have schema := indexRow_schema e.1 (f e.2) t
    have next : (indexRow e.1 (f e.2) t).Indexes fun key => ((before ++ [e]).lookup key).map f := by
      refine (indexes.index valid (by rw [fresh]; rfl) (f e.2)).congr rfl rfl fun k c _ => ?_
      congr 1
      rw [Function.update_apply,List.lookup_append]
      split_ifs with same
      · rw [same,fresh,Option.none_or,List.lookup_cons_self]
        rfl
      · rw [SortedEntries.lookup_cons_ite,if_neg same,List.lookup_nil,Option.or_none]
    have moved := ih (by rwa [schema]) (before ++ [e]) (by simpa using distinct) (by rwa [schema]) next
    rw [List.append_assoc,List.singleton_append] at moved
    rw [List.map_cons,indexAll,List.foldl_cons,here]
    exact moved

end Indexes

def live (t : Table) (key : Bytes) : Option Row := (t.entries.lookup key).map t.schema.rowOf

theorem Indexes.forget (valid : t.schema.validate = .ok ()) (indexes : t.Indexes t.live) (key : Bytes) :
    (t.forget key).Indexes (Function.update t.live key none) := by
  rw [Table.forget]
  rcases found : t.entries.lookup key with _ | b
  · refine indexes.congr rfl rfl fun k c _ => ?_
    rw [Function.update_apply]
    split_ifs with same
    · rw [same,live,found]
      rfl
    · rfl
  · exact indexes.unindex valid (by rw [live,found]; rfl)

theorem forget_schema (key : Bytes) (t : Table) : (t.forget key).schema = t.schema := by
  rw [forget]
  split
  · rfl
  · exact unindexRow_schema _ _ _

theorem Inserted.indexes {b : Bytes} (legible : t.Legible) (discrete : t.schema.Discrete) (indexes : t.Indexes t.live)
    (schema : t'.schema = t.schema) (inserted : t.Inserted t' key row b) : t'.Indexes t'.live := by
  have valid := legible.valid
  have index := (indexes.forget valid key).index (by rw [forget_schema]; exact valid) (Function.update_self ..) row
  refine index.congr (schema.trans ((indexRow_schema _ _ _).trans (forget_schema _ _)).symm) inserted.secondary
    fun k c member => ?_
  rw [indexRow_schema,forget_schema] at member
  rw [live,inserted.entries,SortedEntries.lookup_put,schema,Function.update_idem,Function.update_apply]
  split_ifs
  · rw [Option.map_some,Option.map_some,Option.map_some,legible.rowOf_accepted inserted.accepts,
      discrete.get_stored valid (List.mem_of_mem_tail member)]
  · rfl

theorem indexes_removed (valid : t.schema.validate = .ok ()) (indexes : t.Indexes t.live) (schema : t'.schema = t.schema)
    (entries : t'.entries = SortedEntries.remove key t.entries) (secondary : t'.secondary = (t.forget key).secondary) :
    t'.Indexes t'.live := by
  refine (indexes.forget valid key).congr (schema.trans (forget_schema _ _).symm) secondary fun k c _ => ?_
  congr 1
  rw [live,entries,SortedEntries.lookup_remove,schema,Function.update_apply]
  split_ifs <;> rfl

/-- A table whose index is the inverse of its rows, which are stored under their printed keys. -/
structure Maintained (t : Table) : Prop where
  sound : t.Sound
  discrete : t.schema.Discrete
  printed : t.Printed
  indexes : t.Indexes t.live

def Maintains (t t' : Table) : Prop := t.Maintained → t'.Maintained

theorem maintains : Frame Maintains := ⟨fun _ same => same,fun first second t => second (first t)⟩

theorem insert_maintains (row : Row) (t : Table) : t.Maintains ((insert (t.schema.keyOf row) row).exec t).2 := by
  intro maintained
  have legible := maintained.sound.legible
  have sound := (maintained.sound.steps (insert_keeps (t.schema.keyOf row) row t)).1
  obtain ⟨t',step,⟨b,ran,inserted⟩ | ⟨⟨err,ran⟩,-,entries,secondary⟩⟩ := insert_outcome legible (t.schema.keyOf row) row
  · rw [ran] at sound ⊢
    have discrete : t'.schema.Discrete := step.1 ▸ maintained.discrete
    refine ⟨sound,discrete,?_,inserted.indexes legible maintained.discrete maintained.indexes step.1⟩
    apply sound.legible.printed_of
    intro e member
    rw [inserted.entries] at member
    rw [step.1]
    rcases SortedEntries.mem_put member with rfl | old
    · rw [legible.rowOf_accepted inserted.accepts,maintained.discrete.keyOf_stored legible.valid legible.columns]
    · exact legible.printed maintained.printed old
  · rw [ran] at sound ⊢
    refine ⟨sound,step.1 ▸ maintained.discrete,?_,maintained.indexes.congr step.1 secondary fun k c _ => ?_⟩
    · apply sound.legible.printed_of
      intro e member
      rw [entries] at member
      rw [step.1]
      exact legible.printed maintained.printed member
    · rw [live,entries,step.1]
      rfl

theorem delete_maintains (key : Bytes) : Proc.Keeps Maintains (delete key) := by
  intro t maintained
  have legible := maintained.sound.legible
  have sound := (maintained.sound.steps (delete_keeps key t)).1
  obtain ⟨t',ran,step,entries,secondary⟩ := delete_outcome legible key
  rw [ran] at sound ⊢
  refine ⟨sound,step.1 ▸ maintained.discrete,?_,indexes_removed legible.valid maintained.indexes step.1 entries secondary⟩
  apply sound.legible.printed_of
  intro e member
  rw [entries] at member
  rw [step.1]
  exact legible.printed maintained.printed (List.mem_of_mem_filter member)

theorem update_maintains (wanted : Row → Bool) (set : Row) : Proc.Keeps Maintains (update wanted set) := by
  have loop (rows : List Row) : Proc.Keeps Maintains (updateEach wanted set rows) := by
    induction rows with
    | nil => exact Keeps.pure maintains _
    | cons row rows ih =>
      unfold updateEach
      refine Keeps.ite (fun _ => Keeps.get_bind fun t => ?_) fun _ => ih
      exact Keeps.bind_at maintains (insert_maintains _ t) fun _ => Keeps.bind maintains ih fun _ => Keeps.pure maintains _
  exact Keeps.bind maintains (Keeps.get maintains) fun t => Keeps.bind maintains (Keeps.of maintains _) fun rows => loop rows

theorem deleteWhere_maintains (wanted : Row → Bool) : Proc.Keeps Maintains (deleteWhere wanted) :=
  deleteWhere_frame maintains delete_maintains wanted

theorem Maintained.again (maintained : t.Maintained) {store : Store} (sound : store.Sound t.schema.Decodes)
    (entries : store.index.entries = t.entries) :
    (indexAll (t.entries.map fun e => t.schema.rowOf e.2) (unindexed store t.schema)).Maintained := by
  have legible := maintained.sound.legible
  obtain ⟨sameStore,schema⟩ := indexAll_frame (t.entries.map fun e => t.schema.rowOf e.2) (unindexed store t.schema)
  have indexes := Indexes.all (t := unindexed store t.schema) legible.valid t.schema.rowOf [] t.entries
    legible.increasing.keys.nodup (fun e member => legible.printed maintained.printed member) (Indexes.unindexed store t.schema)
  generalize indexAll (t.entries.map fun e => t.schema.rowOf e.2) (unindexed store t.schema) = t' at sameStore schema indexes
  have schema : t'.schema = t.schema := schema
  have same : t'.entries = t.entries := by rw [Table.entries,sameStore]; exact entries
  have sound' : t'.Sound := by
    refine ⟨schema ▸ legible.valid,schema ▸ legible.columns,?_,?_,?_⟩
    · rw [sameStore]
      exact sound.ok
    · rw [sameStore]
      exact sound.ordered
    · change ∀ e ∈ t'.entries, _
      rw [same,schema]
      exact maintained.sound.store.values
  refine ⟨sound',schema ▸ maintained.discrete,?_,indexes.congr rfl rfl fun k c _ => ?_⟩
  · apply sound'.legible.printed_of
    rw [same,schema]
    exact fun e member => legible.printed maintained.printed member
  · rw [live,same,schema]
    rfl

theorem reopen_maintains (t : Table) : t.Maintains (reopen t).2 := by
  intro maintained
  obtain ⟨store,sound,entries,done⟩ := reopen_outcome maintained.sound.legible
  rw [done]
  exact maintained.again sound entries

theorem Altered.maintained {new : Schema} (maintained : t.Maintained) (altered : t.Altered t' new)
    (keeps : t.schema.KeepsKey new) (discrete : new.Discrete) : t'.Maintained := by
  have legible := maintained.sound.legible
  have printed := maintained.printed
  have sound := altered.sound legible keeps printed
  have entries := altered.entries_kept legible keeps printed
  have keyOf {e : BTree.Entry} (member : e ∈ t.entries) := altered.keyOf legible keeps printed member
  refine ⟨sound,altered.schema ▸ discrete,?_,?_⟩
  · apply sound.legible.printed_of
    rw [entries,altered.schema,List.forall_mem_map]
    intro e member
    rw [altered.rowOf_converted member,discrete.keyOf_stored altered.valid altered.columns]
    exact keyOf member
  · -- The rows are indexed as they were converted, not as they are read.
    have indexes := Indexes.all (t := Table.unindexed t.store new) altered.valid
      (fun b => t.schema.convertRow new (t.schema.rowOf b)) [] t.entries legible.increasing.keys.nodup
      (fun e member => keyOf member) (Indexes.unindexed t.store new)
    have schema := (indexAll_frame (t.entries.map fun e => t.schema.convertRow new (t.schema.rowOf e.2))
      (Table.unindexed t.store new)).2
    have secondary := altered.secondary.trans (congrArg Table.secondary (indexAll_eq _ (Table.unindexed t.store new)))
    refine indexes.congr (altered.schema.trans schema.symm) secondary fun k c member => ?_
    rw [schema] at member
    rw [live,entries,SortedEntries.lookup_mapped (fun b => new.bytesOf (t.schema.convertRow new (t.schema.rowOf b))),
      altered.schema,List.nil_append]
    rcases found : t.entries.lookup k with _ | b
    · rfl
    · have there : (k,b) ∈ t.entries := SortedEntries.mem_of_lookup found
      simp only [Option.map_some]
      rw [altered.rowOf_converted there,discrete.get_stored altered.valid (List.mem_of_mem_tail member)]

/-- The operations of a table outside of transactions. -/
inductive Op
  | insert (row : Row)
  | delete (key : Bytes)
  | update (wanted : Row → Bool) (set : Row)
  | deleteWhere (wanted : Row → Bool)
  | alter (schema : Schema)
  | reopen

namespace Op

-- The number of rows that `Update` and `DeleteWhere` return is left out.
def run : Op → Table → Except Error Unit × Table
  | .insert row,t => (Table.insert (t.schema.keyOf row) row).exec t
  | .delete key,t => (Table.delete key).exec t
  | .update wanted set,t => ((Table.update wanted set).exec t).map (Except.map fun _ => ()) id
  | .deleteWhere wanted,t => ((Table.deleteWhere wanted).exec t).map (Except.map fun _ => ()) id
  | .alter schema,t => (Table.alter schema).exec t
  | .reopen,t => t.reopen

/-- An `Alter` is one that succeeds and keeps the first column. -/
def Admitted (t : Table) : Op → Prop
  | .alter schema => schema.Discrete ∧ t.schema.KeepsKey schema ∧ ((Table.alter schema).exec t).1 = .ok ()
  | _ => True

end Op

/-- The tables that operations lead to from one that was opened where there was nothing. -/
inductive Reached : Table → Prop
  | opened {schema : Schema} {t : Table} (discrete : schema.Discrete) (made : new Store.created schema = .ok t) : Reached t
  | step {t : Table} (reached : Reached t) (op : Op) (admitted : op.Admitted t) : Reached (op.run t).2

theorem Reached.maintained (reached : t.Reached) : t.Maintained := by
  induction reached with
  | @opened schema t discrete made =>
    have sound := Executor.new_sound made (Executor.created_sound _)
    obtain rfl : unindexed Store.created schema = t := by
      obtain ⟨valid,columns,-⟩ := Executor.new_same made
      rw [new,valid] at made
      dsimp only at made
      rw [if_neg columns] at made
      exact Except.ok.inj made
    refine ⟨sound,discrete,sound.legible.printed_of (fun _ member => absurd member List.not_mem_nil),?_⟩
    exact (Indexes.unindexed Store.created schema).congr rfl rfl fun _ _ _ => rfl
  | @step t _ op admitted ih =>
    cases op with
    | insert row => exact insert_maintains row t ih
    | delete key => exact delete_maintains key t ih
    | update wanted set => exact update_maintains wanted set t ih
    | deleteWhere wanted => exact deleteWhere_maintains wanted t ih
    | alter schema =>
      obtain ⟨discrete,keeps,done⟩ := admitted
      exact (alter_done ih.sound.legible (Prod.ext done rfl)).maintained ih keeps discrete
    | reopen => exact reopen_maintains t ih

theorem Maintained.indexed (maintained : t.Maintained) (key name : Bytes) :
    t.indexed key name = (t.live key).map fun row => (row.get name).indexValue := by
  rw [Table.indexed,maintained.sound.get,live]
  rcases t.entries.lookup key with _ | b <;> rfl

theorem Maintained.exact (maintained : t.Maintained) : t.Exact := by
  rw [exact_iff]
  intro c member v key
  rw [(maintained.indexes.columns c member).keys,maintained.indexed]

theorem Maintained.indexValue_iff (maintained : t.Maintained) (found : t.get key = .ok (some row))
    (member : c ∈ t.schema.columns) (v : Value) : (row.get c.name).indexValue = v.indexValue ↔ row.get c.name = v := by
  rw [maintained.sound.get] at found
  obtain ⟨b,there,rfl⟩ := Option.map_eq_some_iff.mp (Except.ok.inj found)
  have encoded := maintained.sound.encode (SortedEntries.mem_of_lookup there)
  unfold Schema.encode at encoded
  split_ifs at encoded
  obtain ⟨w,value,kind⟩ := Schema.encodeFrom_found encoded c member
  rw [Row.get,value,Option.getD_some]
  have whole : ∀ bits, w ≠ .float bits := by
    rintro bits rfl
    obtain ⟨bytes,written⟩ := kind.resolve_left Value.noConfusion
    rcases maintained.discrete c member with type | type | type <;> simp [Schema.encodeValue,type] at written
  cases w with
  | float bits => exact absurd rfl (whole bits)
  | _ =>
    cases v with
    | float bits => exact iff_of_false Value.noConfusion Value.noConfusion
    | _ => exact Iff.rfl

/-- In every state, `Find` gives the rows of `Scan` with a value, and the index has no keys of other rows and no
value without keys. -/
theorem index_exact (reached : t.Reached) :
    (∀ ord, ∀ c ∈ t.schema.columns.tail, ∀ v, ∃ rows found, t.scan = .ok rows ∧ t.find ord c.name v = .ok found ∧
        found.Perm (rows.filter fun row => row.get c.name = v)) ∧
      ∀ name index, t.secondary.lookup name = some index → name ∈ t.schema.columns.tail.map Column.name ∧
        ∀ v bucket, index.lookup v = some bucket → bucket.size ≠ 0 ∧
          ∀ key, (bucket.lookup key).isSome → ∃ row, t.get key = .ok (some row) ∧ row.get name = v := by
  have maintained := reached.maintained
  constructor
  · intro ord c member v
    obtain ⟨rows,found,scanned,answer,perm⟩ := maintained.exact.find maintained.sound ord member v
    refine ⟨rows,found,scanned,answer,perm.trans (.of_eq ?_)⟩
    obtain rfl := Except.ok.inj (maintained.sound.scan.symm.trans scanned)
    apply List.filter_congr
    intro row there
    obtain ⟨e,entry,rfl⟩ := List.mem_map.mp there
    have live : t.get e.1 = .ok (some (t.schema.rowOf e.2)) := by
      rw [maintained.sound.get,SortedEntries.lookup_of_mem maintained.sound.increasing entry]
      rfl
    exact decide_eq_decide.mpr (maintained.indexValue_iff live (List.mem_of_mem_tail member) v)
  · intro name index found
    have member := (maintained.indexes.names name).mp (by rw [found]; rfl)
    obtain ⟨c,column,rfl⟩ := List.mem_map.mp member
    have inverts := maintained.indexes.columns c column
    rw [Table.column,found,Option.getD_some] at inverts
    refine ⟨member,fun v bucket there => ⟨inverts.pruned v bucket there,fun key inside => ?_⟩⟩
    have value : ((index.keys v).lookup key).isSome := by
      rw [ColumnIndex.keys,there]
      exact inside
    obtain ⟨row,live,same⟩ := Option.map_eq_some_iff.mp ((inverts.keys v key).mp value)
    have got : t.get key = .ok (some row) := by rw [maintained.sound.get,← live]; rfl
    refine ⟨row,got,(maintained.indexValue_iff got (List.mem_of_mem_tail column) v).mp ?_⟩
    rw [← same,Value.indexValue_indexValue]

def pairs : Schema := ⟨[⟨ascii "id",.int⟩,⟨ascii "a",.int⟩],∅⟩

def pair (id a : Int64) : Row := ((∅ : Row).insert (ascii "id") (.int id)).insert (ascii "a") (.int a)

/-- Two rows with the same value go in, one of them is put again, and the table is opened again with `a` renamed. -/
def renamedPairs : Table :=
  [Op.insert (pair 1 7),.insert (pair 2 7),.insert (pair 2 7),.alter ⟨[⟨ascii "id",.int⟩,⟨ascii "b",.int⟩],∅⟩,.reopen].foldl
    (fun t op => (op.run t).2) (unindexed Store.created pairs)

theorem renamedPairs_reached : renamedPairs.Reached := by
  have discrete : pairs.Discrete := by decide
  have start : (unindexed Store.created pairs).Reached := .opened discrete rfl
  have filled := ((start.step (.insert (pair 1 7)) trivial).step (.insert (pair 2 7)) trivial).step (.insert (pair 2 7)) trivial
  refine (filled.step (.alter ⟨[⟨ascii "id",.int⟩,⟨ascii "b",.int⟩],∅⟩) ⟨by decide,?_,by decide +kernel⟩).step .reopen trivial
  exact ⟨⟨ascii "id",.int⟩,by decide +kernel,⟨ascii "id",.int⟩,rfl,.inl rfl⟩

theorem index_exact_renamed : (renamedPairs.find .stored (ascii "b") (.int 7)).map List.length = .ok 2 ∧
    ∃ rows found, renamedPairs.scan = .ok rows ∧ renamedPairs.find .stored (ascii "b") (.int 7) = .ok found ∧
      found.Perm (rows.filter fun row => row.get (ascii "b") = .int 7) :=
  ⟨by decide +kernel,(index_exact renamedPairs_reached).1 .stored ⟨ascii "b",.int⟩ (by decide +kernel) (.int 7)⟩

end Table
end GoDb
