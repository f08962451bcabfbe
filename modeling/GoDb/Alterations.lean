import GoDb.AlterMeaning
import GoDb.TableReopen

/-! The rows of a table after an ALTER TABLE statement. A column that is added has the zero
value of its type in the rows that are there, and the values of all columns that stay are
kept. A statement that drops the key column stores the rows under new keys beside the old
ones, and one that fails after the first row leaves a table of both formats. -/
namespace GoDb
open Foundation Outcome

/-- The value of a column that was added, as it is read: an empty byte slice is nil. -/
def ColumnType.blank : ColumnType → Value
  | .bytes => .bytes none
  | type => type.zero

theorem ColumnType.stored_zero {type : ColumnType} (timeless : type ≠ .timestamp) : type.zero.stored type = type.blank := by
  cases type with
  | timestamp => exact absurd rfl timeless
  | _ => rfl

namespace Schema

variable {s : Schema} {row : Row} {c d : Column} {name newName : Bytes}

/-- No two columns have names that differ in their case only. -/
def CaseApart (s : Schema) : Prop := (s.columns.map fun c => toLower c.name).Nodup

instance (s : Schema) : Decidable s.CaseApart := inferInstanceAs (Decidable (List.Nodup _))

def named (s : Schema) (name : Bytes) : Option Column := s.columns.find? fun c => equalFold c.name name

def changed (s : Schema) (row : Row) : Alteration → Row
  | .add c => row.insert c.name c.type.blank
  | .drop name =>
    match s.named name with
    | none => row
    | some c => row.erase c.name
  | .rename name newName =>
    match s.named name with
    | none => row
    | some c => (row.erase c.name).insert newName (row.get c.name)

theorem CaseApart.eq (apart : s.CaseApart) (first : c ∈ s.columns) (second : d ∈ s.columns)
    (same : equalFold c.name d.name = true) : c = d :=
  List.inj_on_of_nodup_map apart first second (of_decide_eq_true same)

theorem named_some (found : s.named name = some c) : c ∈ s.columns ∧ equalFold c.name name = true :=
  ⟨List.mem_of_find?_eq_some found,by simpa using List.find?_some found⟩

theorem named_none (none : s.named name = none) (member : c ∈ s.columns) : equalFold c.name name = false := by
  simpa using List.find?_eq_none.mp none c member

theorem CaseApart.named (apart : s.CaseApart) (found : s.named name = some c) (member : d ∈ s.columns) :
    equalFold d.name name = true ↔ d = c := by
  obtain ⟨there,folds⟩ := named_some found
  constructor
  · intro also
    apply apart.eq member there
    simp only [equalFold,decide_eq_true_eq] at also folds ⊢
    rw [also,folds]
  · rintro rfl
    exact folds

theorem stored_added_zero (valid : s.validate = .ok ()) (valid' : (s.altered (.add c)).validate = .ok ())
    (held : s.stored row = row) :
    (s.altered (.add c)).stored (convertRow s (s.altered (.add c)) row) = row.insert c.name (c.type.zero.stored c.type) := by
  have distinct := distinct_of_validate valid
  have distinct' := distinct_of_validate valid'
  have fresh : ∀ d ∈ s.columns, d.name ≠ c.name := by
    intro d member
    have apart := (List.nodup_append.mp (by simpa [altered] using distinct')).2.2
    exact apart d.name (List.mem_map_of_mem member) c.name (by simp)
  rw [stored_convertRow distinct']
  apply fill_eq distinct'
  · intro d member
    rcases List.mem_append.mp member with member | member
    · rw [convertValue_named distinct held member,value_of_stored distinct held member,SortedMap.lookup_insert,
        if_neg (fresh d member)]
      exact lookup_of_stored distinct held member
    · obtain rfl := List.mem_singleton.mp member
      have absent : row.lookup d.name = none := by
        by_contra some
        obtain ⟨e,there,same⟩ := name_of_stored distinct held some
        exact fresh e there same
      have longer : ¬(s.altered (.add d)).columns.length = s.columns.length := by simp [altered]
      have zero : convertValue s (s.altered (.add d)) row d (indexOf (s.altered (.add d)).columns d) = d.type.zero := by
        rw [convertValue,absent]
        dsimp only
        split
        · rfl
        · rw [if_neg fun both => longer both.1]
      rw [zero,SortedMap.lookup_insert,if_pos rfl]
  · intro name some
    rw [SortedMap.lookup_insert] at some
    split_ifs at some with same
    · exact ⟨c,List.mem_append_right _ (List.mem_singleton_self c),same.symm⟩
    · obtain ⟨d,member,rfl⟩ := name_of_stored distinct held some
      exact ⟨d,List.mem_append_left _ member,rfl⟩

theorem stored_added (valid : s.validate = .ok ()) (valid' : (s.altered (.add c)).validate = .ok ())
    (timeless : c.type ≠ .timestamp) (held : s.stored row = row) :
    (s.altered (.add c)).stored (convertRow s (s.altered (.add c)) row) = s.changed row (.add c) := by
  rw [stored_added_zero valid valid' held,ColumnType.stored_zero timeless,changed]

theorem stored_dropped (valid : s.validate = .ok ()) (valid' : (s.altered (.drop name)).validate = .ok ())
    (apart : s.CaseApart) (held : s.stored row = row) :
    (s.altered (.drop name)).stored (convertRow s (s.altered (.drop name)) row) = s.changed row (.drop name) := by
  have distinct := distinct_of_validate valid
  have distinct' := distinct_of_validate valid'
  have columns (d : Column) : d ∈ (s.altered (.drop name)).columns ↔ d ∈ s.columns ∧ equalFold d.name name = false := by
    simp [altered]
  rw [stored_convertRow distinct']
  apply fill_eq distinct'
  · intro d member
    obtain ⟨member,other⟩ := (columns d).mp member
    rw [convertValue_named distinct held member,value_of_stored distinct held member,changed]
    rcases found : s.named name with _ | c
    · exact lookup_of_stored distinct held member
    · have different : d.name ≠ c.name := by
        intro same
        rw [same,(named_some found).2] at other
        cases other
      dsimp only
      rw [SortedMap.lookup_erase,if_neg different]
      exact lookup_of_stored distinct held member
  · intro n some
    rw [changed] at some
    rcases found : s.named name with _ | c
    · rw [found] at some
      obtain ⟨d,member,rfl⟩ := name_of_stored distinct held some
      exact ⟨d,(columns d).mpr ⟨member,named_none found member⟩,rfl⟩
    · rw [found] at some
      dsimp only at some
      rw [SortedMap.lookup_erase] at some
      split_ifs at some with same
      · exact absurd rfl some
      · obtain ⟨d,member,rfl⟩ := name_of_stored distinct held some
        refine ⟨d,(columns d).mpr ⟨member,Bool.eq_false_iff.mpr fun folds => same ?_⟩,rfl⟩
        rw [(apart.named found member).mp folds]

theorem named_first {first : Column} {rest : List Column} (columns : s.columns = first::rest)
    (key : equalFold first.name name = true) : s.named name = some first := by
  rw [named,columns]
  exact List.find?_cons_of_pos key

theorem keyOf_dropped (valid : s.validate = .ok ()) (valid' : (s.altered (.drop name)).validate = .ok ())
    (apart : s.CaseApart) {first second : Column} {rest : List Column} (columns : s.columns = first::second::rest)
    (key : equalFold first.name name = true) (held : s.stored row = row) :
    (s.altered (.drop name)).keyOf (convertRow s (s.altered (.drop name)) row) = (row.get second.name).sprint := by
  have distinct := distinct_of_validate valid
  have distinct' := distinct_of_validate valid'
  have member : second ∈ s.columns := by simp [columns]
  have kept : equalFold second.name name = false := by
    apply Bool.eq_false_iff.mpr
    intro folds
    have equal := (apart.named (named_first columns key) member).mp folds
    simp [columns,equal] at distinct
  have keyColumn : (s.altered (.drop name)).keyColumn = second.name := by
    simp [Schema.keyColumn,altered,columns,key,kept]
  have there : second ∈ (s.altered (.drop name)).columns := by simp [altered,columns,kept]
  rw [keyOf,keyColumn,Row.get,convertRow_fill distinct',lookup_fill _ distinct' there,
    convertValue_named distinct held member]
  rfl

def renamed (name newName : Bytes) (c : Column) : Column := if equalFold c.name name then {c with name := newName} else c

theorem mem_renamed : d ∈ (s.altered (.rename name newName)).columns ↔ ∃ c ∈ s.columns, renamed name newName c = d :=
  List.mem_map

theorem renamed_fresh (valid' : (s.altered (.rename name newName)).validate = .ok ()) (member : c ∈ s.columns)
    (folds : equalFold c.name name = true) (there : d ∈ s.columns) (same : (renamed name newName d).name = newName) :
    d = c := by
  have distinct : ((s.columns.map (renamed name newName)).map Column.name).Nodup := distinct_of_validate valid'
  rw [List.map_map] at distinct
  apply List.inj_on_of_nodup_map distinct there member
  simp only [Function.comp,same]
  rw [renamed,if_pos folds]

theorem convertValue_renamed (valid : s.validate = .ok ()) (valid' : (s.altered (.rename name newName)).validate = .ok ())
    (held : s.stored row = row) (member : c ∈ s.columns) (folds : equalFold c.name name = true)
    (fresh : ∀ d ∈ s.columns, d.name = newName → d = c) :
    convertValue s (s.altered (.rename name newName)) row ⟨newName,c.type⟩
      (indexOf (s.altered (.rename name newName)).columns ⟨newName,c.type⟩) = row.get c.name := by
  have distinct := distinct_of_validate valid
  by_cases same : newName = c.name
  · rw [convertValue,same,lookup_of_stored distinct held member]
  · have absent : row.lookup newName = none := by
      by_contra some
      obtain ⟨d,there,taken⟩ := name_of_stored distinct held some
      exact same (taken.symm.trans (congrArg Column.name (fresh d there taken)))
    -- The column is at the place where it was.
    obtain ⟨i,bound,here⟩ := List.getElem_of_mem member
    have bound' : i < (s.altered (.rename name newName)).columns.length := by simpa [altered] using bound
    have moved : (s.altered (.rename name newName)).columns[i] = ⟨newName,c.type⟩ := by simp [altered,here,folds]
    have place := indexOf_getElem (distinct_of_validate valid') bound'
    rw [moved] at place
    rw [place,convertValue,absent,List.getElem?_eq_getElem bound,here]
    simp [altered]

theorem stored_renamed (valid : s.validate = .ok ()) (valid' : (s.altered (.rename name newName)).validate = .ok ())
    (apart : s.CaseApart) (held : s.stored row = row) :
    (s.altered (.rename name newName)).stored (convertRow s (s.altered (.rename name newName)) row) =
      s.changed row (.rename name newName) := by
  have distinct := distinct_of_validate valid
  have distinct' := distinct_of_validate valid'
  rw [stored_convertRow distinct']
  rcases found : s.named name with _ | c
  · -- No column has the name, and all of them stay.
    have all : (s.altered (.rename name newName)).columns = s.columns := by
      refine (List.map_congr_left fun d member => ?_).trans (List.map_id _)
      rw [if_neg (by simp [named_none found member])]
      rfl
    rw [changed,found]
    apply fill_eq distinct'
    · intro d member
      rw [all] at member
      rw [convertValue_named distinct held member,value_of_stored distinct held member]
      exact lookup_of_stored distinct held member
    · intro n some
      rw [all]
      exact name_of_stored distinct held some
  · obtain ⟨member,folds⟩ := named_some found
    have other {d : Column} (there : d ∈ s.columns) (different : d ≠ c) :
        renamed name newName d = d ∧ d.name ≠ newName := by
      have unfolded : ¬equalFold d.name name = true := fun also => different ((apart.named found there).mp also)
      have same : renamed name newName d = d := by rw [renamed,if_neg unfolded]
      refine ⟨same,fun taken => different (renamed_fresh valid' member folds there ?_)⟩
      rw [same]
      exact taken
    have apartNames {d : Column} (there : d ∈ s.columns) (different : d ≠ c) : d.name ≠ c.name := fun same =>
      different (List.inj_on_of_nodup_map distinct there member same)
    rw [changed,found]
    apply fill_eq distinct'
    · intro d inside
      obtain ⟨e,there,rfl⟩ := mem_renamed.mp inside
      by_cases same : e = c
      · subst same
        have here : renamed name newName e = ⟨newName,e.type⟩ := by rw [renamed,if_pos folds]
        have fresh : ∀ d ∈ s.columns, d.name = newName → d = e := by
          intro d there taken
          by_contra different
          exact (other there different).2 taken
        rw [here,convertValue_renamed valid valid' held there folds fresh,value_of_stored distinct held there,
          SortedMap.lookup_insert,if_pos rfl]
      · obtain ⟨kept,fresh⟩ := other there same
        rw [kept,convertValue_named distinct held there,value_of_stored distinct held there,SortedMap.lookup_insert,
          if_neg fresh,SortedMap.lookup_erase,if_neg (apartNames there same)]
        exact lookup_of_stored distinct held there
    · intro n some
      rw [SortedMap.lookup_insert,SortedMap.lookup_erase] at some
      split_ifs at some with new old
      · refine ⟨_,mem_renamed.mpr ⟨c,member,rfl⟩,?_⟩
        rw [renamed,if_pos folds,new]
      · exact absurd rfl some
      · obtain ⟨d,there,rfl⟩ := name_of_stored distinct held some
        have different : d ≠ c := fun same => old (congrArg Column.name same)
        exact ⟨d,mem_renamed.mpr ⟨d,there,(other there different).1⟩,rfl⟩

/-- Which statements the rows are kept by. A column of type TIMESTAMP has a zero value that cannot be stored. -/
def Keeping (s : Schema) : Alteration → Prop
  | .add c => c.type ≠ .timestamp
  | .drop name => equalFold s.keyColumn name = false
  | .rename _ _ => True

instance (s : Schema) : (a : Alteration) → Decidable (s.Keeping a)
  | .add c => inferInstanceAs (Decidable (c.type ≠ .timestamp))
  | .drop name => inferInstanceAs (Decidable (equalFold s.keyColumn name = false))
  | .rename _ _ => inferInstanceAs (Decidable True)

theorem stored_altered {a : Alteration} (valid : s.validate = .ok ()) (valid' : (s.altered a).validate = .ok ())
    (apart : s.CaseApart) (keeping : s.Keeping a) (held : s.stored row = row) :
    (s.altered a).stored (convertRow s (s.altered a) row) = s.changed row a := by
  cases a with
  | add c => exact stored_added valid valid' keeping held
  | drop name => exact stored_dropped valid valid' apart held
  | rename name newName => exact stored_renamed valid valid' apart held

theorem keepsKey_altered {a : Alteration} (some : s.columns ≠ []) (valid' : (s.altered a).validate = .ok ())
    (keeps : ∀ name, a = .drop name → equalFold s.keyColumn name = false) : s.KeepsKey (s.altered a) := by
  rcases columns : s.columns with _ | ⟨c,rest⟩
  · exact absurd columns some
  have first : c ∈ s.columns.head? := by rw [columns]; rfl
  cases a with
  | add d => exact ⟨c,first,c,by simp [altered,columns],.inl rfl⟩
  | drop name =>
    have other := keeps name rfl
    simp only [keyColumn,columns,List.head?_cons,Option.map_some,Option.getD_some] at other
    exact ⟨c,first,c,by simp [altered,columns,other],.inl rfl⟩
  | rename name newName =>
    refine ⟨c,first,renamed name newName c,by simp [altered,columns,renamed],?_⟩
    by_cases folds : equalFold c.name name = true
    · have here : renamed name newName c = ⟨newName,c.type⟩ := by rw [renamed,if_pos folds]
      rw [here]
      by_cases same : newName = c.name
      · exact .inl same
      · refine .inr ⟨fun d there taken => ?_,by simp [altered],rfl⟩
        have named : (renamed name newName d).name = newName := by
          rw [renamed]
          split_ifs
          · rfl
          · exact taken
        have equal := renamed_fresh valid' (List.mem_of_mem_head? first) folds there named
        exact same (taken.symm.trans (congrArg Column.name equal))
    · rw [renamed,if_neg folds]
      exact .inl rfl

end Schema

namespace CatalogExecutor

variable {e e' : CatalogExecutor} {q : AlterTable} {t : Nat} {rows : List Row} {result : Result}

theorem onCatalog_executor (f : Catalog → Except Error Catalog) :
    Proc.Keeps (fun e e' => e'.executor = e.executor) (onCatalog f) := by
  intro e
  rw [onCatalog,exec_bind_ok (exec_get e)]
  rcases e.catalog with _ | c
  · rfl
  · dsimp only
    rw [exec_bind,exec_of]
    rcases f c with err | c <;> rfl

theorem alter_success (found : e.executor.table q.table = .ok t) (done : (alter q).exec e = (.ok result,e')) :
    ∃ table, (Table.alter ((e.executor.db.table t).schema.altered q.action)).exec (e.executor.db.table t) = (.ok (),table) ∧
      e'.executor.db = e.executor.db.withTable t table := by
  rw [alter,exec_bind_ok (exec_get e),exec_of_bind found] at done
  obtain ⟨_,e₁,altered,done⟩ := bind_success done
  obtain ⟨_,e₂,cataloged,done⟩ := bind_success done
  have same := onCatalog_executor (fun c =>
    c.set ⟨toLower q.table,pathOf c (toLower q.table),(e.executor.db.table t).schema.altered q.action⟩) e₁
  rw [cataloged] at same
  obtain ⟨-,rfl⟩ := Prod.mk.inj done
  obtain ⟨ran,rfl⟩ := Prod.mk.inj altered
  refine ⟨_,Prod.ext ran rfl,?_⟩
  rw [same]
  rfl

/-- A statement that succeeds keeps the rows under their keys, with its change in each of them. -/
theorem alter_preserves (found : e.executor.table q.table = .ok t) (inside : t < e.executor.db.tables.length)
    (order : (e.executor.db.table t).InOrder) (printed : (e.executor.db.table t).Printed)
    (scanned : (e.executor.db.table t).scan = .ok rows) (apart : (e.executor.db.table t).schema.CaseApart)
    (keeping : (e.executor.db.table t).schema.Keeping q.action) (done : (alter q).exec e = (.ok result,e')) :
    (e'.executor.db.table t).schema = (e.executor.db.table t).schema.altered q.action ∧
      (e'.executor.db.table t).scan = .ok (rows.map fun row => (e.executor.db.table t).schema.changed row q.action) ∧
      (e'.executor.db.table t).entries.map Prod.fst = (e.executor.db.table t).entries.map Prod.fst ∧
      ∃ again, (e'.executor.db.table t).reopen = (.ok (),again) ∧
        again.schema = (e'.executor.db.table t).schema ∧ again.scan = (e'.executor.db.table t).scan := by
  obtain ⟨table,altered,db⟩ := alter_success found done
  have same : e'.executor.db.table t = table := by rw [db,Db.table_withTable_self inside]
  rw [same]
  have legible := order.legible scanned
  have altered := Table.alter_done legible altered
  have keeps := Schema.keepsKey_altered order.columns altered.valid (fun name drop => by rw [drop] at keeping; exact keeping)
  have sound := altered.sound legible keeps printed
  obtain rfl := Except.ok.inj (legible.scan.symm.trans scanned)
  obtain ⟨again,reopened,readable,schema,entries⟩ := Table.reopen_reads sound.legible
  refine ⟨altered.schema,?_,?_,again,reopened,schema,?_⟩
  · rw [altered.scan_kept legible keeps printed,List.map_map]
    congr 1
    apply List.map_congr_left
    intro entry member
    exact Schema.stored_altered order.valid altered.valid apart keeping (legible.held member)
  · rw [altered.entries_kept legible keeps printed,List.map_map]
    rfl
  · rw [readable.scan,sound.scan,entries,schema]

def renameColumn : AlterTable := ⟨ascii "u",.rename (ascii "A") (ascii "b")⟩

theorem alter_preserves_renamed :
    ∃ rows, (Sample.twoRows.db.table 0).scan = .ok rows ∧ rows.length = 2 ∧
      (((alter renameColumn).exec ⟨Sample.twoRows.executor 1,none⟩).2.executor.db.table 0).scan =
        .ok (rows.map fun row => (row.erase (ascii "a")).insert (ascii "b") (row.get (ascii "a"))) := by
  have scanned := Sample.twoRows_sound.scan
  have kept := (alter_preserves (e := ⟨Sample.twoRows.executor 1,none⟩) (q := renameColumn) (t := 0) (by decide +kernel)
    (by decide +kernel) Sample.twoRows_sound.legible.inOrder Sample.twoRows_printed scanned (by decide +kernel) trivial
    (exec_of_toOption (a := {Result.empty with affected := 1}) (by decide +kernel))).2.1
  have named : (Sample.twoRows.db.table 0).schema.named (ascii "A") = some ⟨ascii "a",.float⟩ := by decide +kernel
  have changed (row : Row) : (Sample.twoRows.db.table 0).schema.changed row renameColumn.action =
      (row.erase (ascii "a")).insert (ascii "b") (row.get (ascii "a")) := by
    rw [Schema.changed.eq_def]
    dsimp only [renameColumn]
    rw [named]
  refine ⟨_,scanned,by decide +kernel,kept.trans ?_⟩
  exact congrArg Except.ok (List.map_congr_left fun row _ => changed row)

def dropKey : AlterTable := ⟨ascii "u",.drop (ascii "id")⟩

def crossed : Server :=
  Sample.server [(1,Sample.create "u" .int),(1,Sample.insert "u" 1 (.int 2)),(1,Sample.insert "u" 2 (.int 1))]

def addTwice : AlterTable := ⟨ascii "u",.add ⟨ascii "a",.int⟩⟩

def onlyKey : Server := Sample.server [(1,.createTable ⟨ascii "u",[⟨ascii "id",.int⟩],∅⟩)]

def nullRow : Server := Sample.server [
  (1,.createTable ⟨ascii "u",[⟨ascii "a",.int⟩,⟨ascii "b",.int⟩],
    (∅ : GoMap ColumnConstraint).insert (ascii "b") ⟨true,false,none⟩⟩),
  (1,.insert ⟨ascii "u",[ascii "id",ascii "a",ascii "b"],[.int 1,.nil,.int 5]⟩)]

def droppedColumn : CatalogExecutor := ((alter ⟨ascii "u",.drop (ascii "B")⟩).exec ⟨nullRow.executor 1,none⟩).2

end CatalogExecutor
end GoDb
