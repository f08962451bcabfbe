import GoDb.Alterations
import GoDb.RowUpdates
import GoDb.References
import GoDb.Timestamps
import GoDb.GroupNames

/-! Column names in other letters. Statements find a column in any case, and then they read and write the maps of rows and
constraints by the name as it was written. -/
namespace GoDb
open Foundation Outcome

def Respelled (names names' : List Bytes) : Prop := List.Forall₂ (fun a b => equalFold a b = true) names names'

variable {name : Bytes} {row : Row} {wanted : Row → Bool} {rows : List Row}

namespace Schema

variable {s : Schema} {names names' : List Bytes}

theorem CaseApart.respelled (apart : s.CaseApart) (respelled : Respelled names names')
    (exact : ∀ name ∈ names, name ∈ s.columns.map Column.name) (exact' : ∀ name ∈ names', name ∈ s.columns.map Column.name) :
    names = names' := by
  induction respelled with
  | nil => rfl
  | cons folds rest ih =>
    obtain ⟨first,later⟩ := List.forall_mem_cons.mp exact
    obtain ⟨first',later'⟩ := List.forall_mem_cons.mp exact'
    obtain ⟨c,member,rfl⟩ := List.mem_map.mp first
    obtain ⟨d,member',rfl⟩ := List.mem_map.mp first'
    rw [apart.eq member member' folds,ih later later']

theorem insertRow_mem {given : List (Bytes × Value)} {out : Row}
    (there : name ∈ given.map Prod.fst ∨ row.lookup name ≠ none) (made : s.insertRow given row = .ok out) :
    out.lookup name ≠ none := by
  induction given generalizing row with
  | nil =>
    rw [← Except.ok.inj made]
    exact there.resolve_left List.not_mem_nil
  | cons entry given ih =>
    obtain ⟨n,v⟩ := entry
    have next (w : Value) : name ∈ given.map Prod.fst ∨ (row.insert n w).lookup name ≠ none := by
      rw [SortedMap.lookup_insert]
      by_cases same : name = n
      · rw [if_pos same]
        exact .inr (Option.some_ne_none w)
      · rw [if_neg same]
        exact there.imp_left fun member => (List.mem_cons.mp member).resolve_left same
    unfold insertRow at made
    split at made
    · exact ih (next v) made
    · split at made
      · cases made
      · exact ih (next _) made

theorem named_of_encode (distinct : (s.columns.map Column.name).Nodup) {b : Bytes} (encoded : s.encode row = .ok b)
    (there : row.lookup name ≠ none) : name ∈ s.columns.map Column.name := by
  obtain ⟨v,value⟩ := Option.ne_none_iff_exists'.mp there
  exact (encode_keys distinct encoded).mem_iff.mp (List.mem_map.mpr ⟨(name,v),(SortedMap.mem_entries _).mpr value,rfl⟩)

def Takes (s : Schema) (p : Bytes × Value) : Prop := ∃ c w, s.columnNamed p.1 = some c ∧ coerceValue p.2 c.type = .ok w

theorem updateSet_succeeds_iff (given : List (Bytes × Value)) (set : Row) :
    (∃ out, s.updateSet given set = .ok out) ↔ ∀ p ∈ given, s.Takes p := by
  induction given generalizing set with
  | nil => exact iff_of_true ⟨set,rfl⟩ (List.forall_mem_nil _)
  | cons p given ih =>
    obtain ⟨name,v⟩ := p
    rw [List.forall_mem_cons]
    unfold updateSet
    cases named : s.columnNamed name with
    | none =>
      apply iff_of_false
      · rintro ⟨out,made⟩
        cases made
      · rintro ⟨⟨c,w,found,-⟩,-⟩
        cases named.symm.trans found
    | some c =>
      cases coerced : coerceValue v c.type with
      | error err =>
        dsimp only
        rw [coerced]
        apply iff_of_false
        · rintro ⟨out,made⟩
          cases made
        · rintro ⟨⟨d,w,found,taken⟩,-⟩
          obtain rfl := Option.some.inj (named.symm.trans found)
          cases coerced.symm.trans taken
      | ok w =>
        dsimp only
        rw [coerced]
        dsimp only
        rw [ih]
        exact (and_iff_right ⟨c,w,named,coerced⟩).symm

theorem Takes.respelled {name' : Bytes} {v : Value} (folds : equalFold name name' = true) (takes : s.Takes (name,v)) :
    s.Takes (name',v) := by
  have same : s.columnNamed name' = s.columnNamed name := by
    unfold columnNamed equalFold
    rw [of_decide_eq_true folds]
  obtain ⟨c,w,found,taken⟩ := takes
  exact ⟨c,w,same.trans found,taken⟩

end Schema

def Reassigned (pairs pairs' : List (Bytes × Value)) : Prop :=
  List.Forall₂ (fun p p' => equalFold p.1 p'.1 = true ∧ p'.2 = p.2) pairs pairs'

namespace Reassigned

variable {pairs pairs' : List (Bytes × Value)}

theorem names (reassigned : Reassigned pairs pairs') : Respelled (pairs.map Prod.fst) (pairs'.map Prod.fst) := by
  induction reassigned with
  | nil => exact .nil
  | cons first rest ih => exact .cons first.1 ih

theorem eq (reassigned : Reassigned pairs pairs') (same : pairs.map Prod.fst = pairs'.map Prod.fst) : pairs = pairs' := by
  induction reassigned with
  | nil => rfl
  | cons first rest ih =>
    obtain ⟨name,names⟩ := List.cons.inj same
    rw [ih names,Prod.ext name first.2.symm]

theorem takes_iff {s : Schema} (reassigned : Reassigned pairs pairs') :
    (∀ p ∈ pairs, s.Takes p) ↔ ∀ p ∈ pairs', s.Takes p := by
  apply forall_mem_iff_of_forall₂ _ reassigned
  rintro ⟨name,v⟩ ⟨name',v'⟩ ⟨folds,rfl⟩
  have back : equalFold name' name = true := decide_eq_true (of_decide_eq_true folds).symm
  exact ⟨fun takes => takes.respelled folds,fun takes => takes.respelled back⟩

theorem apart (reassigned : Reassigned pairs pairs') :
    pairs'.map (fun p => toLower p.1) = pairs.map fun p => toLower p.1 := by
  induction reassigned with
  | nil => rfl
  | cons first rest ih => rw [List.map_cons,List.map_cons,ih,of_decide_eq_true first.1]

end Reassigned

theorem mem_assigned {pairs : List (Bytes × Value)} (distinct : (pairs.map fun p => toLower p.1).Nodup) (p : Bytes × Value) :
    p ∈ ((∅ : Row).insertAll pairs).entries ↔ p ∈ pairs := by
  have names : (pairs.map Prod.fst).Nodup := List.Nodup.of_map toLower (by rwa [List.map_map])
  rw [SortedMap.mem_entries]
  constructor
  · intro found
    have there : p.1 ∈ pairs.map Prod.fst := by
      by_contra absent
      rw [SortedMap.lookup_insertAll_of_not_mem ∅ absent] at found
      cases found
    obtain ⟨p',member,same⟩ := List.mem_map.mp there
    have value := SortedMap.lookup_insertAll_of_mem ∅ names member
    rw [same,found] at value
    rw [Prod.ext same.symm (Option.some.inj value)]
    exact member
  · exact SortedMap.lookup_insertAll_of_mem ∅ names

/-- Two statements both succeed or both fail, and leave a table with the same columns, constraints and rows. -/
structure SameEffect {σ : Type} (table : σ → Table) (s : σ) (x y : Proc Error σ Result) : Prop where
  success : (∃ r, (x.exec s).1 = .ok r) ↔ ∃ r, (y.exec s).1 = .ok r
  schema : (table (x.exec s).2).schema = (table (y.exec s).2).schema
  rows : (table (x.exec s).2).scan = (table (y.exec s).2).scan

theorem SameEffect.of_eq {σ : Type} {table : σ → Table} {s : σ} {x y : Proc Error σ Result} (same : x.exec s = y.exec s) :
    SameEffect table s x y := by
  constructor
  all_goals rw [same]

namespace Table

variable {t t' : Table}

theorem updateEach_none (none : ∀ row ∈ rows, wanted row = false) (set : Row) :
    (updateEach wanted set rows).exec t = (.ok 0,t) := by
  induction rows with
  | nil => rfl
  | cons row rows ih =>
    obtain ⟨here,later⟩ := List.forall_mem_cons.mp none
    rw [updateEach,if_neg (by rw [here]; decide)]
    exact ih later

theorem updateEach_congr {wanted' : Row → Bool} (alike : ∀ row ∈ rows, wanted row = wanted' row) (set : Row) :
    updateEach wanted set rows = updateEach wanted' set rows := by
  induction rows with
  | nil => rfl
  | cons row rows ih =>
    obtain ⟨here,later⟩ := List.forall_mem_cons.mp alike
    rw [updateEach,updateEach,here,ih later]

theorem updateEach_encodes (legible : t.Legible) {set : Row} {n : Nat}
    (done : (updateEach wanted set rows).exec t = (.ok n,t')) (member : row ∈ rows) (wants : wanted row = true) :
    ∃ b, t.schema.encode (row.insertAll set.entries) = .ok b := by
  induction rows generalizing t n t' with
  | nil => cases member
  | cons first rows ih =>
    unfold updateEach at done
    by_cases here : wanted first = true
    · rw [if_pos here,exec_bind_ok (exec_get t)] at done
      obtain ⟨_,mid,inserted,done⟩ := bind_success done
      obtain ⟨m,last,rest,-⟩ := bind_success done
      obtain ⟨reads,b,after⟩ := insert_done legible inserted
      rcases List.mem_cons.mp member with rfl | later
      · exact ⟨b,after.accepts.encoded⟩
      · rw [← reads.1]
        exact ih (legible.reads reads) rest later
    · rw [if_neg here] at done
      rcases List.mem_cons.mp member with rfl | later
      · exact absurd wants here
      · exact ih legible done later

end Table

namespace Executor

variable {e e' : Executor} {t : Nat} {ord : Order}

theorem insert_exact (closed : e.tx = none) (legible : (e.db.table t).Legible) {q : Insert}
    (found : e.table q.table = .ok t) {r : Result}
    (done : (insert ord q).exec e = (.ok r,e')) :
    ∀ name ∈ (q.columns.zip q.values).map Prod.fst, name ∈ (e.db.table t).schema.columns.map Column.name := by
  obtain ⟨t',given,row,table,found',made,keyed,-,inserted,-⟩ := insert_success closed done
  obtain rfl := Except.ok.inj (found.symm.trans found')
  obtain ⟨-,b,after⟩ := Table.insert_done legible inserted
  intro name member
  obtain ⟨w,value⟩ := Option.ne_none_iff_exists'.mp (Schema.insertRow_mem (.inl member) made)
  apply Schema.named_of_encode (Schema.distinct_of_validate legible.valid) after.accepts.encoded
  rw [keyedRow_lookup keyed value]
  exact Option.some_ne_none w

theorem insert_respelled_iff (closed : e.tx = none) (legible : (e.db.table t).Legible)
    (apart : (e.db.table t).schema.CaseApart)
    {q : Insert} (found : e.table q.table = .ok t) (paired : q.columns.length = q.values.length) {columns : List Bytes}
    (respelled : Respelled q.columns columns) (accepted : ∃ r, ((insert ord q).exec e).1 = .ok r) :
    SameEffect (·.db.table t) e (insert ord q) (insert ord {q with columns := columns}) ↔ columns = q.columns := by
  have names {list : List Bytes} (same : list.length = q.values.length) : (list.zip q.values).map Prod.fst = list :=
    List.map_fst_zip same.le
  constructor
  · intro same
    obtain ⟨r,done⟩ := id accepted
    obtain ⟨r',done'⟩ := same.success.mp accepted
    have exact := insert_exact closed legible found (Prod.ext done rfl)
    have exact' := insert_exact (q := {q with columns := columns}) closed legible found (Prod.ext done' rfl)
    rw [names paired] at exact
    rw [names (respelled.length_eq ▸ paired)] at exact'
    exact (apart.respelled respelled exact exact').symm
  · rintro rfl
    exact .of_eq rfl

theorem update_none (ord : Order) (closed : e.tx = none) (inside : t < e.db.tables.length) {q : Update}
    (found : e.table q.table = .ok t) (scanned : (e.db.table t).scan = .ok rows)
    (none : ∀ row ∈ rows, matchRow q.condition row = false) :
    ((∃ r, ((update ord q).exec e).1 = .ok r) ↔ ∀ p ∈ q.set.entries, (e.db.table t).schema.Takes p) ∧
      ((update ord q).exec e).2 = e := by
  have arranged : (∀ p ∈ (ord.at 0).arrange q.set.entries, (e.db.table t).schema.Takes p) ↔
      ∀ p ∈ q.set.entries, (e.db.table t).schema.Takes p := by simp only [Order.mem_arrange]
  rw [← arranged,← Schema.updateSet_succeeds_iff _ ∅]
  cases made : (e.db.table t).schema.updateSet ((ord.at 0).arrange q.set.entries) ∅ with
  | error err =>
    rw [update,exec_bind_ok (exec_get e),exec_of_bind found,exec_bind,exec_of,made]
    refine ⟨iff_of_false ?_ ?_,rfl⟩
    · intro ⟨r,done⟩
      cases done
    · intro ⟨out,done⟩
      cases done
  | ok set =>
    rw [update_closed closed inside found made scanned,exec_bind,onTable_exec,Table.updateEach_none none]
    dsimp only
    rw [Db.withTable_table inside]
    exact ⟨iff_of_true ⟨_,rfl⟩ ⟨set,rfl⟩,rfl⟩

theorem update_exact (closed : e.tx = none) (inside : t < e.db.tables.length) (legible : (e.db.table t).Legible)
    {q : Update} (found : e.table q.table = .ok t) (scanned : (e.db.table t).scan = .ok rows) (member : row ∈ rows)
    (wants : matchRow q.condition row = true) {r : Result} (done : (update ord q).exec e = (.ok r,e'))
    (assigned : q.set.lookup name ≠ none) : name ∈ (e.db.table t).schema.columns.map Column.name := by
  obtain ⟨set,made,ran,-⟩ := update_success closed inside found scanned done
  obtain ⟨b,encoded⟩ := Table.updateEach_encodes legible ran member wants
  apply Schema.named_of_encode (Schema.distinct_of_validate legible.valid) encoded
  obtain ⟨v,value⟩ := Option.ne_none_iff_exists'.mp assigned
  obtain ⟨c,w,-,-,there⟩ := Schema.updateSet_value value made
  rw [SortedMap.lookup_insertAll,there]
  exact Option.some_ne_none w

section Updates

variable (closed : e.tx = none) (inside : t < e.db.tables.length) (legible : (e.db.table t).Legible) {table : Bytes}
  (found : e.table table = .ok t) {rows : List Row} (scanned : (e.db.table t).scan = .ok rows) 
  {pairs pairs' : List (Bytes × Value)} (reassigned : Reassigned pairs pairs') {w w' : Option Condition}

include closed inside found scanned

theorem update_congr (alike : ∀ row ∈ rows, matchRow w row = matchRow w' row) (set : GoMap Value) :
    (update ord ⟨table,set,w⟩).exec e = (update ord ⟨table,set,w'⟩).exec e := by
  cases made : (e.db.table t).schema.updateSet ((ord.at 0).arrange set.entries) ∅ with
  | error err =>
    rw [update,update,exec_bind_ok (exec_get e),exec_bind_ok (exec_get e),exec_of_bind found,exec_of_bind found,
      exec_bind,exec_bind,
      exec_of,made]
  | ok out =>
    rw [update_closed (q := ⟨table,set,w⟩) closed inside found made scanned,
      update_closed (q := ⟨table,set,w'⟩) closed inside found made scanned,Table.updateEach_congr alike]

include reassigned

theorem update_respelled_none (distinct : (pairs.map fun p => toLower p.1).Nodup)
    (none : ∀ row ∈ rows, matchRow w row = false)
    (none' : ∀ row ∈ rows, matchRow w' row = false) :
    SameEffect (·.db.table t) e (update ord ⟨table,(∅ : Row).insertAll pairs,w⟩)
      (update ord ⟨table,(∅ : Row).insertAll pairs',w'⟩) := by
  obtain ⟨success,same⟩ := update_none ord (q := ⟨table,(∅ : Row).insertAll pairs,w⟩) closed inside found scanned none
  obtain ⟨success',same'⟩ := update_none ord (q := ⟨table,(∅ : Row).insertAll pairs',w'⟩) closed inside found scanned none'
  have distinct' : (pairs'.map fun p => toLower p.1).Nodup := reassigned.apart ▸ distinct
  have taken : (∀ p ∈ ((∅ : Row).insertAll pairs).entries, (e.db.table t).schema.Takes p) ↔
      ∀ p ∈ ((∅ : Row).insertAll pairs').entries, (e.db.table t).schema.Takes p := by
    simp only [mem_assigned distinct,mem_assigned distinct']
    exact reassigned.takes_iff
  refine ⟨success.trans (taken.trans success'.symm),?_,?_⟩
  · rw [same,same']
  · rw [same,same']

include legible in
theorem update_respelled_iff (apart : (e.db.table t).schema.CaseApart) (distinct : (pairs.map fun p => toLower p.1).Nodup)
    (alike : ∀ row ∈ rows, matchRow w row = matchRow w' row)
    (accepted : ∃ r, ((update ord ⟨table,(∅ : Row).insertAll pairs,w⟩).exec e).1 = .ok r) :
    SameEffect (·.db.table t) e (update ord ⟨table,(∅ : Row).insertAll pairs,w⟩)
      (update ord ⟨table,(∅ : Row).insertAll pairs',w'⟩) ↔
      pairs' = pairs ∨ ∀ row ∈ rows, matchRow w row = false := by
  constructor
  · intro same
    by_cases none : ∀ row ∈ rows, matchRow w row = false
    · exact .inr none
    · push Not at none
      obtain ⟨row,member,some⟩ := none
      have wants := Bool.eq_true_of_not_eq_false some
      have wants' := (alike row member).symm.trans wants
      obtain ⟨r,done⟩ := id accepted
      obtain ⟨r',done'⟩ := same.success.mp accepted
      have exact : ∀ name ∈ pairs.map Prod.fst, name ∈ (e.db.table t).schema.columns.map Column.name := fun name there =>
        update_exact (q := ⟨table,(∅ : Row).insertAll pairs,w⟩) closed inside legible found scanned member wants
          (Prod.ext done rfl)
          (SortedMap.lookup_insertAll_ne_none ∅ there)
      have exact' : ∀ name ∈ pairs'.map Prod.fst, name ∈ (e.db.table t).schema.columns.map Column.name := fun name there =>
        update_exact (q := ⟨table,(∅ : Row).insertAll pairs',w'⟩) closed inside legible found scanned member wants'
          (Prod.ext done' rfl) (SortedMap.lookup_insertAll_ne_none ∅ there)
      exact .inl (reassigned.eq (apart.respelled reassigned.names exact exact')).symm
  · rintro (rfl | none)
    · exact .of_eq (update_congr closed inside found scanned alike _)
    · exact update_respelled_none closed inside found scanned reassigned distinct none
        fun row member => (alike row member).symm.trans (none row member)

end Updates

end Executor

namespace Schema

variable {s : Schema} {name name' : Bytes}

/-- No constraint is stored under the name. -/
abbrev Unconstrained (s : Schema) (name : Bytes) : Prop := s.constraints.lookup name = none

theorem equalFold_congr (folds : equalFold name name' = true) (c : Bytes) : equalFold c name' = equalFold c name := by
  unfold equalFold
  rw [of_decide_eq_true folds]

theorem erase_unconstrained (none : s.Unconstrained name) : s.constraints.erase name = s.constraints := by
  apply SortedMap.ext
  intro key
  rw [SortedMap.lookup_erase]
  split_ifs with here
  · rw [here,none]
  · rfl

theorem altered_drop_iff (folds : equalFold name name' = true) :
    s.altered (.drop name') = s.altered (.drop name) ↔ name' = name ∨ s.Unconstrained name ∧ s.Unconstrained name' := by
  dsimp only [altered]
  simp only [equalFold_congr folds,Schema.mk.injEq,true_and]
  constructor
  · intro erased
    by_cases equal : name' = name
    · exact .inl equal
    · have first := congrArg (·.lookup name) erased
      have second := congrArg (·.lookup name') erased
      rw [SortedMap.lookup_erase,SortedMap.lookup_erase,if_pos rfl,if_neg (Ne.symm equal)] at first
      rw [SortedMap.lookup_erase,SortedMap.lookup_erase,if_pos rfl,if_neg equal] at second
      exact .inr ⟨first,second.symm⟩
  · rintro (rfl | ⟨first,second⟩)
    · rfl
    · rw [erase_unconstrained first,erase_unconstrained second]

def moved (s : Schema) (name newName : Bytes) : GoMap ColumnConstraint :=
  match s.constraints.lookup name with
  | none => s.constraints
  | some constraint => (s.constraints.erase name).insert newName constraint

theorem moved_unconstrained (none : s.Unconstrained name) (newName : Bytes) : s.moved name newName = s.constraints := by
  rw [moved,none]

theorem lookup_moved {constraint : ColumnConstraint} (found : s.constraints.lookup name = some constraint)
    (newName key : Bytes) :
    (s.moved name newName).lookup key =
      if key = newName then some constraint else if key = name then none else s.constraints.lookup key := by
  rw [moved,found]
  dsimp only
  rw [SortedMap.lookup_insert,SortedMap.lookup_erase]
  congr

theorem moved_self (s : Schema) (name : Bytes) : s.moved name name = s.constraints := by
  cases found : s.constraints.lookup name with
  | none => exact moved_unconstrained found name
  | some constraint =>
    apply SortedMap.ext
    intro key
    rw [lookup_moved found]
    split_ifs with here
    · rw [here,found]
    · rfl

/-- Two spellings of RENAME COLUMN move the same constraint, or none. -/
def Moves (s : Schema) (name name' newName : Bytes) : Prop :=
  name' = name ∨ s.Unconstrained name ∧ s.Unconstrained name' ∨ newName = name ∧ s.Unconstrained name' ∨
    newName = name' ∧ s.Unconstrained name

theorem newName_of_moved {constraint : ColumnConstraint} (found : s.constraints.lookup name = some constraint)
    {newName : Bytes}
    (kept : (s.moved name newName).lookup name ≠ none) : newName = name := by
  by_contra other
  rw [lookup_moved found,if_neg (Ne.symm other),if_pos rfl] at kept
  exact kept rfl

theorem moved_eq_iff (newName : Bytes) : s.moved name' newName = s.moved name newName ↔ s.Moves name name' newName := by
  constructor
  · intro same
    by_cases equal : name' = name
    · exact .inl equal
    · cases found : s.constraints.lookup name with
      | none =>
        cases found' : s.constraints.lookup name' with
        | none => exact .inr (.inl ⟨found,found'⟩)
        | some constraint' =>
          refine .inr (.inr (.inr ⟨newName_of_moved found' ?_,found⟩))
          rw [same,moved_unconstrained found,found']
          exact Option.some_ne_none constraint'
      | some constraint =>
        cases found' : s.constraints.lookup name' with
        | none =>
          refine .inr (.inr (.inl ⟨newName_of_moved found ?_,found'⟩))
          rw [← same,moved_unconstrained found',found]
          exact Option.some_ne_none constraint
        | some constraint' =>
          -- Each of the two is kept by the other statement, so the new name would have to be both.
          have first : newName = name := by
            apply newName_of_moved found
            rw [← same,lookup_moved found',if_neg (Ne.symm equal),found]
            split_ifs
            · exact Option.some_ne_none _
            · exact Option.some_ne_none _
          have second : newName = name' := by
            apply newName_of_moved found'
            rw [same,lookup_moved found,if_neg equal,found']
            split_ifs
            · exact Option.some_ne_none _
            · exact Option.some_ne_none _
          exact .inl (second.symm.trans first)
  · rintro (rfl | ⟨first,second⟩ | ⟨rfl,second⟩ | ⟨rfl,first⟩)
    · rfl
    · rw [moved_unconstrained first,moved_unconstrained second]
    · rw [moved_self,moved_unconstrained second]
    · rw [moved_self,moved_unconstrained first]

theorem altered_rename_iff (folds : equalFold name name' = true) (newName : Bytes) :
    s.altered (.rename name' newName) = s.altered (.rename name newName) ↔ s.Moves name name' newName := by
  rw [← moved_eq_iff]
  dsimp only [altered]
  simp only [equalFold_congr folds,Schema.mk.injEq,true_and]
  exact Iff.rfl

end Schema

namespace CatalogExecutor

variable {e : CatalogExecutor} {t : Nat} {table : Bytes} {a a' : Alteration}

theorem alter_respelled_iff (found : e.executor.table table = .ok t) (inside : t < e.executor.db.tables.length)
    (legible : (e.executor.db.table t).Legible) (accepted : ∃ r, ((alter ⟨table,a⟩).exec e).1 = .ok r) :
    SameEffect (·.executor.db.table t) e (alter ⟨table,a⟩) (alter ⟨table,a'⟩) ↔
      (e.executor.db.table t).schema.altered a' = (e.executor.db.table t).schema.altered a := by
  have schema {a : Alteration} (accepted : ∃ r, ((alter ⟨table,a⟩).exec e).1 = .ok r) :
      (((alter ⟨table,a⟩).exec e).2.executor.db.table t).schema = (e.executor.db.table t).schema.altered a := by
    obtain ⟨r,done⟩ := accepted
    obtain ⟨after,altered,db⟩ := alter_success (q := ⟨table,a⟩) found (Prod.ext done rfl)
    rw [db,Db.table_withTable_self inside]
    exact (Table.alter_done legible altered).schema
  constructor
  · intro same
    rw [← schema accepted,← schema (same.success.mp accepted),same.schema]
  · intro same
    apply SameEffect.of_eq
    rw [alter,alter,exec_bind_ok (exec_get e),exec_bind_ok (exec_get e),exec_of_bind found,exec_of_bind found,same]

end CatalogExecutor

end GoDb
