import GoDb.Grouping
import GoDb.JoinMeaning

/-! Names with their table in front. Conditions, joins and the check of GROUP BY look a column up by
the name behind the point as well; the keys of the groups and the aggregates take the name as it is. -/
namespace GoDb
open Foundation Results

def Identifier (s : Bytes) : Prop := ∀ b ∈ s, b ≠ 40 ∧ b ≠ 46 ∧ isSpace b = false

/-- An entry of the select list, and the entry with the one name for the other. -/
inductive Renames (c name : Bytes) : Bytes → Bytes → Prop
  | same (expr : Bytes) : Renames c name expr expr
  | column : Renames c name c name
  | call {fn : Bytes} (plain : 40 ∉ fn) : Renames c name (call fn c) (call fn name)

/-- The query with the one name for the other in some of the places. -/
structure Select.Renamed (c name : Bytes) (q q' : Select) : Prop where
  columns : List.Forall₂ (Renames c name) q.columns q'.columns
  groupBy : List.Forall₂ (fun g g' => g' = g ∨ g = c ∧ g' = name) q.groupBy q'.groupBy
  rest : q' = {q with columns := q'.columns,groupBy := q'.groupBy}

variable {q q' : Select} {s expr expr' : Bytes}

theorem Select.Renamed.groupBy_nil {c name : Bytes} (renamed : q.Renamed c name q') :
    q'.groupBy = [] ↔ q.groupBy = [] := by
  rw [← List.length_eq_zero_iff,← renamed.groupBy.length_eq,List.length_eq_zero_iff]

theorem isPrefixOf_call {upper : Bytes} (plain : 40 ∉ upper) (rest : Bytes) :
    upper.isPrefixOf (s ++ 40::rest) = upper.isPrefixOf s := by
  induction upper generalizing s with
  | nil => simp
  | cons u upper ih =>
    have other : u ≠ 40 := fun same => plain (same ▸ List.mem_cons_self)
    cases s with
    | nil => simp [List.isPrefixOf,other]
    | cons b s =>
      rw [List.cons_append,List.isPrefixOf,List.isPrefixOf,ih fun later => plain (List.mem_cons_of_mem u later)]

theorem isPrefixOf_toUpper_call (upper : Bytes) (plain : 40 ∉ upper) (fn column : Bytes) :
    upper.isPrefixOf (toUpper (call fn column)) = upper.isPrefixOf (toUpper fn) := by
  rw [toUpper_call]
  exact isPrefixOf_call plain _

theorem sumFrom_renamed (expr expr' : Bytes) (sum : UInt64) (values : List Value) :
    Agree (· = ·) (sumFrom expr sum values) (sumFrom expr' sum values) := by
  induction values generalizing sum with
  | nil => exact .ok rfl
  | cons v values ih =>
    rw [sumFrom,sumFrom]
    cases v.number with
    | none => exact .error _ _
    | some n => exact ih _

theorem aggregateValue_renamed (fn column column' : Bytes) (values : List Value) :
    Agree (· = ·) (aggregateValue (call fn column) values) (aggregateValue (call fn column') values) := by
  have count := isPrefixOf_toUpper_call (ascii "COUNT") (by decide) fn
  have min := isPrefixOf_toUpper_call (ascii "MIN") (by decide) fn
  have max := isPrefixOf_toUpper_call (ascii "MAX") (by decide) fn
  have sum := isPrefixOf_toUpper_call (ascii "SUM") (by decide) fn
  have avg := isPrefixOf_toUpper_call (ascii "AVG") (by decide) fn
  cases values with
  | nil =>
    simp only [aggregateValue,count]
    exact .refl _
  | cons first rest =>
    simp only [aggregateValue,count,min,max,sum,avg]
    by_cases counts : (ascii "COUNT").isPrefixOf (toUpper fn) = true
    · rw [if_pos counts,if_pos counts]
      exact .refl _
    · rw [if_neg counts,if_neg counts]
      by_cases picks : ((ascii "MIN").isPrefixOf (toUpper fn) || (ascii "MAX").isPrefixOf (toUpper fn)) = true
      · rw [if_pos picks,if_pos picks]
        exact .refl _
      · rw [if_neg picks,if_neg picks]
        refine (sumFrom_renamed _ _ _ _).bind ?_
        rintro total _ rfl
        exact .refl _

/-- A name for the column of a table, which may stand with the table in front. -/
structure Naming (c table : Bytes) : Prop where
  column : Identifier c
  owner : Identifier table
  star : c ≠ [42]

theorem dropWhile_plain (plain : ∀ b ∈ s, isSpace b = false) : s.dropWhile isSpace = s := by
  cases s with
  | nil => rfl
  | cons b s => rw [List.dropWhile_cons,if_neg (Bool.not_eq_true _ ▸ plain b List.mem_cons_self)]

theorem trimSpace_plain (plain : ∀ b ∈ s, isSpace b = false) : trimSpace s = s := by
  have back : ∀ b ∈ s.reverse, isSpace b = false := fun b member => plain b (List.mem_reverse.mp member)
  rw [trimSpace,dropWhile_plain plain,dropWhile_plain back,List.reverse_reverse]

theorem qualified_ne_star (table c : Bytes) : qualified table c ≠ [42] := by
  intro same
  have point : (46 : UInt8) ∈ qualified table c := List.mem_append_right table List.mem_cons_self
  rw [same] at point
  exact absurd (List.mem_singleton.mp point) (by decide)

theorem call_ne_star (fn column : Bytes) : call fn column ≠ [42] := by
  intro same
  have paren : (40 : UInt8) ∈ call fn column := by simp [call]
  rw [same] at paren
  exact absurd (List.mem_singleton.mp paren) (by decide)

theorem plain_toUpper (plain : 40 ∉ s) : 40 ∉ toUpper s := by
  intro member
  obtain ⟨b,there,same⟩ := List.mem_map.mp member
  split_ifs at same with lower
  · simp only [Bool.and_eq_true,decide_eq_true_eq,UInt8.le_iff_toNat_le] at lower
    have back := congrArg UInt8.toNat same
    have low : 97 ≤ b.toNat := lower.1
    rw [UInt8.toNat_sub_of_le b 32 (UInt8.le_iff_toNat_le.mpr (Nat.le_trans (by decide) low))] at back
    change b.toNat - 32 = 40 at back
    omega
  · exact plain (same ▸ there)

theorem aggregateNames_eq : aggregateNames = [ascii "COUNT",ascii "SUM",ascii "AVG",ascii "MIN",ascii "MAX"].map (· ++ [40]) := by
  decide

theorem isAggregate_plain (plain : 40 ∉ s) : isAggregate s = false := by
  rw [isAggregate,aggregateNames_eq,List.any_eq_false]
  intro name member found
  obtain ⟨upper,-,rfl⟩ := List.mem_map.mp member
  have there := (List.isPrefixOf_iff_prefix.mp found).subset (List.mem_append_right upper (List.mem_singleton_self 40))
  exact plain_toUpper plain there

theorem isPrefixOf_paren {upper : Bytes} (plain : 40 ∉ upper) (rest : Bytes) :
    (upper ++ [40]).isPrefixOf (s ++ 40::rest) = (upper ++ [40]).isPrefixOf (s ++ [40]) := by
  induction upper generalizing s with
  | nil => cases s <;> simp [List.isPrefixOf]
  | cons u upper ih =>
    have other : u ≠ 40 := fun same => plain (same ▸ List.mem_cons_self)
    cases s with
    | nil => simp [List.isPrefixOf,other]
    | cons b s =>
      simp only [List.cons_append,List.isPrefixOf]
      rw [ih fun later => plain (List.mem_cons_of_mem u later)]

theorem isAggregate_call (fn column column' : Bytes) : isAggregate (call fn column) = isAggregate (call fn column') := by
  have each : ∀ upper ∈ [ascii "COUNT",ascii "SUM",ascii "AVG",ascii "MIN",ascii "MAX"], ∀ column,
      (upper ++ [40]).isPrefixOf (toUpper (call fn column)) = (upper ++ [40]).isPrefixOf (toUpper fn ++ [40]) := by
    intro upper member column
    rw [toUpper_call]
    apply isPrefixOf_paren
    simp only [List.mem_cons,List.not_mem_nil,or_false] at member
    rcases member with rfl | rfl | rfl | rfl | rfl <;> decide
  rw [isAggregate,isAggregate,aggregateNames_eq,List.any_map,List.any_map,Bool.eq_iff_iff,List.any_eq_true,List.any_eq_true]
  constructor
  · rintro ⟨upper,member,found⟩
    exact ⟨upper,member,(each upper member column').trans ((each upper member column).symm.trans found)⟩
  · rintro ⟨upper,member,found⟩
    exact ⟨upper,member,(each upper member column).trans ((each upper member column').symm.trans found)⟩

theorem forall₂_eq_singleton {α β : Type} {R : α → β → Prop} {as : List α} {bs : List β} {a : α} {b : β}
    (related : List.Forall₂ R as bs) (single : ∀ x y, R x y → (x = a ↔ y = b)) : as = [a] ↔ bs = [b] := by
  cases related with
  | nil => simp
  | cons first rest =>
    cases rest with
    | nil => simpa using single _ _ first
    | cons => simp

theorem any_eq_of_forall₂ {α β : Type} {R : α → β → Prop} {p : α → Bool} {q : β → Bool} (same : ∀ a b, R a b → q b = p a)
    {as : List α} {bs : List β} (related : List.Forall₂ R as bs) : bs.any q = as.any p := by
  induction related with
  | nil => rfl
  | cons first rest ih => rw [List.any_cons,List.any_cons,same _ _ first,ih]

theorem afterPoint_plain (plain : 46 ∉ s) : afterPoint s = none := by
  induction s with
  | nil => rfl
  | cons b s ih =>
    rw [afterPoint]
    · exact ih fun later => plain (List.mem_cons_of_mem b later)
    · exact fun same => plain (same ▸ List.mem_cons_self)

theorem forall_mem_iff_of_forall₂ {α β : Type} {R : α → β → Prop} {P : α → Prop} {Q : β → Prop}
    (same : ∀ a b, R a b → (P a ↔ Q b)) {as : List α} {bs : List β} (related : List.Forall₂ R as bs) :
    (∀ a ∈ as, P a) ↔ ∀ b ∈ bs, Q b := by
  induction related with
  | nil => exact iff_of_true (List.forall_mem_nil _) (List.forall_mem_nil _)
  | cons first rest ih => rw [List.forall_mem_cons,List.forall_mem_cons,same _ _ first,ih]

namespace Naming

variable {c table : Bytes} (naming : Naming c table)

include naming

theorem mem_qualified {b : UInt8} (member : b ∈ qualified table c) : b ≠ 40 ∧ isSpace b = false := by
  rcases List.mem_append.mp member with front | back
  · exact ⟨(naming.owner b front).1,(naming.owner b front).2.2⟩
  · rcases List.mem_cons.mp back with rfl | later
    · decide
    · exact ⟨(naming.column b later).1,(naming.column b later).2.2⟩

theorem plain : 40 ∉ c := fun member => (naming.column 40 member).1 rfl

theorem plain_qualified : 40 ∉ qualified table c := fun member => (naming.mem_qualified member).1 rfl

theorem trim : trimSpace c = c := trimSpace_plain fun b member => (naming.column b member).2.2

theorem trim_qualified : trimSpace (qualified table c) = qualified table c :=
  trimSpace_plain fun _ member => (naming.mem_qualified member).2

variable {rows : List Row} (same : ∀ r ∈ rows, r.get (qualified table c) = r.get c)

include same

theorem entryValue_renames (renames : Renames c (qualified table c) expr expr') :
    Agree (· = ·) (entryValue rows expr) (entryValue rows expr') := by
  cases renames with
  | same => exact .refl _
  | column =>
    cases rows with
    | nil =>
      unfold entryValue aggregateColumn
      rw [findIdx_paren naming.plain,findIdx_paren naming.plain_qualified]
      exact .error _ _
    | cons first rest =>
      rw [entryValue_plain naming.plain,entryValue_plain naming.plain_qualified,same first List.mem_cons_self]
      exact .refl _
  | @call fn plain =>
    have values : rows.map (·.get (qualified table c)) = rows.map (·.get c) := List.map_congr_left same
    rw [entryValue_call plain,entryValue_call plain,naming.trim,naming.trim_qualified,if_neg naming.star,
      if_neg (qualified_ne_star table c),values]
    exact (aggregateValue_renamed fn c (qualified table c) _).bind fun _ _ equal => .ok (congrArg _ equal)

theorem groupKey_renamed {isPrint : Nat → Bool} {groups groups' : List Bytes}
    (renamed : List.Forall₂ (fun g g' => g' = g ∨ g = c ∧ g' = qualified table c) groups groups') {r : Row} (member : r ∈ rows) :
    groupKey isPrint groups' r = groupKey isPrint groups r := by
  induction renamed with
  | nil => rfl
  | @cons g g' groups groups' first rest ih =>
    have here : r.get g' = r.get g := by
      rcases first with rfl | ⟨rfl,rfl⟩
      · rfl
      · exact same r member
    unfold groupKey at ih ⊢
    rw [List.flatMap_cons,List.flatMap_cons,here,ih]

omit same in
theorem isAggregate_renames (renames : Renames c (qualified table c) expr expr') :
    isAggregate expr' = isAggregate expr := by
  cases renames with
  | same => rfl
  | column => rw [isAggregate_plain naming.plain,isAggregate_plain naming.plain_qualified]
  | call => exact isAggregate_call ..

omit same in
theorem renames_star (renames : Renames c (qualified table c) expr expr') : expr = [42] ↔ expr' = [42] := by
  cases renames with
  | same => rfl
  | column => exact iff_of_false naming.star (qualified_ne_star table _)
  | call => exact iff_of_false (call_ne_star _ _) (call_ne_star _ _)

omit same in
theorem outputs_renamed (renamed : q.Renamed c (qualified table c) q') (s : Schema) :
    List.Forall₂ (Renames c (qualified table c)) (q.outputs s) (q'.outputs s) := by
  have columns := renamed.columns
  have star : q.columns = [[42]] ↔ q'.columns = [[42]] := forall₂_eq_singleton columns fun _ _ => naming.renames_star
  unfold Select.outputs
  by_cases all : q.columns = [[42]]
  · rw [if_pos all,if_pos (star.mp all)]
    exact List.forall₂_same.mpr fun expr _ => .same expr
  · rw [if_neg all,if_neg fun all' => all (star.mpr all')]
    exact columns

end Naming

def SameEntries (columns columns' : List Bytes) (row row' : Row) : Prop :=
  ∀ pair ∈ columns.zip columns', row.get pair.1 = row'.get pair.2

section Rows

variable {rows : List Row} {columns : List Bytes} {start out : Row}

theorem lookup_aggregated_none (done : columns.foldlM (aggregateColumn rows) start = .ok out) {name : Bytes}
    (value : entryValue rows name = .ok none) : out.lookup name = start.lookup name := by
  induction columns generalizing start with
  | nil => rw [← Except.ok.inj done]
  | cons expr columns ih =>
    obtain ⟨v,value',done⟩ := aggregated_cons.mp done
    rw [ih done]
    by_cases same : name = expr
    · subst same
      obtain rfl := Except.ok.inj (value.symm.trans value')
      rfl
    · exact lookup_entry_other v same

theorem lookup_groups_other (f : Bytes → Value) {groups : List Bytes} (start : Row) {c : Bytes} (absent : c ∉ groups) :
    (groups.foldl (fun out c => out.insert c (f c)) start).lookup c = start.lookup c := by
  induction groups generalizing start with
  | nil => rfl
  | cons g groups ih =>
    rw [List.foldl_cons,ih _ fun later => absent (List.mem_cons_of_mem g later),SortedMap.lookup_insert,
      if_neg fun same : c = g => absent (same ▸ List.mem_cons_self)]

theorem aggregateRow_succeeds_iff (columns groups : List Bytes) (rows : List Row) :
    (∃ out, aggregateRow columns groups rows = .ok out) ↔ ∀ expr ∈ columns, ∃ v, entryValue rows expr = .ok v :=
  aggregated_succeeds columns _

theorem paren_of_entryValue (value : entryValue rows expr = .ok none) : 40 ∈ expr := by
  by_contra plain
  cases rows with
  | nil =>
    unfold entryValue aggregateColumn at value
    rw [findIdx_paren plain] at value
    cases value
  | cons first rest =>
    rw [entryValue_plain plain] at value
    cases value

end Rows

namespace Naming

variable {c table : Bytes} (naming : Naming c table) {rows : List Row}
  (same : ∀ r ∈ rows, r.get (qualified table c) = r.get c) {columns columns' groups groups' : List Bytes}
  (listed : List.Forall₂ (Renames c (qualified table c)) columns columns')
  (grouped : List.Forall₂ (fun g g' => g' = g ∨ g = c ∧ g' = qualified table c) groups groups')

include naming

theorem renames_none (renames : Renames c (qualified table c) expr expr') (value : entryValue rows expr = .ok none) :
    expr' = expr := by
  cases renames with
  | same => rfl
  | column => exact absurd (paren_of_entryValue value) naming.plain
  | call plain =>
    rw [entryValue_call plain,naming.trim,if_neg naming.star] at value
    generalize aggregateValue _ _ = result at value
    cases result with
    | error => cases value
    | ok => cases value

include grouped in
theorem mem_groups_iff (paren : 40 ∈ expr) : expr ∈ groups ↔ expr ∈ groups' := by
  induction grouped with
  | nil => rfl
  | @cons g g' groups groups' first rest ih =>
    rw [List.mem_cons,List.mem_cons,ih]
    apply or_congr_left
    rcases first with rfl | ⟨rfl,rfl⟩
    · rfl
    · exact iff_of_false (fun same => naming.plain (same ▸ paren)) fun same => naming.plain_qualified (same ▸ paren)

include same listed grouped in
theorem aggregateRow_renamed :
    Agree (SameEntries columns columns') (aggregateRow columns groups rows) (aggregateRow columns' groups' rows) := by
  have entries {expr expr' : Bytes} (renames : Renames c (qualified table c) expr expr') (v : Option Value) :
      entryValue rows expr = .ok v ↔ entryValue rows expr' = .ok v := (naming.entryValue_renames same renames).ok_iff
  -- Both rows are made, or neither is.
  have succeeds : (∃ out, aggregateRow columns groups rows = .ok out) ↔ ∃ out, aggregateRow columns' groups' rows = .ok out := by
    rw [aggregateRow_succeeds_iff,aggregateRow_succeeds_iff]
    exact forall_mem_iff_of_forall₂ (fun _ _ renames => exists_congr (entries renames)) listed
  cases made : aggregateRow columns groups rows with
  | error e =>
    cases made' : aggregateRow columns' groups' rows with
    | error e' => exact .error e e'
    | ok out' =>
      obtain ⟨out,done⟩ := succeeds.mpr ⟨out',made'⟩
      rw [made] at done
      cases done
  | ok out =>
    obtain ⟨out',made'⟩ := succeeds.mp ⟨out,made⟩
    rw [made']
    refine .ok fun ⟨expr,expr'⟩ member => ?_
    obtain ⟨first,second⟩ := List.of_mem_zip member
    obtain ⟨v,value⟩ := (aggregateRow_succeeds_iff columns groups rows).mp ⟨out,made⟩ expr first
    have renames := (List.forall₂_iff_zip.mp listed).2 member
    have value' := (entries renames v).mp value
    cases v with
    | some v => rw [Row.get,Row.get,lookup_aggregated made first value,lookup_aggregated made' second value']
    | none =>
      obtain rfl := naming.renames_none renames value
      rw [Row.get,Row.get,lookup_aggregated_none made value,lookup_aggregated_none made' value']
      cases rows with
      | nil => rfl
      | cons row rest =>
        have both := naming.mem_groups_iff grouped (paren_of_entryValue value)
        dsimp only
        by_cases inside : expr' ∈ groups
        · rw [lookup_groups row.get ∅ inside,lookup_groups row.get ∅ (both.mp inside)]
        · rw [lookup_groups_other row.get ∅ inside,lookup_groups_other row.get ∅ fun other => inside (both.mpr other)]

end Naming

def Select.keys (q : Select) (s : Schema) (filtered : List Row) : List Bytes :=
  let order := groupOrder (filtered.map (groupKey isPrint q.groupBy))
  if order = [] ∧ (q.outputs s).any isAggregate ∧ q.groupBy = [] then [[]] else order

def Select.groupRows (q : Select) (s : Schema) (filtered : List Row) : Except Error (List Row) :=
  match q.groupBy.find? fun c => filtered.any fun r => lookup r c = .nil with
  | some c => .error (.unknownColumn c)
  | none => (q.keys s filtered).mapM fun key =>
      aggregateRow (q.outputs s) q.groupBy (filtered.filter fun r => groupKey isPrint q.groupBy r = key)

theorem finishSelect_groupRows {s : Schema} (groups : ((q.outputs s).any isAggregate || q.groupBy != []) = true)
    (rows : List Row) : finishSelect s q rows =
      q.groupRows s (rows.filter (matchRow q.condition)) >>= fun out => applyPagingAndOrder ⟨q.outputs s,out,0⟩ q := by
  have outputs : (if q.columns = [[42]] then s.columns.map Column.name else q.columns) = q.outputs s := rfl
  unfold finishSelect Select.groupRows
  rw [outputs]
  dsimp only
  cases q.groupBy.find? fun c => (rows.filter (matchRow q.condition)).any fun r => lookup r c = .nil with
  | some c => rfl
  | none =>
    dsimp only
    rw [if_pos groups]
    rfl

theorem applyPaging_forall₂ {R : Row → Row → Prop} (unordered : q.orderBy = [])
    (unordered' : q'.orderBy = []) (limit : q'.limit = q.limit) (offset : q'.offset = q.offset) {out out' : Result}
    (related : List.Forall₂ R out.rows out'.rows) :
    Agree (fun page page' => List.Forall₂ R page.rows page'.rows) (applyPagingAndOrder out q) (applyPagingAndOrder out' q') := by
  unfold applyPagingAndOrder
  dsimp only
  rw [if_pos unordered,if_pos unordered',limit,offset,related.length_eq]
  apply Agree.ite
  · exact .error _ _
  · exact .ok (List.forall₂_drop _ (List.forall₂_take _ related))

namespace Naming

variable {c table : Bytes} (naming : Naming c table)

include naming

theorem lookup_bare (r : Row) : lookup r c = r.get c := by
  have bare : afterPoint c = none := afterPoint_plain fun member => (naming.column 46 member).2.1 rfl
  rw [lookup,lookupColumn,Row.get,bare]
  cases r.lookup c <;> rfl

theorem lookup_qualified_eq {r : Row} (same : r.get (qualified table c) = r.get c) :
    lookup r (qualified table c) = lookup r c := by
  have stripped : afterPoint (qualified table c) = some c :=
    afterPoint_qualified (fun member => (naming.owner 46 member).2.1 rfl) c
  rw [naming.lookup_bare,lookup,lookupColumn,stripped]
  cases found : r.lookup (qualified table c) with
  | some v =>
    rw [← same,Row.get,found]
  | none => rfl

variable {q q' : Select} (renamed : q.Renamed c (qualified table c) q') (s : Schema) {filtered : List Row}
  (same : ∀ r ∈ filtered, r.get (qualified table c) = r.get c)

include renamed same

omit same in
theorem aggregates_renamed : (q'.outputs s).any isAggregate = (q.outputs s).any isAggregate :=
  any_eq_of_forall₂ (p := isAggregate) (q := isAggregate) (fun _ _ => naming.isAggregate_renames)
    (naming.outputs_renamed renamed s)

theorem keys_renamed : q'.keys s filtered = q.keys s filtered := by
  have keys : filtered.map (groupKey isPrint q'.groupBy) = filtered.map (groupKey isPrint q.groupBy) :=
    List.map_congr_left fun r member => naming.groupKey_renamed same renamed.groupBy member
  unfold Select.keys
  rw [keys,naming.aggregates_renamed renamed s]
  simp only [renamed.groupBy_nil]

theorem find_renamed :
    (q.groupBy.find? fun c => filtered.any fun r => lookup r c = .nil) = none ↔
      (q'.groupBy.find? fun c => filtered.any fun r => lookup r c = .nil) = none := by
  rw [List.find?_eq_none,List.find?_eq_none]
  refine forall_mem_iff_of_forall₂ (fun g g' either => not_congr ?_) renamed.groupBy
  rw [List.any_eq_true,List.any_eq_true]
  refine exists_congr fun r => and_congr_right fun member => ?_
  rcases either with rfl | ⟨rfl,rfl⟩
  · rfl
  · rw [naming.lookup_qualified_eq (same r member)]

theorem groupRows_renamed :
    Agree (List.Forall₂ (SameEntries (q.outputs s) (q'.outputs s))) (q.groupRows s filtered) (q'.groupRows s filtered) := by
  have check := naming.find_renamed renamed same
  unfold Select.groupRows
  rw [naming.keys_renamed renamed s same]
  cases found : q.groupBy.find? fun c => filtered.any fun r => lookup r c = .nil with
  | some g =>
    cases found' : q'.groupBy.find? fun c => filtered.any fun r => lookup r c = .nil with
    | some g' => exact .error _ _
    | none =>
      rw [check.mpr found'] at found
      cases found
  | none =>
    rw [check.mp found]
    apply Agree.mapM
    intro key _
    have group : (filtered.filter fun r => groupKey isPrint q'.groupBy r = key) =
        filtered.filter fun r => groupKey isPrint q.groupBy r = key := by
      apply List.filter_congr
      intro r member
      rw [naming.groupKey_renamed same renamed.groupBy member]
    rw [group]
    exact naming.aggregateRow_renamed (fun r member => same r (List.mem_of_mem_filter member))
      (naming.outputs_renamed renamed s) renamed.groupBy

end Naming

namespace Sample

def counted (name : String) : Select :=
  ⟨[ascii name,call (ascii "COUNT") (ascii name)],ascii "u",none,[],false,-1,0,[ascii name],[],[],[]⟩

def joinedPair : Row := mergeRows .stored (ascii "c") (Table.pair 1 5) (Table.pair 2 5)

def twoValues : Executor := (server [(1,create "u" .int),(1,insert "u" 1 (.int 5)),(1,insert "u" 2 (.int 7))]).executor 1

end Sample

end GoDb
