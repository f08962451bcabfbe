import GoDb.AlterMeaning
import GoDb.GroupNames
import GoDb.Parser

/-! What a query with groups can fail with. The check of GROUP BY takes a NULL for an unknown column, and it asks the rows
that are left and not the schema. An entry of the select list is cut at its parenthesis wherever it comes from. -/
namespace GoDb
open Foundation Results

def Cut (expr : Bytes) : Prop := ∃ name : Bytes, 40 ∉ name ∧ expr = name ++ [40]

theorem cut_iff (expr : Bytes) :
    (∃ opened, expr.findIdx? (· == 40) = some opened ∧ expr.length - 1 < opened + 1) ↔ Cut expr := by
  constructor
  · intro ⟨opened,found,short⟩
    obtain ⟨inside,paren,before⟩ := List.findIdx?_eq_some_iff_getElem.mp found
    refine ⟨expr.take opened,fun member => ?_,?_⟩
    · obtain ⟨i,small,there⟩ := List.mem_take_iff_getElem.mp member
      exact before i (by omega) (beq_iff_eq.mpr there)
    · have last : expr.drop opened = [40] := by
        rw [List.drop_eq_getElem_cons inside,beq_iff_eq.mp paren,List.drop_eq_nil_of_le (by omega)]
      rw [← last,List.take_append_drop]
  · rintro ⟨name,plain,rfl⟩
    refine ⟨name.length,?_,?_⟩
    · rw [List.findIdx?_append,findIdx_paren plain]
      simp
    · rw [List.length_append,List.length_singleton]
      omega

variable {expr : Bytes} {e : Error} {columns : List Bytes}

theorem sumFrom_error {sum : UInt64} {vals : List Value} (failed : sumFrom expr sum vals = .error e) :
    e = .aggregateNumeric expr ∧ ∃ v ∈ vals, v.number = none := by
  induction vals generalizing sum with
  | nil => cases failed
  | cons v vals ih =>
    rw [sumFrom] at failed
    cases number : v.number with
    | none =>
      rw [number] at failed
      exact ⟨(Except.error.inj failed).symm,v,List.mem_cons_self,number⟩
    | some n =>
      rw [number] at failed
      obtain ⟨same,w,member,text⟩ := ih failed
      exact ⟨same,w,List.mem_cons_of_mem v member,text⟩

theorem aggregateValue_error {vals : List Value} (failed : aggregateValue expr vals = .error e) :
    e = .aggregateNumeric expr ∧ ∃ v ∈ vals, v.number = none := by
  cases vals with
  | nil =>
    unfold aggregateValue at failed
    dsimp only at failed
    split_ifs at failed
  | cons first rest =>
    unfold aggregateValue at failed
    dsimp only at failed
    by_cases counts : (ascii "COUNT").isPrefixOf (toUpper expr) = true
    · rw [if_pos counts] at failed
      cases failed
    · rw [if_neg counts] at failed
      by_cases picks : ((ascii "MIN").isPrefixOf (toUpper expr) || (ascii "MAX").isPrefixOf (toUpper expr)) = true
      · rw [if_pos picks] at failed
        cases failed
      · rw [if_neg picks] at failed
        cases sum : sumFrom expr 0 (first::rest) with
        | error e' =>
          rw [sum] at failed
          rw [← Except.error.inj failed]
          exact sumFrom_error sum
        | ok total =>
          rw [sum] at failed
          change (if _ then _ else _) = _ at failed
          split_ifs at failed

theorem entryValue_error {rows : List Row} (failed : entryValue rows expr = .error e) :
    e = .groupColumn expr ∧ rows = [] ∨
      e = .aggregateNumeric expr ∧ (∃ r ∈ rows, ∃ c, r.get c ≠ .nil ∧ (r.get c).number = none) ∨
      e = .panics ∧ Cut expr := by
  unfold entryValue aggregateColumn at failed
  cases found : expr.findIdx? (· == 40) with
  | none =>
    rw [found] at failed
    cases rows with
    | nil => exact .inl ⟨(Except.error.inj failed).symm,rfl⟩
    | cons => cases failed
  | some opened =>
    rw [found] at failed
    dsimp only at failed
    split_ifs at failed with cut star counts
    · exact .inr (.inr ⟨(Except.error.inj failed).symm,(cut_iff expr).mp ⟨opened,found,cut⟩⟩)
    · cases failed
    · cases failed
    · generalize trimSpace ((expr.take (expr.length - 1)).drop (opened + 1)) = column at failed
      cases value : aggregateValue expr ((rows.map (·.get column)).filter (· != .nil)) with
      | error e' =>
        rw [value] at failed
        obtain ⟨same,v,member,text⟩ := aggregateValue_error value
        obtain ⟨there,some⟩ := List.mem_filter.mp member
        obtain ⟨r,inside,rfl⟩ := List.mem_map.mp there
        exact .inr (.inl ⟨(Except.error.inj failed).symm.trans same,r,inside,column,bne_iff_ne.mp some,text⟩)
      | ok v =>
        rw [value] at failed
        cases failed

theorem aggregateRow_error {groups : List Bytes} {rows : List Row}
    (failed : aggregateRow columns groups rows = .error e) : ∃ expr ∈ columns, entryValue rows expr = .error e := by
  obtain ⟨expr,member,out,here⟩ := foldlM_error failed
  rw [aggregateColumn_eq] at here
  cases value : entryValue rows expr with
  | error e' =>
    rw [value] at here
    exact ⟨expr,member,value.trans (congrArg _ (Except.error.inj here))⟩
  | ok v =>
    rw [value] at here
    cases here

/-- A column of the schema, or one with a name and a point in front. -/
def Schema.Known (s : Schema) (name : Bytes) : Prop :=
  name ∈ s.columns.map Column.name ∨ ∃ bare, afterPoint name = some bare ∧ bare ∈ s.columns.map Column.name

def Missing (groups : List Bytes) (rows : List Row) : Prop := ∃ c ∈ groups, ∃ r ∈ rows, lookup r c = .nil

theorem groupRows_unknown_iff (q : Select) (s : Schema) (rows : List Row) :
    (∃ c, q.groupRows s rows = .error (.unknownColumn c)) ↔ Missing q.groupBy rows := by
  unfold Select.groupRows
  cases found : q.groupBy.find? fun c => rows.any fun r => lookup r c = .nil with
  | some c =>
    have some := List.find?_some found
    obtain ⟨r,member,null⟩ := List.any_eq_true.mp some
    exact iff_of_true ⟨c,rfl⟩ ⟨c,List.mem_of_find?_eq_some found,r,member,of_decide_eq_true null⟩
  | none =>
    apply iff_of_false
    · intro ⟨c,failed⟩
      obtain ⟨key,-,failed⟩ := mapM_error failed
      obtain ⟨expr,-,failed⟩ := aggregateRow_error failed
      rcases entryValue_error failed with ⟨same,-⟩ | ⟨same,-⟩ | ⟨same,-⟩ <;> cases same
    · intro ⟨c,listed,r,member,null⟩
      apply List.find?_eq_none.mp found c listed
      exact List.any_eq_true.mpr ⟨r,member,decide_eq_true null⟩

theorem applyPagingAndOrder_error {out : Result} {q : Select} (failed : applyPagingAndOrder out q = .error e) :
    e = .panics := by
  unfold applyPagingAndOrder at failed
  dsimp only at failed
  split_ifs at failed
  all_goals exact (Except.error.inj failed).symm

theorem finishSelect_unknown_iff {q : Select} (grouped : q.groupBy ≠ []) (s : Schema) (rows : List Row) :
    (∃ c, finishSelect s q rows = .error (.unknownColumn c)) ↔ Missing q.groupBy (rows.filter (matchRow q.condition)) := by
  have groups : ((q.outputs s).any isAggregate || q.groupBy != []) = true := by
    rw [bne_iff_ne.mpr grouped,Bool.or_true]
  rw [finishSelect_groupRows groups,← groupRows_unknown_iff q s]
  apply exists_congr
  intro c
  cases made : q.groupRows s (rows.filter (matchRow q.condition)) with
  | error e => exact ⟨fun failed => congrArg _ (Except.error.inj failed),fun failed => congrArg _ (Except.error.inj failed)⟩
  | ok out =>
    apply iff_of_false
    · intro failed
      cases applyPagingAndOrder_error failed
    · intro failed
      cases failed

section Known

variable {s : Schema} {row : Row} (distinct : (s.columns.map Column.name).Nodup) (held : s.stored row = row)

include distinct held

theorem lookup_isSome_of_stored (name : Bytes) : (row.lookup name).isSome ↔ name ∈ s.columns.map Column.name := by
  constructor
  · intro some
    obtain ⟨c,member,rfl⟩ := Schema.name_of_stored distinct held (Option.isSome_iff_ne_none.mp some)
    exact List.mem_map_of_mem member
  · intro listed
    obtain ⟨c,member,rfl⟩ := List.mem_map.mp listed
    rw [Schema.lookup_of_stored distinct held member]
    rfl

theorem lookupColumn_isSome_iff (name : Bytes) : (lookupColumn row name).isSome ↔ s.Known name := by
  have plain := lookup_isSome_of_stored distinct held name
  unfold lookupColumn Schema.Known
  rw [← plain]
  cases row.lookup name with
  | some v => exact iff_of_true rfl (.inl rfl)
  | none =>
    cases afterPoint name with
    | none => simp
    | some bare => simpa using lookup_isSome_of_stored distinct held bare

end Known

/-- The check asks for a NULL, and so it finds the unknown names exactly if there is a row to find them in and no
NULL in the known columns. -/
theorem unknown_group_column_iff {s : Schema} (distinct : (s.columns.map Column.name).Nodup) {q : Select}
    (grouped : q.groupBy ≠ []) {rows : List Row} (held : ∀ r ∈ rows, s.stored r = r) :
    let unknown := ∃ c ∈ q.groupBy, ¬s.Known c
    let filtered := rows.filter (matchRow q.condition)
    ((∃ c, finishSelect s q rows = .error (.unknownColumn c)) ↔ unknown) ↔
      (unknown → filtered ≠ []) ∧ (¬unknown → ¬Missing q.groupBy filtered) := by
  intro unknown filtered
  rw [finishSelect_unknown_iff grouped]
  constructor
  · intro exact
    constructor
    · intro some empty
      obtain ⟨c,-,r,member,-⟩ := exact.mpr some
      exact List.ne_nil_of_mem member empty
    · intro none missing
      exact none (exact.mp missing)
  · intro ⟨left,whole⟩
    constructor
    · intro missing
      by_contra none
      exact whole none missing
    · intro some
      obtain ⟨c,listed,other⟩ := id some
      obtain ⟨r,member⟩ := List.exists_mem_of_ne_nil filtered (left some)
      refine ⟨c,listed,r,member,?_⟩
      have absent : lookupColumn r c = none := by
        rw [← Option.not_isSome_iff_eq_none,lookupColumn_isSome_iff distinct (held r (List.mem_of_mem_filter member))]
        exact other
      rw [lookup,absent]
      rfl

namespace Sample

def grouped (column : String) : Select :=
  ⟨[ascii column],ascii "u",none,[],false,-1,0,[ascii column],[],[],[]⟩

end Sample

theorem unknown_group_column_pair :
    ((∃ c, finishSelect ⟨[⟨ascii "id",.int⟩,⟨ascii "a",.int⟩],∅⟩ (Sample.grouped "b") [Table.pair 1 5] =
        .error (.unknownColumn c)) ↔
      ∃ c ∈ (Sample.grouped "b").groupBy, ¬Schema.Known ⟨[⟨ascii "id",.int⟩,⟨ascii "a",.int⟩],∅⟩ c) := by
  apply (unknown_group_column_iff (by decide) (by decide) (List.forall_mem_singleton.mpr (by decide +kernel))).mpr
  refine ⟨fun _ => by decide +kernel,fun known => absurd ⟨ascii "b",by decide,?_⟩ known⟩
  rintro (listed | ⟨bare,after,-⟩)
  · exact absurd listed (by decide)
  · cases after

/-- A NULL is an unknown column, and an unknown column of an empty table is none. -/
theorem unknown_group_column_null :
    let e (rows : List (Int64 × Value)) :=
      (Sample.server ((1,Sample.create "u" .int)::rows.map fun (id,a) => (1,Sample.insert "u" id a))).executor 1
    (e [(1,.int 5),(2,.nil)]).selectRows .stored (Sample.grouped "a") = .error (.unknownColumn (ascii "a")) ∧
      (e []).selectRows .stored (Sample.grouped "b") = .ok ⟨[ascii "b"],[],0⟩ := by
  decide +kernel

/-! The entries of the select list. -/

theorem entryValue_cut (cut : Cut expr) (rows : List Row) : entryValue rows expr = .error .panics := by
  obtain ⟨opened,found,short⟩ := (cut_iff expr).mpr cut
  unfold entryValue aggregateColumn
  rw [found]
  dsimp only
  rw [if_pos short]
  rfl

def Row.ones (columns : List Bytes) : Row := columns.foldl (fun r c => r.insert c (.int 1)) ∅

theorem lookup_ones {c : Bytes} (member : c ∈ columns) : (Row.ones columns).lookup c = some (.int 1) :=
  lookup_groups (fun _ => .int 1) ∅ member

theorem get_ones (columns : List Bytes) (c : Bytes) :
    (Row.ones columns).get c = .nil ∨ (Row.ones columns).get c = .int 1 := by
  by_cases member : c ∈ columns
  · exact .inr (by rw [Row.get,lookup_ones member]; rfl)
  · refine .inl ?_
    have absent : (Row.ones columns).lookup c = none := lookup_groups_other (fun _ => .int 1) ∅ member
    rw [Row.get,absent]
    rfl

theorem entryValue_ones (failed : entryValue [Row.ones columns] expr = .error e) : e = .panics := by
  rcases entryValue_error failed with ⟨-,none⟩ | ⟨-,r,member,c,some,text⟩ | ⟨same,-⟩
  · cases none
  · obtain rfl := List.mem_singleton.mp member
    rcases get_ones columns c with null | one
    · exact absurd null some
    · rw [one] at text
      cases text
  · exact same

theorem aggregateRow_ones {groups : List Bytes} (member : expr ∈ columns) (cut : Cut expr) :
    aggregateRow columns groups [Row.ones groups] = .error .panics := by
  cases made : aggregateRow columns groups [Row.ones groups] with
  | error e =>
    obtain ⟨entry,-,failed⟩ := aggregateRow_error made
    rw [entryValue_ones failed]
  | ok out =>
    obtain ⟨v,value⟩ := (aggregateRow_succeeds_iff columns groups _).mp ⟨out,made⟩ expr member
    rw [entryValue_cut cut] at value
    cases value

theorem keys_single (q : Select) (s : Schema) (r : Row) : q.keys s [r] = [groupKey isPrint q.groupBy r] := rfl

theorem groupRows_panics_iff (q : Select) (s : Schema) :
    (∀ rows, q.groupRows s rows ≠ .error .panics) ↔ ∀ expr ∈ q.outputs s, ¬Cut expr := by
  constructor
  · intro safe expr member cut
    apply safe [Row.ones q.groupBy]
    have all : (q.groupBy.find? fun c => [Row.ones q.groupBy].any fun r => lookup r c = .nil) = none := by
      rw [List.find?_eq_none]
      intro c listed missing
      obtain ⟨r,single,null⟩ := List.any_eq_true.mp missing
      obtain rfl := List.mem_singleton.mp single
      rw [decide_eq_true_eq,lookup,lookupColumn,lookup_ones listed] at null
      cases null
    have group : ([Row.ones q.groupBy].filter fun r =>
        groupKey isPrint q.groupBy r = groupKey isPrint q.groupBy (Row.ones q.groupBy)) =
        [Row.ones q.groupBy] := List.filter_eq_self.mpr (List.forall_mem_singleton.mpr (decide_eq_true rfl))
    unfold Select.groupRows
    rw [all]
    dsimp only
    rw [keys_single,List.mapM_cons,group,aggregateRow_ones member cut]
    rfl
  · intro whole rows failed
    unfold Select.groupRows at failed
    split at failed
    · cases failed
    · obtain ⟨key,-,failed⟩ := mapM_error failed
      obtain ⟨expr,member,failed⟩ := aggregateRow_error failed
      rcases entryValue_error failed with ⟨same,-⟩ | ⟨same,-⟩ | ⟨-,cut⟩
      · cases same
      · cases same
      · exact whole expr member cut

end GoDb
