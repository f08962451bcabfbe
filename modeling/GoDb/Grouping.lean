import GoDb.DecimalText
import GoDb.Query
import GoDb.Foundation.Groups
import GoDb.Foundation.Results

/-! What GROUP BY and the aggregates compute. The key of a group is a text; for integers, booleans
and strings it says which values it was made of, so the groups are those of equal values. -/
namespace GoDb
open Foundation Results

theorem append_bar_inj {s t rest rest' : Bytes} (plain : 124 ∉ s) (plain' : 124 ∉ t)
    (same : s ++ 124::rest = t ++ 124::rest') : s = t ∧ rest = rest' := by
  induction s generalizing t with
  | nil =>
    cases t with
    | nil => exact ⟨rfl,(List.cons.inj same).2⟩
    | cons d t => exact absurd ((List.cons.inj same).1 ▸ List.mem_cons_self) plain'
  | cons c s ih =>
    cases t with
    | nil => exact absurd ((List.cons.inj same).1 ▸ List.mem_cons_self) plain
    | cons d t =>
      obtain ⟨rfl,tails⟩ := List.cons.inj same
      obtain ⟨rfl,rests⟩ := ih (fun there => plain (List.mem_cons_of_mem c there))
        (fun there => plain' (List.mem_cons_of_mem c there)) tails
      exact ⟨rfl,rests⟩

variable {v w : Value} {expr name : Bytes} {o : Ordering}

namespace Value

def Groupable : Value → Prop
  | .int _ => True
  | .bool _ => True
  | .string _ => True
  | _ => False

instance : DecidablePred Groupable
  | .int _ => .isTrue trivial
  | .bool _ => .isTrue trivial
  | .string _ => .isTrue trivial
  | .nil => .isFalse id
  | .float _ => .isFalse id
  | .bytes _ => .isFalse id
  | .time _ => .isFalse id
  | .parameter _ => .isFalse id

def Word : Value → Prop
  | .int _ => True
  | .bool _ => True
  | _ => False

theorem mem_sprint_int {i : Int64} {c : UInt8} (member : c ∈ (Value.int i).sprint) : c = 45 ∨ Time.isDigit c = true := by
  change c ∈ if i.toInt < 0 then _ else _ at member
  split_ifs at member with negative
  · exact (List.mem_cons.mp member).imp_right decimal_digits
  · exact .inr (decimal_digits member)

theorem sprint_int_ne_bool {i : Int64} {b : Bool} : (Value.int i).sprint ≠ (Value.bool b).sprint := by
  intro same
  -- Both words have an `e`.
  have member : 101 ∈ (Value.bool b).sprint := by cases b <;> decide
  rcases mem_sprint_int (same ▸ member) with sign | digit
  · cases sign
  · cases digit

theorem sprint_inj (word : v.Word) (word' : w.Word) (same : v.sprint = w.sprint) : v = w := by
  cases v with
  | int i =>
    cases w with
    | int j =>
      have parsed := congrArg atoi same
      unfold sprint at parsed
      rw [atoi_decimalInt,atoi_decimalInt] at parsed
      rw [Except.ok.inj parsed]
    | bool => exact absurd same sprint_int_ne_bool
    | _ => exact word'.elim
  | bool b =>
    cases w with
    | int => exact absurd same.symm sprint_int_ne_bool
    | bool d =>
      cases b <;> cases d
      · rfl
      · exact absurd same (by decide)
      · exact absurd same (by decide)
      · rfl
    | _ => exact word'.elim
  | _ => exact word.elim

theorem sprint_plain (word : v.Word) : 124 ∉ v.sprint ∧ 34 ∉ v.sprint ∧ v.sprint ≠ [] := by
  cases v with
  | int i =>
    have plain (c : UInt8) (other : c ≠ 45 ∧ Time.isDigit c = false) : c ∉ (Value.int i).sprint := by
      intro member
      rcases mem_sprint_int member with sign | digit
      · exact other.1 sign
      · rw [other.2] at digit
        cases digit
    refine ⟨plain 124 (by decide),plain 34 (by decide),?_⟩
    change (if i.toInt < 0 then _ else _) ≠ []
    split_ifs with negative
    · exact List.cons_ne_nil _ _
    · exact decimal_ne_nil _
  | bool b => cases b <;> decide
  | _ => exact word.elim

variable (isPrint : Nat → Bool)

theorem goSyntax_word (word : v.Word) : v.goSyntax isPrint = v.sprint := by
  cases v with
  | int => rfl
  | bool => rfl
  | _ => exact word.elim

theorem word_or_string (groupable : v.Groupable) : v.Word ∨ ∃ s, v = .string s := by
  cases v with
  | int => exact .inl trivial
  | bool => exact .inl trivial
  | string s => exact .inr ⟨s,rfl⟩
  | _ => exact groupable.elim

theorem goSyntax_word_ne_string (word : v.Word) {s rest rest' : Bytes} :
    v.goSyntax isPrint ++ rest ≠ (Value.string s).goSyntax isPrint ++ rest' := by
  intro same
  obtain ⟨-,unquoted,some⟩ := sprint_plain word
  obtain ⟨c,text,eq⟩ := List.exists_cons_of_ne_nil some
  rw [goSyntax_word isPrint word,eq] at same
  rw [eq] at unquoted
  exact unquoted ((List.cons.inj same).1 ▸ List.mem_cons_self)

theorem goSyntax_append_inj (groupable : v.Groupable) (groupable' : w.Groupable) {rest rest' : Bytes}
    (same : v.goSyntax isPrint ++ 124::rest = w.goSyntax isPrint ++ 124::rest') : v = w ∧ rest = rest' := by
  rcases word_or_string groupable with word | ⟨s,rfl⟩
  · rcases word_or_string groupable' with word' | ⟨t,rfl⟩
    · rw [goSyntax_word isPrint word,goSyntax_word isPrint word'] at same
      obtain ⟨texts,rests⟩ := append_bar_inj (sprint_plain word).1 (sprint_plain word').1 same
      exact ⟨sprint_inj word word' texts,rests⟩
    · exact absurd same (goSyntax_word_ne_string isPrint word)
  · rcases word_or_string groupable' with word' | ⟨t,rfl⟩
    · exact absurd same.symm (goSyntax_word_ne_string isPrint word')
    · obtain ⟨strings,bars⟩ := Quoting.quote_append_inj isPrint same
      exact ⟨congrArg _ strings,(List.cons.inj bars).2⟩

end Value

theorem groupKey_eq_iff (isPrint : Nat → Bool) {columns : List Bytes} {r r' : Row}
    (values : ∀ c ∈ columns, (r.get c).Groupable) (values' : ∀ c ∈ columns, (r'.get c).Groupable) :
    groupKey isPrint columns r = groupKey isPrint columns r' ↔ columns.map r.get = columns.map r'.get := by
  induction columns with
  | nil => exact iff_of_true rfl rfl
  | cons c columns ih =>
    obtain ⟨here,later⟩ := List.forall_mem_cons.mp values
    obtain ⟨here',later'⟩ := List.forall_mem_cons.mp values'
    have unfolded (r : Row) : groupKey isPrint (c::columns) r =
        (r.get c).goSyntax isPrint ++ 124::groupKey isPrint columns r := by
      rw [groupKey,List.flatMap_cons,List.append_assoc]
      rfl
    rw [unfolded,unfolded,List.map_cons,List.map_cons,List.cons.injEq,← ih later later']
    constructor
    · exact Value.goSyntax_append_inj isPrint here here'
    · rintro ⟨first,rest⟩
      rw [first,rest]

/-! The entries of a select list. -/

private theorem lookup_inserted (r : Row) (name : Bytes) (v : Value) : (r.insert name v).lookup name = some v := by
  rw [SortedMap.lookup_insert,if_pos rfl]

theorem findIdx_paren {s : Bytes} (plain : 40 ∉ s) : s.findIdx? (· == 40) = none := by
  rw [List.findIdx?_eq_none_iff]
  intro c member
  exact beq_eq_false_iff_ne.mpr fun same => plain (same ▸ member)

def entryValue (rows : List Row) (expr : Bytes) : Except Error (Option Value) :=
  (aggregateColumn rows ∅ expr).map (·.lookup expr)

theorem aggregateColumn_eq (rows : List Row) (out : Row) (expr : Bytes) :
    aggregateColumn rows out expr = (entryValue rows expr).map fun v => v.elim out (out.insert expr) := by
  unfold entryValue aggregateColumn
  cases expr.findIdx? (· == 40) with
  | none =>
    cases rows with
    | nil => rfl
    | cons first rows =>
      dsimp only [Except.map]
      rw [lookup_inserted]
      rfl
  | some opened =>
    dsimp only
    split_ifs with bad star count
    · rfl
    · dsimp only [Except.map]
      rw [lookup_inserted]
      rfl
    · rfl
    · cases aggregateValue expr
          ((rows.map (·.get (trimSpace ((expr.take (expr.length - 1)).drop (opened + 1))))).filter (· != .nil)) with
      | error => rfl
      | ok v =>
        dsimp only [Except.map]
        rw [lookup_inserted]
        rfl

variable {rows : List Row} {columns : List Bytes} {start out : Row}

theorem aggregated_cons : (expr::columns).foldlM (aggregateColumn rows) start = .ok out ↔
    ∃ v, entryValue rows expr = .ok v ∧
      columns.foldlM (aggregateColumn rows) (v.elim start (start.insert expr)) = .ok out := by
  rw [List.foldlM_cons,aggregateColumn_eq]
  cases entryValue rows expr with
  | error => exact iff_of_false (nomatch ·) fun ⟨_,value,_⟩ => nomatch value
  | ok v => exact ⟨fun done => ⟨v,rfl,done⟩,fun ⟨_,value,done⟩ => by cases value; exact done⟩

theorem lookup_entry_other (v : Option Value) (other : name ≠ expr) :
    (v.elim start (start.insert expr)).lookup name = start.lookup name := by
  cases v with
  | none => rfl
  | some v => exact (SortedMap.lookup_insert ..).trans (if_neg other)

theorem lookup_aggregated_other (done : columns.foldlM (aggregateColumn rows) start = .ok out)
    (absent : name ∉ columns) : out.lookup name = start.lookup name := by
  induction columns generalizing start with
  | nil => rw [← Except.ok.inj done]
  | cons expr columns ih =>
    obtain ⟨v,-,done⟩ := aggregated_cons.mp done
    rw [ih done fun later => absent (List.mem_cons_of_mem expr later)]
    exact lookup_entry_other v fun same => absent (same ▸ List.mem_cons_self)

theorem lookup_aggregated (done : columns.foldlM (aggregateColumn rows) start = .ok out) (member : name ∈ columns)
    (value : entryValue rows name = .ok (some v)) : out.lookup name = some v := by
  induction columns generalizing start with
  | nil => exact absurd member List.not_mem_nil
  | cons expr columns ih =>
    obtain ⟨v',value',done⟩ := aggregated_cons.mp done
    by_cases later : name ∈ columns
    · exact ih done later
    · obtain rfl : name = expr := (List.mem_cons.mp member).resolve_right later
      obtain rfl := Except.ok.inj (value.symm.trans value')
      rw [lookup_aggregated_other done later]
      exact lookup_inserted ..

theorem aggregated_succeeds (columns : List Bytes) (start : Row) :
    (∃ out, columns.foldlM (aggregateColumn rows) start = .ok out) ↔
      ∀ expr ∈ columns, ∃ v, entryValue rows expr = .ok v := by
  induction columns generalizing start with
  | nil => exact iff_of_true ⟨start,rfl⟩ (List.forall_mem_nil _)
  | cons expr columns ih =>
    rw [List.forall_mem_cons]
    constructor
    · rintro ⟨out,done⟩
      obtain ⟨v,value,done⟩ := aggregated_cons.mp done
      exact ⟨⟨v,value⟩,(ih _).mp ⟨out,done⟩⟩
    · rintro ⟨⟨v,value⟩,later⟩
      obtain ⟨out,done⟩ := (ih (v.elim start (start.insert expr))).mpr later
      exact ⟨out,aggregated_cons.mpr ⟨v,value,done⟩⟩

def call (name column : Bytes) : Bytes := name ++ 40::column ++ [41]

theorem entryValue_plain (plain : 40 ∉ expr) (first : Row) (rows : List Row) :
    entryValue (first::rows) expr = .ok (some (first.get expr)) := by
  rw [entryValue,aggregateColumn,findIdx_paren plain]
  exact congrArg Except.ok (lookup_inserted ..)

theorem entryValue_call (plain : 40 ∉ name) (column : Bytes) (rows : List Row) :
    entryValue rows (call name column) =
      if trimSpace column = [42] then
        if (ascii "COUNT").isPrefixOf (toUpper (call name column)) then .ok (some (.int (Int64.ofNat rows.length)))
        else .ok none
      else (aggregateValue (call name column) ((rows.map (·.get (trimSpace column))).filter (· != .nil))).map some := by
  have opened : (call name column).findIdx? (· == 40) = some name.length := by
    rw [call,List.append_assoc,List.findIdx?_append,findIdx_paren plain,List.cons_append,List.findIdx?_cons]
    simp
  have size : (call name column).length - 1 = (name ++ 40::column).length := by
    rw [call,List.length_append,List.length_singleton,Nat.add_sub_cancel]
  have inside : ((call name column).take (name ++ 40::column).length).drop (name.length + 1) = column := by
    rw [call,List.take_left,List.drop_append,List.drop_of_length_le (Nat.le_succ _)]
    simp
  have closed : ¬(name ++ 40::column).length < name.length + 1 := by
    rw [List.length_append,List.length_cons]
    omega
  unfold entryValue aggregateColumn
  rw [opened]
  dsimp only
  rw [size,inside,if_neg closed]
  split_ifs with star count
  · exact congrArg Except.ok (lookup_inserted _ _ _)
  · rfl
  · cases aggregateValue (call name column) ((rows.map (·.get (trimSpace column))).filter (· != .nil)) with
    | error => rfl
    | ok v => exact congrArg Except.ok (lookup_inserted _ _ v)

/-! Comparisons. Numbers are compared as numbers and all else by its text, so among values of one
kind the comparison is an order. -/

section Order

variable {α : Type} {less : α → α → Bool} (irrefl : ∀ a, less a a = false)
  (trans : ∀ a b c, less a b = true → less b c = true → less a c = true)

include irrefl in
theorem orderBy_self (a : α) : orderBy less a a = .eq := by
  rw [orderBy,irrefl]
  rfl

theorem orderBy_eq_lt {a b : α} : orderBy less a b = .lt ↔ less a b = true := by
  unfold orderBy
  split_ifs with below above
  · exact iff_of_true rfl below
  · exact iff_of_false (by decide) below
  · exact iff_of_false (by decide) below

include irrefl trans in
theorem orderBy_eq_gt {a b : α} : orderBy less a b = .gt ↔ less b a = true := by
  unfold orderBy
  split_ifs with below above
  · refine iff_of_false (by decide) fun above => ?_
    have both := trans a b a below above
    rw [irrefl] at both
    cases both
  · exact iff_of_true rfl above
  · exact iff_of_false (by decide) above

include irrefl trans in
theorem orderBy_trans (strict : o ≠ .eq) {a b c : α} (first : orderBy less a b = o) (second : orderBy less b c = o) :
    orderBy less a c = o := by
  cases o with
  | eq => exact absurd rfl strict
  | lt =>
    rw [orderBy_eq_lt] at first second ⊢
    exact trans a b c first second
  | gt =>
    rw [orderBy_eq_gt irrefl trans] at first second ⊢
    exact trans c b a second first

end Order

theorem textLess_irrefl (s : Bytes) : decide (s < s) = false := decide_eq_false (lt_irrefl s)

theorem textLess_trans (s t u : Bytes) (first : decide (s < t) = true) (second : decide (t < u) = true) :
    decide (s < u) = true :=
  decide_eq_true (lt_trans (of_decide_eq_true first) (of_decide_eq_true second))

namespace Value

theorem less_irrefl (x : UInt64) : Binary64.less x x = false := by
  simp [Binary64.less]

theorem less_trans (x y z : UInt64) (first : Binary64.less x y = true) (second : Binary64.less y z = true) :
    Binary64.less x z = true := by
  simp only [Binary64.less,Bool.and_eq_true,decide_eq_true_eq] at first second ⊢
  exact ⟨⟨first.1.1,second.1.2⟩,lt_trans first.2 second.2⟩

theorem compare_text (left : v.number = none) (right : w.number = none) :
    v.compare w = textOrder v.sprint w.sprint := by
  cases v with
  | int => cases left
  | float => cases left
  | bool b =>
    cases w with
    | bool d => cases b <;> cases d <;> rfl
    | _ => rfl
  | string s => cases w <;> rfl
  | _ => rfl

theorem compare_numbers {x y : UInt64} (left : v.number = some x) (right : w.number = some y) :
    v.compare w = orderBy Binary64.less x y := by
  unfold compare
  rw [left,right]

theorem compare_self (v : Value) : v.compare v = .eq := by
  cases found : v.number with
  | none =>
    rw [compare_text found found]
    exact orderBy_self textLess_irrefl v.sprint
  | some x =>
    rw [compare_numbers found found]
    exact orderBy_self less_irrefl x

def Alike (numeric : Bool) (v : Value) : Prop := v.number.isSome = numeric

theorem compare_trans {numeric : Bool} (strict : o ≠ .eq) {u : Value} (first : u.Alike numeric)
    (second : v.Alike numeric) (third : w.Alike numeric) (before : u.compare v = o) (after : v.compare w = o) :
    u.compare w = o := by
  cases numeric with
  | false =>
    have text {v : Value} (alike : v.Alike false) : v.number = none :=
      Option.isNone_iff_eq_none.mp (Option.isSome_eq_false_iff.mp alike)
    rw [compare_text (text first) (text second)] at before
    rw [compare_text (text second) (text third)] at after
    rw [compare_text (text first) (text third)]
    exact orderBy_trans textLess_irrefl textLess_trans strict before after
  | true =>
    obtain ⟨x,isX⟩ := Option.isSome_iff_exists.mp first
    obtain ⟨y,isY⟩ := Option.isSome_iff_exists.mp second
    obtain ⟨z,isZ⟩ := Option.isSome_iff_exists.mp third
    rw [compare_numbers isX isY] at before
    rw [compare_numbers isY isZ] at after
    rw [compare_numbers isX isZ]
    exact orderBy_trans less_irrefl less_trans strict before after

end Value

/-! The aggregates. -/

def best (o : Ordering) : List Value → Value
  | [] => .nil
  | first::rest => rest.foldl (fun best v => if decide (v.compare best = o) then v else best) first

/-- A value that is not NULL and that no other is below, or above; NULL if there is none. -/
def Extreme (o : Ordering) (values : List Value) (v : Value) : Prop :=
  ((∀ w ∈ values, w = .nil) ∧ v = .nil) ∨ (v ∈ values ∧ v ≠ .nil ∧ ∀ w ∈ values, w ≠ .nil → w.compare v ≠ o)

theorem best_extreme {numeric : Bool} (strict : o ≠ .eq) {values : List Value}
    (alike : ∀ v ∈ values, v ≠ .nil → v.Alike numeric) : Extreme o values (best o (values.filter (· != .nil))) := by
  have there {w : Value} : w ∈ values.filter (· != .nil) ↔ w ∈ values ∧ w ≠ .nil := by simp
  cases kept : values.filter (· != .nil) with
  | nil =>
    refine .inl ⟨fun w member => ?_,rfl⟩
    by_contra some
    have kept' := there.mpr ⟨member,some⟩
    rw [kept] at kept'
    exact absurd kept' List.not_mem_nil
  | cons first rest =>
    rw [kept] at there
    obtain ⟨member,worse⟩ := Groups.foldl_best (R := fun v w => decide (v.compare w = o)) (S := Value.Alike numeric)
      (fun v _ => decide_eq_false fun same => strict (same.symm.trans (Value.compare_self v)))
      (fun u v w first second third before after => decide_eq_true (Value.compare_trans strict first second third
        (of_decide_eq_true before) (of_decide_eq_true after))) first rest
      fun v member => alike v (there.mp member).1 (there.mp member).2
    refine .inr ⟨(there.mp member).1,(there.mp member).2,fun w inside some => ?_⟩
    exact of_decide_eq_false (worse w (there.mpr ⟨inside,some⟩))

theorem toUpper_call (name column : Bytes) : toUpper (call name column) = toUpper name ++ toUpper (40::column ++ [41]) := by
  rw [call,List.append_assoc]
  exact List.map_append

theorem plain_of_toUpper {upper : Bytes} (same : toUpper name = upper) (plain : 40 ∉ upper) : 40 ∉ name := by
  intro member
  exact plain (same ▸ List.mem_map_of_mem (f := fun c : UInt8 => if 97 ≤ c && c ≤ 122 then c - 32 else c) member)

theorem aggregateValue_count (count : toUpper name = ascii "COUNT") (column : Bytes) (values : List Value) :
    aggregateValue (call name column) values = .ok (.int (Int64.ofNat values.length)) := by
  unfold aggregateValue
  rw [toUpper_call,count]
  rfl

theorem aggregateValue_extreme (strict : o ≠ .eq) (count : (ascii "COUNT").isPrefixOf (toUpper expr) = false)
    (min : (ascii "MIN").isPrefixOf (toUpper expr) = decide (o = .lt))
    (max : (ascii "MAX").isPrefixOf (toUpper expr) = decide (o = .gt)) (values : List Value) :
    aggregateValue expr values = .ok (best o values) := by
  cases values with
  | nil => simp only [aggregateValue,count,best,Bool.false_eq_true,if_false]
  | cons first rest =>
    cases o with
    | eq => exact absurd rfl strict
    | lt => simp [aggregateValue,count,min,max,best]
    | gt => simp [aggregateValue,count,min,max,best]

inductive Picks : Ordering → Bytes → Prop
  | min {name : Bytes} (upper : toUpper name = ascii "MIN") : Picks .lt name
  | max {name : Bytes} (upper : toUpper name = ascii "MAX") : Picks .gt name

theorem Picks.strict (picks : Picks o name) : o ≠ .eq := by
  cases picks <;> decide

theorem Picks.plain (picks : Picks o name) : 40 ∉ name := by
  cases picks with
  | min upper => exact plain_of_toUpper upper (by decide)
  | max upper => exact plain_of_toUpper upper (by decide)

theorem Picks.value (picks : Picks o name) (column : Bytes) (values : List Value) :
    aggregateValue (call name column) values = .ok (best o values) := by
  apply aggregateValue_extreme picks.strict
  all_goals rw [toUpper_call]
  all_goals cases picks with
    | min upper => rw [upper]; rfl
    | max upper => rw [upper]; rfl

def present (rows : List Row) (c : Bytes) : List Value := (rows.map (·.get c)).filter (· != .nil)

theorem length_present (rows : List Row) (c : Bytes) : (present rows c).length = rows.countP (·.get c != .nil) := by
  rw [present,← List.countP_eq_length_filter,List.countP_map]
  rfl

section Entries

variable {name column : Bytes} (rows : List Row)

theorem entryValue_countAll (count : toUpper name = ascii "COUNT") (star : trimSpace column = [42]) :
    entryValue rows (call name column) = .ok (some (.int (Int64.ofNat rows.length))) := by
  rw [entryValue_call (plain_of_toUpper count (by decide)),if_pos star,toUpper_call,count]
  rfl

theorem entryValue_count (count : toUpper name = ascii "COUNT") (other : trimSpace column ≠ [42]) :
    entryValue rows (call name column) =
      .ok (some (.int (Int64.ofNat (rows.countP (·.get (trimSpace column) != .nil))))) := by
  rw [entryValue_call (plain_of_toUpper count (by decide)),if_neg other,aggregateValue_count count,← length_present]
  rfl

theorem entryValue_picks (picks : Picks o name) (other : trimSpace column ≠ [42]) :
    entryValue rows (call name column) = .ok (some (best o (present rows (trimSpace column)))) := by
  rw [entryValue_call picks.plain,if_neg other,picks.value]
  rfl

end Entries

structure Summary (columns groups : List Bytes) (rows : List Row) (out : Row) : Prop where
  key : ∀ c ∈ groups, 40 ∉ c → ∀ r ∈ rows, out.get c = r.get c
  countAll : ∀ name column, toUpper name = ascii "COUNT" → trimSpace column = [42] → call name column ∈ columns →
    out.get (call name column) = .int (Int64.ofNat rows.length)
  count : ∀ name column, toUpper name = ascii "COUNT" → trimSpace column ≠ [42] → call name column ∈ columns →
    out.get (call name column) = .int (Int64.ofNat (rows.countP (·.get (trimSpace column) != .nil)))
  extreme : ∀ o name column, Picks o name → trimSpace column ≠ [42] → call name column ∈ columns →
    ∀ numeric, (∀ r ∈ rows, r.get (trimSpace column) ≠ .nil → (r.get (trimSpace column)).Alike numeric) →
    Extreme o (rows.map (·.get (trimSpace column))) (out.get (call name column))

theorem lookup_groups (f : Bytes → Value) {groups : List Bytes} (start : Row) {c : Bytes} (member : c ∈ groups) :
    (groups.foldl (fun out c => out.insert c (f c)) start).lookup c = some (f c) := by
  have same : groups.foldl (fun out c => out.insert c (f c)) start = start.insertAll (groups.map fun c => (c,f c)) := by
    rw [SortedMap.insertAll,List.foldl_map]
  rw [same]
  apply SortedMap.lookup_insertAll_of_agree start (g := fun c => some (f c))
  · intro e there
    obtain ⟨d,-,rfl⟩ := List.mem_map.mp there
    rfl
  · rw [List.map_map]
    exact List.mem_map.mpr ⟨c,member,rfl⟩

theorem aggregateRow_summary {groups : List Bytes} (some : rows ≠ [])
    (agree : ∀ c ∈ groups, ∀ r ∈ rows, ∀ r' ∈ rows, r.get c = r'.get c)
    (done : aggregateRow columns groups rows = .ok out) : Summary columns groups rows out := by
  have value {expr : Bytes} (member : expr ∈ columns) {v : Value} (entry : entryValue rows expr = .ok (.some v)) :
      out.get expr = v := by
    rw [Row.get,lookup_aggregated done member entry]
    rfl
  refine ⟨?_,?_,?_,?_⟩
  · intro c grouped plain r member
    obtain ⟨first,rest,rfl⟩ := List.exists_cons_of_ne_nil some
    rw [← agree c grouped first List.mem_cons_self r member]
    by_cases listed : c ∈ columns
    · exact value listed (entryValue_plain plain first rest)
    · rw [Row.get,lookup_aggregated_other done listed,lookup_groups first.get ∅ grouped]
      rfl
  · intro name column count star member
    exact value member (entryValue_countAll rows count star)
  · intro name column count other member
    exact value member (entryValue_count rows count other)
  · intro o name column picks other member numeric alike
    rw [value member (entryValue_picks rows picks other)]
    exact best_extreme picks.strict (List.forall_mem_map.mpr alike)

def Select.outputs (q : Select) (s : Schema) : List Bytes :=
  if q.columns = [[42]] then s.columns.map Column.name else q.columns

def Select.combination (q : Select) (r : Row) : List Value := q.groupBy.map r.get

def Select.group (q : Select) (rows : List Row) (combination : List Value) : List Row :=
  rows.filter fun r => q.combination r == combination

/-- The combinations of values that occur, in the order in which they are met. -/
def Select.combinations (q : Select) (rows : List Row) : List (List Value) := (rows.map q.combination).eraseDups

theorem group_spec {q : Select} {combination : List Value} (member : combination ∈ q.combinations rows) :
    q.group rows combination ≠ [] ∧
      ∀ c ∈ q.groupBy, ∀ r ∈ q.group rows combination, ∀ r' ∈ q.group rows combination, r.get c = r'.get c := by
  obtain ⟨r,there,rfl⟩ := List.mem_map.mp (List.mem_eraseDups.mp member)
  constructor
  · exact List.ne_nil_of_mem (List.mem_filter.mpr ⟨there,beq_self_eq_true _⟩)
  · intro c grouped r first r' second
    have same : q.combination r = q.combination r' :=
      (eq_of_beq (List.mem_filter.mp first).2).trans (eq_of_beq (List.mem_filter.mp second).2).symm
    exact List.map_inj_left.mp same c grouped

def combinationText (combination : List Value) : Bytes := combination.flatMap fun v => v.goSyntax isPrint ++ [124]

theorem groupKey_combination (q : Select) (r : Row) : groupKey isPrint q.groupBy r = combinationText (q.combination r) := by
  rw [combinationText,Select.combination,List.flatMap_map]
  rfl

theorem groupOrder_eq (keys : List Bytes) : groupOrder keys = keys.eraseDups := by
  rw [groupOrder,Groups.foldl_unseen]
  simp

theorem lookup_of_groupable {r : Row} {c : Bytes} (groupable : (r.get c).Groupable) : lookup r c = r.get c := by
  rw [Row.get] at groupable ⊢
  cases found : r.lookup c with
  | none => rw [found] at groupable; exact groupable.elim
  | some v => rw [lookup,lookupColumn,found]

section Groups

variable {q : Select} {filtered : List Row} (values : ∀ r ∈ filtered, ∀ c ∈ q.groupBy, (r.get c).Groupable)

include values

theorem combinationText_inj {r r' : Row} (member : r ∈ filtered) (member' : r' ∈ filtered) :
    combinationText (q.combination r) = combinationText (q.combination r') ↔ q.combination r = q.combination r' := by
  rw [← groupKey_combination,← groupKey_combination]
  exact groupKey_eq_iff isPrint (values r member) (values r' member')

theorem groupOrder_combinations :
    groupOrder (filtered.map (groupKey isPrint q.groupBy)) = (q.combinations filtered).map combinationText := by
  have keys : filtered.map (groupKey isPrint q.groupBy) = (filtered.map q.combination).map combinationText := by
    rw [List.map_map]
    exact List.map_congr_left fun r _ => groupKey_combination q r
  rw [groupOrder_eq,keys,Select.combinations]
  apply Groups.eraseDups_map
  rintro _ first _ second same
  obtain ⟨r,member,rfl⟩ := List.mem_map.mp first
  obtain ⟨r',member',rfl⟩ := List.mem_map.mp second
  exact (combinationText_inj values member member').mp same

theorem filter_groupKey {combination : List Value} (member : combination ∈ q.combinations filtered) :
    (filtered.filter fun r => groupKey isPrint q.groupBy r = combinationText combination) = q.group filtered combination := by
  obtain ⟨r,there,rfl⟩ := List.mem_map.mp (List.mem_eraseDups.mp member)
  apply List.filter_congr
  intro r' member'
  rw [groupKey_combination,beq_eq_decide,decide_eq_decide]
  exact combinationText_inj values member' there

theorem finishSelect_grouped (s : Schema) (grouped : q.groupBy ≠ [])
    (kept : rows.filter (matchRow q.condition) = filtered) :
    finishSelect s q rows = (do
      let out ← (q.combinations filtered).mapM fun combination =>
        aggregateRow (q.outputs s) q.groupBy (q.group filtered combination)
      applyPagingAndOrder ⟨q.outputs s,out,0⟩ q) := by
  have found : q.groupBy.find? (fun c => filtered.any fun r => lookup r c = .nil) = none := by
    rw [List.find?_eq_none]
    intro c grouped missing
    obtain ⟨r,member,null⟩ := List.any_eq_true.mp missing
    have value := values r member c grouped
    rw [← lookup_of_groupable value,of_decide_eq_true null] at value
    exact value
  have some : (q.groupBy != []) = true := bne_iff_ne.mpr grouped
  have outputs : (if q.columns = [[42]] then s.columns.map Column.name else q.columns) = q.outputs s := rfl
  unfold finishSelect
  rw [outputs]
  dsimp only
  rw [kept,found]
  dsimp only
  rw [some,Bool.or_true,if_pos rfl,if_neg fun all => grouped all.2.2,groupOrder_combinations values,List.mapM_map]
  congr 1
  apply mapM_congr
  intro combination member
  rw [Function.comp_apply,filter_groupKey values member]

end Groups

/-- An entry that names a column, counts, or looks for a least or a greatest value. -/
def Simple (expr : Bytes) : Prop :=
  40 ∉ expr ∨ ∃ name column, expr = call name column ∧
    (toUpper name = ascii "COUNT" ∨ (∃ o, Picks o name) ∧ trimSpace column ≠ [42])

theorem Simple.value (simple : Simple expr) (some : rows ≠ []) : ∃ v, entryValue rows expr = .ok v := by
  rcases simple with plain | ⟨name,column,rfl,count | ⟨⟨o,picks⟩,other⟩⟩
  · obtain ⟨first,rest,rfl⟩ := List.exists_cons_of_ne_nil some
    exact ⟨_,entryValue_plain plain first rest⟩
  · by_cases star : trimSpace column = [42]
    · exact ⟨_,entryValue_countAll rows count star⟩
    · exact ⟨_,entryValue_count rows count star⟩
  · exact ⟨_,entryValue_picks rows picks other⟩

/-- GROUP BY puts those rows together that agree on the group columns. There is one row in the answer for each combination
of values, in the order in which they are met; it has the values, counts the rows and the values that are not NULL, and has
a least or a greatest value. The counts sum up to those of all rows. -/
theorem groups_partition (s : Schema) {q : Select} {rows filtered : List Row} (grouped : q.groupBy ≠ [])
    (kept : rows.filter (matchRow q.condition) = filtered)
    (values : ∀ r ∈ filtered, ∀ c ∈ q.groupBy, (r.get c).Groupable) :
    (∀ isPrint, ∀ r ∈ filtered, ∀ r' ∈ filtered,
      groupKey isPrint q.groupBy r = groupKey isPrint q.groupBy r' ↔ ∀ c ∈ q.groupBy, r.get c = r'.get c) ∧
    finishSelect s q rows = (do
      let out ← (q.combinations filtered).mapM fun combination =>
        aggregateRow (q.outputs s) q.groupBy (q.group filtered combination)
      applyPagingAndOrder ⟨q.outputs s,out,0⟩ q) ∧
    (∀ combination ∈ q.combinations filtered, ∀ out,
      aggregateRow (q.outputs s) q.groupBy (q.group filtered combination) = .ok out →
      Summary (q.outputs s) q.groupBy (q.group filtered combination) out) ∧
    ((∀ expr ∈ q.outputs s, Simple expr) → ∃ out, finishSelect s q rows = applyPagingAndOrder ⟨q.outputs s,out,0⟩ q ∧
      List.Forall₂ (fun combination row => Summary (q.outputs s) q.groupBy (q.group filtered combination) row)
        (q.combinations filtered) out) ∧
    ((q.combinations filtered).map fun combination => (q.group filtered combination).length).sum = filtered.length ∧
    ∀ c, ((q.combinations filtered).map fun combination => (q.group filtered combination).countP (·.get c != .nil)).sum =
      filtered.countP (·.get c != .nil) := by
  have answer := finishSelect_grouped values s grouped kept
  have summary : ∀ combination ∈ q.combinations filtered, ∀ out,
      aggregateRow (q.outputs s) q.groupBy (q.group filtered combination) = .ok out →
      Summary (q.outputs s) q.groupBy (q.group filtered combination) out := by
    intro combination member out done
    obtain ⟨some,agree⟩ := group_spec member
    exact aggregateRow_summary some agree done
  refine ⟨?_,answer,summary,?_,?_,?_⟩
  · intro isPrint r member r' member'
    rw [groupKey_eq_iff isPrint (values r member) (values r' member'),List.map_inj_left]
  · intro simple
    have each : ∀ combination ∈ q.combinations filtered, ∃ out,
        aggregateRow (q.outputs s) q.groupBy (q.group filtered combination) = .ok out := fun combination member =>
      (aggregated_succeeds (q.outputs s) _).mpr fun expr listed => (simple expr listed).value (group_spec member).1
    obtain ⟨out,ran,all⟩ := mapM_succeeds (q.combinations filtered) each
    rw [ran] at answer
    exact ⟨out,answer,all.imp fun combination row there => summary combination there.1 row there.2⟩
  · have all := Groups.sum_countP q.combination (fun _ => true) filtered
    simp only [List.countP_true] at all
    exact all
  · intro c
    exact Groups.sum_countP q.combination _ filtered

namespace Sample

def byWords : Select :=
  ⟨[ascii "a",ascii "COUNT(*)",ascii "MIN(n)"],ascii "t",none,[],false,-1,0,[ascii "a",ascii "b"],[],[],[]⟩

def words (a b : String) (n : Int64) : Row :=
  (((∅ : Row).insert (ascii "a") (.string (ascii a))).insert (ascii "b") (.string (ascii b))).insert (ascii "n") (.int n)

def barred : List Row := [words "x|" "y" 3,words "x" "|y" 1,words "x|" "y" 2]

end Sample

theorem groups_partition_barred : ∃ first second,
    finishSelect ⟨[],∅⟩ Sample.byWords Sample.barred =
      applyPagingAndOrder ⟨Sample.byWords.columns,[first,second],0⟩ Sample.byWords ∧
      first.get (ascii "COUNT(*)") = .int 2 ∧ second.get (ascii "COUNT(*)") = .int 1 := by
  have simple : ∀ expr ∈ Sample.byWords.columns, Simple expr := by
    refine List.forall_mem_cons.mpr ⟨.inl (by decide),List.forall_mem_cons.mpr ⟨.inr ⟨ascii "COUNT",ascii "*",rfl,.inl rfl⟩,?_⟩⟩
    exact List.forall_mem_singleton.mpr (.inr ⟨ascii "MIN",ascii "n",rfl,.inr ⟨⟨.lt,.min rfl⟩,by decide⟩⟩)
  have kept : Sample.barred.filter (matchRow Sample.byWords.condition) = Sample.barred := rfl
  obtain ⟨-,-,-,answer,-⟩ := groups_partition ⟨[],∅⟩ (by decide) kept (by decide +kernel)
  obtain ⟨out,same,each⟩ := answer simple
  have met : Sample.byWords.combinations Sample.barred =
      [[.string (ascii "x|"),.string (ascii "y")],[.string (ascii "x"),.string (ascii "|y")]] := by decide +kernel
  rw [met] at each
  cases each with
  | cons first rest =>
    cases rest with
    | cons second rest =>
      cases rest
      have count : ascii "COUNT(*)" ∈ Sample.byWords.columns := by decide
      refine ⟨_,_,same,?_,?_⟩
      · exact (first.countAll (ascii "COUNT") (ascii "*") rfl rfl count).trans (by decide +kernel)
      · exact (second.countAll (ascii "COUNT") (ascii "*") rfl rfl count).trans (by decide +kernel)

end GoDb
