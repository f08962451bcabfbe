import GoDb.RowUpdates

/-! The ids that INSERT makes up. The loop over the rows is a running maximum; the addition
wraps around behind the largest integer, and the loop goes on from the smallest one. -/
namespace GoDb
open Foundation Outcome

def bump (next id : Int64) : Int64 := if next ≤ id then id + 1 else next

theorem bump_cases (ids : List Int64) (next : Int64) :
    (ids.foldl bump next = next ∧ ∀ id ∈ ids, id < next) ∨ ∃ id ∈ ids, ids.foldl bump next = id + 1 := by
  induction ids generalizing next with
  | nil => exact .inl ⟨rfl,List.forall_mem_nil _⟩
  | cons id ids ih =>
    rw [List.foldl_cons]
    rcases ih (bump next id) with ⟨same,below⟩ | ⟨other,member,behind⟩
    · by_cases up : next ≤ id
      · refine .inr ⟨id,List.mem_cons_self,?_⟩
        rw [same,bump,if_pos up]
      · rw [bump,if_neg up] at same below ⊢
        exact .inl ⟨same,List.forall_mem_cons.mpr ⟨Int64.not_le.mp up,below⟩⟩
    · exact .inr ⟨other,List.mem_cons_of_mem id member,behind⟩

variable {id : Int64} {rows : List Row}

theorem lt_add_one (other : id ≠ Int64.maxValue) : id < id + 1 := by
  have high := id.toInt_lt
  have low := id.le_toInt
  have below : id.toInt ≠ 2^63 - 1 := fun same => other (Int64.toInt_inj.mp same)
  have sum : (id + 1).toInt = id.toInt + 1 := by
    rw [Int64.toInt_add,Int64.toInt_one,Int.bmod_eq_of_le]
    · omega
    · omega
  rw [Int64.lt_iff_toInt_lt,sum]
  omega

theorem bump_above (ids : List Int64) (next : Int64) (other : ∀ id ∈ ids, id ≠ Int64.maxValue) :
    next ≤ ids.foldl bump next ∧ ∀ id ∈ ids, id < ids.foldl bump next := by
  induction ids generalizing next with
  | nil => exact ⟨Int64.le_refl _,List.forall_mem_nil _⟩
  | cons id ids ih =>
    obtain ⟨here,others⟩ := List.forall_mem_cons.mp other
    obtain ⟨least,below⟩ := ih (bump next id) others
    have step : next ≤ bump next id ∧ id < bump next id := by
      unfold bump
      split_ifs with up
      · exact ⟨Int64.le_trans up (Int64.le_of_lt (lt_add_one here)),lt_add_one here⟩
      · exact ⟨Int64.le_refl _,Int64.not_le.mp up⟩
    rw [List.foldl_cons]
    refine ⟨Int64.le_trans step.1 least,List.forall_mem_cons.mpr ⟨?_,below⟩⟩
    exact Int64.lt_of_lt_of_le step.2 least

namespace Schema

variable (s : Schema)

def idOf (row : Row) : Option Int64 :=
  match row.get s.keyColumn with
  | .int id => some id
  | _ => none

theorem idOf_iff {row : Row} : s.idOf row = some id ↔ row.get s.keyColumn = .int id := by
  unfold idOf
  split
  · rename_i there
    rw [there,Option.some.injEq,Value.int.injEq]
  · rename_i other
    exact iff_of_false (Option.some_ne_none id).symm (other id)

theorem nextId_eq (rows : List Row) : s.nextId rows = (rows.filterMap s.idOf).foldl bump 1 := by
  rw [List.foldl_filterMap,nextId]
  congr 1
  funext next row
  unfold idOf bump
  rcases row.get s.keyColumn <;> rfl

theorem mem_ids : id ∈ rows.filterMap s.idOf ↔ ∃ row ∈ rows, row.get s.keyColumn = .int id := by
  rw [List.mem_filterMap]
  exact exists_congr fun row => and_congr_right fun _ => s.idOf_iff

theorem nextId_max {a : Row} (max : a.get s.keyColumn = .int Int64.maxValue) (front : List Row) :
    s.nextId (front ++ [a]) = Int64.maxValue + 1 := by
  rw [nextId_eq,List.filterMap_append,List.foldl_append]
  have last : [a].filterMap s.idOf = [Int64.maxValue] := by simp [s.idOf_iff.mpr max]
  rw [last,List.foldl_cons,List.foldl_nil,bump,if_pos (Int64.le_maxValue _)]

theorem nextId_behind_max {a b : Row} (max : a.get s.keyColumn = .int Int64.maxValue)
    (last : b.get s.keyColumn = .int id) (front : List Row) : s.nextId (front ++ [a,b]) = id + 1 := by
  have split : front ++ [a,b] = (front ++ [a]) ++ [b] := by simp
  have behind : [b].filterMap s.idOf = [id] := by simp [s.idOf_iff.mpr last]
  have around : Int64.maxValue + 1 = Int64.minValue := by decide
  rw [split,nextId_eq,List.filterMap_append,List.foldl_append,← nextId_eq,s.nextId_max max,behind,around,List.foldl_cons,
    List.foldl_nil,bump,if_pos (Int64.minValue_le _)]

theorem nextId_collides {a b c : Row} (max : a ∈ rows) (largest : a.get s.keyColumn = .int Int64.maxValue)
    (first : b ∈ rows) (lower : b.get s.keyColumn = .int id) (second : c ∈ rows)
    (upper : c.get s.keyColumn = .int (id + 1)) :
    ∃ rows', rows'.Perm rows ∧ ∃ row ∈ rows, row.get s.keyColumn = .int (s.nextId rows') := by
  obtain ⟨left,split⟩ : ∃ left, rows.Perm (a::left) := ⟨_,List.perm_cons_erase max⟩
  by_cases same : b = a
  · subst same
    obtain rfl := Value.int.inj (largest.symm.trans lower)
    refine ⟨left ++ [b],(List.perm_append_singleton b left).trans split.symm,c,second,?_⟩
    rw [upper,s.nextId_max largest]
  · have there : b ∈ left := (List.mem_cons.mp (split.mem_iff.mp first)).resolve_left same
    obtain ⟨rest,further⟩ : ∃ rest, left.Perm (b::rest) := ⟨_,List.perm_cons_erase there⟩
    refine ⟨rest ++ [a,b],?_,c,second,?_⟩
    · exact List.perm_append_comm.trans ((further.symm.cons a).trans split.symm)
    · rw [upper,s.nextId_behind_max largest lower]

/-- The id is none of those of the rows, in whatever order they are read, if and only if the largest integer is not
among them or no two of them are next to each other, the smallest one being behind the largest one. -/
theorem nextId_fresh (rows : List Row) :
    (∀ rows', rows'.Perm rows → ∀ row ∈ rows, row.get s.keyColumn ≠ .int (s.nextId rows')) ↔
      (∀ row ∈ rows, row.get s.keyColumn ≠ .int Int64.maxValue) ∨
        ∀ row ∈ rows, ∀ other ∈ rows, ∀ id, row.get s.keyColumn = .int id → other.get s.keyColumn ≠ .int (id + 1) := by
  constructor
  · intro fresh
    by_contra collides
    obtain ⟨some,next⟩ := not_or.mp collides
    push Not at some next
    obtain ⟨a,max,largest⟩ := some
    obtain ⟨b,first,c,second,id,lower,upper⟩ := next
    obtain ⟨rows',perm,row,member,taken⟩ := s.nextId_collides max largest first lower second upper
    exact fresh rows' perm row member taken
  · rintro apart rows' perm row member taken
    rw [nextId_eq] at taken
    have ids {id : Int64} : id ∈ rows'.filterMap s.idOf ↔ ∃ row ∈ rows, row.get s.keyColumn = .int id := by
      rw [s.mem_ids]
      exact exists_congr fun row => and_congr_left fun _ => perm.mem_iff
    have inside := ids.mpr ⟨row,member,taken⟩
    rcases apart with bounded | apart
    · have below := (bump_above _ 1 fun id there => ?_).2 _ inside
      · exact Int64.lt_irrefl below
      · obtain ⟨other,member,same⟩ := ids.mp there
        rintro rfl
        exact bounded other member same
    · rcases bump_cases (rows'.filterMap s.idOf) 1 with ⟨same,below⟩ | ⟨id,there,behind⟩
      · have less := below _ inside
        rw [same] at less
        exact Int64.lt_irrefl less
      · obtain ⟨other,first,lower⟩ := ids.mp there
        rw [behind] at taken
        exact apart other first row member id lower taken

end Schema

namespace Executor

theorem keyedRow_omitted {e : Executor} {ord : Order} {t : Nat} {given row : Row}
    (omits : given.lookup (e.db.table t).schema.keyColumn = none) (read : e.rows ord t = .ok rows)
    (keyed : e.keyedRow ord t given = .ok row) :
    row.get (e.db.table t).schema.keyColumn = .int ((e.db.table t).schema.nextId rows) := by
  unfold keyedRow at keyed
  dsimp only at keyed
  rw [omits,read] at keyed
  dsimp only at keyed
  split_ifs at keyed
  rw [← Except.ok.inj keyed,Row.get,SortedMap.lookup_insert,if_pos rfl]
  rfl

/-- An INSERT without a key gets an id that none of the rows has, in whatever order they are read, if and only if the
largest integer is not among their ids or no two of them are next to each other, the smallest one being next to the
largest one. -/
theorem auto_ids_fresh_iff (s : Schema) (rows : List Row) :
    ((∀ rows', rows'.Perm rows → ∀ row ∈ rows, row.get s.keyColumn ≠ .int (s.nextId rows')) ↔
      (∀ row ∈ rows, row.get s.keyColumn ≠ .int Int64.maxValue) ∨
        ∀ row ∈ rows, ∀ other ∈ rows, ∀ id, row.get s.keyColumn = .int id → other.get s.keyColumn ≠ .int (id + 1)) ∧
    ∀ (e : Executor) ord t given row, (e.db.table t).schema = s → e.rows ord t = .ok rows →
      given.lookup s.keyColumn = none → e.keyedRow ord t given = .ok row → row.get s.keyColumn = .int (s.nextId rows) := by
  refine ⟨s.nextId_fresh rows,?_⟩
  rintro e ord t given row rfl read omits keyed
  exact keyedRow_omitted omits read keyed

def withoutId (a : Int64) : Statement := .insert ⟨ascii "u",[ascii "a"],[.int a]⟩

/-- Behind the largest id comes the smallest one, and then the smallest one again: the third row replaces the second. -/
theorem auto_id_taken :
    let e := (Sample.server [(1,Sample.create "u" .int),(1,Sample.insert "u" Int64.maxValue (.int 1))]).executor 1
    let first := (executeStatement .stored (withoutId 2)).exec e
    let second := (executeStatement .stored (withoutId 3)).exec first.2
    first.1.toOption.isSome ∧ second.1.toOption.isSome ∧
      ((first.2.db.table 0).scan.map fun rows => rows.map fun row => (row.get (ascii "id"),row.get (ascii "a"))) =
        .ok [(.int Int64.minValue,.int 2),(.int Int64.maxValue,.int 1)] ∧
      ((second.2.db.table 0).scan.map fun rows => rows.map fun row => (row.get (ascii "id"),row.get (ascii "a"))) =
        .ok [(.int Int64.minValue,.int 3),(.int Int64.maxValue,.int 1)] := by
  decide +kernel

end Executor

end GoDb
