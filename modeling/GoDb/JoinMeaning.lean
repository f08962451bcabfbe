import GoDb.References
import GoDb.Foundation.Results

/-! What a join finds. Its rows come from pairs of rows whose values have the same bucket and
compare as equal; the condition of a WHERE clause compares two values that are not NULL. -/
namespace GoDb
open Foundation Outcome Results

/-- What the hash join takes for equal: the bucket, then the comparison. -/
def Value.joins (v w : Value) : Bool := w.indexValue = v.indexValue && v.compare w = .eq

/-- What a condition with `=` takes for equal. -/
def Value.matches (v w : Value) : Bool := v != .nil && w != .nil && v.compare w = .eq

theorem Condition.holds_equal (r : Row) (column : Bytes) (value : Value) :
    (Condition.test column .equal value).holds r = (lookup r column).matches value := by
  unfold Condition.holds Value.matches
  by_cases left : lookup r column = .nil
  · simp [left]
  · by_cases right : value = .nil
    · simp [right]
    · simp [left,right,Operator.accepts]

def joinPairs (q : Select) (rows others : List Row) : List (Row × Row) :=
  rows.flatMap fun a =>
    (others.filter fun b => (lookup a q.joinLeft).joins (lookup b q.joinRight)).map (Prod.mk a)

/-- The pairs of rows, by a nested loop, for which the condition holds. -/
def wherePairs (q : Select) (rows others : List Row) : List (Row × Row) :=
  rows.flatMap fun a =>
    (others.filter fun b => (Condition.test q.joinLeft .equal (lookup b q.joinRight)).holds a).map (Prod.mk a)

section Pairs

variable {α β γ : Type}

private theorem forall₂_append {R : α → β → Prop} {as as' : List α} {bs bs' : List β} (front : List.Forall₂ R as bs)
    (back : List.Forall₂ R as' bs') : List.Forall₂ R (as ++ as') (bs ++ bs') := by
  induction front with
  | nil => exact back
  | cons first _ ih => exact .cons first ih

theorem forall₂_zipIdx_map {R : α → β → Prop} (f : γ × Nat → α) (g : γ → β) (list : List γ) (n : Nat)
    (related : ∀ c i, R (f (c,i)) (g c)) : List.Forall₂ R ((list.zipIdx n).map f) (list.map g) := by
  induction list generalizing n with
  | nil => exact .nil
  | cons c list ih => exact .cons (related c n) (ih (n + 1))

theorem forall₂_zipIdx_flatMap {R : α → β → Prop} (f : γ × Nat → List α) (g : γ → List β) (list : List γ) (n : Nat)
    (related : ∀ c i, List.Forall₂ R (f (c,i)) (g c)) :
    List.Forall₂ R ((list.zipIdx n).flatMap f) (list.flatMap g) := by
  induction list generalizing n with
  | nil => exact .nil
  | cons c list ih =>
    rw [List.zipIdx_cons,List.flatMap_cons,List.flatMap_cons]
    exact forall₂_append (related c n) (ih (n + 1))

theorem mem_pairs {p : α → β → Bool} {as : List α} {bs : List β} {a : α} {b : β} :
    (a,b) ∈ as.flatMap (fun a => (bs.filter (p a)).map (Prod.mk a)) ↔ a ∈ as ∧ b ∈ bs ∧ p a b = true := by
  simp only [List.mem_flatMap,List.mem_map,List.mem_filter,Prod.mk.injEq]
  constructor
  · rintro ⟨_,first,_,⟨second,holds⟩,rfl,rfl⟩
    exact ⟨first,second,holds⟩
  · rintro ⟨first,second,holds⟩
    exact ⟨a,first,b,⟨second,holds⟩,rfl,rfl⟩

theorem pairs_perm_iff {p p' : α → β → Bool} {as : List α} {bs : List β} :
    (as.flatMap fun a => (bs.filter (p a)).map (Prod.mk a)).Perm (as.flatMap fun a => (bs.filter (p' a)).map (Prod.mk a)) ↔
      ∀ a ∈ as, ∀ b ∈ bs, p a b = p' a b := by
  constructor
  · intro same a first b second
    have both := same.mem_iff (a := (a,b))
    rw [mem_pairs,mem_pairs] at both
    simp only [first,second,true_and] at both
    exact Bool.eq_iff_iff.mpr both
  · intro agree
    apply List.Perm.of_eq
    apply List.flatMap_congr
    intro a first
    congr 1
    apply List.filter_congr
    intro b second
    exact agree a first b second

end Pairs

theorem joinRows_eq (ord : Order) (q : Select) (rows others : List Row) :
    joinRows ord q rows others = rows.zipIdx.flatMap fun (a,i) =>
      (others.filter fun b => (lookup a q.joinLeft).joins (lookup b q.joinRight)).zipIdx.map fun (b,j) =>
        mergeRows ((ord.at i).at j) q.joinTable a b := by
  unfold joinRows
  apply List.flatMap_congr
  intro (a,i) _
  dsimp only
  rw [List.filter_filter]
  congr 2
  apply List.filter_congr
  intro b _
  exact Bool.and_comm _ _

theorem joinRows_pairs (ord : Order) (q : Select) (rows others : List Row) :
    List.Forall₂ (fun row pair => ∃ ord, row = mergeRows ord q.joinTable pair.1 pair.2)
      (joinRows ord q rows others) (joinPairs q rows others) := by
  rw [joinRows_eq]
  apply forall₂_zipIdx_flatMap
  intro a i
  apply forall₂_zipIdx_map
  intro b j
  exact ⟨(ord.at i).at j,rfl⟩

namespace Value

theorem indexValue_eq_nil {v : Value} : v.indexValue = .nil ↔ v = .nil := by
  cases v <;> simp [indexValue]

theorem joins_eq_matches {v w : Value} :
    v.joins w = v.matches w ↔
      ¬(v = .nil ∧ w = .nil) ∧ (v ≠ .nil → w ≠ .nil → v.compare w = .eq → w.indexValue = v.indexValue) := by
  unfold joins Value.matches
  have empty : Value.nil.indexValue = .nil := rfl
  by_cases left : v = .nil
  · subst left
    by_cases right : w = .nil
    · subst right
      decide
    · have other : w.indexValue ≠ .nil := fun same => right (indexValue_eq_nil.mp same)
      simp [right,other,empty]
  · have some : (v != .nil) = true := bne_iff_ne.mpr left
    by_cases right : w = .nil
    · subst right
      have other : Value.nil ≠ v.indexValue := fun same => left (indexValue_eq_nil.mp same.symm)
      simp [left,other,empty]
    · have some' : (w != .nil) = true := bne_iff_ne.mpr right
      by_cases equal : v.compare w = .eq
      · simp [left,right,equal,some,some']
      · simp [left,equal]

end Value

/-- The rows of a join are those of the pairs that the condition finds, with their multiplicity, if and only if no two
NULLs meet and values that compare as equal have one bucket. -/
theorem join_matches_iff (q : Select) (rows others : List Row) :
    (∀ ord, List.Forall₂ (fun row pair => ∃ ord, row = mergeRows ord q.joinTable pair.1 pair.2)
      (joinRows ord q rows others) (joinPairs q rows others)) ∧
    ((joinPairs q rows others).Perm (wherePairs q rows others) ↔
      ∀ a ∈ rows, ∀ b ∈ others,
        let v := lookup a q.joinLeft
        let w := lookup b q.joinRight
        ¬(v = .nil ∧ w = .nil) ∧ (v ≠ .nil → w ≠ .nil → v.compare w = .eq → w.indexValue = v.indexValue)) := by
  refine ⟨fun ord => joinRows_pairs ord q rows others,pairs_perm_iff.trans ?_⟩
  simp only [Condition.holds_equal,Value.joins_eq_matches]

namespace Sample

def join (left right : String) : Select :=
  ⟨[[42]],ascii "p",none,[],false,-1,0,[],ascii "c",ascii left,ascii right⟩

def numbers : Executor := (server [(1,create "p" .int),(1,create "c" .float),(1,insert "p" 1 (.int 5)),(1,insert "p" 2 .nil),
  (1,insert "c" 1 (.int 5)),(1,insert "c" 2 .nil)]).executor 1

end Sample

/-- The join finds the two NULLs, and the condition the two numbers. -/
theorem join_matches_nulls :
    let q := Sample.join "p.a" "c.a"
    let rows (t : Nat) := (Sample.numbers.db.table t).scan.toOption.getD []
    let ids (row : Row) := row.get (ascii "id")
    (Sample.numbers.selectRows .stored q).map (fun r => r.rows.map ids) = .ok [.int 2] ∧
      (wherePairs q (rows 0) (rows 1)).map (fun pair => (ids pair.1,ids pair.2)) = [(.int 1,.int 1)] := by
  decide +kernel

/-! The two sides of ON. The first is looked up in the first table and the second in the second, by the name behind the
point. -/

def Select.swapped (q : Select) : Select := {q with joinLeft := q.joinRight,joinRight := q.joinLeft}

/-- A row of the one table joins a row of the other by either reading of the names, or by neither. -/
def Select.Symmetric (q : Select) (rows others : List Row) : Prop :=
  ∀ a ∈ rows, ∀ b ∈ others,
    (lookup a q.joinLeft).joins (lookup b q.joinRight) = (lookup a q.joinRight).joins (lookup b q.joinLeft)

theorem joinRows_swapped {q : Select} {rows others : List Row} (symmetric : q.Symmetric rows others) (ord : Order) :
    joinRows ord q rows others = joinRows ord q.swapped rows others := by
  rw [joinRows_eq,joinRows_eq]
  apply List.flatMap_congr
  intro (a,i) member
  have first : a ∈ rows := by
    obtain ⟨_,_,same⟩ := List.mem_zipIdx member
    exact List.mem_of_getElem same.symm
  dsimp only
  congr 2
  apply List.filter_congr
  intro b second
  exact symmetric a first b second

theorem Executor.rows_of_selectedRows {e : Executor} {ord : Order} {t : Nat} {q : Select} {rows : List Row}
    (joined : q.joinTable ≠ []) (read : e.selectedRows ord t q = .ok rows) : e.rows (ord.at 0) t = .ok rows := by
  unfold selectedRows at read
  rw [if_neg fun both => joined both.2] at read
  cases found : e.rows (ord.at 0) t with
  | error err => rw [found] at read; cases read
  | ok rows' => rw [found] at read; exact read

theorem Executor.selectRows_swapped {e : Executor} {q : Select}
    (symmetric : ∀ t other ord ord' rows others, e.table q.table = .ok t → e.table q.joinTable = .ok other →
      e.rows ord t = .ok rows → e.rows ord' other = .ok others → q.Symmetric rows others) (ord : Order) :
    e.selectRows ord q = e.selectRows ord q.swapped := by
  have final (s : Schema) (rows : List Row) : finishSelect s q.swapped rows = finishSelect s q rows := rfl
  have selected (ord : Order) (t : Nat) : e.selectedRows ord t q.swapped = e.selectedRows ord t q := rfl
  have first : q.swapped.table = q.table := rfl
  have second : q.swapped.joinTable = q.joinTable := rfl
  unfold selectRows
  simp only [final,selected,first,second]
  refine bind_congr_ok fun t found => bind_congr_ok fun rows read => ?_
  split_ifs with alone
  · rfl
  · refine bind_congr_ok fun other found' => bind_congr_ok fun others read' => ?_
    have scanned := rows_of_selectedRows alone read
    rw [joinRows_swapped (symmetric t other _ _ rows others found found' scanned read')]

def qualified (table column : Bytes) : Bytes := table ++ 46::column

def Row.Undotted (r : Row) : Prop := ∀ entry ∈ r.entries, 46 ∉ entry.1

instance (r : Row) : Decidable r.Undotted := inferInstanceAs (Decidable (∀ entry ∈ r.entries, 46 ∉ entry.1))

theorem afterPoint_qualified {table : Bytes} (plain : 46 ∉ table) (column : Bytes) :
    afterPoint (qualified table column) = some column := by
  induction table with
  | nil => rfl
  | cons c table ih =>
    have other : c ≠ 46 := fun same => plain (same ▸ List.mem_cons_self)
    rw [qualified,List.cons_append,afterPoint]
    · exact ih fun later => plain (List.mem_cons_of_mem c later)
    · exact other

theorem lookup_qualified {r : Row} (undotted : r.Undotted) {table : Bytes} (plain : 46 ∉ table) (column : Bytes) :
    lookup r (qualified table column) = r.get column := by
  have missing : r.lookup (qualified table column) = none := by
    apply Option.eq_none_iff_forall_ne_some.mpr
    intro v found
    exact undotted _ ((SortedMap.mem_entries (_,v)).mpr found) (List.mem_append_right table List.mem_cons_self)
  rw [lookup,lookupColumn,missing,afterPoint_qualified plain]
  rfl

/-- The rows that the two forms of ON put together are the same, with their multiplicity, if and only if both readings
of the names agree on them, and the answers are then equal. For tables without points in their names this is about the
columns `x` and `y` of both tables, and they agree if `x` is `y`. -/
theorem join_swap_iff (q : Select) :
    (∀ rows others, (joinPairs q rows others).Perm (joinPairs q.swapped rows others) ↔ q.Symmetric rows others) ∧
    (∀ e : Executor, (∀ t other ord ord' rows others, e.table q.table = .ok t → e.table q.joinTable = .ok other →
      e.rows ord t = .ok rows → e.rows ord' other = .ok others → q.Symmetric rows others) →
      ∀ ord, e.selectRows ord q = e.selectRows ord q.swapped) ∧
    ∀ A B x y, 46 ∉ A → 46 ∉ B → q.joinLeft = qualified A x → q.joinRight = qualified B y → ∀ rows others,
      (∀ r ∈ rows, r.Undotted) → (∀ r ∈ others, r.Undotted) →
      (q.Symmetric rows others ↔ ∀ a ∈ rows, ∀ b ∈ others, (a.get x).joins (b.get y) = (a.get y).joins (b.get x)) := by
  refine ⟨fun _ _ => pairs_perm_iff,fun _ symmetric => Executor.selectRows_swapped symmetric,?_⟩
  intro A B x y plain plain' left right rows others undotted undotted'
  unfold Select.Symmetric
  rw [left,right]
  apply forall₂_congr
  intro a first
  apply forall₂_congr
  intro b second
  rw [lookup_qualified (undotted a first) plain,lookup_qualified (undotted a first) plain',
    lookup_qualified (undotted' b second) plain,lookup_qualified (undotted' b second) plain']

theorem join_swap_shared : Sample.numbers.selectRows .stored (Sample.join "p.a" "c.a") =
    Sample.numbers.selectRows .stored (Sample.join "c.a" "p.a") := by
  obtain ⟨-,answers,named⟩ := join_swap_iff (Sample.join "p.a" "c.a")
  apply answers
  intro t other ord ord' rows others found found' read read'
  obtain rfl := Except.ok.inj ((by decide +kernel : _ = Except.ok 0).symm.trans found)
  obtain rfl := Except.ok.inj ((by decide +kernel : _ = Except.ok 1).symm.trans found')
  have undotted {t : Nat} {ord : Order} {rows : List Row} (read : Sample.numbers.rows ord t = .ok rows)
      (scans : (Sample.numbers.db.table t).scan.toOption.isSome)
      (plain : ∀ r ∈ (Sample.numbers.db.table t).scan.toOption.getD [], r.Undotted) : ∀ r ∈ rows, r.Undotted := by
    obtain ⟨rows',scanned⟩ := Option.isSome_iff_exists.mp scans
    rw [scanned] at plain
    obtain rfl := Except.ok.inj ((Executor.rows_closed rfl ord (eq_ok_of_toOption scanned)).symm.trans read)
    exact plain
  exact (named (ascii "p") (ascii "c") (ascii "a") (ascii "a") (by decide) (by decide) rfl rfl rows others
    (undotted read (by decide +kernel) (by decide +kernel)) (undotted read' (by decide +kernel) (by decide +kernel))).mpr
    fun _ _ _ _ => rfl

namespace Sample

def named : Executor := (server [(1,create "p" .int),(1,.createTable ⟨ascii "c",[⟨ascii "b",.int⟩],∅⟩),(1,insert "p" 1 (.int 5)),
  (1,.insert ⟨ascii "c",[ascii "id",ascii "b"],[.int 2,.int 7]⟩)]).executor 1

end Sample

/-- `ON c.b = p.a` looks for `b` in `p` and for `a` in `c`, and joins what it does not find. -/
theorem join_swap_differs :
    (Sample.named.selectRows .stored (Sample.join "p.a" "c.b")).map (·.rows) = .ok [] ∧
      (Sample.named.selectRows .stored (Sample.join "c.b" "p.a")).map (·.rows) = .ok [Table.pair 1 5] := by
  decide +kernel

end GoDb
