import GoDb.Foundation.StableSort
import GoDb.Foundation.Binary64Decimals
import GoDb.Foundation.Binary64Integers
import GoDb.DecimalText
import GoDb.GroupNames
import GoDb.Parser

/-! ORDER BY and the page of the result. A NULL is compared by its text, which is above those of all numbers. -/
namespace GoDb
open Foundation StableSort

def Low (s : Bytes) : Prop := ∃ b rest, s = b::rest ∧ b < 60

theorem Low.lt_null {s : Bytes} (low : Low s) : s < Value.nil.sprint := by
  obtain ⟨b,rest,rfl,below⟩ := low
  exact List.cons_lt_cons_iff.mpr (.inl below)

theorem low_digits {s : Bytes} (some : s ≠ []) (digits : ∀ c ∈ s, Time.isDigit c = true) : Low s := by
  obtain ⟨b,rest,rfl⟩ := List.exists_cons_of_ne_nil some
  have digit := digits b List.mem_cons_self
  rw [Time.isDigit,Bool.and_eq_true,decide_eq_true_eq,decide_eq_true_eq] at digit
  exact ⟨b,rest,rfl,lt_of_le_of_lt digit.2 (by decide)⟩

theorem low_decimalInt (i : Int) : Low (decimalInt 0 i) := by
  unfold decimalInt
  split_ifs
  · exact ⟨45,_,rfl,by decide⟩
  · exact low_digits (decimal_ne_nil _) fun _ => decimal_digits

theorem ofDigitChars_zeros {digits : List Char} (zeros : ∀ c ∈ digits, c = '0') : Nat.ofDigitChars 10 digits 0 = 0 := by
  induction digits with
  | nil => rfl
  | cons c digits ih =>
    obtain ⟨rfl,later⟩ := List.forall_mem_cons.mp zeros
    rw [Nat.ofDigitChars_cons]
    exact ih later

theorem digits_ne_nil {n : Nat} (some : 0 < n) : ((decimal 0 n).reverse.dropWhile (· == 48)).reverse ≠ [] := by
  intro none
  rw [List.reverse_eq_nil_iff,List.dropWhile_eq_nil_iff] at none
  have zeros : ∀ c ∈ Nat.toDigits 10 n, c = '0' := by
    intro c member
    have byte : UInt8.ofNat c.toNat ∈ decimal 0 n := by
      rw [decimal_eq]
      exact List.mem_map_of_mem member
    have zero := eq_of_beq (none _ (List.mem_reverse.mpr byte))
    have size := (digit_byte (Nat.isDigit_of_mem_toDigits (by decide) (by decide) member)).1
    rw [zero] at size
    exact Char.toNat_inj.mp size.symm
  have value := ofDigitChars_zeros zeros
  rw [Nat.ofDigitChars_ten_toDigits] at value
  exact some.ne' value

theorem low_floatText {bits : UInt64} (number : Binary64.isNaN bits = false) : Low (floatText bits) := by
  unfold floatText
  rw [number,if_neg Bool.false_ne_true]
  by_cases infinite : Binary64.isInfinite bits = true
  · rw [if_pos infinite]
    split_ifs
    · exact ⟨45,_,rfl,by decide⟩
    · exact ⟨43,_,rfl,by decide⟩
  rw [if_neg infinite]
  by_cases negative : Binary64.negative bits = true
  · dsimp only
    rw [if_pos negative]
    split_ifs
    all_goals exact ⟨45,_,rfl,by decide⟩
  dsimp only
  rw [if_neg negative]
  by_cases zero : Binary64.magnitude bits = 0
  · rw [if_pos zero]
    exact ⟨48,_,rfl,by decide⟩
  rw [if_neg zero]
  have front : Low ((decimal 0 (Binary64.shortest bits).1).reverse.dropWhile (· == 48)).reverse := by
    apply low_digits (digits_ne_nil (Binary64.shortest_pos zero))
    intro c member
    exact decimal_digits (List.mem_reverse.mp ((List.dropWhile_sublist _).mem (List.mem_reverse.mp member)))
  obtain ⟨d,more,same,below⟩ := front
  rw [same]
  generalize point : ((decimal 0 (Binary64.shortest bits).1).length : Int) + (Binary64.shortest bits).2 = place
  by_cases far : place - 1 < -4 ∨ 6 ≤ place - 1
  · rw [if_pos far]
    exact ⟨d,_,rfl,below⟩
  rw [if_neg far]
  by_cases leading : place ≤ 0
  · rw [if_pos leading]
    exact ⟨48,_,rfl,by decide⟩
  · rw [if_neg leading]
    obtain ⟨p,places⟩ : ∃ p, place.toNat = p + 1 := ⟨_,(Nat.succ_pred_eq_of_pos (by omega)).symm⟩
    rw [places]
    exact ⟨d,_,rfl,below⟩

variable {S : Value → Prop} {q : Select}

namespace Value

theorem sprint_lt_null {v : Value} {x : UInt64} (number : v.number = some x) (valid : Binary64.isNaN x = false) :
    v.sprint < Value.nil.sprint := by
  apply Low.lt_null
  cases v with
  | int i => exact low_decimalInt i.toInt
  | float bits =>
    obtain rfl : bits = x := Option.some.inj number
    exact low_floatText valid
  | _ => cases number

def Of (t : ColumnType) : Value → Prop
  | .nil => True
  | .int _ => t = .int
  | .string _ => t = .string
  | .bool _ => t = .bool
  | .float bits => t = .float ∧ Binary64.isNaN bits = false
  | .bytes _ => t = .bytes
  | .time _ => t = .timestamp
  | .parameter _ => False

/-- The comparison of some values is that of their keys. -/
def Keyed {β : Type} [LinearOrder β] (S : Value → Prop) (key : Value → β) : Prop :=
  ∀ u v, S u → S v → u.compare v = cmp (key u) (key v)

theorem orderBy_eq_cmp {α β : Type} [LinearOrder β] {less : α → α → Bool} {a b : α} {x y : β}
    (below : less a b = true ↔ x < y)
    (above : less b a = true ↔ y < x) : orderBy less a b = cmp x y := by
  rw [orderBy]
  rcases lt_trichotomy x y with first | same | second
  · rw [if_pos (below.mpr first),(cmp_eq_lt_iff x y).mpr first]
  · subst same
    rw [if_neg fun less => lt_irrefl x (below.mp less),if_neg fun less => lt_irrefl x (above.mp less),cmp_self_eq_eq]
  · rw [if_neg fun less => lt_asymm second (below.mp less),if_pos (above.mpr second),(cmp_eq_gt_iff x y).mpr second]

theorem keyed_text (text : ∀ v, S v → v.number = none) : Keyed S sprint := by
  intro u v first second
  rw [compare_text (text u first) (text v second)]
  exact orderBy_eq_cmp decide_eq_true_iff decide_eq_true_iff

def place (v : Value) : WithTop Int :=
  match v.number with
  | some x => (Binary64.rank x : Int)
  | none => ⊤

theorem compare_null (v : Value) : v.compare .nil = textOrder v.sprint Value.nil.sprint := by
  cases v <;> rfl

theorem null_compare (v : Value) : Value.nil.compare v = textOrder Value.nil.sprint v.sprint := by
  cases v <;> rfl

theorem keyed_number (numbers : ∀ v, S v → v = .nil ∨ ∃ x, v.number = some x ∧ Binary64.isNaN x = false) :
    Keyed S place := by
  intro u v first second
  rcases numbers u first with rfl | ⟨x,isX,valid⟩
  · rcases numbers v second with rfl | ⟨y,isY,valid'⟩
    · rfl
    · have below := sprint_lt_null isY valid'
      have top : v.place < Value.nil.place := by
        rw [place,isY]
        exact WithTop.coe_lt_top _
      rw [null_compare,(cmp_eq_gt_iff _ _).mpr top]
      exact (orderBy_eq_gt textLess_irrefl textLess_trans).mpr (decide_eq_true below)
  · rcases numbers v second with rfl | ⟨y,isY,valid'⟩
    · have below := sprint_lt_null isX valid
      have top : u.place < Value.nil.place := by
        rw [place,isX]
        exact WithTop.coe_lt_top _
      rw [compare_null,(cmp_eq_lt_iff _ _).mpr top]
      exact orderBy_eq_lt.mpr (decide_eq_true below)
    · rw [compare_numbers isX isY,place,place,isX,isY]
      apply orderBy_eq_cmp
      · rw [WithTop.coe_lt_coe,Binary64.less,valid,valid']
        exact decide_eq_true_iff
      · rw [WithTop.coe_lt_coe,Binary64.less,valid,valid']
        exact decide_eq_true_iff

structure Ordered (S : Value → Prop) : Prop where
  refl : ∀ u, S u → u.compare u ≠ .gt
  total : ∀ u v, S u → S v → u.compare v ≠ .gt ∨ v.compare u ≠ .gt
  trans : ∀ u v w, S u → S v → S w → u.compare v ≠ .gt → v.compare w ≠ .gt → u.compare w ≠ .gt
  swap : ∀ u v, S u → S v → v.compare u = (u.compare v).swap

section Keyed

variable {β : Type} [LinearOrder β] {S : Value → Prop} {key : Value → β} (keyed : Keyed S key)

include keyed

theorem Keyed.le_iff {u v : Value} (first : S u) (second : S v) : u.compare v ≠ .gt ↔ key u ≤ key v := by
  rw [keyed u v first second,Ne,cmp_eq_gt_iff,not_lt]

theorem Keyed.ordered : Ordered S where
  refl u member := (keyed.le_iff member member).mpr (le_refl _)
  total u v first second := by
    rw [keyed.le_iff first second,keyed.le_iff second first]
    exact le_total _ _
  trans u v w first second third := by
    rw [keyed.le_iff first second,keyed.le_iff second third,keyed.le_iff first third]
    exact le_trans
  swap u v first second := by
    rw [keyed v u second first,keyed u v first second,cmp_swap]

end Keyed

end Value

structure SortedRows (column : Bytes) (desc : Bool) (rows sorted : List Row) : Prop where
  perm : sorted.Perm rows
  ordered : sorted.Pairwise fun a b => (a.get column).compare (b.get column) ≠ if desc then .lt else .gt
  ties : ∀ r ∈ rows, sorted.filter (fun a => (a.get column).compare (r.get column) = .eq) =
    rows.filter fun a => (a.get column).compare (r.get column) = .eq

structure Ranks {γ : Type} [LinearOrder γ] (column : Bytes) (desc : Bool) (rows : List Row) (rank : Row → γ) : Prop where
  le : ∀ a ∈ rows, ∀ b ∈ rows, (a.get column).compare (b.get column) ≠ (if desc then .lt else .gt) ↔ rank a ≤ rank b
  tie : ∀ a ∈ rows, ∀ b ∈ rows, (a.get column).compare (b.get column) = .eq ↔ rank a = rank b
  swap : ∀ a ∈ rows, ∀ b ∈ rows, (b.get column).compare (a.get column) = ((a.get column).compare (b.get column)).swap

section Ranks

variable {γ : Type} [LinearOrder γ] {column : Bytes} {desc : Bool} {rows sorted sorted' : List Row} {rank : Row → γ}

theorem filter_tie (ranks : Ranks column desc rows rank) (inside : ∀ a ∈ sorted, a ∈ rows) {r : Row} (member : r ∈ rows) :
    sorted.filter (fun a => (a.get column).compare (r.get column) = .eq) = sorted.filter fun a => rank a = rank r := by
  apply List.filter_congr
  intro a there
  exact decide_eq_decide.mpr (ranks.tie a (inside a there) r member)

theorem sortedRows_iff (ranks : Ranks column desc rows rank) :
    SortedRows column desc rows sorted ↔ Sorts rank rows sorted := by
  have inside (perm : sorted.Perm rows) : ∀ a ∈ sorted, a ∈ rows := fun a => perm.mem_iff.mp
  have pairwise (perm : sorted.Perm rows) :
      (sorted.Pairwise fun a b => (a.get column).compare (b.get column) ≠ if desc then .lt else .gt) ↔
      sorted.Pairwise fun a b => rank a ≤ rank b :=
    List.Pairwise.iff_of_mem fun {a b} first second => ranks.le a (inside perm a first) b (inside perm b second)
  constructor
  · intro holds
    refine ⟨holds.perm,(pairwise holds.perm).mp holds.ordered,fun k => ?_⟩
    by_cases some : ∃ r ∈ rows, rank r = k
    · obtain ⟨r,member,rfl⟩ := some
      rw [← filter_tie ranks (inside holds.perm) member,← filter_tie ranks (fun _ => id) member]
      exact holds.ties r member
    · have none (list : List Row) (inside : ∀ a ∈ list, a ∈ rows) : list.filter (fun a => rank a = k) = [] :=
        List.filter_eq_nil_iff.mpr fun a there same => some ⟨a,inside a there,of_decide_eq_true same⟩
      rw [none sorted (inside holds.perm),none rows fun _ => id]
  · intro holds
    refine ⟨holds.perm,(pairwise holds.perm).mpr holds.ordered,fun r member => ?_⟩
    rw [filter_tie ranks (inside holds.perm) member,filter_tie ranks (fun _ => id) member]
    exact holds.ties (rank r)

theorem sortedRows_iff_orderRows (ranks : Ranks q.orderBy q.desc rows rank) :
    SortedRows q.orderBy q.desc rows sorted ↔ sorted = orderRows q rows := by
  have sorts : Sorts rank rows (orderRows q rows) := by
    apply sorts_insertionSort
    intro a first b second
    rw [← ranks.le a first b second]
    dsimp only
    rw [ranks.swap a first b second]
    cases (a.get q.orderBy).compare (b.get q.orderBy) <;> cases q.desc <;> decide
  rw [sortedRows_iff ranks]
  constructor
  · intro holds
    exact holds.unique sorts
  · rintro rfl
    exact sorts

end Ranks

theorem Value.Keyed.orderRows {β : Type} [LinearOrder β] {key : Value → β} (keyed : Value.Keyed S key)
    {rows : List Row} (each : ∀ r ∈ rows, S (r.get q.orderBy)) (sorted : List Row) :
    SortedRows q.orderBy q.desc rows sorted ↔ sorted = GoDb.orderRows q rows := by
  have swap (a : Row) (first : a ∈ rows) (b : Row) (second : b ∈ rows) :=
    keyed.ordered.swap _ _ (each a first) (each b second)
  have compare (a : Row) (first : a ∈ rows) (b : Row) (second : b ∈ rows) := keyed _ _ (each a first) (each b second)
  cases direction : q.desc with
  | false =>
    rw [← direction]
    have ranks : Ranks q.orderBy q.desc rows fun r => key (r.get q.orderBy) := by
      refine ⟨fun a first b second => ?_,fun a first b second => ?_,swap⟩
      · rw [direction]
        exact keyed.le_iff (each a first) (each b second)
      · rw [compare a first b second,cmp_eq_eq_iff]
    exact sortedRows_iff_orderRows ranks
  | true =>
    rw [← direction]
    have ranks : Ranks q.orderBy q.desc rows fun r => OrderDual.toDual (key (r.get q.orderBy)) := by
      refine ⟨fun a first b second => ?_,fun a first b second => ?_,swap⟩
      · rw [direction,if_pos rfl,compare a first b second,Ne,cmp_eq_lt_iff,not_lt,OrderDual.toDual_le_toDual]
      · rw [compare a first b second,cmp_eq_eq_iff,OrderDual.toDual_inj]
    exact sortedRows_iff_orderRows ranks

/-! The page. -/

def Select.ordered (q : Select) (rows : List Row) : List Row := if q.orderBy = [] then rows else orderRows q rows

theorem Select.length_ordered (q : Select) (rows : List Row) : (q.ordered rows).length = rows.length := by
  unfold Select.ordered
  split_ifs
  · rfl
  · exact List.length_insertionSort ..

def Select.start (q : Select) (n : Nat) : Nat := min q.offset.toInt.toNat n

/-- The rows from the first on, as many as the limit says. A limit below 0 is none. -/
def Select.page (q : Select) (rows : List Row) : List Row :=
  if q.limit < 0 then rows.drop (q.start rows.length) else (rows.drop (q.start rows.length)).take q.limit.toInt.toNat

/-- The sum of the place and the limit is a number of 64 bits with a sign. -/
def Select.Pages (q : Select) (n : Nat) : Prop := 0 ≤ q.limit → q.start n + q.limit.toInt.toNat < 2^63

instance (q : Select) (n : Nat) : Decidable (q.Pages n) := inferInstanceAs (Decidable (_ → _))

theorem toInt_size {n : Nat} (fits : n < 2^63) : (Int64.ofNat n).toInt = n := Int64.toInt_ofNat_of_lt fits

theorem toInt_start (q : Select) {n : Nat} (fits : n < 2^63) :
    (if Int64.ofNat n < (if q.offset < 0 then 0 else q.offset) then Int64.ofNat n
      else if q.offset < 0 then 0 else q.offset).toInt =
      q.start n := by
  have size := toInt_size fits
  have zero : (0 : Int64).toInt = 0 := rfl
  unfold Select.start
  split_ifs with first second third
  all_goals simp only [Int64.lt_iff_toInt_lt] at *
  all_goals omega

theorem toInt_add_nonneg {a b : Int64} (first : 0 ≤ a.toInt) (second : 0 ≤ b.toInt) :
    (a + b).toInt = if a.toInt + b.toInt < 2^63 then a.toInt + b.toInt else a.toInt + b.toInt - 2^64 := by
  have small := a.toInt_lt
  have small' := b.toInt_lt
  rw [Int64.toInt_add,Int.bmod_def]
  split_ifs <;> omega

theorem toInt_stop {n : Nat} (fits : n < 2^63) {start : Int64} (begins : start.toInt = q.start n) :
    (if 0 ≤ q.limit ∧ start + q.limit < Int64.ofNat n then start + q.limit else Int64.ofNat n).toInt =
      if 0 ≤ q.limit then
        if q.Pages n then min (q.start n + q.limit.toInt) n else q.start n + q.limit.toInt - 2^64
      else n := by
  have size := toInt_size fits
  by_cases limited : 0 ≤ q.limit
  · have positive : 0 ≤ q.limit.toInt := Int64.le_iff_toInt_le.mp limited
    have bound := q.limit.toInt_lt
    have sum := toInt_add_nonneg (a := start) (by omega) positive
    have below : start + q.limit < Int64.ofNat n ↔ (start + q.limit).toInt < n := by rw [Int64.lt_iff_toInt_lt,size]
    simp only [limited,true_and,if_true,below]
    rw [apply_ite Int64.toInt,size]
    by_cases pages : q.Pages n
    · have small := pages limited
      rw [if_pos (by omega)] at sum
      rw [if_pos pages,sum,begins]
      split_ifs <;> omega
    · have large : ¬start.toInt + q.limit.toInt < 2^63 := fun small => pages fun _ => by omega
      have first : q.start n ≤ n := Nat.min_le_right ..
      rw [if_neg large] at sum
      rw [if_neg pages,if_pos (by omega),sum,begins]
  · simp only [limited,false_and,if_false,size]

theorem applyPagingAndOrder_eq (q : Select) {out : Result} (fits : out.rows.length < 2^63) :
    applyPagingAndOrder out q =
      if q.Pages out.rows.length then .ok {out with rows := q.page (q.ordered out.rows)} else .error .panics := by
  have length := q.length_ordered out.rows
  have ordered : (if q.orderBy = [] then out.rows else orderRows q out.rows) = q.ordered out.rows := rfl
  have bound : q.start out.rows.length ≤ out.rows.length := Nat.min_le_right ..
  have begins := toInt_start q fits
  unfold applyPagingAndOrder
  dsimp only
  rw [ordered,length]
  generalize (if Int64.ofNat out.rows.length < (if q.offset < 0 then 0 else q.offset) then Int64.ofNat out.rows.length
    else if q.offset < 0 then 0 else q.offset) = start at begins ⊢
  have ends := toInt_stop fits begins
  generalize (if 0 ≤ q.limit ∧ start + q.limit < Int64.ofNat out.rows.length then start + q.limit
    else Int64.ofNat out.rows.length) = stop at ends ⊢
  unfold Select.page
  rw [length,begins,Int.toNat_natCast]
  have crossed : stop < start ↔ stop.toInt < q.start out.rows.length := by rw [Int64.lt_iff_toInt_lt,begins]
  by_cases limited : 0 ≤ q.limit
  · have positive : 0 ≤ q.limit.toInt := Int64.le_iff_toInt_le.mp limited
    have small := q.limit.toInt_lt
    rw [if_pos limited] at ends
    rw [if_neg (Int64.not_lt.mpr limited)]
    by_cases pages : q.Pages out.rows.length
    · rw [if_pos pages] at ends
      rw [if_pos pages,if_neg (crossed.not.mpr (by omega)),List.drop_take]
      congr 2
      rw [List.take_eq_take_iff,List.length_drop,length]
      omega
    · rw [if_neg pages] at ends
      rw [if_neg pages,if_pos (crossed.mpr (by omega))]
  · rw [if_neg limited] at ends
    have pages : q.Pages out.rows.length := fun positive => absurd positive limited
    rw [if_pos pages,if_neg (crossed.not.mpr (by omega)),
      if_pos (Int64.not_le.mp limited),ends,Int.toNat_natCast,← length,List.take_length]

theorem Select.page_all (unlimited : q.limit < 0) (front : q.offset ≤ 0) (rows : List Row) : q.page rows = rows := by
  have first : q.start rows.length = 0 := by
    have zero : (0 : Int64).toInt = 0 := rfl
    rw [Int64.le_iff_toInt_le] at front
    unfold Select.start
    omega
  rw [Select.page,if_pos unlimited,first,List.drop_zero]

theorem Value.Keyed.sorts {β : Type} [LinearOrder β] {key : Value → β} (keyed : Value.Keyed S key) {out : Result}
    (ordering : q.orderBy ≠ []) (unlimited : q.limit < 0) (front : q.offset ≤ 0) (fits : out.rows.length < 2^63)
    (each : ∀ r ∈ out.rows, S (r.get q.orderBy)) :
    ∃ sorted, applyPagingAndOrder out q = .ok {out with rows := sorted} ∧ SortedRows q.orderBy q.desc out.rows sorted := by
  have pages : q.Pages out.rows.length := fun limited => absurd unlimited (Int64.not_lt.mpr limited)
  refine ⟨_,?_,(keyed.orderRows each _).mpr rfl⟩
  rw [applyPagingAndOrder_eq q fits,if_pos pages,Select.page_all unlimited front,Select.ordered,if_neg ordering]

namespace Value

theorem keyed_int : Keyed (Of .int) place := by
  apply keyed_number
  intro v member
  cases v with
  | nil => exact .inl rfl
  | int i =>
    have small := i.toInt_lt
    have large := i.le_toInt
    exact .inr ⟨_,rfl,(Binary64.finite_ofInt (by omega)).1⟩
  | float => cases member.1
  | _ => cases member

theorem keyed_float : Keyed (Of .float) place := by
  apply keyed_number
  intro v member
  cases v with
  | nil => exact .inl rfl
  | float bits => exact .inr ⟨bits,rfl,member.2⟩
  | _ => cases member

theorem keyed_other {t : ColumnType} (int : t ≠ .int) (float : t ≠ .float) : Keyed (Of t) sprint := by
  apply keyed_text
  intro v member
  cases v with
  | int => exact absurd member int
  | float => exact absurd member.1 float
  | _ => rfl

end Value

/-- The values of a column and NULL are ordered, and ORDER BY is the stable sort. -/
theorem order_by_sorts (t : ColumnType) :
    Value.Ordered (Value.Of t) ∧
    ∀ (q : Select) (out : Result), q.orderBy ≠ [] → q.limit < 0 → q.offset ≤ 0 → out.rows.length < 2^63 →
      (∀ r ∈ out.rows, (r.get q.orderBy).Of t) →
      ∃ sorted, applyPagingAndOrder out q = .ok {out with rows := sorted} ∧ SortedRows q.orderBy q.desc out.rows sorted := by
  by_cases int : t = .int
  · subst int
    exact ⟨Value.keyed_int.ordered,fun q out => Value.keyed_int.sorts⟩
  by_cases float : t = .float
  · subst float
    exact ⟨Value.keyed_float.ordered,fun q out => Value.keyed_float.sorts⟩
  exact ⟨(Value.keyed_other int float).ordered,fun q out => (Value.keyed_other int float).sorts⟩

namespace Sample

def byValue : Select := ⟨[ascii "id",ascii "a"],ascii "u",none,ascii "a",true,-1,0,[],[],[],[]⟩

def withNull : List Row := [Table.pair 1 5,((∅ : Row).insert (ascii "id") (.int 2)).insert (ascii "a") .nil,Table.pair 3 5]

end Sample

/-- The NULL is above the numbers, and the two fives stay in their order. -/
theorem order_by_sorts_null :
    ∃ sorted, applyPagingAndOrder ⟨[],Sample.withNull,0⟩ Sample.byValue = .ok ⟨[],sorted,0⟩ ∧
      SortedRows (ascii "a") true Sample.withNull sorted := by
  apply (order_by_sorts .int).2 Sample.byValue ⟨[],Sample.withNull,0⟩ (by decide) (by decide) (by decide) (by decide)
  exact List.forall_mem_cons.mpr ⟨rfl,List.forall_mem_cons.mpr ⟨trivial,List.forall_mem_singleton.mpr rfl⟩⟩

/-! The pages of a size, one after the other. -/

theorem flatten_pages {α : Type} (list : List α) (l m : Nat) :
    ((List.range m).map fun i => (list.drop (i * l)).take l).flatten = list.take (m * l) := by
  induction m with
  | zero => rw [Nat.zero_mul,List.take_zero]; rfl
  | succ m ih =>
    rw [List.range_succ,List.map_append,List.flatten_append,ih,Nat.succ_mul,List.take_add]
    simp

def Select.paged (q : Select) (l : Int64) (i : Nat) : Select := {q with limit := l,offset := Int64.ofNat (i * l.toInt.toNat)}

theorem Select.page_paged (q : Select) {l : Int64} (positive : 0 < l) {i : Nat} (offset : i * l.toInt.toNat < 2^63)
    (rows : List Row) :
    (q.paged l i).page rows = (rows.drop (i * l.toInt.toNat)).take l.toInt.toNat := by
  have limited : ¬(q.paged l i).limit < 0 := Int64.not_lt.mpr (Int64.le_of_lt positive)
  have first : (q.paged l i).start rows.length = min (i * l.toInt.toNat) rows.length := by
    rw [Select.start,show (q.paged l i).offset = Int64.ofNat (i * l.toInt.toNat) from rfl,toInt_size offset,
      Int.toNat_natCast]
  rw [Select.page,if_neg limited,first]
  congr 1
  rcases Nat.le_total (i * l.toInt.toNat) rows.length with inside | behind
  · rw [Nat.min_eq_left inside]
  · rw [Nat.min_eq_right behind,List.drop_length,List.drop_eq_nil_of_le behind]

/-- The page is cut from the ordered rows, unless its end is no number of 64 bits with a sign; so the pages of a size make up
the whole result. -/
theorem paging_iff (q : Select) {out : Result} (fits : out.rows.length < 2^63) :
    (applyPagingAndOrder out q = .ok {out with rows := q.page (q.ordered out.rows)} ↔ q.Pages out.rows.length) ∧
    ∀ (l : Int64) (m : Nat), 0 < l → out.rows.length ≤ m * l.toInt.toNat → (∀ i < m, i * l.toInt.toNat < 2^63) →
      ((∃ pages, (List.range m).mapM (fun i => applyPagingAndOrder out (q.paged l i)) = .ok pages ∧
          (pages.map Result.rows).flatten = q.ordered out.rows) ↔
        ∀ i < m, (q.paged l i).Pages out.rows.length) := by
  constructor
  · rw [applyPagingAndOrder_eq q fits]
    by_cases pages : q.Pages out.rows.length
    · rw [if_pos pages]
      exact iff_of_true rfl pages
    · rw [if_neg pages]
      exact iff_of_false (fun same => by cases same) pages
  · intro l m positive enough offsets
    constructor
    · intro ⟨pages,done,_⟩ i small
      obtain ⟨page,taken⟩ := Results.mapM_ok_mem done i (List.mem_range.mpr small)
      by_contra wraps
      rw [applyPagingAndOrder_eq _ fits,if_neg wraps] at taken
      cases taken
    · intro all
      have each (i : Nat) (member : i ∈ List.range m) : applyPagingAndOrder out (q.paged l i) =
          pure {out with rows := ((q.ordered out.rows).drop (i * l.toInt.toNat)).take l.toInt.toNat} := by
        have small := List.mem_range.mp member
        rw [applyPagingAndOrder_eq _ fits,if_pos (all i small),Select.page_paged q positive (offsets i small)]
        rfl
      refine ⟨_,(Results.mapM_congr each).trans (List.mapM_pure ..),?_⟩
      rw [List.map_map]
      refine (flatten_pages (q.ordered out.rows) l.toInt.toNat m).trans ?_
      rw [List.take_of_length_le (q.length_ordered out.rows ▸ enough)]

theorem paging_second :
    let q := {Sample.byValue with limit := 1,offset := 1}
    applyPagingAndOrder ⟨[],Sample.withNull,0⟩ q = .ok ⟨[],q.page (q.ordered Sample.withNull),0⟩ :=
  (paging_iff {Sample.byValue with limit := 1,offset := 1} (by decide)).1.mpr (by decide)

/-- With the largest limit there is, the end of every page but the first wraps around. -/
theorem paging_wraps :
    ∃ q, Parser.parse (ascii "SELECT * FROM u LIMIT 9223372036854775807 OFFSET 1") = .ok (.plain (.select q)) ∧
      ((Sample.server [(1,Sample.create "u" .int),(1,Sample.insert "u" 1 (.int 5))]).executor 1).selectRows .stored q =
        .error .panics :=
  ⟨⟨[[42]],ascii "u",none,[],false,9223372036854775807,1,[],[],[],[]⟩,by decide +kernel,by decide +kernel⟩

end GoDb
