import Mathlib.Order.Lattice
import Mathlib.Data.List.Basic

/-! Separator chains of search trees. A node with `n` keys has `n+1` children,
and consecutive keys bound the range each child is responsible for. Nothing
here fixes the node type: `P lo hi child` is whatever a child must satisfy for
the half-open range from `lo` to `hi`. -/
namespace GoDb.Foundation.Separators

variable {K N : Type} [LinearOrder K]

def Above : Option K → K → Prop
  | none, _ => True
  | some bound, key => bound ≤ key

def Below : Option K → K → Prop
  | none, _ => True
  | some bound, key => key < bound

def Beyond : Option K → K → Prop
  | none, _ => True
  | some bound, key => bound < key

def InRange (lo hi : Option K) (key : K) : Prop := Above lo key ∧ Below hi key

/-- The keys that may separate two children of a node: both sides stay non-empty ranges. -/
def Between (lo hi : Option K) (key : K) : Prop := Beyond lo key ∧ Below hi key

theorem Above.trans {lo : Option K} {a b : K} (above : Above lo a) (le : a ≤ b) : Above lo b := by
  cases lo with
  | none => trivial
  | some bound => exact le_trans above le

theorem Below.trans {hi : Option K} {a b : K} (below : Below hi b) (le : a ≤ b) : Below hi a := by
  cases hi with
  | none => trivial
  | some bound => exact lt_of_le_of_lt le below

theorem Beyond.above {lo : Option K} {a : K} (beyond : Beyond lo a) : Above lo a := by
  cases lo with
  | none => trivial
  | some bound => exact le_of_lt beyond

theorem Beyond.trans {lo : Option K} {a b : K} (above : Above lo a) (lt : a < b) : Beyond lo b := by
  cases lo with
  | none => trivial
  | some bound => exact lt_of_le_of_lt above lt

inductive Chain (P : Option K → Option K → N → Prop) :
    Option K → Option K → List K → List N → Prop
  | one {lo hi child} (node : P lo hi child) : Chain P lo hi [] [child]
  | cons {lo hi sep child keys children} (node : P lo (some sep) child)
      (inside : Between lo hi sep) (rest : Chain P (some sep) hi keys children) :
      Chain P lo hi (sep::keys) (child::children)

/-- The child to descend into: the number of leading keys at or below `key`. -/
def position (keys : List K) (key : K) : Nat := (keys.takeWhile (· ≤ key)).length

variable {P : Option K → Option K → N → Prop} {lo hi : Option K} {keys : List K} {children : List N}

theorem Chain.length (chain : Chain P lo hi keys children) : children.length = keys.length + 1 := by
  induction chain with
  | one => rfl
  | cons node inside rest ih => simp [ih]

theorem Chain.all (chain : Chain P lo hi keys children) :
    ∀ child ∈ children, ∃ a b, P a b child := by
  induction chain with
  | one node => simpa using ⟨_,_,node⟩
  | cons node inside rest ih =>
    intro child member
    rcases List.mem_cons.mp member with rfl | later
    · exact ⟨_,_,node⟩
    · exact ih child later

theorem Chain.widen (keyed : N → K → Prop) (local_ : ∀ lo hi n k, P lo hi n → keyed n k → InRange lo hi k)
    (chain : Chain P lo hi keys children) :
    ∀ child ∈ children, ∀ k, keyed child k → InRange lo hi k := by
  induction chain with
  | one node =>
    intro child member k held
    rw [List.mem_singleton.mp member] at held
    exact local_ _ _ _ _ node held
  | cons node inside rest ih =>
    intro child member k held
    rcases List.mem_cons.mp member with rfl | later
    · have near := local_ _ _ _ _ node held
      exact ⟨near.1,inside.2.trans (le_of_lt near.2)⟩
    · have far := ih child later k held
      exact ⟨inside.1.above.trans far.1,far.2⟩

theorem Chain.append {sep : K} {firstKeys secondKeys : List K} {first second : List N}
    (left : Chain P lo (some sep) firstKeys first) (inside : Between lo hi sep)
    (right : Chain P (some sep) hi secondKeys second) :
    Chain P lo hi (firstKeys ++ sep::secondKeys) (first ++ second) := by
  generalize eq : some sep = middle at left
  induction left with
  | one node =>
    subst eq
    exact .cons node inside right
  | cons node within rest ih =>
    subst eq
    exact .cons node ⟨within.1,inside.2.trans (le_of_lt within.2)⟩
      (ih ⟨within.2,inside.2⟩ rfl)

theorem Chain.split {sep : K} {firstKeys secondKeys : List K} {first second : List N}
    (chain : Chain P lo hi (firstKeys ++ sep::secondKeys) (first ++ second))
    (size : first.length = firstKeys.length + 1) :
    Chain P lo (some sep) firstKeys first ∧ Between lo hi sep ∧
      Chain P (some sep) hi secondKeys second := by
  induction firstKeys generalizing lo first with
  | nil =>
    obtain ⟨child,rfl⟩ := List.length_eq_one_iff.mp size
    cases chain with
    | cons node inside rest => exact ⟨.one node,inside,rest⟩
  | cons key keys ih =>
    cases first with
    | nil => simp at size
    | cons child first =>
      cases chain with
      | cons node inside rest =>
        obtain ⟨left,within,right⟩ := ih rest (by simpa using size)
        exact ⟨.cons node ⟨inside.1,within.1⟩ left,⟨.trans inside.1.above within.1,within.2⟩,right⟩

/-- A chain seen from the child that `key` belongs to. The context accepts any
chain over the child's own range in its place. -/
structure Focus (P : Option K → Option K → N → Prop) (lo hi : Option K) (keys : List K)
    (children : List N) (key : K) where
  before : List K
  after : List K
  left : List N
  child : N
  right : List N
  low : Option K
  high : Option K
  keysEq : keys = before ++ after
  childrenEq : children = left ++ child::right
  aligned : before.length = left.length
  node : P low high child
  inside : InRange low high key
  smaller : ∀ n ∈ left, ∃ a b, P a (some b) n ∧ b ≤ key
  larger : ∀ n ∈ right, ∃ a b, P (some a) b n ∧ key < a
  plug : ∀ (newKeys : List K) (newChildren : List N), Chain P low high newKeys newChildren →
    Chain P lo hi (before ++ newKeys ++ after) (left ++ newChildren ++ right)

def Focus.splitRight {key sep : K} (f : Focus P lo hi keys children key) {first second : N}
    (left : P f.low (some sep) first) (between : Between f.low f.high sep) (right : P (some sep) f.high second)
    (reached : sep ≤ key) :
    Focus P lo hi (f.before ++ sep::f.after) (f.left ++ first::second::f.right) key where
  before := f.before ++ [sep]
  after := f.after
  left := f.left ++ [first]
  child := second
  right := f.right
  low := some sep
  high := f.high
  keysEq := by simp
  childrenEq := by simp
  aligned := by simp [f.aligned]
  node := right
  inside := ⟨reached,f.inside.2⟩
  smaller n member := by
    rcases List.mem_append.mp member with old | new
    · exact f.smaller n old
    · rw [List.mem_singleton.mp new]
      exact ⟨_,_,left,reached⟩
  larger := f.larger
  plug newKeys newChildren new := by
    simpa using f.plug (sep::newKeys) (first::newChildren) (.cons left between new)

def Focus.splitLeft {key sep : K} (f : Focus P lo hi keys children key) {first second : N}
    (left : P f.low (some sep) first) (between : Between f.low f.high sep) (right : P (some sep) f.high second)
    (short : key < sep) :
    Focus P lo hi (f.before ++ sep::f.after) (f.left ++ first::second::f.right) key where
  before := f.before
  after := sep::f.after
  left := f.left
  child := first
  right := second::f.right
  low := f.low
  high := some sep
  keysEq := rfl
  childrenEq := rfl
  aligned := f.aligned
  node := left
  inside := ⟨f.inside.1,short⟩
  smaller := f.smaller
  larger n member := by
    rcases List.mem_cons.mp member with rfl | old
    · exact ⟨_,_,right,short⟩
    · exact f.larger n old
  plug newKeys newChildren new := by
    simpa using f.plug (newKeys ++ [sep]) (newChildren ++ [second]) (new.append between (.one right))

theorem Chain.starts {start : K} (chain : Chain P (some start) hi keys children) (key : K)
    (before : key < start) : ∀ n ∈ children, ∃ a b, P (some a) b n ∧ key < a := by
  generalize eq : some start = lo at chain
  induction chain generalizing start with
  | one node =>
    subst eq
    intro n member
    rw [List.mem_singleton.mp member]
    exact ⟨_,_,node,before⟩
  | @cons lo hi sep child keys children node inside rest ih =>
    subst eq
    intro n member
    rcases List.mem_cons.mp member with rfl | later
    · exact ⟨_,_,node,before⟩
    · exact ih (before.trans inside.1) rfl n later

theorem Chain.focus (chain : Chain P lo hi keys children) (key : K) (range : InRange lo hi key) :
    ∃ f : Focus P lo hi keys children key, f.left.length = position keys key := by
  induction chain with
  | @one lo hi child node =>
    refine ⟨⟨[],[],[],child,[],lo,hi,rfl,rfl,rfl,node,range,?_,?_,?_⟩,rfl⟩
    · simp
    · simp
    · intro newKeys newChildren new
      simpa using new
  | @cons lo hi sep child keys children node inside rest ih =>
    by_cases descend : sep ≤ key
    · obtain ⟨f,index⟩ := ih ⟨descend,range.2⟩
      refine ⟨⟨sep::f.before,f.after,child::f.left,f.child,f.right,f.low,f.high,?_,?_,?_,f.node,f.inside,?_,f.larger,?_⟩,?_⟩
      · exact congrArg (sep::·) f.keysEq
      · exact congrArg (child::·) f.childrenEq
      · simp [f.aligned]
      · intro n member
        rcases List.mem_cons.mp member with rfl | later
        · exact ⟨_,_,node,descend⟩
        · exact f.smaller n later
      · intro newKeys newChildren new
        exact .cons node inside (f.plug newKeys newChildren new)
      · simp only [List.length_cons,index]
        simp [position,descend]
    · have below : key < sep := lt_of_not_ge descend
      refine ⟨⟨[],sep::keys,[],child,children,lo,some sep,rfl,rfl,rfl,node,⟨range.1,below⟩,?_,?_,?_⟩,?_⟩
      · simp
      · exact rest.starts key below
      · intro newKeys newChildren new
        -- The new chain ends at `sep`, where the old rest of the chain starts.
        exact new.append inside rest
      · simp [position,descend]

end GoDb.Foundation.Separators
