import GoDb.BTreeLeaf

/-! The B+Tree refines a finite map. `Ok` is the ordering, balance and occupancy
invariant of a subtree over its key range; `Linked` says that the next pointers
thread its leaves in order. Both are carried through every split. -/
namespace GoDb.BTree
open Foundation.Separators Foundation.SortedEntries Foundation.ListEdits

def NonRoot : Node → Prop
  | .leaf l => btreeOrder / 2 ≤ l.keys.length
  | .inner _ children => btreeOrder / 2 ≤ children.length

def Ok : Nat → Option Bytes → Option Bytes → Node → Prop
  | 0,lo,hi,.leaf l => LeafOk lo hi l
  | d+1,lo,hi,.inner keys children =>
    keys.length ≤ btreeOrder ∧ Chain (fun lo hi child => Ok d lo hi child ∧ NonRoot child) lo hi keys children
  | 0,_,_,.inner _ _ => False
  | _+1,_,_,.leaf _ => False

variable {d fresh : Nat} {lo hi : Option Bytes} {n : Node} {key : Bytes} {children : List Node} {old new : List Leaf}
  {t : Tree}

@[elab_as_elim] theorem Ok.subtrees {motive : (d : Nat) → (lo hi : Option Bytes) → (n : Node) → Ok d lo hi n → Prop}
    (leaf : ∀ (lo hi : Option Bytes) (l : Leaf) (ok : LeafOk lo hi l), motive 0 lo hi (.leaf l) ok)
    (inner : ∀ (d : Nat) (lo hi : Option Bytes) (keys : List Bytes) (children : List Node)
      (width : keys.length ≤ btreeOrder)
      (chain : Chain (fun lo hi child => Ok d lo hi child ∧ NonRoot child) lo hi keys children)
      (ih : ∀ {lo hi n} (ok : Ok d lo hi n), motive d lo hi n ok),
      motive (d+1) lo hi (.inner keys children) (And.intro width chain)) (ok : Ok d lo hi n) : motive d lo hi n ok := by
  induction d generalizing lo hi n with
  | zero =>
    cases n with
    | leaf l => exact leaf lo hi l ok
    | inner keys children => exact ok.elim
  | succ d ih =>
    cases n with
    | leaf l => exact ok.elim
    | inner keys children => exact inner d lo hi keys children ok.1 ok.2 ih

def Node.entries (n : Node) : List Entry := n.leaves.flatMap Leaf.entries

theorem leavesAll_eq (children : List Node) : leavesAll children = children.flatMap Node.leaves := by
  induction children with
  | nil => rfl
  | cons child rest ih => simp [leavesAll,ih]

theorem leaves_inner (keys : List Bytes) (children : List Node) :
    (Node.inner keys children).leaves = children.flatMap Node.leaves := by
  rw [Node.leaves,leavesAll_eq]

theorem entries_inner (keys : List Bytes) (children : List Node) :
    (Node.inner keys children).entries = children.flatMap Node.entries := by
  simp only [Node.entries,leaves_inner,List.flatMap_assoc]
  rfl

theorem entries_leaf (l : Leaf) : (Node.leaf l).entries = l.entries := by
  simp [Node.entries,Node.leaves]

theorem Ok.depth (ok : Ok d lo hi n) : n.depth = d := by
  induction ok using Ok.subtrees with
  | leaf => rfl
  | inner d lo hi keys children width chain ih =>
    cases chain with
    | one node => simp only [Node.depth,ih node.1]
    | cons node inside rest => simp only [Node.depth,ih node.1]

theorem Ok.keys (ok : Ok d lo hi n) : n.keys.length ≤ btreeOrder := by
  induction ok using Ok.subtrees with
  | leaf lo hi l ok => exact ok.room
  | inner d lo hi keys children width => exact width

theorem Ok.inside (ok : Ok d lo hi n) : ∀ e ∈ n.entries, InRange lo hi e.1 := by
  induction ok using Ok.subtrees with
  | leaf lo hi l ok =>
    intro e member
    rw [entries_leaf] at member
    exact ok.inside _ (Leaf.mem_keys member)
  | inner d lo hi keys children width chain ih =>
    intro e member
    rw [entries_inner] at member
    obtain ⟨child,among,held⟩ := List.mem_flatMap.mp member
    refine chain.widen (fun n k => ∃ v, (k,v) ∈ n.entries) ?_ child among e.1 ⟨e.2,held⟩
    rintro lo hi n k ⟨node,-⟩ ⟨v,kept⟩
    exact ih node (k,v) kept

theorem Ok.smaller {nodes : List Node} (bounded : ∀ n ∈ nodes, ∃ a b, (Ok d a (some b) n ∧ NonRoot n) ∧ b ≤ key) :
    ∀ e ∈ nodes.flatMap Node.entries, e.1 < key := by
  intro e member
  obtain ⟨n,among,held⟩ := List.mem_flatMap.mp member
  obtain ⟨a,b,⟨ok,-⟩,le⟩ := bounded n among
  exact lt_of_lt_of_le (ok.inside e held).2 le

theorem Ok.larger {nodes : List Node} (bounded : ∀ n ∈ nodes, ∃ a b, (Ok d (some a) b n ∧ NonRoot n) ∧ key < a) :
    ∀ e ∈ nodes.flatMap Node.entries, key < e.1 := by
  intro e member
  obtain ⟨n,among,held⟩ := List.mem_flatMap.mp member
  obtain ⟨a,b,⟨ok,-⟩,lt⟩ := bounded n among
  exact lt_of_lt_of_le lt (ok.inside e held).1

theorem Chain.increasing (each : ∀ lo hi n, Ok d lo hi n → Increasing n.entries) {keys : List Bytes}
    (chain : Chain (fun lo hi child => Ok d lo hi child ∧ NonRoot child) lo hi keys children) :
    Increasing (children.flatMap Node.entries) := by
  induction chain with
  | one node => simpa using each _ _ _ node.1
  | @cons lo hi sep child keys children node inside rest ih =>
    rw [List.flatMap_cons]
    refine List.pairwise_append.mpr ⟨each _ _ _ node.1,ih,?_⟩
    intro a first b second
    obtain ⟨n,among,held⟩ := List.mem_flatMap.mp second
    have upper := (rest.widen (fun n k => ∃ v, (k,v) ∈ n.entries) (by
      rintro lo hi n k ⟨ok,-⟩ ⟨v,kept⟩
      exact ok.inside (k,v) kept) n among b.1 ⟨b.2,held⟩).1
    exact lt_of_lt_of_le (node.1.inside a first).2 upper

theorem Ok.increasing (ok : Ok d lo hi n) : Increasing n.entries := by
  induction ok using Ok.subtrees with
  | leaf lo hi l ok =>
    rw [entries_leaf]
    exact ok.increasing
  | inner d lo hi keys children width chain ih =>
    rw [entries_inner]
    exact Chain.increasing (fun _ _ _ => ih) chain

theorem getChild_cut (key : Bytes) (left right : List Node) (child : Node) :
    getChild key (left ++ child::right) left.length = child.get key := by
  induction left with
  | nil => simp [getChild]
  | cons head rest ih => simpa [getChild] using ih

theorem Ok.get (ok : Ok d lo hi n) (key : Bytes) (inside : InRange lo hi key) : n.get key = n.entries.lookup key := by
  induction ok using Ok.subtrees with
  | leaf lo hi l ok =>
    rw [entries_leaf,Node.get]
    exact ok.get key
  | inner d lo hi keys children width chain ih =>
    obtain ⟨f,index⟩ := chain.focus key inside
    obtain ⟨before,after,left,child,right,low,high,keysEq,rfl,aligned,node,within,smaller,larger,plug⟩ := f
    dsimp only at index
    have skip : (left.flatMap Node.entries).lookup key = none :=
      lookup_none_of_ne (fun e member => ne_of_lt (Ok.smaller smaller e member))
    have rest : (right.flatMap Node.entries).lookup key = none :=
      lookup_none_of_ne (fun e member => ne_of_gt (Ok.larger larger e member))
    rw [Node.get,childIndex_eq_position,← index,entries_inner,getChild_cut,ih node.1 within,
      List.flatMap_append,List.flatMap_cons,List.lookup_append,List.lookup_append,skip,rest,
      Option.none_or,Option.or_none]

def start (leaves : List Leaf) (tail : Option Nat) : Option Nat :=
  match leaves with
  | [] => tail
  | l::_ => some l.addr

def Linked : List Leaf → Option Nat → Prop
  | [],_ => True
  | l::rest,tail => l.next = start rest tail ∧ Linked rest tail

theorem start_append (first second : List Leaf) (tail : Option Nat) :
    start (first ++ second) tail = start first (start second tail) := by
  cases first <;> rfl

theorem linked_append (first second : List Leaf) (tail : Option Nat) :
    Linked (first ++ second) tail ↔ Linked first (start second tail) ∧ Linked second tail := by
  induction first with
  | nil => simp [Linked]
  | cons l rest ih => simp only [List.cons_append,Linked,start_append,ih,and_assoc]

def addrs (leaves : List Leaf) : List Nat := leaves.map Leaf.addr

theorem addrs_append (first second : List Leaf) : addrs (first ++ second) = addrs first ++ addrs second :=
  List.map_append

/-- What one insertion may do to the leaves of a subtree: the chain keeps both its
ends, and every new leaf has an address allocated in between. -/
structure Rewired (fresh after : Nat) (old new : List Leaf) : Prop where
  grows : fresh ≤ after
  start : ∀ tail, start new tail = start old tail
  linked : ∀ tail, Linked old tail → Linked new tail
  origin : ∀ a ∈ addrs new, a ∈ addrs old ∨ fresh ≤ a ∧ a < after
  nodup : (addrs old).Nodup → (∀ a ∈ addrs old, a < fresh) → (addrs new).Nodup

theorem Rewired.refl (fresh : Nat) (leaves : List Leaf) : Rewired fresh fresh leaves leaves :=
  ⟨le_refl _,fun _ => rfl,fun _ linked => linked,fun _ member => .inl member,fun distinct _ => distinct⟩

theorem Rewired.below {after : Nat} (step : Rewired fresh after old new) (known : ∀ a ∈ addrs old, a < fresh) :
    ∀ a ∈ addrs new, a < after := by
  intro a member
  rcases step.origin a member with same | ⟨-,bound⟩
  · exact lt_of_lt_of_le (known a same) step.grows
  · exact bound

theorem Rewired.trans {middle after : Nat} {between : List Leaf} (first : Rewired fresh middle old between)
    (second : Rewired middle after between new) : Rewired fresh after old new := by
  refine ⟨first.grows.trans second.grows,fun tail => (second.start tail).trans (first.start tail),
    fun tail linked => second.linked tail (first.linked tail linked),?_,?_⟩
  · intro a member
    rcases second.origin a member with same | ⟨low,high⟩
    · rcases first.origin a same with old | ⟨low,high⟩
      · exact .inl old
      · exact .inr ⟨low,lt_of_lt_of_le high second.grows⟩
    · exact .inr ⟨first.grows.trans low,high⟩
  · intro distinct known
    exact second.nodup (first.nodup distinct known) (first.below known)

theorem Rewired.context {after : Nat} (step : Rewired fresh after old new) (left right : List Leaf) :
    Rewired fresh after (left ++ old ++ right) (left ++ new ++ right) := by
  refine ⟨step.grows,?_,?_,?_,?_⟩
  · intro tail
    simp only [start_append,step.start]
  · intro tail linked
    simp only [linked_append,step.start] at linked ⊢
    exact ⟨⟨linked.1.1,step.linked _ linked.1.2⟩,linked.2⟩
  · intro a member
    simp only [addrs_append,List.mem_append] at member ⊢
    rcases member with (first | inner) | last
    · exact .inl (.inl (.inl first))
    · exact (step.origin a inner).imp (fun same => .inl (.inr same)) id
    · exact .inl (.inr last)
  · intro distinct known
    simp only [addrs_append] at distinct known ⊢
    obtain ⟨outer,tailDistinct,apart⟩ := List.nodup_append.mp distinct
    obtain ⟨leftDistinct,oldDistinct,separate⟩ := List.nodup_append.mp outer
    have bounded : ∀ a ∈ addrs old, a < fresh := fun a member => known a (by simp [member])
    refine List.nodup_append.mpr ⟨List.nodup_append.mpr ⟨leftDistinct,step.nodup oldDistinct bounded,?_⟩,tailDistinct,?_⟩
    · -- A leaf added inside has a fresh address, which no leaf outside has.
      intro a first b inner same
      subst same
      rcases step.origin a inner with old | ⟨low,-⟩
      · exact separate a first a old rfl
      · exact absurd (known a (by simp [first])) (not_lt_of_ge low)
    · intro a member b last same
      subst same
      rcases List.mem_append.mp member with first | inner
      · exact apart a (by simp [first]) a last rfl
      · rcases step.origin a inner with old | ⟨low,-⟩
        · exact apart a (by simp [old]) a last rfl
        · exact absurd (known a (by simp [last])) (not_lt_of_ge low)

structure SplitOk (d : Nat) (lo hi : Option Bytes) (fresh : Nat) (n : Node) (halves : Split) : Prop where
  left : Ok d lo (some halves.sep) halves.left
  right : Ok d (some halves.sep) hi halves.right
  filled : NonRoot halves.left ∧ NonRoot halves.right
  between : Between lo hi halves.sep
  room : halves.left.keys.length < btreeOrder ∧ halves.right.keys.length < btreeOrder
  entries : halves.left.entries ++ halves.right.entries = n.entries
  leaves : Rewired fresh halves.fresh n.leaves (halves.left.leaves ++ halves.right.leaves)

theorem splitLeaf_ok {l : Leaf} (fresh : Nat) (ok : LeafOk lo hi l) (full : l.keys.length = btreeOrder) :
    SplitOk 0 lo hi fresh (.leaf l) (splitNode fresh (.leaf l)) := by
  have order : btreeOrder = 32 := rfl
  obtain ⟨keys,keysEq,keysSize⟩ : ∃ first, l.keys.take 16 = first ∧ first.length = 16 :=
    ⟨_,rfl,by rw [List.length_take]; omega⟩
  obtain ⟨sep,rest,restEq⟩ : ∃ sep rest, l.keys.drop 16 = sep::rest := by
    refine List.exists_cons_of_length_pos ?_
    rw [List.length_drop]
    omega
  have whole : l.keys = keys ++ sep::rest := by rw [← keysEq,← restEq,List.take_append_drop]
  have mid : l.keys.length / 2 = 16 := by omega
  have size := ok.size
  have values : l.values = l.values.take 16 ++ l.values.drop 16 := (List.take_append_drop 16 _).symm
  have valuesSize : (l.values.take 16).length = keys.length := by rw [List.length_take]; omega
  -- The separator is the first key of the right half and stays there.
  have sorted := ok.sorted
  rw [whole] at sorted
  obtain ⟨leftSorted,rightSorted,cross⟩ := List.pairwise_append.mp sorted
  obtain ⟨first,others,split⟩ := List.exists_cons_of_length_pos (by omega : 0 < keys.length)
  have firstIn : first ∈ keys := by simp [split]
  have sepIn : sep ∈ l.keys := by simp [whole]
  have restSize : (sep::rest).length = 16 := by rw [← restEq,List.length_drop]; omega
  simp only [splitNode,mid,keysEq,restEq,List.headD_cons]
  refine ⟨?_,?_,?_,?_,?_,?_,?_⟩
  · refine ⟨?_,leftSorted,?_,?_⟩
    · simp only [List.length_take]
      omega
    · intro k member
      exact ⟨(ok.inside k (by simp [whole,member])).1,cross k member sep List.mem_cons_self⟩
    · simp only
      omega
  · refine ⟨?_,rightSorted,?_,?_⟩
    · simp only [List.length_drop]
      omega
    · intro k member
      refine ⟨?_,(ok.inside k (by simp only [whole,List.mem_append,member,or_true])).2⟩
      rcases List.mem_cons.mp member with rfl | later
      · exact le_refl _
      · exact le_of_lt ((List.pairwise_cons.mp rightSorted).1 k later)
    · simp only
      omega
  · constructor
    · simp only [NonRoot]
      omega
    · simp only [NonRoot]
      omega
  · exact ⟨.trans (ok.inside first (by simp [whole,split])).1 (cross first firstIn sep List.mem_cons_self),
      (ok.inside sep sepIn).2⟩
  · constructor
    · simp only [Node.keys]
      omega
    · simp only [Node.keys]
      omega
  · simp only [entries_leaf,Leaf.entries]
    rw [whole]
    conv_rhs => rw [values,entries_append valuesSize]
  · simp only [Node.leaves,List.cons_append,List.nil_append]
    refine ⟨Nat.le_succ _,fun _ => rfl,?_,?_,?_⟩
    · rintro tail ⟨next,-⟩
      exact ⟨rfl,next,trivial⟩
    · intro a member
      simp only [addrs,List.map_cons,List.map_nil,List.mem_cons,List.not_mem_nil,or_false] at member ⊢
      omega
    · intro _ known
      have old := known l.addr (by simp [addrs])
      simp only [addrs,List.map_cons,List.map_nil,List.nodup_cons,List.mem_cons,List.not_mem_nil,or_false,
        not_false_eq_true,List.nodup_nil,and_true]
      omega

theorem splitInner_ok {keys : List Bytes} (fresh : Nat) (ok : Ok (d+1) lo hi (.inner keys children))
    (full : keys.length = btreeOrder) :
    SplitOk (d+1) lo hi fresh (.inner keys children) (splitNode fresh (.inner keys children)) := by
  have order : btreeOrder = 32 := rfl
  have count := ok.2.length
  have cut : children.length / 2 = 16 := by omega
  obtain ⟨sep,rest,restEq⟩ : ∃ sep rest, keys.drop 15 = sep::rest := by
    refine List.exists_cons_of_length_pos ?_
    rw [List.length_drop]
    omega
  have whole : keys = keys.take 15 ++ sep::rest := by rw [← restEq,List.take_append_drop]
  have tail : keys.drop 16 = rest := by
    have step : keys.drop 16 = (keys.drop 15).drop 1 := by rw [List.drop_drop]
    rw [step,restEq,List.drop_one,List.tail_cons]
  -- The separator moves up, so the halves have 15 and 16 keys.
  have middle : keys.getD 15 [] = sep := by
    have entry : keys[15]? = some sep := by
      rw [← List.head?_drop,restEq,List.head?_cons]
    rw [List.getD_eq_getElem?_getD,entry,Option.getD_some]
  have halves : children = children.take 16 ++ children.drop 16 := (List.take_append_drop 16 _).symm
  have chain := ok.2
  rw [whole,halves] at chain
  obtain ⟨left,between,right⟩ := chain.split (by simp only [List.length_take]; omega)
  have restSize : rest.length = 16 := by rw [← tail,List.length_drop]; omega
  simp only [splitNode,cut,Nat.reduceSub,middle,tail]
  refine ⟨⟨?_,left⟩,⟨by omega,right⟩,?_,between,?_,?_,?_⟩
  · simp only [List.length_take]
    omega
  · simp only [NonRoot,List.length_take,List.length_drop]
    omega
  · simp only [Node.keys,List.length_take]
    omega
  · rw [entries_inner,entries_inner,entries_inner,← List.flatMap_append,← halves]
  · have same : (Node.inner (keys.take 15) (children.take 16)).leaves ++ (Node.inner rest (children.drop 16)).leaves =
        (Node.inner keys children).leaves := by
      rw [leaves_inner,leaves_inner,leaves_inner,← List.flatMap_append,← halves]
    rw [same]
    exact .refl _ _

theorem splitNode_ok (fresh : Nat) (ok : Ok d lo hi n) (full : n.keys.length = btreeOrder) :
    SplitOk d lo hi fresh n (splitNode fresh n) := by
  induction ok using Ok.subtrees with
  | leaf lo hi l ok => exact splitLeaf_ok fresh ok full
  | inner d lo hi keys children width chain => exact splitInner_ok fresh ⟨width,chain⟩ full

structure InsertOk (d : Nat) (lo hi : Option Bytes) (fresh : Nat) (n : Node) (key value : Bytes)
    (result : Node × Nat) : Prop where
  ok : Ok d lo hi result.1
  entries : result.1.entries = put key value n.entries
  leaves : Rewired fresh result.2 n.leaves result.1.leaves
  filled : NonRoot n → NonRoot result.1

theorem leaf_insert_ok {l : Leaf} (fresh : Nat) (ok : LeafOk lo hi l) (key value : Bytes) (inside : InRange lo hi key)
    (space : l.keys.length < btreeOrder) :
    InsertOk 0 lo hi fresh (.leaf l) key value (.leaf (l.insert key value),fresh) := by
  obtain ⟨new,entries,longer⟩ := ok.insert key value inside space
  refine ⟨new,?_,?_,fun filled => le_trans filled longer⟩
  · rw [entries_leaf,entries_leaf,entries]
  · have addr : (l.insert key value).addr = l.addr := by
      simp only [Leaf.insert]
      split <;> rfl
    have next : (l.insert key value).next = l.next := by
      simp only [Leaf.insert]
      split <;> rfl
    simp only [Node.leaves]
    refine ⟨le_refl _,fun _ => by simp only [start,addr],?_,?_,?_⟩
    · rintro tail ⟨pointed,-⟩
      exact ⟨next.trans pointed,trivial⟩
    · intro a member
      exact .inl (by simpa [addrs,addr] using member)
    · intro distinct _
      simp [addrs]

theorem descend_ok {keys : List Bytes} {value : Bytes} {result : Node × Nat} (width : keys.length ≤ btreeOrder)
    (f : Focus (fun lo hi child => Ok d lo hi child ∧ NonRoot child) lo hi keys children key)
    (new : InsertOk d f.low f.high fresh f.child key value result) :
    InsertOk (d+1) lo hi fresh (.inner keys children) key value
      (.inner keys (children.set f.left.length result.1),result.2) := by
  obtain ⟨before,after,left,child,right,low,high,rfl,rfl,aligned,node,within,smaller,larger,plug⟩ := f
  simp only [set_cut] at new ⊢
  refine ⟨⟨width,?_⟩,?_,?_,?_⟩
  · simpa using plug [] [result.1] (.one ⟨new.ok,new.filled node.2⟩)
  · have step := put_between key value (left.flatMap Node.entries) child.entries (right.flatMap Node.entries)
      (Ok.smaller smaller) (Ok.larger larger)
    simp only [entries_inner,List.flatMap_append,List.flatMap_cons,new.entries]
    simpa only [List.append_assoc] using step.symm
  · have step := new.leaves.context (left.flatMap Node.leaves) (right.flatMap Node.leaves)
    simpa only [leaves_inner,List.flatMap_append,List.flatMap_cons,List.append_assoc] using step
  · intro wide
    simpa [NonRoot] using wide

theorem InsertOk.ofSplit {newKeys : List Bytes} {left right : List Node} {child : Node} {value : Bytes}
    {halves : Split} {result : Node × Nat} (keys : List Bytes)
    (entries : halves.left.entries ++ halves.right.entries = child.entries)
    (leaves : Rewired fresh halves.fresh child.leaves (halves.left.leaves ++ halves.right.leaves))
    (new : InsertOk d lo hi halves.fresh (.inner newKeys (left ++ halves.left::halves.right::right)) key value result) :
    InsertOk d lo hi fresh (.inner keys (left ++ child::right)) key value result := by
  refine ⟨new.ok,?_,?_,?_⟩
  · rw [new.entries]
    simp only [entries_inner,List.flatMap_append,List.flatMap_cons,← entries,List.append_assoc]
  · have split := leaves.context (left.flatMap Node.leaves) (right.flatMap Node.leaves)
    refine Rewired.trans ?_ new.leaves
    simpa only [leaves_inner,List.flatMap_append,List.flatMap_cons,List.append_assoc] using split
  · intro wide
    apply new.filled
    simp only [NonRoot,List.length_append,List.length_cons] at wide ⊢
    omega

theorem splitChild_cut (before after : List Bytes) (left right : List Node) (child : Node) (halves : Split)
    (aligned : before.length = left.length) :
    splitChild (before ++ after) (left ++ child::right) left.length halves =
      (before ++ halves.sep::after,left ++ halves.left::halves.right::right) := by
  have children : left ++ halves.left::right = (left ++ [halves.left]) ++ right := by simp
  have size : left.length+1 = (left ++ [halves.left]).length := by simp
  rw [splitChild,← aligned,insertIdx_cut,aligned,set_cut,children,size,insertIdx_cut]
  simp

theorem insertNonFull_ok (fuel fresh : Nat) (ok : Ok d lo hi n) (key value : Bytes) (inside : InRange lo hi key)
    (space : n.keys.length < btreeOrder) (enough : d ≤ fuel) :
    InsertOk d lo hi fresh n key value (insertNonFull fuel fresh n key value) := by
  induction ok using Ok.subtrees generalizing fuel fresh with
  | leaf lo hi l ok =>
    rw [insertNonFull]
    exact leaf_insert_ok fresh ok key value inside space
  | inner d lo hi keys children width chain ih =>
    obtain ⟨fuel,rfl⟩ : ∃ m, fuel = m+1 := ⟨fuel-1,by omega⟩
    obtain ⟨f,index⟩ := chain.focus key inside
    have position : childIndex keys key = f.left.length := by rw [childIndex_eq_position,index]
    have reached : children[f.left.length]? = some f.child := by
      have cut := getElem?_cut f.left f.right f.child
      rwa [← f.childrenEq] at cut
    have parts (halves : Split) : splitChild keys children f.left.length halves =
        (f.before ++ halves.sep::f.after,f.left ++ halves.left::halves.right::f.right) := by
      have cut := splitChild_cut f.before f.after f.left f.right f.child halves f.aligned
      rwa [← f.keysEq,← f.childrenEq] at cut
    have wider (sep : Bytes) : (f.before ++ sep::f.after).length ≤ btreeOrder := by
      have short : (f.before ++ f.after).length < btreeOrder := by rw [← f.keysEq]; exact space
      simp only [List.length_append,List.length_cons] at short ⊢
      omega
    simp only [insertNonFull,position,reached,parts]
    split_ifs with full below
    · -- The key belongs to the right half of the split child.
      have halves := splitNode_ok fresh f.node.1 full
      have new := ih halves.right fuel (splitNode fresh f.child).fresh ⟨below,f.inside.2⟩ halves.room.2 (by omega)
      have step := descend_ok (wider _)
        (f.splitRight ⟨halves.left,halves.filled.1⟩ halves.between ⟨halves.right,halves.filled.2⟩ below) new
      have size : (f.left ++ [(splitNode fresh f.child).left]).length = f.left.length+1 := by simp
      have merged := step.ofSplit keys halves.entries halves.leaves
      rw [← f.childrenEq] at merged
      simpa only [Focus.splitRight,size] using merged
    · -- The key belongs to the left half of the split child.
      have halves := splitNode_ok fresh f.node.1 full
      have above : key < (splitNode fresh f.child).sep := lt_of_not_ge below
      have new := ih halves.left fuel (splitNode fresh f.child).fresh ⟨f.inside.1,above⟩ halves.room.1 (by omega)
      have step := descend_ok (wider _)
        (f.splitLeft ⟨halves.left,halves.filled.1⟩ halves.between ⟨halves.right,halves.filled.2⟩ above) new
      have merged := step.ofSplit keys halves.entries halves.leaves
      rw [← f.childrenEq] at merged
      simpa only [Focus.splitLeft] using merged
    · have short : f.child.keys.length < btreeOrder := lt_of_le_of_ne f.node.1.keys full
      exact descend_ok width f (ih f.node.1 fuel fresh f.inside short (by omega))

theorem Ok.leaves_ne (ok : Ok d lo hi n) : ∃ l rest, n.leaves = l::rest ∧ n.leftmost = some l := by
  induction ok using Ok.subtrees with
  | leaf lo hi l ok => exact ⟨l,[],rfl,rfl⟩
  | inner d lo hi keys children width chain ih =>
    rw [leaves_inner]
    cases chain with
    | one node =>
      obtain ⟨l,rest,leaves,first⟩ := ih node.1
      exact ⟨l,rest,by simp [leaves],by simpa [Node.leftmost] using first⟩
    | @cons _ _ sep child keys children node inside others =>
      obtain ⟨l,rest,leaves,first⟩ := ih node.1
      exact ⟨l,rest ++ children.flatMap Node.leaves,by simp [leaves],by simpa [Node.leftmost] using first⟩

theorem chain_linked (heap before leaves : List Leaf) (split : heap = before ++ leaves)
    (distinct : (addrs heap).Nodup) (linked : Linked leaves none) :
    chain heap leaves.length (start leaves none) = leaves := by
  induction leaves generalizing before with
  | nil => rfl
  | cons l rest ih =>
    have found : heap.find? (·.addr = l.addr) = some l := by
      rw [split,List.find?_append,List.find?_eq_none.mpr,Option.none_or]
      · simp
      · intro other member same
        rw [split,addrs_append] at distinct
        have apart := (List.nodup_append.mp distinct).2.2 other.addr (List.mem_map_of_mem member) l.addr
          (List.mem_map_of_mem List.mem_cons_self)
        exact apart (by simpa using same)
    change chain heap (rest.length+1) (some l.addr) = l::rest
    simp only [chain,found,linked.1]
    rw [ih (before ++ [l]) (by rw [split]; simp) linked.2]

/-- The invariant of the trees that `put` and `delete` build. -/
structure Tree.Valid (t : Tree) : Prop where
  ok : ∀ n, t.root = some n → ∃ d, Ok d none none n
  linked : ∀ n, t.root = some n → Linked n.leaves none
  distinct : ∀ n, t.root = some n → (addrs n.leaves).Nodup
  known : ∀ n, t.root = some n → ∀ a ∈ addrs n.leaves, a < t.fresh

theorem valid_nil (fresh : Nat) : Tree.Valid ⟨none,fresh⟩ := by
  constructor <;> simp

theorem Tree.entries_nil (fresh : Nat) : Tree.entries ⟨none,fresh⟩ = [] := rfl

theorem Tree.Valid.entries_eq (valid : t.Valid) (root : t.root = some n) : t.entries = n.entries := by
  obtain ⟨d,ok⟩ := valid.ok n root
  obtain ⟨l,rest,leaves,first⟩ := ok.leaves_ne
  have walked := chain_linked n.leaves [] n.leaves rfl (valid.distinct n root) (valid.linked n root)
  have begin_ : start n.leaves none = n.leftmost.map Leaf.addr := by rw [leaves,first]; rfl
  simp only [Tree.entries,root,Node.chained,← begin_,walked]
  rfl

theorem Tree.Valid.increasing (valid : t.Valid) : Increasing t.entries := by
  cases root : t.root with
  | none => simp [Tree.entries,root,Increasing]
  | some n =>
    obtain ⟨d,ok⟩ := valid.ok n root
    rw [valid.entries_eq root]
    exact ok.increasing

theorem Tree.Valid.get (valid : t.Valid) (key : Bytes) : t.get key = t.entries.lookup key := by
  cases root : t.root with
  | none => simp [Tree.get,Tree.entries,root]
  | some n =>
    obtain ⟨d,ok⟩ := valid.ok n root
    rw [valid.entries_eq root,Tree.get,root]
    exact ok.get key ⟨trivial,trivial⟩

theorem growRoot_ok (fresh : Nat) (ok : Ok d none none n) :
    ∃ d', Ok d' none none (growRoot fresh n).1 ∧ (growRoot fresh n).1.keys.length < btreeOrder ∧
      (growRoot fresh n).1.entries = n.entries ∧
      Rewired fresh (growRoot fresh n).2 n.leaves (growRoot fresh n).1.leaves := by
  unfold growRoot
  split_ifs with full
  · have halves := splitNode_ok fresh ok full
    have cut := splitChild_cut [] [] [] [] n (splitNode fresh n) rfl
    simp only [List.nil_append,List.length_nil] at cut
    simp only [cut]
    refine ⟨d+1,⟨?_,?_⟩,?_,?_,?_⟩
    · simp [btreeOrder]
    · exact .cons ⟨halves.left,halves.filled.1⟩ halves.between (.one ⟨halves.right,halves.filled.2⟩)
    · simp [Node.keys,btreeOrder]
    · simpa [entries_inner] using halves.entries
    · simpa [leaves_inner] using halves.leaves
  · exact ⟨d,ok,lt_of_le_of_ne ok.keys full,rfl,.refl _ _⟩

theorem put_valid (valid : t.Valid) (key value : Bytes) :
    (t.put key value).Valid ∧ (t.put key value).entries = put key value t.entries := by
  cases root : t.root with
  | none =>
    simp only [Tree.put,Tree.entries,root]
    refine ⟨⟨?_,?_,?_,?_⟩,?_⟩
    · rintro n ⟨rfl⟩
      refine ⟨0,⟨rfl,by simp,?_,by simp [btreeOrder]⟩⟩
      exact fun k member => ⟨trivial,trivial⟩
    · rintro n ⟨rfl⟩
      exact ⟨rfl,trivial⟩
    · rintro n ⟨rfl⟩
      simp [addrs,Node.leaves]
    · rintro n ⟨rfl⟩
      simp [addrs,Node.leaves]
    · simp [Node.chained,Node.leaves,Node.leftmost,chain,Leaf.entries,put]
  | some n =>
    obtain ⟨d,ok⟩ := valid.ok n root
    obtain ⟨d',grown,space,sameEntries,grownLeaves⟩ := growRoot_ok t.fresh ok
    have new := insertNonFull_ok (growRoot t.fresh n).1.depth (growRoot t.fresh n).2 grown key value
      ⟨trivial,trivial⟩ space (le_of_eq grown.depth.symm)
    -- The root may have been split first; both steps rewire the leaves alike.
    have leaves := grownLeaves.trans new.leaves
    have result : t.put key value = ⟨some (insertNonFull (growRoot t.fresh n).1.depth (growRoot t.fresh n).2
        (growRoot t.fresh n).1 key value).1,(insertNonFull (growRoot t.fresh n).1.depth (growRoot t.fresh n).2
        (growRoot t.fresh n).1 key value).2⟩ := by
      simp only [Tree.put,root]
    have ready : (t.put key value).Valid := by
      rw [result]
      refine ⟨?_,?_,?_,?_⟩
      · rintro n' ⟨rfl⟩
        exact ⟨d',new.ok⟩
      · rintro n' ⟨rfl⟩
        exact leaves.linked none (valid.linked n root)
      · rintro n' ⟨rfl⟩
        exact leaves.nodup (valid.distinct n root) (valid.known n root)
      · rintro n' ⟨rfl⟩
        exact leaves.below (valid.known n root)
    refine ⟨ready,?_⟩
    rw [ready.entries_eq (by rw [result]),new.entries,sameEntries,valid.entries_eq root]

theorem putAll_valid (valid : t.Valid) (entries : List Entry) :
    (t.putAll entries).Valid ∧
      (t.putAll entries).entries = entries.foldl (fun acc e => put e.1 e.2 acc) t.entries := by
  induction entries generalizing t with
  | nil => exact ⟨valid,rfl⟩
  | cons e rest ih =>
    obtain ⟨next,nextEntries⟩ := put_valid valid e.1 e.2
    obtain ⟨final,finalEntries⟩ := ih next
    refine ⟨final,?_⟩
    rw [List.foldl_cons,← nextEntries]
    exact finalEntries

theorem putAll_increasing (fresh : Nat) (entries : List Entry) (sorted : Increasing entries) :
    (Tree.putAll ⟨none,fresh⟩ entries).Valid ∧ (Tree.putAll ⟨none,fresh⟩ entries).entries = entries := by
  obtain ⟨valid,held⟩ := putAll_valid (valid_nil fresh) entries
  exact ⟨valid,by rw [held,Tree.entries_nil,foldl_put entries sorted]⟩

theorem filter_eq_remove (key : Bytes) (entries : List Entry) :
    entries.filter (·.1 ≠ key) = remove key entries :=
  List.filter_congr (fun e _ => by simp)

theorem delete_valid (valid : t.Valid) (key : Bytes) :
    (t.delete key).1.Valid ∧ (t.delete key).1.entries = remove key t.entries ∧
      (t.delete key).2 = (t.entries.lookup key).isSome := by
  rw [← valid.get key]
  unfold Tree.delete
  cases found : t.get key with
  | none =>
    refine ⟨valid,?_,rfl⟩
    rw [valid.get key,List.lookup_eq_none_iff] at found
    symm
    refine List.filter_eq_self.mpr (fun e member => ?_)
    simpa using (bne_iff_ne.mp (found e member)).symm
  | some value =>
    simp only [filter_eq_remove]
    obtain ⟨new,held⟩ := putAll_increasing t.fresh (remove key t.entries) (increasing_remove valid.increasing key)
    exact ⟨new,held,rfl⟩

end GoDb.BTree
