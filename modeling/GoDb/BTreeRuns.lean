import GoDb.BTreeMeaning
import GoDb.Foundation.Runs

/-! Runs of the tree: after any puts and deletes it is the finite map they make, and it is
balanced, with every node as full as the splits leave it. -/
namespace GoDb.BTree
open Foundation Separators SortedEntries Runs

inductive Op
  | put (key value : Bytes)
  | delete (key : Bytes)

/-- One operation. Only a delete has an answer. -/
def Op.step : Op → Tree → Option Bool × Tree
  | .put key value,t => (none,t.put key value)
  | .delete key,t => (some (t.delete key).2,(t.delete key).1)

def Op.effect (m : Bytes → Option Bytes) : Op → Bytes → Option Bytes
  | .put key value => Function.update m key (some value)
  | .delete key => Function.update m key none

def mapOf (ops : List Op) : Bytes → Option Bytes := ops.foldl Op.effect fun _ => none

def treeOf (ops : List Op) : Tree := after Op.step ops {}

structure Refines (t : Tree) (m : Bytes → Option Bytes) : Prop where
  valid : t.Valid
  lookup : ∀ key, t.entries.lookup key = m key

theorem Refines.step {t : Tree} {m : Bytes → Option Bytes} (refines : Refines t m) (op : Op) :
    Refines (op.step t).2 (op.effect m) := by
  cases op with
  | put key value =>
    obtain ⟨valid,entries⟩ := put_valid refines.valid key value
    refine ⟨valid,fun k => ?_⟩
    change (t.put key value).entries.lookup k = _
    rw [entries,lookup_put,refines.lookup,Op.effect,Function.update_apply]
    split_ifs <;> rfl
  | delete key =>
    obtain ⟨valid,entries,-⟩ := delete_valid refines.valid key
    refine ⟨valid,fun k => ?_⟩
    change (t.delete key).1.entries.lookup k = _
    rw [entries,lookup_remove,refines.lookup,Op.effect,Function.update_apply]
    split_ifs <;> rfl

theorem treeOf_refines (ops : List Op) : Refines (treeOf ops) (mapOf ops) := by
  have run (ops : List Op) {t : Tree} {m : Bytes → Option Bytes} (refines : Refines t m) :
      Refines (after Op.step ops t) (ops.foldl Op.effect m) := by
    induction ops generalizing t m with
    | nil => exact refines
    | cons op ops ih => exact ih (refines.step op)
  exact run ops ⟨valid_nil 0,fun _ => rfl⟩

/-- After any operations the tree is a finite map: `get` finds what was put last and not deleted since,
`delete` tells whether the key was there, and the leaf chain lists the live entries in key order. -/
theorem tree_refines_map (ops : List Op) :
    (∀ key, (treeOf ops).get key = mapOf ops key) ∧
      (∀ key, ((treeOf ops).delete key).2 = (mapOf ops key).isSome) ∧
      (treeOf ops).entries.Pairwise (fun e d => e.1 < d.1) ∧
      ∀ e, e ∈ (treeOf ops).entries ↔ mapOf ops e.1 = some e.2 := by
  have refines := treeOf_refines ops
  refine ⟨fun key => ?_,fun key => ?_,refines.valid.increasing,fun e => ?_⟩
  · rw [refines.valid.get,refines.lookup]
  · rw [(delete_valid refines.valid key).2.2,refines.lookup]
  · rw [mem_iff_lookup refines.valid.increasing,refines.lookup]

/-! How full the nodes are. -/

/-- A subtree of a height: all leaves at the same depth, one child more than keys, and not too few of
them below the root. -/
def Node.Balanced : Bool → Nat → Node → Prop
  | root,0,.leaf l =>
    l.keys.length ≤ btreeOrder ∧ l.values.length = l.keys.length ∧ (root = false → 16 ≤ l.keys.length)
  | root,d+1,.inner keys children =>
    keys.length ≤ btreeOrder ∧ children.length = keys.length + 1 ∧ (root = false → 16 ≤ children.length) ∧
      ∀ child ∈ children, child.Balanced false d
  | _,_,_ => False

theorem Ok.balanced {d : Nat} {lo hi : Option Bytes} {n : Node} (ok : Ok d lo hi n) {root : Bool}
    (filled : root = false → NonRoot n) : n.Balanced root d := by
  induction ok using Ok.subtrees generalizing root with
  | leaf lo hi l ok => exact ⟨ok.room,ok.size.symm,filled⟩
  | inner d lo hi keys children width chain ih =>
    refine ⟨width,chain.length,filled,fun child member => ?_⟩
    obtain ⟨a,b,node,wide⟩ := chain.all child member
    exact ih node fun _ => wide

def insertLogged : Nat → Nat → Node → Bytes → Bytes → (Node × Nat) × List Node
  | _,fresh,.leaf l,key,value => ((.leaf (l.insert key value),fresh),[.leaf l])
  | 0,fresh,n,_,_ => ((n,fresh),[n])
  | fuel+1,fresh,.inner keys children,key,value =>
    let i := childIndex keys key
    match children[i]? with
    | none => ((.inner keys children,fresh),[.inner keys children])
    | some child =>
      if child.keys.length = btreeOrder then
        let halves := splitNode fresh child
        let (split,parts) := splitChild keys children i halves
        let descended := if halves.sep ≤ key then halves.right else halves.left
        let i := if halves.sep ≤ key then i+1 else i
        let ((child,fresh),calls) := insertLogged fuel halves.fresh descended key value
        ((.inner split (parts.set i child),fresh),.inner keys children::calls)
      else
        let ((child,fresh),calls) := insertLogged fuel fresh child key value
        ((.inner keys (children.set i child),fresh),.inner keys children::calls)

theorem insertLogged_result (fuel fresh : Nat) (n : Node) (key value : Bytes) :
    (insertLogged fuel fresh n key value).1 = insertNonFull fuel fresh n key value := by
  induction fuel generalizing fresh n with
  | zero => cases n <;> rfl
  | succ fuel ih =>
    cases n with
    | leaf l => rfl
    | inner keys children =>
      simp only [insertLogged,insertNonFull]
      cases children[childIndex keys key]? with
      | none => rfl
      | some child =>
        dsimp only
        split_ifs <;> simp only [← ih]

theorem insertLogged_calls {d : Nat} {lo hi : Option Bytes} {n : Node} (fuel fresh : Nat) (ok : Ok d lo hi n)
    (key value : Bytes) (inside : InRange lo hi key) (space : n.keys.length < btreeOrder) (enough : d ≤ fuel) :
    ∀ called ∈ (insertLogged fuel fresh n key value).2, called.keys.length < btreeOrder := by
  induction ok using Ok.subtrees generalizing fuel fresh with
  | leaf lo hi l ok =>
    rw [insertLogged]
    exact List.forall_mem_singleton.mpr space
  | inner d lo hi keys children width chain ih =>
    obtain ⟨fuel,rfl⟩ : ∃ m, fuel = m+1 := ⟨fuel-1,by omega⟩
    obtain ⟨f,index⟩ := chain.focus key inside
    have position : childIndex keys key = f.left.length := by rw [childIndex_eq_position,index]
    have reached : children[f.left.length]? = some f.child := by
      have cut := ListEdits.getElem?_cut f.left f.right f.child
      rwa [← f.childrenEq] at cut
    simp only [insertLogged,position,reached]
    split_ifs with full below
    · have halves := splitNode_ok fresh f.node.1 full
      exact List.forall_mem_cons.mpr ⟨space,ih halves.right fuel _ ⟨below,f.inside.2⟩ halves.room.2 (by omega)⟩
    · have halves := splitNode_ok fresh f.node.1 full
      have above : key < (splitNode fresh f.child).sep := lt_of_not_ge below
      exact List.forall_mem_cons.mpr ⟨space,ih halves.left fuel _ ⟨f.inside.1,above⟩ halves.room.1 (by omega)⟩
    · have short : f.child.keys.length < btreeOrder := lt_of_le_of_ne f.node.1.keys full
      exact List.forall_mem_cons.mpr ⟨space,ih f.node.1 fuel fresh f.inside short (by omega)⟩

def Tree.putCalls (t : Tree) (key value : Bytes) : List Node :=
  match t.root with
  | none => []
  | some n =>
    let (n,fresh) := growRoot t.fresh n
    (insertLogged n.depth fresh n key value).2

def Tree.putAllCalls (t : Tree) : List Entry → List Node
  | [] => []
  | e::entries => t.putCalls e.1 e.2 ++ (t.put e.1 e.2).putAllCalls entries

/-- The nodes an operation calls `insertNonFull` on; a delete does so when it puts the other entries back. -/
def Op.calls (t : Tree) : Op → List Node
  | .put key value => t.putCalls key value
  | .delete key =>
    match t.get key with
    | none => []
    | some _ => Tree.putAllCalls ⟨none,t.fresh⟩ (t.entries.filter (·.1 ≠ key))

theorem putCalls_short {t : Tree} (valid : t.Valid) (key value : Bytes) :
    ∀ called ∈ t.putCalls key value, called.keys.length < btreeOrder := by
  unfold Tree.putCalls
  cases root : t.root with
  | none => exact List.forall_mem_nil _
  | some n =>
    obtain ⟨d,ok⟩ := valid.ok n root
    obtain ⟨d',grown,space,-,-⟩ := growRoot_ok t.fresh ok
    exact insertLogged_calls _ _ grown key value ⟨trivial,trivial⟩ space (le_of_eq grown.depth.symm)

theorem putAllCalls_short {t : Tree} (valid : t.Valid) (entries : List Entry) :
    ∀ called ∈ t.putAllCalls entries, called.keys.length < btreeOrder := by
  induction entries generalizing t with
  | nil => exact List.forall_mem_nil _
  | cons e entries ih =>
    exact List.forall_mem_append.mpr ⟨putCalls_short valid e.1 e.2,ih (put_valid valid e.1 e.2).1⟩

/-- After any operations the tree is balanced, and whatever comes next calls `insertNonFull` on nodes that
have room for a key. -/
theorem tree_balanced (ops : List Op) :
    (∀ n, (treeOf ops).root = some n → ∃ d, n.Balanced true d) ∧
      ∀ op : Op, ∀ called ∈ op.calls (treeOf ops), called.keys.length < btreeOrder := by
  have valid := (treeOf_refines ops).valid
  refine ⟨fun n root => ?_,fun op => ?_⟩
  · obtain ⟨d,ok⟩ := valid.ok n root
    exact ⟨d,ok.balanced nofun⟩
  · cases op with
    | put key value => exact putCalls_short valid key value
    | delete key =>
      rw [Op.calls]
      cases (treeOf ops).get key with
      | none => exact List.forall_mem_nil _
      | some value => exact putAllCalls_short (valid_nil _) _

end GoDb.BTree
