import GoDb.Bytes

/-! The B+Tree of `kv/btree.go`. Leaves carry the address Go gives them, since
`next` is a pointer that is threaded separately from the tree: following it
means looking the address up among the leaves the tree holds. -/
namespace GoDb.BTree

def btreeOrder : Nat := 32

structure Leaf where
  addr : Nat
  keys : List Bytes
  values : List Bytes
  next : Option Nat
  deriving DecidableEq, Repr

inductive Node
  | leaf (leaf : Leaf)
  | inner (keys : List Bytes) (children : List Node)

def Node.keys : Node → List Bytes
  | .leaf l => l.keys
  | .inner keys _ => keys

mutual
def Node.leaves : Node → List Leaf
  | .leaf l => [l]
  | .inner _ children => leavesAll children
def leavesAll : List Node → List Leaf
  | [] => []
  | child::rest => child.leaves ++ leavesAll rest
end

/-- `for !n.leaf { n = n.children[0] }`. -/
def Node.leftmost : Node → Option Leaf
  | .leaf l => some l
  | .inner _ [] => none
  | .inner _ (child::_) => child.leftmost

def Node.depth : Node → Nat
  | .leaf _ => 0
  | .inner _ [] => 1
  | .inner _ (child::_) => child.depth + 1

/-- The zero value is the empty tree; `fresh` is the next unused leaf address. -/
structure Tree where
  root : Option Node := none
  fresh : Nat := 0

abbrev Entry := Bytes × Bytes

def chain (heap : List Leaf) : Nat → Option Nat → List Leaf
  | 0,_ => []
  | _+1,none => []
  | fuel+1,some addr =>
    match heap.find? (·.addr = addr) with
    | none => []
    | some l => l::chain heap fuel l.next

def Node.chained (n : Node) : List Leaf :=
  chain n.leaves n.leaves.length (n.leftmost.map Leaf.addr)

def Leaf.entries (l : Leaf) : List Entry := l.keys.zip l.values

def Tree.entries (t : Tree) : List Entry :=
  match t.root with
  | none => []
  | some n => n.chained.flatMap Leaf.entries

def childIndex : List Bytes → Bytes → Nat
  | [],_ => 0
  | k::keys,key => if k ≤ key then childIndex keys key + 1 else 0

/-- The binary search loop, on the interval from `lo` to `hi`. -/
def keyIndexLoop (keys : List Bytes) (key : Bytes) : Nat → Nat → Nat → Nat
  | 0,lo,_ => lo
  | fuel+1,lo,hi =>
    if lo < hi then
      let m := (lo+hi)/2
      if keys.getD m [] < key then keyIndexLoop keys key fuel (m+1) hi
      else keyIndexLoop keys key fuel lo m
    else lo

def keyIndex (keys : List Bytes) (key : Bytes) : Nat :=
  keyIndexLoop keys key keys.length 0 keys.length

def Leaf.get (l : Leaf) (key : Bytes) : Option Bytes :=
  let i := keyIndex l.keys key
  if l.keys[i]? = some key then l.values[i]? else none

mutual
def Node.get (key : Bytes) : Node → Option Bytes
  | .leaf l => l.get key
  | .inner keys children => getChild key children (childIndex keys key)
def getChild (key : Bytes) : List Node → Nat → Option Bytes
  | [],_ => none
  | child::_,0 => child.get key
  | _::rest,i+1 => getChild key rest i
end

def Tree.get (t : Tree) (key : Bytes) : Option Bytes :=
  match t.root with
  | none => none
  | some n => n.get key

structure Split where
  left : Node
  sep : Bytes
  right : Node
  fresh : Nat

/-- The two halves `splitChild` makes of a full child, and the separator between
them. A leaf keeps its separator in the right half, an internal node gives it up. -/
def splitNode (fresh : Nat) : Node → Split
  | .leaf old =>
    let mid := old.keys.length / 2
    let right : Leaf := ⟨fresh,old.keys.drop mid,old.values.drop mid,old.next⟩
    ⟨.leaf ⟨old.addr,old.keys.take mid,old.values.take mid,some fresh⟩,right.keys.headD [],.leaf right,fresh+1⟩
  | .inner keys children =>
    let cut := children.length / 2
    ⟨.inner (keys.take (cut-1)) (children.take cut),keys.getD (cut-1) [],
      .inner (keys.drop cut) (children.drop cut),fresh⟩

/-- The new keys and children of a parent after `splitChild(parent, i)`. -/
def splitChild (keys : List Bytes) (children : List Node) (i : Nat) (halves : Split) :
    List Bytes × List Node :=
  (keys.insertIdx i halves.sep,(children.set i halves.left).insertIdx (i+1) halves.right)

def Leaf.insert (l : Leaf) (key value : Bytes) : Leaf :=
  let i := keyIndex l.keys key
  if l.keys[i]? = some key then {l with values := l.values.set i value}
  else {l with keys := l.keys.insertIdx i key,values := l.values.insertIdx i value}

/-- The recursion descends one level per call, so the depth of the tree bounds it. -/
def insertNonFull : Nat → Nat → Node → Bytes → Bytes → Node × Nat
  | _,fresh,.leaf l,key,value => (.leaf (l.insert key value),fresh)
  | 0,fresh,n,_,_ => (n,fresh)
  | fuel+1,fresh,.inner keys children,key,value =>
    let i := childIndex keys key
    match children[i]? with
    | none => (.inner keys children,fresh)
    | some child =>
      if child.keys.length = btreeOrder then
        let halves := splitNode fresh child
        let (keys,children) := splitChild keys children i halves
        let descended := if halves.sep ≤ key then halves.right else halves.left
        let i := if halves.sep ≤ key then i+1 else i
        let (child,fresh) := insertNonFull fuel halves.fresh descended key value
        (.inner keys (children.set i child),fresh)
      else
        let (child,fresh) := insertNonFull fuel fresh child key value
        (.inner keys (children.set i child),fresh)

def growRoot (fresh : Nat) (n : Node) : Node × Nat :=
  if n.keys.length = btreeOrder then
    let halves := splitNode fresh n
    let (keys,children) := splitChild [] [n] 0 halves
    (.inner keys children,halves.fresh)
  else (n,fresh)

def Tree.put (t : Tree) (key value : Bytes) : Tree :=
  match t.root with
  | none => ⟨some (.leaf ⟨t.fresh,[key],[value],none⟩),t.fresh+1⟩
  | some n =>
    let (n,fresh) := growRoot t.fresh n
    let (n,fresh) := insertNonFull n.depth fresh n key value
    ⟨some n,fresh⟩

def Tree.putAll (t : Tree) (entries : List Entry) : Tree :=
  entries.foldl (fun t e => t.put e.1 e.2) t

/-- Repacks the leaf chain without `key` into a new tree. -/
def Tree.delete (t : Tree) (key : Bytes) : Tree × Bool :=
  match t.get key with
  | none => (t,false)
  | some _ => (Tree.putAll ⟨none,t.fresh⟩ (t.entries.filter (·.1 ≠ key)),true)

end GoDb.BTree
