import GoDb.Page

/-! The buffer pool of `storage/buffer_pool.go`. The map `items` and the list `lru`
hold the same elements, each under the number of its page, so one list in the order
of `lru` (most recently used first) stands for both. -/
namespace GoDb

structure PoolEntry where
  page : Page
  dirty : Bool
  deriving DecidableEq

structure BufferPool where
  capacity : Nat
  entries : List PoolEntry
  hits : Nat
  misses : Nat
  deriving DecidableEq

structure Disk (δ : Type) where
  readDisk : δ → Nat → Except Error Block
  writeDisk : δ → Page → Except Error Unit × δ

def newBufferPool (capacity : Int) : BufferPool := ⟨if capacity < 1 then 1 else capacity.toNat,[],0,0⟩

namespace BufferPool

def item (b : BufferPool) (id : Nat) : Option PoolEntry := b.entries.find? (·.page.id = id)

/-- `MoveToFront` and `PushFront`: the entry comes first, and no other stands for its page. -/
def front (b : BufferPool) (e : PoolEntry) : BufferPool :=
  {b with entries := e::b.entries.filter (·.page.id ≠ e.page.id)}

variable {δ : Type} (io : Disk δ)

def makeRoomLocked (b : BufferPool) (d : δ) : Except Error Unit × BufferPool × δ :=
  if b.entries.length < b.capacity then (.ok (),b,d)
  else
    match b.entries.getLast? with
    | none => (.ok (),b,d)
    | some e =>
      if e.dirty then
        match io.writeDisk d e.page with
        | (.error cause,d) => (.error (.evicting e.page.id cause),b,d)
        | (.ok (),d) => (.ok (),{b with entries := b.entries.dropLast},d)
      else (.ok (),{b with entries := b.entries.dropLast},d)

/-- The first locked sections of `Get`: a hit, or a counted miss. -/
def lookup (b : BufferPool) (id : Nat) : Option Page × BufferPool :=
  match b.item id with
  | some e => (some e.page,{b.front e with hits := b.hits+1})
  | none => (none,{b with misses := b.misses+1})

def keep (b : BufferPool) (d : δ) (page : Page) : Except Error Page × BufferPool × δ :=
  match b.item page.id with
  | some e => (.ok e.page,b.front e,d)
  | none =>
    match b.makeRoomLocked io d with
    | (.error e,b,d) => (.error e,b,d)
    | (.ok (),b,d) => (.ok page,b.front ⟨page,false⟩,d)

def get (b : BufferPool) (d : δ) (id : Nat) : Except Error Page × BufferPool × δ :=
  match b.lookup id with
  | (some page,b) => (.ok page,b,d)
  | (none,b) =>
    match io.readDisk d id with
    | .error e => (.error e,b,d)
    | .ok block => b.keep io d ⟨id,block⟩

def put (b : BufferPool) (d : δ) (page : Page) (dirty : Bool) : Except Error Unit × BufferPool × δ :=
  match b.item page.id with
  | some e => (.ok (),b.front ⟨page,e.dirty || dirty⟩,d)
  | none =>
    match b.makeRoomLocked io d with
    | (.error e,b,d) => (.error e,b,d)
    | (.ok (),b,d) => (.ok (),b.front ⟨page,dirty⟩,d)

def clean (b : BufferPool) (id : Nat) : BufferPool :=
  {b with entries := b.entries.map (fun e => if e.page.id = id then {e with dirty := false} else e)}

def flush : List Nat → BufferPool → δ → Except Error Unit × BufferPool × δ
  | [],b,d => (.ok (),b,d)
  | id::order,b,d =>
    match b.item id with
    | none => flush order b d
    | some e =>
      if e.dirty then
        match io.writeDisk d e.page with
        | (.error e,d) => (.error e,b,d)
        | (.ok (),d) => flush order (b.clean id) d
      else flush order b d

def ids (b : BufferPool) : List Nat := b.entries.map (·.page.id)

end BufferPool
end GoDb
