import GoDb.BTree
import GoDb.Pager
import GoDb.Wal
import GoDb.Foundation.Iteration

/-! The key-value store of `kv/store.go`. Its files are part of the state: the pages
under the pager, the bytes of the log, and the entry list of the index file (`none`
when there is no such file). File I/O does not fail, and gob gives back the entries
it was given. -/
namespace GoDb
open Foundation Outcome

structure Version where
  seq : Nat
  value : Bytes
  found : Bool
  deriving DecidableEq, Repr

structure Store where
  pager : Pager
  firstPage : Nat
  hasPages : Bool
  index : BTree.Tree
  wal : Bytes
  indexFile : Option (List BTree.Entry)
  seq : Nat
  versions : GoMap (List Version)
  activeSnapshots : Nat

structure Image where
  pages : List Block
  wal : Bytes
  indexFile : Option (List BTree.Entry)

abbrev PagerM := Proc Error Pager
abbrev StoreM := Proc Error Store

namespace Pager

def allocate : PagerM Page := allocatePage
def write (page : Page) : PagerM Unit := fun p => p.writePage page
def flushAll : PagerM Unit := Pager.flush

end Pager

namespace Store

def onPager {α : Type} (x : Pager → Except Error α × Pager) : StoreM α :=
  Proc.within Store.pager (fun s p => {s with pager := p}) x

def onWal (x : Bytes → Except Error Unit × Bytes) : StoreM Unit :=
  Proc.within Store.wal (fun s wal => {s with wal := wal}) x

def image (s : Store) : Image := ⟨s.pager.file,s.wal,s.indexFile⟩

def history (s : Store) (key : Bytes) : List Version := (s.versions.lookup key).getD []

/-- `s.seq++` and the new version of a key. -/
def addVersion (key value : Bytes) (flag : UInt8) : StoreM Unit :=
  modify fun s => {s with
    seq := s.seq + 1
    versions := s.versions.insert key (s.history key ++ [⟨s.seq + 1,value,flag = flagLive⟩])}

def saveIndex : StoreM Unit := modify fun s => {s with indexFile := some s.index.entries}

def indexPut (key value : Bytes) : StoreM Unit := modify fun s => {s with index := s.index.put key value}

def indexDelete (key : Bytes) : StoreM Unit := modify fun s => {s with index := (s.index.delete key).1}

/-- `for page.NextPageID() != NoPage`. A chain that visits more pages than there are does not end. -/
def followChain : Nat → Page → StoreM Page
  | 0,_ => throw .diverges
  | fuel+1,page =>
    match page.nextPageID with
    | none => pure page
    | some next => do
      let page ← onPager (·.readPage next)
      followChain fuel page

def lastPage : StoreM Page := do
  let s ← get
  if s.hasPages then
    let page ← onPager (·.readPage s.firstPage)
    followChain (s.pager.numPages + 1) page
  else
    let page ← onPager (·.allocatePage)
    modify fun s => {s with firstPage := page.id,hasPages := true}
    pure page

def append (key value : Bytes) (flag : UInt8) : StoreM Unit := do
  addVersion key value flag
  let last ← lastPage
  match writeRecord last key value flag with
  | .error _ =>
    let page ← onPager (·.allocatePage)
    match writeRecord page key value flag with
    | .error e => throw (.recordTooLarge e)
    | .ok page =>
      onPager (·.writePage (last.setNextPageID page.id))
      onPager (·.writePage page)
      if flag = flagLive then indexPut key value else indexDelete key
      saveIndex
  | .ok last =>
    onPager (·.writePage last)
    if flag = flagLive then indexPut key value
    saveIndex

def get (s : Store) (key : Bytes) : Option Bytes := s.index.get key

def put (key value : Bytes) : StoreM Unit := do
  onWal (Wal.append walPut key value)
  append key value flagLive

def delete (key : Bytes) : StoreM Unit := do
  onWal (Wal.append walDelete key [])
  append key [] flagTombstone
  indexDelete key
  saveIndex

def applyOps : List BatchOp → StoreM Unit
  | [] => pure ()
  | op::ops => do
    append op.key op.value (if op.delete then flagTombstone else flagLive)
    if op.delete then indexDelete op.key
    applyOps ops

def applyBatch (id : Nat) (ops : List BatchOp) : StoreM Unit := do
  onWal (Wal.appendTransaction id ops)
  applyOps ops
  saveIndex

def clearWal : StoreM Unit := modify fun s => {s with wal := []}

def flush : StoreM Unit := do
  onPager (·.flush)
  saveIndex
  clearWal

-- After these steps `Close` closes the files, which changes none of them.
def close : StoreM Unit := flush

/-- One turn of the loop of `Compact` over the index entries. -/
def compactEntry (last : Option Page) (e : BTree.Entry) : PagerM Page := do
  let page ← match last with
    | none => Pager.allocate
    | some page => pure page
  match writeRecord page e.1 e.2 flagLive with
  | .ok page => pure page
  | .error _ =>
    let next ← Pager.allocate
    Pager.write (page.setNextPageID next.id)
    match writeRecord next e.1 e.2 flagLive with
    | .ok next => pure next
    | .error e => throw e

def compactEntries : Option Page → List BTree.Entry → PagerM (Option Page)
  | last,[] => pure last
  | last,e::entries => do
    let page ← compactEntry last e
    compactEntries (some page) entries

def compactFile (entries : List BTree.Entry) : PagerM Unit := do
  match ← compactEntries none entries with
  | none => pure ()
  | some last => Pager.write last
  Pager.flushAll

def compact : StoreM Unit := do
  let s ← MonadState.get
  if 0 < s.activeSnapshots then throw .activeSnapshots
  match (compactFile s.index.entries).exec (Pager.open []) with
  | (.error e,_) => throw e
  | (.ok (),written) =>
    modify fun s => {s with
      pager := Pager.open written.file
      firstPage := 0
      hasPages := !s.index.entries.isEmpty}
    clearWal

def validatePage (numPages id : Nat) : StoreM Unit := do
  let page ← onPager (·.readPage id)
  if page.data.id ≠ id then throw (.mismatchedHeader id)
  if page.freeOffset < HeaderSize ∨ PageSize < page.freeOffset then
    throw (.invalidFreeOffset id page.freeOffset)
  match page.nextPageID with
  | none => pure ()
  | some next => if numPages ≤ next then throw (.danglingPage id next)
  match page.records.2 with
  | none => pure ()
  | some e => throw (.page id e)

def validateFrom (numPages : Nat) : List Nat → StoreM Unit
  | [] => pure ()
  | id::ids => do
    validatePage numPages id
    validateFrom numPages ids

def validatePages : StoreM Unit := do
  let s ← MonadState.get
  validateFrom s.pager.numPages (List.range s.pager.numPages)

/-- The loop of `CheckInvariants` over the entries of the index. -/
def checkEntries : List BTree.Entry → StoreM Unit
  | [] => pure ()
  | e::entries => do
    let s ← MonadState.get
    if s.get e.1 ≠ some e.2 then throw (.indexMismatch e.1)
    checkEntries entries

def checkInvariants : StoreM Unit := do
  validatePages
  let s ← MonadState.get
  checkEntries s.index.entries

/-- Whether there was an index file to load. -/
def loadIndex : StoreM Bool := do
  let s ← MonadState.get
  match s.indexFile with
  | none => pure false
  | some entries =>
    modify fun s => {s with index := s.index.putAll entries}
    pure true

def eachRecord (visit : Record → StoreM Unit) : List Record → StoreM Unit
  | [] => pure ()
  | r::records => do
    visit r
    eachRecord visit records

/-- The loop over the page chain that `rebuildIndex` and `rebuildVersions` share. -/
def rebuildFrom (visit : Record → StoreM Unit) : Nat → Nat → StoreM Unit
  | 0,_ => throw .diverges
  | fuel+1,id => do
    let p ← onPager (·.readPage id)
    eachRecord visit p.records.1
    match p.records.2 with
    | some e => throw e
    | none =>
      match p.nextPageID with
      | none => pure ()
      | some next => rebuildFrom visit fuel next

def rebuild (visit : Record → StoreM Unit) : StoreM Unit := do
  let s ← MonadState.get
  rebuildFrom visit (s.pager.numPages + 1) s.firstPage

def rebuildVersions : StoreM Unit := rebuild fun r => addVersion r.key r.value r.flag

def rebuildIndex : StoreM Unit := rebuild fun r => do
  if r.flag = flagTombstone then indexDelete r.key else indexPut r.key r.value
  addVersion r.key r.value r.flag

/-- The flag of a replayed operation; other operations give the zero value of a map. -/
def replayFlag (op : UInt8) : UInt8 := if op = walDelete then flagTombstone else flagLive

/-- `fmt.Errorf("...: %w", err)` around what a step returns. -/
def wrap (context : Error → Error) (x : StoreM Unit) : StoreM Unit :=
  tryCatch x (fun e => throw (context e))

def recover : StoreM Unit := do
  wrap .validateDatabase validatePages
  let indexLoaded ← loadIndex
  let s ← MonadState.get
  wrap .walRecovery (Wal.replay (fun op key value => append key value (replayFlag op)) s.wal)
  let s ← MonadState.get
  if 0 < s.pager.numPages then
    if indexLoaded then rebuildVersions
    else
      modify fun s => {s with firstPage := 0,hasPages := true}
      rebuildIndex
  if !indexLoaded then saveIndex

def fresh (i : Image) : Store := ⟨Pager.open i.pages,0,false,{},i.wal,i.indexFile,0,∅,0⟩

/-- `Open`. When it fails it closes the pager, which writes the cached pages. -/
def «open» (i : Image) : Except Error Store × Image :=
  match recover.exec (fresh i) with
  | (.ok (),s) => (.ok s,s.image)
  | (.error e,s) => (.error e,{s.image with pages := s.pager.flush.2.file})

def beginSnapshot (s : Store) : Nat × Store := (s.seq,{s with activeSnapshots := s.activeSnapshots + 1})

def releaseSnapshot (s : Store) : Store := {s with activeSnapshots := s.activeSnapshots - 1}

def changedSince (s : Store) (snapshot : Nat) (key : Bytes) : Bool :=
  match (s.history key).getLast? with
  | none => false
  | some v => snapshot < v.seq

def visible (snapshot : Nat) (versions : List Version) : Option Version :=
  versions.reverse.find? (·.seq ≤ snapshot)

def getAt (s : Store) (snapshot : Nat) (key : Bytes) : Option Bytes :=
  match visible snapshot (s.history key) with
  | some v => if v.found then some v.value else none
  | none => none

def keysAt (s : Store) (ord : Order) (snapshot : Nat) : List Bytes :=
  (ord.arrange s.versions.entries).filterMap fun e =>
    match visible snapshot e.2 with
    | some v => if v.found then some e.1 else none
    | none => none

end Store
end GoDb
