import GoDb.BufferPool

/-! The pager of `storage/pager.go` over a file that is a list of pages. Reads and
writes of the file do not fail, and `Sync` has no effect of its own. Go hands out
pointers to the cached pages, here a page is a value: every change the store makes
through such a pointer is followed by a `WritePage` of that page before the pool,
which keeps the 64 pages used last, can evict it. -/
namespace GoDb

structure Pager where
  numPages : Nat
  pool : BufferPool
  file : List Block
  deriving DecidableEq

/-- `WriteAt` on the slot of a page. A write past the end leaves a hole of zero bytes. -/
def writePageDisk (file : List Block) (page : Page) : List Block :=
  if page.id < file.length then file.set page.id page.data
  else file ++ List.replicate (page.id - file.length) Block.zero ++ [page.data]

def readPageDisk (file : List Block) (id : Nat) : Except Error Block :=
  match file[id]? with
  | none => .error (.readingPage id)
  | some block => .ok block

def fileDisk : Disk (List Block) := ⟨readPageDisk,fun file page => (.ok (),writePageDisk file page)⟩

namespace Pager

def «open» (file : List Block) : Pager := ⟨file.length,newBufferPool 64,file⟩

def allocatePage (p : Pager) : Except Error Page × Pager :=
  let page := newPage p.numPages
  match p.pool.put fileDisk p.file page true with
  | (.error e,pool,file) => (.error e,{p with pool := pool,file := file})
  | (.ok (),pool,file) => (.ok page,⟨p.numPages+1,pool,file⟩)

def readPage (p : Pager) (id : Nat) : Except Error Page × Pager :=
  if p.numPages ≤ id then (.error (.noSuchPage id p.numPages),p)
  else
    let (page,pool,file) := p.pool.get fileDisk p.file id
    (page,{p with pool := pool,file := file})

def writePage (p : Pager) (page : Page) : Except Error Unit × Pager :=
  if p.numPages ≤ page.id then (.error (.noSuchPage page.id p.numPages),p)
  else
    let (done,pool,file) := p.pool.put fileDisk p.file page true
    (done,{p with pool := pool,file := file})

/-- `Flush`, meeting the cached pages in the given order. -/
def flushIn (order : List Nat) (p : Pager) : Except Error Unit × Pager :=
  let (done,pool,file) := p.pool.flush fileDisk order p.file
  (done,{p with pool := pool,file := file})

def flush (p : Pager) : Except Error Unit × Pager := p.flushIn p.pool.ids

end Pager
end GoDb
