import GoDb.PoolCoherence
import GoDb.Foundation.Iteration
import Mathlib.Data.List.Infix

/-! The buffer pool under several callers. `Get` gives the lock back while it reads the
disk, so between its miss and its insertion other callers may have put its page, and
the pool may have evicted that page again. Each section under the lock is one step here,
and so is a read of the disk. -/
namespace GoDb
open Foundation

def soundDisk : Disk (Nat → Block) where
  readDisk d id := .ok (d id)
  writeDisk d page := (.ok (),Function.update d page.id page.data)

def onSoundDisk (d : Nat → Block) (id : Nat) : Option Block := some (d id)

theorem soundDisk_lawful : soundDisk.Lawful onSoundDisk where
  read done := congrArg some (Except.ok.inj done)
  written := by
    intro d d' page done
    rw [← (Prod.mk.inj done).2]
    ext1 id
    unfold onSoundDisk
    by_cases same : id = page.id
    · rw [same,Function.update_self,Function.update_self]
    · rw [Function.update_of_ne same,Function.update_of_ne same]
  failed done := nomatch (Prod.mk.inj done).1

theorem soundDisk_evicts {d : Nat → Block} {e : Error} : ¬BufferPool.EvictionFailed soundDisk d e := by
  rintro ⟨page,cause,failed,-⟩
  cases failed

variable {e : PoolEntry} {other : Nat} {page : Page}

namespace BufferPool

/-- The pool holds a change of the page that it has still to write. -/
def Unwritten (b : BufferPool) (id : Nat) : Prop := ∃ e ∈ b.entries, e.page.id = id ∧ e.dirty = true

variable {δ : Type} {io : Disk δ} {b : BufferPool} {d : δ} {id : Nat}

theorem Unwritten.of_front (unwritten : (b.front e).Unwritten id) :
    b.Unwritten id ∨ e.page.id = id ∧ e.dirty = true := by
  obtain ⟨found,member,here,dirty⟩ := unwritten
  rcases List.mem_cons.mp member with rfl | old
  · exact .inr ⟨here,dirty⟩
  · exact .inl ⟨found,(List.mem_filter.mp old).1,here,dirty⟩

theorem Unwritten.of_item (found : b.item other = some e) (unwritten : (b.front e).Unwritten id) : b.Unwritten id := by
  rcases unwritten.of_front with old | ⟨here,dirty⟩
  · exact old
  · exact ⟨e,List.mem_of_find?_eq_some found,here,dirty⟩

theorem makeRoom_entries (member : e ∈ (b.makeRoomLocked io d).2.1.entries) : e ∈ b.entries := by
  unfold makeRoomLocked at member
  split_ifs at member with room
  · exact member
  cases last : b.entries.getLast? with
  | none =>
    rw [last] at member
    exact member
  | some old =>
    rw [last] at member
    dsimp only at member
    split_ifs at member
    · generalize io.writeDisk d old.page = written at member
      rcases written with ⟨_ | _,_⟩
      · exact member
      · exact List.mem_of_mem_dropLast member
    · exact List.mem_of_mem_dropLast member

theorem Unwritten.of_lookup (unwritten : (b.lookup other).2.Unwritten id) : b.Unwritten id := by
  unfold lookup at unwritten
  cases found : b.item other with
  | none =>
    rw [found] at unwritten
    exact unwritten
  | some e =>
    rw [found] at unwritten
    exact Unwritten.of_item found unwritten

theorem Unwritten.of_makeRoom (unwritten : (b.makeRoomLocked io d).2.1.Unwritten id) : b.Unwritten id := by
  obtain ⟨e,member,here,dirty⟩ := unwritten
  exact ⟨e,makeRoom_entries member,here,dirty⟩

theorem Unwritten.of_keep (unwritten : (b.keep io d page).2.1.Unwritten id) : b.Unwritten id := by
  have room : (b.makeRoomLocked io d).2.1.Unwritten id → b.Unwritten id := Unwritten.of_makeRoom
  unfold keep at unwritten
  cases found : b.item page.id with
  | some e =>
    rw [found] at unwritten
    exact Unwritten.of_item found unwritten
  | none =>
    rw [found] at unwritten
    dsimp only at unwritten
    generalize b.makeRoomLocked io d = made at room unwritten
    rcases made with ⟨e | _,b',d'⟩
    · exact room unwritten
    · rcases unwritten.of_front with old | ⟨-,dirty⟩
      · exact room old
      · cases dirty

theorem Unwritten.of_get (unwritten : (b.get io d other).2.1.Unwritten id) : b.Unwritten id := by
  have looked : (b.lookup other).2.Unwritten id → b.Unwritten id := Unwritten.of_lookup
  unfold get at unwritten
  generalize b.lookup other = result at looked unwritten
  rcases result with ⟨_ | _,b'⟩
  · dsimp only at unwritten
    cases read : io.readDisk d other with
    | error e =>
      rw [read] at unwritten
      exact looked unwritten
    | ok block =>
      rw [read] at unwritten
      exact looked unwritten.of_keep
  · exact looked unwritten

theorem Unwritten.of_put (unwritten : (b.put io d page true).2.1.Unwritten id) : b.Unwritten id ∨ page.id = id := by
  have room : (b.makeRoomLocked io d).2.1.Unwritten id → b.Unwritten id := Unwritten.of_makeRoom
  unfold put at unwritten
  cases found : b.item page.id with
  | some e =>
    rw [found] at unwritten
    exact unwritten.of_front.imp_right And.left
  | none =>
    rw [found] at unwritten
    dsimp only at unwritten
    generalize b.makeRoomLocked io d = made at room unwritten
    rcases made with ⟨e | _,b',d'⟩
    · exact .inl (room unwritten)
    · exact unwritten.of_front.imp room And.left

end BufferPool

/-- A `Get` that has missed and does not hold the lock, before and after its read. -/
inductive PendingGet
  | missed (id : Nat)
  | loaded (page : Page)
  deriving DecidableEq

def PendingGet.id : PendingGet → Nat
  | .missed id => id
  | .loaded page => page.id

structure SharedPool where
  pool : BufferPool
  disk : Nat → Block
  pending : Nat → Option PendingGet

namespace SharedPool

/-- A step of one caller's `Get`, or a whole call of another caller. -/
inductive Step
  | lookup (caller id : Nat)
  | read (caller : Nat)
  | keep (caller : Nat)
  | get (id : Nat)
  | put (page : Page)
  | flush (ord : Order)

def wait (s : SharedPool) (caller : Nat) (call : Option PendingGet) : SharedPool :=
  {s with pending := Function.update s.pending caller call}

/-- The first step of a `Get`, by a caller that is not in one already. -/
def lookup (s : SharedPool) (caller id : Nat) : SharedPool :=
  match s.pending caller with
  | some _ => s
  | none =>
    match s.pool.lookup id with
    | (some _,pool) => {s with pool}
    | (none,pool) => wait {s with pool} caller (some (.missed id))

def read (s : SharedPool) (caller : Nat) : SharedPool :=
  match s.pending caller with
  | some (.missed id) =>
    match soundDisk.readDisk s.disk id with
    | .ok block => s.wait caller (some (.loaded ⟨id,block⟩))
    | .error _ => s.wait caller none
  | _ => s

def keep (s : SharedPool) (caller : Nat) : SharedPool :=
  match s.pending caller with
  | some (.loaded page) =>
    let (_,pool,disk) := s.pool.keep soundDisk s.disk page
    wait {s with pool,disk} caller none
  | _ => s

def Step.run : Step → SharedPool → SharedPool
  | .lookup caller id,s => s.lookup caller id
  | .read caller,s => s.read caller
  | .keep caller,s => s.keep caller
  | .get id,s => let (_,pool,disk) := s.pool.get soundDisk s.disk id; {s with pool,disk}
  | .put page,s => let (_,pool,disk) := s.pool.put soundDisk s.disk page true; {s with pool,disk}
  | .flush ord,s =>
    let (_,pool,disk) := BufferPool.flush soundDisk (ord.arrange s.pool.ids) s.pool s.disk
    {s with pool,disk}

def reached (capacity : Int) (start : Nat → Block) (steps : List Step) : SharedPool :=
  steps.foldl (fun s step => step.run s) ⟨newBufferPool capacity,start,fun _ => none⟩

def answer (s : SharedPool) (id : Nat) : Except Error Page := (s.pool.get soundDisk s.disk id).1

/-- What a step is to do to the pages: only `Put` changes one. -/
def Step.puts : Step → (Nat → Block) → Nat → Block
  | .put page,pages => Function.update pages page.id page.data
  | _,pages => pages

/-- For each page what the last `Put` of it gave, and at first what is on the disk. -/
def lastPut (start : Nat → Block) (steps : List Step) : Nat → Block :=
  steps.foldl (fun pages step => step.puts pages) start

/-- A `Get` that inserts its page inserts what the disk holds then. -/
def Fresh (s : SharedPool) : Step → Prop
  | .keep caller => ∀ page, s.pending caller = some (.loaded page) → s.pool.item page.id = none →
      s.disk page.id = page.data
  | _ => True

theorem lookup_cases (s : SharedPool) (caller id : Nat) :
    s.lookup caller id = s ∨ s.lookup caller id = {s with pool := (s.pool.lookup id).2} ∨
      s.pool.item id = none ∧
        s.lookup caller id = wait {s with pool := (s.pool.lookup id).2} caller (some (.missed id)) := by
  unfold lookup BufferPool.lookup
  cases s.pending caller with
  | some _ => exact .inl rfl
  | none =>
    cases s.pool.item id with
    | some e => exact .inr (.inl rfl)
    | none => exact .inr (.inr ⟨rfl,rfl⟩)

theorem read_cases (s : SharedPool) (caller : Nat) :
    s.read caller = s ∨ ∃ id, s.pending caller = some (.missed id) ∧
      s.read caller = s.wait caller (some (.loaded ⟨id,s.disk id⟩)) := by
  unfold read
  rcases s.pending caller with _ | id | _
  · exact .inl rfl
  · exact .inr ⟨id,rfl,rfl⟩
  · exact .inl rfl

theorem keep_cases (s : SharedPool) (caller : Nat) :
    s.keep caller = s ∨ ∃ page, s.pending caller = some (.loaded page) ∧
      s.keep caller = wait ⟨(s.pool.keep soundDisk s.disk page).2.1,(s.pool.keep soundDisk s.disk page).2.2,s.pending⟩
        caller none := by
  unfold keep
  rcases s.pending caller with _ | _ | page
  · exact .inl rfl
  · exact .inl rfl
  · exact .inr ⟨page,rfl,rfl⟩

structure Shows (places : Nat) (s : SharedPool) (pages : Nat → Block) : Prop where
  coherent : s.pool.Coherent onSoundDisk places s.disk
  logical : s.pool.logical onSoundDisk s.disk = fun id => some (pages id)

variable {places : Nat} {s : SharedPool} {pages : Nat → Block}

theorem Shows.answer (shows : s.Shows places pages) (id : Nat) : s.answer id = .ok ⟨id,pages id⟩ := by
  obtain ⟨-,-,right,failed⟩ := BufferPool.get_coherent soundDisk_lawful shows.coherent id
  unfold SharedPool.answer
  cases result : (s.pool.get soundDisk s.disk id).1 with
  | error e =>
    rcases failed e result with unread | stuck
    · cases unread
    · exact absurd stuck soundDisk_evicts
  | ok page =>
    obtain ⟨here,shown⟩ := right page result
    rw [shows.logical] at shown
    obtain ⟨number,data⟩ := page
    obtain rfl : number = id := here
    rw [Option.some.inj shown]

theorem Shows.on_disk (shows : s.Shows places pages) {id : Nat}
    (clean : ∀ e, s.pool.item id = some e → e.dirty = false) : s.disk id = pages id := by
  have shown := congrFun shows.logical id
  unfold BufferPool.logical at shown
  cases found : s.pool.item id with
  | none =>
    rw [found] at shown
    exact Option.some.inj shown
  | some e =>
    rw [found] at shown
    obtain ⟨member,rfl⟩ := (BufferPool.item_some shows.coherent.distinct).mp found
    exact Option.some.inj ((shows.coherent.clean e member (clean e found)).trans shown)

theorem Shows.step (shows : s.Shows places pages) {step : Step} (fresh : s.Fresh step) :
    (step.run s).Shows places (step.puts pages) := by
  cases step with
  | lookup caller id =>
    obtain ⟨coherent,same,-⟩ := BufferPool.lookup_coherent shows.coherent id
    change (s.lookup caller id).Shows places pages
    rcases s.lookup_cases caller id with now | now | ⟨-,now⟩
    · rwa [now]
    · rw [now]
      exact ⟨coherent,same.trans shows.logical⟩
    · rw [now]
      exact ⟨coherent,same.trans shows.logical⟩
  | read caller =>
    change (s.read caller).Shows places pages
    rcases s.read_cases caller with now | ⟨id,-,now⟩
    · rwa [now]
    · rw [now]
      exact ⟨shows.coherent,shows.logical⟩
  | keep caller =>
    change (s.keep caller).Shows places pages
    rcases s.keep_cases caller with now | ⟨page,waiting,now⟩
    · rwa [now]
    · rw [now]
      obtain ⟨coherent,same,-⟩ := BufferPool.keep_coherent soundDisk_lawful shows.coherent page
        fun absent => congrArg some (fresh page waiting absent)
      exact ⟨coherent,same.trans shows.logical⟩
  | get id =>
    obtain ⟨coherent,same,-⟩ := BufferPool.get_coherent soundDisk_lawful shows.coherent id
    exact ⟨coherent,same.trans shows.logical⟩
  | put page =>
    obtain ⟨coherent,done,failed⟩ := BufferPool.put_coherent soundDisk_lawful shows.coherent page
    refine ⟨coherent,?_⟩
    cases result : (s.pool.put soundDisk s.disk page true).1 with
    | error e => exact absurd (failed e result).2 soundDisk_evicts
    | ok _ =>
      refine (done result).trans ?_
      rw [shows.logical]
      exact (Function.comp_update some pages page.id page.data).symm
  | flush ord =>
    have flushed := BufferPool.flush_flushed soundDisk_lawful (ord.arrange s.pool.ids) shows.coherent
    exact ⟨flushed.coherent,flushed.logical.trans shows.logical⟩

theorem item_kept {b : BufferPool} {d : Nat → Block} (absent : b.item page.id = none)
    (coherent : b.Coherent onSoundDisk places d) :
    (b.keep soundDisk d page).2.1.item page.id = some ⟨page,false⟩ := by
  have made := BufferPool.makeRoom_made soundDisk_lawful coherent
  unfold BufferPool.keep
  rw [absent]
  generalize b.makeRoomLocked soundDisk d = result at made ⊢
  rcases result with ⟨e | _,b',d'⟩
  · exact absurd (made.failed e rfl) soundDisk_evicts
  · dsimp only
    rw [BufferPool.item_front,if_pos rfl]

theorem Shows.answer_inserted (shows : s.Shows places pages) {caller : Nat}
    (waiting : s.pending caller = some (.loaded page)) (absent : s.pool.item page.id = none) :
    (s.keep caller).answer page.id = .ok page := by
  have kept : (s.keep caller).pool.item page.id = some ⟨page,false⟩ := by
    unfold SharedPool.keep
    rw [waiting]
    exact item_kept absent shows.coherent
  unfold SharedPool.answer BufferPool.get BufferPool.lookup
  rw [kept]

theorem Shows.fresh (shows : s.Shows places pages) {step : Step}
    (right : ∀ id, (step.run s).answer id = .ok ⟨id,step.puts pages id⟩) : s.Fresh step := by
  cases step with
  | keep caller =>
    intro page waiting absent
    have given := (shows.answer_inserted waiting absent).symm.trans (right page.id)
    have old : s.disk page.id = pages page.id := shows.on_disk fun e found => by rw [absent] at found; cases found
    rw [Except.ok.inj given]
    exact old
  | _ => trivial

@[simp] theorem reached_concat (capacity : Int) (start : Nat → Block) (steps : List Step) (step : Step) :
    reached capacity start (steps ++ [step]) = step.run (reached capacity start steps) := by
  simp [reached]

@[simp] theorem lastPut_concat (start : Nat → Block) (steps : List Step) (step : Step) :
    lastPut start (steps ++ [step]) = step.puts (lastPut start steps) := by
  simp [lastPut]

theorem shows_new (capacity : Int) (start : Nat → Block) :
    (reached capacity start []).Shows (newBufferPool capacity).capacity (lastPut start []) :=
  ⟨BufferPool.new_coherent onSoundDisk capacity start,rfl⟩

/-- As long as every inserted page is fresh, the pool stands for what was put last. -/
theorem shows_reached (capacity : Int) (start : Nat → Block) (steps : List Step)
    (fresh : ∀ before step, before ++ [step] <+: steps →
      (reached capacity start before).Shows (newBufferPool capacity).capacity (lastPut start before) →
      (reached capacity start before).Fresh step) :
    (reached capacity start steps).Shows (newBufferPool capacity).capacity (lastPut start steps) := by
  induction steps using List.reverseRecOn with
  | nil => exact shows_new capacity start
  | append_singleton steps step ih =>
    have shows := ih fun before step' first => fresh before step' (first.trans (List.prefix_append _ _))
    rw [reached_concat,lastPut_concat]
    exact shows.step (fresh steps step List.prefix_rfl shows)

/-- Every state of a run shows what was put last exactly when each page that a `Get` of the run inserts is, at that
moment, still the one on the disk. -/
theorem no_stale_page_iff (capacity : Int) (start : Nat → Block) (steps : List Step) :
    (∀ before, before <+: steps → ∀ id,
        (reached capacity start before).answer id = .ok ⟨id,lastPut start before id⟩) ↔
      ∀ before caller page, before ++ [.keep caller] <+: steps →
        (reached capacity start before).pending caller = some (.loaded page) →
        (reached capacity start before).pool.item page.id = none →
        (reached capacity start before).disk page.id = page.data := by
  constructor
  · intro right before caller page first
    have fresh : ∀ early step, early ++ [step] <+: steps →
        (reached capacity start early).Shows (newBufferPool capacity).capacity (lastPut start early) →
        (reached capacity start early).Fresh step := by
      intro early step inside shows
      apply shows.fresh
      intro id
      have next := right _ inside id
      rwa [reached_concat,lastPut_concat] at next
    have earlier : before <+: steps := (List.prefix_append _ _).trans first
    have shows := shows_reached capacity start before fun early step inside => fresh early step (inside.trans earlier)
    exact fresh before (.keep caller) first shows page
  · intro fresh before first id
    apply Shows.answer
    apply shows_reached
    intro early step inside _
    cases step with
    | keep caller => exact fun page => fresh early caller page (inside.trans first)
    | _ => trivial

/-- No `Put` has met the pending calls: their pages have no change in the pool, and what they have read is current. -/
def Quiet (s : SharedPool) (pages : Nat → Block) : Prop :=
  ∀ caller call, s.pending caller = some call →
    ¬s.pool.Unwritten call.id ∧ ∀ page, call = .loaded page → page.data = pages page.id

theorem Shows.on_disk_of_written (shows : s.Shows places pages) {id : Nat} (written : ¬s.pool.Unwritten id) :
    s.disk id = pages id := by
  apply shows.on_disk
  intro e found
  obtain ⟨member,here⟩ := (BufferPool.item_some shows.coherent.distinct).mp found
  by_contra dirty
  exact written ⟨e,member,here,eq_true_of_ne_false dirty⟩

theorem Quiet.fresh (quiet : s.Quiet pages) (shows : s.Shows places pages) (step : Step) : s.Fresh step := by
  cases step with
  | keep caller =>
    intro page waiting absent
    obtain ⟨written,current⟩ := quiet caller _ waiting
    rw [current page rfl]
    exact shows.on_disk_of_written written
  | _ => trivial

theorem Quiet.moved (quiet : s.Quiet pages) {pool : BufferPool} {disk : Nat → Block}
    (fewer : ∀ id, pool.Unwritten id → s.pool.Unwritten id) : Quiet ⟨pool,disk,s.pending⟩ pages := by
  intro caller call waiting
  obtain ⟨written,current⟩ := quiet caller call waiting
  exact ⟨fun unwritten => written (fewer _ unwritten),current⟩

theorem Quiet.wait (quiet : s.Quiet pages) {caller : Nat} {call : Option PendingGet}
    (own : ∀ given, call = some given →
      ¬s.pool.Unwritten given.id ∧ ∀ page, given = .loaded page → page.data = pages page.id) :
    (s.wait caller call).Quiet pages := by
  intro other given waiting
  change Function.update s.pending caller call other = some given at waiting
  by_cases same : other = caller
  · rw [same,Function.update_self] at waiting
    exact own given waiting
  · rw [Function.update_of_ne same] at waiting
    exact quiet other given waiting

theorem Quiet.step (quiet : s.Quiet pages) (shows : s.Shows places pages) {step : Step}
    (apart : ∀ page, step = .put page → ∀ caller call, s.pending caller = some call → call.id ≠ page.id) :
    (step.run s).Quiet (step.puts pages) := by
  cases step with
  | lookup caller id =>
    have moved : Quiet ⟨(s.pool.lookup id).2,s.disk,s.pending⟩ pages :=
      quiet.moved fun _ => BufferPool.Unwritten.of_lookup
    change (s.lookup caller id).Quiet pages
    rcases s.lookup_cases caller id with now | now | ⟨absent,now⟩
    · rwa [now]
    · rwa [now]
    · rw [now]
      apply moved.wait
      intro given same
      obtain rfl := Option.some.inj same
      refine ⟨fun unwritten => ?_,fun page other => nomatch other⟩
      obtain ⟨e,member,here,-⟩ := unwritten.of_lookup
      exact BufferPool.item_none.mp absent (List.mem_map.mpr ⟨e,member,here⟩)
  | read caller =>
    change (s.read caller).Quiet pages
    rcases s.read_cases caller with now | ⟨id,waiting,now⟩
    · rwa [now]
    · rw [now]
      apply quiet.wait
      intro given same
      obtain rfl := Option.some.inj same
      have written := (quiet caller _ waiting).1
      refine ⟨written,fun page loaded => ?_⟩
      rw [← PendingGet.loaded.inj loaded]
      exact shows.on_disk_of_written written
  | keep caller =>
    change (s.keep caller).Quiet pages
    rcases s.keep_cases caller with now | ⟨page,-,now⟩
    · rwa [now]
    · rw [now]
      exact (quiet.moved fun _ => BufferPool.Unwritten.of_keep).wait fun _ same => nomatch same
  | get id =>
    have fewer : ∀ other, (s.pool.get soundDisk s.disk id).2.1.Unwritten other → s.pool.Unwritten other :=
      fun _ => BufferPool.Unwritten.of_get
    exact quiet.moved fewer
  | put page =>
    intro caller call waiting
    obtain ⟨written,current⟩ := quiet caller call waiting
    have other := apart page rfl caller call waiting
    refine ⟨fun unwritten => ?_,fun own loaded => ?_⟩
    · rcases BufferPool.Unwritten.of_put unwritten with old | same
      · exact written old
      · exact other same.symm
    · rw [loaded] at other
      exact (current own loaded).trans (Function.update_of_ne other _ _).symm
  | flush ord =>
    have flushed := BufferPool.flush_flushed soundDisk_lawful (ord.arrange s.pool.ids) shows.coherent
    apply quiet.moved
    rintro id ⟨e,member,here,dirty⟩
    exact ⟨e,flushed.dirty e member dirty,here,dirty⟩

/-- As long as no page is put while a `Get` of it is between its steps, every state shows what was put last. -/
theorem no_stale_of_apart (capacity : Int) (start : Nat → Block) (steps : List Step)
    (apart : ∀ before page, before ++ [.put page] <+: steps → ∀ caller call,
      (reached capacity start before).pending caller = some call → call.id ≠ page.id) (id : Nat) :
    (reached capacity start steps).answer id = .ok ⟨id,lastPut start steps id⟩ := by
  have both : (reached capacity start steps).Shows (newBufferPool capacity).capacity (lastPut start steps) ∧
      (reached capacity start steps).Quiet (lastPut start steps) := by
    induction steps using List.reverseRecOn with
    | nil => exact ⟨shows_new capacity start,fun _ _ waiting => nomatch waiting⟩
    | append_singleton steps step ih =>
      obtain ⟨shows,quiet⟩ := ih fun before page first => apart before page (first.trans (List.prefix_append _ _))
      rw [reached_concat,lastPut_concat]
      refine ⟨shows.step (quiet.fresh shows step),quiet.step shows ?_⟩
      rintro page rfl
      exact apart steps page List.prefix_rfl
  exact both.1.answer id

end SharedPool

namespace Sample

def chained : Page := ⟨0,{(newPage 0).data with next := some 1}⟩

/-- One caller reads the page 0, and before it inserts it another caller puts that page and one more. -/
def overtaken : List SharedPool.Step := [.lookup 7 0,.read 7,.put chained,.put (newPage 1),.keep 7]

end Sample

namespace SharedPool

/-- In a pool of one page the page put last is on the disk, and the old one is cached in its place. -/
theorem stale_page_cached :
    (reached 1 (fun id => (newPage id).data) Sample.overtaken).answer 0 = .ok (newPage 0) ∧
      lastPut (fun id => (newPage id).data) Sample.overtaken 0 = Sample.chained.data ∧
      newPage 0 ≠ Sample.chained := by
  refine ⟨rfl,rfl,fun same => ?_⟩
  have next := congrArg (fun page : Page => page.data.next) same
  cases next

theorem no_stale_of_apart_other :
    (reached 1 (fun id => (newPage id).data) [.lookup 7 1,.read 7,.put Sample.chained,.keep 7]).answer 0 =
      .ok Sample.chained := by
  refine no_stale_of_apart 1 _ _ (fun before page first caller call waiting => ?_) 0
  rcases before with _ | ⟨_,_ | ⟨_,_ | ⟨_,_ | ⟨_,before⟩⟩⟩⟩ <;> simp [List.cons_prefix_cons] at first
  obtain ⟨rfl,rfl,rfl⟩ := first
  by_cases own : caller = 7
  · subst own
    obtain rfl := Option.some.inj waiting
    decide
  · change Function.update (Function.update (fun _ => none) 7 _) 7 _ caller = some call at waiting
    rw [Function.update_of_ne own,Function.update_of_ne own] at waiting
    cases waiting

end SharedPool
end GoDb
