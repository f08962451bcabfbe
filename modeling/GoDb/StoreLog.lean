import GoDb.Session
import Mathlib.Data.List.TakeWhile

/-! The pages of a store as a log. The chain that a session appends to starts behind the
pages that were there before, and its records, taken one after the other, give the index. -/
namespace GoDb
open Foundation Outcome Runs SortedEntries

/-- What a record means to the entries before it. -/
def Record.applyTo (entries : List BTree.Entry) (r : Record) : List BTree.Entry :=
  if r.flag = flagTombstone then SortedEntries.remove r.key entries else SortedEntries.put r.key r.value entries

theorem BatchOp.applyTo_record (op : BatchOp) (c : Contents) : op.record.applyTo c.entries = (c.apply op).entries := by
  rcases op with ⟨key,value,_ | _⟩ <;> rfl

namespace Store

variable {s s' : Store} {base content : List Block} {records : List Record}

/-- The chain of a session holds these records, and the pages from before the session are untouched. -/
structure Chained (s : Store) (base content : List Block) (records : List Record) : Prop where
  shows : s.pager.Shows content
  pages : PagesOk content
  kept : content.take base.length = base
  chain : s.hasPages = true → s.firstPage = base.length ∧
    ∃ segments, Segments content base.length segments ∧ segments.flatMap Prod.snd = records
  empty : s.hasPages = false → s.firstPage = 0 ∧ content = base ∧ records = []

theorem Chained.congr (chained : s.Chained base content records) (pager : s'.pager = s.pager)
    (first : s'.firstPage = s.firstPage) (has : s'.hasPages = s.hasPages) : s'.Chained base content records :=
  ⟨pager ▸ chained.shows,chained.pages,chained.kept,first ▸ has ▸ chained.chain,first ▸ has ▸ chained.empty⟩

theorem Chained.versioned (chained : s.Chained base content records) (key value : Bytes) (flag : UInt8) :
    (s.versioned key value flag).Chained base content records := chained.congr rfl rfl rfl

theorem Chained.told (chained : s.Chained base content records) (op : BatchOp) :
    (s.told op).Chained base content records := by
  unfold Store.told
  split
  · exact chained.congr rfl rfl rfl
  · exact chained

private theorem Chained.reached (chained : s.Chained base content records) :
    ∃ s' content' last front own, Reached s s' content' last front own ∧ PagesOk content' ∧
      content'.take base.length = base ∧ base.length ≤ last.id ∧ front.flatMap Prod.snd ++ own = records ∧
      s'.firstPage = base.length ∧ s'.hasPages = true := by
  cases has : s.hasPages with
  | false =>
    obtain ⟨-,rfl,rfl⟩ := chained.empty has
    exact ⟨_,_,_,_,_,lastPage_first chained.shows has,chained.pages.concat,List.take_left,Nat.le_refl _,rfl,rfl,rfl⟩
  | true =>
    obtain ⟨first,segments,chain,rfl⟩ := chained.chain has
    obtain ⟨-,bound⟩ := chain.sorted
    obtain ⟨front,id,own,_,rfl,-⟩ := chain.final
    obtain ⟨block,-,reached⟩ := lastPage_chain chained.shows has (first.symm ▸ chain)
    exact ⟨_,_,_,_,_,reached,chained.pages,chained.kept,bound id (by simp),by simp,first,has⟩

theorem Chained.append_fits (chained : s.Chained base content records) {r : Record} (fit : Fits r.key r.value) :
    ∃ s' content', (append r.key r.value r.flag).exec s = (.ok (),s') ∧ s'.Chained base content' (records ++ [r]) := by
  obtain ⟨s₁,content₁,last,front,own,reached,pages,kept,behind,rfl,first,has⟩ :=
    (chained.versioned r.key r.value r.flag).reached
  have inside : last.id < content₁.length := (List.getElem?_eq_some_iff.mp reached.here).1
  by_cases room : last.data.free + r.size ≤ PageSize
  · obtain ⟨page,written,done,shown,linked⟩ := append_room reached room
    rw [first] at linked
    refine ⟨_,_,done,shown,pages.written reached.here written,?_,fun _ => ⟨first,_,linked,by simp⟩,fun none => ?_⟩
    · rw [List.take_set_of_le behind,kept]
    · exact nomatch has.symm.trans none
  · obtain ⟨page,written,done,shown,linked⟩ := append_full reached (Nat.lt_of_not_le room) fit
    rw [first] at linked
    refine ⟨_,_,done,shown,pages.linked reached.here written,?_,fun _ => ⟨first,_,linked,by simp⟩,fun none => ?_⟩
    · rw [List.take_append_of_le_length (by rw [List.length_set]; omega),List.take_set_of_le behind,kept]
    · exact nomatch has.symm.trans none

theorem Chained.append_large (chained : s.Chained base content records) {r : Record} (large : ¬Fits r.key r.value) :
    ∃ s' content', (append r.key r.value r.flag).exec s = (.error (.recordTooLarge .pageFull),s') ∧
      s'.Chained base content' records := by
  obtain ⟨s₁,content₁,last,front,own,reached,pages,kept,behind,rfl,first,has⟩ :=
    (chained.versioned r.key r.value r.flag).reached
  have inside : last.id < content₁.length := (List.getElem?_eq_some_iff.mp reached.here).1
  obtain ⟨done,shown⟩ := Store.append_large reached (Nat.lt_of_not_le large)
  have chain := reached.chain
  rw [first] at chain
  refine ⟨_,_,done,shown,pages.concat,?_,fun _ => ⟨first,_,chain.extend _,by simp⟩,fun none => ?_⟩
  · rw [List.take_append_of_le_length (by omega),kept]
  · exact nomatch has.symm.trans none

theorem Chained.logged (chained : s.Chained base content records) (wal : Bytes) :
    Chained {s with wal := wal} base content records := chained.congr rfl rfl rfl

theorem Chained.put (chained : s.Chained base content records) (key value : Bytes) :
    ∃ content', ((put key value).exec s).2.Chained base content'
      (if Fits key value then records ++ [⟨flagLive,key,value⟩] else records) := by
  by_cases short : key.length + value.length < 2^32
  · rw [put_exec short]
    have logged := chained.logged (s.wal ++ Wal.record walPut key value)
    split_ifs with fit
    · obtain ⟨s',content',done,chained'⟩ := logged.append_fits (r := ⟨flagLive,key,value⟩) fit
      rw [show (append key value flagLive).exec _ = _ from done]
      exact ⟨content',chained'⟩
    · obtain ⟨s',content',failed,chained'⟩ := logged.append_large (r := ⟨flagLive,key,value⟩) fit
      rw [show (append key value flagLive).exec _ = _ from failed]
      exact ⟨content',chained'⟩
  · obtain ⟨large,failed⟩ := put_long (Nat.le_of_not_lt short) s
    rw [if_neg large,failed]
    exact ⟨content,chained⟩

theorem Chained.delete (chained : s.Chained base content records) (key : Bytes) :
    ∃ content', ((delete key).exec s).2.Chained base content'
      (if Fits key [] then records ++ [⟨flagTombstone,key,[]⟩] else records) := by
  by_cases short : key.length < 2^32
  · rw [delete_exec short]
    have logged := chained.logged (s.wal ++ Wal.record walDelete key [])
    split_ifs with fit
    · obtain ⟨s',content',done,chained'⟩ := logged.append_fits (r := ⟨flagTombstone,key,[]⟩) fit
      rw [exec_bind_ok (show (append key [] flagTombstone).exec _ = _ from done)]
      exact ⟨content',chained'.congr rfl rfl rfl⟩
    · obtain ⟨s',content',failed,chained'⟩ := logged.append_large (r := ⟨flagTombstone,key,[]⟩) fit
      rw [exec_bind_error (show (append key [] flagTombstone).exec _ = _ from failed)]
      exact ⟨content',chained'⟩
  · obtain ⟨large,failed⟩ := delete_long (Nat.le_of_not_lt short) s
    rw [if_neg large,failed]
    exact ⟨content,chained⟩

/-- The operations of a batch before the first that fits on no page. -/
def applied (ops : List BatchOp) : List BatchOp := ops.takeWhile fun op => Fits op.key op.value

theorem applied_of_fits {ops : List BatchOp} (fits : ∀ op ∈ ops, Fits op.key op.value) : applied ops = ops :=
  List.takeWhile_eq_self_iff.mpr fun op member => decide_eq_true (fits op member)

theorem applied_split {before after : List BatchOp} {op : BatchOp} (fits : ∀ op ∈ before, Fits op.key op.value)
    (large : ¬Fits op.key op.value) : applied (before ++ op::after) = before := by
  rw [applied,List.takeWhile_append_of_pos fun op member => decide_eq_true (fits op member)]
  simp [large]

theorem Chained.applyOps (chained : s.Chained base content records) (ops : List BatchOp) :
    ∃ content', ((applyOps ops).exec s).2.Chained base content' (records ++ (applied ops).map BatchOp.record) := by
  induction ops generalizing s content records with
  | nil =>
    rw [applied,List.takeWhile_nil,List.map_nil,List.append_nil]
    exact ⟨content,chained⟩
  | cons op ops ih =>
    by_cases fit : Fits op.key op.value
    · obtain ⟨s',content',done,chained'⟩ := chained.append_fits (r := op.record) fit
      obtain ⟨content'',final⟩ := ih (chained'.told op)
      rw [applyOps_cons done]
      exact ⟨content'',by simpa [applied,fit] using final⟩
    · obtain ⟨s',content',failed,chained'⟩ := chained.append_large (r := op.record) fit
      rw [applyOps_error failed]
      exact ⟨content',by simpa [applied,fit] using chained'⟩

theorem Chained.applyBatch (chained : s.Chained base content records) (id : Nat) (ops : List BatchOp) :
    ∃ content', ((applyBatch id ops).exec s).2.Chained base content'
      (if ∀ op ∈ ops, Short op then records ++ (applied ops).map BatchOp.record else records) := by
  unfold Store.applyBatch
  rw [exec_bind,exec_onWal]
  rcases appendTransaction_result id ops s.wal with ⟨short,logged⟩ | ⟨⟨op,member,long⟩,failed⟩
  · obtain ⟨content',final⟩ := (chained.logged (Wal.appendTransaction id ops s.wal).2).applyOps ops
    rw [if_pos short,logged]
    simp only
    rw [exec_bind]
    generalize (Store.applyOps ops).exec _ = result at final ⊢
    obtain ⟨_ | _,s'⟩ := result
    · exact ⟨content',final⟩
    · exact ⟨content',final.congr rfl rfl rfl⟩
  · rw [if_neg fun short => long (short op member),failed]
    exact ⟨content,chained.logged _⟩

/-- A session on a new path: the records of its chain are what the index is made of. -/
structure InStep (s : Store) (records : List Record) : Prop where
  chained : ∃ content, s.Chained [] content records
  valid : s.index.Valid
  fits : ∀ e ∈ s.index.entries, Fits e.1 e.2
  entries : records.foldl Record.applyTo [] = s.index.entries

theorem Chained.first (chained : s.Chained base content records) (has : s.hasPages = true) :
    s.firstPage < content.length := by
  obtain ⟨first,segments,chain,-⟩ := chained.chain has
  obtain ⟨_,_,_,here,-⟩ := chain.starts
  rw [first]
  exact (List.getElem?_eq_some_iff.mp here).1

theorem Chained.segments (chained : s.Chained [] content records) :
    ∃ segments, (content ≠ [] → Segments content s.firstPage segments) ∧ (content = [] → segments = []) ∧
      segments.flatMap Prod.snd = records := by
  rcases Bool.eq_false_or_eq_true s.hasPages with has | has
  · obtain ⟨first,segments,chain,flat⟩ := chained.chain has
    have inside := chained.first has
    refine ⟨segments,fun _ => first ▸ chain,fun empty => ?_,flat⟩
    rw [empty] at inside
    cases inside
  · obtain ⟨-,rfl,rfl⟩ := chained.empty has
    exact ⟨[],fun some => absurd rfl some,fun _ => rfl,rfl⟩

theorem Chained.holdsRecords (chained : s.Chained [] content records) : HoldsRecords content records := by
  obtain ⟨segments,chain,none,flat⟩ := chained.segments
  refine ⟨fun empty => by rw [← flat,none empty]; rfl,fun some => ⟨segments,?_,flat⟩⟩
  have start : s.firstPage = 0 := by
    rcases Bool.eq_false_or_eq_true s.hasPages with has | has
    · exact (chained.chain has).1
    · exact (chained.empty has).1
  exact start ▸ chain some

theorem InStep.holds (inStep : s.InStep records) : s.Holds s.contents := by
  obtain ⟨content,chained⟩ := inStep.chained
  exact ⟨⟨content,chained.shows,chained.pages,inStep.valid,inStep.fits,chained.first⟩,rfl⟩

theorem Chained.inStep {c : Contents} (chained : s.Chained [] content records) (holds : s.Holds c)
    (entries : records.foldl Record.applyTo [] = c.entries) : s.InStep records := by
  obtain ⟨_,ok⟩ := holds.ok
  exact ⟨⟨content,chained⟩,ok.valid,ok.fits,entries.trans holds.entries.symm⟩

theorem InStep.rest (inStep : s.InStep records) (wal : Bytes) (indexFile : Option (List BTree.Entry)) (n : Nat) :
    InStep {s with wal := wal,indexFile := indexFile,activeSnapshots := n} records := by
  obtain ⟨content,chained⟩ := inStep.chained
  exact ⟨⟨content,chained.congr rfl rfl rfl⟩,inStep.valid,inStep.fits,inStep.entries⟩

theorem foldl_record (ops : List BatchOp) (c : Contents) :
    (ops.map BatchOp.record).foldl Record.applyTo c.entries = (ops.foldl Contents.apply c).entries := by
  induction ops generalizing c with
  | nil => rfl
  | cons op ops ih => rw [List.map_cons,List.foldl_cons,op.applyTo_record,ih,List.foldl_cons]

theorem lookup_foldl_applyTo (records : List Record) (start : List BTree.Entry) (key : Bytes) :
    (records.foldl Record.applyTo start).lookup key =
      if key ∈ records.map Record.key then (records.foldl Record.applyTo []).lookup key else start.lookup key := by
  induction records using List.reverseRecOn with
  | nil => rfl
  | append_singleton records r ih =>
    have last (entries : List BTree.Entry) : (r.applyTo entries).lookup key =
        if key = r.key then (if r.flag = flagTombstone then none else some r.value) else entries.lookup key := by
      unfold Record.applyTo
      by_cases tombstone : r.flag = flagTombstone <;> simp [tombstone]
    simp only [List.foldl_append,List.foldl_cons,List.foldl_nil,last,ih,List.map_append,List.map_cons,List.map_nil,
      List.mem_append,List.mem_singleton]
    by_cases same : key = r.key <;> simp [same]

private theorem InStep.wrote (inStep : s.InStep records) {r : Record} {after : Contents} {live : Bool}
    {result : Except Error Unit × Store} (outcome : WriteOutcome s s.contents after r.key r.value live result)
    (meant : r.applyTo s.index.entries = after.entries)
    (chained : ∃ content, result.2.Chained [] content (if Fits r.key r.value then records ++ [r] else records)) :
    ∃ records', result.2.InStep records' := by
  obtain ⟨content,chained⟩ := chained
  cases outcome with
  | done fit holds =>
    rw [if_pos fit] at chained
    exact ⟨_,chained.inStep holds (by rw [List.foldl_append,inStep.entries]; exact meant)⟩
  | tooLarge large holds =>
    rw [if_neg large] at chained
    exact ⟨_,chained.inStep holds inStep.entries⟩
  | walTooLarge => exact ⟨records,inStep⟩

private theorem run_applyBatch (inStep : s.InStep records) (id : Nat) (ops : List BatchOp) :
    ∃ records', ((applyBatch id ops).exec s).2.InStep records' := by
  obtain ⟨content,chained⟩ := inStep.chained
  obtain ⟨content',chained'⟩ := chained.applyBatch id ops
  have outcome := applyBatch_outcome inStep.holds id ops
  generalize (applyBatch id ops).exec s = result at outcome chained' ⊢
  rcases outcome with ⟨short,outcome⟩ | ⟨⟨op,member,long⟩,s',rfl,holds⟩
  · rw [if_pos short] at chained'
    cases outcome with
    | done fits holds =>
      rw [applied_of_fits fits] at chained'
      refine ⟨_,chained'.inStep holds ?_⟩
      rw [List.foldl_append,inStep.entries]
      exact foldl_record ops s.contents
    | tooLarge before op after split fits large holds =>
      rw [split,applied_split fits large] at chained'
      refine ⟨_,chained'.inStep holds ?_⟩
      rw [List.foldl_append,inStep.entries]
      exact foldl_record before s.contents
  · rw [if_neg fun short => long (short op member)] at chained'
    exact ⟨_,chained'.inStep holds inStep.entries⟩

private theorem foldl_entries (start entries : List BTree.Entry) :
    (entries.map entryRecord).foldl Record.applyTo start =
      entries.foldl (fun all e => SortedEntries.put e.1 e.2 all) start := by
  rw [List.foldl_map]
  rfl

private theorem run_compact (inStep : s.InStep records) : ∃ records', (compact.exec s).2.InStep records' := by
  rcases Nat.eq_zero_or_pos s.activeSnapshots with idle | active
  · obtain ⟨content,done,pages,⟨none,some⟩,empty⟩ := compact_compacted inStep.fits idle
    rw [done]
    refine ⟨_,⟨content,Pager.open_shows content,pages,rfl,fun has => ⟨rfl,some ?_⟩,fun has => ?_⟩,inStep.valid,
      inStep.fits,?_⟩
    · intro nothing
      simp [compacted,empty.mp nothing] at has
    · have nothing : s.index.entries = [] := by simpa [compacted] using has
      exact ⟨rfl,empty.mpr nothing,none (empty.mpr nothing)⟩
    · rw [foldl_entries]
      exact foldl_put _ inStep.valid.increasing
  · rw [compact_active active]
    exact ⟨records,inStep⟩

theorem InStep.run (inStep : s.InStep records) (call : Call) : ∃ records', (call.run s).2.InStep records' := by
  cases call with
  | put key value =>
    obtain ⟨content,chained⟩ := inStep.chained
    exact inStep.wrote (r := ⟨flagLive,key,value⟩) (put_outcome inStep.holds key value) rfl (chained.put key value)
  | delete key =>
    obtain ⟨content,chained⟩ := inStep.chained
    exact inStep.wrote (r := ⟨flagTombstone,key,[]⟩) (delete_outcome inStep.holds key) rfl (chained.delete key)
  | applyBatch id ops => exact run_applyBatch inStep id ops
  | flush =>
    obtain ⟨content,chained⟩ := inStep.chained
    obtain ⟨done,shown,-⟩ := flush_flushed chained.shows
    change ∃ records', (Store.flush.exec s).2.InStep records'
    rw [done]
    exact ⟨records,⟨content,shown,chained.pages,chained.kept,chained.chain,chained.empty⟩,inStep.valid,inStep.fits,
      inStep.entries⟩
  | compact => exact run_compact inStep
  | beginSnapshot | releaseSnapshot => exact ⟨records,inStep.rest _ _ _⟩

theorem created_inStep : created.InStep [] :=
  ⟨⟨[],Pager.open_shows [],PagesOk.nil,rfl,nofun,fun _ => ⟨rfl,rfl,rfl⟩⟩,BTree.valid_nil 0,List.forall_mem_nil _,rfl⟩

theorem session_inStep (calls : List Call) : ∃ records, (after Call.run calls created).InStep records :=
  after_invariant (fun s => ∃ records, s.InStep records) (fun _ => True)
    (fun _ call ⟨_,inStep⟩ _ => inStep.run call) calls created ⟨[],created_inStep⟩ (fun _ _ => trivial)

/-- The pages met from a page on along `NextPageID`, up to the one that has `NoPage` there. -/
def walk : Nat → Nat → StoreM (List Page)
  | 0,_ => throw .diverges
  | fuel+1,id => do
    let page ← onPager (·.readPage id)
    match page.nextPageID with
    | none => pure [page]
    | some next =>
      let pages ← walk fuel next
      pure (page::pages)

/-- The chain that starts at a page; a file without pages has none. -/
def pageChain (first : Nat) : StoreM (List Page) := do
  let s ← MonadState.get
  if s.pager.numPages = 0 then pure [] else walk (s.pager.numPages + 1) first

structure Walked (pages : List Page) (segments : List (Nat × List Record)) : Prop where
  ids : pages.map Page.id = segments.map Prod.fst
  records : pages.map Page.records = segments.map fun segment => (segment.2,none)
  final : ∀ page ∈ pages.getLast?, page.nextPageID = none

theorem walk_exec {first : Nat} {segments : List (Nat × List Record)} (fuel : Nat)
    (chain : Segments content first segments) (shows : s.pager.Shows content) (enough : segments.length ≤ fuel) :
    ∃ pages s', (walk fuel first).exec s = (.ok pages,s') ∧ Walked pages segments := by
  induction chain generalizing s fuel with
  | @last id block records here final holds =>
    obtain ⟨fuel,rfl⟩ := Nat.exists_eq_succ_of_ne_zero (Nat.ne_of_gt enough)
    obtain ⟨read,-⟩ := readPage_exec shows here
    refine ⟨[⟨id,block⟩],{s with pager := s.pager.reads [id]},?_,rfl,?_,?_⟩
    · unfold walk
      rw [exec_bind_ok read]
      simp only [Page.nextPageID,final]
      rfl
    · rw [List.map_singleton,Page.records_of_holds holds]
      rfl
    · simpa [Page.nextPageID] using final
  | @link id next block records rest here linked later holds tail ih =>
    obtain ⟨fuel,rfl⟩ := Nat.exists_eq_succ_of_ne_zero (Nat.ne_of_gt (Nat.lt_of_lt_of_le (Nat.succ_pos _) enough))
    obtain ⟨read,shown⟩ := readPage_exec shows here
    obtain ⟨pages,s',walked,ids,all,final⟩ := ih fuel (s := {s with pager := s.pager.reads [id]}) shown
      (Nat.le_of_succ_le_succ enough)
    refine ⟨⟨id,block⟩::pages,s',?_,?_,?_,?_⟩
    · unfold walk
      rw [exec_bind_ok read]
      simp only [Page.nextPageID,linked]
      rw [exec_bind_ok walked]
      rfl
    · rw [List.map_cons,List.map_cons,ids]
    · rw [List.map_cons,List.map_cons,all,Page.records_of_holds holds]
    · -- The rest of the chain has a page, and that page is the last one of the whole.
      obtain ⟨_,_,_,-,rfl⟩ := tail.starts
      have some : pages ≠ [] := by
        rintro rfl
        simp at ids
      intro page member
      rw [List.getLast?_cons_of_ne_nil some] at member
      exact final page member

theorem Walked.flat {pages : List Page} {segments : List (Nat × List Record)} (walked : Walked pages segments) :
    pages.flatMap (·.records.1) = segments.flatMap Prod.snd ∧ ∀ page ∈ pages, page.records.2 = none := by
  constructor
  · have all := congrArg (List.flatMap Prod.fst) walked.records
    rwa [List.flatMap_map,List.flatMap_map] at all
  · intro page member
    have found : page.records ∈ pages.map Page.records := List.mem_map_of_mem member
    rw [walked.records] at found
    obtain ⟨segment,-,same⟩ := List.mem_map.mp found
    rw [← same]

theorem pageChain_exec {first : Nat} {segments : List (Nat × List Record)} (shows : s.pager.Shows content)
    (chain : content ≠ [] → Segments content first segments) (none : content = [] → segments = []) :
    ∃ pages s', (pageChain first).exec s = (.ok pages,s') ∧ Walked pages segments := by
  unfold pageChain
  rw [exec_bind_ok (exec_get s),shows.pages]
  by_cases empty : content = []
  · obtain rfl := none empty
    rw [if_pos (by rw [empty]; rfl)]
    exact ⟨[],s,rfl,rfl,rfl,nofun⟩
  · rw [if_neg (List.length_eq_zero_iff.not.mpr empty)]
    have short := (chain empty).length_le
    exact walk_exec (content.length + 1) (chain empty) shows (by omega)

def reindexed (s : Store) (r : Record) : Store :=
  {s with index := if r.flag = flagTombstone then (s.index.delete r.key).1 else s.index.put r.key r.value}.versioned
    r.key r.value r.flag

theorem reindexed_entries {s : Store} (valid : s.index.Valid) (records : List Record) :
    (records.foldl reindexed s).index.Valid ∧
      (records.foldl reindexed s).index.entries = records.foldl Record.applyTo s.index.entries := by
  induction records generalizing s with
  | nil => exact ⟨valid,rfl⟩
  | cons r records ih =>
    have next : (s.reindexed r).index.Valid ∧ (s.reindexed r).index.entries = r.applyTo s.index.entries := by
      change (ite _ _ _ : BTree.Tree).Valid ∧ (ite _ _ _ : BTree.Tree).entries = _
      unfold Record.applyTo
      split_ifs
      · obtain ⟨valid',entries,-⟩ := BTree.delete_valid valid r.key
        exact ⟨valid',entries⟩
      · exact BTree.put_valid valid r.key r.value
    rw [List.foldl_cons,List.foldl_cons,← next.2]
    exact ih next.1

theorem rebuildIndex_exec {segments : List (Nat × List Record)} (chain : Segments content s.firstPage segments)
    (shows : s.pager.Shows content) :
    rebuildIndex.exec s = (.ok (),{(segments.flatMap Prod.snd).foldl reindexed s with
      pager := s.pager.reads (segments.map Prod.fst)}) := by
  refine rebuild_exec (fun s r => ?_) (fun _ _ _ => rfl) chain shows
  unfold reindexed
  split_ifs <;> rfl

/-- In a session on a new path, the chain from the first page on has growing page numbers and ends, and its
records give the entries of the index. `rebuildIndex` would make the same index of them. -/
theorem log_agrees (calls : List Call) :
    let s := after Call.run calls created
    (∃ pages s', (pageChain s.firstPage).exec s = (.ok pages,s') ∧ (pages.map Page.id).Pairwise (· < ·) ∧
      (∀ page ∈ pages.getLast?, page.nextPageID = none) ∧ (∀ page ∈ pages, page.records.2 = none) ∧
      (pages.flatMap (·.records.1)).foldl Record.applyTo [] = s.index.entries) ∧
    (0 < s.pager.numPages → ∃ s', rebuildIndex.exec {s with index := {}} = (.ok (),s') ∧
      s'.index.entries = s.index.entries) := by
  intro s
  obtain ⟨records,inStep⟩ := session_inStep calls
  obtain ⟨content,chained⟩ := inStep.chained
  obtain ⟨segments,chain,none,rfl⟩ := chained.segments
  obtain ⟨pages,s',walked,shape⟩ := pageChain_exec chained.shows chain none
  obtain ⟨flat,sound⟩ := shape.flat
  refine ⟨⟨pages,s',walked,?_,shape.final,sound,?_⟩,fun some => ?_⟩
  · rw [shape.ids]
    by_cases empty : content = []
    · rw [none empty]
      exact .nil
    · exact (chain empty).sorted.1
  · rw [flat]
    exact inStep.entries
  · have filled : content ≠ [] := List.length_pos_iff.mp (chained.shows.pages ▸ some)
    exact ⟨_,rebuildIndex_exec (s := {s with index := {}}) (chain filled) chained.shows,
      (reindexed_entries (BTree.valid_nil 0) _).2.trans inStep.entries⟩

end Store
end GoDb
