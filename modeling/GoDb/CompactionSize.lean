import GoDb.FailedPut
import GoDb.Foundation.NextFit
import GoDb.PageChains
import GoDb.Recovery
import GoDb.StoreLog
import Mathlib.Data.List.Perm.Subperm

/-! How many pages `Compact` leaves. It packs the live entries anew, in the order of their
keys, and a page is closed for good once a record does not fit on it. -/
namespace GoDb
open Foundation Outcome Runs

theorem writeRecord_free {page page' : Page} {key value : Bytes} {flag : UInt8}
    (ok : writeRecord page key value flag = .ok page') :
    page.data.free + Store.recordSize key value ≤ PageSize ∧
      page'.data.free = page.data.free + Store.recordSize key value := by
  have fits : page.data.free + (Record.mk flag key value).size ≤ PageSize := by
    apply Nat.le_of_not_lt
    intro full
    rw [writeRecord_full full] at ok
    cases ok
  refine ⟨fits,?_⟩
  rw [writeRecord,if_neg (by unfold Page.remaining Page.freeOffset; omega)] at ok
  obtain rfl := Except.ok.inj ok
  exact Nat.mod_eq_of_lt (Nat.lt_of_le_of_lt fits (by decide))

theorem Pager.allocatePage_success {p p' : Pager} {page : Page} (done : p.allocatePage = (.ok page,p')) :
    page = newPage p.numPages ∧ p'.numPages = p.numPages + 1 := by
  unfold Pager.allocatePage at done
  rcases put : p.pool.put fileDisk p.file (newPage p.numPages) true with ⟨_ | _,pool,file⟩
  · simp only [put] at done
    cases done
  · simp only [put] at done
    cases done
    exact ⟨rfl,rfl⟩

theorem Pager.numPages_writePage (p : Pager) (page : Page) : (p.writePage page).2.numPages = p.numPages := by
  unfold Pager.writePage
  split_ifs <;> rfl

namespace Store

variable {s s' : Store} {p p' : Pager} {page : Page} {last : Option Page} {e : BTree.Entry} {entries : List BTree.Entry}

def pageRoom : Nat := PageSize - HeaderSize

theorem pageRoom_add : HeaderSize + pageRoom = PageSize := rfl

/-- How much of the page being filled is taken. Without a page there is no room either. -/
def taken : Option Page → Nat
  | none => pageRoom
  | some page => page.data.free - HeaderSize

@[simp] theorem taken_none : taken none = pageRoom := rfl

@[simp] theorem taken_some (page : Page) : taken (some page) = page.data.free - HeaderSize := rfl

def entrySizes (entries : List BTree.Entry) : List Nat := entries.map fun e => recordSize e.1 e.2

theorem recordSize_pos (key value : Bytes) : 0 < recordSize key value := by
  unfold recordSize recordHeaderSize
  omega

def compactOn (e : BTree.Entry) (page : Page) : PagerM Page :=
  match writeRecord page e.1 e.2 flagLive with
  | .ok page => pure page
  | .error _ => do
    let next ← Pager.allocate
    Pager.write (page.setNextPageID next.id)
    match writeRecord next e.1 e.2 flagLive with
    | .ok next => pure next
    | .error e => throw e

theorem compactEntry_none (e : BTree.Entry) : compactEntry none e = Pager.allocate >>= compactOn e := rfl

theorem compactEntry_some (page : Page) (e : BTree.Entry) : compactEntry (some page) e = compactOn e page := rfl

structure Placed (before : Nat × Nat) (p : Pager) (page : Page) (e : BTree.Entry) : Prop where
  begun : HeaderSize ≤ page.data.free
  fit : Fits e.1 e.2
  packed : (p.numPages,taken (some page)) = NextFit.place pageRoom before (recordSize e.1 e.2)

theorem compactOn_placed (begun : HeaderSize ≤ page.data.free) {page' : Page}
    (done : (compactOn e page).exec p = (.ok page',p')) : Placed (p.numPages,taken (some page)) p' page' e := by
  unfold compactOn at done
  cases written : writeRecord page e.1 e.2 flagLive with
  | ok filled =>
    rw [written] at done
    cases done
    obtain ⟨room,free⟩ := writeRecord_free written
    have whole := pageRoom_add
    have inside : page.data.free - HeaderSize + recordSize e.1 e.2 ≤ pageRoom := by omega
    have fit : HeaderSize + recordSize e.1 e.2 ≤ PageSize := by omega
    refine ⟨by omega,fit,?_⟩
    rw [NextFit.place,taken_some,taken_some,if_pos inside,free,Nat.sub_add_comm begun]
  | error =>
    rw [written] at done
    obtain ⟨next,p₁,made,done⟩ := bind_success done
    obtain ⟨rfl,more⟩ := Pager.allocatePage_success made
    obtain ⟨_,p₂,linked,done⟩ := bind_success done
    have pages := congrArg (fun result => result.2.numPages) linked
    rw [exec_write,Pager.numPages_writePage,more] at pages
    have closed : ¬page.data.free - HeaderSize + recordSize e.1 e.2 ≤ pageRoom := by
      intro room
      have whole := pageRoom_add
      have there : page.data.free + recordSize e.1 e.2 ≤ PageSize := by omega
      obtain ⟨_,ok,-⟩ := writeRecord_room (show page.data.free + (Record.mk flagLive e.1 e.2).size ≤ PageSize from there)
      rw [written] at ok
      cases ok
    cases again : writeRecord (newPage p.numPages) e.1 e.2 flagLive with
    | ok next =>
      rw [again] at done
      cases done
      obtain ⟨fit,free⟩ := writeRecord_free again
      change page'.data.free = HeaderSize + _ at free
      refine ⟨by omega,fit,?_⟩
      rw [NextFit.place,taken_some,taken_some,if_neg closed,← pages,free,Nat.add_sub_cancel_left]
    | error =>
      rw [again] at done
      cases done

theorem compactEntry_placed (begun : ∀ page ∈ last, HeaderSize ≤ page.data.free)
    (done : (compactEntry last e).exec p = (.ok page,p')) : Placed (p.numPages,taken last) p' page e := by
  cases last with
  | some page =>
    rw [compactEntry_some] at done
    exact compactOn_placed (begun page rfl) done
  | none =>
    rw [compactEntry_none] at done
    obtain ⟨first,p₁,made,done⟩ := bind_success done
    obtain ⟨rfl,more⟩ := Pager.allocatePage_success made
    have start : HeaderSize ≤ (newPage p.numPages).data.free := Nat.le_refl _
    obtain ⟨begun,fit,packed⟩ := compactOn_placed start done
    refine ⟨begun,fit,?_⟩
    have positive := recordSize_pos e.1 e.2
    have inside : 0 + recordSize e.1 e.2 ≤ pageRoom := by
      unfold Fits at fit
      have whole := pageRoom_add
      omega
    have empty : taken (some (newPage p.numPages)) = 0 := rfl
    have closed : ¬pageRoom + recordSize e.1 e.2 ≤ pageRoom := by omega
    rw [packed,empty,taken_none,NextFit.place,NextFit.place,if_pos inside,if_neg closed,more,Nat.zero_add]

theorem compactEntries_packed (begun : ∀ page ∈ last, HeaderSize ≤ page.data.free) {last' : Option Page}
    (done : (compactEntries last entries).exec p = (.ok last',p')) :
    (∀ e ∈ entries, Fits e.1 e.2) ∧
      (p'.numPages,taken last') = (entrySizes entries).foldl (NextFit.place pageRoom) (p.numPages,taken last) := by
  induction entries generalizing last p with
  | nil =>
    cases done
    exact ⟨List.forall_mem_nil _,rfl⟩
  | cons e entries ih =>
    obtain ⟨page,p₁,first,rest⟩ := bind_success done
    obtain ⟨started,fit,packed⟩ := compactEntry_placed begun first
    obtain ⟨fits,all⟩ := ih (by rintro _ ⟨⟩; exact started) rest
    refine ⟨List.forall_mem_cons.mpr ⟨fit,fits⟩,?_⟩
    rw [all,packed]
    rfl

theorem compactFile_packed (done : (compactFile entries).exec (Pager.open []) = (.ok (),p)) :
    p.file.length = NextFit.count pageRoom (entrySizes entries) := by
  unfold compactFile at done
  obtain ⟨last,p₁,filled,rest⟩ := bind_success done
  obtain ⟨fits,packed⟩ := compactEntries_packed (fun _ absent => by cases absent) filled
  obtain ⟨_,_,filled',pending,-⟩ := compactEntries_exec
    (show Pending (Pager.open []) [] none from ⟨Pager.open_shows [],rfl⟩) fits
  cases filled.symm.trans filled'
  have pages : p₁.numPages = NextFit.count pageRoom (entrySizes entries) := congrArg Prod.fst packed
  cases last with
  | none =>
    obtain ⟨p₂,flushed,-,file⟩ := pending.1.flush
    cases rest.symm.trans flushed
    rw [← pages,file,pending.1.pages]
  | some page =>
    obtain ⟨content,filling⟩ := pending
    obtain ⟨p₂,written,shown⟩ := filling.shows.writePage filling.inside
    obtain ⟨p₃,flushed,-,file⟩ := shown.flush
    rw [exec_bind_ok (show (Pager.write page).exec p₁ = _ from written)] at rest
    cases rest.symm.trans flushed
    rw [← pages,file,List.length_set,filling.shows.pages]

theorem compact_packed (done : compact.exec s = (.ok (),s')) :
    s'.pager.numPages = NextFit.count pageRoom (entrySizes s.index.entries) := by
  rcases Nat.eq_zero_or_pos s.activeSnapshots with idle | active
  · unfold compact at done
    rw [exec_bind_ok (exec_get s),if_neg (by omega)] at done
    rcases written : (compactFile s.index.entries).exec (Pager.open []) with ⟨_ | _,p⟩
    · simp only [written] at done
      cases done
    · simp only [written] at done
      cases done
      exact compactFile_packed written
  · rw [compact_active active] at done
    cases done

/-- The file has not grown just when next-fit, in the order of the keys, needs no more pages than there were. -/
theorem compaction_shrinks_iff (done : compact.exec s = (.ok (),s')) :
    s'.pager.numPages ≤ s.pager.numPages ↔
      NextFit.count pageRoom (entrySizes s.index.entries) ≤ s.pager.numPages := by
  rw [compact_packed done]

section session

variable {content : List Block} {records : List Record}

theorem segments_fit {first : Nat} {segments : List (Nat × List Record)} (chain : Segments content first segments) :
    ∀ segment ∈ segments, (segment.2.map Record.size).sum ≤ pageRoom := by
  have bound {block : Block} {records : List Record} (holds : block.Holds records) :
      (records.map Record.size).sum ≤ pageRoom := by
    rw [← length_encodeAll]
    exact holds.length_le
  induction chain with
  | last _ _ holds => exact List.forall_mem_singleton.mpr (bound holds)
  | link _ _ _ holds _ ih => exact List.forall_mem_cons.mpr ⟨bound holds,ih⟩

theorem Chained.packed (chained : s.Chained [] content records) : ∃ packed : List (List Nat),
    packed.length ≤ s.pager.numPages ∧ packed.flatten = records.map Record.size ∧
      ∀ bin ∈ packed, bin.sum ≤ pageRoom := by
  obtain ⟨segments,chain,none,rfl⟩ := chained.segments
  refine ⟨segments.map fun segment => segment.2.map Record.size,?_,?_,?_⟩
  · rw [List.length_map,chained.shows.pages]
    by_cases empty : content = []
    · rw [none empty]
      exact Nat.zero_le _
    · exact Nat.le_of_add_left_le (chain empty).length_le
  · rw [List.map_flatMap,List.flatMap_def]
  · intro bin member
    obtain ⟨segment,there,rfl⟩ := List.mem_map.mp member
    have some : content ≠ [] := by
      intro empty
      rw [none empty] at there
      cases there
    exact segments_fit (chain some) segment there

/-- If the live records lie on the pages in the order of their keys, compaction does not add pages. -/
theorem compaction_in_order (inStep : s.InStep records) (ordered : (s.index.entries.map entryRecord).Sublist records)
    (done : compact.exec s = (.ok (),s')) : s'.pager.numPages ≤ s.pager.numPages := by
  obtain ⟨content,chained⟩ := inStep.chained
  obtain ⟨packed,length,flat,fit⟩ := chained.packed
  have part : (entrySizes s.index.entries).Sublist packed.flatten := by
    have sizes := ordered.map Record.size
    rw [List.map_map] at sizes
    rw [flat]
    exact sizes
  rw [compact_packed done]
  exact (NextFit.count_le part fit).trans length

theorem mem_foldl_applyTo {entries : List BTree.Entry} {e : BTree.Entry}
    (member : e ∈ records.foldl Record.applyTo entries) : e ∈ entries ∨ e ∈ records.map fun r => (r.key,r.value) := by
  induction records generalizing entries with
  | nil => exact .inl member
  | cons r records ih =>
    rw [List.map_cons,List.mem_cons]
    rcases ih member with old | new
    · unfold Record.applyTo at old
      split_ifs at old
      · exact .inl (List.mem_of_mem_filter old)
      · rcases SortedEntries.mem_put old with same | old
        · exact .inr (.inl same)
        · exact .inl old
    · exact .inr (.inr new)

theorem InStep.compacted (inStep : s.InStep records) (done : compact.exec s = (.ok (),s')) :
    s'.pager.numPages ≤ 2 * s.pager.numPages := by
  obtain ⟨content,chained⟩ := inStep.chained
  obtain ⟨packed,length,flat,fit⟩ := chained.packed
  rw [compact_packed done]
  apply NextFit.count_le_double (by decide)
  · intro size member
    obtain ⟨e,-,rfl⟩ := List.mem_map.mp member
    exact recordSize_pos e.1 e.2
  · have known : s.index.entries ⊆ records.map fun r => (r.key,r.value) := by
      intro e member
      rw [← inStep.entries] at member
      exact (mem_foldl_applyTo member).resolve_left List.not_mem_nil
    obtain ⟨part,same,sub⟩ := List.subperm_of_subset inStep.valid.increasing.nodup known
    calc (entrySizes s.index.entries).sum
        = (entrySizes part).sum := ((same.map _).sum_eq).symm
      _ ≤ (entrySizes (records.map fun r => (r.key,r.value))).sum := (sub.map _).sum_le_sum fun _ _ => Nat.zero_le _
      _ = packed.flatten.sum := by rw [flat,entrySizes,List.map_map]; rfl
      _ ≤ packed.length * pageRoom := NextFit.sum_flatten_le fit
      _ ≤ s.pager.numPages * pageRoom := Nat.mul_le_mul_right _ length

/-- Whatever a session has done, compaction at most doubles the pages. -/
theorem compaction_at_most_doubles (calls : List Call) (done : compact.exec (after Call.run calls created) = (.ok (),s')) :
    s'.pager.numPages ≤ 2 * (after Call.run calls created).pager.numPages := by
  obtain ⟨records,inStep⟩ := session_inStep calls
  exact inStep.compacted done

end session

section sample

open Layout

def opSizes (ops : List BatchOp) : List Nat := ops.map fun op => recordSize op.key op.value

def packedPages : List (List Record) → Nat × Nat
  | [] => (0,pageRoom)
  | page::older => (older.length + 1,(encodeAll page).length)

theorem packedPages_place (pages : List (List Record)) (op : BatchOp) :
    packedPages (place pages op.record) = NextFit.place pageRoom (packedPages pages) (recordSize op.key op.value) := by
  have alone : (encodeAll [op.record]).length = recordSize op.key op.value := by
    rw [length_encodeAll,List.map_singleton,List.sum_singleton]
    rfl
  cases pages with
  | nil =>
    have positive := recordSize_pos op.key op.value
    rw [packedPages,NextFit.place,if_neg (by dsimp only; omega),← alone]
    rfl
  | cons page older =>
    have whole := pageRoom_add
    have size : op.record.size = recordSize op.key op.value := rfl
    rw [place,packedPages,NextFit.place,size]
    by_cases room : HeaderSize + (encodeAll page).length + recordSize op.key op.value ≤ PageSize
    · rw [if_pos room,if_pos (by dsimp only; omega),packedPages,encodeAll_concat,List.length_append,
        Record.length_encode,size]
    · rw [if_neg room,if_neg (by dsimp only; omega),packedPages,alone,List.length_cons]

theorem layout_packed (ops : List BatchOp) : (layout ops).length = NextFit.count pageRoom (opSizes ops) := by
  have all : ∀ pages, packedPages (layoutFrom pages ops) =
      (opSizes ops).foldl (NextFit.place pageRoom) (packedPages pages) := by
    induction ops with
    | nil => exact fun _ => rfl
    | cons op ops ih =>
      intro pages
      rw [opSizes,List.map_cons,List.foldl_cons,← packedPages_place]
      exact ih (place pages op.record)
  have pages (pages : List (List Record)) : (packedPages pages).1 = pages.length := by cases pages <;> rfl
  rw [← pages]
  exact congrArg Prod.fst (all [])

theorem batch_compacted {ops : List BatchOp} (fits : ∀ op ∈ ops, Fits op.key op.value) (id : Nat) :
    ∃ s s', (applyBatch id ops).exec created = (.ok (),s) ∧ compact.exec s = (.ok (),s') ∧
      s.pager.numPages = NextFit.count pageRoom (opSizes ops) ∧
      s.index.entries = (ops.foldl Contents.apply created.contents).entries := by
  have done : ((applyBatch id ops).exec created).1 = .ok () := by
    rcases applyBatch_outcome created_ok.holds id ops with ⟨-,outcome⟩ | ⟨⟨op,member,long⟩,-⟩
    · generalize (applyBatch id ops).exec created = result at outcome
      cases outcome with
      | done => rfl
      | tooLarge before op after split _ large => exact absurd (fits op (by simp [split])) large
    · exact absurd (fits op member).shortOp long
  obtain ⟨-,holds⟩ := applyBatch_of_ok created_ok.holds done
  obtain ⟨-,⟨content,laid,-⟩,-⟩ := (Op.applyBatch id ops).run_running created_logged.running created_ok.holds rfl done
  obtain ⟨_,ok⟩ := holds.ok
  have idle := congrArg Contents.activeSnapshots holds.contents
  rw [Contents.activeSnapshots_foldl_apply] at idle
  obtain ⟨s',_,compacted,-⟩ := compact_exec ok idle
  refine ⟨_,s',Prod.ext done rfl,compacted,?_,holds.entries⟩
  rw [← layout_packed]
  exact laid.shows.pages.trans (laid.length.trans (Nat.zero_add _))

end sample

end Store

namespace Sample

def big : Bytes := List.replicate 2994 0
def small : Bytes := List.replicate 994 0

def rewritten : List BatchOp := [⟨ascii "a",big,false⟩,⟨ascii "a",big,false⟩]

def alternating : List BatchOp :=
  [⟨ascii "c",small,false⟩,⟨ascii "a",big,false⟩,⟨ascii "d",small,false⟩,⟨ascii "b",big,false⟩]

end Sample

namespace Store

theorem compaction_shrinks_rewritten : ∃ s s', (applyBatch 1 Sample.rewritten).exec created = (.ok (),s) ∧
    compact.exec s = (.ok (),s') ∧ s'.pager.numPages ≤ s.pager.numPages := by
  have fits : ∀ op ∈ Sample.rewritten, Fits op.key op.value := by decide +kernel
  obtain ⟨s,s',done,compacted,pages,entries⟩ := batch_compacted fits 1
  refine ⟨s,s',done,compacted,(compaction_shrinks_iff compacted).mpr ?_⟩
  rw [entries,pages]
  decide +kernel

/-- By key, the two large records come first and take a page each, and only one small record fits behind them. -/
theorem compaction_grows : ∃ s s', s.Reachable ∧ (applyBatch 1 Sample.alternating).exec created = (.ok (),s) ∧
    compact.exec s = (.ok (),s') ∧ s.pager.numPages = 2 ∧ s'.pager.numPages = 3 := by
  have fits : ∀ op ∈ Sample.alternating, Fits op.key op.value := by decide +kernel
  obtain ⟨s,s',done,compacted,pages,entries⟩ := batch_compacted fits 1
  have reachable : s.Reachable := by
    refine ⟨_,created,congrArg Prod.fst open_empty,[.applyBatch 1 Sample.alternating],?_⟩
    rw [after_cons,after_nil]
    exact congrArg Prod.snd done.symm
  refine ⟨s,s',reachable,done,compacted,?_,?_⟩
  · rw [pages]
    decide +kernel
  · rw [compact_packed compacted,entries]
    decide +kernel

theorem compaction_at_most_doubles_alternating : ∃ s s', (applyBatch 1 Sample.alternating).exec created = (.ok (),s) ∧
    compact.exec s = (.ok (),s') ∧ s'.pager.numPages ≤ 2 * s.pager.numPages := by
  have fits : ∀ op ∈ Sample.alternating, Fits op.key op.value := by decide +kernel
  obtain ⟨s,s',done,compacted,-,-⟩ := batch_compacted fits 1
  have reached : after Call.run [.applyBatch 1 Sample.alternating] created = s := by
    rw [after_cons,after_nil]
    exact congrArg Prod.snd done
  subst reached
  exact ⟨_,s',done,compacted,compaction_at_most_doubles [.applyBatch 1 Sample.alternating] compacted⟩

end Store
end GoDb
