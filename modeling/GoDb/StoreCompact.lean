import GoDb.StoreMeaning

/-! `Compact` writes the live entries to new pages. The page it is filling is written
back only when it is full or the entries are exhausted, so until then the pager shows
an older state of it. -/
namespace GoDb
open Foundation Outcome

namespace Store

structure Filling (p : Pager) (page : Page) (content : List Block) (records : List Record) : Prop where
  shows : p.Shows content
  inside : page.id < content.length
  pages : PagesOk (content.set page.id page.data)
  chain : ∃ front own, Segments (content.set page.id page.data) 0 (front ++ [(page.id,own)]) ∧
    front.flatMap Prod.snd ++ own = records

def Pending (p : Pager) (records : List Record) : Option Page → Prop
  | none => p.Shows [] ∧ records = []
  | some page => ∃ content, Filling p page content records

def entryRecord (e : BTree.Entry) : Record := ⟨flagLive,e.1,e.2⟩

variable {p : Pager} {page : Page} {content : List Block} {records : List Record} {key value : Bytes}

@[simp] theorem exec_allocate (p : Pager) : Pager.allocate.exec p = p.allocatePage := rfl

@[simp] theorem exec_write (page : Page) (p : Pager) : (Pager.write page).exec p = p.writePage page := rfl

theorem Filling.here (filling : Filling p page content records) :
    (content.set page.id page.data)[page.id]? = some page.data := List.getElem?_set_self filling.inside

private theorem Filling.last (filling : Filling p page content records) :
    ∃ front own, Segments (content.set page.id page.data) 0 (front ++ [(page.id,own)]) ∧
      front.flatMap Prod.snd ++ own = records ∧ page.data.next = none ∧ page.data.Holds own := by
  obtain ⟨front,own,chain,flat⟩ := filling.chain
  obtain ⟨front',id,own',block,split,here,final,holds⟩ := chain.final
  obtain ⟨rfl,same⟩ := List.append_inj' split rfl
  cases same
  obtain rfl := Option.some.inj (here.symm.trans filling.here)
  exact ⟨front,own,chain,flat,final,holds⟩

private theorem Filling.room (filling : Filling p page content records)
    (room : page.data.free + (Record.mk flagLive key value).size ≤ PageSize) :
    ∃ page', writeRecord page key value flagLive = .ok page' ∧
      Filling p page' content (records ++ [⟨flagLive,key,value⟩]) := by
  obtain ⟨page',ok,written⟩ := writeRecord_room room
  obtain ⟨front,own,chain,rfl,final,holds⟩ := filling.last
  have pages := filling.pages.written filling.here written
  have linked := chain.write filling.here holds final written
  rw [List.set_set] at pages linked
  refine ⟨page',ok,filling.shows,?_,?_,front,own ++ [⟨flagLive,key,value⟩],?_,by simp⟩
  · rw [written.id]
    exact filling.inside
  · rw [written.id]
    exact pages
  · rw [written.id]
    exact linked

private theorem Filling.full (filling : Filling p page content records) (fit : Fits key value) :
    ∃ p' page', p.allocatePage.2.writePage (page.setNextPageID content.length) = (.ok (),p') ∧
      writeRecord (newPage content.length) key value flagLive = .ok page' ∧
      ∃ content', Filling p' page' content' (records ++ [⟨flagLive,key,value⟩]) := by
  obtain ⟨page',ok,written⟩ := writeRecord_room
    (show (newPage content.length).data.free + (Record.mk flagLive key value).size ≤ PageSize from fit)
  obtain ⟨front,own,chain,rfl,-,holds⟩ := filling.last
  have number : page'.id = content.length := written.id
  obtain ⟨p₁,made,shown₁⟩ := filling.shows.allocatePage
  obtain ⟨p₂,done,shown₂⟩ := shown₁.writePage (show (page.setNextPageID content.length).id < _ by
    have := filling.inside
    simp [Page.setNextPageID]
    omega)
  have length : (content.set page.id page.data).length = content.length := List.length_set
  have pages := filling.pages.linked filling.here (length.symm ▸ written)
  have linked := chain.grow filling.here holds (length.symm ▸ written)
  rw [length,List.set_set] at pages linked
  have result : (List.set (content ++ [(newPage content.length).data]) (page.setNextPageID content.length).id
      (page.setNextPageID content.length).data).set page'.id page'.data =
      content.set page.id (page.setNextPageID content.length).data ++ [page'.data] := by
    change (List.set _ page.id _).set _ _ = _
    rw [List.set_append_left _ _ filling.inside,number]
    simp
  rw [made]
  refine ⟨p₂,page',done,ok,_,shown₂,by simp [number],?_,front ++ [(page.id,own)],[⟨flagLive,key,value⟩],?_,by simp⟩
  · rw [result]
    exact pages
  · rw [result,number,List.append_assoc]
    exact linked

private theorem newPage_filling (shows : p.Shows []) : ∃ p', p.allocatePage = (.ok (newPage 0),p') ∧
    Filling p' (newPage 0) [(newPage 0).data] [] := by
  obtain ⟨p',made,shown⟩ := shows.allocatePage
  have chain : Segments [(newPage 0).data] 0 [(0,[])] := .last rfl rfl (newPage_holds 0)
  exact ⟨p',made,shown,Nat.one_pos,PagesOk.nil.concat,[],[],chain,rfl⟩

theorem compactEntry_exec {last : Option Page} {e : BTree.Entry} (pending : Pending p records last)
    (fit : Fits e.1 e.2) :
    ∃ page p', (compactEntry last e).exec p = (.ok page,p') ∧ Pending p' (records ++ [entryRecord e]) (some page) := by
  unfold compactEntry
  cases last with
  | none =>
    obtain ⟨shows,rfl⟩ := pending
    obtain ⟨p',made,filling⟩ := newPage_filling shows
    obtain ⟨page,ok,filled⟩ := filling.room fit
    refine ⟨page,p',?_,_,filled⟩
    simp only [exec_bind,exec_allocate,made,ok]
    rfl
  | some page =>
    obtain ⟨content,filling⟩ := pending
    simp only [exec_bind,exec_pure]
    by_cases room : page.data.free + (Record.mk flagLive e.1 e.2).size ≤ PageSize
    · obtain ⟨page',ok,filled⟩ := filling.room room
      refine ⟨page',p,?_,_,filled⟩
      rw [ok]
      rfl
    · obtain ⟨p',page',done,ok,content',filled⟩ := filling.full fit
      obtain ⟨p₁,made,-⟩ := filling.shows.allocatePage
      refine ⟨page',p',?_,content',filled⟩
      rw [made] at done
      rw [writeRecord_full (Nat.lt_of_not_le room)]
      simp only [exec_bind,exec_allocate,made,exec_write]
      rw [show (newPage content.length).id = content.length from rfl,done]
      simp only [ok]
      rfl

theorem compactEntries_exec {last : Option Page} {entries : List BTree.Entry} (pending : Pending p records last)
    (fits : ∀ e ∈ entries, Fits e.1 e.2) :
    ∃ last' p', (compactEntries last entries).exec p = (.ok last',p') ∧
      Pending p' (records ++ entries.map entryRecord) last' ∧ (last'.isSome = (last.isSome || !entries.isEmpty)) := by
  induction entries generalizing p last records with
  | nil => exact ⟨last,p,rfl,by simpa using pending,by simp⟩
  | cons e entries ih =>
    obtain ⟨fit,rest⟩ := List.forall_mem_cons.mp fits
    obtain ⟨page,p₁,done,next⟩ := compactEntry_exec pending fit
    obtain ⟨last',p₂,finished,final,some⟩ := ih next rest
    refine ⟨last',p₂,?_,by simpa using final,by simpa using some⟩
    unfold compactEntries
    rw [exec_bind_ok done,finished]

theorem compactFile_exec {entries : List BTree.Entry} (fits : ∀ e ∈ entries, Fits e.1 e.2) :
    ∃ p, (compactFile entries).exec (Pager.open []) = (.ok (),p) ∧ PagesOk p.file ∧
      HoldsRecords p.file (entries.map entryRecord) ∧ (p.file = [] ↔ entries = []) := by
  obtain ⟨last,p₁,done,pending,some⟩ := compactEntries_exec
    (show Pending (Pager.open []) [] none from ⟨Pager.open_shows [],rfl⟩) fits
  rw [List.nil_append] at pending
  unfold compactFile
  rw [exec_bind_ok done]
  -- The loop leaves its last page unwritten.
  cases last with
  | none =>
    obtain ⟨shows,none⟩ := pending
    obtain ⟨p₂,flushed,-,file⟩ := shows.flush
    refine ⟨p₂,flushed,file ▸ PagesOk.nil,⟨fun _ => none,fun some => absurd file some⟩,fun _ => ?_,fun _ => file⟩
    exact List.map_eq_nil_iff.mp none
  | some page =>
    obtain ⟨content,filling⟩ := pending
    obtain ⟨p₂,written,shown⟩ := filling.shows.writePage filling.inside
    obtain ⟨p₃,flushed,-,file⟩ := shown.flush
    obtain ⟨front,own,chain,flat⟩ := filling.chain
    have filled : p₃.file ≠ [] := by
      rw [file]
      exact List.ne_nil_of_length_pos (by rw [List.length_set]; exact Nat.zero_lt_of_lt filling.inside)
    refine ⟨p₃,?_,file ▸ filling.pages,⟨fun none => absurd none filled,fun _ => ⟨_,file ▸ chain,?_⟩⟩,
      fun none => absurd none filled,fun none => ?_⟩
    · simp only [exec_bind,exec_write,written]
      exact flushed
    · simpa using flat
    · simp [none] at some

def compacted (s : Store) (content : List Block) : Store :=
  {s with pager := Pager.open content,firstPage := 0,hasPages := !s.index.entries.isEmpty,wal := []}

theorem compact_compacted {s : Store} (fits : ∀ e ∈ s.index.entries, Fits e.1 e.2) (idle : s.activeSnapshots = 0) :
    ∃ content, compact.exec s = (.ok (),s.compacted content) ∧ PagesOk content ∧
      HoldsRecords content (s.index.entries.map entryRecord) ∧ (content = [] ↔ s.index.entries = []) := by
  obtain ⟨p,written,pages,holds,empty⟩ := compactFile_exec fits
  refine ⟨p.file,?_,pages,holds,empty⟩
  unfold compact
  rw [exec_bind_ok (exec_get s),if_neg (by omega)]
  simp only [written]
  rfl

theorem compact_exec {s : Store} {content : List Block} (ok : s.Ok content) (idle : s.activeSnapshots = 0) :
    ∃ s' content', compact.exec s = (.ok (),s') ∧ s'.Ok content' ∧ s'.contents = s.contents := by
  obtain ⟨content',done,pages,-,empty⟩ := compact_compacted ok.fits idle
  refine ⟨_,content',done,⟨Pager.open_shows content',pages,ok.valid,ok.fits,fun some => ?_⟩,rfl⟩
  refine List.length_pos_iff.mpr fun none => ?_
  simp [compacted,empty.mp none] at some

end Store
end GoDb
