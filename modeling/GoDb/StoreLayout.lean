import GoDb.Semantics.Layout
import GoDb.StoreInvariant
import GoDb.PagerWindow

/-! The chain of a store that started at some page and has grown by successful writes
only: its pages hold what the layout of these writes says. -/
namespace GoDb
open Foundation Outcome Layout

/-- The pages of a layout, with the numbers they have when the oldest is page `start`. -/
def chainOf (start : Nat) : List (List Record) → List (Nat × List Record)
  | [] => []
  | page::older => chainOf start older ++ [(start + older.length,page)]

theorem chainOf_ids (pages : List (List Record)) : (chainOf 0 pages).map Prod.fst = List.range pages.length := by
  induction pages with
  | nil => rfl
  | cons page older ih => simp [chainOf,ih,List.range_succ]

namespace Store

variable {s : Store} {content : List Block} {start : Nat} {pages : List (List Record)}

structure Laid (s : Store) (content : List Block) (start : Nat) (pages : List (List Record)) : Prop where
  shows : s.pager.Shows content
  sound : PagesOk content
  length : content.length = start + pages.length
  has : s.hasPages = !pages.isEmpty
  filled : ∀ page ∈ pages, page ≠ []
  first : s.firstPage = if pages = [] then 0 else start
  chain : pages ≠ [] → Segments content start (chainOf start pages)

structure Kept (p : Pager) (content : List Block) : Prop where
  cached : p.Cached content
  few : content.length ≤ 64 → p.file = []

def JustOpened (pages : List (List Record)) : Prop := ∃ r older, pages = [r]::older ∧ older.length = 64

structure Surviving (file content : List Block) (pages : List (List Record)) : Prop where
  opened : JustOpened pages → file = content.take 1
  sound : ¬JustOpened pages → PagesOk file

theorem Laid.fresh (shows : s.pager.Shows content) (sound : PagesOk content) (empty : s.hasPages = false)
    (first : s.firstPage = 0) : s.Laid content content.length [] :=
  ⟨shows,sound,rfl,empty,fun _ member => (nomatch member),first,fun absurd => (absurd rfl).elim⟩

theorem Laid.versioned (laid : s.Laid content start pages) (key value : Bytes) (flag : UInt8) :
    (s.versioned key value flag).Laid content start pages :=
  ⟨laid.shows,laid.sound,laid.length,laid.has,laid.filled,laid.first,laid.chain⟩

theorem Laid.files (laid : s.Laid content start pages) (index : BTree.Tree) (wal : Bytes)
    (indexFile : Option (List BTree.Entry)) :
    Laid {s with index := index,wal := wal,indexFile := indexFile} content start pages :=
  ⟨laid.shows,laid.sound,laid.length,laid.has,laid.filled,laid.first,laid.chain⟩

/-- The index after one operation was appended. -/
def appendedIndex (t : BTree.Tree) (pages : List (List Record)) (op : BatchOp) : BTree.Tree :=
  if op.delete = true ∧ ¬Opens pages op.record then t
  else if op.delete then (t.delete op.key).1 else t.put op.key op.value

structure Appended (s s' : Store) (pages : List (List Record)) (op : BatchOp) : Prop where
  wal : s'.wal = s.wal
  index : s'.index = appendedIndex s.index pages op
  file : s'.indexFile = some s'.index.entries

private theorem live_iff (op : BatchOp) : op.record.flag = flagLive ↔ op.delete = false := by
  rcases op with ⟨key,value,_ | _⟩ <;> simp [BatchOp.record,flagLive,flagTombstone]

private theorem index_room {op : BatchOp} (t : BTree.Tree) (pages : List (List Record)) (room : ¬Opens pages op.record) :
    (if op.record.flag = flagLive then t.put op.key op.value else t) = appendedIndex t pages op := by
  unfold appendedIndex
  cases kind : op.delete <;> simp [live_iff,kind,room]

private theorem index_full {op : BatchOp} (t : BTree.Tree) (pages : List (List Record)) (full : Opens pages op.record) :
    (if op.record.flag = flagLive then t.put op.key op.value else (t.delete op.key).1) =
      appendedIndex t pages op := by
  unfold appendedIndex
  cases kind : op.delete <;> simp [live_iff,kind,full]

theorem append_first {op : BatchOp} (laid : s.Laid content start []) (fit : Fits op.key op.value) :
    ∃ s' content', (append op.key op.value op.record.flag).exec s = (.ok (),s') ∧
      s'.Laid content' start [[op.record]] ∧ Appended s s' [] op ∧
      (start = 0 → Kept s.pager content → Kept s'.pager content' ∧ Surviving s'.pager.file content' [[op.record]]) := by
  have reached := lastPage_first (laid.versioned op.key op.value op.record.flag).shows laid.has
  obtain ⟨page,written,done,shown,chain⟩ := append_room reached
    (show (newPage content.length).data.free + _ ≤ _ from fit)
  obtain rfl : content.length = start := laid.length
  have number : page.id = content.length := written.id
  refine ⟨_,_,done,⟨shown,laid.sound.concat.written reached.here written,?_,rfl,?_,rfl,fun _ => chain⟩,
    ⟨rfl,index_room s.index [] id,rfl⟩,?_⟩
  · rw [List.length_set,List.length_append]
    rfl
  · intro page member
    rw [List.mem_singleton.mp member]
    exact List.cons_ne_nil _ _
  · -- Nothing is written back before the pool is full.
    intro begin kept
    obtain rfl : content = [] := List.length_eq_zero_iff.mp begin
    obtain ⟨cached,same⟩ := kept.cached.allocate.rewrite (show page.id + 1 = 1 by rw [number]; rfl)
    rw [number] at cached
    have empty : (s.pager.allocatePage.2.writePage page).2.file = [] := by
      rw [same,kept.cached.allocate_few (by decide),kept.few (by decide)]
    refine ⟨⟨cached,fun _ => empty⟩,?_,fun _ => ?_⟩
    · rintro ⟨r,older,shape,length⟩
      obtain ⟨-,rfl⟩ := List.cons.inj shape
      cases length
    · change PagesOk (s.pager.allocatePage.2.writePage page).2.file
      rw [empty]
      exact PagesOk.nil

variable {page : List Record} {older : List (List Record)} {op : BatchOp}

private theorem reached_newest (laid : s.Laid content s.firstPage (page::older)) (op : BatchOp) :
    ∃ block seq versions, Reached (s.versioned op.key op.value op.record.flag)
        {s with
          pager := s.pager.reads ((chainOf s.firstPage (page::older)).map Prod.fst)
          seq := seq
          versions := versions} content ⟨s.firstPage + older.length,block⟩ (chainOf s.firstPage older) page ∧
      block.free = HeaderSize + (encodeAll page).length := by
  obtain ⟨block,here,reached⟩ := lastPage_chain (laid.versioned op.key op.value op.record.flag).shows laid.has
    (show Segments content s.firstPage _ from laid.chain (List.cons_ne_nil _ _))
  obtain ⟨seq,versions,same⟩ := versioned_eq s op.key op.value op.record.flag
  rw [same] at reached ⊢
  exact ⟨block,seq,versions,reached,reached.holds.free⟩

private theorem walked_all (laid : s.Laid content s.firstPage (page::older)) (begin : s.firstPage = 0) :
    (chainOf s.firstPage (page::older)).map Prod.fst = List.range content.length := by
  rw [laid.length,begin,chainOf_ids,Nat.zero_add]

theorem append_more (laid : s.Laid content start (page::older)) (room : ¬Opens (page::older) op.record) :
    ∃ s' content', (append op.key op.value op.record.flag).exec s = (.ok (),s') ∧
      s'.Laid content' start ((page ++ [op.record])::older) ∧ Appended s s' (page::older) op ∧
      (start = 0 → Kept s.pager content → Kept s'.pager content' ∧
        Surviving s'.pager.file content' ((page ++ [op.record])::older)) := by
  obtain rfl : s.firstPage = start := laid.first
  obtain ⟨block,seq,versions,reached,free⟩ := reached_newest laid op
  obtain ⟨written,wrote,done,shown,chain⟩ := append_room reached (by
    rw [free]
    exact Nat.le_of_not_lt room)
  have number : written.id = s.firstPage + older.length := wrote.id
  have total : content.length = s.firstPage + older.length + 1 := laid.length
  refine ⟨_,_,done,⟨shown,laid.sound.written reached.here wrote,?_,laid.has,?_,laid.first,fun _ => chain⟩,
    ⟨rfl,index_room s.index _ room,rfl⟩,?_⟩
  · rw [List.length_set]
    exact laid.length
  · intro found member
    rcases List.mem_cons.mp member with rfl | member
    · exact List.append_ne_nil_of_right_ne_nil _ (List.cons_ne_nil _ _)
    · exact laid.filled found (List.mem_cons_of_mem _ member)
  · -- `lastPage` reads every page, which writes back all of them once there are more than the pool holds.
    intro begin kept
    obtain ⟨walked,few,many⟩ := kept.cached.walk
    rw [← walked_all laid begin] at walked few many
    obtain ⟨cached,same⟩ := walked.rewrite (number ▸ total.symm)
    rw [number] at cached
    refine ⟨⟨cached,fun bound => ?_⟩,?_,fun _ => ?_⟩
    · rw [List.length_set] at bound
      exact same.trans ((few bound).trans (kept.few bound))
    · rintro ⟨r,rest,shape,-⟩
      have alone := congrArg List.length (List.cons.inj shape).1
      have nonempty := List.length_pos_iff.mpr (laid.filled page List.mem_cons_self)
      rw [List.length_append,List.length_singleton,List.length_singleton] at alone
      omega
    · refine Eq.substr (p := PagesOk) same ?_
      by_cases bound : content.length ≤ 64
      · rw [few bound,kept.few bound]
        exact PagesOk.nil
      · rw [(many (Nat.lt_of_not_le bound)).1]
        exact laid.sound

theorem append_next (laid : s.Laid content start (page::older)) (full : Opens (page::older) op.record)
    (fit : Fits op.key op.value) :
    ∃ s' content', (append op.key op.value op.record.flag).exec s = (.ok (),s') ∧
      s'.Laid content' start ([op.record]::page::older) ∧ Appended s s' (page::older) op ∧
      (start = 0 → Kept s.pager content → Kept s'.pager content' ∧
        Surviving s'.pager.file content' ([op.record]::page::older)) := by
  obtain rfl : s.firstPage = start := laid.first
  obtain ⟨block,seq,versions,reached,free⟩ := reached_newest laid op
  obtain ⟨written,wrote,result⟩ := append_full reached (by
    rw [free]
    exact full) fit
  dsimp only at result
  generalize after : (Pager.writePage _ written).2 = p at result
  obtain ⟨done,shown,chain⟩ := result
  have number : written.id = content.length := wrote.id
  have total : content.length = s.firstPage + older.length + 1 := laid.length
  refine ⟨_,_,done,⟨shown,laid.sound.linked reached.here wrote,?_,laid.has,?_,laid.first,fun _ => ?_⟩,
    ⟨rfl,index_full s.index _ full,rfl⟩,?_⟩
  · rw [List.length_append,List.length_set,total]
    rfl
  · intro found member
    rcases List.mem_cons.mp member with rfl | member
    · exact List.cons_ne_nil _ _
    · exact laid.filled found member
  · rw [chainOf,chainOf,List.append_assoc,List.length_cons,← Nat.add_assoc,← total]
    exact chain
  · -- With 64 pages the new page evicts page 0 while no other page has been written back.
    intro begin kept
    obtain ⟨walked,few,many⟩ := kept.cached.walk
    rw [← walked_all laid begin] at walked few many
    have newest : (Page.setNextPageID ⟨s.firstPage + older.length,block⟩ content.length).id + 1 = content.length :=
      total.symm
    obtain ⟨bounded,ids,same⟩ := walked.extend newest number
    rw [after] at bounded ids same
    refine ⟨⟨⟨shown,bounded,?_⟩,fun bound => ?_⟩,?_,fun other => ?_⟩
    · rw [List.length_append,List.length_set]
      exact ids
    · rw [List.length_append,List.length_set,List.length_singleton] at bound
      refine same.trans ((walked.allocate_few bound).trans ?_)
      rw [few (by omega),kept.few (by omega)]
    · rintro ⟨r,rest,shape,length⟩
      obtain ⟨-,rfl⟩ := List.cons.inj shape
      rw [List.length_cons] at length
      have bound : content.length = 64 := by omega
      refine same.trans ((walked.allocate_first bound ?_).trans ?_)
      · rw [few (by omega),kept.few (by omega)]
      · rw [List.take_append_of_le_length (by rw [List.length_set]; omega),List.take_set_of_le (by omega)]
    · refine Eq.substr (p := PagesOk) same ?_
      by_cases bound : content.length < 64
      · rw [walked.allocate_few bound,few (by omega),kept.few (by omega)]
        exact PagesOk.nil
      · have more : 64 < content.length := by
          refine Nat.lt_of_le_of_ne (Nat.le_of_not_lt bound) fun equal => other ⟨_,_,rfl,?_⟩
          rw [List.length_cons]
          omega
        obtain ⟨whole,clean⟩ := many more
        rw [walked.allocate_clean clean,whole]
        exact laid.sound

theorem append_laid (laid : s.Laid content start pages) (fit : Fits op.key op.value) :
    ∃ s' content', (append op.key op.value op.record.flag).exec s = (.ok (),s') ∧
      s'.Laid content' start (place pages op.record) ∧ Appended s s' pages op ∧
      (start = 0 → Kept s.pager content → Kept s'.pager content' ∧
        Surviving s'.pager.file content' (place pages op.record)) := by
  rcases pages with _ | ⟨page,older⟩
  · exact append_first laid fit
  · by_cases full : Opens (page::older) op.record
    · rw [place,if_neg (Nat.not_le_of_lt full)]
      exact append_next laid full fit
    · rw [place,if_pos (Nat.le_of_not_lt full)]
      exact append_more laid full

end Store
end GoDb
