import GoDb.Pager
import GoDb.Foundation.Keyed

/-! What a pager shows: one block for each page number, whether it is cached or on
file. Reading does not change it, writing changes one block, and after a flush the
file is exactly what is shown. -/
namespace GoDb
open Foundation

private theorem length_writePageDisk (file : List Block) (page : Page) :
    (writePageDisk file page).length = max file.length (page.id + 1) := by
  unfold writePageDisk
  split <;> simp <;> omega

private theorem writePageDisk_self (file : List Block) (page : Page) :
    (writePageDisk file page)[page.id]? = some page.data := by
  unfold writePageDisk
  split
  · rename_i inside
    rw [List.getElem?_set_self inside]
  · rename_i outside
    have position : page.id = (file ++ List.replicate (page.id - file.length) Block.zero).length := by
      simp
      omega
    conv_lhs => rw [position]
    simp

variable {id : Nat} {e : PoolEntry}

private theorem writePageDisk_inside {file : List Block} {page : Page} (other : page.id ≠ id)
    (inside : id < file.length) : (writePageDisk file page)[id]? = file[id]? := by
  unfold writePageDisk
  split
  · rw [List.getElem?_set_ne other]
  · rw [List.append_assoc,List.getElem?_append_left inside]

private def PoolEntry.number (e : PoolEntry) : Nat := e.page.id

structure Pager.Shows (p : Pager) (content : List Block) : Prop where
  pages : p.numPages = content.length
  distinct : p.pool.ids.Nodup
  known : ∀ e ∈ p.pool.entries, content[e.page.id]? = some e.page.data
  clean : ∀ e ∈ p.pool.entries, e.dirty = false → p.file[e.page.id]? = some e.page.data
  stored : ∀ id, id ∉ p.pool.ids → p.file[id]? = content[id]?
  short : p.file.length ≤ content.length

namespace Pager.Shows

variable {p : Pager} {content : List Block}

theorem item_some (shows : p.Shows content) : p.pool.item id = some e ↔ e ∈ p.pool.entries ∧ e.page.id = id :=
  Keyed.find_eq_some PoolEntry.number shows.distinct

theorem inside (shows : p.Shows content) (member : e ∈ p.pool.entries) : e.page.id < content.length :=
  (List.getElem?_eq_some_iff.mp (shows.known e member)).1

private theorem written (shows : p.Shows content) (member : e ∈ p.pool.entries) :
    (∀ id, id ∉ p.pool.ids → (writePageDisk p.file e.page)[id]? = content[id]?) ∧
      (writePageDisk p.file e.page).length ≤ content.length := by
  have bound := shows.inside member
  have short : (writePageDisk p.file e.page).length ≤ content.length := by
    rw [length_writePageDisk]
    exact max_le shows.short bound
  refine ⟨fun id absent => ?_,short⟩
  have other : e.page.id ≠ id := fun same => absent (same ▸ List.mem_map_of_mem member)
  by_cases inFile : id < p.file.length
  · rw [writePageDisk_inside other inFile,shows.stored id absent]
  · have outside : content.length ≤ id := by
      rw [← List.getElem?_eq_none_iff,← shows.stored id absent,List.getElem?_eq_none_iff]
      omega
    rw [List.getElem?_eq_none outside,List.getElem?_eq_none (Nat.le_trans short outside)]

private theorem clean_written (shows : p.Shows content) {other : PoolEntry} (member : other ∈ p.pool.entries)
    (clean : other.dirty = false) :
    (writePageDisk p.file e.page)[other.page.id]? = some other.page.data ∨ e.page.id = other.page.id := by
  by_cases same : e.page.id = other.page.id
  · exact .inr same
  · have onFile := shows.clean other member clean
    rw [writePageDisk_inside same (List.getElem?_eq_some_iff.mp onFile).1]
    exact .inl onFile

theorem makeRoom (shows : p.Shows content) :
    ∃ pool file, p.pool.makeRoomLocked fileDisk p.file = (.ok (),pool,file) ∧
      Shows ⟨p.numPages,pool,file⟩ content ∧ ∀ id ∈ pool.ids, id ∈ p.pool.ids := by
  unfold BufferPool.makeRoomLocked
  by_cases room : p.pool.entries.length < p.pool.capacity
  · rw [if_pos room]
    exact ⟨_,_,rfl,shows,fun _ member => member⟩
  rw [if_neg room]
  rcases last : p.pool.entries.getLast? with _ | e
  · exact ⟨_,_,rfl,shows,fun _ member => member⟩
  obtain ⟨init,split⟩ : ∃ init, p.pool.entries = init ++ [e] := List.getLast?_eq_some_iff.mp last
  have member : e ∈ p.pool.entries := by simp [split]
  have ids : p.pool.ids = init.map (·.page.id) ++ [e.page.id] := by simp [BufferPool.ids,split]
  have distinct := shows.distinct
  rw [ids,List.nodup_append] at distinct
  have others : ∀ other ∈ init, e.page.id ≠ other.page.id := fun other there same =>
    distinct.2.2 _ (List.mem_map_of_mem there) _ (List.mem_singleton_self _) same.symm
  have dropped : p.pool.entries.dropLast = init := by rw [split,List.dropLast_concat]
  have smaller : ∀ id ∈ init.map (·.page.id), id ∈ p.pool.ids := fun id there => by
    rw [ids]
    exact List.mem_append_left _ there
  have before : ∀ other ∈ init, other ∈ p.pool.entries := fun other there => by
    rw [split]
    exact List.mem_append_left _ there
  simp only [dropped]
  -- A page that is uncached now is the evicted one or was uncached before.
  have uncached : ∀ id, id ∉ init.map (·.page.id) → id = e.page.id ∨ id ∉ p.pool.ids := by
    intro id absent
    by_cases same : id = e.page.id
    · exact .inl same
    · refine .inr ?_
      rw [ids]
      simp only [List.mem_append,List.mem_singleton,not_or]
      exact ⟨absent,same⟩
  -- A dirty page is written before it goes; a clean one is on the file already.
  cases dirty : e.dirty with
  | true =>
    refine ⟨_,_,rfl,⟨shows.pages,distinct.1,fun other there => shows.known other (before other there),?_,?_,
      (shows.written member).2⟩,smaller⟩
    · intro other there clean
      rcases shows.clean_written (before other there) clean with same | same
      · exact same
      · exact absurd same (others other there)
    · intro id absent
      rcases uncached id absent with rfl | absent
      · rw [writePageDisk_self]
        exact (shows.known e member).symm
      · exact (shows.written member).1 id absent
  | false =>
    refine ⟨_,_,rfl,⟨shows.pages,distinct.1,fun other there => shows.known other (before other there),
      fun other there => shows.clean other (before other there),?_,shows.short⟩,smaller⟩
    intro id absent
    rcases uncached id absent with rfl | absent
    · rw [shows.clean e member dirty]
      exact (shows.known e member).symm
    · exact shows.stored id absent

theorem front (shows : p.Shows content) {content' : List Block} (here : content'[e.page.id]? = some e.page.data)
    (elsewhere : ∀ id, id ≠ e.page.id → content'[id]? = content[id]?) (longer : content.length ≤ content'.length)
    (onFile : e.dirty = false → p.file[e.page.id]? = some e.page.data) :
    Shows ⟨content'.length,p.pool.front e,p.file⟩ content' := by
  refine ⟨rfl,Keyed.nodup_front PoolEntry.number shows.distinct e,?_,?_,?_,
    Nat.le_trans shows.short longer⟩
  · intro other member
    rcases (Keyed.mem_front PoolEntry.number).mp member with rfl | ⟨member,different⟩
    · exact here
    · exact (elsewhere _ different).trans (shows.known _ member)
  · intro other member clean
    rcases (Keyed.mem_front PoolEntry.number).mp member with rfl | ⟨member,-⟩
    · exact onFile clean
    · exact shows.clean _ member clean
  · intro id absent
    obtain ⟨different,absent⟩ := not_or.mp (mt (Keyed.mem_keys_front PoolEntry.number).mpr absent)
    exact (shows.stored id absent).trans (elsewhere id different).symm

theorem readPage (shows : p.Shows content) {block : Block} (there : content[id]? = some block) :
    ∃ p', p.readPage id = (.ok ⟨id,block⟩,p') ∧ p'.Shows content := by
  have bound : id < content.length := (List.getElem?_eq_some_iff.mp there).1
  unfold Pager.readPage BufferPool.get BufferPool.lookup
  rw [if_neg (by rw [shows.pages]; omega)]
  rcases found : p.pool.item id with _ | e
  · have absent : id ∉ p.pool.ids := (Keyed.find_eq_none PoolEntry.number).mp found
    have onFile : p.file[id]? = some block := (shows.stored id absent).trans there
    have same : fileDisk.readDisk p.file id = .ok block := by
      change GoDb.readPageDisk p.file id = _
      rw [readPageDisk,onFile]
    have counted : Shows ⟨p.numPages,{p.pool with misses := p.pool.misses+1},p.file⟩ content :=
      ⟨shows.pages,shows.distinct,shows.known,shows.clean,shows.stored,shows.short⟩
    obtain ⟨pool,file,made,shown,fewer⟩ := counted.makeRoom
    have still : BufferPool.item {p.pool with misses := p.pool.misses+1} id = none := found
    have kept := shown.front (e := ⟨⟨id,block⟩,false⟩) there (fun _ _ => rfl) (Nat.le_refl _)
      (fun _ => (shown.stored id (fun member => absent (fewer id member))).trans there)
    simp only [same,BufferPool.keep,still,made]
    rw [shows.pages]
    exact ⟨_,rfl,kept⟩
  · obtain ⟨member,rfl⟩ := shows.item_some.mp found
    have data : e.page.data = block := Option.some.inj ((shows.known e member).symm.trans there)
    have kept := shows.front (shows.known e member) (fun _ _ => rfl) (Nat.le_refl _) (shows.clean e member)
    simp only
    rw [← data,shows.pages]
    exact ⟨_,rfl,kept.pages,kept.distinct,kept.known,kept.clean,kept.stored,kept.short⟩

private theorem put (shows : p.Shows content) (content' : List Block) (page : Page)
    (here : content'[page.id]? = some page.data)
    (elsewhere : ∀ id, id ≠ page.id → content'[id]? = content[id]?)
    (longer : content.length ≤ content'.length) :
    ∃ pool file, p.pool.put fileDisk p.file page true = (.ok (),pool,file) ∧
      Shows ⟨content'.length,pool,file⟩ content' := by
  unfold BufferPool.put
  rcases found : p.pool.item page.id with _ | e
  · obtain ⟨pool,file,made,shown,-⟩ := shows.makeRoom
    have kept := shown.front (e := ⟨page,true⟩) here elsewhere longer (fun clean => by cases clean)
    simp only [made]
    exact ⟨_,_,rfl,kept⟩
  · have kept := shows.front (e := ⟨page,e.dirty || true⟩) here elsewhere longer
      (fun clean => by simp at clean)
    exact ⟨_,_,rfl,kept⟩

theorem writePage (shows : p.Shows content) {page : Page} (inside : page.id < content.length) :
    ∃ p', p.writePage page = (.ok (),p') ∧ p'.Shows (content.set page.id page.data) := by
  obtain ⟨pool,file,made,shown⟩ := shows.put (content.set page.id page.data) page
    (List.getElem?_set_self inside) (fun id other => List.getElem?_set_ne other.symm) (by simp)
  unfold Pager.writePage
  rw [if_neg (by rw [shows.pages]; omega),made]
  refine ⟨_,rfl,?_⟩
  rw [List.length_set,← shows.pages] at shown
  exact shown

theorem allocatePage (shows : p.Shows content) :
    ∃ p', p.allocatePage = (.ok (newPage content.length),p') ∧
      p'.Shows (content ++ [(newPage content.length).data]) := by
  obtain ⟨pool,file,made,shown⟩ := shows.put (content ++ [(newPage content.length).data]) (newPage content.length)
    (by simp [newPage])
    (fun id other => by
      by_cases inside : id < content.length
      · rw [List.getElem?_append_left inside]
      · have after : content.length < id := Nat.lt_of_le_of_ne (Nat.not_lt.mp inside) (Ne.symm other)
        rw [List.getElem?_eq_none (by simp; omega),List.getElem?_eq_none (by omega)])
    (by simp)
  unfold Pager.allocatePage
  simp only [shows.pages,made]
  refine ⟨_,rfl,?_⟩
  rw [List.length_append,List.length_singleton] at shown
  exact shown

private theorem ids_clean (b : BufferPool) (id : Nat) : (b.clean id).ids = b.ids := by
  simp only [BufferPool.ids,BufferPool.clean,List.map_map]
  apply List.map_congr_left
  intro e _
  simp only [Function.comp]
  split <;> rfl

private theorem mem_clean {b : BufferPool} (member : e ∈ (b.clean id).entries) :
    ∃ old ∈ b.entries, e.page = old.page ∧ (e.dirty = false → old.dirty = false ∨ old.page.id = id) := by
  obtain ⟨old,there,rfl⟩ := List.mem_map.mp member
  refine ⟨old,there,?_⟩
  split
  · rename_i same
    exact ⟨rfl,fun _ => .inr same⟩
  · exact ⟨rfl,.inl⟩

private theorem flushed (shows : p.Shows content) (member : e ∈ p.pool.entries) :
    Shows ⟨p.numPages,p.pool.clean e.page.id,writePageDisk p.file e.page⟩ content := by
  refine ⟨shows.pages,(ids_clean _ _).symm ▸ shows.distinct,?_,?_,?_,(shows.written member).2⟩
  · intro other there
    obtain ⟨old,was,page,-⟩ := mem_clean there
    rw [page]
    exact shows.known old was
  · intro other there clean
    obtain ⟨old,was,page,before⟩ := mem_clean there
    rw [page]
    have self : e.page.id = old.page.id → (writePageDisk p.file e.page)[old.page.id]? = some old.page.data := by
      intro same
      have data : e.page.data = old.page.data := Option.some.inj
        ((shows.known e member).symm.trans (same ▸ shows.known old was))
      rw [← same,← data]
      exact writePageDisk_self _ _
    rcases before clean with clean | same
    · rcases shows.clean_written was clean with onFile | same
      · exact onFile
      · exact self same
    · exact self same.symm
  · intro id absent
    rw [ids_clean] at absent
    exact (shows.written member).1 id absent

private def CleanAt (p : Pager) (id : Nat) : Prop := ∀ e ∈ p.pool.entries, e.page.id = id → e.dirty = false

private theorem flush_run (shows : p.Shows content) (order : List Nat) :
    ∃ p', p.flushIn order = (.ok (),p') ∧ p'.Shows content ∧ p'.pool.ids = p.pool.ids ∧
      ∀ id, id ∈ order ∨ CleanAt p id → CleanAt p' id := by
  induction order generalizing p with
  | nil => exact ⟨p,rfl,shows,rfl,fun id clean => clean.resolve_left (nomatch ·)⟩
  | cons first order ih =>
    unfold Pager.flushIn BufferPool.flush
    -- The page met first is clean already, or it is written and marked clean.
    have skipped : CleanAt p first → ∃ p', p.flushIn order = (.ok (),p') ∧ p'.Shows content ∧
        p'.pool.ids = p.pool.ids ∧ ∀ id, id ∈ first::order ∨ CleanAt p id → CleanAt p' id := by
      intro clean
      obtain ⟨p',done,shown,ids,cleaned⟩ := ih shows
      refine ⟨p',done,shown,ids,fun id either => cleaned id ?_⟩
      rcases either with member | already
      · rcases List.mem_cons.mp member with rfl | member
        · exact .inr clean
        · exact .inl member
      · exact .inr already
    rcases found : p.pool.item first with _ | e
    · have absent : first ∉ p.pool.ids := (Keyed.find_eq_none PoolEntry.number).mp found
      exact skipped fun e member same => absurd (same ▸ List.mem_map_of_mem member) absent
    · obtain ⟨member,rfl⟩ := shows.item_some.mp found
      cases dirty : e.dirty with
      | false =>
        simp only [dirty]
        refine skipped fun other there same => ?_
        have equal : some other = some e := (shows.item_some.mpr ⟨there,same⟩).symm.trans found
        rw [Option.some.inj equal,dirty]
      | true =>
        obtain ⟨p',done,shown,ids,cleaned⟩ := ih (shows.flushed member)
        simp only [dirty]
        refine ⟨p',done,shown,ids.trans (ids_clean _ _),fun id either => cleaned id ?_⟩
        have marked : CleanAt ⟨p.numPages,p.pool.clean e.page.id,writePageDisk p.file e.page⟩ e.page.id := by
          intro other there same
          obtain ⟨old,was,rfl⟩ := List.mem_map.mp there
          split at same <;> simp_all
        rcases either with member | already
        · rcases List.mem_cons.mp member with rfl | member
          · exact .inr marked
          · exact .inl member
        · refine .inr fun other there same => ?_
          obtain ⟨old,was,rfl⟩ := List.mem_map.mp there
          split at same
          · simp_all
          · rename_i different
            rw [if_neg different]
            exact already old was same

theorem file_eq (shows : p.Shows content) (clean : ∀ e ∈ p.pool.entries, e.dirty = false) :
    p.file = content := by
  apply List.ext_getElem?
  intro id
  by_cases cached : id ∈ p.pool.ids
  · obtain ⟨e,member,rfl⟩ := List.mem_map.mp cached
    rw [shows.clean e member (clean e member),shows.known e member]
  · exact shows.stored id cached

theorem flushIn (shows : p.Shows content) {order : List Nat} (all : ∀ id ∈ p.pool.ids, id ∈ order) :
    ∃ p', p.flushIn order = (.ok (),p') ∧ p'.Shows content ∧ p'.file = content := by
  obtain ⟨p',done,shown,ids,clean⟩ := shows.flush_run order
  refine ⟨p',done,shown,shown.file_eq fun e member => clean _ (.inl (all _ ?_)) e member rfl⟩
  rw [← ids]
  exact List.mem_map_of_mem member

theorem flush (shows : p.Shows content) :
    ∃ p', p.flush = (.ok (),p') ∧ p'.Shows content ∧ p'.file = content :=
  shows.flushIn (fun _ member => member)

end Pager.Shows

theorem Pager.open_shows (file : List Block) : (Pager.open file).Shows file :=
  ⟨rfl,List.nodup_nil,fun _ member => (nomatch member),fun _ member => (nomatch member),fun _ _ => rfl,
    Nat.le_refl _⟩

end GoDb
