import GoDb.StoreChain
import GoDb.Foundation.Recency

/-! Which pages a pager keeps and which it has written back, when the store walks its
chain before every write. The pool holds 64 pages. Up to that number of pages nothing
reaches the file; with more, each walk misses every page, and leaves in the file
exactly what the pages held before the write. -/
namespace GoDb
open Foundation Recency

namespace BufferPool

variable {b : BufferPool}

theorem front_ids (b : BufferPool) (e : PoolEntry) :
    (b.front e).ids = e.page.id::b.ids.filter (· ≠ e.page.id) := by
  simp only [ids,front,List.map_cons,List.filter_map]
  rfl

theorem makeRoom_cases (b : BufferPool) (file : List Block) (positive : 0 < b.capacity) :
    b.entries.length < b.capacity ∧ b.makeRoomLocked fileDisk file = (.ok (),b,file) ∨
      ∃ init e, b.entries = init ++ [e] ∧ b.capacity ≤ b.entries.length ∧
        b.makeRoomLocked fileDisk file =
          (.ok (),{b with entries := init},if e.dirty then writePageDisk file e.page else file) := by
  unfold makeRoomLocked
  by_cases room : b.entries.length < b.capacity
  · exact .inl ⟨room,if_pos room⟩
  · refine .inr ?_
    rw [if_neg room]
    have some : b.entries ≠ [] := by
      intro empty
      rw [empty,List.length_nil] at room
      omega
    have split := List.dropLast_append_getLast some
    refine ⟨b.entries.dropLast,b.entries.getLast some,split.symm,Nat.not_lt.mp room,?_⟩
    rw [List.getLast?_eq_some_getLast some]
    cases dirty : (b.entries.getLast some).dirty <;> simp [dirty,fileDisk]

theorem enter (b : BufferPool) (file : List Block) (capacity : b.capacity = 64) (length : b.entries.length ≤ 64)
    (e : PoolEntry) (absent : e.page.id ∉ b.ids) :
    ∃ pool file', b.makeRoomLocked fileDisk file = (.ok (),pool,file') ∧ pool.capacity = 64 ∧
      (pool.front e).entries.length ≤ 64 ∧ (pool.front e).ids = touch 64 b.ids e.page.id ∧
      (∀ x ∈ (pool.front e).entries, x ∈ b.entries ∨ x = e) ∧
      (file' = file ∨ ∃ last ∈ b.entries, last.dirty = true ∧ b.ids.getLast? = some last.page.id ∧
        b.entries.length = 64 ∧ file' = writePageDisk file last.page) := by
  have entered (pool : BufferPool) (fewer : ∀ id ∈ pool.ids, id ∈ b.ids) :
      pool.front e = {pool with entries := e::pool.entries} := by
    have same : pool.entries.filter (·.page.id ≠ e.page.id) = pool.entries := by
      refine List.filter_eq_self.mpr fun x member => ?_
      simp only [ne_eq,decide_eq_true_eq]
      exact fun equal => absent (equal ▸ fewer _ (List.mem_map_of_mem member))
    rw [front,same]
  rw [touch_of_absent absent]
  -- The pool has room, or its last entry goes and 63 stay.
  rcases makeRoom_cases b file (by omega) with ⟨room,made⟩ | ⟨init,last,split,full,made⟩
  · refine ⟨b,file,made,capacity,?_⟩
    rw [entered b (fun _ member => member)]
    refine ⟨?_,?_,?_,.inl rfl⟩
    · rw [List.length_cons]
      omega
    · change e.page.id::b.ids = _
      refine (List.take_of_length_le ?_).symm
      rw [List.length_cons,ids,List.length_map]
      omega
    · intro x member
      exact (List.mem_cons.mp member).symm
  · have few : ∀ x ∈ init, x ∈ b.entries := fun x member => split ▸ List.mem_append_left _ member
    have whole : b.ids = init.map (·.page.id) ++ [last.page.id] := by simp [ids,split]
    have size : init.length = 63 := by
      have total := congrArg List.length split
      rw [List.length_append,List.length_singleton] at total
      omega
    refine ⟨_,_,made,capacity,?_⟩
    rw [entered {b with entries := init} fun id member => by
      obtain ⟨x,there,rfl⟩ := List.mem_map.mp member
      exact List.mem_map_of_mem (few x there)]
    refine ⟨?_,?_,?_,?_⟩
    · rw [List.length_cons,size]
    · rw [whole]
      change e.page.id::init.map (·.page.id) = _
      rw [← List.cons_append,List.take_left' (by simp [size])]
    · intro x member
      exact (List.mem_cons.mp member).symm.imp_left (few x)
    · cases dirty : last.dirty with
      | false => exact .inl rfl
      | true =>
        refine .inr ⟨last,split ▸ List.mem_append_right _ (List.mem_singleton_self _),dirty,?_,by omega,rfl⟩
        rw [whole,List.getLast?_concat]

end BufferPool

namespace Pager

structure Bounded (p : Pager) : Prop where
  capacity : p.pool.capacity = 64
  length : p.pool.entries.length ≤ 64

structure Used (p p' : Pager) (id : Nat) : Prop where
  bounded : p'.Bounded
  ids : p'.pool.ids = touch 64 p.pool.ids id
  hit : id ∈ p.pool.ids → p'.file = p.file
  miss : p'.file = p.file ∨ ∃ e ∈ p.pool.entries, e.dirty = true ∧ p.pool.ids.getLast? = some e.page.id ∧
    p.pool.entries.length = 64 ∧ p'.file = writePageDisk p.file e.page

variable {p : Pager} {content : List Block}

private theorem length_front {b : BufferPool} {e : PoolEntry} (distinct : b.ids.Nodup) (member : e.page.id ∈ b.ids) :
    (b.front e).entries.length = b.entries.length := by
  have lengths := congrArg List.length (b.front_ids e)
  have rest := length_filter_ne member distinct
  simp only [BufferPool.ids,List.length_map,List.length_cons] at lengths rest
  omega

private theorem hit_used (n : Nat) (e : PoolEntry) (pool : BufferPool) (bounded : p.Bounded)
    (shows : p.Shows content) (member : e.page.id ∈ p.pool.ids) (capacity : pool.capacity = 64)
    (entries : pool.entries = (p.pool.front e).entries) : Used p ⟨n,pool,p.file⟩ e.page.id := by
  have short : p.pool.ids.length ≤ 64 := by rw [BufferPool.ids,List.length_map]; exact bounded.length
  refine ⟨⟨capacity,?_⟩,?_,fun _ => rfl,.inl rfl⟩
  · rw [entries,length_front shows.distinct member]
    exact bounded.length
  · rw [touch_of_mem member shows.distinct short,← p.pool.front_ids e]
    change pool.entries.map _ = _
    rw [entries]
    rfl

theorem readPage_used (bounded : p.Bounded) (shows : p.Shows content) {id : Nat} (inside : id < content.length) :
    Used p (p.readPage id).2 id ∧ (id ∉ p.pool.ids →
      ∀ e ∈ (p.readPage id).2.pool.entries, e ∈ p.pool.entries ∨ e.page.id = id ∧ e.dirty = false) := by
  unfold readPage BufferPool.get BufferPool.lookup
  rw [if_neg (by rw [shows.pages]; omega)]
  rcases found : p.pool.item id with _ | e
  · have absent : id ∉ p.pool.ids := (Keyed.find_eq_none fun e : PoolEntry => e.page.id).mp found
    have onFile : p.file[id]? = some content[id] :=
      (shows.stored id absent).trans (List.getElem?_eq_getElem inside)
    have same : fileDisk.readDisk p.file id = .ok content[id] := by
      change readPageDisk p.file id = _
      rw [readPageDisk,onFile]
    have still : BufferPool.item {p.pool with misses := p.pool.misses+1} id = none := found
    obtain ⟨pool,file,made,capacity,length,ids,old,written⟩ := BufferPool.enter
      {p.pool with misses := p.pool.misses+1} p.file bounded.capacity bounded.length ⟨⟨id,content[id]⟩,false⟩ absent
    simp only [same,BufferPool.keep,still,made]
    refine ⟨⟨⟨capacity,length⟩,ids,fun member => absurd member absent,written⟩,fun _ x member => ?_⟩
    rcases old x member with there | rfl
    · exact .inl there
    · exact .inr ⟨rfl,rfl⟩
  · obtain ⟨member,rfl⟩ := shows.item_some.mp found
    have cached : e.page.id ∈ p.pool.ids := List.mem_map_of_mem member
    exact ⟨hit_used _ _ _ bounded shows cached bounded.capacity rfl,fun absent => absurd cached absent⟩

private theorem put_used (bounded : p.Bounded) (shows : p.Shows content) (page : Page) (n : Nat) :
    Used p ⟨n,(p.pool.put fileDisk p.file page true).2.1,(p.pool.put fileDisk p.file page true).2.2⟩ page.id := by
  unfold BufferPool.put
  rcases found : p.pool.item page.id with _ | e
  · have absent : page.id ∉ p.pool.ids := (Keyed.find_eq_none fun e : PoolEntry => e.page.id).mp found
    obtain ⟨pool,file,made,capacity,length,ids,-,written⟩ := BufferPool.enter p.pool p.file bounded.capacity
      bounded.length ⟨page,true⟩ absent
    simp only [made]
    exact ⟨⟨capacity,length⟩,ids,fun member => absurd member absent,written⟩
  · obtain ⟨member,same⟩ := shows.item_some.mp found
    have cached : page.id ∈ p.pool.ids := same ▸ List.mem_map_of_mem member
    exact hit_used n ⟨page,e.dirty || true⟩ _ bounded shows cached bounded.capacity rfl

theorem writePage_used (bounded : p.Bounded) (shows : p.Shows content) {page : Page}
    (inside : page.id < content.length) : Used p (p.writePage page).2 page.id := by
  unfold writePage
  rw [if_neg (by rw [shows.pages]; omega)]
  exact put_used bounded shows page p.numPages

theorem allocatePage_used (bounded : p.Bounded) (shows : p.Shows content) :
    Used p p.allocatePage.2 content.length := by
  have used := put_used bounded shows (newPage p.numPages) (p.numPages + 1)
  obtain ⟨p',made,-⟩ := shows.allocatePage
  have same : p.allocatePage.2 = ⟨p.numPages + 1,(p.pool.put fileDisk p.file (newPage p.numPages) true).2.1,
      (p.pool.put fileDisk p.file (newPage p.numPages) true).2.2⟩ := by
    unfold allocatePage at made ⊢
    rcases result : p.pool.put fileDisk p.file (newPage p.numPages) true with ⟨e | ⟨⟩,pool,file⟩
    · simp only [result] at made
      cases made
    · simp only [result]
  rw [same,← shows.pages]
  exact used

structure Cached (p : Pager) (content : List Block) : Prop where
  shows : p.Shows content
  bounded : p.Bounded
  ids : p.pool.ids = window 64 content.length

theorem open_cached : (Pager.open []).Cached [] :=
  ⟨open_shows [],⟨rfl,Nat.zero_le _⟩,rfl⟩

theorem reads_concat (p : Pager) (ids : List Nat) (id : Nat) :
    p.reads (ids ++ [id]) = ((p.reads ids).readPage id).2 := by
  simp [Pager.reads]

private theorem walk_to (cached : p.Cached content) (j : Nat) (bound : j ≤ content.length) :
    (p.reads (List.range j)).Shows content ∧ (p.reads (List.range j)).Bounded ∧
      (p.reads (List.range j)).pool.ids = (List.range j).foldl (touch 64) (window 64 content.length) ∧
      (content.length ≤ 64 → (p.reads (List.range j)).file = p.file) ∧
      (64 < content.length → ∀ e ∈ (p.reads (List.range j)).pool.entries, e.page.id < j → e.dirty = false) := by
  induction j with
  | zero =>
    exact ⟨cached.shows,cached.bounded,cached.ids,fun _ => rfl,fun _ _ _ before => absurd before (Nat.not_lt_zero _)⟩
  | succ j ih =>
    obtain ⟨shows,bounded,ids,same,clean⟩ := ih (by omega)
    have order := ids.trans (foldl_touch_range 64 content.length j (by omega))
    obtain ⟨used,old⟩ := readPage_used bounded shows bound
    have shown := shows.reads [j] (fun id member => by rw [List.mem_singleton.mp member]; exact bound)
    rw [List.range_succ,reads_concat]
    refine ⟨shown,used.bounded,?_,?_,?_⟩
    · rw [used.ids,ids,List.foldl_append]
      rfl
    · -- All pages are cached, so the walk finds each of them.
      intro few
      have cachedHere : j ∈ (p.reads (List.range j)).pool.ids := by
        rw [order,List.take_of_length_le (by simp; omega)]
        refine List.mem_append_right _ ?_
        simp only [List.mem_reverse,List.mem_range'_1]
        omega
      rw [used.hit cachedHere,same few]
    · -- The page that comes next is the one the pool has just lost.
      intro many e member before
      have lost : j ∉ (p.reads (List.range j)).pool.ids := by
        rw [order,range_split bound,← List.append_assoc,List.take_append_of_le_length (by simp; omega)]
        intro inside
        have among := List.mem_of_mem_take inside
        simp only [List.mem_append,List.mem_reverse,List.mem_range,List.mem_range'_1] at among
        omega
      rcases old lost e member with there | ⟨-,clear⟩
      · refine clean many e there ?_
        have known : e.page.id ∈ (p.reads (List.range j)).pool.ids := List.mem_map_of_mem there
        have other : e.page.id ≠ j := fun equal => lost (equal ▸ known)
        omega
      · exact clear

theorem Cached.walk (cached : p.Cached content) :
    (p.reads (List.range content.length)).Cached content ∧
      (content.length ≤ 64 → (p.reads (List.range content.length)).file = p.file) ∧
      (64 < content.length → (p.reads (List.range content.length)).file = content ∧
        ∀ e ∈ (p.reads (List.range content.length)).pool.entries, e.dirty = false) := by
  obtain ⟨shows,bounded,ids,same,clean⟩ := walk_to cached content.length (Nat.le_refl _)
  refine ⟨⟨shows,bounded,ids.trans (scan_window 64 content.length)⟩,same,fun many => ?_⟩
  have all : ∀ e ∈ (p.reads (List.range content.length)).pool.entries, e.dirty = false :=
    fun e member => clean many e member (shows.inside member)
  exact ⟨shows.file_eq all,all⟩

theorem Cached.rewrite (cached : p.Cached content) {page : Page} (last : page.id + 1 = content.length) :
    (p.writePage page).2.Cached (content.set page.id page.data) ∧ (p.writePage page).2.file = p.file := by
  have inside : page.id < content.length := by omega
  obtain ⟨p',done,shown⟩ := cached.shows.writePage inside
  have used := writePage_used cached.bounded cached.shows inside
  have order : p.pool.ids = page.id::(List.range page.id).reverse.take 63 := by
    rw [cached.ids,← last,window_succ]
  have absent : page.id ∉ (List.range page.id).reverse.take 63 := fun member => by
    have among := List.mem_of_mem_take member
    simp at among
  rw [done] at used ⊢
  refine ⟨⟨shown,used.bounded,?_⟩,used.hit (by rw [order]; exact List.mem_cons_self)⟩
  rw [used.ids,order,touch_head absent (by simp),List.length_set,← last,window_succ]

theorem Cached.extend (cached : p.Cached content) {linked page : Page} (last : linked.id + 1 = content.length)
    (new : page.id = content.length) :
    let p' := ((p.allocatePage.2.writePage linked).2.writePage page).2
    p'.Bounded ∧ p'.pool.ids = window 64 (content.length + 1) ∧ p'.file = p.allocatePage.2.file := by
  obtain ⟨p₁,made,shown₁⟩ := cached.shows.allocatePage
  have used₁ := allocatePage_used cached.bounded cached.shows
  rw [made] at used₁ ⊢
  obtain ⟨p₂,done₂,shown₂⟩ := shown₁.writePage (show linked.id < _ by simp; omega)
  have used₂ := writePage_used used₁.bounded shown₁ (show linked.id < _ by simp; omega)
  rw [done₂] at used₂ ⊢
  have used₃ := writePage_used used₂.bounded shown₂ (show page.id < _ by simp; omega)
  dsimp only
  -- The two pages in front change places twice.
  have first : p₁.pool.ids = page.id::linked.id::(List.range linked.id).reverse.take 62 := by
    have absent : content.length ∉ p.pool.ids := by
      rw [cached.ids]
      intro member
      have among := List.mem_of_mem_take member
      simp at among
    rw [used₁.ids,touch_of_absent absent,cached.ids,← last,window_succ,new,← last]
    simp [List.take_take]
  have absent : page.id ∉ (List.range linked.id).reverse.take 62 ∧
      linked.id ∉ (List.range linked.id).reverse.take 62 := by
    constructor
    · intro member
      have among := List.mem_of_mem_take member
      simp at among
      omega
    · intro member
      have among := List.mem_of_mem_take member
      simp at among
  have order : (p₂.writePage page).2.pool.ids = p₁.pool.ids := by
    rw [used₃.ids,used₂.ids,first]
    exact touch_swap absent.1 absent.2 (by omega) (by simp)
  have second : linked.id ∈ p₁.pool.ids := by simp [first]
  have third : page.id ∈ p₂.pool.ids := by
    rw [used₂.ids,first]
    have few : (page.id::linked.id::(List.range linked.id).reverse.take 62).length ≤ 64 := by
      simp only [List.length_cons,List.length_take]
      omega
    exact mem_touch_of_mem (by simp) (by rw [← first]; exact shown₁.distinct) few
  refine ⟨used₃.bounded,?_,(used₃.hit third).trans (used₂.hit second)⟩
  rw [order,first,new,window_succ,← last,List.range_succ]
  simp [List.take_succ_cons]

theorem Cached.allocate (cached : p.Cached content) :
    p.allocatePage.2.Cached (content ++ [(newPage content.length).data]) := by
  obtain ⟨p',made,shown⟩ := cached.shows.allocatePage
  have used := allocatePage_used cached.bounded cached.shows
  have absent : content.length ∉ p.pool.ids := by
    rw [cached.ids]
    intro member
    have among := List.mem_of_mem_take member
    simp at among
  rw [made] at used ⊢
  refine ⟨shown,used.bounded,?_⟩
  rw [used.ids,touch_of_absent absent,cached.ids,List.length_append,List.length_singleton,window_succ]
  simp [window,List.take_take]

theorem Cached.length (cached : p.Cached content) : p.pool.entries.length = min 64 content.length := by
  have lengths := congrArg List.length cached.ids
  simpa [BufferPool.ids,window] using lengths

theorem Cached.allocate_few (cached : p.Cached content) (few : content.length < 64) :
    p.allocatePage.2.file = p.file := by
  have length := cached.length
  rcases (allocatePage_used cached.bounded cached.shows).miss with same | ⟨_,_,_,_,full,_⟩
  · exact same
  · omega

theorem Cached.allocate_clean (cached : p.Cached content) (clean : ∀ e ∈ p.pool.entries, e.dirty = false) :
    p.allocatePage.2.file = p.file := by
  rcases (allocatePage_used cached.bounded cached.shows).miss with same | ⟨e,member,dirty,_⟩
  · exact same
  · rw [clean e member] at dirty
    cases dirty

theorem Cached.allocate_first (cached : p.Cached content) (length : content.length = 64) (empty : p.file = []) :
    p.allocatePage.2.file = content.take 1 := by
  obtain ⟨p',made,shown⟩ := cached.shows.allocatePage
  have used := allocatePage_used cached.bounded cached.shows
  rw [made] at used ⊢
  have zero : content[0]? = some content[0] := List.getElem?_eq_getElem (by omega)
  have taken : content.take 1 = [content[0]] := by
    rw [List.take_one,List.head?_eq_getElem?,zero]
    rfl
  have order : p.pool.ids = (List.range 64).reverse := by rw [cached.ids,length]; rfl
  rcases used.miss with same | ⟨e,member,-,back,-,written⟩
  · -- Page 0 is not cached any more, so the file has to hold it.
    exfalso
    have lost : 0 ∉ p'.pool.ids := by
      rw [used.ids,order,length]
      decide
    have stored := shown.stored 0 lost
    rw [same,empty,List.getElem?_append_left (by omega),zero] at stored
    cases stored
  · have number : e.page.id = 0 := by
      rw [order] at back
      exact (Option.some.inj back).symm
    have data := cached.shows.known e member
    rw [number,zero] at data
    rw [written,empty,taken,Option.some.inj data]
    simp [writePageDisk,number]

theorem Used.still {p' : Pager} {id n : Nat} (used : Used p p' id) (shows : p.Shows content)
    (inside : content.length ≤ n) (here : id < n) (few : n ≤ 64) : p'.file = p.file := by
  by_cases cached : id ∈ p.pool.ids
  · exact used.hit cached
  rcases used.miss with same | ⟨_,_,_,_,full,_⟩
  · exact same
  have distinct : (id::p.pool.ids).Nodup := List.nodup_cons.mpr ⟨cached,shows.distinct⟩
  have known : id::p.pool.ids ⊆ List.range n := by
    intro j member
    rcases List.mem_cons.mp member with rfl | member
    · exact List.mem_range.mpr here
    · obtain ⟨e,there,rfl⟩ := List.mem_map.mp member
      exact List.mem_range.mpr (Nat.lt_of_lt_of_le (shows.inside there) inside)
  have count := (List.subperm_of_subset distinct known).length_le
  rw [List.length_cons,BufferPool.ids,List.length_map,List.length_range,full] at count
  omega

private theorem flush_bounded (order : List Nat) (b : BufferPool) (file : List Block) :
    (b.flush fileDisk order file).2.1.capacity = b.capacity ∧
      (b.flush fileDisk order file).2.1.entries.length = b.entries.length := by
  induction order generalizing b file with
  | nil => exact ⟨rfl,rfl⟩
  | cons id order ih =>
    rw [BufferPool.flush]
    cases b.item id with
    | none => exact ih b file
    | some e =>
      cases dirty : e.dirty with
      | false => simpa [dirty] using ih b file
      | true =>
        obtain ⟨capacity,length⟩ := ih (b.clean id) (writePageDisk file e.page)
        simp only [dirty,if_true,fileDisk] at capacity length ⊢
        exact ⟨capacity,length.trans (by simp [BufferPool.clean])⟩

theorem Bounded.flush (bounded : p.Bounded) : p.flush.2.Bounded := by
  obtain ⟨capacity,length⟩ := flush_bounded p.pool.ids p.pool p.file
  exact ⟨capacity.trans bounded.capacity,length.trans_le bounded.length⟩

theorem open_bounded (file : List Block) : (Pager.open file).Bounded := ⟨rfl,Nat.zero_le _⟩

end Pager
end GoDb
