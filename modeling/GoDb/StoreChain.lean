import GoDb.Store
import GoDb.PageRecords
import GoDb.PagerMeaning

/-! The page chain of a store. `Segments content first segments` says that the pages
linked from `first` on hold these record lists, with growing page numbers up to a
page that has no successor. `lastPage` walks this chain, and `append` adds its record
to the last page or to a new one behind it. -/
namespace GoDb
open Foundation Outcome

inductive Segments (content : List Block) : Nat → List (Nat × List Record) → Prop
  | last {id : Nat} {block : Block} {records : List Record} (here : content[id]? = some block)
      (final : block.next = none) (holds : block.Holds records) : Segments content id [(id,records)]
  | link {id next : Nat} {block : Block} {records : List Record} {rest : List (Nat × List Record)}
      (here : content[id]? = some block) (linked : block.next = some next) (later : id < next)
      (holds : block.Holds records) (tail : Segments content next rest) :
      Segments content id ((id,records)::rest)

variable {records : List Record} {content : List Block}

namespace Segments

variable {content' : List Block} {first : Nat} {segments : List (Nat × List Record)}

theorem starts (chain : Segments content first segments) :
    ∃ block records rest, content[first]? = some block ∧ segments = (first,records)::rest := by
  cases chain with
  | last here => exact ⟨_,_,_,here,rfl⟩
  | link here => exact ⟨_,_,_,here,rfl⟩

theorem length_le (chain : Segments content first segments) : first + segments.length ≤ content.length := by
  induction chain with
  | last here => exact (List.getElem?_eq_some_iff.mp here).1
  | link _ _ later _ _ ih =>
    rw [List.length_cons]
    omega

theorem inside (chain : Segments content first segments) : ∀ id ∈ segments.map Prod.fst, id < content.length := by
  induction chain with
  | last here =>
    intro id member
    rw [List.mem_singleton.mp member]
    exact (List.getElem?_eq_some_iff.mp here).1
  | link here _ _ _ _ ih =>
    intro id member
    rcases List.mem_cons.mp member with rfl | member
    · exact (List.getElem?_eq_some_iff.mp here).1
    · exact ih id member

theorem final (chain : Segments content first segments) :
    ∃ front id records block, segments = front ++ [(id,records)] ∧ content[id]? = some block ∧
      block.next = none ∧ block.Holds records := by
  induction chain with
  | last here final holds => exact ⟨[],_,_,_,rfl,here,final,holds⟩
  | link _ _ _ _ _ ih =>
    obtain ⟨front,id,records,block,rfl,rest⟩ := ih
    exact ⟨_::front,id,records,block,rfl,rest⟩

theorem replace {front rest : List (Nat × List Record)} {id : Nat}
    (chain : Segments content first (front ++ [(id,records)])) (same : ∀ j, j < id → content'[j]? = content[j]?)
    (tail : Segments content' id rest) : Segments content' first (front ++ rest) ∧ first ≤ id := by
  induction front generalizing first with
  | nil =>
    obtain ⟨_,_,_,_,equal⟩ := chain.starts
    cases equal
    exact ⟨tail,Nat.le_refl _⟩
  | cons segment front ih =>
    generalize shape : segment::front ++ [(id,records)] = all at chain
    cases chain with
    | last => simp at shape
    | link here linked later holds chain =>
      rw [List.cons_append] at shape
      obtain ⟨rfl,rfl⟩ := List.cons.inj shape
      obtain ⟨new,bound⟩ := ih chain
      have before := Nat.lt_of_lt_of_le later bound
      exact ⟨.link ((same _ before).trans here) linked later holds new,Nat.le_of_lt before⟩

theorem extend (chain : Segments content first segments) (more : List Block) :
    Segments (content ++ more) first segments := by
  have longer : ∀ {id : Nat} {block : Block}, content[id]? = some block → (content ++ more)[id]? = some block := by
    intro id block here
    rw [List.getElem?_append_left (List.getElem?_eq_some_iff.mp here).1]
    exact here
  induction chain with
  | last here final holds => exact .last (longer here) final holds
  | link here linked later holds _ ih => exact .link (longer here) linked later holds ih

theorem sorted (chain : Segments content first segments) :
    (segments.map Prod.fst).Pairwise (· < ·) ∧ ∀ id ∈ segments.map Prod.fst, first ≤ id := by
  induction chain with
  | last => simp
  | @link id next block records rest here linked later holds tail ih =>
    obtain ⟨sorted,bound⟩ := ih
    have behind : ∀ j ∈ rest.map Prod.fst, id < j := fun j member => Nat.lt_of_lt_of_le later (bound j member)
    exact ⟨List.pairwise_cons.mpr ⟨behind,sorted⟩,
      List.forall_mem_cons.mpr ⟨Nat.le_refl _,fun j member => Nat.le_of_lt (behind j member)⟩⟩

section write

variable {front : List (Nat × List Record)} {last page : Page} {r : Record}
  (chain : Segments content first (front ++ [(last.id,records)])) (here : content[last.id]? = some last.data)
  (holds : last.data.Holds records)

include chain here holds

theorem write (final : last.data.next = none) (written : Written last r page) :
    Segments (content.set last.id page.data) first (front ++ [(last.id,records ++ [r])]) := by
  have inside := (List.getElem?_eq_some_iff.mp here).1
  exact (chain.replace (fun j before => List.getElem?_set_ne (Nat.ne_of_gt before))
    (.last (List.getElem?_set_self inside) (written.next.trans final) (written.holds holds))).1

theorem grow (written : Written (newPage content.length) r page) :
    Segments (content.set last.id (last.setNextPageID content.length).data ++ [page.data]) first
      (front ++ [(last.id,records),(content.length,[r])]) := by
  have inside := (List.getElem?_eq_some_iff.mp here).1
  have behind : (content.set last.id (last.setNextPageID content.length).data ++ [page.data])[content.length]? =
      some page.data := by
    rw [List.getElem?_append_right (by simp)]
    simp
  have linked : (content.set last.id (last.setNextPageID content.length).data ++ [page.data])[last.id]? =
      some (last.setNextPageID content.length).data := by
    rw [List.getElem?_append_left (by rw [List.length_set]; exact inside),List.getElem?_set_self inside]
  refine (chain.replace (fun j before => ?_) (.link linked rfl inside ⟨holds.free,holds.inside⟩
    (.last behind written.next (written.holds (newPage_holds _))))).1
  rw [List.getElem?_append_left (by rw [List.length_set]; omega),List.getElem?_set_ne (Nat.ne_of_gt before)]

end write
end Segments

def HoldsRecords (content : List Block) (records : List Record) : Prop :=
  (content = [] → records = []) ∧
    (content ≠ [] → ∃ segments, Segments content 0 segments ∧ segments.flatMap Prod.snd = records)

theorem HoldsRecords.segments (holds : HoldsRecords content records) :
    ∃ segments, (content ≠ [] → Segments content 0 segments) ∧ (content = [] → segments = []) ∧
      segments.flatMap Prod.snd = records := by
  by_cases empty : content = []
  · exact ⟨[],fun some => absurd empty some,fun _ => rfl,(holds.1 empty).symm⟩
  · obtain ⟨segments,chain,flat⟩ := holds.2 empty
    exact ⟨segments,fun _ => chain,fun none => absurd none empty,flat⟩

theorem HoldsRecords.extend {base : List Block} (holds : HoldsRecords base records) (some : base ≠ [])
    (kept : content.take base.length = base) : HoldsRecords content records := by
  obtain ⟨segments,chain,flat⟩ := holds.2 some
  have whole := List.take_append_drop base.length content
  rw [kept] at whole
  rw [← whole]
  exact ⟨fun none => absurd (List.append_eq_nil_iff.mp none).1 some,fun _ => ⟨segments,chain.extend _,flat⟩⟩

def Pager.reads (p : Pager) (ids : List Nat) : Pager := ids.foldl (fun p id => (p.readPage id).2) p

theorem Pager.Shows.reads {p : Pager} (shows : p.Shows content) (ids : List Nat)
    (inside : ∀ id ∈ ids, id < content.length) : (p.reads ids).Shows content := by
  induction ids generalizing p with
  | nil => exact shows
  | cons id ids ih =>
    obtain ⟨p',read,shown⟩ := shows.readPage (List.getElem?_eq_getElem (inside id List.mem_cons_self))
    have next : p.reads (id::ids) = p'.reads ids := by
      change (p.readPage id).2.reads ids = _
      rw [read]
    rw [next]
    exact ih shown (fun id member => inside id (List.mem_cons_of_mem _ member))

namespace Store

variable {s : Store} {segments : List (Nat × List Record)}

@[simp] theorem exec_onPager {α : Type} (x : Pager → Except Error α × Pager) (s : Store) :
    (onPager x).exec s = ((x s.pager).1,{s with pager := (x s.pager).2}) := rfl

theorem readPage_exec (shows : s.pager.Shows content) {id : Nat} {block : Block}
    (here : content[id]? = some block) :
    (onPager (·.readPage id)).exec s = (.ok ⟨id,block⟩,{s with pager := s.pager.reads [id]}) ∧
      (s.pager.reads [id]).Shows content := by
  obtain ⟨p',read,shown⟩ := shows.readPage here
  have same : s.pager.reads [id] = p' := by
    change (s.pager.readPage id).2 = p'
    rw [read]
  rw [exec_onPager,read,same]
  exact ⟨rfl,shown⟩

theorem followChain_exec (fuel : Nat) {first : Nat} {block : Block} (chain : Segments content first segments)
    (shows : s.pager.Shows content) (here : content[first]? = some block) (enough : segments.length ≤ fuel) :
    ∃ last : Page, (followChain fuel ⟨first,block⟩).exec s =
        (.ok last,{s with pager := s.pager.reads (segments.tail.map Prod.fst)}) ∧
      content[last.id]? = some last.data ∧ (segments.map Prod.fst).getLast? = some last.id := by
  induction chain generalizing s block fuel with
  | last there final holds =>
    obtain ⟨fuel,rfl⟩ := Nat.exists_eq_succ_of_ne_zero (Nat.ne_of_gt enough)
    obtain rfl := Option.some.inj (there.symm.trans here)
    refine ⟨⟨_,_⟩,?_,here,rfl⟩
    simp only [followChain,Page.nextPageID,final]
    rfl
  | @link id next found records rest there linked later holds tail ih =>
    obtain ⟨fuel,rfl⟩ := Nat.exists_eq_succ_of_ne_zero (Nat.ne_of_gt (Nat.lt_of_lt_of_le (Nat.succ_pos _) enough))
    obtain rfl := Option.some.inj (there.symm.trans here)
    obtain ⟨block',_,after,there',rfl⟩ := tail.starts
    obtain ⟨read,shown⟩ := readPage_exec shows there'
    obtain ⟨last,walked,found,ending⟩ := ih fuel (s := {s with pager := s.pager.reads [next]}) shown there'
      (Nat.le_of_succ_le_succ enough)
    refine ⟨last,?_,found,by simpa using ending⟩
    simp only [followChain,Page.nextPageID,linked]
    rw [exec_bind_ok read,walked]
    rfl

structure Reached (s s' : Store) (content : List Block) (last : Page) (front : List (Nat × List Record))
    (records : List Record) : Prop where
  exec : lastPage.exec s = (.ok last,s')
  shows : s'.pager.Shows content
  chain : Segments content s'.firstPage (front ++ [(last.id,records)])
  here : content[last.id]? = some last.data
  final : last.data.next = none
  holds : last.data.Holds records

theorem lastPage_chain {front : List (Nat × List Record)} {id : Nat} (shows : s.pager.Shows content)
    (pages : s.hasPages = true) (chain : Segments content s.firstPage (front ++ [(id,records)])) :
    ∃ block, content[id]? = some block ∧
      Reached s {s with pager := s.pager.reads ((front ++ [(id,records)]).map Prod.fst)} content ⟨id,block⟩
        front records := by
  obtain ⟨block,_,rest,here,split⟩ := chain.starts
  obtain ⟨front',id',records',final,split',there,ending,holds⟩ := chain.final
  obtain ⟨rfl,same⟩ := List.append_inj' split' rfl
  cases same
  obtain ⟨read,shown⟩ := readPage_exec shows here
  obtain ⟨last,walked,found,lastId⟩ := followChain_exec (s := {s with pager := s.pager.reads [s.firstPage]})
    (s.pager.numPages + 1) chain shown here (by rw [shows.pages]; have := chain.length_le; omega)
  have number : last.id = id := by simpa using lastId.symm
  have whole : last = ⟨id,final⟩ := by
    have data := found
    rw [number,there] at data
    rcases last with ⟨_,_⟩
    cases data
    cases number
    rfl
  refine ⟨final,there,?_,shows.reads _ chain.inside,chain,there,ending,holds⟩
  unfold lastPage
  rw [exec_bind_ok (exec_get s),if_pos pages,exec_bind_ok read,walked,whole,split]
  rfl

theorem lastPage_first (shows : s.pager.Shows content) (empty : s.hasPages = false) :
    Reached s {s with pager := s.pager.allocatePage.2,firstPage := content.length,hasPages := true}
      (content ++ [(newPage content.length).data]) (newPage content.length) [] [] := by
  obtain ⟨p',made,shown⟩ := shows.allocatePage
  have here : (content ++ [(newPage content.length).data])[content.length]? =
      some (newPage content.length).data := by simp
  refine ⟨?_,?_,.last here rfl (newPage_holds _),here,rfl,newPage_holds _⟩
  · unfold lastPage
    rw [exec_bind_ok (exec_get s),empty,if_neg Bool.false_ne_true,exec_bind,exec_onPager,made]
    rfl
  · rw [made]
    exact shown

def versioned (s : Store) (key value : Bytes) (flag : UInt8) : Store :=
  ((addVersion key value flag).exec s).2

theorem addVersion_exec (s : Store) (key value : Bytes) (flag : UInt8) :
    (addVersion key value flag).exec s = (.ok (),s.versioned key value flag) := rfl

/-- The store with its index and index file replaced, as `saveIndex` leaves it. -/
def indexed (s : Store) (t : BTree.Tree) : Store := {s with index := t,indexFile := some t.entries}

section append

variable {s s' : Store} {last : Page} {front : List (Nat × List Record)} {key value : Bytes} {flag : UInt8}

theorem append_room (reached : Reached (s.versioned key value flag) s' content last front records)
    (room : last.data.free + (Record.mk flag key value).size ≤ PageSize) :
    ∃ page, Written last ⟨flag,key,value⟩ page ∧
      (append key value flag).exec s = (.ok (),
        {s' with pager := (s'.pager.writePage page).2}.indexed
          (if flag = flagLive then s'.index.put key value else s'.index)) ∧
      (s'.pager.writePage page).2.Shows (content.set last.id page.data) ∧
      Segments (content.set last.id page.data) s'.firstPage
        (front ++ [(last.id,records ++ [⟨flag,key,value⟩])]) := by
  obtain ⟨page,ok,written⟩ := writeRecord_room room
  have inside : last.id < content.length := (List.getElem?_eq_some_iff.mp reached.here).1
  obtain ⟨p,done,shown⟩ := reached.shows.writePage (written.id ▸ inside)
  rw [written.id] at shown
  refine ⟨page,written,?_,by rw [done]; exact shown,?_⟩
  · unfold append
    rw [exec_bind_ok (addVersion_exec s key value flag),exec_bind_ok reached.exec]
    simp only [ok]
    rw [exec_bind,exec_onPager,done]
    by_cases live : flag = flagLive
    · rw [if_pos live,if_pos live]
      rfl
    · rw [if_neg live,if_neg live]
      rfl
  · exact reached.chain.write reached.here reached.holds reached.final written

theorem append_full (reached : Reached (s.versioned key value flag) s' content last front records)
    (full : PageSize < last.data.free + (Record.mk flag key value).size)
    (fits : HeaderSize + (Record.mk flag key value).size ≤ PageSize) :
    ∃ page, Written (newPage content.length) ⟨flag,key,value⟩ page ∧
      let linked := last.setNextPageID content.length
      let p := ((s'.pager.allocatePage.2.writePage linked).2.writePage page).2
      let content' := content.set last.id linked.data ++ [page.data]
      (append key value flag).exec s = (.ok (),
        {s' with pager := p}.indexed
          (if flag = flagLive then s'.index.put key value else (s'.index.delete key).1)) ∧
      p.Shows content' ∧
      Segments content' s'.firstPage
        (front ++ [(last.id,records),(content.length,[⟨flag,key,value⟩])]) := by
  obtain ⟨page,ok,written⟩ := writeRecord_room
    (show (newPage content.length).data.free + (Record.mk flag key value).size ≤ PageSize from fits)
  have number : page.id = content.length := written.id
  have inside : last.id < content.length := (List.getElem?_eq_some_iff.mp reached.here).1
  obtain ⟨p₁,made,shown₁⟩ := reached.shows.allocatePage
  obtain ⟨p₂,done₂,shown₂⟩ := shown₁.writePage
    (show (last.setNextPageID content.length).id < _ by simp [Page.setNextPageID]; omega)
  obtain ⟨p₃,done₃,shown₃⟩ := shown₂.writePage (show page.id < _ by rw [number]; simp)
  -- The page allocated stands at the end, so linking the old last page does not touch it.
  have result : ((content ++ [(newPage content.length).data]).set (last.setNextPageID content.length).id
      (last.setNextPageID content.length).data).set page.id page.data =
      content.set last.id (last.setNextPageID content.length).data ++ [page.data] := by
    change (List.set _ last.id _).set _ _ = _
    rw [List.set_append_left _ _ inside,number]
    simp
  rw [result] at shown₃
  refine ⟨page,written,?_⟩
  simp only [made,done₂,done₃]
  refine ⟨?_,shown₃,reached.chain.grow reached.here reached.holds written⟩
  unfold append
  rw [exec_bind_ok (addVersion_exec s key value flag),exec_bind_ok reached.exec]
  simp only [writeRecord_full full]
  rw [exec_bind,exec_onPager,made]
  simp only [ok]
  rw [exec_bind,exec_onPager]
  simp only [number,done₂]
  rw [exec_bind,exec_onPager]
  simp only [done₃]
  by_cases live : flag = flagLive
  · rw [if_pos live,if_pos live]
    rfl
  · rw [if_neg live,if_neg live]
    rfl

theorem append_large (reached : Reached (s.versioned key value flag) s' content last front records)
    (large : PageSize < HeaderSize + (Record.mk flag key value).size) :
    (append key value flag).exec s =
        (.error (.recordTooLarge .pageFull),{s' with pager := s'.pager.allocatePage.2}) ∧
      s'.pager.allocatePage.2.Shows (content ++ [(newPage content.length).data]) := by
  obtain ⟨p,made,shown⟩ := reached.shows.allocatePage
  have header := reached.holds.free_le.1
  rw [made]
  refine ⟨?_,shown⟩
  unfold append
  rw [exec_bind_ok (addVersion_exec s key value flag),exec_bind_ok reached.exec]
  simp only [writeRecord_full (Nat.lt_of_lt_of_le large (Nat.add_le_add_right header _))]
  rw [exec_bind,exec_onPager,made]
  simp only [writeRecord_full
    (show PageSize < (newPage content.length).data.free + (Record.mk flag key value).size from large)]
  rfl

end append
end Store
end GoDb
