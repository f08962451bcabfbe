import GoDb.StoreChain
import GoDb.BTreeMeaning

/-! What every operation of a store keeps: the pager shows pages that `validatePages`
accepts, the index is a valid tree, and each of its entries fits on a page. -/
namespace GoDb
open Foundation Outcome SortedEntries

structure Block.Sound (n id : Nat) (block : Block) : Prop where
  header : block.id = id
  held : ∃ records, block.Holds records
  next : ∀ next, block.next = some next → id < next ∧ next < n

def PagesOk (content : List Block) : Prop :=
  ∀ (id : Nat) (block : Block), content[id]? = some block → block.Sound content.length id

namespace PagesOk

variable {content : List Block}

theorem nil : PagesOk [] := by
  intro id block here
  simp at here

theorem concat (ok : PagesOk content) : PagesOk (content ++ [(newPage content.length).data]) := by
  intro id block here
  by_cases inside : id < content.length
  · rw [List.getElem?_append_left inside] at here
    obtain ⟨header,held,next⟩ := ok id block here
    refine ⟨header,held,fun j linked => ⟨(next j linked).1,?_⟩⟩
    rw [List.length_append]
    exact Nat.lt_add_right _ (next j linked).2
  · have bound := (List.getElem?_eq_some_iff.mp here).1
    rw [List.length_append,List.length_singleton] at bound
    obtain rfl : id = content.length := by omega
    rw [List.getElem?_concat_length] at here
    cases here
    exact ⟨rfl,⟨[],newPage_holds _⟩,fun j linked => nomatch linked⟩

theorem set (ok : PagesOk content) {id : Nat} {block : Block} (sound : block.Sound content.length id) :
    PagesOk (content.set id block) := by
  intro j other here
  rw [List.length_set]
  by_cases same : id = j
  · subst same
    have inside := (List.getElem?_eq_some_iff.mp here).1
    rw [List.length_set] at inside
    rw [List.getElem?_set_self inside] at here
    cases here
    exact sound
  · rw [List.getElem?_set_ne same] at here
    exact ok j other here

theorem segments (ok : PagesOk content) {id : Nat} (inside : id < content.length) :
    ∃ segments, Segments content id segments := by
  obtain ⟨left,total⟩ : ∃ left, left = content.length - id := ⟨_,rfl⟩
  induction left using Nat.strong_induction_on generalizing id with
  | _ left ih =>
    have here : content[id]? = some content[id] := List.getElem?_eq_getElem inside
    obtain ⟨-,⟨records,holds⟩,next⟩ := ok id _ here
    rcases link : content[id].next with _ | j
    · exact ⟨_,.last here link holds⟩
    · obtain ⟨later,bound⟩ := next j link
      obtain ⟨rest,chain⟩ := ih (content.length - j) (by omega) bound rfl
      exact ⟨_,.link here link later holds chain⟩

theorem written (ok : PagesOk content) {last page : Page} {r : Record}
    (here : content[last.id]? = some last.data) (write : Written last r page) :
    PagesOk (content.set last.id page.data) := by
  obtain ⟨header,⟨records,holds⟩,next⟩ := ok _ _ here
  refine ok.set ⟨write.header.trans header,⟨_,write.holds holds⟩,?_⟩
  rw [write.next]
  exact next

theorem linked (ok : PagesOk content) {last page : Page} {r : Record}
    (here : content[last.id]? = some last.data) (write : Written (newPage content.length) r page) :
    PagesOk (content.set last.id (last.setNextPageID content.length).data ++ [page.data]) := by
  have inside := (List.getElem?_eq_some_iff.mp here).1
  obtain ⟨header,⟨records,holds⟩,-⟩ := ok _ _ here
  have first : PagesOk ((content ++ [(newPage content.length).data]).set last.id
      (last.setNextPageID content.length).data) := by
    refine ok.concat.set ⟨header,⟨records,holds.free,holds.inside⟩,fun j link => ?_⟩
    obtain rfl : content.length = j := Option.some.inj link
    exact ⟨inside,by simp⟩
  have behind (n : Nat) : page.data.Sound n content.length :=
    ⟨write.header,⟨_,write.holds (newPage_holds _)⟩,fun j link => by
      rw [write.next] at link
      cases link⟩
  have second := first.set (behind _)
  rw [List.set_append_left _ _ inside] at second
  simpa using second

end PagesOk

namespace Store

def recordSize (key value : Bytes) : Nat := recordHeaderSize + key.length + value.length

def Fits (key value : Bytes) : Prop := HeaderSize + recordSize key value ≤ PageSize

instance (key value : Bytes) : Decidable (Fits key value) := inferInstanceAs (Decidable (_ ≤ _))

structure Ok (s : Store) (content : List Block) : Prop where
  shows : s.pager.Shows content
  pages : PagesOk content
  valid : s.index.Valid
  fits : ∀ e ∈ s.index.entries, Fits e.1 e.2
  first : s.hasPages = true → s.firstPage < content.length

variable {s : Store} {content : List Block}

theorem Ok.get (ok : s.Ok content) (key : Bytes) : s.get key = s.index.entries.lookup key := ok.valid.get key

theorem Ok.reached (ok : s.Ok content) : ∃ s' content' last front records,
    Reached s s' content' last front records ∧ PagesOk content' ∧
      s' = {s with pager := s'.pager,firstPage := s'.firstPage,hasPages := true} := by
  cases pages : s.hasPages with
  | false =>
    exact ⟨_,_,_,_,_,lastPage_first ok.shows pages,ok.pages.concat,rfl⟩
  | true =>
    obtain ⟨segments,chain⟩ := ok.pages.segments (ok.first pages)
    obtain ⟨front,id,records,_,rfl,-⟩ := chain.final
    obtain ⟨block,-,reached⟩ := lastPage_chain ok.shows pages chain
    refine ⟨_,_,_,_,_,reached,ok.pages,?_⟩
    rw [← pages]

theorem versioned_eq (s : Store) (key value : Bytes) (flag : UInt8) :
    ∃ seq versions, s.versioned key value flag = {s with seq := seq,versions := versions} := ⟨_,_,rfl⟩

theorem Ok.versioned (ok : s.Ok content) (key value : Bytes) (flag : UInt8) :
    (s.versioned key value flag).Ok content :=
  ⟨ok.shows,ok.pages,ok.valid,ok.fits,ok.first⟩

end Store
end GoDb
