import GoDb.StoreOpen
import GoDb.Foundation.Walks

/-! What `validatePages` establishes about a page file. It checks every page by itself:
its number, the bounds of its free offset and of its link, and that the records from
the header on can be read up to the free offset. It does not see that links lead back to
a page, nor that the last record reaches past the free offset. -/
namespace GoDb
open Foundation Outcome

def NoPage : Nat := 2^32 - 1

/-- The bytes of a page; those from 10 to 16 are reserved. -/
def Block.ofBytes (data : Bytes) (size : data.length = PageSize) : Block where
  id := LittleEndian.read (data.take 4)
  free := LittleEndian.read ((data.drop 4).take 2)
  next :=
    let next := LittleEndian.read ((data.drop 6).take 4)
    if next = NoPage then none else some next
  body := data.drop HeaderSize
  size := by rw [List.length_drop,size]

variable {id : Nat} {block : Block} {p : Page}

theorem length_page {file : Bytes} (inside : id < file.length / PageSize % 2^32) :
    ((file.drop (id * PageSize)).take PageSize).length = PageSize := by
  have fewer : id < file.length / PageSize := Nat.lt_of_lt_of_le inside (Nat.mod_le _ _)
  have bound := Nat.mul_le_of_le_div _ _ _ (Nat.succ_le_of_lt fewer)
  rw [List.length_take,List.length_drop]
  unfold PageSize at *
  omega

/-- The pages of a file. Their number is a `uint32`; `storage.Open` refuses a file that ends inside a page. -/
def filePages (file : Bytes) : List Block :=
  (List.finRange (file.length / PageSize % 2^32)).map fun id : Fin _ =>
    Block.ofBytes ((file.drop (id * PageSize)).take PageSize) (length_page id.isLt)

namespace Store

variable {s : Store} {content : List Block}

theorem validatePage_accepted (shows : s.pager.Shows content) (here : content[id]? = some block) {s' : Store}
    (ok : (validatePage content.length id).exec s = (.ok (),s')) : block.Accepted content.length id := by
  obtain ⟨read,-⟩ := readPage_exec shows here
  unfold validatePage at ok
  rw [exec_bind_ok read] at ok
  by_cases header : block.id ≠ id
  · rw [if_pos header] at ok
    cases ok
  rw [if_neg header] at ok
  dsimp only at ok
  by_cases free : Page.freeOffset ⟨id,block⟩ < HeaderSize ∨ PageSize < Page.freeOffset ⟨id,block⟩
  · rw [if_pos free] at ok
    cases ok
  rw [if_neg free] at ok
  have bounds : HeaderSize ≤ block.free ∧ block.free ≤ PageSize := by
    unfold Page.freeOffset at free
    dsimp only at free
    omega
  have linked : ∀ j, block.next = some j → j < content.length := by
    intro j link
    simp only [Page.nextPageID,link] at ok
    by_contra outside
    rw [if_pos (Nat.not_lt.mp outside)] at ok
    cases ok
  refine ⟨not_not.mp header,bounds,linked,?_⟩
  cases found : (Page.mk id block).records.2 with
  | none => rfl
  | some e =>
    rw [found] at ok
    cases link : block.next with
    | none =>
      simp only [Page.nextPageID,link] at ok
      cases ok
    | some j =>
      simp only [Page.nextPageID,link,if_neg (Nat.not_le.mpr (linked j link))] at ok
      cases ok

theorem validateFrom_accepted (shows : s.pager.Shows content) {ids : List Nat}
    (inside : ∀ id ∈ ids, id < content.length) {s' : Store} (ok : (validateFrom content.length ids).exec s = (.ok (),s')) :
    ∀ id ∈ ids, ∀ block, content[id]? = some block → block.Accepted content.length id := by
  induction ids generalizing s with
  | nil => exact List.forall_mem_nil _
  | cons id ids ih =>
    have here := List.getElem?_eq_getElem (inside id List.mem_cons_self)
    obtain ⟨_,mid,first,rest⟩ := bind_success ok
    have accepted := validatePage_accepted shows here first
    obtain ⟨-,rfl⟩ := Prod.mk.inj (first.symm.trans (validatePage_exec shows here accepted))
    rw [List.forall_mem_cons]
    constructor
    · intro block there
      exact Option.some.inj (here.symm.trans there) ▸ accepted
    · exact ih (readPage_exec shows here).2 (fun j member => inside j (List.mem_cons_of_mem _ member)) rest

theorem validatePages_iff (shows : s.pager.Shows content) :
    (validatePages.exec s).1 = .ok () ↔ AllAccepted content := by
  constructor
  · intro accepted id block here
    have ok : validatePages.exec s = (.ok (),(validatePages.exec s).2) := Prod.ext accepted rfl
    unfold validatePages at ok
    rw [exec_bind_ok (exec_get s),shows.pages] at ok
    have bound : id < content.length := (List.getElem?_eq_some_iff.mp here).1
    exact validateFrom_accepted shows (fun id member => List.mem_range.mp member) ok id (List.mem_range.mpr bound)
      block here
  · intro accepted
    rw [validatePages_exec shows accepted]

def link (content : List Block) (id : Nat) : Option Nat := content[id]?.bind Block.next

/-- How a loop along the links ends that may make so many turns. -/
def outcome (content : List Block) (turns id : Nat) : Except Error Unit :=
  if Walks.after (link content) turns id = none then .ok () else .error .diverges

theorem outcome_last (here : content[id]? = some block) (final : block.next = none) (turns : Nat) :
    outcome content (turns + 1) id = .ok () := by
  have ended : link content id = none := by rw [link,here,Option.bind_some,final]
  rw [outcome,Walks.after,ended,Option.bind_none,if_pos rfl]

theorem outcome_link {j : Nat} (here : content[id]? = some block) (linked : block.next = some j) (turns : Nat) :
    outcome content (turns + 1) id = outcome content turns j := by
  have step : link content id = some j := by rw [link,here,Option.bind_some,linked]
  rw [outcome,Walks.after,step,Option.bind_some,outcome]

theorem eachRecord_keeps {visit : Record → StoreM Unit}
    (visits : ∀ s r, ∃ s', (visit r).exec s = (.ok (),s') ∧ s'.pager = s.pager) (s : Store) (records : List Record) :
    ∃ s', (eachRecord visit records).exec s = (.ok (),s') ∧ s'.pager = s.pager := by
  induction records generalizing s with
  | nil => exact ⟨s,rfl,rfl⟩
  | cons r records ih =>
    obtain ⟨mid,visited,same⟩ := visits s r
    obtain ⟨s',rest,kept⟩ := ih mid
    refine ⟨s',?_,kept.trans same⟩
    unfold eachRecord
    rw [exec_bind_ok visited,rest]

theorem rebuildFrom_outcome {visit : Record → StoreM Unit}
    (visits : ∀ s r, ∃ s', (visit r).exec s = (.ok (),s') ∧ s'.pager = s.pager) (accepted : AllAccepted content)
    (shows : s.pager.Shows content) (inside : id < content.length) (turns : Nat) :
    ((rebuildFrom visit turns id).exec s).1 = outcome content turns id := by
  induction turns generalizing s id with
  | zero => rfl
  | succ turns ih =>
    have here := List.getElem?_eq_getElem inside
    have checked := accepted id _ here
    obtain ⟨read,shown⟩ := readPage_exec shows here
    obtain ⟨mid,visited,same⟩ := eachRecord_keeps visits {s with pager := s.pager.reads [id]}
      (Page.mk id content[id]).records.1
    unfold rebuildFrom
    rw [exec_bind_ok read,exec_bind_ok visited,checked.records]
    cases linked : content[id].next with
    | none =>
      simp only [Page.nextPageID,linked]
      exact (outcome_last here linked turns).symm
    | some j =>
      simp only [Page.nextPageID,linked]
      rw [outcome_link here linked]
      exact ih (same ▸ shown) (checked.next j linked)

theorem followChain_outcome (accepted : AllAccepted content) (shows : s.pager.Shows content)
    (here : content[id]? = some block) (turns : Nat) :
    ((followChain turns ⟨id,block⟩).exec s).1.map (fun _ => ()) = outcome content turns id := by
  induction turns generalizing s id block with
  | zero => rfl
  | succ turns ih =>
    unfold followChain
    cases linked : block.next with
    | none =>
      simp only [Page.nextPageID,linked]
      exact (outcome_last here linked turns).symm
    | some j =>
      have there := List.getElem?_eq_getElem ((accepted id block here).next j linked)
      obtain ⟨read,shown⟩ := readPage_exec shows there
      simp only [Page.nextPageID,linked]
      rw [outcome_link here linked,exec_bind_ok read]
      exact ih shown there

def indexRecord (r : Record) : StoreM Unit := do
  if r.flag = flagTombstone then indexDelete r.key else indexPut r.key r.value
  addVersion r.key r.value r.flag

/-- The loops along the page chain. -/
inductive Loop
  | rebuildIndex
  | rebuildVersions
  | lastPage

/-- A loop from the first page on, cut off after a number of turns. -/
def Loop.run (turns : Nat) : Loop → StoreM Unit
  | .rebuildIndex => do
    let s ← MonadState.get
    rebuildFrom indexRecord turns s.firstPage
  | .rebuildVersions => do
    let s ← MonadState.get
    rebuildFrom (fun r => addVersion r.key r.value r.flag) turns s.firstPage
  | .lastPage => do
    let s ← MonadState.get
    let page ← onPager (·.readPage s.firstPage)
    let _ ← followChain turns page
    pure ()

/-- The function of a loop, with the turns it has in the model. -/
def Loop.call : Loop → StoreM Unit
  | .rebuildIndex => Store.rebuildIndex
  | .rebuildVersions => Store.rebuildVersions
  | .lastPage => do
    let _ ← Store.lastPage
    pure ()

theorem Loop.call_eq (pages : s.hasPages = true) (loop : Loop) :
    (loop.call.exec s).1 = ((loop.run (s.pager.numPages + 1)).exec s).1 := by
  cases loop with
  | rebuildIndex | rebuildVersions =>
    unfold call run
    rw [exec_bind_ok (exec_get s)]
    exact congrArg Prod.fst (exec_bind_ok (exec_get s))
  | lastPage =>
    unfold call run Store.lastPage
    rw [answer_bind_pure,exec_bind_ok (exec_get s),exec_bind_ok (exec_get s),if_pos pages]
    rcases read : (onPager (·.readPage s.firstPage)).exec s with ⟨e | page,s'⟩
    · rw [exec_bind_error read,exec_bind_error read]
      rfl
    · rw [exec_bind_ok read,exec_bind_ok read,answer_bind_pure]

theorem Loop.run_outcome (accepted : AllAccepted content) (shows : s.pager.Shows content)
    (inside : s.firstPage < content.length) (turns : Nat) (loop : Loop) :
    ((loop.run turns).exec s).1 = outcome content turns s.firstPage := by
  cases loop with
  | rebuildIndex =>
    refine rebuildFrom_outcome (fun s r => ?_) accepted shows inside turns
    unfold indexRecord
    by_cases tombstone : r.flag = flagTombstone
    · rw [if_pos tombstone]
      exact ⟨_,rfl,rfl⟩
    · rw [if_neg tombstone]
      exact ⟨_,rfl,rfl⟩
  | rebuildVersions =>
    exact rebuildFrom_outcome (fun s r => ⟨s.versioned r.key r.value r.flag,rfl,rfl⟩) accepted shows inside turns
  | lastPage =>
    have here := List.getElem?_eq_getElem inside
    obtain ⟨read,shown⟩ := readPage_exec shows here
    unfold run
    rw [exec_bind_ok (exec_get s),exec_bind_ok read,answer_bind_pure]
    exact followChain_outcome accepted shown here turns

theorem Loop.run_cycle (accepted : AllAccepted content) (shows : s.pager.Shows content)
    (back : link content s.firstPage = some s.firstPage) (turns : Nat) (loop : Loop) :
    ((loop.run turns).exec s).1 = .error .diverges := by
  obtain ⟨block,here,-⟩ := Option.bind_eq_some_iff.mp back
  have stays : Walks.after (link content) turns s.firstPage = some s.firstPage := by
    induction turns with
    | zero => rfl
    | succ turns ih => rw [Walks.after,back,Option.bind_some,ih]
  rw [loop.run_outcome accepted shows (List.getElem?_eq_some_iff.mp here).1,outcome,stays]
  rfl

theorem ends_iff (accepted : AllAccepted content) (some : content ≠ []) :
    Walks.Ends (link content) 0 ↔ Walks.after (link content) content.length 0 = none := by
  have closed : ∀ id ∈ Finset.range content.length, ∀ j, link content id = .some j → j ∈ Finset.range content.length := by
    intro id _ j linked
    obtain ⟨block,here,next⟩ := Option.bind_eq_some_iff.mp linked
    exact Finset.mem_range.mpr ((accepted id block here).next j next)
  have start : 0 ∈ Finset.range content.length := Finset.mem_range.mpr (List.length_pos_of_ne_nil some)
  rw [Walks.ends_within closed start,Finset.card_range]

/-- On a file that passes the checks no loop along the chain meets an error, and each ends exactly when the links
from page 0 on reach a page without one. The turns of the model are then enough. -/
theorem chain_loops_end_iff (file : Bytes) {s : Store} (shows : s.pager.Shows (filePages file))
    (some : filePages file ≠ []) (first : s.firstPage = 0 ∧ s.hasPages = true)
    (accepted : (validatePages.exec s).1 = .ok ()) (loop : Loop) :
    ((∃ turns, ((loop.run turns).exec s).1 = .ok ()) ↔ Walks.Ends (link (filePages file)) 0) ∧
      ((loop.call.exec s).1 = .ok () ↔ Walks.Ends (link (filePages file)) 0) ∧
      (∀ turns e, ((loop.run turns).exec s).1 = .error e → e = .diverges) ∧
      ∀ id block, (filePages file)[id]? = .some block → (Page.mk id block).records.2 = none := by
  have checked := (validatePages_iff shows).mp accepted
  have result : ∀ turns, ((loop.run turns).exec s).1 = outcome (filePages file) turns 0 := by
    intro turns
    rw [loop.run_outcome checked shows (first.1 ▸ List.length_pos_of_ne_nil some),first.1]
  have ok : ∀ turns, ((loop.run turns).exec s).1 = .ok () ↔ Walks.after (link (filePages file)) turns 0 = none := by
    intro turns
    rw [result,outcome]
    by_cases ended : Walks.after (link (filePages file)) turns 0 = none
    · simp [ended]
    · simp [ended]
  refine ⟨exists_congr ok,?_,?_,?_⟩
  · rw [loop.call_eq first.2,ok,shows.pages]
    constructor
    · intro ended
      exact ⟨_,ended⟩
    · intro ends
      exact Walks.after_later ((ends_iff checked some).mp ends) (Nat.le_succ _)
  · intro turns e failed
    rw [result,outcome] at failed
    split at failed
    · cases failed
    · cases failed
      rfl
  · intro id block here
    exact (checked id block here).records

end Store

def Sample.pageBytes (id free next : Nat) : Bytes :=
  LittleEndian.put 4 id ++ LittleEndian.put 2 free ++ LittleEndian.put 4 next ++ List.replicate 6 0 ++ blank

/-- The store of a file before `Open` rebuilds from its pages. -/
def Sample.paged (file : Bytes) : Store := {Store.fresh ⟨filePages file,[],none⟩ with hasPages := true}

theorem Sample.paged_shows (file : Bytes) : (paged file).pager.Shows (filePages file) := Pager.open_shows (filePages file)

namespace Store
open Sample

theorem chain_loops_end_linked :
    (validatePages.exec (paged (pageBytes 0 16 1 ++ pageBytes 1 16 NoPage))).1 = .ok () ∧
      ∀ loop : Loop, (loop.call.exec (paged (pageBytes 0 16 1 ++ pageBytes 1 16 NoPage))).1 = .ok () := by
  have accepted : (validatePages.exec (paged (pageBytes 0 16 1 ++ pageBytes 1 16 NoPage))).1 = .ok () := by
    decide +kernel
  refine ⟨accepted,fun loop => ?_⟩
  apply (chain_loops_end_iff _ (paged_shows _) (by decide +kernel) ⟨rfl,rfl⟩ accepted loop).2.1.mpr
  exact ⟨2,by decide +kernel⟩

theorem chain_loops_end_cycle :
    (validatePages.exec (paged (pageBytes 0 16 0))).1 = .ok () ∧
      ∀ (loop : Loop) (turns : Nat), ((loop.run turns).exec (paged (pageBytes 0 16 0))).1 = .error .diverges := by
  have accepted : (validatePages.exec (paged (pageBytes 0 16 0))).1 = .ok () := by decide +kernel
  refine ⟨accepted,fun loop turns => ?_⟩
  apply loop.run_cycle ((validatePages_iff (paged_shows _)).mp accepted) (paged_shows _)
  decide +kernel

end Store

theorem length_encodeAll (records : List Record) : (encodeAll records).length = (records.map Record.size).sum := by
  simp [encodeAll,List.length_flatMap,Record.length_encode]

def Page.recordsEnd (p : Page) : Nat := HeaderSize + (p.records.1.map Record.size).sum

/-- A record that is written is read behind those of before. -/
def Page.Appends (p : Page) : Prop :=
  ∀ key value flag p', writeRecord p key value flag = .ok p' → p'.records = (p.records.1 ++ [⟨flag,key,value⟩],none)

theorem Page.records_split (read : p.records.2 = none) : p.records = (p.records.1,none) := Prod.ext rfl read

theorem Page.holds_of_recordsEnd (read : p.records.2 = none) (ends : p.recordsEnd ≤ p.freeOffset) :
    p.data.Holds p.records.1 := by
  obtain ⟨inside,covered⟩ := Page.records_inside (Page.records_split read)
  unfold Page.recordsEnd Page.freeOffset at ends
  rw [← length_encodeAll] at ends
  exact ⟨Nat.le_antisymm covered ends,inside⟩

theorem Block.Holds.appends {records : List Record} (holds : p.data.Holds records) : p.Appends := by
  intro key value flag p' written
  by_cases full : PageSize < p.data.free + (Record.mk flag key value).size
  · rw [writeRecord_full full] at written
    cases written
  · obtain ⟨page,made,result⟩ := writeRecord_room (Nat.not_lt.mp full)
    cases made.symm.trans written
    rw [Page.records_of_holds (result.holds holds),Page.records_of_holds holds]

-- The record that is written has another byte for its flag than the one it replaces, which is part of a record.
theorem Page.recordsEnd_of_appends (header : HeaderSize ≤ p.freeOffset) (read : p.records.2 = none)
    (room : p.freeOffset + recordHeaderSize ≤ PageSize) (appends : p.Appends) : p.recordsEnd ≤ p.freeOffset := by
  by_contra past
  have size := p.data.size
  have inside : p.freeOffset - HeaderSize < p.data.body.length := by
    rw [size]
    unfold recordHeaderSize PageSize HeaderSize at *
    omega
  have covered : p.freeOffset - HeaderSize < (encodeAll p.records.1).length := by
    rw [length_encodeAll]
    unfold Page.recordsEnd at past
    omega
  let byte := p.data.body[p.freeOffset - HeaderSize]
  have fits : ¬p.remaining < (Record.mk (byte + 1) [] []).size := by
    unfold Page.remaining Record.size
    simp only [List.length_nil]
    omega
  have whole := appends [] [] (byte + 1) _ (by rw [writeRecord,if_neg fits])
  have after := (encodeAll_concat _ _ ▸ (Page.records_inside whole).1 : encodeAll p.records.1 ++ _ <+: _)
  have before := (Page.records_inside (Page.records_split read)).1
  have old := List.prefix_iff_getElem?.mp before _ covered
  have new := List.prefix_iff_getElem?.mp ((List.prefix_append _ _).trans after) _ covered
  dsimp only at new
  rw [Record.encode,ListEdits.getElem?_overwrite inside,← old,List.getElem?_eq_getElem inside] at new
  have same : byte + 1 = byte := Option.some.inj new
  simp at same

/-- The records of a page that passes the checks cover it up to the free offset, and they may reach past it. If they
do not, writing a record appends it to the others; if they do, some record changes them. -/
theorem records_tiled_iff (file : Bytes) {s : Store} (shows : s.pager.Shows (filePages file))
    (accepted : (Store.validatePages.exec s).1 = .ok ()) {page : Page} (here : (filePages file)[page.id]? = some page.data) :
    (page.recordsEnd = page.freeOffset ∧ page.Appends ↔ page.recordsEnd ≤ page.freeOffset) ∧
      (page.Appends ↔ page.recordsEnd ≤ page.freeOffset ∨ PageSize < page.freeOffset + recordHeaderSize) := by
  obtain ⟨-,free,-,read⟩ := (Store.validatePages_iff shows).mp accepted page.id page.data here
  have covered : page.freeOffset ≤ page.recordsEnd := by
    unfold Page.recordsEnd Page.freeOffset
    rw [← length_encodeAll]
    exact (Page.records_inside (Page.records_split read)).2
  have tiled : page.recordsEnd ≤ page.freeOffset → page.Appends :=
    fun ends => (Page.holds_of_recordsEnd read ends).appends
  constructor
  · constructor
    · intro both
      exact Nat.le_of_eq both.1
    · intro ends
      exact ⟨Nat.le_antisymm ends covered,tiled ends⟩
  · constructor
    · intro appends
      by_cases full : PageSize < page.freeOffset + recordHeaderSize
      · exact .inr full
      · exact .inl (Page.recordsEnd_of_appends free.1 read (Nat.not_lt.mp full) appends)
    · intro either
      rcases either with ends | full
      · exact tiled ends
      · intro key value flag p' written
        rw [writeRecord_full] at written
        · cases written
        · unfold Record.size
          exact Nat.lt_of_lt_of_le full (by unfold Page.freeOffset; omega)

namespace Sample

def firstPage (file : Bytes) : Page := ⟨0,(filePages file).headD Block.zero⟩

theorem firstPage_here (file : Bytes) (some : filePages file ≠ []) :
    (filePages file)[(firstPage file).id]? = .some (firstPage file).data := by
  unfold firstPage
  cases pages : filePages file with
  | nil => exact absurd pages some
  | cons block rest => rfl

end Sample
open Sample

theorem records_tiled_zeros :
    (Store.validatePages.exec (paged (pageBytes 0 21 NoPage))).1 = .ok () ∧
      (firstPage (pageBytes 0 21 NoPage)).recordsEnd = (firstPage (pageBytes 0 21 NoPage)).freeOffset ∧
      (firstPage (pageBytes 0 21 NoPage)).Appends := by
  have accepted : (Store.validatePages.exec (paged (pageBytes 0 21 NoPage))).1 = .ok () := by decide +kernel
  have here := firstPage_here (pageBytes 0 21 NoPage) (by decide +kernel)
  exact ⟨accepted,(records_tiled_iff _ (paged_shows _) accepted here).1.mpr (by decide +kernel)⟩

/-- A record from 16 to 21 reaches past a free offset of 17, and the next write makes one of 261 bytes of it. -/
theorem records_tiled_past :
    (Store.validatePages.exec (paged (pageBytes 0 17 NoPage))).1 = .ok () ∧
      (firstPage (pageBytes 0 17 NoPage)).freeOffset = 17 ∧
      (firstPage (pageBytes 0 17 NoPage)).records = ([⟨flagLive,[],[]⟩],none) ∧
      (writeRecord (firstPage (pageBytes 0 17 NoPage)) [107] [] flagLive).toOption.map
        (fun page => page.records.1.map Record.size) = some [261] :=
  ⟨by decide +kernel,by decide +kernel,by decide +kernel,by decide +kernel⟩

end GoDb
