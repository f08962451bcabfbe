import GoDb.StoreMeaning

/-! Opening a store: the stages of `Open` on files whose pages are in order, and what
they give when the store was closed before. -/
namespace GoDb
open Foundation Outcome SortedEntries

/-- The page with this number passes the checks of `validatePages`. -/
structure Block.Accepted (numPages id : Nat) (block : Block) : Prop where
  header : block.id = id
  free : HeaderSize ≤ block.free ∧ block.free ≤ PageSize
  next : ∀ j, block.next = some j → j < numPages
  records : (Page.mk id block).records.2 = none

def AllAccepted (content : List Block) : Prop :=
  ∀ (id : Nat) (block : Block), content[id]? = some block → block.Accepted content.length id

theorem PagesOk.accepted {content : List Block} (pages : PagesOk content) : AllAccepted content := by
  intro id block here
  obtain ⟨header,⟨records,holds⟩,next⟩ := pages id block here
  exact ⟨header,holds.free_le,fun j link => (next j link).2,
    congrArg Prod.snd (Page.records_of_holds (p := ⟨id,block⟩) holds)⟩

variable {segments : List (Nat × List Record)} {entries : List BTree.Entry}

namespace Store

variable {s : Store} {content : List Block}

theorem wrap_ok {context : Error → Error} {x : StoreM Unit} {s' : Store} (ok : x.exec s = (.ok (),s')) :
    (wrap context x).exec s = (.ok (),s') := by
  unfold wrap
  rw [exec_tryCatch,ok]

theorem wrap_error {context : Error → Error} {x : StoreM Unit} {e : Error} {s' : Store}
    (failed : x.exec s = (.error e,s')) : (wrap context x).exec s = (.error (context e),s') := by
  unfold wrap
  rw [exec_tryCatch,failed]
  rfl

theorem validatePage_exec (shows : s.pager.Shows content) {id : Nat} {block : Block}
    (here : content[id]? = some block) (accepted : block.Accepted content.length id) :
    (validatePage content.length id).exec s = (.ok (),{s with pager := s.pager.reads [id]}) := by
  obtain ⟨header,free,next,records⟩ := accepted
  obtain ⟨read,-⟩ := readPage_exec shows here
  have bounds : ¬(Page.freeOffset ⟨id,block⟩ < HeaderSize ∨ PageSize < Page.freeOffset ⟨id,block⟩) := by
    unfold Page.freeOffset
    dsimp only
    omega
  unfold validatePage
  rw [exec_bind_ok read,if_neg (not_not.mpr header)]
  dsimp only
  rw [if_neg bounds,records]
  cases link : block.next with
  | none => simp only [Page.nextPageID,link]; rfl
  | some j =>
    have inside := next j link
    simp only [Page.nextPageID,link]
    rw [if_neg (by omega)]
    rfl

theorem validateFrom_exec (shows : s.pager.Shows content) (accepted : AllAccepted content) (ids : List Nat)
    (inside : ∀ id ∈ ids, id < content.length) :
    (validateFrom content.length ids).exec s = (.ok (),{s with pager := s.pager.reads ids}) := by
  induction ids generalizing s with
  | nil => rfl
  | cons id ids ih =>
    have bound := inside id List.mem_cons_self
    have here : content[id]? = some content[id] := List.getElem?_eq_getElem bound
    have first := validatePage_exec shows here (accepted id _ here)
    have shown := (readPage_exec shows here).2
    unfold validateFrom
    rw [exec_bind_ok first,ih shown (fun j member => inside j (List.mem_cons_of_mem _ member))]
    rfl

theorem validatePages_exec (shows : s.pager.Shows content) (accepted : AllAccepted content) :
    validatePages.exec s = (.ok (),{s with pager := s.pager.reads (List.range content.length)}) := by
  unfold validatePages
  rw [exec_bind_ok (exec_get s),shows.pages]
  exact validateFrom_exec shows accepted _ (fun id member => List.mem_range.mp member)

def recorded (s : Store) (records : List Record) : Store :=
  records.foldl (fun s r => s.versioned r.key r.value r.flag) s

theorem recorded_eq (s : Store) (records : List Record) :
    ∃ seq versions, s.recorded records = {s with seq := seq,versions := versions} := by
  induction records generalizing s with
  | nil => exact ⟨_,_,rfl⟩
  | cons r records ih =>
    obtain ⟨seq,versions,same⟩ := ih (s.versioned r.key r.value r.flag)
    exact ⟨seq,versions,same⟩

section rebuild

variable {visit : Record → StoreM Unit} {next : Store → Record → Store}
  (visits : ∀ s r, (visit r).exec s = (.ok (),next s r))
  (apart : ∀ (s : Store) (p : Pager) r, next {s with pager := p} r = {next s r with pager := p})

include visits in
private theorem eachRecord_exec (s : Store) (records : List Record) :
    (eachRecord visit records).exec s = (.ok (),records.foldl next s) := by
  induction records generalizing s with
  | nil => rfl
  | cons r records ih =>
    unfold eachRecord
    rw [exec_bind_ok (visits s r),ih]
    rfl

include apart in
private theorem foldl_apart (s : Store) (p : Pager) (records : List Record) :
    records.foldl next {s with pager := p} = {records.foldl next s with pager := p} := by
  induction records generalizing s with
  | nil => rfl
  | cons r records ih => rw [List.foldl_cons,List.foldl_cons,apart,ih]

include visits apart in
theorem rebuildFrom_exec {first : Nat} (fuel : Nat) (chain : Segments content first segments)
    (shows : s.pager.Shows content) (enough : segments.length ≤ fuel) :
    (rebuildFrom visit fuel first).exec s =
      (.ok (),{(segments.flatMap Prod.snd).foldl next s with pager := s.pager.reads (segments.map Prod.fst)}) := by
  induction chain generalizing s fuel with
  | @last id block records here final holds =>
    obtain ⟨fuel,rfl⟩ := Nat.exists_eq_succ_of_ne_zero (Nat.ne_of_gt enough)
    obtain ⟨read,-⟩ := readPage_exec shows here
    unfold rebuildFrom
    rw [exec_bind_ok read,Page.records_of_holds holds,exec_bind_ok (eachRecord_exec visits _ records),
      foldl_apart apart,List.flatMap_singleton]
    simp only [Page.nextPageID,final]
    rfl
  | @link id next' block records rest here linked later holds tail ih =>
    obtain ⟨fuel,rfl⟩ := Nat.exists_eq_succ_of_ne_zero (Nat.ne_of_gt (Nat.lt_of_lt_of_le (Nat.succ_pos _) enough))
    obtain ⟨read,shown⟩ := readPage_exec shows here
    have rebuilt := ih fuel (s := {records.foldl next s with pager := s.pager.reads [id]}) shown
      (Nat.le_of_succ_le_succ enough)
    unfold rebuildFrom
    rw [exec_bind_ok read,Page.records_of_holds holds,exec_bind_ok (eachRecord_exec visits _ records),
      foldl_apart apart]
    simp only [Page.nextPageID,linked]
    rw [rebuilt,foldl_apart apart,List.flatMap_cons,List.foldl_append]
    rfl

include visits apart in
theorem rebuild_exec (chain : Segments content s.firstPage segments) (shows : s.pager.Shows content) :
    (rebuild visit).exec s =
      (.ok (),{(segments.flatMap Prod.snd).foldl next s with pager := s.pager.reads (segments.map Prod.fst)}) := by
  have short := chain.length_le
  unfold rebuild
  rw [exec_bind_ok (exec_get s)]
  exact rebuildFrom_exec visits apart _ chain shows (by rw [shows.pages]; omega)

end rebuild

theorem rebuildVersions_exec (chain : Segments content s.firstPage segments) (shows : s.pager.Shows content) :
    rebuildVersions.exec s =
      (.ok (),{s.recorded (segments.flatMap Prod.snd) with pager := s.pager.reads (segments.map Prod.fst)}) :=
  rebuild_exec (fun _ _ => rfl) (fun _ _ _ => rfl) chain shows

theorem replay_nil (apply : UInt8 → Bytes → Bytes → StoreM Unit) (s : Store) :
    (Wal.replay apply []).exec s = (.ok (),s) := rfl

def checked (i : Image) : Store :=
  {fresh i with pager := (Pager.open i.pages).reads (List.range i.pages.length)}

def loaded (i : Image) (entries : List BTree.Entry) : Store :=
  {checked i with index := BTree.Tree.putAll {} entries}

theorem loaded_ok {i : Image} (pages : PagesOk i.pages) (sorted : Increasing entries)
    (fits : ∀ e ∈ entries, Fits e.1 e.2) :
    (loaded i entries).Ok i.pages ∧ (loaded i entries).index.entries = entries := by
  obtain ⟨valid,same⟩ := BTree.putAll_increasing 0 entries sorted
  refine ⟨⟨(Pager.open_shows i.pages).reads _ fun id => List.mem_range.mp,pages,valid,?_,fun empty => nomatch empty⟩,
    same⟩
  change ∀ e ∈ (BTree.Tree.putAll {} entries).entries, _
  rw [same]
  exact fits

/-- `Open` when there is an index file, given what the replay of the log does. The versions come from the
records of the chain that is known by then. -/
theorem recover_recorded {blocks : List Block} {wal : Bytes} {records : List Record} (pages : PagesOk blocks)
    (replayed : (Wal.replay (fun op key value => append key value (replayFlag op)) wal).exec
      (loaded ⟨blocks,wal,some entries⟩ entries) = (.ok (),s)) (shows : s.pager.Shows content)
    (chain : content ≠ [] → ∃ segments, Segments content s.firstPage segments ∧ segments.flatMap Prod.snd = records)
    (none : content = [] → records = []) :
    ∃ p, recover.exec (fresh ⟨blocks,wal,some entries⟩) = (.ok (),{s.recorded records with pager := p}) ∧
      p.Shows content := by
  have validated : (wrap .validateDatabase validatePages).exec (fresh ⟨blocks,wal,some entries⟩) =
      (.ok (),checked ⟨blocks,wal,some entries⟩) :=
    wrap_ok (validatePages_exec (Pager.open_shows blocks) pages.accepted)
  have found : loadIndex.exec (checked ⟨blocks,wal,some entries⟩) =
      (.ok true,loaded ⟨blocks,wal,some entries⟩ entries) := rfl
  have recovered : (wrap .walRecovery (Wal.replay (fun op key value => append key value (replayFlag op))
      (loaded ⟨blocks,wal,some entries⟩ entries).wal)).exec (loaded ⟨blocks,wal,some entries⟩ entries) = (.ok (),s) :=
    wrap_ok replayed
  unfold recover
  rw [exec_bind_ok validated,exec_bind_ok found,exec_bind_ok (exec_get _),exec_bind_ok recovered,
    exec_bind_ok (exec_get s),shows.pages]
  by_cases empty : content = []
  · obtain rfl := none empty
    refine ⟨s.pager,?_,shows⟩
    rw [if_neg (by simp [empty])]
    rfl
  · obtain ⟨segments,linked,rfl⟩ := chain empty
    refine ⟨_,?_,shows.reads _ linked.inside⟩
    rw [if_pos (List.length_pos_iff.mpr empty),if_pos rfl,exec_bind_ok (rebuildVersions_exec linked shows)]
    rfl

theorem recover_loaded {blocks : List Block} {wal : Bytes} (pages : PagesOk blocks)
    (replayed : (Wal.replay (fun op key value => append key value (replayFlag op)) wal).exec
      (loaded ⟨blocks,wal,some entries⟩ entries) = (.ok (),s)) (shows : s.pager.Shows content)
    (after : PagesOk content) (first : 0 < content.length → s.firstPage < content.length) :
    ∃ p seq versions, recover.exec (fresh ⟨blocks,wal,some entries⟩) =
        (.ok (),{s with pager := p,seq := seq,versions := versions}) ∧ p.Shows content := by
  obtain ⟨records,chain,none⟩ : ∃ records, (content ≠ [] → ∃ segments, Segments content s.firstPage segments ∧
      segments.flatMap Prod.snd = records) ∧ (content = [] → records = []) := by
    by_cases empty : content = []
    · exact ⟨[],fun some => absurd empty some,fun _ => rfl⟩
    · obtain ⟨segments,linked⟩ := after.segments (first (List.length_pos_iff.mpr empty))
      exact ⟨_,fun _ => ⟨segments,linked,rfl⟩,fun none => absurd none empty⟩
  obtain ⟨p,recovered,shown⟩ := recover_recorded pages replayed shows chain none
  obtain ⟨seq,versions,same⟩ := recorded_eq s records
  refine ⟨p,seq,versions,?_,shown⟩
  rw [recovered,same]

theorem open_of_recover {i : Image} (ok : recover.exec (fresh i) = (.ok (),s)) : Store.open i = (.ok s,s.image) := by
  unfold Store.open
  rw [ok]

theorem open_clean (pages : PagesOk content) (sorted : Increasing entries) (fits : ∀ e ∈ entries, Fits e.1 e.2) :
    ∃ s, Store.open ⟨content,[],some entries⟩ = (.ok s,s.image) ∧ s.Ok content ∧
      s.index.entries = entries ∧ s.activeSnapshots = 0 := by
  obtain ⟨ok,same⟩ := loaded_ok (i := ⟨content,[],some entries⟩) pages sorted fits
  obtain ⟨p,seq,versions,recovered,shown⟩ := recover_loaded pages (replay_nil _ _) ok.shows pages (fun some => some)
  exact ⟨_,open_of_recover recovered,⟨shown,pages,ok.valid,ok.fits,ok.first⟩,same,rfl⟩

/-- The store that `Open` makes on a path where there is nothing. -/
def created : Store := {fresh ⟨[],[],none⟩ with indexFile := some []}

theorem open_empty : Store.open ⟨[],[],none⟩ = (.ok created,created.image) := rfl

theorem created_ok : created.Ok [] :=
  ⟨Pager.open_shows [],PagesOk.nil,BTree.valid_nil 0,fun _ member => (nomatch member),fun empty => nomatch empty⟩

end Store
end GoDb
