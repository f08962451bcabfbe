import GoDb.Recovery
import GoDb.StoreFrame
import GoDb.StoreLog

/-! Opening a store with and without its index file. With it, the log is replayed on the
saved entries. Without it, the log is replayed on nothing, onto pages behind those of the
file, and then the records from page 0 on are put into the index on top of that. -/
namespace GoDb.Store
open Foundation Outcome Runs Layout

def Held (s : Store) : Prop := s.pager.Bounded ∧ ∃ content, s.pager.Shows content

def Still (s s' : Store) : Prop :=
  s.Held → s'.Held ∧ s.pager.numPages ≤ s'.pager.numPages ∧ (s'.pager.numPages ≤ 64 → s'.pager.file = s.pager.file)

theorem still : Frame Still where
  refl s held := ⟨held,Nat.le_refl _,fun _ => rfl⟩
  trans first second held := by
    obtain ⟨middle,grows,same⟩ := first held
    obtain ⟨last,grows',same'⟩ := second middle
    exact ⟨last,grows.trans grows',fun few => (same' few).trans (same (grows'.trans few))⟩

variable {s : Store} {content : List Block} {records : List Record}

private theorem still_used {p' : Pager} {content' : List Block} {id : Nat} (shows : s.pager.Shows content)
    (used : Pager.Used s.pager p' id) (shown : p'.Shows content') (grows : content.length ≤ content'.length)
    (here : id < content'.length) : s.Still {s with pager := p'} := by
  intro _
  refine ⟨⟨used.bounded,content',shown⟩,?_,fun few => ?_⟩
  · rw [shows.pages]
    exact grows.trans_eq shown.pages.symm
  · exact used.still shows grows here (shown.pages ▸ few)

theorem readPage_still (id : Nat) : Proc.Keeps Still (onPager (·.readPage id)) := by
  rintro s ⟨bounded,content,shows⟩
  by_cases inside : id < content.length
  · obtain ⟨p',read,shown⟩ := shows.readPage (List.getElem?_eq_getElem inside)
    have used := (Pager.readPage_used bounded shows inside).1
    rw [exec_onPager]
    rw [read] at used ⊢
    exact still_used shows used shown (Nat.le_refl _) inside ⟨bounded,content,shows⟩
  · have refused : s.pager.readPage id = (.error (.noSuchPage id s.pager.numPages),s.pager) := by
      unfold Pager.readPage
      rw [if_pos (by rw [shows.pages]; omega)]
    rw [exec_onPager,refused]
    exact still.refl s ⟨bounded,content,shows⟩

theorem writePage_still (page : Page) : Proc.Keeps Still (onPager (·.writePage page)) := by
  rintro s ⟨bounded,content,shows⟩
  by_cases inside : page.id < content.length
  · obtain ⟨p',done,shown⟩ := shows.writePage inside
    have used := Pager.writePage_used bounded shows inside
    rw [exec_onPager]
    rw [done] at used ⊢
    exact still_used shows used shown (by simp) (by simpa using inside) ⟨bounded,content,shows⟩
  · have refused : s.pager.writePage page = (.error (.noSuchPage page.id s.pager.numPages),s.pager) := by
      unfold Pager.writePage
      rw [if_pos (by rw [shows.pages]; omega)]
    rw [exec_onPager,refused]
    exact still.refl s ⟨bounded,content,shows⟩

theorem allocatePage_still : Proc.Keeps Still (onPager (·.allocatePage)) := by
  rintro s ⟨bounded,content,shows⟩
  obtain ⟨p',made,shown⟩ := shows.allocatePage
  have used := Pager.allocatePage_used bounded shows
  rw [exec_onPager]
  rw [made] at used ⊢
  exact still_used shows used shown (by simp) (by simp) ⟨bounded,content,shows⟩

theorem pageStill : PageFrame Still where
  frame := still
  readPage := readPage_still
  writePage := writePage_still
  allocatePage := allocatePage_still
  addVersion _ _ _ _ held := ⟨held,Nat.le_refl _,fun _ => rfl⟩
  memory {s s'} same _ _ _ held := by
    rw [Held,same]
    exact still.refl s held

theorem Call.run_held (call : Call) (held : s.Held) (fits : ∀ e ∈ s.index.entries, Fits e.1 e.2) :
    (call.run s).2.Held := by
  have logged : ∀ f, Proc.Keeps Still (onWal f) := fun f s held => still.refl s held
  cases call with
  | put key value => exact (pageStill.steps.put logged key value s held).1
  | delete key => exact (pageStill.steps.delete logged key s held).1
  | applyBatch id ops => exact (pageStill.steps.applyBatch logged id ops s held).1
  | flush =>
    obtain ⟨bounded,content,shows⟩ := held
    obtain ⟨done,shown,-⟩ := flush_flushed shows
    change (Store.flush.exec s).2.Held
    rw [done]
    exact ⟨bounded.flush,content,shown⟩
  | compact =>
    change (Store.compact.exec s).2.Held
    rcases Nat.eq_zero_or_pos s.activeSnapshots with idle | active
    · obtain ⟨content,done,-⟩ := compact_compacted fits idle
      rw [done]
      exact ⟨Pager.open_bounded content,content,Pager.open_shows content⟩
    · rw [compact_active active]
      exact held
  | beginSnapshot | releaseSnapshot => exact held

theorem session_held (calls : List Call) :
    (∃ records, (after Call.run calls created).InStep records) ∧ (after Call.run calls created).Held :=
  after_invariant (fun s => (∃ records, s.InStep records) ∧ s.Held) (fun _ => True)
    (fun _ call ⟨⟨_,inStep⟩,held⟩ _ => ⟨inStep.run call,call.run_held held inStep.fits⟩) calls created
    ⟨⟨[],created_inStep⟩,Pager.open_bounded [],[],Pager.open_shows []⟩ (fun _ _ => trivial)

/-- The store has done these writes, all of which succeeded, since it was in a state whose log was empty. -/
structure Since (start s : Store) (ops : List Op) : Prop where
  holds : ∃ c, s.Holds c ∧ ∀ key, c.entries.lookup key = effects start.get (writes ops) key
  fits : ∀ op ∈ writes ops, Fits op.key op.value
  wal : s.wal = ops.flatMap Op.logged
  saved : s.indexFile = some s.index.entries
  still : start.Still s

private theorem applyOps_since {c : Contents} (holds : s.Holds c) {ops : List BatchOp}
    (fits : ∀ op ∈ ops, Fits op.key op.value) :
    ∃ s', (applyOps ops).exec s = (.ok (),s') ∧ s'.Holds (ops.foldl Contents.apply c) := by
  induction ops generalizing s c with
  | nil => exact ⟨s,rfl,holds⟩
  | cons op ops ih =>
    obtain ⟨fit,others⟩ := List.forall_mem_cons.mp fits
    obtain ⟨s₁,done,-,-,held⟩ := append_told holds op fit
    obtain ⟨s',rest,final⟩ := ih held others
    exact ⟨s',by rw [applyOps_cons done,rest],final⟩

theorem Since.step {start : Store} {ops : List Op} {op : Op} (since : Since start s ops) (write : op.isWrite = true)
    (done : (op.run s).1 = .ok ()) : Since start (op.run s).2 (ops ++ [op]) := by
  obtain ⟨c,holds,entries⟩ := since.holds
  obtain ⟨fits,ran⟩ := op.run_eq holds write done
  obtain ⟨s',applied,final⟩ := applyOps_since (holds.files (s.wal ++ op.logged) s.indexFile) fits
  have kept := pageStill.steps.applyOps op.written {s with wal := s.wal ++ op.logged}
  have wal := sameWal.steps.applyOps op.written {s with wal := s.wal ++ op.logged}
  rw [applied] at kept wal
  rw [ran,exec_bind_ok applied]
  refine ⟨⟨_,final.files _ _,fun key => ?_⟩,?_,?_,rfl,Store.still.trans since.still kept⟩
  · rw [Contents.lookup_foldl_apply,funext entries,writes_concat,effects,effects,effects,List.foldl_append]
  · rw [writes_concat]
    exact List.forall_mem_append.mpr ⟨since.fits,fits⟩
  · rw [List.flatMap_append,List.flatMap_singleton,← since.wal]
    exact wal

theorem recover_rebuilt {blocks : List Block} {wal : Bytes} (pages : PagesOk blocks)
    (replayed : (Wal.replay (fun op key value => append key value (replayFlag op)) wal).exec
      (checked ⟨blocks,wal,none⟩) = (.ok (),s))
    (shows : s.pager.Shows content) (valid : s.index.Valid) (holds : HoldsRecords content records) :
    ∃ s', recover.exec (fresh ⟨blocks,wal,none⟩) = (.ok (),s') ∧ s'.index.Valid ∧
      s'.index.entries = records.foldl Record.applyTo s.index.entries := by
  have validated : (wrap .validateDatabase validatePages).exec (fresh ⟨blocks,wal,none⟩) =
      (.ok (),checked ⟨blocks,wal,none⟩) := wrap_ok (validatePages_exec (Pager.open_shows blocks) pages.accepted)
  have found : loadIndex.exec (checked ⟨blocks,wal,none⟩) = (.ok false,checked ⟨blocks,wal,none⟩) := rfl
  have recovered : (wrap .walRecovery (Wal.replay (fun op key value => append key value (replayFlag op))
      (checked ⟨blocks,wal,none⟩).wal)).exec (checked ⟨blocks,wal,none⟩) = (.ok (),s) := wrap_ok replayed
  unfold recover
  rw [exec_bind_ok validated,exec_bind_ok found,exec_bind_ok (exec_get _),exec_bind_ok recovered,
    exec_bind_ok (exec_get s),shows.pages]
  by_cases empty : content = []
  · obtain rfl := holds.1 empty
    rw [if_neg (by simp [empty])]
    exact ⟨{s with indexFile := some s.index.entries},rfl,valid,rfl⟩
  · obtain ⟨segments,chain,rfl⟩ := holds.2 empty
    have rebuilt := rebuildIndex_exec (s := {s with firstPage := 0,hasPages := true}) chain shows
    obtain ⟨valid',entries⟩ := reindexed_entries (s := {s with firstPage := 0,hasPages := true}) valid
      (segments.flatMap Prod.snd)
    rw [if_pos (List.length_pos_iff.mpr empty),if_neg Bool.false_ne_true,exec_bind_ok (exec_modify _ s),
      exec_bind_ok rebuilt]
    exact ⟨_,rfl,valid',entries⟩

private theorem Chained.applyAll {base : List Block} (chained : s.Chained base content records) {ops : List BatchOp}
    (fits : ∀ op ∈ ops, Fits op.key op.value) :
    ∃ s' content', (Wal.applyAll (fun op key value => append key value (replayFlag op)) ops).exec s = (.ok (),s') ∧
      s'.Chained base content' (records ++ ops.map BatchOp.record) := by
  induction ops generalizing s content records with
  | nil => exact ⟨s,content,rfl,by simpa using chained⟩
  | cons op ops ih =>
    obtain ⟨fit,others⟩ := List.forall_mem_cons.mp fits
    obtain ⟨s₁,content₁,done,chained₁⟩ := chained.append_fits (r := op.record) fit
    obtain ⟨s',content',rest,final⟩ := ih chained₁ others
    have flag : replayFlag (if op.delete then walDelete else walPut) = op.record.flag := by
      rcases op with ⟨key,value,_ | _⟩ <;> rfl
    refine ⟨s',content',?_,by simpa using final⟩
    unfold Wal.applyAll
    rw [flag,exec_bind_ok (show (append op.key op.value op.record.flag).exec s = _ from done),rest]

theorem open_rebuilt {file : List Block} {ops : List Op} (pages : PagesOk file) (holds : HoldsRecords file records)
    (fits : ∀ op ∈ writes ops, Fits op.key op.value) :
    ∃ s', (Store.open ⟨file,ops.flatMap Op.logged,none⟩).1 = .ok s' ∧
      ∀ key, s'.get key =
        if file = [] then effects (fun _ => none) (writes ops) key
        else if key ∈ records.map Record.key then (records.foldl Record.applyTo []).lookup key
        else (replayed [] (fun _ => none) (writes ops)).2 key := by
  have shows : (checked ⟨file,ops.flatMap Op.logged,none⟩).pager.Shows file :=
    (Pager.open_shows file).reads _ fun id => List.mem_range.mp
  have start : Replaying (checked ⟨file,ops.flatMap Op.logged,none⟩) file.length [] (fun _ => none) :=
    ⟨⟨_,.fresh shows pages rfl rfl⟩,BTree.valid_nil 0,fun _ => rfl⟩
  have behind : Chained (checked ⟨file,ops.flatMap Op.logged,none⟩) file file [] :=
    ⟨shows,pages,List.take_length,nofun,fun _ => ⟨rfl,rfl,rfl⟩⟩
  obtain ⟨s₁,applied,final⟩ := start.applyAll (writes ops) fits
  obtain ⟨s₂,content,again,chained⟩ := behind.applyAll fits
  obtain rfl : s₂ = s₁ := (Prod.mk.inj (again.symm.trans applied)).2
  rw [← replay_writes _ ops fits] at applied
  rw [List.nil_append] at chained
  -- The replay starts a new chain behind the old pages; only in an empty file is it the one at page 0.
  by_cases empty : file = []
  · subst empty
    obtain ⟨s',recovered,valid,entries⟩ := recover_rebuilt pages applied chained.shows final.valid chained.holdsRecords
    refine ⟨s',by rw [open_of_recover recovered],fun key => ?_⟩
    change s'.index.get key = _
    rw [valid.get,entries,lookup_foldl_applyTo,if_pos rfl]
    split_ifs with written
    · rw [foldl_record _ ⟨[],0,∅,0⟩,Contents.lookup_foldl_apply]
      rfl
    · have others : ∀ op ∈ writes ops, op.key ≠ key := fun op member same =>
        written (by rw [List.map_map]; exact List.mem_map.mpr ⟨op,member,same⟩)
      rw [final.index,replayed_of_forall_ne [] _ others,effects_of_forall_ne _ others]
  · obtain ⟨s',recovered,valid,entries⟩ := recover_rebuilt pages applied chained.shows final.valid
      (holds.extend empty chained.kept)
    refine ⟨s',by rw [open_of_recover recovered],fun key => ?_⟩
    change s'.index.get key = _
    rw [valid.get,entries,lookup_foldl_applyTo,if_neg empty,final.index]

def recordedKeys (s : Store) : List Bytes :=
  match ((pageChain 0).exec s).1 with
  | .ok pages => (pages.flatMap (·.records.1)).map Record.key
  | .error _ => []

theorem recordedKeys_eq (shows : s.pager.Shows content) (holds : HoldsRecords content records) :
    s.recordedKeys = records.map Record.key := by
  obtain ⟨segments,chain,none,flat⟩ := holds.segments
  obtain ⟨pages,s',walked,shape⟩ := pageChain_exec shows chain none
  rw [recordedKeys,walked]
  simp only
  rw [shape.flat.1,flat]

/-- The files open with their index file and without it, and give the same answers. -/
def SidecarIndependent (i : Image) : Prop :=
  ∃ s s', (Store.open i).1 = .ok s ∧ (Store.open {i with indexFile := none}).1 = .ok s' ∧ ∀ key, s.get key = s'.get key

/-- The store after these calls of a session on a new path and a `Flush`, or a `Close`, which does the same.
Without calls it is the new store itself. -/
def flushedAfter (calls : List Call) : Store := (flush.exec (after Call.run calls created)).2

example : flushedAfter [] = created := rfl

/-- What a `Flush` leaves: files that hold the whole store, and an empty log. -/
structure Checkpoint (s : Store) (content : List Block) (records : List Record) : Prop where
  held : s.Held
  holds : s.Holds s.contents
  file : s.pager.file = content
  shows : s.pager.Shows content
  pages : PagesOk content
  recorded : HoldsRecords content records
  entries : records.foldl Record.applyTo [] = s.index.entries
  wal : s.wal = []
  saved : s.indexFile = some s.index.entries

theorem flushedAfter_checkpoint (calls : List Call) : ∃ content records, Checkpoint (flushedAfter calls) content records := by
  obtain ⟨⟨records,inStep⟩,bounded,-⟩ := session_held calls
  obtain ⟨content,chained⟩ := inStep.chained
  obtain ⟨done,shown,file⟩ := flush_flushed chained.shows
  refine ⟨content,records,?_⟩
  rw [flushedAfter,done]
  have ok : Ok (flushed (after Call.run calls created) (after Call.run calls created).pager.flush.2) content :=
    ⟨shown,chained.pages,inStep.valid,inStep.fits,chained.first⟩
  exact ⟨⟨bounded.flush,content,shown⟩,ok.holds,file,shown,chained.pages,chained.holdsRecords,inStep.entries,rfl,rfl⟩

private theorem Since.image {start : Store} {ops : List Op} (since : Since start s ops)
    (point : Checkpoint start content records) (few : s.pager.numPages ≤ 64 ∨ s = start) :
    s.image = ⟨content,ops.flatMap Op.logged,some s.index.entries⟩ := by
  have file : s.pager.file = content := by
    rcases few with few | rfl
    · rw [(since.still point.held).2.2 few,point.file]
    · exact point.file
  rw [Store.image,file,since.wal,since.saved]

end GoDb.Store
