import GoDb.CleanShutdown
import GoDb.StoreFrame
import GoDb.StoreLayout
import GoDb.WalReplay

/-! A store that is killed while it runs. The log holds every write since the path was
empty, and `Open` replays it through `append` on top of the saved index. -/
namespace GoDb.Store
open Foundation Outcome Runs Layout TransactionLog

def Op.isWrite : Op → Bool
  | .put _ _ => true
  | .delete _ => true
  | .applyBatch _ _ => true
  | _ => false

def Op.written : Op → List BatchOp
  | .put key value => [⟨key,value,false⟩]
  | .delete key => [⟨key,[],true⟩]
  | .applyBatch _ ops => ops
  | _ => []

/-- What an operation that succeeds adds to the log. -/
def Op.logged : Op → Bytes
  | .put key value => Wal.record walPut key value
  | .delete key => Wal.record walDelete key []
  | .applyBatch id ops => Wal.transaction id ops
  | _ => []

def writes (ops : List Op) : List BatchOp := ops.flatMap Op.written

theorem Op.effect_written (op : Op) (write : op.isWrite = true) (m : Bytes → Option Bytes) :
    op.effect m = effects m op.written := by
  cases op with
  | put | delete | applyBatch => rfl
  | flush | compact | reopen => cases write

/-- A store that was never reopened, with what its pool has written back. -/
def Running (s : Store) (pages : List (List Record)) : Prop :=
  ∃ content, s.Laid content 0 pages ∧ Kept s.pager content ∧ Surviving s.pager.file content pages

variable {s : Store} {pages : List (List Record)}

theorem Running.files (running : s.Running pages) (index : BTree.Tree) (wal : Bytes)
    (indexFile : Option (List BTree.Entry)) :
    Running {s with index := index,wal := wal,indexFile := indexFile} pages := by
  obtain ⟨content,laid,kept,surviving⟩ := running
  exact ⟨content,laid.files index wal indexFile,kept,surviving⟩

theorem Running.append (running : s.Running pages) (op : BatchOp) (fit : Fits op.key op.value) :
    ∃ s', (Store.append op.key op.value op.record.flag).exec s = (.ok (),s') ∧ s'.Running (place pages op.record) := by
  obtain ⟨content,laid,kept,-⟩ := running
  obtain ⟨s',content',done,laid',-,more⟩ := append_laid laid fit
  obtain ⟨kept',surviving⟩ := more rfl kept
  exact ⟨s',done,content',laid',kept',surviving⟩

theorem Running.applyOps (ops : List BatchOp) (running : s.Running pages)
    (fits : ∀ op ∈ ops, Fits op.key op.value) :
    ∃ s', (Store.applyOps ops).exec s = (.ok (),s') ∧ s'.Running (layoutFrom pages ops) := by
  induction ops generalizing s pages with
  | nil => exact ⟨s,rfl,running⟩
  | cons op ops ih =>
    obtain ⟨fit,others⟩ := List.forall_mem_cons.mp fits
    obtain ⟨s₁,done,running₁⟩ := running.append op fit
    obtain ⟨index,told⟩ : ∃ index, s₁.told op = {s₁ with index := index} := by
      unfold Store.told
      split
      · exact ⟨_,rfl⟩
      · exact ⟨s₁.index,rfl⟩
    rw [applyOps_cons done,told]
    exact ih (running₁.files index s₁.wal s₁.indexFile) others

structure Logged (s : Store) (ops : List Op) : Prop where
  running : s.Running (layout (writes ops))
  fits : ∀ op ∈ writes ops, Fits op.key op.value
  wal : s.wal = ops.flatMap Op.logged
  file : s.indexFile = some s.index.entries
  means : s.Means (effects (fun _ => none) (writes ops))

theorem writes_concat (ops : List Op) (op : Op) : writes (ops ++ [op]) = writes ops ++ op.written := by
  simp [writes]

variable {c : Contents} {ops : List Op}

theorem Op.run_eq {op : Op} (holds : s.Holds c) (write : op.isWrite = true) (done : (op.run s).1 = .ok ()) :
    (∀ b ∈ op.written, Fits b.key b.value) ∧
      op.run s = (applyOps op.written >>= fun _ => saveIndex).exec {s with wal := s.wal ++ op.logged} := by
  cases op with
  | put key value =>
    obtain ⟨fit,-⟩ := (put_outcome holds key value).of_ok done
    refine ⟨fun b member => List.mem_singleton.mp member ▸ fit,?_⟩
    obtain ⟨s',appended,-,saved,-⟩ := append_told (holds.files (s.wal ++ Wal.record walPut key value) s.indexFile)
      ⟨key,value,false⟩ fit
    have all : (applyOps [⟨key,value,false⟩]).exec {s with wal := s.wal ++ Wal.record walPut key value} =
        (.ok (),s') := applyOps_cons appended []
    change (Store.put key value).exec s = _
    rw [put_exec (fit.short.trans (by decide)),show (append key value flagLive).exec _ = _ from appended]
    refine Eq.trans ?_ (exec_bind_ok all).symm
    -- `append` has saved the index, and saving it again changes nothing.
    change _ = (Except.ok (),{s' with indexFile := some s'.index.entries})
    rw [← saved]
  | delete key =>
    obtain ⟨fit,-⟩ := (delete_outcome holds key).of_ok done
    refine ⟨fun b member => List.mem_singleton.mp member ▸ fit,?_⟩
    obtain ⟨s',appended,-⟩ := append_told (holds.files (s.wal ++ Wal.record walDelete key []) s.indexFile)
      ⟨key,[],true⟩ fit
    have all : (applyOps [⟨key,[],true⟩]).exec {s with wal := s.wal ++ Wal.record walDelete key []} =
        (.ok (),s'.told ⟨key,[],true⟩) := applyOps_cons appended []
    change (Store.delete key).exec s = _
    rw [delete_exec (fit.short.trans (by decide)),exec_bind_ok (show (append key [] flagTombstone).exec _ = _ from appended)]
    refine Eq.trans ?_ (exec_bind_ok all).symm
    rfl
  | applyBatch id batch =>
    obtain ⟨fits,-⟩ := applyBatch_of_ok holds done
    have transacted : (onWal (Wal.appendTransaction id batch)).exec s =
        (.ok (),{s with wal := s.wal ++ Wal.transaction id batch}) := by
      rw [exec_onWal,Wal.appendTransaction_eq s.wal fun b member => by have := (fits b member).short; omega]
    exact ⟨fits,exec_bind_ok transacted⟩
  | flush | compact | reopen => cases write

theorem Op.run_running {op : Op} (running : s.Running pages) (holds : s.Holds c) (write : op.isWrite = true)
    (done : (op.run s).1 = .ok ()) :
    (∀ b ∈ op.written, Fits b.key b.value) ∧ (op.run s).2.Running (layoutFrom pages op.written) ∧
      (op.run s).2.wal = s.wal ++ op.logged ∧ (op.run s).2.indexFile = some (op.run s).2.index.entries := by
  obtain ⟨fits,ran⟩ := op.run_eq holds write done
  obtain ⟨s',applied,running⟩ := (running.files s.index (s.wal ++ op.logged) s.indexFile).applyOps op.written fits
  have wal := sameWal.steps.applyOps op.written {s with wal := s.wal ++ op.logged}
  rw [applied] at wal
  rw [ran,exec_bind_ok applied]
  exact ⟨fits,running.files _ _ _,wal,rfl⟩

theorem Logged.step {op : Op} (logged : Logged s ops) (write : op.isWrite = true) (done : (op.run s).1 = .ok ()) :
    Logged (op.run s).2 (ops ++ [op]) := by
  obtain ⟨c,holds,-,-⟩ := logged.means.holds
  obtain ⟨fits,running,wal,file⟩ := op.run_running logged.running holds write done
  have means := run_means op logged.means (fun _ _ _ => done)
  rw [done] at means
  refine ⟨?_,?_,?_,file,?_⟩
  · rw [writes_concat,layout_append]
    exact running
  · rw [writes_concat]
    exact List.forall_mem_append.mpr ⟨logged.fits,fits⟩
  · rw [wal,logged.wal,List.flatMap_append,List.flatMap_singleton]
  · rw [writes_concat,effects,List.foldl_append]
    change (op.run s).2.Means (effects (effects _ (writes ops)) op.written)
    rw [← op.effect_written write]
    exact means

structure Replaying (s : Store) (start : Nat) (pages : List (List Record)) (m : Bytes → Option Bytes) : Prop where
  laid : ∃ content, s.Laid content start pages
  valid : s.index.Valid
  index : ∀ key, s.index.entries.lookup key = m key

variable {start : Nat} {m : Bytes → Option Bytes}

private theorem appendedIndex_means {t : BTree.Tree} (valid : t.Valid) (same : ∀ key, t.entries.lookup key = m key)
    (pages : List (List Record)) (op : BatchOp) :
    (appendedIndex t pages op).Valid ∧
      ∀ key, (appendedIndex t pages op).entries.lookup key = (replayOp (pages,m) op).2 key := by
  unfold appendedIndex replayOp
  by_cases skipped : op.delete = true ∧ ¬Opens pages op.record
  · rw [if_pos skipped,if_pos skipped]
    exact ⟨valid,same⟩
  · rw [if_neg skipped,if_neg skipped]
    cases kind : op.delete with
    | false =>
      obtain ⟨valid',entries⟩ := BTree.put_valid valid op.key op.value
      refine ⟨valid',fun key => ?_⟩
      rw [if_neg Bool.false_ne_true,entries]
      simp [batchEffect,kind,Function.update_apply,same]
    | true =>
      obtain ⟨valid',entries,-⟩ := BTree.delete_valid valid op.key
      refine ⟨valid',fun key => ?_⟩
      rw [if_pos rfl,entries]
      simp [batchEffect,kind,Function.update_apply,same]

theorem Replaying.applyAll (ops : List BatchOp) (replaying : s.Replaying start pages m)
    (fits : ∀ op ∈ ops, Fits op.key op.value) :
    ∃ s', (Wal.applyAll (fun op key value => append key value (replayFlag op)) ops).exec s = (.ok (),s') ∧
      s'.Replaying start (replayed pages m ops).1 (replayed pages m ops).2 := by
  induction ops generalizing s pages m with
  | nil => exact ⟨s,rfl,replaying⟩
  | cons op ops ih =>
    obtain ⟨fit,others⟩ := List.forall_mem_cons.mp fits
    obtain ⟨content,laid⟩ := replaying.laid
    obtain ⟨s₁,content₁,done,laid₁,appended,-⟩ := append_laid laid fit
    have flag : replayFlag (if op.delete then walDelete else walPut) = op.record.flag := by
      rcases op with ⟨key,value,_ | _⟩ <;> rfl
    obtain ⟨valid,index⟩ := appendedIndex_means replaying.valid replaying.index pages op
    rw [← appended.index] at valid index
    obtain ⟨s',rest,final⟩ := ih ⟨⟨content₁,laid₁⟩,valid,index⟩ others
    refine ⟨s',?_,final⟩
    unfold Wal.applyAll
    rw [flag,exec_bind_ok done,rest]

def Op.calls : Op → List (LogCall Nat BatchOp)
  | .put key value => [.one ⟨key,value,false⟩]
  | .delete key => [.one ⟨key,[],true⟩]
  | .applyBatch id ops => [.batch (id % 2^64) ops]
  | _ => []

theorem Op.logged_eq (op : Op) : op.logged = (op.calls.flatMap LogCall.entries).flatMap Wal.entryBytes := by
  cases op with
  | put | delete => simp [logged,calls,LogCall.entries,Wal.entryBytes]
  | applyBatch id ops =>
    rw [logged,← Wal.transaction_mod,Wal.transaction_eq,calls,List.flatMap_singleton]
    rfl
  | flush | compact | reopen => rfl

theorem Op.written_eq (op : Op) : op.written = op.calls.flatMap LogCall.ops := by
  cases op <;> simp [written,calls,LogCall.ops]

theorem Op.small (op : Op) (fits : ∀ b ∈ op.written, Fits b.key b.value) : ∀ r ∈ op.calls, Wal.Small r := by
  have short : ∀ b ∈ op.written, b.key.length + b.value.length < 2^32 - 8 := fun b member =>
    (fits b member).short.trans (by decide)
  cases op with
  | put | delete => exact List.forall_mem_singleton.mpr (short _ (List.mem_singleton_self _))
  | applyBatch id ops => exact List.forall_mem_singleton.mpr ⟨Nat.mod_lt _ (by decide),short⟩
  | flush | compact | reopen => exact fun _ member => nomatch member

theorem logged_writes (ops : List Op) :
    ops.flatMap Op.logged = ((ops.flatMap Op.calls).flatMap LogCall.entries).flatMap Wal.entryBytes := by
  rw [funext Op.logged_eq]
  simp only [List.flatMap_assoc]

theorem applied_writes (ops : List Op) :
    TransactionLog.applied (fun _ => []) ((ops.flatMap Op.calls).flatMap LogCall.entries) = writes ops := by
  rw [applied_calls,writes,funext Op.written_eq,List.flatMap_assoc]

theorem loggable_writes (fits : ∀ b ∈ writes ops, Fits b.key b.value) :
    ∀ e ∈ (ops.flatMap Op.calls).flatMap LogCall.entries, Wal.Loggable e := by
  intro e member
  obtain ⟨r,asked,inside⟩ := List.mem_flatMap.mp member
  obtain ⟨op,ran,asked⟩ := List.mem_flatMap.mp asked
  exact (op.small (fun b held => fits b (List.mem_flatMap.mpr ⟨op,ran,held⟩)) r asked).loggable e inside

theorem replay_writes (apply : UInt8 → Bytes → Bytes → StoreM Unit) (ops : List Op)
    (fits : ∀ b ∈ writes ops, Fits b.key b.value) :
    Wal.replay apply (ops.flatMap Op.logged) = Wal.applyAll apply (writes ops) := by
  rw [logged_writes,Wal.replay_whole apply (loggable_writes fits),applied_writes]

theorem open_dangling {i : Image} (block : Block) (pages : i.pages = [block]) (header : block.id = 0)
    (held : ∃ records, block.Holds records) (link : block.next = some 1) :
    (Store.open i).1 = .error (.validateDatabase (.danglingPage 0 1)) := by
  obtain ⟨records,holds⟩ := held
  have shows : (fresh i).pager.Shows [block] := pages ▸ Pager.open_shows i.pages
  obtain ⟨read,-⟩ := readPage_exec shows (show [block][0]? = some block from rfl)
  have bounds : ¬(Page.freeOffset ⟨0,block⟩ < HeaderSize ∨ PageSize < Page.freeOffset ⟨0,block⟩) := by
    have free := holds.free_le
    unfold Page.freeOffset
    dsimp only
    omega
  have found : (validatePage 1 0).exec (fresh i) =
      (.error (.danglingPage 0 1),{fresh i with pager := (fresh i).pager.reads [0]}) := by
    unfold validatePage
    rw [exec_bind_ok read,if_neg (not_not.mpr header)]
    dsimp only
    rw [if_neg bounds]
    simp only [Page.nextPageID,link]
    rfl
  have validated : validatePages.exec (fresh i) =
      (.error (.danglingPage 0 1),{fresh i with pager := (fresh i).pager.reads [0]}) := by
    unfold validatePages
    rw [exec_bind_ok (exec_get _),shows.pages]
    exact exec_bind_error found
  have failed : recover.exec (fresh i) = (.error (.validateDatabase (.danglingPage 0 1)),_) :=
    exec_bind_error (wrap_error validated)
  unfold Store.open
  rw [failed]

theorem Logged.image (logged : Logged s ops) :
    s.image = ⟨s.pager.file,ops.flatMap Op.logged,some s.index.entries⟩ := by
  rw [Store.image,logged.wal,logged.file]

private theorem first_link {content : List Block} (chain : Segments content 0 (chainOf 0 pages))
    (many : 1 < pages.length) : ∃ block, content[0]? = some block ∧ block.next = some 1 := by
  have ids := chainOf_ids pages
  generalize chainOf 0 pages = segments at chain ids
  cases chain with
  | last here =>
    have length := congrArg List.length ids
    simp at length
    omega
  | link here linked later holds tail =>
    obtain ⟨_,_,_,-,rfl⟩ := tail.starts
    refine ⟨_,here,?_⟩
    have second := congrArg (·[1]?) ids
    simp [many] at second
    rw [linked,second]

theorem Running.open_opened (running : s.Running pages) (opened : JustOpened pages) :
    (Store.open s.image).1 = .error (.validateDatabase (.danglingPage 0 1)) := by
  obtain ⟨content,laid,-,surviving⟩ := running
  have file := surviving.opened opened
  obtain ⟨r,older,rfl,length⟩ := opened
  obtain ⟨block,here,link⟩ := first_link (laid.chain (List.cons_ne_nil _ _)) (by simp [length])
  obtain ⟨header,held,-⟩ := laid.sound 0 block here
  refine open_dangling block ?_ header held link
  rw [Store.image,file,List.take_one,List.head?_eq_getElem?,here]
  rfl

structure Saved (s : Store) : Prop where
  valid : s.index.Valid
  fits : ∀ e ∈ s.index.entries, Fits e.1 e.2
  file : s.indexFile = some s.index.entries

theorem Holds.saved (holds : s.Holds c) (file : s.indexFile = some s.index.entries) : s.Saved := by
  obtain ⟨_,ok⟩ := holds.ok
  exact ⟨ok.valid,ok.fits,file⟩

theorem applyAll_saved {ops : List BatchOp} {s' : Store} (holds : s.Holds c) (saved : s.Saved)
    (fits : ∀ op ∈ ops, Fits op.key op.value)
    (done : (Wal.applyAll (fun op key value => append key value (replayFlag op)) ops).exec s = (.ok (),s')) :
    s'.Saved := by
  induction ops generalizing s c with
  | nil =>
    obtain ⟨-,rfl⟩ := Prod.mk.inj done
    exact saved
  | cons op ops ih =>
    obtain ⟨fit,others⟩ := List.forall_mem_cons.mp fits
    obtain ⟨_,s₁,first,rest⟩ := bind_success done
    rcases op with ⟨key,value,_ | _⟩
    · obtain ⟨s₂,appended,-,file,held⟩ := append_live holds fit
      obtain ⟨-,rfl⟩ := Prod.mk.inj (appended.symm.trans first)
      exact ih held (held.saved file) others rest
    · obtain ⟨s₂,appended,-,file,held⟩ := append_tombstone holds fit
      obtain ⟨-,rfl⟩ := Prod.mk.inj (appended.symm.trans first)
      rcases held with held | held <;> exact ih held (held.saved file) others rest

/-- `Open` with an index file: the operations of the log are replayed on the entries of the file. Behind the records
the log may end in a header that was torn. -/
theorem open_logged {file : List Block} {entries : List BTree.Entry} {log : List (Entry Nat BatchOp)} {rest : Bytes}
    (pages : PagesOk file) (sorted : SortedEntries.Increasing entries) (live : ∀ e ∈ entries, Fits e.1 e.2)
    (loggable : ∀ e ∈ log, Wal.Loggable e) (ends : Wal.next rest = .stop)
    (fits : ∀ op ∈ TransactionLog.applied (fun _ => []) log, Fits op.key op.value) :
    ∃ s', (Store.open ⟨file,log.flatMap Wal.entryBytes ++ rest,some entries⟩).1 = .ok s' ∧ s'.Saved ∧
      ∀ key, s'.get key = (replayed [] (fun key => entries.lookup key) (TransactionLog.applied (fun _ => []) log)).2 key := by
  obtain ⟨ok,same⟩ := loaded_ok (i := ⟨file,log.flatMap Wal.entryBytes ++ rest,some entries⟩) pages sorted live
  have start : Replaying (loaded ⟨file,log.flatMap Wal.entryBytes ++ rest,some entries⟩ entries) file.length []
      (fun key => entries.lookup key) :=
    ⟨⟨_,.fresh ok.shows pages rfl rfl⟩,ok.valid,fun key => by rw [same]⟩
  obtain ⟨s₁,done,final⟩ := start.applyAll _ fits
  have saved := applyAll_saved ok.holds (ok.holds.saved (congrArg some same.symm)) fits done
  obtain ⟨content₁,laid₁⟩ := final.laid
  rw [← Wal.replay_log_stop _ loggable ends] at done
  obtain ⟨p,seq,versions,recovered,-⟩ := recover_loaded pages done laid₁.shows laid₁.sound fun some => by
    rw [laid₁.first]
    split_ifs with empty
    · exact some
    · rw [laid₁.length]
      exact Nat.lt_add_of_pos_right (List.length_pos_iff.mpr empty)
  have opened := congrArg Prod.fst (open_of_recover recovered)
  exact ⟨_,opened,⟨saved.valid,saved.fits,saved.file⟩,fun key => (final.valid.get key).trans (final.index key)⟩

theorem open_replayed {file : List Block} {entries : List BTree.Entry} (pages : PagesOk file)
    (sorted : SortedEntries.Increasing entries) (live : ∀ e ∈ entries, Fits e.1 e.2)
    (fits : ∀ op ∈ writes ops, Fits op.key op.value) :
    ∃ s', (Store.open ⟨file,ops.flatMap Op.logged,some entries⟩).1 = .ok s' ∧
      ∀ key, s'.get key = (replayed [] (fun key => entries.lookup key) (writes ops)).2 key := by
  obtain ⟨s',opened,-,answers⟩ := open_logged pages sorted live (loggable_writes fits)
    (show Wal.next [] = .stop from rfl) (by rwa [applied_writes])
  rw [List.append_nil,← logged_writes] at opened
  rw [applied_writes] at answers
  exact ⟨s',opened,answers⟩

theorem Logged.open_sound (logged : Logged s ops) (sound : ¬JustOpened (layout (writes ops))) :
    ∃ s', (Store.open s.image).1 = .ok s' ∧
      ∀ key, s'.get key = (replayed [] (effects (fun _ => none) (writes ops)) (writes ops)).2 key := by
  obtain ⟨content,laid,-,surviving⟩ := logged.running
  obtain ⟨c,holds,-,same⟩ := logged.means.holds
  obtain ⟨_,ok⟩ := holds.ok
  obtain ⟨s',opened,answers⟩ := open_replayed (surviving.sound sound) ok.valid.increasing ok.fits logged.fits
  rw [holds.entries,funext same] at answers
  exact ⟨s',logged.image ▸ opened,answers⟩

theorem created_logged : Logged created [] := by
  refine ⟨⟨[],?_,⟨Pager.open_cached,fun _ => rfl⟩,?_,fun _ => PagesOk.nil⟩,fun _ member => (nomatch member),rfl,rfl,
    ⟨_,created_ok.holds,rfl,fun _ => rfl⟩⟩
  · exact .fresh (Pager.open_shows []) PagesOk.nil rfl rfl
  · rintro ⟨r,older,absurd,-⟩
    cases absurd

private theorem run_logged (ops : List Op) (write : ∀ op ∈ ops, op.isWrite = true)
    (done : ∀ op r, (op,r) ∈ (Runs.run Op.run ops created).1 → r = .ok ()) :
    Logged (Runs.run Op.run ops created).2 ops := by
  refine after_history (fun answer => answer.1.isWrite = true ∧ answer.2 = .ok ())
    (fun s ops op logged good => logged.step good.1 good.2) ops created [] created_logged ?_
  rintro ⟨op,r⟩ member
  refine ⟨write op ?_,done op r member⟩
  rw [← run_requests Op.run ops created]
  exact List.mem_map_of_mem member

/-- The store is killed after these writes, each of which succeeded. It opens again and has lost nothing
just when every key that was deleted last has a deletion, after its last put, whose record opened a page,
and the last record did not open the 65th page. -/
theorem killed_recovers_iff (ops : List Op) (write : ∀ op ∈ ops, op.isWrite = true)
    (done : ∀ op r, (op,r) ∈ (Runs.run Op.run ops created).1 → r = .ok ()) :
    (∃ s', (Store.open (Runs.run Op.run ops created).2.image).1 = .ok s' ∧
        ∀ key, s'.get key = folded (Runs.run Op.run ops created).1 key) ↔
      DeletionsOpen (writes ops) ∧ ¬JustOpened (layout (writes ops)) := by
  have logged := run_logged ops write done
  have same : ∀ key, folded (Runs.run Op.run ops created).1 key = effects (fun _ => none) (writes ops) key := by
    intro key
    rw [← (run_folded ops fun id batch r member => done _ r member).get,logged.means.get]
  by_cases opened : JustOpened (layout (writes ops))
  · have failed := logged.running.open_opened opened
    rw [failed]
    exact ⟨fun ⟨_,impossible,_⟩ => (nomatch impossible),fun ⟨_,other⟩ => absurd opened other⟩
  · obtain ⟨s',result,answers⟩ := logged.open_sound opened
    have recovered : (∃ s', (Store.open (Runs.run Op.run ops created).2.image).1 = .ok s' ∧
        ∀ key, s'.get key = folded (Runs.run Op.run ops created).1 key) ↔
        ∀ key, (replayed [] (effects (fun _ => none) (writes ops)) (writes ops)).2 key =
          effects (fun _ => none) (writes ops) key := by
      constructor
      · rintro ⟨_,other,right⟩ key
        obtain rfl := Except.ok.inj (result.symm.trans other)
        rw [← answers,right,same]
      · exact fun right => ⟨s',result,fun key => by rw [answers,right,same]⟩
    rw [recovered,replayed_iff,and_iff_left opened]

theorem killed_recovers_puts :
    ∃ s', (Store.open (Runs.run Op.run [.put [1] [2],.applyBatch 7 [⟨[3],[4],false⟩]] created).2.image).1 = .ok s' ∧
      ∀ key, s'.get key = folded (Runs.run Op.run [.put [1] [2],.applyBatch 7 [⟨[3],[4],false⟩]] created).1 key := by
  have answers : ((Runs.run Op.run [.put [1] [2],.applyBatch 7 [⟨[3],[4],false⟩]] created).1.all
      fun answer => answer.2.isOk) = true := by decide +kernel
  refine (killed_recovers_iff _ (by decide) fun op r member => ?_).mpr ⟨?_,?_⟩
  · have done := List.all_eq_true.mp answers _ member
    cases r with
    | ok => rfl
    | error => cases done
  · rintro before put after split live deletes ⟨op,member,same⟩
    have alive : ∀ op ∈ writes [.put [1] [2],.applyBatch 7 [⟨[3],[4],false⟩]], op.delete = false := by decide
    have dead := deletes op member same
    rw [alive op (split ▸ List.mem_append_right _ (List.mem_cons_of_mem _ member))] at dead
    cases dead
  · rintro ⟨r,older,shape,length⟩
    have pages := congrArg List.length shape
    rw [List.length_cons,length] at pages
    revert pages
    decide +kernel

/-- A deleted key is back after the kill: its tombstone is replayed onto a page with room, where `append`
leaves the index alone, and the replay of the put before it has put the key into the index again. -/
theorem killed_after_delete :
    let final := Runs.run Op.run [.put [1] [2],.delete [1]] created
    (final.1.all fun answer => answer.2.isOk) = true ∧ folded final.1 [1] = none ∧
      ((Store.open final.2.image).1.toOption.map fun s => s.get [1]) = some (some [2]) := by
  decide +kernel

end GoDb.Store
