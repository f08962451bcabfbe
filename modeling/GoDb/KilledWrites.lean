import GoDb.FailedPut
import GoDb.Recovery

/-! A store that is killed between two writes, some of which may have failed. A write is
logged before `append` looks for a page, and `Open` replays it all the same. -/
namespace GoDb.Store
open Foundation Outcome Runs Layout TransactionLog

variable {s s' : Store} {content : List Block} {ops : List BatchOp} {start : Nat → List BatchOp}

section opening

structure Growing (s : Store) : Prop where
  pages : ∃ content, s.pager.Shows content ∧
    (s.hasPages = true → ∃ segments, Segments content s.firstPage segments)

theorem Growing.reached (growing : s.Growing) :
    ∃ s' content last front records, Reached s s' content last front records := by
  obtain ⟨content,shows,chained⟩ := growing.pages
  cases pages : s.hasPages with
  | false => exact ⟨_,_,_,_,_,lastPage_first shows pages⟩
  | true =>
    obtain ⟨segments,chain⟩ := chained pages
    obtain ⟨front,id,records,_,rfl,-⟩ := chain.final
    obtain ⟨block,-,reached⟩ := lastPage_chain shows pages chain
    exact ⟨_,_,_,_,_,reached⟩

theorem Growing.append {key value : Bytes} {flag : UInt8} (growing : s.Growing)
    (done : (append key value flag).exec s = (.ok (),s')) : Fits key value ∧ s'.Growing := by
  have counted : (s.versioned key value flag).Growing := ⟨growing.pages⟩
  obtain ⟨s₁,content,last,front,records,reached⟩ := counted.reached
  by_cases fit : Fits key value
  · refine ⟨fit,?_⟩
    by_cases room : last.data.free + (Record.mk flag key value).size ≤ PageSize
    · obtain ⟨page,-,appended,shown,chain⟩ := append_room reached room
      obtain ⟨-,rfl⟩ := Prod.mk.inj (appended.symm.trans done)
      exact ⟨_,shown,fun _ => ⟨_,chain⟩⟩
    · obtain ⟨page,-,appended,shown,chain⟩ := append_full reached (Nat.lt_of_not_le room) fit
      obtain ⟨-,rfl⟩ := Prod.mk.inj (appended.symm.trans done)
      exact ⟨_,shown,fun _ => ⟨_,chain⟩⟩
  · obtain ⟨refused,-⟩ := append_large reached (Nat.lt_of_not_le fit)
    cases refused.symm.trans done

theorem Growing.applyAll (growing : s.Growing)
    (done : (Wal.applyAll (fun op key value => Store.append key value (replayFlag op)) ops).exec s = (.ok (),s')) :
    ∀ op ∈ ops, Fits op.key op.value := by
  induction ops generalizing s with
  | nil => exact List.forall_mem_nil _
  | cons op ops ih =>
    obtain ⟨_,s₁,first,rest⟩ := bind_success done
    obtain ⟨fit,grown⟩ := growing.append first
    exact List.forall_mem_cons.mpr ⟨fit,ih grown rest⟩

def Shown (s s' : Store) : Prop :=
  s'.hasPages = s.hasPages ∧ s'.wal = s.wal ∧ ∀ content, s.pager.Shows content → s'.pager.Shows content

theorem shown : Frame Shown where
  refl _ := ⟨rfl,rfl,fun _ shows => shows⟩
  trans first second :=
    ⟨second.1.trans first.1,second.2.1.trans first.2.1,fun content shows => second.2.2 content (first.2.2 content shows)⟩

theorem readShown : ReadFrame Shown where
  frame := shown
  readPage id s := by
    refine ⟨rfl,rfl,fun content shows => ?_⟩
    rw [exec_onPager]
    by_cases inside : id < content.length
    · obtain ⟨p',read,shown⟩ := shows.readPage (List.getElem?_eq_getElem inside)
      rw [read]
      exact shown
    · have refused : s.pager.readPage id = (.error (.noSuchPage id s.pager.numPages),s.pager) := by
        unfold Pager.readPage
        rw [if_pos (by rw [shows.pages]; omega)]
      rw [refused]
      exact shows

theorem wrap_success {context : Error → Error} {x : StoreM Unit} (done : (wrap context x).exec s = (.ok (),s')) :
    x.exec s = (.ok (),s') := by
  rw [wrap,exec_tryCatch] at done
  generalize x.exec s = result at done ⊢
  rcases result with ⟨_ | _,_⟩
  · cases done
  · exact done

theorem loadIndex_shown : Proc.Keeps Shown loadIndex := by
  apply Keeps.get_bind
  intro s
  cases s.indexFile with
  | none => exact shown.refl s
  | some entries => exact ⟨rfl,rfl,fun _ shows => shows⟩

theorem open_replays {i : Image} (opened : (Store.open i).1 = .ok s) :
    ∃ before after, before.Growing ∧
      (Wal.replay (fun op key value => append key value (replayFlag op)) i.wal).exec before = (.ok (),after) := by
  have recovered := recover_of_open opened
  obtain ⟨_,s₁,validated,recovered⟩ := bind_success recovered
  obtain ⟨_,s₂,indexed,recovered⟩ := bind_success recovered
  rw [exec_bind_ok (exec_get s₂)] at recovered
  obtain ⟨_,s₃,replayed,-⟩ := bind_success recovered
  -- Up to here nothing but the index has changed.
  have checked : (fresh i).Shown s₁ := by
    have kept := keeps_wrap shown .validateDatabase readShown.validatePages (fresh i)
    rwa [validated] at kept
  have before : (fresh i).Shown s₂ := by
    refine shown.trans checked ?_
    have kept := loadIndex_shown s₁
    rwa [indexed] at kept
  have growing : s₂.Growing := by
    refine ⟨_,before.2.2 _ (Pager.open_shows i.pages),fun some => ?_⟩
    rw [before.1] at some
    cases some
  have whole := wrap_success replayed
  rw [before.2.1] at whole
  exact ⟨s₂,s₃,growing,whole⟩

theorem open_fits {i : Image} {log : List (Entry Nat BatchOp)} {rest : Bytes}
    (wal : i.wal = log.flatMap Wal.entryBytes ++ rest) (loggable : ∀ e ∈ log, Wal.Loggable e)
    (opened : (Store.open i).1 = .ok s) : ∀ op ∈ TransactionLog.applied (fun _ => []) log, Fits op.key op.value := by
  obtain ⟨before,after,growing,whole⟩ := open_replays opened
  obtain ⟨fuel,split⟩ := Wal.replay_log (fun op key value => append key value (replayFlag op)) loggable rest
  rw [wal,split] at whole
  obtain ⟨_,_,applied,-⟩ := bind_success whole
  exact growing.applyAll applied

theorem open_not_bad {i : Image} {log : List (Entry Nat BatchOp)} {rest : Bytes} {e : Error}
    (wal : i.wal = log.flatMap Wal.entryBytes ++ rest) (loggable : ∀ e ∈ log, Wal.Loggable e)
    (bad : Wal.next rest = .bad e) : (Store.open i).1 ≠ .ok s := by
  intro opened
  obtain ⟨before,after,-,whole⟩ := open_replays opened
  rw [wal,Wal.replay_log_bad _ loggable bad] at whole
  obtain ⟨_,_,-,thrown⟩ := bind_success whole
  cases thrown

end opening

section killed

/-- The records that a call adds to the log, whether it succeeds or not. -/
def Op.entries (op : Op) : List (Entry Nat BatchOp) := op.calls.flatMap Wal.logged

/-- The operations of the calls that returned nil. -/
def acknowledged (answers : List (Op × Except Error Unit)) : List BatchOp :=
  answers.flatMap fun answer => if answer.2.isOk then answer.1.written else []

theorem Op.loggable (op : Op) : ∀ e ∈ op.entries, Wal.Loggable e := by
  apply Wal.loggable_all
  cases op with
  | put | delete => exact List.forall_mem_singleton.mpr trivial
  | applyBatch id ops => exact List.forall_mem_singleton.mpr (Nat.mod_lt _ (by decide))
  | flush | compact | reopen => exact List.forall_mem_nil _

theorem Op.run_wal {op : Op} (write : op.isWrite = true) (s : Store) :
    (op.run s).2.wal = s.wal ++ op.entries.flatMap Wal.entryBytes := by
  cases op with
  | put key value =>
    rw [Op.entries,Op.calls,List.flatMap_singleton]
    exact wal_of_write (.one ⟨key,value,false⟩) (sameWal.steps.append key value flagLive) s
  | delete key =>
    rw [Op.entries,Op.calls,List.flatMap_singleton]
    apply wal_of_write (.one ⟨key,[],true⟩)
    apply Keeps.bind sameWal.frame (sameWal.steps.append key [] flagTombstone)
    exact fun _ => Keeps.bind sameWal.frame (sameWal.steps.indexDelete key) fun _ => sameWal.steps.saveIndex
  | applyBatch id ops =>
    have logs : Wal.appendTransaction id ops = Wal.write (.batch (id % 2^64) ops) :=
      (funext (Wal.appendTransaction_mod id ops)).symm
    change ((Store.applyBatch id ops).exec s).2.wal = _
    rw [Op.entries,Op.calls,List.flatMap_singleton,Store.applyBatch,logs]
    apply wal_of_write
    exact Keeps.bind sameWal.frame (sameWal.steps.applyOps ops) fun _ => sameWal.steps.saveIndex
  | flush | compact | reopen => cases write

theorem run_wal (ops : List Op) (write : ∀ op ∈ ops, op.isWrite = true) (s : Store) :
    (after Op.run ops s).wal = s.wal ++ (ops.flatMap Op.entries).flatMap Wal.entryBytes := by
  induction ops generalizing s with
  | nil => simp
  | cons op ops ih =>
    obtain ⟨first,others⟩ := List.forall_mem_cons.mp write
    rw [after_cons,ih others,op.run_wal first,List.flatMap_cons,List.flatMap_append,List.append_assoc]

private theorem WriteOutcome.ok_of_fits {c after : Contents} {key value : Bytes} {live : Bool}
    {result : Except Error Unit × Store} (outcome : WriteOutcome s c after key value live result)
    (fit : Fits key value) : result.1 = .ok () := by
  cases outcome with
  | done => rfl
  | tooLarge large | walTooLarge large => exact absurd fit large

private theorem BatchOutcome.ok_of_fits {c : Contents} {result : Except Error Unit × Store}
    (outcome : BatchOutcome c ops result) (fits : ∀ op ∈ ops, Fits op.key op.value) : result.1 = .ok () := by
  cases outcome with
  | done => rfl
  | tooLarge before op after split _ large =>
    exact absurd (fits op (split ▸ List.mem_append_right _ List.mem_cons_self)) large

private theorem committed_fits {id : Nat} (short : ∀ op ∈ ops, Short op)
    (fits : ∀ b ∈ TransactionLog.applied start (Wal.attempt id ops).entries, Fits b.key b.value) :
    ∀ op ∈ ops, Fits op.key op.value := by
  have all : ∀ op ∈ ops, Wal.memberFits op = true := fun op member => decide_eq_true (short op member)
  rw [Attempt.applied_entries] at fits
  intro op member
  apply fits op
  simp [Attempt.counted,Wal.attempt,List.takeWhile_eq_self_iff.mpr all,List.all_eq_true.mpr all,member]

/-- A call that commits no operation too large for a page succeeds, or the log had no room for it and nothing else was
touched. -/
theorem Op.run_fits {op : Op} {c : Contents} (holds : s.Holds c) (write : op.isWrite = true)
    (fits : ∀ b ∈ TransactionLog.applied start op.entries, Fits b.key b.value) :
    (op.run s).1 = .ok () ∨
      (op.run s).1 = .error .walRecordTooLarge ∧ ∃ wal, (op.run s).2 = {s with wal := wal} := by
  cases op with
  | put key value =>
    by_cases short : key.length + value.length < 2^32
    · rw [Op.entries,Op.calls,List.flatMap_singleton,Wal.logged,if_pos short] at fits
      exact .inl ((put_outcome holds key value).ok_of_fits (fits _ List.mem_cons_self))
    · obtain ⟨-,failed⟩ := put_long (Nat.le_of_not_lt short) s
      exact .inr ⟨congrArg Prod.fst failed,s.wal,congrArg Prod.snd failed⟩
  | delete key =>
    by_cases short : key.length < 2^32
    · rw [Op.entries,Op.calls,List.flatMap_singleton,Wal.logged,if_pos (by simpa using short)] at fits
      exact .inl ((delete_outcome holds key).ok_of_fits (fits _ List.mem_cons_self))
    · obtain ⟨-,failed⟩ := delete_long (Nat.le_of_not_lt short) s
      exact .inr ⟨congrArg Prod.fst failed,s.wal,congrArg Prod.snd failed⟩
  | applyBatch id ops =>
    rcases appendTransaction_result id ops s.wal with ⟨short,-⟩ | ⟨-,failed⟩
    · rw [Op.entries,Op.calls,List.flatMap_singleton] at fits
      rcases applyBatch_outcome holds id ops with ⟨-,outcome⟩ | ⟨⟨op,member,long⟩,-⟩
      · exact .inl (outcome.ok_of_fits (committed_fits short fits))
      · exact absurd (short op member) long
    · have ran : (Store.applyBatch id ops).exec s =
          (.error .walRecordTooLarge,{s with wal := (Wal.appendTransaction id ops s.wal).2}) := by
        apply exec_bind_error
        rw [exec_onWal,failed]
      exact .inr ⟨congrArg Prod.fst ran,_,congrArg Prod.snd ran⟩
  | flush | compact | reopen => cases write

/-- The store has done these writes since its path was new, and its index file is that of its index. -/
structure Survives (s : Store) (written : List BatchOp) : Prop where
  running : s.Running (layout written)
  saved : s.indexFile = some s.index.entries
  means : ∃ m, s.Means m

theorem Survives.step {op : Op} {written : List BatchOp} (survives : s.Survives written) (write : op.isWrite = true)
    (fits : ∀ b ∈ TransactionLog.applied start op.entries, Fits b.key b.value) :
    (op.run s).2.Survives (written ++ acknowledged [(op,(op.run s).1)]) := by
  obtain ⟨m,means⟩ := survives.means
  obtain ⟨c,holds,idle,same⟩ := means.holds
  rcases op.run_fits holds write fits with done | ⟨failed,wal,left⟩
  · obtain ⟨-,running,-,saved⟩ := op.run_running survives.running holds write done
    refine ⟨?_,saved,⟨_,run_means op means fun _ _ _ => done⟩⟩
    simpa [acknowledged,done,Except.isOk,Except.toBool,layout_append] using running
  · rw [failed,left]
    have none : written ++ acknowledged [(op,.error .walRecordTooLarge)] = written := List.append_nil _
    rw [none]
    exact ⟨survives.running.files s.index wal s.indexFile,survives.saved,m,c,holds.files wal s.indexFile,idle,same⟩

theorem Survives.run {ops : List Op} {written : List BatchOp} (survives : s.Survives written)
    (write : ∀ op ∈ ops, op.isWrite = true)
    (fits : ∀ b ∈ TransactionLog.applied start (ops.flatMap Op.entries), Fits b.key b.value) :
    (after Op.run ops s).Survives (written ++ acknowledged (Runs.run Op.run ops s).1) := by
  induction ops generalizing s written start with
  | nil => simpa [acknowledged,Runs.run] using survives
  | cons op ops ih =>
    obtain ⟨first,others⟩ := List.forall_mem_cons.mp write
    rw [List.flatMap_cons,applied_append] at fits
    obtain ⟨now,later⟩ := List.forall_mem_append.mp fits
    have rest := ih (survives.step first now) others later
    rw [after_cons]
    simpa [acknowledged,Runs.run] using rest

theorem loggable_entries (ops : List Op) : ∀ e ∈ ops.flatMap Op.entries, Wal.Loggable e := by
  intro e member
  obtain ⟨op,-,inside⟩ := List.mem_flatMap.mp member
  exact op.loggable e inside

theorem created_survives : created.Survives [] := ⟨created_logged.running,rfl,_,created_means⟩

/-- The store is killed between two writes. It can be opened again just when the log commits no operation that is too
large for a page, also among the calls that failed, and the last record did not open the 65th page. -/
theorem killed_reopens_iff (ops : List Op) (write : ∀ op ∈ ops, op.isWrite = true) :
    (∃ s, (Store.open (Runs.run Op.run ops created).2.image).1 = .ok s) ↔
      (∀ b ∈ TransactionLog.applied (fun _ => []) (ops.flatMap Op.entries), Fits b.key b.value) ∧
        ¬JustOpened (layout (acknowledged (Runs.run Op.run ops created).1)) := by
  have wal : (after Op.run ops created).wal = (ops.flatMap Op.entries).flatMap Wal.entryBytes ++ [] := by
    rw [run_wal ops write,List.append_nil]
    rfl
  constructor
  · rintro ⟨s,opened⟩
    have fits := open_fits wal (loggable_entries ops) opened
    refine ⟨fits,fun just => ?_⟩
    have refused := (created_survives.run write fits).running.open_opened just
    cases refused.symm.trans opened
  · rintro ⟨fits,sound⟩
    obtain ⟨⟨content,-,-,surviving⟩,saved,m,means⟩ := created_survives.run write fits
    obtain ⟨c,holds,-,-⟩ := means.holds
    obtain ⟨_,ok⟩ := holds.ok
    obtain ⟨s,opened,-,-⟩ := open_logged (surviving.sound sound) ok.valid.increasing ok.fits (loggable_entries ops)
      (show Wal.next [] = .stop from rfl) fits
    refine ⟨s,?_⟩
    rw [← wal,← saved] at opened
    exact opened

theorem killed_reopens_batch :
    ∃ s, (Store.open (Runs.run Op.run [.put [1] [2],.applyBatch 7 [⟨[3],[4],false⟩,⟨[1],[],true⟩]] created).2.image).1 =
      .ok s := by
  refine (killed_reopens_iff _ (by decide)).mpr ⟨by decide +kernel,?_⟩
  rintro ⟨r,older,shape,length⟩
  have pages := congrArg List.length shape
  rw [List.length_cons,length] at pages
  revert pages
  decide +kernel

theorem killed_after_failed_put :
    ∃ s e, (put [1] (List.replicate 5000 7)).exec created = (.error (.recordTooLarge .pageFull),s) ∧
      (Store.open s.image).1 = .error e := by
  obtain ⟨s,failed,wal⟩ := put_5000
  have log : s.image.wal = [Entry.plain (BatchOp.mk [1] (List.replicate 5000 7) false)].flatMap Wal.entryBytes ++ [] := by
    rw [List.append_nil,List.flatMap_singleton]
    exact wal
  have loggable : ∀ e ∈ [Entry.plain (BatchOp.mk [1] (List.replicate 5000 7) false)], Wal.Loggable e := by
    intro e member
    rw [List.mem_singleton.mp member,Wal.Loggable,List.length_replicate]
    decide
  cases reopened : (Store.open s.image).1 with
  | error e => exact ⟨s,e,failed,reopened⟩
  | ok s' =>
    have fit := open_fits log loggable reopened _ List.mem_cons_self
    exact absurd fit (not_fits_of_length (by rw [List.length_replicate]; decide))

end killed

end GoDb.Store
