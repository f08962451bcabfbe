import GoDb.Session
import GoDb.StoreFrame

/-! A `Put` that fails because its record fits on no page. `append` has counted the write
and added the version of the key before it looks for a page, so the readers that go by
versions see a write that `Get` does not. -/
namespace GoDb.Store
open Foundation Outcome Runs

def Reachable (s : Store) : Prop :=
  ∃ i opened, (Store.open i).1 = .ok opened ∧ ∃ calls, s = after Call.run calls opened

section ordered

def Orderly (s s' : Store) : Prop := s.contents.Ordered → s'.contents.Ordered

theorem orderly : Frame Orderly := ⟨fun _ ordered => ordered,fun first second ordered => second (first ordered)⟩

private theorem orderly_of_versions {s s' : Store} (seq : s'.seq = s.seq) (versions : s'.versions = s.versions) :
    s.Orderly s' := by
  intro ordered
  constructor
  · intro key
    change ((s'.versions.lookup key).getD []).Pairwise _
    rw [versions]
    exact ordered.chain key
  · intro key v
    change v ∈ (s'.versions.lookup key).getD [] → v.seq ≤ s'.seq
    rw [versions,seq]
    exact ordered.bound key v

theorem pageOrderly : PageFrame Orderly where
  frame := orderly
  readPage _ _ := orderly_of_versions rfl rfl
  writePage _ _ := orderly_of_versions rfl rfl
  allocatePage _ := orderly_of_versions rfl rfl
  addVersion key value flag s ordered := ordered.version key value (flag = flagLive) s.index.entries
  memory _ _ seq versions := orderly_of_versions seq versions

theorem Call.run_ordered (call : Call) (s : Store) : s.Orderly (call.run s).2 := by
  have logged : ∀ f, Proc.Keeps Orderly (onWal f) := fun _ _ => orderly_of_versions rfl rfl
  cases call with
  | put key value => exact pageOrderly.steps.put logged key value s
  | delete key => exact pageOrderly.steps.delete logged key s
  | applyBatch id ops => exact pageOrderly.steps.applyBatch logged id ops s
  | flush =>
    have flushed : Proc.Keeps Orderly (onPager (·.flush)) := fun _ => orderly_of_versions rfl rfl
    have cleared : Proc.Keeps Orderly clearWal := fun _ => orderly_of_versions rfl rfl
    apply Keeps.bind orderly flushed
    exact fun _ => Keeps.bind orderly pageOrderly.steps.saveIndex fun _ => cleared
  | compact =>
    change s.Orderly (Store.compact.exec s).2
    rcases Nat.eq_zero_or_pos s.activeSnapshots with idle | active
    · unfold Store.compact
      rw [exec_bind_ok (exec_get s),if_neg (by omega)]
      generalize (compactFile s.index.entries).exec (Pager.open []) = result
      rcases result with ⟨_ | _,written⟩
      · exact orderly.refl s
      · exact orderly_of_versions rfl rfl
    · rw [compact_active active]
      exact orderly.refl s
  | beginSnapshot | releaseSnapshot => exact orderly_of_versions rfl rfl

theorem Reachable.ordered {s : Store} (reachable : s.Reachable) : s.contents.Ordered := by
  obtain ⟨i,opened,success,calls,rfl⟩ := reachable
  have start : (fresh i).contents.Ordered := ⟨fun _ => .nil,fun _ _ member => nomatch member⟩
  apply after_keeps orderly Call.run_ordered calls opened
  have kept := pageOrderly.recover (fresh i) start
  rwa [recover_of_open success] at kept

end ordered

section refused

variable {s s' : Store} {key value : Bytes} {flag : UInt8} {e : Error}

def Beside (s s' : Store) : Prop := s'.index = s.index ∧ s'.seq = s.seq ∧ s'.versions = s.versions

theorem beside : ReadFrame Beside where
  frame := ⟨fun _ => ⟨rfl,rfl,rfl⟩,fun first second =>
    ⟨second.1.trans first.1,second.2.1.trans first.2.1,second.2.2.trans first.2.2⟩⟩
  readPage _ _ := ⟨rfl,rfl,rfl⟩

theorem lastPage_beside : Proc.Keeps Beside lastPage := by
  apply Keeps.get_bind
  intro s
  cases s.hasPages with
  | true => exact Keeps.bind beside.frame (beside.readPage _) (beside.followChain _) s
  | false =>
    have allocated : Proc.Keeps Beside (onPager (·.allocatePage)) := fun _ => ⟨rfl,rfl,rfl⟩
    apply Keeps.bind beside.frame allocated
    intro page
    exact fun _ => ⟨rfl,rfl,rfl⟩

theorem append_refused (failed : (append key value flag).exec s = (.error e,s')) :
    (s.versioned key value flag).Beside s' := by
  unfold append at failed
  rw [exec_bind_ok (addVersion_exec s key value flag)] at failed
  revert failed
  apply Refuses.bind beside.frame lastPage_beside
  intro last
  have wrote (page : Page) : Proc.Keeps Beside (onPager (·.writePage page)) := fun _ => ⟨rfl,rfl,rfl⟩
  cases writeRecord last key value flag with
  | ok last =>
    apply Refuses.bind beside.frame (wrote last)
    intro _ _ _ _ failed
    split_ifs at failed <;> cases failed
  | error =>
    have allocated : Proc.Keeps Beside (onPager (·.allocatePage)) := fun _ => ⟨rfl,rfl,rfl⟩
    apply Refuses.bind beside.frame allocated
    intro page
    cases writeRecord page key value flag with
    | error => exact Refuses.throw beside.frame _
    | ok page =>
      apply Refuses.bind beside.frame (wrote _)
      intro _
      apply Refuses.bind beside.frame (wrote _)
      intro _ _ _ _ failed
      split_ifs at failed <;> cases failed

theorem put_refused (failed : (put key value).exec s = (.error (.recordTooLarge e),s')) :
    (s.versioned key value flagLive).Beside s' := by
  by_cases short : key.length + value.length < 2^32
  · rw [put_exec short] at failed
    have kept := append_refused failed
    exact kept
  · rw [(put_long (Nat.le_of_not_lt short) s).2] at failed
    cases failed

theorem history_refused (failed : (put key value).exec s = (.error (.recordTooLarge e),s')) (k : Bytes) :
    s'.history k = if k = key then s.history key ++ [⟨s.seq + 1,value,true⟩] else s.history k := by
  obtain ⟨-,-,versions⟩ := put_refused failed
  rw [history,versions]
  exact Contents.history_version s.contents key value true k

theorem changedSince_seq (ordered : s.contents.Ordered) (k : Bytes) : s.changedSince s.seq k = false := by
  unfold changedSince
  cases last : (s.history k).getLast? with
  | none => rfl
  | some v => exact decide_eq_false (Nat.not_lt.mpr (ordered.bound k v (List.mem_of_getLast? last)))

/-- `Get` does not see a `Put` that has failed, and neither do the other readers for the other keys. For the key itself
it is a write like any other: `ChangedSince` reports it to every snapshot taken before. -/
theorem failed_put_unseen_iff (reachable : s.Reachable)
    (failed : (put key value).exec s = (.error (.recordTooLarge e),s')) :
    (∀ k, s'.get k = s.get k) ∧ ∀ k,
      (s'.getAt s'.beginSnapshot.1 k = s.getAt s.beginSnapshot.1 k ∧
        (∀ snapshot ≤ s.seq, s'.changedSince snapshot k = s.changedSince snapshot k) ∧
        ∀ ord, k ∈ s'.keysAt ord s'.beginSnapshot.1 ↔ k ∈ s.keysAt ord s.beginSnapshot.1) ↔ k ≠ key := by
  obtain ⟨index,seq,-⟩ := put_refused failed
  have ordered := reachable.ordered
  refine ⟨fun k => congrArg (·.get k) index,fun k => ⟨?_,fun other => ?_⟩⟩
  · rintro ⟨-,changed,-⟩ rfl
    have now := changed s.seq (Nat.le_refl _)
    rw [changedSince_seq ordered,changedSince,history_refused failed,if_pos rfl,List.getLast?_concat] at now
    exact absurd now (by simp)
  · have same : s'.history k = s.history k := by rw [history_refused failed,if_neg other]
    have seen : s'.getAt s'.beginSnapshot.1 k = s.getAt s.beginSnapshot.1 k := by
      have later : ∀ v ∈ s.history k, v.seq ≤ s'.seq := by
        rw [seq]
        exact fun v member => (ordered.bound k v member).trans (Nat.le_succ _)
      change s'.getAt s'.seq k = s.getAt s.seq k
      have last : visible s.seq (s.history k) = (s.history k).getLast? := visible_of_bound (ordered.bound k)
      rw [getAt,getAt,same,visible_of_bound later,last]
    refine ⟨seen,fun snapshot _ => ?_,fun ord => ?_⟩
    · rw [changedSince,changedSince,same]
    · rw [mem_keysAt,mem_keysAt,seen]

theorem created_reachable : created.Reachable := ⟨_,_,congrArg Prod.fst open_empty,[],rfl⟩

theorem not_fits_of_length {key value : Bytes} (large : PageSize ≤ value.length) : ¬Fits key value := by
  unfold Fits recordSize recordHeaderSize HeaderSize
  omega

theorem put_large {key value : Bytes} (short : key.length + value.length < 2^32) (large : PageSize ≤ value.length) :
    ∃ s, (put key value).exec created = (.error (.recordTooLarge .pageFull),s) ∧
      s.wal = Wal.record walPut key value := by
  obtain ⟨s,failed,wal,-⟩ := append_too_large flagLive
    (created_ok.holds.files (created.wal ++ Wal.record walPut key value) created.indexFile) (not_fits_of_length large)
  exact ⟨s,(put_exec short created).trans failed,wal⟩

theorem put_5000 : ∃ s, (put [1] (List.replicate 5000 7)).exec created = (.error (.recordTooLarge .pageFull),s) ∧
    s.wal = Wal.record walPut [1] (List.replicate 5000 7) := by
  apply put_large <;> rw [List.length_replicate] <;> decide

theorem failed_put_unseen_other_key :
    ∃ s', (put [1] (List.replicate 5000 7)).exec created = (.error (.recordTooLarge .pageFull),s') ∧
      s'.get [1] = none ∧ s'.changedSince 0 [2] = false := by
  obtain ⟨s',failed,-⟩ := put_5000
  obtain ⟨get,others⟩ := failed_put_unseen_iff created_reachable failed
  exact ⟨s',failed,get [1],((others [2]).mpr (by decide)).2.1 0 (Nat.le_refl _)⟩

/-- The failed value is what a new snapshot sees of the key, and a transaction that began before conflicts with it. -/
theorem failed_put_seen :
    ∃ s', (put [1] (List.replicate 5000 7)).exec created = (.error (.recordTooLarge .pageFull),s') ∧
      s'.get [1] = none ∧ s'.getAt s'.beginSnapshot.1 [1] = some (List.replicate 5000 7) ∧
      s'.changedSince created.beginSnapshot.1 [1] = true ∧ ∀ ord, [1] ∈ s'.keysAt ord s'.beginSnapshot.1 := by
  obtain ⟨s',failed,-⟩ := put_5000
  obtain ⟨index,seq,-⟩ := put_refused failed
  have history := history_refused failed [1]
  rw [if_pos rfl] at history
  have seen : s'.getAt s'.beginSnapshot.1 [1] = some (List.replicate 5000 7) := by
    change s'.getAt s'.seq [1] = _
    rw [getAt,history,seq]
    rfl
  refine ⟨s',failed,congrArg (·.get [1]) index,seen,?_,fun ord => ?_⟩
  · rw [changedSince,history]
    rfl
  · rw [mem_keysAt,seen]
    rfl

end refused

end GoDb.Store
