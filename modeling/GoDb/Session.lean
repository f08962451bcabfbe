import GoDb.StoreCompact
import GoDb.StoreOpen
import GoDb.StoreSnapshot
import GoDb.TableInvariant
import GoDb.Foundation.Runs

/-! One session of a store, from the `Open` on, and the snapshots taken in it. -/
namespace GoDb.Store
open Foundation Outcome Runs

inductive Call
  | put (key value : Bytes)
  | delete (key : Bytes)
  | applyBatch (id : Nat) (ops : List BatchOp)
  | flush
  | compact
  | beginSnapshot
  | releaseSnapshot
  deriving DecidableEq

def Call.run : Call → Store → Except Error Unit × Store
  | .put key value => (Store.put key value).exec
  | .delete key => (Store.delete key).exec
  | .applyBatch id ops => (Store.applyBatch id ops).exec
  | .flush => Store.flush.exec
  | .compact => Store.compact.exec
  | .beginSnapshot => fun s => (.ok (),s.beginSnapshot.2)
  | .releaseSnapshot => fun s => (.ok (),s.releaseSnapshot)

theorem compact_active {s : Store} (active : 0 < s.activeSnapshots) : compact.exec s = (.error .activeSnapshots,s) := by
  unfold compact
  rw [exec_bind_ok (exec_get s),if_pos active]
  rfl

def Call.isWrite : Call → Bool
  | .put _ _ => true
  | .delete _ => true
  | .applyBatch _ _ => true
  | _ => false

variable {s : Store}

theorem Call.rest_holds {call : Call} (rest : call.isWrite = false) (ok : ∃ content, s.Ok content) :
    ∃ n, (call.run s).2.Holds {s.contents with activeSnapshots := n} := by
  obtain ⟨content,ok⟩ := ok
  cases call with
  | put | delete | applyBatch => cases rest
  | flush =>
    obtain ⟨s',done,ok',same,-⟩ := flush_exec ok
    refine ⟨s.activeSnapshots,?_⟩
    change (Store.flush.exec s).2.Holds _
    rw [done]
    exact ⟨⟨content,ok'⟩,same⟩
  | compact =>
    refine ⟨s.activeSnapshots,?_⟩
    change (Store.compact.exec s).2.Holds _
    rcases Nat.eq_zero_or_pos s.activeSnapshots with idle | active
    · obtain ⟨s',content',done,ok',same⟩ := compact_exec ok idle
      rw [done]
      exact ⟨⟨content',ok'⟩,same⟩
    · rw [compact_active active]
      exact ok.holds
  | beginSnapshot | releaseSnapshot => exact ⟨_,⟨content,ok.shows,ok.pages,ok.valid,ok.fits,ok.first⟩,rfl⟩

theorem Call.run_keeps (call : Call) (s : Store) : s.Steps (fun _ => True) (call.run s).2 := by
  cases write : call.isWrite with
  | false =>
    intro sound
    obtain ⟨n,holds⟩ := call.rest_holds write sound.ok
    refine ⟨holds.sound ⟨sound.ordered.chain,sound.ordered.bound⟩ sound.values,?_⟩
    rw [holds.contents]
    exact ⟨Nat.le_refl _,fun _ => .inr ⟨rfl,rfl⟩⟩
  | true =>
    cases call with
    | put key value => exact put_keeps key trivial s
    | delete key => exact delete_keeps key s
    | applyBatch id ops => exact applyBatch_keeps id (fun _ _ _ => trivial) s
    | flush | compact | beginSnapshot | releaseSnapshot => cases write

theorem Call.run_agrees (call : Call) (sound : s.Sound fun _ => True) (agrees : s.contents.Agrees)
    (done : (call.run s).1 = .ok ()) : (call.run s).2.contents.Agrees := by
  cases write : call.isWrite with
  | false =>
    obtain ⟨n,holds⟩ := call.rest_holds write sound.ok
    rw [holds.contents]
    exact agrees
  | true =>
    cases call with
    | put key value =>
      obtain ⟨-,holds⟩ := (put_outcome sound.holds key value).of_ok done
      exact holds.contents ▸ agrees.apply ⟨key,value,false⟩
    | delete key =>
      obtain ⟨-,holds⟩ := (delete_outcome sound.holds key).of_ok done
      exact holds.contents ▸ agrees.apply ⟨key,[],true⟩
    | applyBatch id ops =>
      obtain ⟨-,holds⟩ := applyBatch_of_ok sound.holds done
      exact holds.contents ▸ agrees.foldl_apply ops
    | flush | compact | beginSnapshot | releaseSnapshot => cases write

theorem created_sound : created.Sound fun _ => True :=
  ⟨⟨[],created_ok⟩,⟨fun _ => .nil,fun _ _ member => nomatch member⟩,fun _ _ => trivial⟩

private theorem session_agrees (calls : List Call)
    (done : ∀ answer ∈ (Runs.run Call.run calls created).1, answer.2 = .ok ()) :
    (after Call.run calls created).Sound (fun _ => True) ∧ (after Call.run calls created).contents.Agrees :=
  after_invariant (fun s => s.Sound (fun _ => True) ∧ s.contents.Agrees) (fun answer => answer.2 = .ok ())
    (fun s call start nil => ⟨(call.run_keeps s start.1).1,call.run_agrees start.1 start.2 nil⟩) calls created
    ⟨created_sound,fun _ => rfl⟩ done

/-- In a session on a new path, a snapshot is taken when every call has returned nil. Whatever is called
afterwards, the snapshot has the values that were there, and lists the keys that were live, each once. -/
theorem snapshot_stable (calls : List Call)
    (done : ∀ answer ∈ (Runs.run Call.run calls created).1, answer.2 = .ok ()) (later : List Call) :
    let s := after Call.run calls created
    let s' := after Call.run later s.beginSnapshot.2
    (∀ key, s'.getAt s.beginSnapshot.1 key = s.get key) ∧
      ∀ ord, (s'.keysAt ord s.beginSnapshot.1).Nodup ∧
        ∀ key, key ∈ s'.keysAt ord s.beginSnapshot.1 ↔ (s.get key).isSome := by
  intro s s'
  obtain ⟨sound,agrees⟩ := session_agrees calls done
  obtain ⟨taken,counted⟩ := sound.leases (s.activeSnapshots + 1)
  obtain ⟨-,moves⟩ := after_keeps steps Call.run_keeps later s.beginSnapshot.2 taken
  have stable : ∀ key, s'.getAt s.beginSnapshot.1 key = s.get key := by
    intro key
    have same := getAt_moves (counted.trans moves) (Nat.le_refl s.seq) key
    rw [show s'.getAt s.beginSnapshot.1 key = s.getAt s.seq key from same,getAt_seq sound.ordered,← agrees key,
      sound.holds.get]
  refine ⟨stable,fun ord => ⟨s'.keysAt_nodup ord _,fun key => ?_⟩⟩
  rw [mem_keysAt,stable]

theorem snapshot_stable_compact :
    let s := after Call.run [.put [1] [2],.applyBatch 1 [⟨[3],[4],false⟩,⟨[5],[6],false⟩],.delete [5]] created
    let s' := after Call.run [.put [1] [7],.delete [3],.compact,.releaseSnapshot,.compact] s.beginSnapshot.2
    (s'.getAt 4 [1] = some [2] ∧ s'.getAt 4 [3] = some [4] ∧ s'.getAt 4 [5] = none) ∧
      ∀ ord, (s'.keysAt ord s.beginSnapshot.1).Nodup ∧
        ∀ key, key ∈ s'.keysAt ord s.beginSnapshot.1 ↔ (s.get key).isSome := by
  have answers : ((Runs.run Call.run [.put [1] [2],.applyBatch 1 [⟨[3],[4],false⟩,⟨[5],[6],false⟩],.delete [5]]
      created).1.all fun answer => answer.2.isOk) = true := by decide +kernel
  refine ⟨by decide +kernel,(snapshot_stable _ (fun answer member => ?_) _).2⟩
  have done := List.all_eq_true.mp answers _ member
  rcases answer with ⟨call,_ | _⟩
  · cases done
  · rfl

end GoDb.Store
