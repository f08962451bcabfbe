import GoDb.Recovery
import GoDb.StoreLog

/-! What a store has after it was closed and opened again. The index comes from its file,
the versions from the chain that starts at page 0. `Open` does not say that there is a
chain, so the next session starts one of its own behind it, and no later `Open` reads that. -/
namespace GoDb.Store
open Foundation Outcome Runs

variable {s : Store} {content : List Block} {records : List Record}

theorem reopen_recorded (shows : s.pager.Shows content) (pages : PagesOk content) (holds : HoldsRecords content records) :
    ∃ p, reopen s = (.ok (),{(loaded ⟨content,[],some s.index.entries⟩ s.index.entries).recorded records with
      pager := p}) ∧ p.Shows content := by
  obtain ⟨closed,-,file⟩ := flush_flushed shows
  have image : (s.flushed s.pager.flush.2).image = ⟨content,[],some s.index.entries⟩ := by rw [flushed,Store.image,file]
  have read : (loaded ⟨content,[],some s.index.entries⟩ s.index.entries).pager.Shows content :=
    (Pager.open_shows content).reads _ fun id => List.mem_range.mp
  obtain ⟨p',recovered,shown⟩ := recover_recorded pages (replay_nil _ _) read holds.2 holds.1
  refine ⟨p',?_,shown⟩
  have done : close.exec s = (.ok (),s.flushed s.pager.flush.2) := closed
  simp only [reopen,done,image,open_of_recover recovered]

private theorem recorded_versions (ops : List BatchOp) {c : Contents} (seq : c.seq = s.seq)
    (versions : c.versions = s.versions) :
    (ops.foldl Contents.apply c).seq = (s.recorded (ops.map BatchOp.record)).seq ∧
      (ops.foldl Contents.apply c).versions = (s.recorded (ops.map BatchOp.record)).versions := by
  induction ops generalizing s c with
  | nil => exact ⟨seq,versions⟩
  | cons op ops ih =>
    have next : (c.apply op).seq = (s.versioned op.key op.value op.record.flag).seq ∧
        (c.apply op).versions = (s.versioned op.key op.value op.record.flag).versions := by
      have made : (s.versioned op.key op.value op.record.flag).contents =
          s.contents.version op.key op.value (op.record.flag = flagLive) := rfl
      have seq' := congrArg Contents.seq made
      have versions' := congrArg Contents.versions made
      rcases op with ⟨key,value,_ | _⟩ <;>
        simp_all [Contents.apply,Contents.version,Contents.put,Contents.remove,Contents.history,Store.contents,
          BatchOp.record,flagLive,flagTombstone]
    exact ih next.1 next.2

theorem recorded_getAt (ops : List BatchOp) (seq : s.seq = 0) (versions : s.versions = ∅) (key : Bytes) :
    (s.recorded (ops.map BatchOp.record)).getAt (s.recorded (ops.map BatchOp.record)).seq key =
      effects (fun _ => none) ops key := by
  let c : Contents := ⟨[],0,∅,0⟩
  obtain ⟨sameSeq,sameVersions⟩ := recorded_versions ops (c := c) seq.symm versions.symm
  have agrees : c.Agrees := fun _ => rfl
  have ordered : c.Ordered := ⟨fun _ => .nil,fun _ _ member => nomatch member⟩
  obtain ⟨made,-⟩ := Contents.foldl_apply ordered ops
  have same : ∀ k, (s.recorded (ops.map BatchOp.record)).contents.history k = (ops.foldl Contents.apply c).history k := by
    intro k
    rw [Contents.history,Contents.history,sameVersions]
    rfl
  have known : (s.recorded (ops.map BatchOp.record)).contents.Ordered := by
    refine ⟨fun k => same k ▸ made.chain k,fun k v member => ?_⟩
    rw [same] at member
    exact (made.bound k v member).trans (Nat.le_of_eq sameSeq)
  rw [getAt_seq known,Contents.current,same]
  change (ops.foldl Contents.apply c).current key = _
  rw [← agrees.foldl_apply ops key,Contents.lookup_foldl_apply]
  rfl

/-- The operations with a record on the chain from page 0 on, and whether the session still adds to it. -/
def onFirst : List BatchOp × Bool → Op → List BatchOp × Bool
  | (first,growing),.reopen => (first,growing && first.isEmpty)
  | (first,true),op => (first ++ op.written,true)
  | (first,false),_ => (first,false)

def firstWrites (ops : List Op) : List BatchOp := (ops.foldl onFirst ([],true)).1

/-- The chain from page 0 on is the one this session adds to, or it lies before the pages of this session. -/
def FirstOnPages (s : Store) : List BatchOp × Bool → Prop
  | (first,true) => ∃ content, s.Chained [] content (first.map BatchOp.record) ∧ (s.hasPages = true → first ≠ [])
  | (first,false) => ∃ base content records, s.Chained base content records ∧ base ≠ [] ∧
      HoldsRecords base (first.map BatchOp.record)

variable {state : List BatchOp × Bool} {op : Op}

theorem FirstOnPages.holds (pages : s.FirstOnPages state) :
    ∃ content, s.pager.Shows content ∧ PagesOk content ∧ HoldsRecords content (state.1.map BatchOp.record) ∧
      (content = [] → state.2 = true) ∧ (state.2 = true → state.1 = [] → content = []) := by
  obtain ⟨first,_ | _⟩ := state
  · obtain ⟨base,content,records,chained,some,holds⟩ := pages
    have whole := holds.extend some chained.kept
    refine ⟨content,chained.shows,chained.pages,whole,fun none => ?_,fun absurd => nomatch absurd⟩
    have kept := chained.kept
    rw [none,List.take_nil] at kept
    exact absurd kept.symm some
  · obtain ⟨content,chained,filled⟩ := pages
    refine ⟨content,chained.shows,chained.pages,chained.holdsRecords,fun _ => rfl,?_⟩
    rintro - rfl
    cases has : s.hasPages with
    | false => exact (chained.empty has).2.1
    | true => exact absurd rfl (filled has)

theorem Chained.write {base : List Block} {m : Bytes → Option Bytes} (chained : s.Chained base content records)
    (means : s.Means m) (write : op.isWrite = true) (done : (op.run s).1 = .ok ()) :
    ∃ content', (op.run s).2.Chained base content' (records ++ op.written.map BatchOp.record) := by
  obtain ⟨c,holds,-,-⟩ := means.holds
  obtain ⟨fits,ran⟩ := op.run_eq holds write done
  obtain ⟨content',next⟩ := (chained.logged (s.wal ++ op.logged)).applyOps op.written
  rw [applied_of_fits fits] at next
  rw [ran,exec_bind]
  generalize (Store.applyOps op.written).exec _ = result at next ⊢
  obtain ⟨_ | _,s'⟩ := result
  · exact ⟨content',next⟩
  · exact ⟨content',next.congr rfl rfl rfl⟩

theorem write_nothing (write : op.isWrite = true) (none : op.written = []) : (op.run s).2.hasPages = s.hasPages := by
  cases op with
  | put | delete => cases none
  | applyBatch id ops =>
    obtain rfl : ops = [] := none
    rfl
  | flush | compact | reopen => cases write

theorem FirstOnPages.write {m : Bytes → Option Bytes} (pages : s.FirstOnPages state) (means : s.Means m)
    (write : op.isWrite = true) (done : (op.run s).1 = .ok ()) : (op.run s).2.FirstOnPages (onFirst state op) := by
  obtain ⟨first,_ | _⟩ := state
  · obtain ⟨base,content,records,chained,some,holds⟩ := pages
    obtain ⟨content',next⟩ := chained.write means write done
    have same : onFirst (first,false) op = (first,false) := by cases op <;> rfl
    rw [same]
    exact ⟨base,content',_,next,some,holds⟩
  · obtain ⟨content,chained,filled⟩ := pages
    obtain ⟨content',next⟩ := chained.write means write done
    have same : onFirst (first,true) op = (first ++ op.written,true) := by
      cases op with
      | reopen => cases write
      | put | delete | applyBatch | flush | compact => rfl
    rw [same]
    refine ⟨content',by simpa using next,fun has nothing => ?_⟩
    obtain ⟨rfl,none⟩ := List.append_eq_nil_iff.mp nothing
    exact filled (write_nothing write none ▸ has) rfl

theorem FirstOnPages.reopen (pages : s.FirstOnPages state) :
    (Store.reopen s).1 = .ok () ∧ (Store.reopen s).2.FirstOnPages (onFirst state .reopen) ∧
      (∀ key, (Store.reopen s).2.getAt (Store.reopen s).2.seq key = effects (fun _ => none) state.1 key) ∧
      ∃ content, (Store.reopen s).2.pager.Shows content ∧ HoldsRecords content (state.1.map BatchOp.record) := by
  obtain ⟨content,shows,sound,holds,grows,empty⟩ := pages.holds
  obtain ⟨p,result,shown⟩ := reopen_recorded shows sound holds
  obtain ⟨seq,versions,same⟩ := recorded_eq (loaded ⟨content,[],some s.index.entries⟩ s.index.entries)
    (state.1.map BatchOp.record)
  have seen := recorded_getAt (s := loaded ⟨content,[],some s.index.entries⟩ s.index.entries) state.1 rfl rfl
  have chained : Chained {(loaded ⟨content,[],some s.index.entries⟩ s.index.entries).recorded
      (state.1.map BatchOp.record) with pager := p} content content [] := by
    rw [same]
    exact ⟨shown,sound,List.take_length,nofun,fun _ => ⟨rfl,rfl,rfl⟩⟩
  rw [result]
  refine ⟨rfl,?_,seen,content,shown,holds⟩
  obtain ⟨first,growing⟩ := state
  change FirstOnPages _ (first,growing && first.isEmpty)
  -- Without a page so far the chain still has to start, and it does so with the next write.
  cases again : growing && first.isEmpty with
  | true =>
    obtain ⟨rfl,none⟩ := (Bool.and_eq_true_iff).mp again
    obtain rfl := List.isEmpty_iff.mp none
    obtain rfl := empty rfl rfl
    refine ⟨[],chained,fun has => ?_⟩
    rw [same] at has
    cases has
  | false =>
    refine ⟨content,content,[],chained,fun none => ?_,holds⟩
    obtain rfl : growing = true := grows none
    obtain rfl : first = [] := List.map_eq_nil_iff.mp (holds.1 none)
    cases again

structure Sessions (s : Store) (ops : List Op) : Prop where
  means : s.Means (effects (fun _ => none) (writes ops))
  pages : s.FirstOnPages (ops.foldl onFirst ([],true))

theorem created_sessions : created.Sessions [] := by
  refine ⟨created_means,[],⟨Pager.open_shows [],PagesOk.nil,rfl,nofun,fun _ => ⟨rfl,rfl,rfl⟩⟩,nofun⟩

theorem Sessions.step {ops : List Op} (sessions : s.Sessions ops) (kind : op.isWrite = true ∨ op = .reopen)
    (done : (op.run s).1 = .ok ()) : (op.run s).2.Sessions (ops ++ [op]) := by
  have means := run_means op sessions.means (fun _ _ _ => done)
  rw [done] at means
  have folded : (ops ++ [op]).foldl onFirst ([],true) = onFirst (ops.foldl onFirst ([],true)) op := by
    rw [List.foldl_append]
    rfl
  rcases kind with write | rfl
  · refine ⟨?_,folded ▸ sessions.pages.write sessions.means write done⟩
    rw [writes_concat,effects,List.foldl_append]
    change (op.run s).2.Means (effects (effects _ (writes ops)) op.written)
    rw [← op.effect_written write]
    exact means
  · refine ⟨?_,folded ▸ sessions.pages.reopen.2.1⟩
    rw [writes_concat,show Op.reopen.written = [] from rfl,List.append_nil]
    exact means

theorem run_sessions (ops : List Op) (kinds : ∀ op ∈ ops, op.isWrite = true ∨ op = .reopen)
    (done : ∀ answer ∈ (Runs.run Op.run ops created).1, answer.2 = .ok ()) :
    (after Op.run ops created).Sessions ops := by
  refine after_history (fun answer => (answer.1.isWrite = true ∨ answer.1 = .reopen) ∧ answer.2 = .ok ())
    (fun s ops op sessions good => sessions.step good.1 good.2) ops created [] created_sessions ?_
  rintro ⟨op,r⟩ member
  refine ⟨kinds op ?_,done _ member⟩
  rw [← run_requests Op.run ops created]
  exact List.mem_map_of_mem member

/-- The index, a snapshot taken now, and the records from page 0 on give the same answers. -/
def ViewsAgree (s : Store) : Prop :=
  (∀ key, s.beginSnapshot.2.getAt s.beginSnapshot.1 key = s.get key) ∧
    (∃ pages s', (pageChain 0).exec s = (.ok pages,s') ∧
      ∀ key, ((pages.flatMap (·.records.1)).foldl Record.applyTo []).lookup key = s.get key) ∧
    ∀ ord key, key ∈ s.beginSnapshot.2.keysAt ord s.beginSnapshot.1 ↔ (s.get key).isSome

theorem viewsAgree_iff {first : List BatchOp} (shows : s.pager.Shows content)
    (holds : HoldsRecords content (first.map BatchOp.record))
    (seen : ∀ key, s.getAt s.seq key = effects (fun _ => none) first key) :
    s.ViewsAgree ↔ ∀ key, s.get key = effects (fun _ => none) first key := by
  constructor
  · rintro ⟨same,-⟩ key
    rw [← same,← seen]
    rfl
  · intro same
    have taken : ∀ key, s.beginSnapshot.2.getAt s.beginSnapshot.1 key = s.get key :=
      fun key => (seen key).trans (same key).symm
    refine ⟨taken,?_,fun ord key => by rw [mem_keysAt,taken]⟩
    obtain ⟨segments,chain,none,flat⟩ := holds.segments
    obtain ⟨pages,s',walked,shape⟩ := pageChain_exec shows chain none
    refine ⟨pages,s',walked,fun key => ?_⟩
    rw [shape.flat.1,flat,same,foldl_record first ⟨[],0,∅,0⟩,Contents.lookup_foldl_apply]
    rfl

/-- Sessions of successful writes, each closed and followed by an `Open`. The last `Open` succeeds too, and
the three views agree after it just when the sessions after the first that wrote anything have, all in all,
changed the value of no key. -/
theorem reopened_views_agree_iff (ops : List Op) (kinds : ∀ op ∈ ops, op.isWrite = true ∨ op = .reopen)
    (done : ∀ answer ∈ (Runs.run Op.run ops created).1, answer.2 = .ok ()) :
    (reopen (after Op.run ops created)).1 = .ok () ∧
      ((reopen (after Op.run ops created)).2.ViewsAgree ↔
        ∀ key, effects (fun _ => none) (writes ops) key = effects (fun _ => none) (firstWrites ops) key) := by
  have sessions := run_sessions ops kinds done
  obtain ⟨opened,-,seen,content,shows,holds⟩ := sessions.pages.reopen
  obtain ⟨-,means⟩ := reopen_means sessions.means
  refine ⟨opened,?_⟩
  rw [viewsAgree_iff shows holds seen]
  simp only [means.get]
  rfl

theorem reopened_views_agree_once :
    (reopen (after Op.run [.put [1] [2],.put [3] [4],.delete [1],.reopen] created)).2.ViewsAgree := by
  have answers : ((Runs.run Op.run [.put [1] [2],.put [3] [4],.delete [1],.reopen] created).1.all
      fun answer => answer.2.isOk) = true := by decide +kernel
  refine (reopened_views_agree_iff _ (by decide) fun answer member => ?_).2.mpr fun key => rfl
  have done := List.all_eq_true.mp answers _ member
  rcases answer with ⟨op,_ | _⟩
  · cases done
  · rfl

theorem second_session_unseen :
    let s := after Op.run [.put [1] [2],.reopen,.put [3] [4],.reopen] created
    ((Runs.run Op.run [.put [1] [2],.reopen,.put [3] [4],.reopen] created).1.all fun answer => answer.2.isOk) = true ∧
      s.get [3] = some [4] ∧ s.beginSnapshot.2.getAt s.beginSnapshot.1 [3] = none ∧
      s.beginSnapshot.2.keysAt .stored s.beginSnapshot.1 = [[1]] := by
  decide +kernel

end GoDb.Store
