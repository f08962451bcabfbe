import GoDb.Semantics.Contents
import GoDb.StoreInvariant

/-! Every operation of a store keeps its invariant and does to its contents what the
operation is for. -/
namespace GoDb
open Foundation Outcome SortedEntries

variable {key value : Bytes}

namespace Store

variable {s s' : Store} {content : List Block} {c : Contents}

/-- The store is in order and holds these contents. -/
structure Holds (s : Store) (c : Contents) : Prop where
  ok : ∃ content, s.Ok content
  contents : s.contents = c

theorem Ok.holds (ok : s.Ok content) : s.Holds s.contents := ⟨⟨content,ok⟩,rfl⟩

theorem Holds.entries (holds : s.Holds c) : s.index.entries = c.entries := congrArg Contents.entries holds.contents

theorem Holds.get (holds : s.Holds c) (key : Bytes) : s.get key = c.entries.lookup key := by
  obtain ⟨content,ok⟩ := holds.ok
  rw [ok.get,holds.entries]

theorem Holds.increasing (holds : s.Holds c) : Increasing c.entries := by
  obtain ⟨content,ok⟩ := holds.ok
  rw [← holds.entries]
  exact ok.valid.increasing

theorem Holds.fits (holds : s.Holds c) : ∀ e ∈ c.entries, Fits e.1 e.2 := by
  obtain ⟨content,ok⟩ := holds.ok
  rw [← holds.entries]
  exact ok.fits

theorem fits_put {entries : List BTree.Entry} (fits : ∀ e ∈ entries, Fits e.1 e.2) (fit : Fits key value) :
    ∀ e ∈ SortedEntries.put key value entries, Fits e.1 e.2 := by
  intro e member
  rcases mem_put member with rfl | member
  · exact fit
  · exact fits e member

theorem fits_remove {entries : List BTree.Entry} (fits : ∀ e ∈ entries, Fits e.1 e.2) (key : Bytes) :
    ∀ e ∈ SortedEntries.remove key entries, Fits e.1 e.2 :=
  fun e member => fits e (List.mem_of_mem_filter member)

private theorem first_of_chain {first : Nat} {segments : List (Nat × List Record)}
    (chain : Segments content first segments) : first < content.length := by
  obtain ⟨_,_,_,here,-⟩ := chain.starts
  exact (List.getElem?_eq_some_iff.mp here).1

section append

variable {key value : Bytes} {flag : UInt8}

structure Base (s s' : Store) (key value : Bytes) (flag : UInt8) : Prop where
  pages : ∃ content, s'.pager.Shows content ∧ PagesOk content ∧ s'.firstPage < content.length
  wal : s'.wal = s.wal
  contents : s'.contents = (s.versioned key value flag).contents
  index : s'.index = s.index

private theorem append_fits (flag : UInt8) (ok : s.Ok content) (fit : Fits key value) :
    ∃ s' t, (append key value flag).exec s = (.ok (),s'.indexed t) ∧ Base s s' key value flag ∧
      (flag = flagLive → t = s.index.put key value) ∧
      (flag ≠ flagLive → t = s.index ∨ t = (s.index.delete key).1) := by
  obtain ⟨s₁,content₁,last,front,records,reached,pages,same⟩ := (ok.versioned key value flag).reached
  have index : s₁.index = s.index := by rw [same]; rfl
  by_cases room : last.data.free + (Record.mk flag key value).size ≤ PageSize
  · obtain ⟨page,written,done,shown,chain⟩ := append_room reached room
    refine ⟨_,_,done,⟨⟨_,shown,pages.written reached.here written,first_of_chain chain⟩,?_,?_,index⟩,?_,?_⟩
    · rw [same]
      rfl
    · rw [same]
      rfl
    · intro live
      rw [if_pos live,index]
    · intro dead
      rw [if_neg dead,index]
      exact .inl rfl
  · obtain ⟨page,written,done,shown,chain⟩ := append_full reached (Nat.lt_of_not_le room) fit
    refine ⟨_,_,done,⟨⟨_,shown,pages.linked reached.here written,first_of_chain chain⟩,?_,?_,index⟩,?_,?_⟩
    · rw [same]
      rfl
    · rw [same]
      rfl
    · intro live
      rw [if_pos live,index]
    · intro dead
      rw [if_neg dead,index]
      exact .inr rfl

private theorem Base.holds {t : BTree.Tree} (base : Base s s' key value flag) (valid : t.Valid)
    (fits : ∀ e ∈ t.entries, Fits e.1 e.2) :
    (s'.indexed t).Holds {s.contents.version key value (flag = flagLive) with entries := t.entries} := by
  obtain ⟨content,shows,pages,first⟩ := base.pages
  refine ⟨⟨content,shows,pages,valid,fits,fun _ => first⟩,?_⟩
  have rest := base.contents
  simp only [Store.contents,Contents.mk.injEq] at rest
  obtain ⟨-,seq,versions,leases⟩ := rest
  simp only [Store.contents,indexed,seq,versions,leases]
  rfl

theorem append_live (holds : s.Holds c) (fit : Fits key value) :
    ∃ s', (append key value flagLive).exec s = (.ok (),s') ∧ s'.wal = s.wal ∧
      s'.indexFile = some s'.index.entries ∧ s'.Holds ((c.version key value true).put key value) := by
  obtain ⟨⟨content,ok⟩,rfl⟩ := holds
  obtain ⟨s₁,t,done,base,live,-⟩ := append_fits flagLive ok fit
  obtain rfl := live rfl
  obtain ⟨valid,entries⟩ := BTree.put_valid ok.valid key value
  refine ⟨_,done,base.wal,rfl,?_⟩
  have held := base.holds valid (by rw [entries]; exact fits_put ok.fits fit)
  rw [entries] at held
  exact held

theorem append_tombstone (holds : s.Holds c) (fit : Fits key value) :
    ∃ s', (append key value flagTombstone).exec s = (.ok (),s') ∧ s'.wal = s.wal ∧
      s'.indexFile = some s'.index.entries ∧
        (s'.Holds (c.version key value false) ∨ s'.Holds ((c.version key value false).remove key)) := by
  obtain ⟨⟨content,ok⟩,rfl⟩ := holds
  obtain ⟨s₁,t,done,base,-,dead⟩ := append_fits flagTombstone ok fit
  refine ⟨_,done,base.wal,rfl,?_⟩
  rcases dead (by decide) with rfl | rfl
  · exact .inl (base.holds ok.valid ok.fits)
  · obtain ⟨valid,entries,-⟩ := BTree.delete_valid ok.valid key
    have held := base.holds valid (by rw [entries]; exact fits_remove ok.fits key)
    rw [entries] at held
    exact .inr held

theorem append_too_large (flag : UInt8) (holds : s.Holds c) (large : ¬Fits key value) :
    ∃ s', (append key value flag).exec s = (.error (.recordTooLarge .pageFull),s') ∧ s'.wal = s.wal ∧
      s'.Holds (c.version key value (flag = flagLive)) := by
  obtain ⟨⟨content,ok⟩,rfl⟩ := holds
  obtain ⟨s₁,content₁,last,front,records,reached,pages,same⟩ := (ok.versioned key value flag).reached
  obtain ⟨done,shown⟩ := append_large reached (Nat.lt_of_not_le large)
  have index : s₁.index = s.index := by rw [same]; rfl
  refine ⟨_,done,?_,⟨_,shown,pages.concat,?_,?_,fun _ => ?_⟩,?_⟩
  · rw [same]
    rfl
  · rw [index]
    exact ok.valid
  · rw [index]
    exact ok.fits
  · rw [List.length_append]
    exact Nat.lt_add_right _ (first_of_chain reached.chain)
  · rw [same]
    rfl

end append

theorem Holds.indexDelete (holds : s.Holds c) (key : Bytes) :
    Holds {s with index := (s.index.delete key).1} (c.remove key) := by
  obtain ⟨⟨content,ok⟩,rfl⟩ := holds
  obtain ⟨valid,entries,-⟩ := BTree.delete_valid ok.valid key
  refine ⟨⟨content,ok.shows,ok.pages,valid,?_,ok.first⟩,?_⟩
  · rw [entries]
    exact fits_remove ok.fits key
  · simp only [Store.contents,entries]
    rfl

theorem Holds.files (holds : s.Holds c) (wal : Bytes) (indexFile : Option (List BTree.Entry)) :
    Holds {s with wal := wal,indexFile := indexFile} c := by
  obtain ⟨⟨content,ok⟩,rfl⟩ := holds
  exact ⟨⟨content,ok.shows,ok.pages,ok.valid,ok.fits,ok.first⟩,rfl⟩

theorem remove_remove (c : Contents) (key : Bytes) : (c.remove key).remove key = c.remove key := by
  simp [Contents.remove,SortedEntries.remove]

def told (s : Store) (op : BatchOp) : Store := if op.delete then {s with index := (s.index.delete op.key).1} else s

theorem append_told (holds : s.Holds c) (op : BatchOp) (fit : Fits op.key op.value) :
    ∃ s', (append op.key op.value op.record.flag).exec s = (.ok (),s') ∧ s'.wal = s.wal ∧
      s'.indexFile = some s'.index.entries ∧ (s'.told op).Holds (c.apply op) := by
  rcases op with ⟨key,value,_ | _⟩
  · exact append_live holds fit
  · obtain ⟨s',done,wal,saved,held⟩ := append_tombstone holds fit
    refine ⟨s',done,wal,saved,?_⟩
    rcases held with held | held
    · exact held.indexDelete key
    · change Holds _ ((c.version key value false).remove key)
      rw [← remove_remove]
      exact held.indexDelete key

theorem applyOps_cons {op : BatchOp} (done : (append op.key op.value op.record.flag).exec s = (.ok (),s'))
    (ops : List BatchOp) : (applyOps (op::ops)).exec s = (applyOps ops).exec (s'.told op) := by
  have first : (append op.key op.value (if op.delete then flagTombstone else flagLive)).exec s = (.ok (),s') := done
  rw [applyOps,exec_bind_ok first]
  unfold told
  split <;> rfl

theorem applyOps_error {op : BatchOp} {e : Error}
    (failed : (append op.key op.value op.record.flag).exec s = (.error e,s')) (ops : List BatchOp) :
    (applyOps (op::ops)).exec s = (.error e,s') := by
  have first : (append op.key op.value (if op.delete then flagTombstone else flagLive)).exec s = (.error e,s') :=
    failed
  rw [applyOps,exec_bind_error first]

@[simp] theorem exec_onWal (x : Bytes → Except Error Unit × Bytes) (s : Store) :
    (onWal x).exec s = ((x s.wal).1,{s with wal := (x s.wal).2}) := rfl

theorem Fits.short (fit : Fits key value) : key.length + value.length < 4096 := by
  unfold Fits recordSize HeaderSize PageSize recordHeaderSize at fit
  omega

/-- The outcomes of a single write whose success gives `after`. -/
inductive WriteOutcome (s : Store) (c after : Contents) (key value : Bytes) (live : Bool) :
    Except Error Unit × Store → Prop
  | done {s' : Store} (fit : Fits key value) (holds : s'.Holds after) :
      WriteOutcome s c after key value live (.ok (),s')
  | tooLarge {s' : Store} (large : ¬Fits key value) (holds : s'.Holds (c.version key value live)) :
      WriteOutcome s c after key value live (.error (.recordTooLarge .pageFull),s')
  | walTooLarge (large : ¬Fits key value) : WriteOutcome s c after key value live (.error .walRecordTooLarge,s)

theorem WriteOutcome.of_ok {after : Contents} {live : Bool} {result : Except Error Unit × Store}
    (outcome : WriteOutcome s c after key value live result) (done : result.1 = .ok ()) :
    Fits key value ∧ result.2.Holds after := by
  cases outcome with
  | done fit holds => exact ⟨fit,holds⟩
  | tooLarge | walTooLarge => cases done

theorem put_exec (short : key.length + value.length < 2^32) (s : Store) :
    (put key value).exec s =
      (append key value flagLive).exec {s with wal := s.wal ++ Wal.record walPut key value} := by
  unfold put
  rw [exec_bind,exec_onWal,Wal.append,if_neg (by omega)]

theorem delete_exec (short : key.length < 2^32) (s : Store) :
    (delete key).exec s = (do append key [] flagTombstone; indexDelete key; saveIndex).exec
      {s with wal := s.wal ++ Wal.record walDelete key []} := by
  unfold delete
  rw [exec_bind,exec_onWal,Wal.append,if_neg (by simpa using Nat.le_pred_of_lt short)]

theorem put_long (long : 2^32 ≤ key.length + value.length) (s : Store) :
    ¬Fits key value ∧ (put key value).exec s = (.error .walRecordTooLarge,s) := by
  refine ⟨fun fit => absurd (fit.short.trans (by decide)) (Nat.not_lt_of_le long),?_⟩
  unfold put
  rw [exec_bind,exec_onWal,Wal.append,if_pos (by omega)]

theorem delete_long (long : 2^32 ≤ key.length) (s : Store) :
    ¬Fits key [] ∧ (delete key).exec s = (.error .walRecordTooLarge,s) := by
  refine ⟨fun fit => absurd (fit.short.trans (by decide)) (Nat.not_lt_of_le long),?_⟩
  unfold delete
  rw [exec_bind,exec_onWal,Wal.append,List.length_nil,if_pos (by omega)]

theorem put_outcome (holds : s.Holds c) (key value : Bytes) :
    WriteOutcome s c ((c.version key value true).put key value) key value true ((put key value).exec s) := by
  by_cases short : key.length + value.length < 2^32
  · rw [put_exec short]
    have logged := holds.files (s.wal ++ Wal.record walPut key value) s.indexFile
    by_cases fit : Fits key value
    · obtain ⟨s',done,-,-,held⟩ := append_live logged fit
      rw [done]
      exact .done fit held
    · obtain ⟨s',failed,-,held⟩ := append_too_large flagLive logged fit
      rw [failed]
      exact .tooLarge fit held
  · obtain ⟨large,failed⟩ := put_long (Nat.le_of_not_lt short) s
    rw [failed]
    exact .walTooLarge large

theorem delete_outcome (holds : s.Holds c) (key : Bytes) :
    WriteOutcome s c ((c.version key [] false).remove key) key [] false ((delete key).exec s) := by
  by_cases short : key.length < 2^32
  · rw [delete_exec short]
    have logged := holds.files (s.wal ++ Wal.record walDelete key []) s.indexFile
    by_cases fit : Fits key []
    · obtain ⟨s',done,-,-,held⟩ := append_told logged ⟨key,[],true⟩ fit
      rw [exec_bind_ok (show (append key [] flagTombstone).exec _ = _ from done)]
      exact .done fit (held.files _ _)
    · obtain ⟨s',failed,-,held⟩ := append_too_large flagTombstone logged fit
      rw [exec_bind_error failed]
      exact .tooLarge fit held
  · obtain ⟨large,failed⟩ := delete_long (Nat.le_of_not_lt short) s
    rw [failed]
    exact .walTooLarge large

/-- The outcomes of a batch: all operations are applied, or those before the first that fits no page. -/
inductive BatchOutcome (c : Contents) (ops : List BatchOp) : Except Error Unit × Store → Prop
  | done {s' : Store} (fit : ∀ op ∈ ops, Fits op.key op.value) (holds : s'.Holds (ops.foldl Contents.apply c)) :
      BatchOutcome c ops (.ok (),s')
  | tooLarge {s' : Store} (before : List BatchOp) (op : BatchOp) (after : List BatchOp)
      (split : ops = before ++ op::after) (fit : ∀ op ∈ before, Fits op.key op.value)
      (large : ¬Fits op.key op.value)
      (holds : s'.Holds ((before.foldl Contents.apply c).version op.key op.value !op.delete)) :
      BatchOutcome c ops (.error (.recordTooLarge .pageFull),s')

private theorem applyOps_outcome (holds : s.Holds c) (ops : List BatchOp) :
    BatchOutcome c ops ((applyOps ops).exec s) := by
  induction ops generalizing s c with
  | nil => exact .done (fun _ member => nomatch member) holds
  | cons op ops ih =>
    by_cases fit : Fits op.key op.value
    · obtain ⟨s',done,-,-,held⟩ := append_told holds op fit
      have outcome := ih held
      rw [applyOps_cons done]
      generalize (applyOps ops).exec (s'.told op) = result at outcome ⊢
      rcases outcome with ⟨fits,final⟩ | ⟨before,failing,after,rfl,fits,large,final⟩
      · exact .done (List.forall_mem_cons.mpr ⟨fit,fits⟩) final
      · exact .tooLarge (op::before) failing after rfl (List.forall_mem_cons.mpr ⟨fit,fits⟩) large final
    · obtain ⟨s',failed,-,held⟩ := append_too_large op.record.flag holds fit
      rw [applyOps_error failed]
      refine .tooLarge [] op ops rfl (fun _ member => nomatch member) fit ?_
      cases kind : op.delete <;> simpa [BatchOp.record,kind,flagTombstone,flagLive] using held

def Short (op : BatchOp) : Prop := 8 + op.key.length + op.value.length < 2^32

instance (op : BatchOp) : Decidable (Short op) := inferInstanceAs (Decidable (_ < _))

theorem Fits.shortOp {op : BatchOp} (fit : Fits op.key op.value) : Short op := by
  have := fit.short
  unfold Short
  omega

theorem appendTransaction_result (id : Nat) (ops : List BatchOp) (wal : Bytes) :
    (∀ op ∈ ops, Short op) ∧ (Wal.appendTransaction id ops wal).1 = .ok () ∨
      (∃ op ∈ ops, ¬Short op) ∧ (Wal.appendTransaction id ops wal).1 = .error .walRecordTooLarge := by
  induction ops generalizing wal with
  | nil => exact .inl ⟨List.forall_mem_nil _,by simp [Wal.appendTransaction,Wal.append]⟩
  | cons op ops ih =>
    unfold Wal.appendTransaction Wal.append
    have width : (LittleEndian.put 8 id ++ op.key).length + op.value.length = 8 + op.key.length + op.value.length := by
      rw [List.length_append,LittleEndian.length_put]
    split_ifs with long
    · refine .inr ⟨⟨op,List.mem_cons_self,fun short => ?_⟩,rfl⟩
      unfold Short at short
      omega
    · have short : Short op := by
        unfold Short
        omega
      rcases ih (wal ++ Wal.record (Wal.txKind op) (LittleEndian.put 8 id ++ op.key) op.value) with
        ⟨rest,done⟩ | ⟨⟨large,member,unfit⟩,failed⟩
      · exact .inl ⟨List.forall_mem_cons.mpr ⟨short,rest⟩,done⟩
      · exact .inr ⟨⟨large,List.mem_cons_of_mem _ member,unfit⟩,failed⟩

theorem applyBatch_outcome (holds : s.Holds c) (id : Nat) (ops : List BatchOp) :
    (∀ op ∈ ops, Short op) ∧ BatchOutcome c ops ((applyBatch id ops).exec s) ∨
      (∃ op ∈ ops, ¬Short op) ∧ ∃ s', (applyBatch id ops).exec s = (.error .walRecordTooLarge,s') ∧ s'.Holds c := by
  rcases appendTransaction_result id ops s.wal with ⟨short,logged⟩ | ⟨long,failed⟩
  · have outcome := applyOps_outcome (holds.files (Wal.appendTransaction id ops s.wal).2 s.indexFile) ops
    refine .inl ⟨short,?_⟩
    have ran : (onWal (Wal.appendTransaction id ops)).exec s =
        (.ok (),{s with wal := (Wal.appendTransaction id ops s.wal).2}) := by rw [exec_onWal,logged]
    unfold applyBatch
    rw [exec_bind_ok ran,exec_bind]
    generalize (applyOps ops).exec _ = result at outcome ⊢
    rcases outcome with ⟨fits,final⟩ | ⟨before,failing,after,split,fits,large,final⟩
    · exact .done fits (final.files _ _)
    · exact .tooLarge before failing after split fits large final
  · have ran : (onWal (Wal.appendTransaction id ops)).exec s =
        (.error .walRecordTooLarge,{s with wal := (Wal.appendTransaction id ops s.wal).2}) := by
      rw [exec_onWal,failed]
    exact .inr ⟨long,_,exec_bind_error ran,holds.files _ _⟩

theorem applyBatch_of_ok (holds : s.Holds c) {id : Nat} {ops : List BatchOp}
    (done : ((applyBatch id ops).exec s).1 = .ok ()) :
    (∀ op ∈ ops, Fits op.key op.value) ∧ ((applyBatch id ops).exec s).2.Holds (ops.foldl Contents.apply c) := by
  have outcome := applyBatch_outcome holds id ops
  generalize (applyBatch id ops).exec s = result at outcome done ⊢
  rcases outcome with ⟨-,outcome⟩ | ⟨-,s',rfl,-⟩
  · cases outcome with
    | done fits final => exact ⟨fits,final⟩
    | tooLarge => cases done
  · cases done

def flushed (s : Store) (p : Pager) : Store := {s with pager := p,indexFile := some s.index.entries,wal := []}

theorem flush_flushed (shows : s.pager.Shows content) :
    flush.exec s = (.ok (),s.flushed s.pager.flush.2) ∧ s.pager.flush.2.Shows content ∧
      s.pager.flush.2.file = content := by
  obtain ⟨p,done,shown,file⟩ := shows.flush
  unfold flush
  rw [exec_bind,exec_onPager,done]
  exact ⟨rfl,shown,file⟩

theorem flush_exec (ok : s.Ok content) :
    ∃ s', flush.exec s = (.ok (),s') ∧ s'.Ok content ∧ s'.contents = s.contents ∧
      s'.image = ⟨content,[],some s.index.entries⟩ := by
  obtain ⟨done,shown,file⟩ := flush_flushed ok.shows
  refine ⟨_,done,⟨shown,ok.pages,ok.valid,ok.fits,ok.first⟩,rfl,?_⟩
  rw [flushed,image,file]

end Store
end GoDb
