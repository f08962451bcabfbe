import GoDb.Foundation.Keeps
import GoDb.WalLog

/-! What `append`, `ApplyBatch` and `Open` keep: whatever the page operations keep, and the
changes of the state in memory. -/
namespace GoDb.Store
open Foundation Outcome

structure ReadFrame (R : Store → Store → Prop) : Prop where
  frame : Frame R
  readPage : ∀ id, Proc.Keeps R (onPager (·.readPage id))

/-- A relation that the page operations and new versions keep, and that holds when neither the pages nor the log nor
the versions change. -/
structure PageFrame (R : Store → Store → Prop) : Prop extends ReadFrame R where
  writePage : ∀ page, Proc.Keeps R (onPager (·.writePage page))
  allocatePage : Proc.Keeps R (onPager (·.allocatePage))
  addVersion : ∀ key value flag, Proc.Keeps R (addVersion key value flag)
  memory : ∀ {s s' : Store}, s'.pager = s.pager → s'.wal = s.wal → s'.seq = s.seq → s'.versions = s.versions →
    R s s'

theorem keeps_wrap {R : Store → Store → Prop} (frame : Frame R) {x : StoreM Unit} (context : Error → Error)
    (first : Proc.Keeps R x) : Proc.Keeps R (wrap context x) :=
  Keeps.tryCatch frame first fun _ => Keeps.throw frame _

namespace ReadFrame

variable {R : Store → Store → Prop} (kept : ReadFrame R)
include kept

theorem followChain (fuel : Nat) (page : Page) : Proc.Keeps R (followChain fuel page) := by
  induction fuel generalizing page with
  | zero => exact Keeps.throw kept.frame _
  | succ fuel ih =>
    unfold Store.followChain
    cases page.nextPageID with
    | none => exact Keeps.pure kept.frame _
    | some next => exact Keeps.bind kept.frame (kept.readPage next) ih

theorem validatePage (numPages id : Nat) : Proc.Keeps R (validatePage numPages id) := by
  have refused {α : Type} (e : Error) (f : PUnit → StoreM α) : Proc.Keeps R (throw e >>= f) :=
    fun s => kept.frame.refl s
  refine Keeps.bind kept.frame (kept.readPage id) fun page => ?_
  refine Keeps.ite (fun _ => refused _ _) fun _ => Keeps.ite (fun _ => refused _ _) fun _ => ?_
  cases page.records.2 with
  | none =>
    cases page.nextPageID with
    | none => exact Keeps.pure kept.frame _
    | some next => exact Keeps.ite (fun _ => refused _ _) fun _ => Keeps.pure kept.frame _
  | some e =>
    cases page.nextPageID with
    | none => exact Keeps.throw kept.frame _
    | some next => exact Keeps.ite (fun _ => refused _ _) fun _ => Keeps.throw kept.frame _

theorem validatePages : Proc.Keeps R validatePages := by
  have each (numPages : Nat) (ids : List Nat) : Proc.Keeps R (validateFrom numPages ids) := by
    induction ids with
    | nil => exact Keeps.pure kept.frame _
    | cons id ids ih => exact Keeps.bind kept.frame (kept.validatePage numPages id) fun _ => ih
  exact Keeps.get_bind fun s => each _ _ s

end ReadFrame

structure AppendFrame (R : Store → Store → Prop) : Prop extends ReadFrame R where
  writePage : ∀ page, Proc.Keeps R (onPager (·.writePage page))
  allocatePage : Proc.Keeps R (onPager (·.allocatePage))
  addVersion : ∀ key value flag, Proc.Keeps R (addVersion key value flag)
  saveIndex : Proc.Keeps R saveIndex
  indexPut : ∀ key value, Proc.Keeps R (indexPut key value)
  indexDelete : ∀ key, Proc.Keeps R (indexDelete key)
  begins : ∀ id, Proc.Keeps R (modify fun s => {s with firstPage := id,hasPages := true} : StoreM PUnit)

namespace AppendFrame

variable {R : Store → Store → Prop} (kept : AppendFrame R)
include kept

theorem lastPage : Proc.Keeps R lastPage := by
  refine Keeps.get_bind fun s => ?_
  cases s.hasPages with
  | true => exact Keeps.bind kept.frame (kept.readPage _) (kept.followChain _) s
  | false =>
    refine Keeps.bind kept.frame kept.allocatePage (fun page => ?_) s
    exact Keeps.bind kept.frame (kept.begins page.id) fun _ => Keeps.pure kept.frame _

theorem append (key value : Bytes) (flag : UInt8) : Proc.Keeps R (append key value flag) := by
  refine Keeps.bind kept.frame (kept.addVersion key value flag) fun _ => ?_
  refine Keeps.bind kept.frame kept.lastPage fun last => ?_
  have put : Proc.Keeps R (Store.indexPut key value >>= fun _ => Store.saveIndex) :=
    Keeps.bind kept.frame (kept.indexPut key value) fun _ => kept.saveIndex
  have deleted : Proc.Keeps R (Store.indexDelete key >>= fun _ => Store.saveIndex) :=
    Keeps.bind kept.frame (kept.indexDelete key) fun _ => kept.saveIndex
  cases writeRecord last key value flag with
  | ok last =>
    refine Keeps.bind kept.frame (kept.writePage last) fun _ => ?_
    exact Keeps.ite (fun _ => put) fun _ => kept.saveIndex
  | error =>
    refine Keeps.bind kept.frame kept.allocatePage fun page => ?_
    cases writeRecord page key value flag with
    | error => exact Keeps.throw kept.frame _
    | ok page =>
      refine Keeps.bind kept.frame (kept.writePage _) fun _ => Keeps.bind kept.frame (kept.writePage _) fun _ => ?_
      exact Keeps.ite (fun _ => put) fun _ => deleted

theorem applyOps (ops : List BatchOp) : Proc.Keeps R (applyOps ops) := by
  induction ops with
  | nil => exact Keeps.pure kept.frame _
  | cons op ops ih =>
    refine Keeps.bind kept.frame (kept.append _ _ _) fun _ => ?_
    exact Keeps.ite (fun _ => Keeps.bind kept.frame (kept.indexDelete _) fun _ => ih) fun _ => ih

section logged

variable (logged : ∀ f, Proc.Keeps R (onWal f))
include logged

theorem put (key value : Bytes) : Proc.Keeps R (put key value) :=
  Keeps.bind kept.frame (logged _) fun _ => kept.append _ _ _

theorem delete (key : Bytes) : Proc.Keeps R (delete key) := by
  refine Keeps.bind kept.frame (logged _) fun _ => Keeps.bind kept.frame (kept.append _ _ _) fun _ => ?_
  exact Keeps.bind kept.frame (kept.indexDelete key) fun _ => kept.saveIndex

theorem applyBatch (id : Nat) (ops : List BatchOp) : Proc.Keeps R (applyBatch id ops) := by
  refine Keeps.bind kept.frame (logged _) fun _ => ?_
  exact Keeps.bind kept.frame (kept.applyOps ops) fun _ => kept.saveIndex

end logged

end AppendFrame

namespace PageFrame

variable {R : Store → Store → Prop} (kept : PageFrame R)
include kept

theorem modify {f : Store → Store}
    (same : ∀ s, (f s).pager = s.pager ∧ (f s).wal = s.wal ∧ (f s).seq = s.seq ∧ (f s).versions = s.versions) :
    Proc.Keeps R (modify f : StoreM PUnit) :=
  Keeps.modify fun s => kept.memory (same s).1 (same s).2.1 (same s).2.2.1 (same s).2.2.2

theorem steps : AppendFrame R where
  toReadFrame := kept.toReadFrame
  writePage := kept.writePage
  allocatePage := kept.allocatePage
  addVersion := kept.addVersion
  saveIndex := kept.modify fun _ => ⟨rfl,rfl,rfl,rfl⟩
  indexPut _ _ := kept.modify fun _ => ⟨rfl,rfl,rfl,rfl⟩
  indexDelete _ := kept.modify fun _ => ⟨rfl,rfl,rfl,rfl⟩
  begins _ := kept.modify fun _ => ⟨rfl,rfl,rfl,rfl⟩

theorem applyAll {apply : UInt8 → Bytes → Bytes → StoreM Unit} (each : ∀ op key value, Proc.Keeps R (apply op key value))
    (ops : List BatchOp) : Proc.Keeps R (Wal.applyAll apply ops) := by
  induction ops with
  | nil => exact Keeps.pure kept.frame _
  | cons op ops ih => exact Keeps.bind kept.frame (each _ _ _) fun _ => ih

theorem replayFrom {apply : UInt8 → Bytes → Bytes → StoreM Unit} (each : ∀ op key value, Proc.Keeps R (apply op key value))
    (fuel : Nat) (bytes : Bytes) (pending : Nat → List BatchOp) :
    Proc.Keeps R (Wal.replayFrom apply fuel bytes pending) := by
  induction fuel generalizing bytes pending with
  | zero => exact Keeps.throw kept.frame _
  | succ fuel ih =>
    rw [Wal.replayFrom]
    cases Wal.next bytes with
    | stop => exact Keeps.pure kept.frame _
    | bad e => exact Keeps.throw kept.frame _
    | record op key value rest =>
      refine Keeps.ite (fun _ => Keeps.ite (fun _ => Keeps.throw kept.frame _) fun _ => ih _ _) fun _ => ?_
      refine Keeps.ite (fun _ => Keeps.ite (fun _ => Keeps.throw kept.frame _) fun _ => ?_) fun _ => ?_
      · exact Keeps.bind kept.frame (kept.applyAll each _) fun _ => ih _ _
      · exact Keeps.bind kept.frame (each _ _ _) fun _ => ih _ _

theorem loadIndex : Proc.Keeps R loadIndex := by
  refine Keeps.get_bind fun s => ?_
  cases s.indexFile with
  | none => exact kept.frame.refl s
  | some entries =>
    refine Keeps.bind kept.frame ?_ (fun _ => Keeps.pure kept.frame _) s
    exact kept.modify fun _ => ⟨rfl,rfl,rfl,rfl⟩

theorem rebuild {visit : Record → StoreM Unit} (each : ∀ r, Proc.Keeps R (visit r)) : Proc.Keeps R (rebuild visit) := by
  have records (rs : List Record) : Proc.Keeps R (eachRecord visit rs) := by
    induction rs with
    | nil => exact Keeps.pure kept.frame _
    | cons r rs ih => exact Keeps.bind kept.frame (each r) fun _ => ih
  have pages (fuel id : Nat) : Proc.Keeps R (rebuildFrom visit fuel id) := by
    induction fuel generalizing id with
    | zero => exact Keeps.throw kept.frame _
    | succ fuel ih =>
      refine Keeps.bind kept.frame (kept.readPage id) fun page => Keeps.bind kept.frame (records _) fun _ => ?_
      cases page.records.2 with
      | some e => exact Keeps.throw kept.frame _
      | none =>
        cases page.nextPageID with
        | none => exact Keeps.pure kept.frame _
        | some next => exact ih next
  exact Keeps.get_bind fun s => pages _ _ s

theorem rebuildVersions : Proc.Keeps R rebuildVersions := kept.rebuild fun _ => kept.addVersion _ _ _

theorem rebuildIndex : Proc.Keeps R rebuildIndex := by
  refine kept.rebuild fun r => Keeps.ite (fun _ => ?_) fun _ => ?_
  · exact Keeps.bind kept.frame (kept.steps.indexDelete _) fun _ => kept.addVersion _ _ _
  · exact Keeps.bind kept.frame (kept.steps.indexPut _ _) fun _ => kept.addVersion _ _ _

theorem recover : Proc.Keeps R recover := by
  refine Keeps.bind kept.frame (keeps_wrap kept.frame _ kept.validatePages) fun _ => ?_
  refine Keeps.bind kept.frame kept.loadIndex fun indexLoaded => Keeps.get_bind fun s => ?_
  have replayed := kept.replayFrom (fun op key value => kept.steps.append key value (replayFlag op)) (s.wal.length + 1) s.wal
  refine Keeps.bind kept.frame (keeps_wrap kept.frame _ (replayed fun _ => [])) (fun _ => ?_) s
  have saved : Proc.Keeps R (if (!indexLoaded) = true then Store.saveIndex else pure PUnit.unit) :=
    Keeps.ite (fun _ => kept.steps.saveIndex) fun _ => Keeps.pure kept.frame _
  refine Keeps.get_bind fun s => Keeps.ite (fun _ => ?_) (fun _ => saved) s
  refine Keeps.ite (fun _ => ?_) fun _ => ?_
  · exact Keeps.bind kept.frame kept.rebuildVersions fun _ => saved
  · refine Keeps.bind kept.frame (kept.modify fun _ => ⟨rfl,rfl,rfl,rfl⟩) fun _ => ?_
    exact Keeps.bind kept.frame kept.rebuildIndex fun _ => saved

end PageFrame

theorem sameWal : PageFrame fun s s' => s'.wal = s.wal where
  frame := ⟨fun _ => rfl,fun first second => second.trans first⟩
  readPage _ _ := rfl
  writePage _ _ := rfl
  allocatePage _ := rfl
  addVersion _ _ _ _ := rfl
  memory _ same _ _ := same

theorem recover_of_open {i : Image} {s : Store} (opened : (Store.open i).1 = .ok s) :
    recover.exec (fresh i) = (.ok (),s) := by
  unfold Store.open at opened
  generalize recover.exec (fresh i) = result at opened ⊢
  rcases result with ⟨_ | _,s'⟩
  · cases opened
  · rw [Except.ok.inj opened]

theorem open_wal {i : Image} {s : Store} (opened : (Store.open i).1 = .ok s) : s.wal = i.wal := by
  have kept := sameWal.recover (fresh i)
  rwa [recover_of_open opened] at kept

theorem wal_of_write (r : TransactionLog.LogCall Nat BatchOp) {rest : StoreM Unit}
    (kept : Proc.Keeps (fun s s' => s'.wal = s.wal) rest) (s : Store) :
    ((onWal (Wal.write r) >>= fun _ => rest).exec s).2.wal = s.wal ++ (Wal.logged r).flatMap Wal.entryBytes := by
  have ran : (onWal (Wal.write r)).exec s = ((Wal.write r s.wal).1,{s with wal := (Wal.write r s.wal).2}) := rfl
  rw [← Wal.write_logged,exec_bind,ran]
  cases (Wal.write r s.wal).1 with
  | error e => rfl
  | ok => exact kept {s with wal := (Wal.write r s.wal).2}

end GoDb.Store
