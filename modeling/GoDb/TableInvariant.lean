import GoDb.Foundation.Keeps
import GoDb.Semantics.History
import GoDb.StoreMeaning
import GoDb.Table
import Mathlib.Data.List.Forall2

/-! What every operation of a table keeps, whether it succeeds or fails: its store is in
order, and the histories of its keys only grow. -/
namespace GoDb
open Foundation Outcome

variable {entries : List BTree.Entry} {ops : List BatchOp}

namespace Store

variable {P : Bytes → Prop}

/-- The store is in order, and its live values are all of one kind. -/
structure Sound (P : Bytes → Prop) (s : Store) : Prop where
  ok : ∃ content, s.Ok content
  ordered : s.contents.Ordered
  values : ∀ e ∈ s.index.entries, P e.2

def Steps (P : Bytes → Prop) (s s' : Store) : Prop := s.Sound P → s'.Sound P ∧ s.contents.Moves s'.contents

theorem steps : Frame (Steps P) where
  refl s sound := ⟨sound,.refl _⟩
  trans first second sound := by
    obtain ⟨middle,moves⟩ := first sound
    obtain ⟨last,more⟩ := second middle
    exact ⟨last,moves.trans more⟩

variable {s s' : Store} {c : Contents}

theorem Sound.holds (sound : s.Sound P) : s.Holds s.contents := ⟨sound.ok,rfl⟩

theorem Holds.sound (holds : s.Holds c) (ordered : c.Ordered) (values : ∀ e ∈ c.entries, P e.2) : s.Sound P := by
  refine ⟨holds.ok,holds.contents ▸ ordered,?_⟩
  rw [holds.entries]
  exact values

private theorem steps_to (holds : s'.Holds c) (ordered : c.Ordered) (values : ∀ e ∈ c.entries, P e.2)
    (moves : s.contents.Moves c) : s'.Sound P ∧ s.contents.Moves s'.contents :=
  ⟨holds.sound ordered values,holds.contents.symm ▸ moves⟩

theorem values_put {key value : Bytes} (values : ∀ e ∈ entries, P e.2) (new : P value) :
    ∀ e ∈ SortedEntries.put key value entries, P e.2 := by
  intro e member
  rcases SortedEntries.mem_put member with rfl | member
  · exact new
  · exact values e member

theorem values_remove (key : Bytes) (values : ∀ e ∈ entries, P e.2) :
    ∀ e ∈ SortedEntries.remove key entries, P e.2 := fun e member => values e (List.mem_of_mem_filter member)

theorem values_apply {op : BatchOp} (values : ∀ e ∈ c.entries, P e.2) (new : op.delete = false → P op.value) :
    ∀ e ∈ (c.apply op).entries, P e.2 := by
  unfold Contents.apply
  split_ifs with kind
  · exact values_remove op.key values
  · exact values_put values (new (Bool.eq_false_iff.mpr kind))

theorem values_applyAll (values : ∀ e ∈ c.entries, P e.2) (new : ∀ op ∈ ops, op.delete = false → P op.value) :
    ∀ e ∈ (ops.foldl Contents.apply c).entries, P e.2 := by
  induction ops generalizing c with
  | nil => exact values
  | cons op ops ih =>
    exact ih (values_apply values (new op List.mem_cons_self)) fun op member => new op (List.mem_cons_of_mem _ member)

private theorem WriteOutcome.steps {key value : Bytes} {live : Bool} {result : Except Error Unit × Store}
    (outcome : WriteOutcome s s.contents {s.contents.version key value live with entries := entries} key value live result)
    (others : ∀ k, k ≠ key → entries.lookup k = s.contents.entries.lookup k)
    (values : s.Sound P → ∀ e ∈ entries, P e.2) : s.Steps P result.2 := by
  intro sound
  cases outcome with
  | done _ holds =>
    exact steps_to holds (sound.ordered.version _ _ _ _) (values sound) (Contents.moves_version others)
  | tooLarge _ holds =>
    exact steps_to holds (sound.ordered.version key value live s.contents.entries) sound.values
      (Contents.moves_version fun _ _ => rfl)
  | walTooLarge => exact ⟨sound,.refl _⟩

theorem put_keeps (key : Bytes) {value : Bytes} (new : P value) : Proc.Keeps (Steps P) (put key value) :=
  fun s sound => (put_outcome sound.holds key value).steps (fun k other => by simp [other])
    (fun sound => values_put sound.values new) sound

theorem delete_keeps (key : Bytes) : Proc.Keeps (Steps P) (delete key) := fun s sound =>
  (delete_outcome sound.holds key).steps (fun k other => by simp [other])
    (fun sound => values_remove key sound.values) sound

theorem applyBatch_keeps (id : Nat) (new : ∀ op ∈ ops, op.delete = false → P op.value) :
    Proc.Keeps (Steps P) (applyBatch id ops) := by
  intro s sound
  have outcome := applyBatch_outcome sound.holds id ops
  generalize (applyBatch id ops).exec s = result at outcome ⊢
  rcases outcome with ⟨-,outcome⟩ | ⟨-,s',rfl,holds⟩
  · cases outcome with
    | done _ holds =>
      obtain ⟨ordered,moves⟩ := Contents.foldl_apply sound.ordered ops
      exact steps_to holds ordered (values_applyAll sound.values new) moves
    | tooLarge before op after split _ _ holds =>
      obtain ⟨ordered,moves⟩ := Contents.foldl_apply sound.ordered before
      have values := values_applyAll (c := s.contents) sound.values fun op member =>
        new op (split ▸ List.mem_append_left _ member)
      exact steps_to holds (ordered.version _ _ _ (before.foldl Contents.apply s.contents).entries) values
        (moves.trans (Contents.moves_version fun _ _ => rfl))
  · exact steps_to holds sound.ordered sound.values (.refl _)

theorem Sound.leases (sound : s.Sound P) (n : Nat) :
    Sound P {s with activeSnapshots := n} ∧ s.contents.Moves {s with activeSnapshots := n}.contents := by
  obtain ⟨content,ok⟩ := sound.ok
  exact ⟨⟨⟨content,ok.shows,ok.pages,ok.valid,ok.fits,ok.first⟩,⟨sound.ordered.chain,sound.ordered.bound⟩,
    sound.values⟩,Nat.le_refl _,fun _ => .inr ⟨rfl,rfl⟩⟩

end Store

namespace Schema

variable {s : Schema}

def Encodes (s : Schema) (b : Bytes) : Prop := ∃ row, s.encode row = .ok b

def batchOp (s : Schema) : Bytes × TransactionRow → Except Error BatchOp
  | (key,none) => .ok ⟨key,[],true⟩
  | (key,some row) =>
    match s.encode row with
    | .error e => .error e
    | .ok value => .ok ⟨key,value,false⟩

theorem batchOps_cons (s : Schema) (write : Bytes × TransactionRow) (writes : List (Bytes × TransactionRow)) :
    s.batchOps (write::writes) = (do
      let op ← s.batchOp write
      let ops ← s.batchOps writes
      .ok (op::ops)) := by
  rcases write with ⟨key,_ | row⟩
  · rfl
  · simp only [batchOps,batchOp]
    cases s.encode row <;> rfl

theorem batchOps_eq_ok {writes : List (Bytes × TransactionRow)} :
    s.batchOps writes = .ok ops ↔ List.Forall₂ (fun write op => s.batchOp write = .ok op) writes ops := by
  induction writes generalizing ops with
  | nil => simp [batchOps,eq_comm]
  | cons write writes ih =>
    rw [batchOps_cons,List.forall₂_cons_left_iff]
    rcases s.batchOp write with err | op
    · simp [bind,Except.bind]
    · rcases rest : s.batchOps writes with err | more
      · have none : ∀ ops, ¬List.Forall₂ (fun write op => s.batchOp write = .ok op) writes ops := fun ops related => by
          rw [ih.mpr related] at rest
          cases rest
        simp [bind,Except.bind,none]
      · have only : ∀ ops, List.Forall₂ (fun write op => s.batchOp write = .ok op) writes ops ↔ more = ops := by
          intro ops
          rw [← ih,rest,Except.ok.injEq]
        simp only [bind,Except.bind,Except.ok.injEq,only,exists_eq_left',exists_and_left]
        exact eq_comm

theorem batchOps_encodes {writes : List (Bytes × TransactionRow)} (made : s.batchOps writes = .ok ops) :
    ∀ op ∈ ops, op.delete = false → s.Encodes op.value := by
  have related := batchOps_eq_ok.mp made
  clear made
  induction related with
  | nil => exact fun _ member => nomatch member
  | @cons write op _ _ made _ ih =>
    refine List.forall_mem_cons.mpr ⟨fun live => ?_,ih⟩
    rcases write with ⟨key,_ | row⟩
    · cases made
      cases live
    · simp only [batchOp] at made
      split at made
      · cases made
      · rename_i encoded
        cases made
        exact ⟨row,encoded⟩

end Schema

namespace Table

variable {t t' : Table}

/-- The rows are there in the format of the schema, whose columns have names of their own. -/
structure Sound (t : Table) : Prop where
  valid : t.schema.validate = .ok ()
  columns : t.schema.columns ≠ []
  store : t.store.Sound t.schema.Encodes

def Steps (t t' : Table) : Prop := t'.schema = t.schema ∧ t.store.Steps t.schema.Encodes t'.store

/-- The same for rows of some other kind. -/
def StepsOf (P : Schema → Bytes → Prop) (t t' : Table) : Prop :=
  t'.schema = t.schema ∧ t.store.Steps (P t.schema) t'.store

theorem stepsOf (P : Schema → Bytes → Prop) : Frame (StepsOf P) where
  refl _ := ⟨rfl,Store.steps.refl _⟩
  trans first second := ⟨second.1.trans first.1,Store.steps.trans first.2 (first.1 ▸ second.2)⟩

theorem steps : Frame Steps := stepsOf Schema.Encodes

theorem Sound.steps (sound : t.Sound) (steps : t.Steps t') :
    t'.Sound ∧ t.store.contents.Moves t'.store.contents := by
  obtain ⟨schema,stored⟩ := steps
  obtain ⟨store,moves⟩ := stored sound.store
  refine ⟨⟨?_,?_,?_⟩,moves⟩
  · rw [schema]
    exact sound.valid
  · rw [schema]
    exact sound.columns
  · rw [schema]
    exact store

theorem onStore_exec {α : Type} (x : StoreM α) (t : Table) :
    (onStore x).exec t = ((x.exec t.store).1,{t with store := (x.exec t.store).2}) := rfl

private theorem foldl_secondary (columns : List Column) (f : Table → Column → GoMap ColumnIndex) (t : Table) :
    (columns.foldl (fun t c => {t with secondary := f t c}) t).store = t.store ∧
      (columns.foldl (fun t c => {t with secondary := f t c}) t).schema = t.schema := by
  induction columns generalizing t with
  | nil => exact ⟨rfl,rfl⟩
  | cons c columns ih => exact ih {t with secondary := f t c}

@[simp] theorem indexRow_store (key : Bytes) (row : Row) (t : Table) : (t.indexRow key row).store = t.store :=
  (foldl_secondary _ _ t).1

@[simp] theorem indexRow_schema (key : Bytes) (row : Row) (t : Table) : (t.indexRow key row).schema = t.schema :=
  (foldl_secondary _ _ t).2

@[simp] theorem unindexRow_store (key : Bytes) (row : Row) (t : Table) : (t.unindexRow key row).store = t.store :=
  (foldl_secondary _ _ t).1

@[simp] theorem unindexRow_schema (key : Bytes) (row : Row) (t : Table) : (t.unindexRow key row).schema = t.schema :=
  (foldl_secondary _ _ t).2

section kinds

variable {P : Schema → Bytes → Prop}

theorem stepsOf_same (store : t'.store = t.store) (schema : t'.schema = t.schema) : t.StepsOf P t' := by
  refine ⟨schema,?_⟩
  rw [store]
  exact Store.steps.refl _

theorem indexRow_of (key : Bytes) (row : Row) : Proc.Keeps (StepsOf P) (modify (indexRow key row) : TableM PUnit) :=
  Keeps.modify fun _ => stepsOf_same (indexRow_store _ _ _) (indexRow_schema _ _ _)

theorem unindexRow_of (key : Bytes) (row : Row) : Proc.Keeps (StepsOf P) (modify (unindexRow key row) : TableM PUnit) :=
  Keeps.modify fun _ => stepsOf_same (unindexRow_store _ _ _) (unindexRow_schema _ _ _)

theorem insert_of (new : ∀ {s : Schema} {row b}, s.encode row = .ok b → P s b) (key : Bytes) (row : Row) :
    Proc.Keeps (StepsOf P) (insert key row) := by
  have frame := stepsOf P
  refine Keeps.get_bind fun t => Keeps.of_bind_at (frame.refl t) fun b encoded => ?_
  refine Keeps.of_bind_at (frame.refl t) fun _ _ => Keeps.of_bind_at (frame.refl t) fun old _ => ?_
  -- The bytes are of the schema that the table has when they are put.
  have put : t.StepsOf P ((onStore (Store.put key b)).exec t).2 := ⟨rfl,Store.put_keeps key (new encoded) t.store⟩
  refine Keeps.bind_at frame put fun _ => ?_
  cases old with
  | none => exact indexRow_of key row
  | some old => exact Keeps.bind frame (unindexRow_of key old) fun _ => indexRow_of key row

theorem delete_of (key : Bytes) : Proc.Keeps (StepsOf P) (delete key) := by
  have frame := stepsOf P
  unfold delete
  refine Keeps.bind frame (Keeps.get frame) fun t => ?_
  refine Keeps.bind frame (Keeps.of frame _) fun old => ?_
  cases old with
  | none => exact Keeps.pure frame _
  | some old =>
    have removed : Proc.Keeps (StepsOf P) (onStore (Store.delete key)) := fun t => ⟨rfl,Store.delete_keeps key t.store⟩
    exact Keeps.bind frame removed fun _ => unindexRow_of key old

end kinds

theorem insert_keeps (key : Bytes) (row : Row) : Proc.Keeps Steps (insert key row) :=
  insert_of (P := Schema.Encodes) (fun encoded => ⟨_,encoded⟩) key row

theorem delete_keeps (key : Bytes) : Proc.Keeps Steps (delete key) := delete_of (P := Schema.Encodes) key

section deletes

variable {R : Table → Table → Prop}

theorem deleteEach_frame (frame : Frame R) (each : ∀ key, Proc.Keeps R (delete key)) (wanted : Row → Bool)
    (rows : List Row) : Proc.Keeps R (deleteEach wanted rows) := by
  induction rows with
  | nil => exact Keeps.pure frame _
  | cons row rows ih =>
    unfold deleteEach
    refine Keeps.ite (fun _ => ?_) fun _ => ih
    refine Keeps.bind frame (Keeps.get frame) fun t => ?_
    exact Keeps.bind frame (each _) fun _ => Keeps.bind frame ih fun _ => Keeps.pure frame _

theorem deleteWhere_frame (frame : Frame R) (each : ∀ key, Proc.Keeps R (delete key)) (wanted : Row → Bool) :
    Proc.Keeps R (deleteWhere wanted) :=
  Keeps.bind frame (Keeps.get frame) fun _ =>
    Keeps.bind frame (Keeps.of frame _) fun _ => deleteEach_frame frame each wanted _

end deletes

theorem deleteWhere_keeps (wanted : Row → Bool) : Proc.Keeps Steps (deleteWhere wanted) :=
  deleteWhere_frame steps delete_keeps wanted

theorem applyRowsBatch_keeps (ord : Order) (id : Nat) (writes : GoMap TransactionRow) :
    Proc.Keeps Steps (applyRowsBatch ord id writes) := by
  refine Keeps.get_bind fun t => ?_
  rw [exec_bind,exec_of]
  rcases made : t.schema.batchOps (ord.arrange writes.entries) with err | ops
  · exact steps.refl t
  · exact ⟨rfl,Store.applyBatch_keeps id (Schema.batchOps_encodes made) t.store⟩

theorem releaseSnapshot_steps (t : Table) : t.Steps t.releaseSnapshot := ⟨rfl,fun sound => sound.leases _⟩

end Table
end GoDb
