import GoDb.PageRecords
import GoDb.Semantics.Contents
import GoDb.Foundation.ListEdits
import Mathlib.Logic.Function.Basic

/-! How records come to lie on pages when each goes to the last page, or to a new one
if that is full, and what a replay of the same operations on top of a finished index
makes of the index: a deletion counts only when its record opens a new page. -/
namespace GoDb
open Foundation

variable {key : Bytes} {ops : List BatchOp}

namespace Layout

def place : List (List Record) → Record → List (List Record)
  | [],r => [[r]]
  | page::older,r =>
    if HeaderSize + (encodeAll page).length + r.size ≤ PageSize then (page ++ [r])::older else [r]::page::older

def Opens : List (List Record) → Record → Prop
  | [],_ => False
  | page::_,r => PageSize < HeaderSize + (encodeAll page).length + r.size

instance (pages : List (List Record)) (r : Record) : Decidable (Opens pages r) :=
  match pages with
  | [] => inferInstanceAs (Decidable False)
  | _::_ => inferInstanceAs (Decidable (_ < _))

def layoutFrom (pages : List (List Record)) (ops : List BatchOp) : List (List Record) :=
  ops.foldl (fun pages op => place pages op.record) pages

def layout (ops : List BatchOp) : List (List Record) := layoutFrom [] ops

theorem layout_append (first second : List BatchOp) : layout (first ++ second) = layoutFrom (layout first) second :=
  List.foldl_append

/-- One replayed operation: the pages so far and the index. -/
def replayOp (state : List (List Record) × (Bytes → Option Bytes)) (op : BatchOp) :
    List (List Record) × (Bytes → Option Bytes) :=
  (place state.1 op.record,
    if op.delete = true ∧ ¬Opens state.1 op.record then state.2 else batchEffect state.2 op)

def replayed (pages : List (List Record)) (m : Bytes → Option Bytes) (ops : List BatchOp) :
    List (List Record) × (Bytes → Option Bytes) := ops.foldl replayOp (pages,m)

theorem replayed_pages (pages : List (List Record)) (m : Bytes → Option Bytes) (ops : List BatchOp) :
    (replayed pages m ops).1 = layoutFrom pages ops := by
  induction ops generalizing pages m with
  | nil => rfl
  | cons op ops ih => exact ih _ _

theorem replayed_append (pages : List (List Record)) (m : Bytes → Option Bytes) (first second : List BatchOp) :
    replayed pages m (first ++ second) =
      replayed (replayed pages m first).1 (replayed pages m first).2 second := List.foldl_append

def Opened (pages : List (List Record)) (key : Bytes) (ops : List BatchOp) : Prop :=
  ∃ before op after, ops = before ++ op::after ∧ op.key = key ∧ Opens (layoutFrom pages before) op.record

private theorem opened_cons {pages : List (List Record)} {op : BatchOp} :
    Opened pages key (op::ops) ↔
      op.key = key ∧ Opens pages op.record ∨ Opened (place pages op.record) key ops := by
  constructor
  · rintro ⟨before,found,after,split,same,opens⟩
    cases before with
    | nil =>
      obtain ⟨rfl,-⟩ := List.cons.inj split
      exact .inl ⟨same,opens⟩
    | cons first before =>
      obtain ⟨rfl,rfl⟩ := List.cons.inj split
      exact .inr ⟨before,found,after,rfl,same,opens⟩
  · rintro (⟨same,opens⟩ | ⟨before,found,after,rfl,same,opens⟩)
    · exact ⟨[],op,ops,rfl,same,opens⟩
    · exact ⟨op::before,found,after,rfl,same,opens⟩

private theorem replayed_deletes (pages : List (List Record)) (m : Bytes → Option Bytes) (key : Bytes)
    (ops : List BatchOp) (deletes : ∀ op ∈ ops, op.key = key → op.delete = true) :
    (Opened pages key ops → (replayed pages m ops).2 key = none) ∧
      (¬Opened pages key ops → (replayed pages m ops).2 key = m key) := by
  induction ops generalizing pages m with
  | nil =>
    refine ⟨?_,fun _ => rfl⟩
    rintro ⟨before,op,after,split,-⟩
    simp at split
  | cons op ops ih =>
    obtain ⟨first,others⟩ := List.forall_mem_cons.mp deletes
    obtain ⟨gone,kept⟩ := ih (place pages op.record) (replayOp (pages,m) op).2 others
    have next : replayed pages m (op::ops) = replayed (place pages op.record) (replayOp (pages,m) op).2 ops := rfl
    rw [next,opened_cons]
    -- The last delete that opens a page decides; the ones that do not are skipped.
    by_cases later : Opened (place pages op.record) key ops
    · exact ⟨fun _ => gone later,fun not => absurd (.inr later) not⟩
    rw [kept later]
    by_cases same : op.key = key
    · by_cases opens : Opens pages op.record
      · refine ⟨fun _ => ?_,fun not => absurd (.inl ⟨same,opens⟩) not⟩
        simp [replayOp,opens,batchEffect,same,first same]
      · refine ⟨fun either => ?_,fun _ => by simp [replayOp,opens,first same]⟩
        rcases either with ⟨-,opened⟩ | opened
        · exact absurd opened opens
        · exact absurd opened later
    · refine ⟨fun either => ?_,fun _ => ?_⟩
      · rcases either with ⟨equal,-⟩ | opened
        · exact absurd equal same
        · exact absurd opened later
      · by_cases skipped : op.delete = true ∧ ¬Opens pages op.record
        · simp [replayOp,skipped]
        · simp only [replayOp,if_neg skipped,batchEffect]
          exact Function.update_of_ne (Ne.symm same) _ _

theorem replayed_of_forall_ne (pages : List (List Record)) (m : Bytes → Option Bytes)
    (others : ∀ op ∈ ops, op.key ≠ key) : (replayed pages m ops).2 key = m key := by
  refine (replayed_deletes pages m key ops fun op member same => absurd same (others op member)).2 ?_
  rintro ⟨before,op,after,rfl,same,-⟩
  exact others op (List.mem_append_right _ List.mem_cons_self) same

private theorem effects_deletes (m : Bytes → Option Bytes) (key : Bytes) (ops : List BatchOp)
    (deletes : ∀ op ∈ ops, op.key = key → op.delete = true) :
    effects m ops key = if ∃ op ∈ ops, op.key = key then none else m key := by
  induction ops generalizing m with
  | nil => simp [effects]
  | cons op ops ih =>
    obtain ⟨first,others⟩ := List.forall_mem_cons.mp deletes
    change effects (batchEffect m op) ops key = _
    rw [ih _ others]
    by_cases later : ∃ op ∈ ops, op.key = key
    · obtain ⟨found,member,same⟩ := later
      rw [if_pos ⟨found,member,same⟩,if_pos ⟨found,List.mem_cons_of_mem _ member,same⟩]
    · rw [if_neg later]
      by_cases same : op.key = key
      · rw [if_pos ⟨op,List.mem_cons_self,same⟩]
        simp [batchEffect,same,first same]
      · rw [if_neg]
        · exact Function.update_of_ne (Ne.symm same) _ _
        · rintro ⟨found,member,equal⟩
          rcases List.mem_cons.mp member with rfl | member
          · exact same equal
          · exact later ⟨found,member,equal⟩

private theorem only_deletes (never : ∀ op ∈ ops, ¬(op.key = key ∧ op.delete = false)) :
    ∀ op ∈ ops, op.key = key → op.delete = true := by
  intro op member same
  cases kind : op.delete with
  | false => exact absurd ⟨same,kind⟩ (never op member)
  | true => rfl

/-- A key that was deleted after it was last put has, after that put, a deletion that opened a page. -/
def DeletionsOpen (ops : List BatchOp) : Prop :=
  ∀ before put after, ops = before ++ put::after → put.delete = false →
    (∀ op ∈ after, op.key = put.key → op.delete = true) → (∃ op ∈ after, op.key = put.key) →
    Opened (layout (before ++ [put])) put.key after

private theorem replayed_put (m : Bytes → Option Bytes) (before : List BatchOp) {put : BatchOp}
    {after : List BatchOp} (live : put.delete = false)
    (deletes : ∀ op ∈ after, op.key = put.key → op.delete = true) :
    (replayed [] m (before ++ put::after)).2 put.key = effects (fun _ => none) (before ++ put::after) put.key ↔
      ((∃ op ∈ after, op.key = put.key) → Opened (layout (before ++ [put])) put.key after) := by
  have shape : before ++ put::after = (before ++ [put]) ++ after := by simp
  have value : (replayed [] m (before ++ [put])).2 put.key = some put.value := by
    rw [replayed_append]
    simp [replayed,replayOp,live,batchEffect]
  have final : effects (fun _ => none) (before ++ [put]) put.key = some put.value := by
    simp [effects,batchEffect,live]
  obtain ⟨gone,kept⟩ := replayed_deletes (layout (before ++ [put])) (replayed [] m (before ++ [put])).2 put.key after
    deletes
  have whole : effects (fun _ => none) (before ++ put::after) put.key =
      if ∃ op ∈ after, op.key = put.key then none else some put.value := by
    rw [shape,effects,List.foldl_append]
    exact (effects_deletes _ put.key after deletes).trans (by rw [← final]; rfl)
  rw [whole,shape,replayed_append,replayed_pages]
  change (replayed (layout (before ++ [put])) _ after).2 put.key = _ ↔ _
  by_cases opened : Opened (layout (before ++ [put])) put.key after
  · have deleted : ∃ op ∈ after, op.key = put.key := by
      obtain ⟨mid,op,rest,rfl,same,-⟩ := opened
      exact ⟨op,List.mem_append_right _ List.mem_cons_self,same⟩
    rw [gone opened,if_pos deleted]
    exact ⟨fun _ _ => opened,fun _ => rfl⟩
  · rw [kept opened,value]
    by_cases deleted : ∃ op ∈ after, op.key = put.key
    · rw [if_pos deleted]
      exact ⟨fun impossible => (Option.some_ne_none _ impossible).elim,fun opens => absurd (opens deleted) opened⟩
    · rw [if_neg deleted]
      exact ⟨fun _ found => absurd found deleted,fun _ => rfl⟩

/-- What becomes of one key: the operations settle it, or they delete it at most and the index keeps what it had. -/
theorem replayed_key (pages : List (List Record)) (ops : List BatchOp) (key : Bytes) :
    (∃ value, ∀ m, (replayed pages m ops).2 key = value) ∨
      (∀ op ∈ ops, op.key = key → op.delete = true) ∧ ∀ m, (replayed pages m ops).2 key = m key := by
  induction ops generalizing pages with
  | nil => exact .inr ⟨List.forall_mem_nil _,fun _ => rfl⟩
  | cons op ops ih =>
    have next (m : Bytes → Option Bytes) :
        replayed pages m (op::ops) = replayed (place pages op.record) (replayOp (pages,m) op).2 ops := rfl
    rcases ih (place pages op.record) with ⟨value,settled⟩ | ⟨deletes,kept⟩
    · exact .inl ⟨value,fun m => by rw [next,settled]⟩
    simp only [next,kept,replayOp]
    by_cases skipped : op.delete = true ∧ ¬Opens pages op.record
    · simp only [if_pos skipped]
      exact .inr ⟨List.forall_mem_cons.mpr ⟨fun _ => skipped.1,deletes⟩,fun _ => trivial⟩
    · simp only [if_neg skipped,batchEffect]
      by_cases same : op.key = key
      · subst same
        exact .inl ⟨_,fun m => Function.update_self _ _ _⟩
      · refine .inr ⟨List.forall_mem_cons.mpr ⟨fun equal => absurd equal same,deletes⟩,fun m => ?_⟩
        exact Function.update_of_ne (Ne.symm same) _ _

theorem replayed_replayed (pages : List (List Record)) (m : Bytes → Option Bytes) (ops : List BatchOp) (key : Bytes) :
    (replayed pages (replayed pages m ops).2 ops).2 key = (replayed pages m ops).2 key := by
  rcases replayed_key pages ops key with ⟨value,settled⟩ | ⟨-,kept⟩
  · rw [settled,settled]
  · rw [kept]

theorem replayed_again (pages : List (List Record)) {m : Bytes → Option Bytes} (absent : m key = none)
    (ops : List BatchOp) :
    (replayed pages (effects m ops) ops).2 key = (replayed pages (fun _ => none) ops).2 key := by
  rcases replayed_key pages ops key with ⟨value,settled⟩ | ⟨deletes,kept⟩
  · rw [settled,settled]
  · rw [kept,kept,effects_deletes m key ops deletes,absent,ite_self]

/-- Replaying the operations on top of what they made changes nothing, just when every deletion is secured. -/
theorem replayed_iff (ops : List BatchOp) :
    (∀ key, (replayed [] (effects (fun _ => none) ops) ops).2 key = effects (fun _ => none) ops key) ↔
      DeletionsOpen ops := by
  constructor
  · rintro same before put after rfl live deletes
    exact (replayed_put _ before live deletes).mp (same put.key)
  · intro secured key
    rcases ListEdits.last_split (fun op : BatchOp => op.key = key ∧ op.delete = false) ops with
      never | ⟨before,put,after,rfl,⟨rfl,live⟩,later⟩
    · obtain ⟨gone,kept⟩ := replayed_deletes [] (effects (fun _ => none) ops) key ops (only_deletes never)
      have absent : effects (fun _ => none) ops key = none := by
        rw [effects_deletes _ key ops (only_deletes never),ite_self]
      by_cases opened : Opened [] key ops
      · rw [gone opened,absent]
      · exact kept opened
    · exact (replayed_put _ before live (only_deletes later)).mpr (secured before put after rfl live (only_deletes later))

end Layout
end GoDb
