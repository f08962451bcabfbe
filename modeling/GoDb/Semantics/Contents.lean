import GoDb.Store
import GoDb.Foundation.SortedEntries

/-! What a store means to its readers, without pages, log or tree: the live entries in
key order, the history of every key, and the number of open snapshots. -/
namespace GoDb
open Foundation SortedEntries

def BatchOp.record (op : BatchOp) : Record := ⟨if op.delete then flagTombstone else flagLive,op.key,op.value⟩

def batchEffect (m : Bytes → Option Bytes) (op : BatchOp) : Bytes → Option Bytes :=
  Function.update m op.key (if op.delete then none else some op.value)

def effects (m : Bytes → Option Bytes) (ops : List BatchOp) : Bytes → Option Bytes := ops.foldl batchEffect m

theorem effects_of_forall_ne (m : Bytes → Option Bytes) {ops : List BatchOp} {key : Bytes}
    (others : ∀ op ∈ ops, op.key ≠ key) : effects m ops key = m key := by
  induction ops generalizing m with
  | nil => rfl
  | cons op ops ih =>
    obtain ⟨first,rest⟩ := List.forall_mem_cons.mp others
    change effects (batchEffect m op) ops key = m key
    rw [ih _ rest,batchEffect,Function.update_of_ne first.symm]

theorem effects_of_mem (m : Bytes → Option Bytes) {ops : List BatchOp} (distinct : (ops.map BatchOp.key).Nodup)
    {op : BatchOp} (member : op ∈ ops) : effects m ops op.key = if op.delete then none else some op.value := by
  induction ops generalizing m with
  | nil => cases member
  | cons first ops ih =>
    obtain ⟨fresh,rest⟩ := List.nodup_cons.mp distinct
    change effects (batchEffect m first) ops op.key = _
    rcases List.mem_cons.mp member with rfl | member
    · have others : ∀ other ∈ ops, other.key ≠ op.key := fun other there same =>
        fresh (same ▸ List.mem_map_of_mem there)
      rw [effects_of_forall_ne _ others,batchEffect,Function.update_self]
    · exact ih _ rest member

structure Contents where
  entries : List BTree.Entry
  seq : Nat
  versions : GoMap (List Version)
  activeSnapshots : Nat

namespace Contents

def history (c : Contents) (key : Bytes) : List Version := (c.versions.lookup key).getD []

/-- A new version of a key, live or not; the live entries stay as they are. -/
def version (c : Contents) (key value : Bytes) (live : Bool) : Contents :=
  {c with seq := c.seq + 1,versions := c.versions.insert key (c.history key ++ [⟨c.seq + 1,value,live⟩])}

def put (c : Contents) (key value : Bytes) : Contents := {c with entries := SortedEntries.put key value c.entries}

def remove (c : Contents) (key : Bytes) : Contents := {c with entries := SortedEntries.remove key c.entries}

def apply (c : Contents) (op : BatchOp) : Contents :=
  if op.delete then (c.version op.key op.value false).remove op.key
  else (c.version op.key op.value true).put op.key op.value

@[simp] theorem version_entries (c : Contents) (key value : Bytes) (live : Bool) :
    (c.version key value live).entries = c.entries := rfl

@[simp] theorem put_entries (c : Contents) (key value : Bytes) :
    (c.put key value).entries = SortedEntries.put key value c.entries := rfl

@[simp] theorem remove_entries (c : Contents) (key : Bytes) :
    (c.remove key).entries = SortedEntries.remove key c.entries := rfl

theorem lookup_apply (c : Contents) (op : BatchOp) (key : Bytes) :
    (c.apply op).entries.lookup key = batchEffect (fun k => c.entries.lookup k) op key := by
  unfold batchEffect
  cases kind : op.delete <;> simp [apply,kind,Function.update_apply]

theorem lookup_foldl_apply (c : Contents) (ops : List BatchOp) (key : Bytes) :
    (ops.foldl apply c).entries.lookup key = effects (fun k => c.entries.lookup k) ops key := by
  induction ops generalizing c with
  | nil => rfl
  | cons op ops ih =>
    change (ops.foldl apply (c.apply op)).entries.lookup key = _
    rw [ih,funext (lookup_apply c op)]
    rfl

theorem activeSnapshots_foldl_apply (c : Contents) (ops : List BatchOp) :
    (ops.foldl apply c).activeSnapshots = c.activeSnapshots := by
  induction ops generalizing c with
  | nil => rfl
  | cons op ops ih =>
    refine (ih (c.apply op)).trans ?_
    unfold apply
    split <;> rfl

end Contents

def Store.contents (s : Store) : Contents := ⟨s.index.entries,s.seq,s.versions,s.activeSnapshots⟩

end GoDb
