import GoDb.Bytes

/-! The loop of `Executor.rows` over the writes of a transaction: it edits the rows it
has read through a map from keys to positions. -/
namespace GoDb

structure Overlay (α : Type) where
  rows : List α
  byKey : GoMap Nat

namespace Overlay

variable {α : Type}

def start (key : α → Bytes) (rows : List α) : Overlay α :=
  ⟨rows,rows.zipIdx.foldl (fun m e => m.insert (key e.1) e.2) ∅⟩

/-- One turn; `none` is a write that deletes. A row that goes away moves the rows behind it. -/
def write (o : Overlay α) : Bytes × Option α → Overlay α
  | (key,none) =>
    match o.byKey.lookup key with
    | none => o
    | some i => ⟨o.rows.eraseIdx i,o.byKey.mapValues fun j => if i < j then j - 1 else j⟩
  | (key,some row) =>
    match o.byKey.lookup key with
    | some i => {o with rows := o.rows.set i row}
    | none => ⟨o.rows ++ [row],o.byKey.insert key o.rows.length⟩

def writeAll (o : Overlay α) (writes : List (Bytes × Option α)) : Overlay α := writes.foldl write o

end Overlay
end GoDb
