import GoDb.BTreeRuns
import GoDb.FailedPut
import GoDb.StoreLog

/-! `CheckInvariants` is there to find an index that has come apart from the pages. It
compares each entry of the index with what `Get` answers, and `Get` asks the index. -/
namespace GoDb
open Foundation Outcome

namespace Store

variable {s : Store}

/-- The entries of the index are what the records along the page chain make, one after the other. -/
def IndexAgrees (s : Store) : Prop :=
  ∃ pages s', (pageChain s.firstPage).exec s = (.ok pages,s') ∧
    (pages.flatMap (·.records.1)).foldl Record.applyTo [] = s.index.entries

theorem checkEntries_exec {entries : List BTree.Entry} (found : ∀ e ∈ entries, s.get e.1 = some e.2) :
    (checkEntries entries).exec s = (.ok (),s) := by
  induction entries with
  | nil => rfl
  | cons e entries ih =>
    obtain ⟨same,rest⟩ := List.forall_mem_cons.mp found
    unfold checkEntries
    rw [exec_bind_ok (exec_get s),if_neg (not_not.mpr same)]
    exact ih rest

theorem get_of_mem (valid : s.index.Valid) : ∀ e ∈ s.index.entries, s.get e.1 = some e.2 := by
  intro e member
  rw [Store.get,valid.get]
  exact SortedEntries.lookup_of_mem valid.increasing member

theorem checkInvariants_exec (valid : s.index.Valid) : checkInvariants.exec s = validatePages.exec s := by
  unfold checkInvariants
  have kept := (beside.validatePages s).1
  rcases checked : validatePages.exec s with ⟨e | _,s'⟩
  · exact exec_bind_error checked
  · rw [checked] at kept
    change s'.index = s.index at kept
    rw [exec_bind_ok checked,exec_bind_ok (exec_get s')]
    exact checkEntries_exec (get_of_mem (kept ▸ valid))

theorem created_index_agrees : created.IndexAgrees := ⟨[],created,rfl,rfl⟩

end Store

namespace Sample

def recordPage (key value : Bytes) : Page := (writeRecord (newPage 0) key value flagLive).toOption.getD (newPage 0)

def apart : Image := ⟨[(recordPage [1] [1]).data],[],some [([1],[2])]⟩

end Sample

namespace Store

end Store
end GoDb
