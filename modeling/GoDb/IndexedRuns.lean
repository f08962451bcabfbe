import GoDb.IndexUpkeep
import GoDb.TableRuns

/-! The secondary indexes in the runs of a server. -/
namespace GoDb
open Foundation Outcome

namespace Table

variable {t : Table}

/-- A table whose index is in order, if its columns are of the types that are stored as they are. -/
def Indexed (t : Table) : Prop := t.schema.Discrete → t.Maintained

theorem indexedInvariant : Invariant Indexed where
  new made discrete := (Reached.opened ((Executor.new_same made).2.2.2 ▸ discrete) made).maintained
  insert row indexed discrete :=
    insert_maintains row _ (indexed ((insert_keeps _ row _).1 ▸ discrete))
  delete key indexed discrete := delete_maintains key _ (indexed ((delete_keeps key _).1 ▸ discrete))
  like indexed like := by
    obtain ⟨n,rfl⟩ := like
    intro discrete
    have maintained := indexed discrete
    have sound := maintained.sound
    refine ⟨⟨sound.valid,sound.columns,(sound.store.leases n).1⟩,discrete,?_,maintained.indexes.congr rfl rfl fun _ _ _ => rfl⟩
    exact maintained.printed

theorem Maintained.find (maintained : t.Maintained) (ord : Order) {c : Column} (member : c ∈ t.schema.columns.tail)
    (v : Value) : ∃ rows found, t.scan = .ok rows ∧ t.find ord c.name v = .ok found ∧
      found.Perm (rows.filter fun row => row.get c.name = v) := by
  have sound := maintained.sound
  obtain ⟨rows,found,scanned,answer,perm⟩ := maintained.exact.find sound ord member v
  refine ⟨rows,found,scanned,answer,perm.trans (.of_eq (List.filter_congr fun row there => ?_))⟩
  obtain rfl := Except.ok.inj (sound.scan.symm.trans scanned)
  obtain ⟨e,entry,rfl⟩ := List.mem_map.mp there
  have live : t.get e.1 = .ok (some (t.schema.rowOf e.2)) := by
    rw [sound.get,SortedEntries.lookup_of_mem sound.increasing entry]
    rfl
  exact decide_eq_decide.mpr (maintained.indexValue_iff live (List.mem_of_mem_tail member) v)

end Table

/-- As long as nobody commits, the index of a table with INT, STRING and BOOL columns finds the rows with a value that a
scan of the table finds, whatever has been requested. -/
theorem Server.find_in_runs {requests : List Request} (uncommitted : ∀ r ∈ requests, r.commits = false) {t : Nat}
    (inside : t < ((start .empty).after requests).db.tables.length)
    (discrete : (((start .empty).after requests).db.table t).schema.Discrete) (ord : Order) {c : Column}
    (column : c ∈ (((start .empty).after requests).db.table t).schema.columns.tail) (v : Value) :
    ∃ rows found, (((start .empty).after requests).db.table t).scan = .ok rows ∧
      (((start .empty).after requests).db.table t).find ord c.name v = .ok found ∧
        found.Perm (rows.filter fun row => row.get c.name = v) := by
  have none : (start .empty).db.All Table.Indexed := fun t inside => absurd inside (Nat.not_lt_zero t)
  have indexed := after_invariably Table.indexedInvariant uncommitted none t inside
  exact (indexed discrete).find ord column v

/-- Client 2 rolls back an insertion. -/
def Server.rolledBack : List Request :=
  Sample.requests [(1,Sample.create "u" .bool),(1,Sample.insert "u" 1 (.bool true)),(2,.begin),
    (2,Sample.insert "u" 2 (.bool true)),(2,.rollback)]

theorem Server.find_in_runs_rolledBack : ∃ rows found,
    (((start .empty).after rolledBack).db.table 0).scan = .ok rows ∧
      (((start .empty).after rolledBack).db.table 0).find .stored (ascii "a") (.bool true) = .ok found ∧
        found.Perm (rows.filter fun row => row.get (ascii "a") = .bool true) :=
  find_in_runs (by decide) (by decide +kernel) (by decide +kernel) .stored (c := ⟨ascii "a",.bool⟩) (by decide +kernel) _

end GoDb
