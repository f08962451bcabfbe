import GoDb.CleanShutdown
import GoDb.FailedPut
import GoDb.TableMeaning

/-! A table that is closed and opened again. -/
namespace GoDb
open Foundation Outcome

theorem Store.reopen_sound {P : Bytes → Prop} {s : Store} (sound : s.Sound P) :
    ∃ s', Store.reopen s = (.ok (),s') ∧ s'.Sound P ∧ s'.index.entries = s.index.entries := by
  obtain ⟨content,ok⟩ := sound.ok
  obtain ⟨s₁,closed,-,-,files⟩ := flush_exec ok
  obtain ⟨s₂,opened,ok₂,entries,-⟩ := open_clean ok.pages ok.valid.increasing ok.fits
  have result : reopen s = (.ok (),s₂) := by
    have done : close.exec s = (.ok (),s₁) := closed
    simp only [reopen,done,files,opened]
  have ordered : s₂.contents.Ordered := Reachable.ordered ⟨_,s₂,congrArg Prod.fst opened,[],rfl⟩
  refine ⟨s₂,result,⟨⟨content,ok₂⟩,ordered,?_⟩,entries⟩
  rw [entries]
  exact sound.values

namespace Table

/-- `Close`, and `OpenTable` with the schema that the table has. -/
def reopen (t : Table) : Except Error Unit × Table :=
  match Store.reopen t.store with
  | (.error e,s) => (.error e,{t with store := s})
  | (.ok (),s) =>
    match new s t.schema with
    | .error e => (.error e,{t with store := s})
    | .ok t => (.ok (),t)

def indexAll (rows : List Row) (t : Table) : Table := rows.foldl (fun t row => indexRow (t.schema.keyOf row) row t) t

theorem indexAll_cons (row : Row) (rows : List Row) (t : Table) :
    indexAll (row::rows) t = indexAll rows (indexRow (t.schema.keyOf row) row t) := List.foldl_cons ..

theorem indexAll_eq (rows : List Row) (t : Table) :
    rows.foldl (fun u row => indexRow (t.schema.keyOf row) row u) t = indexAll rows t := by
  suffices general : ∀ u : Table, u.schema = t.schema →
      rows.foldl (fun u row => indexRow (t.schema.keyOf row) row u) u = indexAll rows u from general t rfl
  induction rows with
  | nil =>
    -- The two folds are not compared: their keys only agree for tables with this schema.
    intro u same
    rw [List.foldl_nil]
    rfl
  | cons row rows ih =>
    intro u same
    have next : (indexRow (t.schema.keyOf row) row u).schema = t.schema := (indexRow_schema _ _ _).trans same
    rw [List.foldl_cons,ih _ next,indexAll_cons,same]

theorem indexAll_frame (rows : List Row) (t : Table) :
    (indexAll rows t).store = t.store ∧ (indexAll rows t).schema = t.schema := by
  induction rows generalizing t with
  | nil => exact ⟨rfl,rfl⟩
  | cons row rows ih =>
    obtain ⟨store,schema⟩ := ih (indexRow (t.schema.keyOf row) row t)
    rw [indexAll_cons]
    exact ⟨store.trans (indexRow_store _ _ _),schema.trans (indexRow_schema _ _ _)⟩

theorem reopen_outcome {t : Table} (legible : t.Legible) :
    ∃ s, s.Sound t.schema.Decodes ∧ s.index.entries = t.entries ∧
      reopen t = (.ok (),indexAll (t.entries.map fun e => t.schema.rowOf e.2) (unindexed s t.schema)) := by
  obtain ⟨s,reopened,sound,entries⟩ := Store.reopen_sound legible.store
  refine ⟨s,sound,entries,?_⟩
  have again : (unindexed s t.schema).Legible := ⟨legible.valid,legible.columns,sound⟩
  have same : (unindexed s t.schema).entries = t.entries := entries
  have scanned := again.scan
  rw [same] at scanned
  rw [reopen,reopened]
  dsimp only
  rw [new,legible.valid]
  dsimp only
  rw [if_neg legible.columns,scanned]
  dsimp only
  rw [← indexAll_eq]
  rfl

theorem reopen_reads {t : Table} (legible : t.Legible) :
    ∃ t', reopen t = (.ok (),t') ∧ t'.Legible ∧ t'.schema = t.schema ∧ t'.entries = t.entries := by
  obtain ⟨s,sound,entries,done⟩ := reopen_outcome legible
  obtain ⟨store,schema⟩ := indexAll_frame (t.entries.map fun e => t.schema.rowOf e.2) (unindexed s t.schema)
  refine ⟨_,done,⟨?_,?_,?_⟩,schema,?_⟩
  · rw [schema]
    exact legible.valid
  · rw [schema]
    exact legible.columns
  · rw [store,schema]
    exact sound
  · rw [Table.entries,store]
    exact entries

end Table
end GoDb
