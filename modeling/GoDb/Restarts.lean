import GoDb.CheckInvariants
import GoDb.Recovery
import GoDb.ServerInvariant
import GoDb.TableReopen

/-! Restarts. A server that is shut down finds its tables again as they were, and a store that is killed while it
recovers recovers to the same entries the next time. -/
namespace GoDb
open Foundation Outcome

namespace Server

/-- Whatever has been requested, each table can be closed and opened again, and has the same rows. -/
theorem restart_keeps_rows {s : Server} (ok : s.Ok) (requests : List Request) {t : Nat}
    (inside : t < (s.after requests).db.tables.length) :
    ∃ table, ((s.after requests).db.table t).reopen = (.ok (),table) ∧
      table.schema = ((s.after requests).db.table t).schema ∧ table.scan = ((s.after requests).db.table t).scan ∧
      ∀ key, table.get key = ((s.after requests).db.table t).get key := by
  have legible := ((after_steps s requests ok).ok.db.sound t inside).legible
  obtain ⟨table,reopened,again,schema,entries⟩ := Table.reopen_reads legible
  refine ⟨table,reopened,schema,?_,fun key => ?_⟩
  · rw [again.scan,legible.scan,entries,schema]
  · rw [again.get,legible.get,entries,schema]

/-- A table with a row, and a transaction that is open. -/
def begunRow : List Request :=
  Sample.requests [(1,Sample.create "u" .int),(1,Sample.insert "u" 3 (.int 9)),(2,.begin)]

theorem restart_keeps_rows_begun : ∃ table, (((start .empty).after begunRow).db.table 0).reopen = (.ok (),table) ∧
    table.scan = (((start .empty).after begunRow).db.table 0).scan := by
  obtain ⟨table,reopened,-,rows,-⟩ := restart_keeps_rows (start_ok Db.empty_ok) begunRow (t := 0) (by decide +kernel)
  exact ⟨table,reopened,rows⟩

/-- Whatever has been requested, `CheckInvariants` finds nothing wrong in the store of a table. -/
theorem checks_pass {s : Server} (ok : s.Ok) (requests : List Request) {t : Nat}
    (inside : t < (s.after requests).db.tables.length) :
    (Store.checkInvariants.exec ((s.after requests).db.table t).store).1 = .ok () := by
  obtain ⟨content,store⟩ := ((after_steps s requests ok).ok.db.sound t inside).store.ok
  rw [Store.checkInvariants_exec store.valid,Store.validatePages_exec store.shows store.pages.accepted]

theorem checks_pass_begun :
    (Store.checkInvariants.exec (((start .empty).after begunRow).db.table 0).store).1 = .ok () :=
  checks_pass (start_ok Db.empty_ok) begunRow (by decide +kernel)

end Server

namespace Store
open Layout TransactionLog

/-- Processes open the store one after the other, and each is killed before it writes: the log stays, the index file is
the one that was saved last, and the file has any pages of whole records that link to later ones only. -/
inductive Restarted (wal : Bytes) (s : Store) : Store → Prop
  | once : Restarted wal s s
  | again {s' s'' : Store} {file : List Block} (before : Restarted wal s s') (pages : PagesOk file)
      (opened : (Store.open ⟨file,wal,s'.indexFile⟩).1 = .ok s'') : Restarted wal s s''

/-- Recovery is idempotent. -/
theorem recovery_idempotent {file : List Block} {entries : List BTree.Entry} {log : List (Entry Nat BatchOp)} {rest : Bytes}
    (pages : PagesOk file) (sorted : SortedEntries.Increasing entries) (live : ∀ e ∈ entries, Fits e.1 e.2)
    (loggable : ∀ e ∈ log, Wal.Loggable e) (ends : Wal.next rest = .stop)
    (fits : ∀ op ∈ TransactionLog.applied (fun _ => []) log, Fits op.key op.value) :
    ∃ s, (Store.open ⟨file,log.flatMap Wal.entryBytes ++ rest,some entries⟩).1 = .ok s ∧
      ∀ s', Restarted (log.flatMap Wal.entryBytes ++ rest) s s' → (∀ key, s'.get key = s.get key) ∧
        ∀ file', PagesOk file' → ∃ s'', (Store.open ⟨file',log.flatMap Wal.entryBytes ++ rest,s'.indexFile⟩).1 = .ok s'' := by
  obtain ⟨s,opened,saved,answers⟩ := open_logged pages sorted live loggable ends fits
  have recovered : ∀ s', Restarted (log.flatMap Wal.entryBytes ++ rest) s s' → s'.Saved ∧ ∀ key, s'.get key = s.get key := by
    intro s' restarted
    induction restarted with
    | once => exact ⟨saved,fun _ => rfl⟩
    | @again s' s'' file' before pages' opened' ih =>
      obtain ⟨saved',same⟩ := ih
      rw [saved'.file] at opened'
      obtain ⟨_,second,saved'',again⟩ := open_logged pages' saved'.valid.increasing saved'.fits loggable ends fits
      obtain rfl := Except.ok.inj (opened'.symm.trans second)
      refine ⟨saved'',fun key => ?_⟩
      have before : (fun key => s'.index.entries.lookup key) =
          (replayed [] (fun key => entries.lookup key) (TransactionLog.applied (fun _ => []) log)).2 := by
        funext key
        rw [← answers key,← same key]
        exact (saved'.valid.get key).symm
      rw [again,before,replayed_replayed,answers]
  refine ⟨s,opened,fun s' restarted => ?_⟩
  obtain ⟨saved',same⟩ := recovered s' restarted
  refine ⟨same,fun file' pages' => ?_⟩
  rw [saved'.file]
  obtain ⟨s'',again,-⟩ := open_logged pages' saved'.valid.increasing saved'.fits loggable ends fits
  exact ⟨s'',again⟩

/-- A key that the index file has is deleted, and another one is put. -/
def deletedKey : List (Entry Nat BatchOp) := [.plain ⟨[1],[],true⟩,.plain ⟨[3],[4],false⟩]

theorem recovery_idempotent_deletedKey :
    ∃ s, (Store.open ⟨[],deletedKey.flatMap Wal.entryBytes ++ [],some [([1],[2])]⟩).1 = .ok s ∧
      ∀ s', Restarted (deletedKey.flatMap Wal.entryBytes ++ []) s s' → ∀ key, s'.get key = s.get key := by
  have loggable : ∀ e ∈ deletedKey, Wal.Loggable e := by simp [deletedKey,Wal.Loggable]
  have live : ∀ e ∈ ([([1],[2])] : List BTree.Entry), Fits e.1 e.2 := by decide
  obtain ⟨s,opened,same⟩ := recovery_idempotent PagesOk.nil (List.pairwise_singleton _ _) live loggable
    (show Wal.next [] = .stop from rfl) (by decide)
  exact ⟨s,opened,fun s' restarted => (same s' restarted).1⟩

end Store
end GoDb
