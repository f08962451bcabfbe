import GoDb.ServerInvariant

/-! Invariants of tables in the runs of a server. What new tables have, and what `Insert` and `Delete` keep, all tables
have after any requests but COMMITs: also where requests fail and are undone. -/
namespace GoDb
open Foundation Outcome

structure Table.Invariant (P : Table → Prop) : Prop where
  new : ∀ {schema table}, Table.new Store.created schema = .ok table → P table
  insert : ∀ {t} row, P t → P ((Table.insert (t.schema.keyOf row) row).exec t).2
  delete : ∀ {t} key, P t → P ((Table.delete key).exec t).2
  like : ∀ {t t'}, P t → t.Like t' → P t'

def Db.All (P : Table → Prop) (db : Db) : Prop := ∀ t < db.tables.length, P (db.table t)

namespace Executor

variable {P : Table → Prop} {e e' : Executor}

def Invariably (P : Table → Prop) (e e' : Executor) : Prop := e.db.All P → e'.db.All P

theorem invariably : Frame (Invariably P) := ⟨fun _ => id,fun first second => second ∘ first⟩

theorem onTable_invariably {α : Type} {t : Nat} {x : TableM α}
    (keeps : P (e.db.table t) → P (x.exec (e.db.table t)).2) : e.Invariably P ((onTable t x).exec e).2 := by
  intro all t' inside
  rw [onTable_exec] at inside ⊢
  rw [show (e.db.withTable t _).tables.length = e.db.tables.length from List.length_set] at inside
  rw [Db.table_withTable]
  split_ifs with changed
  · exact keeps (all t changed.2)
  · exact all t' inside

section rules

variable (rule : Table.Invariant P)
include rule

theorem like_invariably (like : e.db.Like e'.db) : e.Invariably P e' := fun all t inside =>
  rule.like (all t (like.length ▸ inside)) (like.tables t)

theorem dataInvariably : DataRule (Invariably P) where
  frame := invariably
  put _ _ row := onTable_invariably (rule.insert row)
  remove _ _ key := onTable_invariably (rule.delete key)
  stage _ _ _ _ _ := id
  stageDelete _ _ _ := id

theorem undoInvariably : UndoRule (Invariably P) where
  frame := invariably
  put _ _ row := onTable_invariably (rule.insert row)
  clear _ _ := onTable_invariably (Table.deleteWhere_frame (R := fun t t' => P t → P t')
    ⟨fun _ => id,fun first second => second ∘ first⟩ (fun key _ => rule.delete key) _ _)

theorem releaseSnapshots_invariably (states : List TransactionTableState) :
    Proc.Keeps (Invariably P) (releaseSnapshots states) := by
  intro e
  obtain ⟨e',done,like,-⟩ := releaseSnapshots_outcome states e
  rw [done]
  exact like_invariably rule like

theorem rollback_invariably : Proc.Keeps (Invariably P) rollback :=
  rollback_frame invariably (releaseSnapshots_invariably rule) (fun _ => id) (undoInvariably rule).rollbackTables

theorem begin_invariably (ord : Order) : Proc.Keeps (Invariably P) (begin ord) := by
  intro e
  rcases begin_outcome ord e with failed | ⟨-,⟨err,e',failed,like,-⟩ | ⟨e',tx,done,begins⟩⟩
  · rw [failed]
    exact invariably.refl e
  · rw [failed]
    exact like_invariably (e := e.numbered) rule like
  · rw [done]
    exact like_invariably (e := e.numbered) rule begins.like

theorem create_invariably (q : CreateTable) : Proc.Keeps (Invariably P) (create q) := by
  refine create_frame (invariably (P := P)) ?_ q
  intro e name schema table made all t inside
  change P ((e.db.tables ++ [table]).getD t default)
  rw [List.length_append,List.length_singleton] at inside
  rcases Nat.lt_or_ge t e.db.tables.length with before | after
  · rw [List.getD_append _ _ _ _ before]
    exact all t before
  · obtain rfl : t = e.db.tables.length := by omega
    simpa using rule.new made

theorem executeStatement_invariably (ord : Order) {st : Statement} (other : st ≠ .commit) :
    Proc.Keeps (Invariably P) (executeStatement ord st) := by
  cases st with
  | begin => exact begin_invariably rule ord
  | commit => exact absurd rfl other
  | rollback => exact rollback_invariably rule
  | _ => exact (dataInvariably rule).executeStatement ord Bool.false_ne_true fun q _ => create_invariably rule q

theorem execute_invariably (ord : Order) {statements : List Statement} (others : ∀ st ∈ statements, st ≠ .commit) :
    Proc.Keeps (Invariably P) (execute ord statements) :=
  (undoInvariably rule).execute (fun ord _ => executeStatement_invariably rule ord) ord others

end rules

end Executor

def Request.commits (r : Request) : Bool :=
  match r.body with
  | .execute statements => statements.contains .commit
  | .disconnect => false

namespace Server

variable {P : Table → Prop}

theorem handle_invariably (rule : Table.Invariant P) {r : Request} (uncommitted : r.commits = false) (s : Server)
    (all : s.db.All P) : (handle r s).2.db.All P := by
  obtain ⟨client,ord,body⟩ := r
  cases body with
  | execute statements =>
    apply Executor.execute_invariably rule ord ?_ (s.executor client) all
    rintro st member rfl
    exact absurd (List.contains_iff_mem.mpr member) (Bool.eq_false_iff.mp uncommitted)
  | disconnect =>
    unfold handle
    dsimp only
    split_ifs
    · exact Executor.execute_invariably rule ord (by simp) (s.executor client) all
    · exact all

theorem after_invariably (rule : Table.Invariant P) {requests : List Request}
    (uncommitted : ∀ r ∈ requests, r.commits = false) {s : Server} (all : s.db.All P) : (s.after requests).db.All P := by
  induction requests generalizing s with
  | nil => exact all
  | cons r requests ih =>
    obtain ⟨here,later⟩ := List.forall_mem_cons.mp uncommitted
    exact ih later (handle_invariably rule here s all)

end Server

end GoDb
