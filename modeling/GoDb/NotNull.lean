import GoDb.Alterations
import GoDb.Commands

/-! Columns that may not be NULL, in tables whose schema changes. Every row is checked against
the schema of the time when it is written, and `Alter` writes all rows again. So no row has
a NULL that it may not have, as long as `Alter` finds each row under its own key: a row under
another one stays in the old format, with bits for other columns. -/
namespace GoDb
open Foundation Outcome

theorem Table.Sound.notNull {t : Table} (sound : t.Sound) {e : BTree.Entry} (member : e ∈ t.entries) :
    t.schema.NotNull (t.schema.rowOf e.2) := by
  intro c column required
  have encoded := sound.encode member
  unfold Schema.encode at encoded
  split_ifs at encoded
  exact Schema.encodeFrom_notNull encoded c column required

theorem Executor.alter_success {e e' : Executor} {q : AlterTable} {t : Nat} {result : Result}
    (found : e.table q.table = .ok t) (done : (alter q).exec e = (.ok result,e')) :
    ∃ table, (Table.alter ((e.db.table t).schema.altered q.action)).exec (e.db.table t) = (.ok (),table) ∧
      e' = {e with db := e.db.withTable t table} := by
  rw [alter,exec_bind_ok (exec_get e),exec_of_bind found] at done
  obtain ⟨_,e₁,altered,done⟩ := bind_success done
  obtain ⟨-,rfl⟩ := Prod.mk.inj done
  obtain ⟨ran,rfl⟩ := Prod.mk.inj altered
  exact ⟨_,Prod.ext ran rfl,rfl⟩

namespace Server

/-- One request under the lock, with statements that alter tables. -/
def serve (client : Nat) (ord : Order) (commands : List Command) (s : Server) : Except Error Result × Server :=
  let (answer,e) := (Executor.executeRequest ord commands).exec (s.executor client)
  (answer,s.withExecutor client e)

theorem serve_plain (client : Nat) (ord : Order) (statements : List Statement) (s : Server) :
    serve client ord (statements.map .plain) s = handle ⟨client,ord,.execute statements⟩ s := by
  rw [serve,Executor.executeRequest_plain]
  rfl

variable {s : Server} {client : Nat} {ord : Order} {q : AlterTable} {t : Nat} {result : Result}

theorem alter_ok (ok : s.Ok) (found : (s.executor client).table q.table = .ok t) (printed : (s.db.table t).Printed)
    (keeps : ∀ name, q.action = .drop name → equalFold (s.db.table t).schema.keyColumn name = false)
    (done : (serve client ord [.alter q] s).1 = .ok result) : (serve client ord [.alter q] s).2.Ok := by
  have inside := ok.db.registered _ t (Executor.lookup_of_table found)
  have sound := ok.db.sound t inside
  have moved := ((Executor.eachRule Table.storeRule).alter q (s.executor client)).tables t inside
    sound.legible.inOrder.store
  have ran : (Executor.alter q).exec (s.executor client) = (.ok result,((Executor.alter q).exec (s.executor client)).2) :=
    Prod.ext done rfl
  obtain ⟨table,altered,left⟩ := Executor.alter_success found ran
  have same : (serve client ord [.alter q] s).2 = ⟨s.db.withTable t table,s.txs⟩ := by
    change s.withExecutor client ((Executor.alter q).exec (s.executor client)).2 = _
    rw [left,withExecutor]
    exact congrArg (Server.mk _) (Function.update_eq_self client s.txs)
  have here : (s.db.withTable t table).table t = table := Db.table_withTable_self inside table
  rw [left] at moved
  have altered := Table.alter_done sound.legible altered
  have keyKept := Schema.keepsKey_altered sound.columns altered.valid keeps
  rw [same]
  refine ⟨⟨fun t' inside' => ?_,fun name t' there => ?_,ok.db.once⟩,fun other tx opened => ?_⟩
  · rw [Db.table_withTable]
    split_ifs
    · exact altered.sound sound.legible keyKept printed
    · exact ok.db.sound t' (by simpa [Db.withTable] using inside')
  · simpa [Db.withTable] using ok.db.registered name t' there
  · have before := ok.txs other tx opened
    refine ⟨before.distinct,fun state member => ?_,fun state member => ?_,before.id⟩
    · simpa [Db.withTable] using before.inside state member
    · refine (before.readAt state member).trans ?_
      rw [Db.table_withTable]
      split_ifs with changed
      · rw [← changed.1]
        have seq : (s.db.table t).store.seq ≤ ((s.db.withTable t table).table t).store.seq := moved.2.seq
        rwa [here] at seq
      · exact Nat.le_refl _

/-- Requests of any clients, whether they succeed or fail, and ALTER TABLE statements that succeed. Each of these keeps
the key column, and finds the rows under their printed keys. -/
inductive Upright : Server → Prop
  | start : Upright (start Db.empty)
  | request {s : Server} (upright : Upright s) (r : Request) : Upright (handle r s).2
  | alter {s : Server} (upright : Upright s) (client : Nat) (ord : Order) {q : AlterTable} {t : Nat} {result : Result}
      (found : (s.executor client).table q.table = .ok t) (printed : (s.db.table t).Printed)
      (keeps : ∀ name, q.action = .drop name → equalFold (s.db.table t).schema.keyColumn name = false)
      (done : (serve client ord [.alter q] s).1 = .ok result) : Upright (serve client ord [.alter q] s).2

theorem Upright.ok (upright : s.Upright) : s.Ok := by
  induction upright with
  | start => exact start_ok Db.empty_ok
  | request _ r ih => exact (handle_steps r _ ih).ok
  | alter _ client ord found printed keeps done ih => exact alter_ok ih found printed keeps done

/-- In every such state the rows of all tables can be read, and have a value in every column that is NOT NULL. -/
theorem not_null_kept (upright : s.Upright) (inside : t < s.db.tables.length) :
    ∃ rows, (s.db.table t).scan = .ok rows ∧ ∀ row ∈ rows, (s.db.table t).schema.NotNull row := by
  have sound := upright.ok.db.sound t inside
  refine ⟨_,sound.scan,fun row member => ?_⟩
  obtain ⟨e,there,rfl⟩ := List.mem_map.mp member
  exact sound.notNull there

def createRequired : Statement :=
  .createTable ⟨ascii "u",[⟨ascii "a",.int⟩,⟨ascii "b",.int⟩,⟨ascii "c",.int⟩],
    (∅ : GoMap ColumnConstraint).insert (ascii "b") ⟨true,false,none⟩⟩

def insertRequired : Statement :=
  .insert ⟨ascii "u",[ascii "id",ascii "a",ascii "b",ascii "c"],[.int 1,.nil,.int 5,.nil]⟩

def dropNullable : AlterTable := ⟨ascii "u",.drop (ascii "a")⟩

def filled : Server := Sample.server [(1,createRequired),(1,insertRequired)]

theorem not_null_dropped : ∃ rows, ((serve 2 .stored [.alter dropNullable] filled).2.db.table 0).scan = .ok rows ∧
    ∀ row ∈ rows, ((serve 2 .stored [.alter dropNullable] filled).2.db.table 0).schema.NotNull row := by
  have upright : filled.Upright := (Upright.start.request (.one 1 .stored createRequired)).request (.one 1 .stored insertRequired)
  have sound := upright.ok.db.sound 0 (by decide +kernel)
  have printed := sound.legible.printed_of (by decide +kernel)
  have done : (serve 2 .stored [.alter dropNullable] filled).1 = .ok {Result.empty with affected := 1} := by decide +kernel
  refine not_null_kept (upright.alter 2 .stored (by decide +kernel) printed (fun name drop => ?_) done) (by decide +kernel)
  obtain rfl := Alteration.drop.inj drop
  decide +kernel

/-- The row goes in inside of a transaction, which then sets its key to 2. -/
def moved : List (Nat × Statement) :=
  [(1,createRequired),(1,.begin),(1,insertRequired),(1,.update ⟨ascii "u",(∅ : GoMap Value).insert (ascii "id") (.int 2),none⟩),
    (1,.commit)]

/-- Both keys have the row with the new key after that. The one that is not its own is left in the old format, where the
bit of `a` is read for `b`. -/
theorem null_in_not_null :
    (Runs.run handle (Sample.requests moved) (start Db.empty)).1.all (fun answer => answer.2.isOk) = true ∧
      (serve 2 .stored [.alter dropNullable] (Sample.server moved)).1.isOk = true ∧
      ((serve 2 .stored [.alter dropNullable] (Sample.server moved)).2.db.table 0).scan.map
          (fun rows => rows.map fun row => row.get (ascii "b")) = .ok [.nil,.int 5] ∧
      (((serve 2 .stored [.alter dropNullable] (Sample.server moved)).2.db.table 0).schema.constraint
        (ascii "b")).notNull = true := by
  decide +kernel

end Server
end GoDb
