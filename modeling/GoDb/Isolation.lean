import GoDb.Acknowledged
import GoDb.Foundation.Hiding

/-! Transactions in whole runs, in whatever order the requests of the clients come. What a client does in an open
transaction cannot be told from the rest of the server; and what is in the tables is what transactions have committed. -/
namespace GoDb
open Foundation Outcome

def Request.isData (r : Request) : Bool :=
  match r.body with
  | .execute statements => statements.all Statement.isData
  | .disconnect => false

theorem Request.isData_iff {r : Request} :
    r.isData ↔ ∃ statements, r.body = .execute statements ∧ ∀ st ∈ statements, st.isData := by
  unfold isData
  cases r.body <;> simp

namespace Server

variable {s s' : Server} {client : Nat} {r : Request}

/-- The same server to everyone but this client, who has a transaction open. -/
structure Alike (client : Nat) (s s' : Server) : Prop where
  db : s.db = s'.db
  txs : ∀ other, other ≠ client → s.txs other = s'.txs other
  opened : (s.txs client).isSome

theorem Alike.hides (own : r.client = client) (data : r.isData) (alike : Alike client s s') :
    Alike client (handle r s).2 s' := by
  obtain ⟨_,ord,_⟩ := r
  obtain ⟨statements,rfl,plain⟩ := Request.isData_iff.mp data
  subst own
  obtain ⟨db,still⟩ := Executor.execute_private ord plain (s.executor _) alike.opened
  refine ⟨db.trans alike.db,fun other apart => (handle_tx apart s).trans (alike.txs other apart),?_⟩
  change ((s.withExecutor _ _).txs _).isSome = true
  rw [withExecutor_tx,if_pos rfl]
  exact still

/-- A request goes by the executor of its client, and by nothing else. -/
theorem handle_executor (r : Request) (same : s.executor r.client = s'.executor r.client) :
    (handle r s).1 = (handle r s').1 ∧ (handle r s).2.executor r.client = (handle r s').2.executor r.client := by
  obtain ⟨client,ord,body⟩ := r
  have tx : s.txs client = s'.txs client := congrArg Executor.tx same
  cases body with
  | execute statements =>
    simp only [handle,executor_withExecutor]
    rw [same]
    exact ⟨rfl,rfl⟩
  | disconnect =>
    simp only [handle]
    rw [tx]
    split_ifs
    · simp [same]
    · exact ⟨rfl,same⟩

theorem Alike.shows (apart : r.client ≠ client) (alike : Alike client s s') :
    (handle r s).1 = (handle r s').1 ∧ Alike client (handle r s).2 (handle r s').2 := by
  have same : s.executor r.client = s'.executor r.client := by
    rw [executor,executor,alike.db,alike.txs r.client apart]
  obtain ⟨answer,next⟩ := handle_executor r same
  refine ⟨answer,congrArg Executor.db next,fun other hidden => ?_,?_⟩
  · by_cases own : other = r.client
    · subst own
      exact congrArg Executor.tx next
    · rw [handle_tx own,handle_tx own,alike.txs other hidden]
  · rw [handle_tx apart.symm]
    exact alike.opened

end Server

/-- What a transaction has written under a key of a table. -/
def Transaction.written (tx : Transaction) (t : Nat) (key : Bytes) : Option TransactionRow :=
  (tx.tables.find? fun state => state.t = t).bind fun state => state.batch.lookup key

/-- The row under a key, after the last write to it. -/
def Table.rowAfter (t : Table) (key : Bytes) : Option TransactionRow → Except Error (Option Row)
  | some change => t.schema.readBack change
  | none => t.get key

theorem Executor.commit_written {e : Executor} (ok : e.Ok) {tx : Transaction} (opened : e.tx = some tx) {ord : Order}
    {result : Result} (done : ((commit ord).exec e).1 = .ok result) {t : Nat} (inside : t < e.db.tables.length)
    (key : Bytes) :
    (((commit ord).exec e).2.db.table t).get key = (e.db.table t).rowAfter key (tx.written t key) := by
  obtain ⟨unchanged,committable⟩ := (commit_ok ok opened ord).mp ⟨result,done⟩
  unfold Transaction.written
  cases found : tx.tables.find? fun state => state.t = t with
  | none => exact commit_get_other ok opened inside (by simpa using found) key
  | some state =>
    obtain rfl : state.t = t := by simpa using List.find?_some found
    rw [commit_get ok opened unchanged committable (List.mem_of_find?_eq_some found),Table.getAfter]
    change _ = (e.db.table state.t).rowAfter key (state.batch.lookup key)
    rcases state.batch.lookup key with _ | _ | row <;> rfl

namespace Server

variable {s : Server} {r : Request} {t : Nat}

def committed (s : Server) (r : Request) : Option Transaction :=
  match r.body with
  | .execute [.commit] => if (handle r s).1.isOk then s.txs r.client else none
  | _ => none

/-- The transactions that a run commits, in the order of their COMMITs. -/
def commits : List Request → Server → List Transaction
  | [],_ => []
  | r::requests,s => (s.committed r).toList ++ commits requests (handle r s).2

/-- A request of a client that works in transactions. A COMMIT may find a conflict; what else may go wrong is that a row
does not fit its table, and then a part of the transaction is in the tables. -/
inductive Transacts (s : Server) : Request → Prop
  | begins (client : Nat) (ord : Order) : Transacts s (.one client ord .begin)
  | works {r : Request} (opened : (s.txs r.client).isSome) (data : r.isData) : Transacts s r
  | commits (client : Nat) (ord : Order)
    (settled : (s.txs client).isSome → ∀ err, (handle (.one client ord .commit) s).1 = .error err →
      ∃ key, err = .conflict key) : Transacts s (.one client ord .commit)

theorem like_get {db db' : Db} (like : db.Like db') (t : Nat) (key : Bytes) :
    (db'.table t).get key = (db.table t).get key := by
  obtain ⟨n,same⟩ := like.tables t
  rw [same]
  rfl

theorem handle_begin_get (client : Nat) (ord : Order) (s : Server) (t : Nat) (key : Bytes) :
    ((handle (.one client ord .begin) s).2.db.table t).get key = (s.db.table t).get key := by
  rw [handle_one]
  change ((((Executor.begin ord).exec (s.executor client)).2.db).table t).get key = _
  rcases Executor.begin_outcome ord (s.executor client) with failed | ⟨-,⟨err,e,failed,like,-⟩ | ⟨e,tx,done,begins⟩⟩
  · rw [failed]
    rfl
  · rw [failed]
    exact like_get like t key
  · rw [done]
    exact like_get begins.like t key

theorem Transacts.get (transacts : s.Transacts r) (ok : s.Ok) (inside : t < s.db.tables.length) (key : Bytes) :
    ((handle r s).2.db.table t).get key =
      (s.db.table t).rowAfter key ((s.committed r).bind fun tx => tx.written t key) := by
  cases transacts with
  | begins client ord => exact handle_begin_get client ord s t key
  | works opened data =>
    obtain ⟨client,ord,_⟩ := r
    obtain ⟨statements,rfl,plain⟩ := Request.isData_iff.mp data
    have other : s.committed ⟨client,ord,.execute statements⟩ = none := by
      unfold committed
      split
      · rename_i is
        rw [Body.execute.inj is] at plain
        exact absurd (plain .commit List.mem_cons_self) Bool.false_ne_true
      · rfl
    obtain ⟨db,-⟩ := Executor.execute_private ord plain (s.executor client) opened
    rw [other]
    change ((((Executor.execute ord statements).exec (s.executor client)).2.db).table t).get key = _
    rw [db]
    rfl
  | commits client ord settled =>
    have answer : s.committed (.one client ord .commit) =
        if ((Executor.commit ord).exec (s.executor client)).1.isOk then s.txs client else none := rfl
    rw [answer]
    change ((((Executor.commit ord).exec (s.executor client)).2.db).table t).get key = _
    cases opened : s.txs client with
    | none =>
      rcases Executor.commit_cases ord (s.executor client) with ⟨-,same⟩ | ⟨tx,opened',-⟩
      · rw [same]
        rfl
      · cases opened.symm.trans opened'
    | some tx =>
      rcases Executor.commit_answer (ok.executor client) opened ord with ⟨_,-,same⟩ | ⟨-,⟨done,-⟩ | ⟨err,failed,other,-⟩⟩
      · rw [same]
        rfl
      · rw [Executor.commit_written (ok.executor client) opened done inside,done]
        rfl
      · obtain ⟨key,conflict⟩ := settled (by rw [opened]; rfl) err failed
        exact absurd conflict (other key)

/-- Under each key is the row that the last transaction to commit a write there has written, and where there is none the
row from the start. -/
theorem committed_rows (ok : s.Ok) (requests : List Request) (transacts : Runs.Along handle Transacts requests s)
    (inside : t < s.db.tables.length) (key : Bytes) :
    ((s.after requests).db.table t).get key =
      (s.db.table t).rowAfter key ((commits requests s).reverse.findSome? fun tx => tx.written t key) := by
  induction requests generalizing s with
  | nil => rfl
  | cons r requests ih =>
    obtain ⟨here,later⟩ := transacts
    have step := handle_steps r s ok
    have rest := ih step.ok later (Nat.lt_of_lt_of_le inside step.moves.length)
    refine Eq.trans rest ?_
    rw [commits,List.reverse_append,List.findSome?_append]
    cases (commits requests (handle r s).2).reverse.findSome? fun tx => tx.written t key with
    | some change => exact congrArg (Schema.readBack · change) (step.moves.schema t inside)
    | none =>
      refine (here.get ok inside key).trans (congrArg ((s.db.table t).rowAfter key) ?_)
      cases s.committed r <;> simp

/-- Two clients insert a row under one key, each in a transaction of its own. -/
def rivals : List Request :=
  Sample.requests [(1,.begin),(2,.begin),(1,Sample.insert "u" 1 (.int 7)),(2,Sample.insert "u" 1 (.int 8)),(1,.commit),
    (2,.commit)]

theorem committed_rows_rivals : ∃ s₀ : Server, s₀ = Sample.server [(1,Sample.create "u" .int)] ∧
    (commits rivals s₀).map Transaction.id = [1] ∧ ((s₀.after rivals).db.table 0).get (ascii "1") =
      (s₀.db.table 0).rowAfter (ascii "1") ((commits rivals s₀).reverse.findSome? fun tx => tx.written 0 (ascii "1")) := by
  refine ⟨_,rfl,by decide +kernel,committed_rows (Sample.server_ok _) rivals ?_ (by decide +kernel) _⟩
  refine ⟨.begins _ _,.begins _ _,.works (by decide +kernel) rfl,.works (by decide +kernel) rfl,?_,?_,trivial⟩
  · refine .commits 1 .stored fun _ err failed => ?_
    cases failed.symm.trans (show _ = .ok .empty by decide +kernel)
  · refine .commits 2 .stored fun _ err failed => ⟨ascii "1",?_⟩
    exact Except.error.inj (failed.symm.trans (by decide +kernel))

end Server
end GoDb
