import GoDb.ExecutorInvariant
import GoDb.Server

/-! What every request of every client keeps. A client whose request is handled may end
or begin a transaction; those of the other clients stay open as they are. -/
namespace GoDb
open Foundation Outcome Runs

/-- Statements that only read and write rows. -/
def Statement.isData : Statement → Bool
  | .insert _ => true
  | .select _ => true
  | .update _ => true
  | .delete _ => true
  | _ => false

theorem Statement.not_isControl {st : Statement} (data : st.isData) : ¬st.isControl := by
  cases st with
  | insert | select | update | delete => exact Bool.false_ne_true
  | begin | commit | rollback | createTable => cases data

namespace Server

variable {s s' : Server}

structure Ok (s : Server) : Prop where
  db : s.db.Ok
  txs : ∀ client tx, s.txs client = some tx → tx.Ok s.db

structure Step (s s' : Server) : Prop where
  ok : s'.Ok
  moves : s.db.Moves s'.db
  evolves : ∀ client, (s.executor client).Evolves (s'.executor client)

def Steps (s s' : Server) : Prop := s.Ok → s.Step s'

theorem Ok.executor (ok : s.Ok) (client : Nat) : (s.executor client).Ok := ⟨ok.db,ok.txs client⟩

theorem steps : Frame Steps where
  refl s ok := ⟨ok,.refl _,fun client => (Executor.steps.refl _ (ok.executor client)).evolves⟩
  trans first second ok := by
    obtain ⟨middle,moves,evolves⟩ := first ok
    obtain ⟨last,more,further⟩ := second middle
    refine ⟨last,moves.trans more,fun client => ?_⟩
    have one : Executor.Steps _ _ := fun _ => ⟨middle.executor client,moves,evolves client⟩
    have two : Executor.Steps _ _ := fun _ => ⟨last.executor client,more,further client⟩
    exact (Executor.steps.trans one two (ok.executor client)).evolves

theorem withExecutor_tx (s : Server) (client : Nat) (e : Executor) (other : Nat) :
    (s.withExecutor client e).txs other = if other = client then e.tx else s.txs other := by
  simp only [withExecutor,Function.update_apply]

theorem withExecutor_steps {client : Nat} {e : Executor} (steps : (s.executor client).Steps e) :
    s.Steps (s.withExecutor client e) := by
  intro ok
  obtain ⟨after,moves,evolves⟩ := steps (ok.executor client)
  refine ⟨⟨after.db,fun other tx opened => ?_⟩,moves,fun other tx opened => ?_⟩
  · rw [withExecutor_tx] at opened
    split_ifs at opened
    · exact after.tx tx opened
    · exact (ok.txs other tx opened).moves moves
  · change (s.withExecutor client e).txs other = some tx at opened
    rw [withExecutor_tx] at opened
    split_ifs at opened with same
    · subst same
      exact evolves tx opened
    · exact .inl ⟨tx,opened,rfl,rfl⟩

theorem handle_steps (r : Request) (s : Server) : s.Steps (handle r s).2 := by
  unfold handle
  cases r.body with
  | execute statements => exact withExecutor_steps (Executor.execute_keeps r.ord statements _)
  | disconnect =>
    dsimp only
    split_ifs
    · refine withExecutor_steps (Executor.steps.trans (Executor.execute_keeps r.ord [.rollback] _) ?_)
      exact Executor.close_keeps _
    · exact steps.refl s

theorem handle_tx {r : Request} {other : Nat} (apart : other ≠ r.client) (s : Server) :
    (handle r s).2.txs other = s.txs other := by
  unfold handle
  cases r.body with
  | execute statements => exact (withExecutor_tx s r.client _ other).trans (if_neg apart)
  | disconnect =>
    dsimp only
    split_ifs
    · exact (withExecutor_tx s r.client _ other).trans (if_neg apart)
    · rfl

def after (s : Server) (requests : List Request) : Server := Runs.after handle requests s

theorem after_steps (s : Server) (requests : List Request) : s.Steps (s.after requests) :=
  Runs.after_keeps steps handle_steps requests s

theorem after_append (s : Server) (first second : List Request) :
    s.after (first ++ second) = (s.after first).after second := Runs.after_append handle first second s

@[simp] theorem executor_withExecutor (s : Server) (client : Nat) (e : Executor) :
    (s.withExecutor client e).executor client = e := by
  simp [executor,withExecutor]

@[simp] theorem withExecutor_withExecutor (s : Server) (client : Nat) (e e' : Executor) :
    (s.withExecutor client e).withExecutor client e' = s.withExecutor client e' := by
  simp [withExecutor]

@[simp] theorem withExecutor_executor (s : Server) (client : Nat) : s.withExecutor client (s.executor client) = s := by
  simp [executor,withExecutor]

theorem handle_one (client : Nat) (ord : Order) (st : Statement) (s : Server) :
    handle (.one client ord st) s =
      (((Executor.executeStatement ord st).exec (s.executor client)).1,
        s.withExecutor client ((Executor.executeStatement ord st).exec (s.executor client)).2) := rfl

def single (client : Nat) (ord : Order) (statements : List (Statement × Nat)) : List Request :=
  statements.map fun (st,k) => .one client (ord.at k) st

private theorem executeEach_singles (client : Nat) (ord : Order) (statements : List (Statement × Nat)) (out : Result)
    (s : Server) : ∃ n, s.withExecutor client ((Executor.executeEach ord statements out).exec (s.executor client)).2 =
        s.after (single client ord (statements.take n)) ∧
      ((Executor.executeEach ord statements out).exec (s.executor client)).1 =
        ((Runs.run handle (single client ord (statements.take n)) s).1.getLast?.map Prod.snd).getD (.ok out) ∧
      (n < statements.length → ((Executor.executeEach ord statements out).exec (s.executor client)).1.isOk = false) := by
  induction statements generalizing s out with
  | nil => exact ⟨0,withExecutor_executor s client,rfl,fun few => absurd few (Nat.lt_irrefl 0)⟩
  | cons entry statements ih =>
    obtain ⟨st,k⟩ := entry
    have first := handle_one client (ord.at k) st s
    unfold Executor.executeEach
    rw [exec_bind]
    generalize (Executor.executeStatement (ord.at k) st).exec (s.executor client) = result at first ⊢
    rcases result with ⟨err | out,e⟩
    · exact ⟨1,(congrArg Prod.snd first).symm,(congrArg Prod.fst first).symm,fun _ => rfl⟩
    · obtain ⟨n,same,answer,few⟩ := ih out (s.withExecutor client e)
      rw [executor_withExecutor,withExecutor_withExecutor] at same
      rw [executor_withExecutor] at answer few
      refine ⟨n + 1,?_,?_,fun less => few (Nat.lt_of_succ_lt_succ less)⟩
      · change _ = (handle (.one client (ord.at k) st) s).2.after (single client ord (statements.take n))
        rw [first]
        exact same
      · change _ = ((((_,(handle (.one client (ord.at k) st) s).1)::(Runs.run handle (single client ord (statements.take n))
          (handle (.one client (ord.at k) st) s).2).1).getLast?).map Prod.snd).getD _
        rw [first,List.getLast?_cons]
        refine answer.trans ?_
        cases (Runs.run handle (single client ord (statements.take n)) (s.withExecutor client e)).1.getLast? <;> rfl

/-- A request that runs in a transaction, or that begins or ends one, does what its statements do as requests of their
own, up to the first that fails, and has the answer of the last of them. -/
theorem handle_singles (client : Nat) (ord : Order) (statements : List Statement) (s : Server)
    (many : 2 ≤ statements.length) (control : (s.txs client).isSome || statements.any Statement.isControl) :
    ∃ n, (handle ⟨client,ord,.execute statements⟩ s).2 = s.after (single client ord (statements.zipIdx.take n)) ∧
      (handle ⟨client,ord,.execute statements⟩ s).1 =
        ((Runs.run handle (single client ord (statements.zipIdx.take n)) s).1.getLast?.map Prod.snd).getD (.ok .empty) ∧
      (n < statements.length → (handle ⟨client,ord,.execute statements⟩ s).1.isOk = false) := by
  obtain ⟨n,same⟩ := executeEach_singles client ord statements.zipIdx .empty s
  rw [List.length_zipIdx] at same
  refine ⟨n,?_⟩
  rcases statements with _ | ⟨first,_ | ⟨second,rest⟩⟩
  · exact absurd many (by decide)
  · exact absurd many (by simp)
  · have ran : (Executor.execute ord (first::second::rest)).exec (s.executor client) =
        (Executor.executeEach ord (first::second::rest).zipIdx .empty).exec (s.executor client) := by
      unfold Executor.execute
      rw [exec_bind_ok (exec_get _),if_pos (show ((s.executor client).tx.isSome || _) = true from control)]
    simp only [handle]
    rw [ran]
    exact same

theorem start_ok {db : Db} (ok : db.Ok) : (start db).Ok := ⟨ok,nofun⟩

end Server

def Db.empty : Db := ⟨[],∅,0,0⟩

theorem Db.empty_ok : Db.empty.Ok where
  sound _ inside := absurd inside (Nat.not_lt_zero _)
  registered _ _ found := absurd found (Option.some_ne_none _).symm
  once _ _ _ found := absurd found (Option.some_ne_none _).symm

/-! Statements on small tables, from which runs are made. -/
namespace Sample

def create (name : String) (type : ColumnType) : Statement :=
  .createTable ⟨ascii name,[⟨ascii "a",type⟩],∅⟩

def insert (name : String) (id : Int64) (a : Value) : Statement :=
  .insert ⟨ascii name,[ascii "id",ascii "a"],[.int id,a]⟩

def requests (sent : List (Nat × Statement)) : List Request :=
  sent.map fun (client,st) => .one client .stored st

def server (sent : List (Nat × Statement)) : Server := (Server.start Db.empty).after (requests sent)

theorem server_ok (sent : List (Nat × Statement)) : (server sent).Ok :=
  (Server.after_steps _ _ (Server.start_ok Db.empty_ok)).ok

end Sample

theorem Server.handle_singles_begun : ∃ n, (handle ⟨1,.stored,.execute [.begin,.rollback]⟩ (start .empty)).2 =
    (start .empty).after (single 1 .stored (([.begin,.rollback] : List Statement).zipIdx.take n)) := by
  obtain ⟨n,same,-⟩ := handle_singles 1 .stored [.begin,.rollback] (start .empty) (by decide) rfl
  exact ⟨n,same⟩

end GoDb
