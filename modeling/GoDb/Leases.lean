import GoDb.NotNull
import GoDb.StoreFrame
import Mathlib.Algebra.BigOperators.Group.Finset.Piecewise
import Mathlib.Algebra.Order.BigOperators.Group.Finset

/-! The snapshots of the stores against the transactions that took them. BEGIN takes one of
each table and reads the rows; COMMIT and ROLLBACK give back those of their transaction. A
BEGIN that cannot read a table returns with the snapshots it has taken, and nobody gives
them back. -/
namespace GoDb
open Foundation Outcome

namespace Store

def SameLeases (s s' : Store) : Prop := s'.activeSnapshots = s.activeSnapshots

theorem sameLeases : AppendFrame SameLeases where
  frame := ⟨fun _ => rfl,fun first second => second.trans first⟩
  readPage _ _ := rfl
  writePage _ _ := rfl
  allocatePage _ := rfl
  addVersion _ _ _ _ := rfl
  saveIndex _ := rfl
  indexPut _ _ _ := rfl
  indexDelete _ _ := rfl
  begins _ _ := rfl

end Store

namespace Table

def SameLeases (t t' : Table) : Prop := t.store.SameLeases t'.store

theorem leaseRule : Rule SameLeases := by
  have logged : ∀ f, Proc.Keeps Store.SameLeases (Store.onWal f) := fun _ _ => rfl
  have kept := Store.sameLeases
  exact .of_store kept.frame (kept.put logged) (kept.delete logged) (kept.applyBatch logged)

end Table

namespace Db

/-- The snapshots of a table that nobody has given back. -/
def active (db : Db) (t : Nat) : Nat := (db.table t).store.activeSnapshots

variable {db : Db} {t : Nat}

theorem active_outside (outside : db.tables.length ≤ t) : db.active t = 0 := by
  rw [active,Db.table,List.getD_eq_default _ _ outside]
  rfl

theorem active_withTable (db : Db) (t : Nat) (table : Table) (t' : Nat) :
    (db.withTable t table).active t' =
      if t = t' ∧ t < db.tables.length then table.store.activeSnapshots else db.active t' := by
  rw [active,table_withTable]
  split_ifs
  · rfl
  · rfl

theorem active_register (db : Db) (name : Bytes) {table : Table} (idle : table.store.activeSnapshots = 0) (t : Nat) :
    (db.register name table).active t = db.active t := by
  rcases Nat.lt_trichotomy t db.tables.length with before | rfl | after
  · rw [active,Db.table,register,List.getD_append _ _ _ _ before]
    rfl
  · rw [active_outside (Nat.le_refl _),active,Db.table,register,List.getD_append_right _ _ _ _ (Nat.le_refl _),Nat.sub_self]
    exact idle
  · rw [active_outside after.le,active_outside]
    exact List.length_append.trans_le after

end Db

namespace Executor

variable {e e' e'' : Executor} {p q : Prop}

def held (e : Executor) (t : Nat) : Nat :=
  match e.tx with
  | none => 0
  | some tx => (tx.tables.map (·.t)).count t

structure Still (e e' : Executor) : Prop where
  registered : e.db.Registered → e'.db.Registered
  active : ∀ t, e'.db.active t = e.db.active t
  held : ∀ t, e'.held t = e.held t

theorem still : Frame Still where
  refl _ := ⟨id,fun _ => rfl,fun _ => rfl⟩
  trans first second := ⟨second.registered ∘ first.registered,fun t => (second.active t).trans (first.active t),
    fun t => (second.held t).trans (first.held t)⟩

theorem onState_still {t : Nat} {f : TransactionTableState → TransactionTableState}
    (framed : ∀ state, (f state).t = state.t) : Proc.Keeps Still (onState t f) := by
  have addresses (states : List TransactionTableState) :
      (changeState t f states).map (·.t) = states.map (·.t) := by
    induction states with
    | nil => rfl
    | cons state states ih =>
      unfold changeState
      split_ifs
      · rw [List.map_cons,framed,List.map_cons]
      · rw [List.map_cons,ih,List.map_cons]
  apply Keeps.modify
  intro e
  refine ⟨id,fun _ => rfl,fun t' => ?_⟩
  rcases e with ⟨db,_ | tx⟩
  · rfl
  · exact congrArg (List.count t') (addresses tx.tables)

theorem onTable_still {α : Type} (t : Nat) {x : TableM α} (keeps : Proc.Keeps Table.SameLeases x) :
    Proc.Keeps Still (onTable t x) := by
  intro e
  rw [onTable_exec]
  refine ⟨fun registered => registered.withTable t _,fun t' => ?_,fun _ => rfl⟩
  rw [Db.active_withTable]
  split_ifs with changed
  · rw [← changed.1]
    exact keeps _
  · rfl

theorem create_still (q : CreateTable) : Proc.Keeps Still (create q) := by
  apply create_frame still
  intro e name schema table made
  have idle : table.store.activeSnapshots = 0 := by
    rw [(new_same made).2.2.1]
    rfl
  exact ⟨fun registered => registered.register _ table,Db.active_register e.db _ idle,fun _ => rfl⟩

theorem stillRule : Rule Table.SameLeases Still where
  table := Table.leaseRule
  frame := still
  onTable t _ keeps := onTable_still t keeps
  stage _ _ ref _ := by
    apply onState_still
    intro state
    cases ref with
    | read => rfl
    | staged => rfl
  stageDelete _ _ := onState_still fun _ => rfl
  create := create_still

/-- What the snapshots rest on: the tables of a transaction are different ones, and it has a snapshot of each. -/
structure Tidy (e : Executor) : Prop where
  registered : e.db.Registered
  once : ∀ t, e.held t ≤ 1
  covered : ∀ t, e.held t ≤ e.db.active t

/-- The snapshots have changed with those that the transaction holds, up to some that are left behind. -/
def Leaks (p : Prop) (e e' : Executor) : Prop :=
  e.Tidy → e'.Tidy ∧ ∃ leak : Nat → Nat,
    (∀ t, e'.db.active t + e.held t = e.db.active t + e'.held t + leak t) ∧ ((∃ t, 0 < leak t) ↔ p)

theorem Still.leaks (still : e.Still e') : Leaks False e e' := by
  intro tidy
  refine ⟨⟨still.registered tidy.registered,fun t => ?_,fun t => ?_⟩,fun _ => 0,fun t => ?_,?_⟩
  · rw [still.held]
    exact tidy.once t
  · rw [still.held,still.active]
    exact tidy.covered t
  · rw [still.held,still.active,Nat.add_zero]
  · simp

theorem Leaks.trans (first : Leaks p e e') (second : Leaks q e' e'') : Leaks (p ∨ q) e e'' := by
  intro tidy
  obtain ⟨tidy,leak,balance,stranded⟩ := first tidy
  obtain ⟨tidy,more,further,also⟩ := second tidy
  refine ⟨tidy,fun t => leak t + more t,fun t => ?_,?_⟩
  · have one := balance t
    have two := further t
    dsimp only
    omega
  · rw [← stranded,← also,← exists_or]
    exact exists_congr fun t => Nat.add_pos_iff_pos_or_pos

theorem beginTables_active (registered : List (Bytes × Nat)) {e : Executor}
    (inside : ∀ entry ∈ registered, entry.2 < e.db.tables.length) :
    ∃ taken : Nat → Nat, (∀ t, ((beginTables registered).exec e).2.db.active t = e.db.active t + taken t) ∧
      ((∃ states, ((beginTables registered).exec e).1 = .ok states ∧
          ∀ t, taken t = (states.map (·.t)).count t) ∨
        (∃ err, ((beginTables registered).exec e).1 = .error err) ∧ ∃ t, 0 < taken t) := by
  induction registered generalizing e with
  | nil => exact ⟨fun _ => 0,fun _ => rfl,.inl ⟨[],rfl,fun _ => rfl⟩⟩
  | cons entry registered ih =>
    obtain ⟨name,t⟩ := entry
    obtain ⟨here,inside⟩ := List.forall_mem_cons.mp inside
    let e₁ : Executor := {e with db := e.db.withTable t (e.db.table t).snapshot.2}
    have taken (t' : Nat) : e₁.db.active t' = e.db.active t' + if t = t' then 1 else 0 := by
      rw [Db.active_withTable]
      split_ifs with both same same
      · obtain rfl := same
        rfl
      · exact absurd both.1 same
      · exact absurd ⟨same,here⟩ both
      · rfl
    have first : (onTable t (fun table => ((.ok table.snapshot.1 : Except Error Nat),table.snapshot.2))).exec e =
        (.ok (e.db.table t).store.seq,e₁) := rfl
    rw [beginTables,exec_bind_ok first,exec_bind_ok (exec_get e₁),exec_bind,exec_of]
    rcases (e₁.db.table t).scan with err | rows
    · exact ⟨_,taken,.inr ⟨⟨err,rfl⟩,t,by simp⟩⟩
    · dsimp only
      have still : ∀ entry ∈ registered, entry.2 < e₁.db.tables.length := by
        intro entry member
        exact (inside entry member).trans_eq List.length_set.symm
      obtain ⟨more,active,outcome⟩ := ih still
      rw [exec_bind]
      generalize (beginTables registered).exec e₁ = result at active outcome ⊢
      rcases result with ⟨err | states,after⟩
      · refine ⟨_,fun t' => (active t').trans (by rw [taken,Nat.add_assoc]),.inr ⟨⟨err,rfl⟩,t,?_⟩⟩
        rw [if_pos rfl]
        exact Nat.lt_add_right _ Nat.one_pos
      · refine ⟨_,fun t' => (active t').trans (by rw [taken,Nat.add_assoc]),.inl ⟨_,rfl,fun t' => ?_⟩⟩
        rcases outcome with ⟨_,same,counts⟩ | ⟨⟨_,same⟩,-⟩
        · obtain rfl := Except.ok.inj same
          rw [counts,List.map_cons,List.count_cons,Nat.add_comm]
          simp
        · cases same

theorem begin_closed (closed : e.tx = none) (ord : Order) :
    (begin ord).exec e =
      match (beginTables (ord.arrange e.db.registry.entries)).exec e.numbered with
      | (.error err,e') => (.error err,e')
      | (.ok states,e') => (.ok .empty,{e' with tx := some ⟨e.db.nextTransactionID + 1,0,states⟩}) := by
  have free : ¬e.tx.isSome := by rw [closed]; decide
  unfold begin
  rw [exec_bind_ok (exec_get e),exec_bind,exec_refuse,if_neg free]
  dsimp only
  rw [exec_bind_ok (exec_modify _ e)]
  rcases ran : (beginTables (ord.arrange e.db.registry.entries)).exec e.numbered with ⟨err | states,e'⟩
  · exact exec_bind_error ran
  · exact exec_bind_ok ran

theorem begin_leaks (ord : Order) (e : Executor) :
    Leaks (e.tx = none ∧ ∃ err, ((begin ord).exec e).1 = .error err) e ((begin ord).exec e).2 := by
  intro tidy
  rcases closed : e.tx with _ | tx
  · have free (t : Nat) : e.held t = 0 := by rw [held,closed]
    have inside : ∀ entry ∈ ord.arrange e.db.registry.entries, entry.2 < e.numbered.db.tables.length := by
      intro entry member
      rw [Order.mem_arrange,SortedMap.mem_entries] at member
      exact tidy.registered.inside _ _ member
    obtain ⟨taken,active,outcome⟩ := beginTables_active _ inside
    obtain ⟨like,kept,begun⟩ := beginTables_outcome (ord.arrange e.db.registry.entries) e.numbered
    rw [begin_closed closed]
    generalize (beginTables (ord.arrange e.db.registry.entries)).exec e.numbered = result at active outcome like kept begun ⊢
    have registered : result.2.db.Registered := by
      constructor
      · intro name t found
        rw [like.registry] at found
        exact (tidy.registered.inside name t found).trans_eq like.length.symm
      · rw [like.registry]
        exact tidy.registered.once
    rcases result with ⟨err | states,after⟩
    · have still (t : Nat) : after.held t = 0 := by
        have same : after.tx = none := kept.trans closed
        rw [held,same]
      refine ⟨⟨registered,fun t => ?_,fun t => ?_⟩,taken,fun t => ?_,?_⟩
      · rw [still]
        exact Nat.zero_le _
      · rw [still]
        exact Nat.zero_le _
      · rw [still,free]
        exact active t
      · rcases outcome with ⟨_,same,-⟩ | ⟨-,some⟩
        · cases same
        · exact iff_of_true some ⟨rfl,err,rfl⟩
    · rcases outcome with ⟨_,same,counts⟩ | ⟨⟨_,same⟩,-⟩
      · obtain rfl := Except.ok.inj same
        have addresses := ((ord.arrange_perm _).map Prod.snd).symm.trans (.of_eq (begun states rfl).1.symm)
        have once := addresses.nodup_iff.mp (registry_values tidy.registered.once)
        refine ⟨⟨registered,fun t => ?_,fun t => ?_⟩,fun _ => 0,fun t => ?_,?_⟩
        · exact List.nodup_iff_count_le_one.mp once t
        · exact (counts t).ge.trans ((Nat.le_add_left _ _).trans_eq (active t).symm)
        · rw [free,Nat.add_zero]
          exact (active t).trans (congrArg _ (counts t))
        · simp
      · cases same
  · have refused : (begin ord).exec e = (.error .transactionInProgress,e) := by
      rcases begin_outcome ord e with refused | ⟨open',-⟩
      · exact refused
      · rw [closed] at open'
        cases open'
    rw [refused]
    obtain ⟨after,leak,balance,none⟩ := (still.refl e).leaks tidy
    refine ⟨after,leak,balance,none.trans ?_⟩
    simp

theorem releaseSnapshots_active (states : List TransactionTableState) (e : Executor) (t : Nat) :
    ((releaseSnapshots states).exec e).2.db.active t = e.db.active t - (states.map (·.t)).count t := by
  induction states generalizing e with
  | nil => rfl
  | cons state states ih =>
    have released : (onTable state.t (modify Table.releaseSnapshot)).exec e =
        (.ok ⟨⟩,{e with db := e.db.withTable state.t (e.db.table state.t).releaseSnapshot}) := rfl
    have less : (e.db.withTable state.t (e.db.table state.t).releaseSnapshot).active t =
        e.db.active t - if state.t = t then 1 else 0 := by
      rw [Db.active_withTable]
      split_ifs with both same same
      · obtain rfl := same
        rfl
      · exact absurd both.1 same
      · rw [Db.active_outside (Nat.le_of_not_lt fun inside => both ⟨same,same ▸ inside⟩)]
      · rfl
    rw [releaseSnapshots,exec_bind_ok released,ih]
    dsimp only
    rw [less,List.map_cons,List.count_cons,Nat.sub_sub,Nat.add_comm]
    simp

theorem close_leaks {tx : Transaction} (opened : e.tx = some tx) (moved : e.Still e') :
    Leaks False e ((do
      releaseSnapshots tx.tables
      modify fun e => {e with tx := none}
      pure .empty : ExecutorM Result).exec e').2 := by
  intro tidy
  obtain ⟨e'',done,like,-⟩ := releaseSnapshots_outcome tx.tables e'
  have active := releaseSnapshots_active tx.tables e'
  rw [done] at active
  rw [exec_bind_ok done,exec_bind_ok (exec_modify _ e''),exec_pure]
  have registered := moved.registered tidy.registered
  refine ⟨⟨⟨fun name t found => ?_,?_⟩,fun t => Nat.zero_le _,fun t => Nat.zero_le _⟩,fun _ => 0,fun t => ?_,by simp⟩
  · dsimp only at found ⊢
    rw [like.registry] at found
    exact (registered.inside name t found).trans_eq like.length.symm
  · dsimp only
    rw [like.registry]
    exact registered.once
  · have enough := tidy.covered t
    have counts : e.held t = (tx.tables.map (·.t)).count t := by rw [held,opened]
    rw [counts] at enough ⊢
    dsimp only
    rw [active,moved.active]
    exact Nat.sub_add_cancel enough

theorem commit_leaks (ord : Order) (e : Executor) : Leaks False e ((commit ord).exec e).2 := by
  unfold commit
  rw [exec_bind_ok (exec_get e)]
  rcases opened : e.tx with _ | tx
  · exact (still.refl e).leaks
  · dsimp only
    rcases conflict e.db (ord.at 0) tx.tables with _ | key
    · dsimp only
      rw [exec_bind_ok (exec_modify _ e)]
      have numbered : e.Still ⟨{e.db with nextCommitSequence := e.db.nextCommitSequence + 1},
          some {tx with commit := e.db.nextCommitSequence + 1}⟩ := by
        refine ⟨fun registered => ⟨registered.inside,registered.once⟩,fun _ => rfl,fun t => ?_⟩
        rw [held,held,opened]
      have applied := still.trans numbered (stillRule.commitTables (ord.at 1) (e.db.nextCommitSequence + 1) tx.tables.zipIdx _)
      rw [exec_bind]
      generalize (commitTables (ord.at 1) (e.db.nextCommitSequence + 1) tx.tables.zipIdx).exec _ = result at applied ⊢
      rcases result with ⟨err | _,mid⟩
      · exact applied.leaks
      · exact close_leaks opened applied
    · exact (still.refl e).leaks

theorem rollback_leaks (e : Executor) : Leaks False e (rollback.exec e).2 := by
  unfold rollback
  rw [exec_bind_ok (exec_get e)]
  rcases opened : e.tx with _ | tx
  · exact (still.refl e).leaks
  · have undone := stillRule.undo.rollbackTables tx.tables e
    dsimp only
    rw [exec_bind]
    generalize (rollbackTables tx.tables).exec e = result at undone ⊢
    rcases result with ⟨err | _,mid⟩
    · exact undone.leaks
    · exact close_leaks opened undone

/-- A BEGIN that fails, though no transaction is open. -/
def strands (ord : Order) (e : Executor) : Command → Bool
  | .plain .begin => e.tx.isNone && ((begin ord).exec e).1.toOption.isNone
  | _ => false

def strandsEach (ord : Order) : Executor → List (Command × Nat) → Bool
  | _,[] => false
  | e,(c,k)::commands => strands (ord.at k) e c ||
    match (executeCommand (ord.at k) c).exec e with
    | (.ok _,e') => strandsEach ord e' commands
    | (.error _,_) => false

def strandsRequest (ord : Order) (e : Executor) : List Command → Bool
  | [c] => strands ord e c
  | commands => strandsEach ord e commands.zipIdx

theorem Leaks.never {b : Bool} (never : b = false) (leaks : Leaks False e e') : Leaks b e e' := by
  rw [never,iff_false_intro Bool.false_ne_true]
  exact leaks

theorem strands_plain {c : Command} (plain : ¬c.isControl) (ord : Order) (e : Executor) : strands ord e c = false := by
  unfold strands
  split
  · exact absurd rfl plain
  · rfl

theorem strandsEach_plain {commands : List (Command × Nat)} (plain : ∀ c ∈ commands, ¬c.1.isControl) (ord : Order)
    (e : Executor) : strandsEach ord e commands = false := by
  induction commands generalizing e with
  | nil => rfl
  | cons c commands ih =>
    obtain ⟨first,rest⟩ := List.forall_mem_cons.mp plain
    unfold strandsEach
    rw [strands_plain first,Bool.false_or]
    split
    · exact ih rest _
    · rfl

theorem executeCommand_leaks (ord : Order) (c : Command) (e : Executor) :
    Leaks (strands ord e c) e ((executeCommand ord c).exec e).2 := by
  by_cases plain : c.isControl
  · rcases c with st | q
    · cases st with
      | begin =>
        have leaks := begin_leaks ord e
        have same : (e.tx = none ∧ ∃ err, ((begin ord).exec e).1 = .error err) ↔ strands ord e (.plain .begin) := by
          rw [strands,Bool.and_eq_true,Option.isNone_iff_eq_none]
          rcases ((begin ord).exec e).1 with err | out <;> simp [Except.toOption]
        rwa [same] at leaks
      | commit => exact (commit_leaks ord e).never rfl
      | rollback => exact (rollback_leaks e).never rfl
      | _ => cases plain
    · cases plain
  · exact (stillRule.executeCommand ord plain e).leaks.never (strands_plain plain ord e)

theorem executeCommands_leaks (ord : Order) (commands : List (Command × Nat)) (out : Result) (e : Executor) :
    Leaks (strandsEach ord e commands) e ((executeCommands ord commands out).exec e).2 := by
  induction commands generalizing out e with
  | nil => exact (still.refl e).leaks.never rfl
  | cons c commands ih =>
    obtain ⟨c,k⟩ := c
    have first := executeCommand_leaks (ord.at k) c e
    unfold executeCommands strandsEach
    rw [exec_bind]
    generalize (executeCommand (ord.at k) c).exec e = result at first ⊢
    rcases result with ⟨err | out,e'⟩
    · dsimp only
      rwa [Bool.or_false]
    · rw [Bool.or_eq_true]
      exact first.trans (ih out e')

theorem executeRequest_leaks (ord : Order) (commands : List Command) (e : Executor) :
    Leaks (strandsRequest ord e commands) e ((executeRequest ord commands).exec e).2 := by
  rcases commands with _ | ⟨first,_ | ⟨second,rest⟩⟩
  · exact (still.refl e).leaks.never rfl
  · exact executeCommand_leaks ord first e
  · change Leaks (strandsEach ord e (first::second::rest).zipIdx) e _
    unfold executeRequest
    rw [exec_bind_ok (exec_get e)]
    split_ifs with control
    · exact executeCommands_leaks ord _ .empty e
    · have plain : ∀ c ∈ (first::second::rest).zipIdx, ¬c.1.isControl := by
        intro c member isControl
        apply control
        rw [Bool.or_eq_true,List.any_eq_true]
        exact .inr ⟨c.1,List.fst_mem_of_mem_zipIdx member,isControl⟩
      have moved : Proc.Keeps Still (do
          let snaps ← Proc.of (e.scanAll ((ord.at (first::second::rest).length).arrange e.db.registry.entries))
          tryCatch (executeCommands ord (first::second::rest).zipIdx .empty) fun err => do
            restore snaps
            throw (.rolledBack err) : ExecutorM Result) := by
        refine Keeps.of_bind still fun snaps _ => Keeps.tryCatch still (stillRule.executeCommands ord plain _) fun err => ?_
        exact Keeps.bind still (stillRule.undo.restore snaps) fun _ => Keeps.throw still _
      exact (moved e).leaks.never (strandsEach_plain plain ord e)

def Stores (e : Executor) : Prop := ∀ t < e.db.tables.length, (e.db.table t).store.Sound fun _ => True

theorem stores : Frame fun e e' : Executor => e.Stores → e'.Stores := ⟨fun _ => id,fun first second => second ∘ first⟩

theorem Stores.like (like : e.db.Like e'.db) (stores : e.Stores) : e'.Stores := by
  intro t inside
  obtain ⟨n,same⟩ := like.tables t
  rw [same]
  exact ((stores t (like.length ▸ inside)).leases n).1

theorem storesRule : Rule Table.StoreSteps fun e e' => e.Stores → e'.Stores where
  table := Table.storeRule
  frame := stores
  onTable t x keeps := by
    intro e stores t' inside
    rw [onTable_exec] at inside ⊢
    dsimp only at inside ⊢
    rw [Db.withTable,List.length_set] at inside
    rw [Db.table_withTable]
    split_ifs with changed
    · obtain ⟨rfl,-⟩ := changed
      exact (keeps _ (stores t inside)).1
    · exact stores t' inside
  stage _ _ _ _ _ stores := stores
  stageDelete _ _ _ stores := stores
  create := by
    apply create_frame stores
    intro e name schema table made sound t inside
    change ((e.db.tables ++ [table]).getD t default).store.Sound _
    rw [List.length_append,List.length_singleton] at inside
    rcases Nat.lt_or_ge t e.db.tables.length with before | after
    · rw [List.getD_append _ _ _ _ before]
      exact sound t before
    · obtain rfl : t = e.db.tables.length := by omega
      rw [List.getD_append_right _ _ _ _ (Nat.le_refl _),Nat.sub_self]
      change table.store.Sound _
      rw [(new_same made).2.2.1]
      exact created_sound _

theorem releaseSnapshots_stores (states : List TransactionTableState) :
    Proc.Keeps (fun e e' => e.Stores → e'.Stores) (releaseSnapshots states) := by
  intro e sound
  obtain ⟨e',done,like,-⟩ := releaseSnapshots_outcome states e
  rw [done]
  exact sound.like like

theorem control_stores (ord : Order) (st : Statement) (control : st.isControl) :
    Proc.Keeps (fun e e' => e.Stores → e'.Stores) (executeStatement ord st) := by
  cases st with
  | begin =>
    intro e sound
    rcases begin_outcome ord e with refused | ⟨-,⟨err,e',failed,like,-⟩ | ⟨e',tx,done,begins⟩⟩
    · rwa [executeStatement,refused]
    · rw [executeStatement,failed]
      exact Stores.like (e := e.numbered) like sound
    · rw [executeStatement,done]
      exact Stores.like (e := e.numbered) begins.like sound
  | commit =>
    exact commit_frame stores releaseSnapshots_stores (fun _ => id) (fun _ => id) storesRule.commitTables ord
  | rollback => exact rollback_frame stores releaseSnapshots_stores (fun _ => id) storesRule.undo.rollbackTables
  | _ => cases control

def holds (e : Executor) (t : Nat) : Bool := e.tx.any fun tx => tx.tables.any fun state => state.t = t

theorem held_eq (once : ∀ t, e.held t ≤ 1) (t : Nat) : e.held t = if e.holds t then 1 else 0 := by
  have most := once t
  rw [held] at most ⊢
  rcases opened : e.tx with _ | tx
  · rw [holds,opened]
    rfl
  · rw [opened] at most
    have some : 0 < (tx.tables.map (·.t)).count t ↔ e.holds t := by
      rw [List.count_pos_iff,holds,opened,Option.any_some,List.any_eq_true,List.mem_map]
      simp
    split_ifs with taken
    · exact Nat.le_antisymm most (some.mpr taken)
    · exact Nat.eq_zero_of_not_pos fun positive => taken (some.mp positive)

end Executor

namespace Server

variable {s s' : Server} {clients : Finset Nat} {leaked : Nat → Nat}

structure Sent where
  client : Nat
  ord : Order
  commands : List Command

def serveAll (s : Server) : List Sent → Server
  | [] => s
  | r::sent => serveAll (serve r.client r.ord r.commands s).2 sent

/-- Some BEGIN of the run fails though its client has no transaction open. -/
def strands (s : Server) : List Sent → Bool
  | [] => false
  | r::sent => Executor.strandsRequest r.ord (s.executor r.client) r.commands ||
    strands (serve r.client r.ord r.commands s).2 sent

structure Leased (clients : Finset Nat) (leaked : Nat → Nat) (s : Server) : Prop where
  registered : s.db.Registered
  once : ∀ client t, (s.executor client).held t ≤ 1
  outside : ∀ client, client ∉ clients → s.txs client = none
  stores : ∀ t < s.db.tables.length, (s.db.table t).store.Sound fun _ => True
  balance : ∀ t, s.db.active t = (∑ client ∈ clients, (s.executor client).held t) + leaked t

theorem Leased.tidy (leased : s.Leased clients leaked) (client : Nat) : (s.executor client).Tidy := by
  refine ⟨leased.registered,leased.once client,fun t => ?_⟩
  by_cases member : client ∈ clients
  · have most : (s.executor client).held t ≤ ∑ client ∈ clients, (s.executor client).held t :=
      Finset.single_le_sum (f := fun client => (s.executor client).held t) (fun _ _ => Nat.zero_le _) member
    change _ ≤ s.db.active t
    rw [leased.balance]
    exact most.trans (Nat.le_add_right _ _)
  · have closed : (s.executor client).tx = none := leased.outside client member
    rw [Executor.held,closed]
    exact Nat.zero_le _

theorem Leased.serve (leased : s.Leased clients leaked) {client : Nat} (member : client ∈ clients) (ord : Order)
    (commands : List Command) :
    ∃ more : Nat → Nat, (serve client ord commands s).2.Leased clients (fun t => leaked t + more t) ∧
      ((∃ t, 0 < more t) ↔ Executor.strandsRequest ord (s.executor client) commands) := by
  obtain ⟨after,more,balance,stranded⟩ := Executor.executeRequest_leaks ord commands _ (leased.tidy client)
  have stores := Executor.storesRule.executeRequest Executor.control_stores ord commands (s.executor client) leased.stores
  have same : (Server.serve client ord commands s).2 =
    s.withExecutor client ((Executor.executeRequest ord commands).exec (s.executor client)).2 := rfl
  rw [same]
  generalize ((Executor.executeRequest ord commands).exec (s.executor client)).2 = e at after balance stores ⊢
  have other {c : Nat} (different : c ≠ client) (t : Nat) :
      ((s.withExecutor client e).executor c).held t = (s.executor c).held t := by
    have tx : ((s.withExecutor client e).executor c).tx = (s.executor c).tx := by
      change (s.withExecutor client e).txs c = _
      rw [withExecutor_tx,if_neg different]
      rfl
    rw [Executor.held,Executor.held,tx]
  refine ⟨more,⟨after.registered,fun c t => ?_,fun c absent => ?_,stores,fun t => ?_⟩,stranded⟩
  · by_cases here : c = client
    · subst here
      rw [executor_withExecutor]
      exact after.once t
    · rw [other here]
      exact leased.once c t
  · have different : c ≠ client := by
      rintro rfl
      exact absent member
    rw [withExecutor_tx,if_neg different]
    exact leased.outside c absent
  · have before := leased.balance t
    have change := balance t
    rw [← Finset.add_sum_erase clients _ member] at before ⊢
    have rest : ∑ c ∈ clients.erase client, ((s.withExecutor client e).executor c).held t =
        ∑ c ∈ clients.erase client, (s.executor c).held t :=
      Finset.sum_congr rfl fun c member => other (Finset.ne_of_mem_erase member) t
    rw [rest,executor_withExecutor]
    change e.db.active t = _
    change e.db.active t + _ = s.db.active t + _ + _ at change
    omega

theorem Leased.serveAll (leased : s.Leased clients leaked) (sent : List Sent) (known : ∀ r ∈ sent, r.client ∈ clients) :
    ∃ more : Nat → Nat, (s.serveAll sent).Leased clients (fun t => leaked t + more t) ∧
      ((∃ t, 0 < more t) ↔ s.strands sent) := by
  induction sent generalizing s leaked with
  | nil => exact ⟨fun _ => 0,leased,by simp [strands]⟩
  | cons r sent ih =>
    obtain ⟨here,known⟩ := List.forall_mem_cons.mp known
    obtain ⟨first,leased,stranded⟩ := leased.serve here r.ord r.commands
    obtain ⟨second,leased,later⟩ := ih leased known
    refine ⟨fun t => first t + second t,?_,?_⟩
    · rw [Server.serveAll]
      simpa only [Nat.add_assoc] using leased
    · rw [strands,Bool.or_eq_true,← stranded,← later,← exists_or]
      exact exists_congr fun t => Nat.add_pos_iff_pos_or_pos

theorem start_leased (clients : Finset Nat) : (start Db.empty).Leased clients fun _ => 0 where
  registered := ⟨fun _ _ found => absurd found (Option.some_ne_none _).symm,
    fun _ _ _ found => absurd found (Option.some_ne_none _).symm⟩
  once _ _ := Nat.zero_le _
  outside _ _ := rfl
  stores _ inside := absurd inside (Nat.not_lt_zero _)
  balance t := by
    have none : ∑ client ∈ clients, ((start Db.empty).executor client).held t = 0 := Finset.sum_eq_zero fun _ _ => rfl
    rw [none]
    exact Db.active_outside (Nat.zero_le _)

/-- The snapshots of every table are those of the open transactions, exactly if no BEGIN of the run fails on rows that
it cannot read. Then `Compact` is refused while such a transaction is open, and succeeds when there is none. -/
theorem leases_balanced_iff (sent : List Sent) (known : ∀ r ∈ sent, r.client ∈ clients) :
    ((∀ t, ((start Db.empty).serveAll sent).db.active t =
        (clients.filter fun client => (((start Db.empty).serveAll sent).executor client).holds t).card) ↔
      ¬(start Db.empty).strands sent) ∧
    (¬(start Db.empty).strands sent → ∀ t < ((start Db.empty).serveAll sent).db.tables.length,
      ((∃ client, (((start Db.empty).serveAll sent).executor client).holds t) →
        (Store.compact.exec (((start Db.empty).serveAll sent).db.table t).store).1 = .error .activeSnapshots) ∧
      ((¬∃ client, (((start Db.empty).serveAll sent).executor client).holds t) →
        (Store.compact.exec (((start Db.empty).serveAll sent).db.table t).store).1 = .ok ())) := by
  obtain ⟨more,leased,stranded⟩ := (start_leased clients).serveAll sent known
  generalize (start Db.empty).serveAll sent = s at leased ⊢
  have count (t : Nat) : ∑ client ∈ clients, (s.executor client).held t =
      (clients.filter fun client => (s.executor client).holds t).card := by
    rw [Finset.card_filter]
    exact Finset.sum_congr rfl fun client _ => Executor.held_eq (leased.once client) t
  have balance (t : Nat) : s.db.active t = (clients.filter fun client => (s.executor client).holds t).card + more t := by
    rw [leased.balance,count,Nat.zero_add]
  rw [← stranded]
  constructor
  · constructor
    · rintro even ⟨t,positive⟩
      have one := balance t
      have two := even t
      omega
    · intro none t
      rw [balance,Nat.eq_zero_of_not_pos fun positive => none ⟨t,positive⟩,Nat.add_zero]
  · intro none t inside
    have even : s.db.active t = (clients.filter fun client => (s.executor client).holds t).card := by
      rw [balance,Nat.eq_zero_of_not_pos fun positive => none ⟨t,positive⟩,Nat.add_zero]
    have held (client : Nat) : (s.executor client).holds t → client ∈ clients := by
      intro holds
      by_contra absent
      have closed : (s.executor client).tx = Option.none := leased.outside client absent
      rw [Executor.holds,closed] at holds
      cases holds
    constructor
    · rintro ⟨client,holds⟩
      have active : 0 < (s.db.table t).store.activeSnapshots := by
        change 0 < s.db.active t
        rw [even]
        exact Finset.card_pos.mpr ⟨client,Finset.mem_filter.mpr ⟨held client holds,holds⟩⟩
      rw [Store.compact_active active]
    · intro free
      obtain ⟨content,ok⟩ := (leased.stores t inside).ok
      have idle : (s.db.table t).store.activeSnapshots = 0 := by
        change s.db.active t = 0
        rw [even,Finset.card_eq_zero,Finset.filter_eq_empty_iff]
        exact fun client _ holds => free ⟨client,holds⟩
      obtain ⟨s',-,done,-⟩ := Store.compact_exec ok idle
      rw [done]

end Server

namespace Sample

def sent (client : Nat) (c : Command) : Server.Sent := ⟨client,.stored,[c]⟩

def twoBegins : List Server.Sent := [sent 1 (.plain (create "u" .float)),sent 1 (.plain .begin),sent 2 (.plain .begin),
  sent 1 (.plain .commit)]

/-- The first column of a table with a row is dropped, and another client begins a transaction. -/
def beginUnreadable : List Server.Sent := [sent 1 (.plain (create "u" .float)),sent 1 (.plain (insert "u" 1 (.int 7))),
  sent 1 (.alter ⟨ascii "u",.drop (ascii "id")⟩),sent 2 (.plain .begin)]

end Sample

namespace Server

theorem leases_balanced_committed :
    ((start Db.empty).serveAll Sample.twoBegins).db.active 0 = 1 ∧
      (Store.compact.exec (((start Db.empty).serveAll Sample.twoBegins).db.table 0).store).1 = .error .activeSnapshots := by
  have known : ∀ r ∈ Sample.twoBegins, r.client ∈ ({1,2} : Finset Nat) := by decide
  have fine : ¬(start Db.empty).strands Sample.twoBegins := by decide +kernel
  obtain ⟨balanced,compacts⟩ := leases_balanced_iff Sample.twoBegins known
  constructor
  · rw [balanced.mpr fine 0]
    decide +kernel
  · exact (compacts fine 0 (by decide +kernel)).1 ⟨2,by decide +kernel⟩

theorem leases_leaked :
    let s := (start Db.empty).serveAll Sample.beginUnreadable
    (∀ client, s.txs client = none) ∧ s.db.active 0 = 1 ∧
      (Store.compact.exec (s.db.table 0).store).1 = .error .activeSnapshots := by
  have known : ∀ r ∈ Sample.beginUnreadable, r.client ∈ ({1,2} : Finset Nat) := by decide
  obtain ⟨_,leased,-⟩ := (start_leased {1,2}).serveAll Sample.beginUnreadable known
  refine ⟨fun client => ?_,by decide +kernel,by decide +kernel⟩
  by_cases member : client ∈ ({1,2} : Finset Nat)
  · rw [Finset.mem_insert,Finset.mem_singleton] at member
    rcases member with rfl | rfl
    · exact Option.isNone_iff_eq_none.mp (by decide +kernel)
    · exact Option.isNone_iff_eq_none.mp (by decide +kernel)
  · exact leased.outside client member

end Server
end GoDb
