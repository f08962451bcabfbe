import GoDb.ExecutorRule
import GoDb.TableInvariant

/-! What every statement of every executor keeps: the tables are in order and their
histories only grow, and an open transaction keeps the read points and the rollback
images it got at its BEGIN. -/
namespace GoDb
open Foundation Outcome

namespace Db

variable {db db' : Db}

structure Ok (db : Db) : Prop where
  sound : ∀ t < db.tables.length, (db.table t).Sound
  registered : ∀ name t, db.registry.lookup name = some t → t < db.tables.length
  once : ∀ name other t, db.registry.lookup name = some t → db.registry.lookup other = some t → name = other

/-- The tables of the one are still there in the other, and have moved on. -/
structure Moves (db db' : Db) : Prop where
  length : db.tables.length ≤ db'.tables.length
  schema : ∀ t < db.tables.length, (db'.table t).schema = (db.table t).schema
  contents : ∀ t < db.tables.length, (db.table t).store.contents.Moves (db'.table t).store.contents
  begins : db.nextTransactionID ≤ db'.nextTransactionID

theorem Moves.refl (db : Db) : db.Moves db :=
  ⟨Nat.le_refl _,fun _ _ => rfl,fun _ _ => .refl _,Nat.le_refl _⟩

theorem Moves.trans {db'' : Db} (first : db.Moves db') (second : db'.Moves db'') : db.Moves db'' where
  length := first.length.trans second.length
  schema t inside := (second.schema t (Nat.lt_of_lt_of_le inside first.length)).trans (first.schema t inside)
  contents t inside := (first.contents t inside).trans (second.contents t (Nat.lt_of_lt_of_le inside first.length))
  begins := first.begins.trans second.begins

def withTable (db : Db) (t : Nat) (table : Table) : Db := {db with tables := db.tables.set t table}

theorem table_withTable (db : Db) (t : Nat) (table : Table) (t' : Nat) :
    (db.withTable t table).table t' = if t = t' ∧ t < db.tables.length then table else db.table t' := by
  simp only [Db.table,withTable,List.getD_eq_getElem?_getD,List.getElem?_set]
  by_cases same : t = t'
  · subst same
    by_cases inside : t < db.tables.length
    · simp [inside]
    · simp [inside]
  · simp [same]

end Db

namespace Transaction

def frames (tx : Transaction) : List (Nat × Nat × List Row) :=
  tx.tables.map fun state => (state.t,state.readAt,state.rollback)

structure Ok (tx : Transaction) (db : Db) : Prop where
  distinct : (tx.tables.map (·.t)).Nodup
  inside : ∀ state ∈ tx.tables, state.t < db.tables.length
  readAt : ∀ state ∈ tx.tables, state.readAt ≤ (db.table state.t).store.seq
  id : tx.id ≤ db.nextTransactionID

variable {tx tx' : Transaction} {db db' : Db}

theorem Ok.moves (ok : tx.Ok db) (moves : db.Moves db') : tx.Ok db' where
  distinct := ok.distinct
  inside state member := Nat.lt_of_lt_of_le (ok.inside state member) moves.length
  readAt state member := (ok.readAt state member).trans (moves.contents state.t (ok.inside state member)).seq
  id := ok.id.trans moves.begins

theorem Ok.frames (ok : tx.Ok db) (id : tx'.id = tx.id) (same : tx'.frames = tx.frames) : tx'.Ok db := by
  have found : ∀ state ∈ tx'.tables, ∃ old ∈ tx.tables, old.t = state.t ∧ old.readAt = state.readAt := by
    intro state member
    have framed : (state.t,state.readAt,state.rollback) ∈ tx.frames := same ▸ List.mem_map_of_mem member
    obtain ⟨old,there,equal⟩ := List.mem_map.mp framed
    simp only [Prod.mk.injEq] at equal
    exact ⟨old,there,equal.1,equal.2.1⟩
  refine ⟨?_,?_,?_,id ▸ ok.id⟩
  · have addresses : tx'.tables.map (·.t) = tx.tables.map (·.t) := by
      simpa [Transaction.frames,Function.comp_def] using congrArg (List.map Prod.fst) same
    rw [addresses]
    exact ok.distinct
  · intro state member
    obtain ⟨old,there,address,-⟩ := found state member
    exact address ▸ ok.inside old there
  · intro state member
    obtain ⟨old,there,address,read⟩ := found state member
    rw [← address,← read]
    exact ok.readAt old there

end Transaction

namespace Executor

variable {e e' : Executor}

structure Ok (e : Executor) : Prop where
  db : e.db.Ok
  tx : ∀ tx, e.tx = some tx → tx.Ok e.db

/-- The transaction that is open afterwards was open before, with the same frames, or it is new. -/
def Evolves (e e' : Executor) : Prop :=
  ∀ tx', e'.tx = some tx' →
    (∃ tx, e.tx = some tx ∧ tx'.id = tx.id ∧ tx'.frames = tx.frames) ∨ e.db.nextTransactionID < tx'.id

structure Step (e e' : Executor) : Prop where
  ok : e'.Ok
  moves : e.db.Moves e'.db
  evolves : e.Evolves e'

def Steps (e e' : Executor) : Prop := e.Ok → e.Step e'

theorem steps : Frame Steps where
  refl e ok := ⟨ok,.refl _,fun tx' same => .inl ⟨tx',same,rfl,rfl⟩⟩
  trans first second ok := by
    obtain ⟨middle,moves,evolves⟩ := first ok
    obtain ⟨last,more,further⟩ := second middle
    refine ⟨last,moves.trans more,fun tx' same => ?_⟩
    rcases further tx' same with ⟨tx,there,id,frames⟩ | new
    · rcases evolves tx there with ⟨old,was,id',frames'⟩ | new
      · exact .inl ⟨old,was,id.trans id',frames.trans frames'⟩
      · exact .inr (id ▸ new)
    · exact .inr (Nat.lt_of_le_of_lt moves.begins new)

theorem Ok.step_db (ok : e.Ok) {db' : Db} (sound : db'.Ok) (moves : e.db.Moves db') : e.Step {e with db := db'} :=
  ⟨⟨sound,fun tx same => (ok.tx tx same).moves moves⟩,moves,fun tx' same => .inl ⟨tx',same,rfl,rfl⟩⟩

theorem onTable_exec {α : Type} (t : Nat) (x : TableM α) (e : Executor) :
    (onTable t x).exec e =
      ((x.exec (e.db.table t)).1,{e with db := e.db.withTable t (x.exec (e.db.table t)).2}) := rfl

theorem onTable_keeps {α : Type} (t : Nat) {x : TableM α} (keeps : Proc.Keeps Table.Steps x) :
    Proc.Keeps Steps (onTable t x) := by
  intro e ok
  rw [onTable_exec]
  have kept := keeps (e.db.table t)
  have length : (e.db.withTable t (x.exec (e.db.table t)).2).tables.length = e.db.tables.length := List.length_set
  refine ok.step_db ⟨?_,?_,ok.db.once⟩ ⟨length.ge,?_,?_,Nat.le_refl _⟩
  · intro t' inside
    rw [length] at inside
    rw [Db.table_withTable]
    split_ifs with changed
    · exact ((ok.db.sound t changed.2).steps kept).1
    · exact ok.db.sound t' inside
  · intro name t' found
    rw [length]
    exact ok.db.registered name t' found
  · intro t' _
    rw [Db.table_withTable]
    split_ifs with changed
    · rw [kept.1,changed.1]
    · rfl
  · intro t' inside
    rw [Db.table_withTable]
    split_ifs with changed
    · rw [← changed.1]
      exact ((ok.db.sound t changed.2).steps kept).2
    · exact .refl _

theorem changeState_frames {t : Nat} {f : TransactionTableState → TransactionTableState}
    (framed : ∀ state, (f state).t = state.t ∧ (f state).readAt = state.readAt ∧ (f state).rollback = state.rollback)
    (states : List TransactionTableState) :
    (changeState t f states).map (fun state => (state.t,state.readAt,state.rollback)) =
      states.map fun state => (state.t,state.readAt,state.rollback) := by
  induction states with
  | nil => rfl
  | cons state states ih =>
    obtain ⟨address,readAt,rollback⟩ := framed state
    unfold changeState
    split_ifs
    · rw [List.map_cons,List.map_cons,address,readAt,rollback]
    · rw [List.map_cons,List.map_cons,ih]

theorem onState_keeps {t : Nat} {f : TransactionTableState → TransactionTableState}
    (framed : ∀ state, (f state).t = state.t ∧ (f state).readAt = state.readAt ∧ (f state).rollback = state.rollback) :
    Proc.Keeps Steps (onState t f) := by
  refine Keeps.modify fun e ok => ?_
  have evolves : ∀ tx', e.tx.map (fun tx => {tx with tables := changeState t f tx.tables}) = some tx' →
      ∃ tx, e.tx = some tx ∧ tx'.id = tx.id ∧ tx'.frames = tx.frames := by
    intro tx' same
    obtain ⟨tx,there,rfl⟩ := Option.map_eq_some_iff.mp same
    exact ⟨tx,there,rfl,changeState_frames framed tx.tables⟩
  refine ⟨⟨ok.db,fun tx' same => ?_⟩,.refl _,fun tx' same => .inl (evolves tx' same)⟩
  obtain ⟨tx,there,id,frames⟩ := evolves tx' same
  exact (ok.tx tx there).frames id frames

theorem dataSteps : DataRule Steps where
  frame := steps
  put _ t row := onTable_keeps t (Table.insert_keeps _ row) _
  remove _ t key := onTable_keeps t (Table.delete_keeps key) _
  stage _ _ ref _ := onState_keeps fun state => by cases ref <;> exact ⟨rfl,rfl,rfl⟩
  stageDelete _ _ := onState_keeps fun _ => ⟨rfl,rfl,rfl⟩

theorem undoSteps : UndoRule Steps where
  frame := steps
  put _ t row := onTable_keeps t (Table.insert_keeps _ row) _
  clear t := onTable_keeps t (Table.deleteWhere_keeps _)

theorem releaseSnapshots_keeps (states : List TransactionTableState) :
    Proc.Keeps Steps (releaseSnapshots states) :=
  releaseSnapshots_frame steps (fun t => onTable_keeps t (Keeps.modify Table.releaseSnapshot_steps)) states

theorem close_keeps (e : Executor) : e.Steps {e with tx := none} :=
  fun ok => ⟨⟨ok.db,fun _ absurd => nomatch absurd⟩,.refl _,fun _ absurd => nomatch absurd⟩

theorem rollback_keeps : Proc.Keeps Steps rollback :=
  rollback_frame steps releaseSnapshots_keeps close_keeps undoSteps.rollbackTables

def committing (e : Executor) (tx : Transaction) : Executor :=
  ⟨{e.db with nextCommitSequence := e.db.nextCommitSequence + 1},some {tx with commit := e.db.nextCommitSequence + 1}⟩

-- The commit number is no part of a frame.
theorem committing_steps {tx : Transaction} (opened : e.tx = some tx) : e.Steps (e.committing tx) := by
  intro ok
  have moves : e.db.Moves {e.db with nextCommitSequence := e.db.nextCommitSequence + 1} :=
    ⟨Nat.le_refl _,fun _ _ => rfl,fun _ _ => .refl _,Nat.le_refl _⟩
  refine ⟨⟨⟨ok.db.sound,ok.db.registered,ok.db.once⟩,?_⟩,moves,?_⟩
  · intro tx' same
    obtain rfl := Option.some.inj same
    exact ((ok.tx tx opened).moves moves).frames rfl rfl
  · intro tx' same
    obtain rfl := Option.some.inj same
    exact .inl ⟨tx,opened,rfl,rfl⟩

theorem commit_keeps (ord : Order) : Proc.Keeps Steps (commit ord) := by
  have tables := commitTables_frame steps fun t _ _ _ => onTable_keeps t (Table.applyRowsBatch_keeps _ _ _)
  exact commit_frame steps releaseSnapshots_keeps close_keeps committing_steps tables ord

end Executor

/-- Tables that differ in the number of their snapshots at most. -/
def Table.Like (t t' : Table) : Prop := ∃ n, t' = {t with store := {t.store with activeSnapshots := n}}

theorem Table.Like.refl (t : Table) : t.Like t := ⟨t.store.activeSnapshots,rfl⟩

theorem Table.Like.trans {t t' t'' : Table} (first : t.Like t') (second : t'.Like t'') : t.Like t'' := by
  obtain ⟨n,rfl⟩ := first
  obtain ⟨m,rfl⟩ := second
  exact ⟨m,rfl⟩

namespace Db

variable {db db' : Db}

structure Like (db db' : Db) : Prop where
  length : db'.tables.length = db.tables.length
  tables : ∀ t, (db.table t).Like (db'.table t)
  registry : db'.registry = db.registry
  begins : db'.nextTransactionID = db.nextTransactionID

theorem Like.refl (db : Db) : db.Like db := ⟨rfl,fun _ => .refl _,rfl,rfl⟩

theorem Like.trans {db'' : Db} (first : db.Like db') (second : db'.Like db'') : db.Like db'' :=
  ⟨second.length.trans first.length,fun t => (first.tables t).trans (second.tables t),
    second.registry.trans first.registry,second.begins.trans first.begins⟩

theorem Like.moves (like : db.Like db') : db.Moves db' := by
  refine ⟨like.length.ge,fun t _ => ?_,fun t _ => ?_,like.begins.ge⟩
  · obtain ⟨n,same⟩ := like.tables t
    rw [same]
  · obtain ⟨n,same⟩ := like.tables t
    rw [same]
    exact ⟨Nat.le_refl _,fun _ => .inr ⟨rfl,rfl⟩⟩

theorem Ok.like (ok : db.Ok) (like : db.Like db') : db'.Ok := by
  refine ⟨fun t inside => ?_,fun name t found => ?_,fun name other t found again => ?_⟩
  · obtain ⟨n,same⟩ := like.tables t
    rw [same]
    have sound := ok.sound t (like.length ▸ inside)
    exact ⟨sound.valid,sound.columns,(sound.store.leases n).1⟩
  · rw [like.length]
    exact ok.registered name t (like.registry ▸ found)
  · rw [like.registry] at found again
    exact ok.once name other t found again

theorem like_withTable {t : Nat} {table : Table} (like : (db.table t).Like table) : db.Like (db.withTable t table) := by
  refine ⟨List.length_set,fun t' => ?_,rfl,rfl⟩
  rw [table_withTable]
  split_ifs with changed
  · exact changed.1 ▸ like
  · exact .refl _

end Db

namespace Executor

variable {e e' : Executor}

theorem releaseSnapshots_outcome (states : List TransactionTableState) (e : Executor) :
    ∃ e', (releaseSnapshots states).exec e = (.ok (),e') ∧ e.db.Like e'.db ∧ e'.tx = e.tx := by
  induction states generalizing e with
  | nil => exact ⟨e,rfl,.refl _,rfl⟩
  | cons state states ih =>
    have released : (onTable state.t (modify Table.releaseSnapshot)).exec e =
        (.ok ⟨⟩,{e with db := e.db.withTable state.t (e.db.table state.t).releaseSnapshot}) := rfl
    obtain ⟨e',done,like,kept⟩ := ih {e with db := e.db.withTable state.t (e.db.table state.t).releaseSnapshot}
    unfold releaseSnapshots
    rw [exec_bind_ok released]
    exact ⟨e',done,(Db.like_withTable ⟨_,rfl⟩).trans like,kept⟩

structure Begun (db : Db) (state : TransactionTableState) : Prop where
  readAt : state.readAt = (db.table state.t).store.seq
  rollback : (db.table state.t).scan = .ok state.rollback
  writes : state.writes = ∅
  cells : state.cells = []

theorem Begun.like {db db' : Db} {state : TransactionTableState} (begun : Begun db' state) (like : db.Like db') :
    Begun db state := by
  obtain ⟨n,same⟩ := like.tables state.t
  refine ⟨?_,?_,begun.writes,begun.cells⟩
  · rw [begun.readAt,same]
  · rw [← begun.rollback,same]
    rfl

theorem beginTables_outcome (registered : List (Bytes × Nat)) (e : Executor) :
    e.db.Like ((beginTables registered).exec e).2.db ∧ ((beginTables registered).exec e).2.tx = e.tx ∧
      ∀ states, ((beginTables registered).exec e).1 = .ok states →
        states.map (·.t) = registered.map Prod.snd ∧ ∀ state ∈ states, Begun e.db state := by
  induction registered generalizing e with
  | nil =>
    refine ⟨.refl _,rfl,fun states same => ?_⟩
    obtain rfl := Except.ok.inj same
    exact ⟨rfl,fun _ member => nomatch member⟩
  | cons entry registered ih =>
    obtain ⟨name,t⟩ := entry
    have like : e.db.Like (e.db.withTable t (e.db.table t).snapshot.2) := Db.like_withTable ⟨_,rfl⟩
    have first : (onTable t (fun table => ((.ok table.snapshot.1 : Except Error Nat),table.snapshot.2))).exec e =
        (.ok (e.db.table t).store.seq,{e with db := e.db.withTable t (e.db.table t).snapshot.2}) := rfl
    have scanned : ((e.db.withTable t (e.db.table t).snapshot.2).table t).scan = (e.db.table t).scan := by
      obtain ⟨n,same⟩ := like.tables t
      rw [same]
      rfl
    unfold beginTables
    rw [exec_bind_ok first,exec_bind_ok (exec_get _)]
    dsimp only
    rw [scanned,exec_bind,exec_of]
    -- A snapshot taken before a failed scan is never released.
    rcases rows : (e.db.table t).scan with err | rows
    · exact ⟨like,rfl,fun _ absurd => nomatch absurd⟩
    · obtain ⟨further,kept,states⟩ := ih {e with db := e.db.withTable t (e.db.table t).snapshot.2}
      dsimp only
      rw [exec_bind]
      generalize (beginTables registered).exec _ = result at further kept states ⊢
      rcases result with ⟨err | rest,after⟩
      · exact ⟨like.trans further,kept,fun _ absurd => nomatch absurd⟩
      · refine ⟨like.trans further,kept,fun all same => ?_⟩
        obtain rfl := Except.ok.inj same
        obtain ⟨addresses,begun⟩ := states rest rfl
        refine ⟨by rw [List.map_cons,List.map_cons,addresses],?_⟩
        intro state member
        rcases List.mem_cons.mp member with rfl | member
        · exact ⟨rfl,rows,rfl,rfl⟩
        · exact (begun state member).like like

def numbered (e : Executor) : Executor := {e with db := {e.db with nextTransactionID := e.db.nextTransactionID + 1}}

structure Begins (e e' : Executor) (tx : Transaction) : Prop where
  like : e.numbered.db.Like e'.db
  opened : e'.tx = some tx
  id : tx.id = e.db.nextTransactionID + 1
  addresses : (tx.tables.map (·.t)).Perm (e.db.registry.entries.map Prod.snd)
  begun : ∀ state ∈ tx.tables, Begun e.db state

theorem begin_outcome (ord : Order) (e : Executor) :
    (begin ord).exec e = (.error .transactionInProgress,e) ∨ e.tx = none ∧
      ((∃ err e', (begin ord).exec e = (.error err,e') ∧ e.numbered.db.Like e'.db ∧ e'.tx = none) ∨
        ∃ e' tx, (begin ord).exec e = (.ok .empty,e') ∧ Begins e e' tx) := by
  unfold begin
  rw [exec_bind_ok (exec_get e),exec_bind,exec_refuse]
  rcases closed : e.tx with _ | tx
  · refine .inr ⟨rfl,?_⟩
    obtain ⟨like,kept,begun⟩ := beginTables_outcome (ord.arrange e.db.registry.entries) e.numbered
    rw [if_neg (by simp)]
    dsimp only
    rw [exec_bind_ok (exec_modify _ e)]
    change (∃ err e', Proc.exec (beginTables _ >>= _) e.numbered = _ ∧ _) ∨
      ∃ e' tx, Proc.exec (beginTables _ >>= _) e.numbered = _ ∧ _
    rw [exec_bind]
    generalize (beginTables (ord.arrange e.db.registry.entries)).exec e.numbered = result at like kept begun ⊢
    rcases result with ⟨err | states,after⟩
    · exact .inl ⟨err,after,rfl,like,kept.trans closed⟩
    · obtain ⟨addresses,each⟩ := begun states rfl
      have begun : ∀ state ∈ states, Begun e.db state := fun state member =>
        ⟨(each state member).readAt,(each state member).rollback,(each state member).writes,(each state member).cells⟩
      refine .inr ⟨_,_,rfl,like,rfl,rfl,?_,begun⟩
      rw [addresses]
      exact (ord.arrange_perm _).map _
  · rw [if_pos (by simp)]
    exact .inl rfl

theorem numbered_steps (e : Executor) : e.Steps e.numbered := fun ok =>
  ok.step_db ⟨ok.db.sound,ok.db.registered,ok.db.once⟩
    ⟨Nat.le_refl _,fun _ _ => rfl,fun _ _ => .refl _,Nat.le_succ _⟩

theorem registry_values (once : ∀ name other t, e.db.registry.lookup name = some t → e.db.registry.lookup other = some t →
    name = other) : (e.db.registry.entries.map Prod.snd).Nodup := by
  rw [List.nodup_map_iff_inj_on e.db.registry.increasing.nodup]
  intro a first b second same
  have name := once a.1 b.1 a.2 ((SortedMap.mem_entries a).mp first)
    (same ▸ (SortedMap.mem_entries b).mp second)
  exact Prod.ext name same

theorem Begins.ok {tx : Transaction} (begins : Begins e e' tx) (ok : e.db.Ok) : tx.Ok e'.db := by
  have inside : ∀ state ∈ tx.tables, state.t < e.db.tables.length := by
    intro state member
    obtain ⟨entry,there,same⟩ := List.mem_map.mp (begins.addresses.mem_iff.mp (List.mem_map_of_mem member))
    exact same ▸ ok.registered entry.1 entry.2 ((SortedMap.mem_entries entry).mp there)
  refine ⟨begins.addresses.nodup_iff.mpr (registry_values ok.once),fun state member => ?_,fun state member => ?_,?_⟩
  · rw [begins.like.length]
    exact inside state member
  · obtain ⟨n,same⟩ := begins.like.tables state.t
    rw [same,(begins.begun state member).readAt]
    exact Nat.le_refl _
  · rw [begins.like.begins,begins.id]
    exact Nat.le_refl _

theorem begin_keeps (ord : Order) : Proc.Keeps Steps (begin ord) := by
  intro e ok
  have numbers := (numbered_steps e ok).ok.db
  have moves := (numbered_steps e ok).moves
  rcases begin_outcome ord e with same | ⟨closed,⟨err,e',same,like,still⟩ | ⟨e',tx,same,begins⟩⟩
  · rw [same]
    exact steps.refl e ok
  · rw [same]
    refine ⟨⟨numbers.like like,fun tx found => ?_⟩,moves.trans like.moves,fun tx found => ?_⟩
    · rw [still] at found
      cases found
    · rw [still] at found
      cases found
  · rw [same]
    refine ⟨⟨numbers.like begins.like,fun tx' found => ?_⟩,moves.trans begins.like.moves,fun tx' found => .inr ?_⟩
    · obtain rfl := Option.some.inj (begins.opened.symm.trans found)
      exact begins.ok ok.db
    · obtain rfl := Option.some.inj (begins.opened.symm.trans found)
      rw [begins.id]
      exact Nat.lt_succ_self _

theorem created_sound (P : Bytes → Prop) : Store.created.Sound P :=
  ⟨⟨[],Store.created_ok⟩,⟨fun _ => List.Pairwise.nil,fun _ _ member => nomatch member⟩,fun _ member => nomatch member⟩

theorem indexRows_same (s : Schema) (rows : List Row) (t : Table) :
    (rows.foldl (fun t row => t.indexRow (s.keyOf row) row) t).store = t.store ∧
      (rows.foldl (fun t row => t.indexRow (s.keyOf row) row) t).schema = t.schema := by
  induction rows generalizing t with
  | nil => exact ⟨rfl,rfl⟩
  | cons row rows ih => simpa using ih (t.indexRow (s.keyOf row) row)

theorem new_same {store : Store} {schema : Schema} {t : Table} (made : Table.new store schema = .ok t) :
    schema.validate = .ok () ∧ schema.columns ≠ [] ∧ t.store = store ∧ t.schema = schema := by
  unfold Table.new at made
  split at made
  · cases made
  · rename_i valid
    split_ifs at made with some
    split at made
    · cases made
    · obtain rfl := Except.ok.inj made
      exact ⟨valid,some,indexRows_same schema _ (Table.unindexed store schema)⟩

theorem new_sound {store : Store} {schema : Schema} {t : Table} (made : Table.new store schema = .ok t)
    (sound : store.Sound schema.Encodes) : t.Sound := by
  obtain ⟨valid,some,stored,same⟩ := new_same made
  refine ⟨?_,?_,?_⟩
  · rw [same]
    exact valid
  · rw [same]
    exact some
  · rw [stored,same]
    exact sound

theorem create_keeps (q : CreateTable) : Proc.Keeps Steps (create q) := by
  apply create_frame steps
  intro e name schema table made ok
  have sound : table.Sound := new_sound made (created_sound _)
  have length : (e.db.tables ++ [table]).length = e.db.tables.length + 1 := by simp
  -- The table is new at the end; no name is registered for its address yet.
  have old : ∀ t < e.db.tables.length, (e.db.tables ++ [table]).getD t default = e.db.table t := fun t inside => by
    simp [Db.table,List.getD_eq_getElem?_getD,List.getElem?_append_left inside]
  refine ok.step_db ⟨fun t inside => ?_,fun name t found => ?_,fun name other t found again => ?_⟩
    ⟨by rw [length]; exact Nat.le_succ _,fun t inside => congrArg Table.schema (old t inside),fun t inside => ?_,
      Nat.le_refl _⟩
  · change ((e.db.tables ++ [table]).getD t default).Sound
    rw [length] at inside
    rcases Nat.lt_or_ge t e.db.tables.length with before | after
    · rw [old t before]
      exact ok.db.sound t before
    · obtain rfl : t = e.db.tables.length := by omega
      simpa using sound
  · rw [SortedMap.lookup_insert] at found
    rw [length]
    split_ifs at found
    · obtain rfl := Option.some.inj found
      exact Nat.lt_succ_self _
    · exact Nat.lt_succ_of_lt (ok.db.registered name t found)
  · rw [SortedMap.lookup_insert] at found again
    split_ifs at found again with first second second
    · rw [first,second]
    · obtain rfl := Option.some.inj found
      exact absurd (ok.db.registered other _ again) (Nat.lt_irrefl _)
    · obtain rfl := Option.some.inj again
      exact absurd (ok.db.registered name _ found) (Nat.lt_irrefl _)
    · exact ok.db.once name other t found again
  · change (e.db.table t).store.contents.Moves ((e.db.tables ++ [table]).getD t default).store.contents
    rw [old t inside]
    exact .refl _

theorem executeStatement_keeps (ord : Order) (s : Statement) : Proc.Keeps Steps (executeStatement ord s) := by
  cases s with
  | begin => exact begin_keeps ord
  | commit => exact commit_keeps ord
  | rollback => exact rollback_keeps
  | _ => exact dataSteps.executeStatement ord Bool.false_ne_true fun q _ => create_keeps q

theorem execute_keeps (ord : Order) (statements : List Statement) : Proc.Keeps Steps (execute ord statements) :=
  undoSteps.execute (P := fun _ => True) (fun ord st _ => executeStatement_keeps ord st) ord fun _ _ => trivial

end Executor
end GoDb
