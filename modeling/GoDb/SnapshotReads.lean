import GoDb.FirstCommitter
import GoDb.OverlayMeaning
import GoDb.StoreSnapshot

/-! What a transaction reads: the rows its snapshots had at the BEGIN, with its own writes
over them. What it writes itself stays with it until it commits. -/
namespace GoDb
open Foundation Outcome

variable {key : Bytes} {ord : Order}

namespace Table

variable {t t' : Table} {snapshot : Nat}

def rowAt (t : Table) (snapshot : Nat) (key : Bytes) : List Row := (t.getAt snapshot key).toOption.join.toList

/-- The rows `ScanAt` returns; there are none next to an error. -/
def rowsAt (t : Table) (ord : Order) (snapshot : Nat) : List Row := (t.scanAt ord snapshot).toOption.getD []

theorem mem_rowAt {row : Row} : row ∈ t.rowAt snapshot key ↔ t.getAt snapshot key = .ok (some row) := by
  unfold rowAt
  rcases t.getAt snapshot key with _ | _ | found <;> simp [Except.toOption,eq_comm]

private theorem getAllAt_cons (t : Table) (snapshot : Nat) (key : Bytes) (keys : List Bytes) :
    (t.getAllAt snapshot (key::keys)).toOption = (t.getAt snapshot key).toOption.bind fun found =>
      (t.getAllAt snapshot keys).toOption.map (found.toList ++ ·) := by
  rw [getAllAt]
  cases t.getAt snapshot key with
  | error err => rfl
  | ok found => cases t.getAllAt snapshot keys <;> rfl

theorem getAllAt_toOption (t : Table) (snapshot : Nat) (keys : List Bytes) :
    (t.getAllAt snapshot keys).toOption =
      if ∀ key ∈ keys, (t.getAt snapshot key).toOption.isSome then some (keys.flatMap (t.rowAt snapshot)) else none := by
  induction keys with
  | nil => rfl
  | cons key keys ih =>
    rw [getAllAt_cons,ih]
    simp only [List.forall_mem_cons,List.flatMap_cons,rowAt]
    cases (t.getAt snapshot key).toOption with
    | none => simp
    | some found =>
      simp only [Option.bind_some,Option.isSome_some,true_and]
      split_ifs <;> rfl

theorem rowsAt_eq (t : Table) (ord : Order) (snapshot : Nat) :
    t.rowsAt ord snapshot =
      if ∀ key ∈ t.store.keysAt ord snapshot, (t.getAt snapshot key).toOption.isSome then
        (t.store.keysAt ord snapshot).flatMap (t.rowAt snapshot) else [] := by
  rw [rowsAt,scanAt,getAllAt_toOption]
  split_ifs <;> rfl

theorem rowsAt_perm (schema : t'.schema = t.schema) (moves : t.store.contents.Moves t'.store.contents)
    (past : snapshot ≤ t.store.seq) (ord ord' : Order) : (t'.rowsAt ord snapshot).Perm (t.rowsAt ord' snapshot) := by
  have stored := Store.getAt_moves moves past
  have same : t'.getAt snapshot = t.getAt snapshot := by
    funext key
    rw [getAt,getAt,stored,schema]
  have rows : t'.rowAt snapshot = t.rowAt snapshot := by
    funext key
    rw [rowAt,rowAt,same]
  have keys : (t'.store.keysAt ord snapshot).Perm (t.store.keysAt ord' snapshot) := by
    refine (List.perm_ext_iff_of_nodup (t'.store.keysAt_nodup ord snapshot) (t.store.keysAt_nodup ord' snapshot)).mpr ?_
    intro key
    rw [Store.mem_keysAt,Store.mem_keysAt,stored]
  rw [rowsAt_eq,rowsAt_eq,same,rows]
  simp only [keys.mem_iff]
  split_ifs
  · exact keys.flatMap_right _
  · exact .refl _

/-- Every row that a snapshot has is stored under its printed key. -/
def PrintedAt (t : Table) (snapshot : Nat) : Prop :=
  ∀ key row, t.getAt snapshot key = .ok (some row) → t.schema.keyOf row = key

theorem printedAt_of_versions (checked : ∀ e ∈ t.store.versions.entries, ∀ row ∈ t.rowAt snapshot e.1,
    t.schema.keyOf row = e.1) : t.PrintedAt snapshot := by
  intro key row found
  have seen : key ∈ t.store.keysAt .stored snapshot := by
    rw [Store.mem_keysAt]
    rw [getAt] at found
    cases stored : t.store.getAt snapshot key with
    | none => simp [stored] at found
    | some value => rfl
  have inside := List.mem_of_mem_filter ((t.store.keysAt_perm .stored snapshot).mem_iff.mp seen)
  obtain ⟨e,member,rfl⟩ := List.mem_map.mp inside
  exact checked e member row (mem_rowAt.mpr found)

theorem PrintedAt.keys (printed : t.PrintedAt snapshot) (ord : Order) :
    ((t.rowsAt ord snapshot).map t.schema.keyOf).Nodup := by
  have one (key : Bytes) : ((t.rowAt snapshot key).map t.schema.keyOf).Sublist [key] := by
    cases seen : (t.getAt snapshot key).toOption.join with
    | none => simp [rowAt,seen]
    | some row =>
      have same := printed key row (mem_rowAt.mp (by simp [rowAt,seen]))
      simp [rowAt,seen,same]
  have sub (keys : List Bytes) : ((keys.flatMap (t.rowAt snapshot)).map t.schema.keyOf).Sublist keys := by
    induction keys with
    | nil => exact .slnil
    | cons key keys ih =>
      rw [List.flatMap_cons,List.map_append]
      exact (one key).append ih
  rw [rowsAt_eq]
  split_ifs
  · exact (t.store.keysAt_nodup ord snapshot).sublist (sub _)
  · exact List.nodup_nil

end Table

namespace TransactionTableState

/-- The rows of a snapshot under the writes: the rows that are written, and those whose keys are not. -/
def overlaid (state : TransactionTableState) (schema : Schema) (read : List Row) : List Row :=
  read.filter (fun row => (state.writes.lookup (schema.keyOf row)).isNone) ++ state.batch.entries.filterMap Prod.snd

end TransactionTableState

namespace Executor

variable {e : Executor} {t : Nat} {state : TransactionTableState}

theorem overlays_keys (state : TransactionTableState) (ord : Order) :
    ((state.overlays ord).map Prod.fst).Nodup := by
  rw [TransactionTableState.overlays,List.map_map]
  exact ((ord.arrange_perm _).map Prod.fst).nodup_iff.mpr (state.writes.increasing.keys.imp ne_of_lt)

theorem mem_overlays {ref : RowRef} :
    (key,some ref) ∈ state.overlays ord ↔ ∃ c, ref = .staged c ∧ state.writes.lookup key = some (.row c) := by
  simp only [TransactionTableState.overlays,List.mem_map,Order.mem_arrange,Prod.exists,Prod.mk.injEq,SortedMap.mem_entries]
  constructor
  · rintro ⟨_,_ | _,found,rfl,same⟩
    · exact ⟨_,(Option.some.inj same).symm,found⟩
    · cases same
  · rintro ⟨c,rfl,found⟩
    exact ⟨key,.row c,found,rfl,rfl⟩

theorem mem_overlays_keys : key ∈ (state.overlays ord).map Prod.fst ↔ (state.writes.lookup key).isSome := by
  simp [TransactionTableState.overlays,SortedMap.mem_entries,Option.isSome_iff_exists]

theorem rowRefs_pairs (found : e.state t = some state) (ord : Order)
    (distinct : (((e.db.table t).rowsAt (ord.at 0) state.readAt).map (e.db.table t).schema.keyOf).Nodup) :
    ∃ pairs : List (Bytes × RowRef), e.rowRefs ord t = .ok (pairs.map Prod.snd) ∧ (pairs.map Prod.fst).Nodup ∧
      ∀ key ref, (key,ref) ∈ pairs ↔ (∃ c, ref = .staged c ∧ state.writes.lookup key = some (.row c)) ∨
        state.writes.lookup key = none ∧ ∃ row ∈ (e.db.table t).rowsAt (ord.at 0) state.readAt,
          ref = .read row ∧ (e.db.table t).schema.keyOf row = key := by
  have keys : ((((e.db.table t).rowsAt (ord.at 0) state.readAt).map RowRef.read).map fun ref =>
      (e.db.table t).schema.keyOf (state.deref ref)).Nodup := by
    rw [List.map_map]
    exact distinct
  obtain ⟨pairs,rows,once,members⟩ := Overlay.start_writeAll _ keys (overlays_keys state (ord.at 1))
  refine ⟨pairs,?_,once,fun key ref => ?_⟩
  · rw [rowRefs,found,← rows]
    rfl
  · rw [members,mem_overlays,mem_overlays_keys,Option.not_isSome_iff_eq_none,List.mem_map]
    refine or_congr_right (and_congr_right fun _ => ⟨?_,?_⟩)
    · rintro ⟨⟨row,read,rfl⟩,key⟩
      exact ⟨row,read,rfl,key⟩
    · rintro ⟨row,read,rfl,key⟩
      exact ⟨⟨row,read,rfl⟩,key⟩

theorem deref_state (found : e.state t = some state) : e.deref t = state.deref := by
  funext ref
  simp only [deref,found]

private def stagedRefs (state : TransactionTableState) : List (Bytes × RowRef) :=
  state.writes.entries.filterMap fun
    | (key,.row c) => some (key,.staged c)
    | (_,.deleted) => none

private theorem mem_stagedRefs {ref : RowRef} :
    (key,ref) ∈ stagedRefs state ↔ ∃ c, ref = .staged c ∧ state.writes.lookup key = some (.row c) := by
  simp only [stagedRefs,List.mem_filterMap,Prod.exists,SortedMap.mem_entries]
  constructor
  · rintro ⟨_,_ | _,found,same⟩
    · obtain ⟨rfl,rfl⟩ := Prod.mk.inj (Option.some.inj same)
      exact ⟨_,rfl,found⟩
    · cases same
  · rintro ⟨c,rfl,found⟩
    exact ⟨key,.row c,found,rfl⟩

private theorem nodup_stagedRefs : (stagedRefs state).Nodup := by
  refine List.Nodup.filterMap ?_ state.writes.increasing.nodup
  rintro ⟨key,_ | _⟩ ⟨key',_ | _⟩ pair first second
  · cases first
    cases second
    rfl
  · cases second
  · cases first
  · cases first

private theorem deref_stagedRefs (state : TransactionTableState) :
    (stagedRefs state).map (fun pair => state.deref pair.2) = state.batch.entries.filterMap Prod.snd := by
  change _ = (state.writes.entries.map _).filterMap Prod.snd
  rw [List.filterMap_map,stagedRefs,List.map_filterMap]
  refine List.filterMap_congr fun e _ => ?_
  rcases e with ⟨key,_ | _⟩ <;> rfl

theorem rows_over (found : e.state t = some state) (ord : Order)
    (distinct : (((e.db.table t).rowsAt (ord.at 0) state.readAt).map (e.db.table t).schema.keyOf).Nodup) :
    ∃ rows, e.rows ord t = .ok rows ∧
      rows.Perm (state.overlaid (e.db.table t).schema ((e.db.table t).rowsAt (ord.at 0) state.readAt)) := by
  obtain ⟨pairs,refs,once,members⟩ := rowRefs_pairs found ord distinct
  generalize (e.db.table t).rowsAt (ord.at 0) state.readAt = read at distinct members ⊢
  generalize (e.db.table t).schema = schema at distinct members ⊢
  let kept := (read.filter fun row => (state.writes.lookup (schema.keyOf row)).isNone).map fun row =>
    (schema.keyOf row,RowRef.read row)
  have keptKeys : kept.Nodup := by
    refine List.Nodup.of_map Prod.fst ?_
    rw [List.map_map]
    exact distinct.sublist (List.filter_sublist.map _)
  -- The overlay lists the same references, each once, in an order of its own.
  have perm : pairs.Perm (kept ++ stagedRefs state) := by
    refine (List.perm_ext_iff_of_nodup once.of_map (keptKeys.append nodup_stagedRefs ?_)).mpr ?_
    · rintro ⟨key,ref⟩ first second
      obtain ⟨c,rfl,-⟩ := mem_stagedRefs.mp second
      simp [kept] at first
    · rintro ⟨key,ref⟩
      rw [members,List.mem_append,mem_stagedRefs,or_comm]
      refine or_congr_left ?_
      simp only [kept,List.mem_map,List.mem_filter,Option.isNone_iff_eq_none,Prod.mk.injEq]
      constructor
      · rintro ⟨unwritten,row,member,rfl,rfl⟩
        exact ⟨row,⟨member,unwritten⟩,rfl,rfl⟩
      · rintro ⟨row,⟨member,unwritten⟩,rfl,rfl⟩
        exact ⟨unwritten,row,member,rfl,rfl⟩
  refine ⟨_,by rw [rows,refs],?_⟩
  rw [deref_state found,List.map_map,TransactionTableState.overlaid,← deref_stagedRefs]
  refine (perm.map _).trans (.of_eq ?_)
  rw [List.map_append]
  simp [kept,Function.comp_def,TransactionTableState.deref]

end Executor

namespace Executor

/-- In a transaction nothing of what is shared changes. -/
def Private (e e' : Executor) : Prop := e.tx.isSome → e'.db = e.db ∧ e'.tx.isSome

theorem privately : Frame Private where
  refl _ inside := ⟨rfl,inside⟩
  trans first second inside := by
    obtain ⟨db,still⟩ := first inside
    obtain ⟨db',still'⟩ := second still
    exact ⟨db'.trans db,still'⟩

theorem onState_private (t : Nat) (f : TransactionTableState → TransactionTableState) :
    Proc.Keeps Private (onState t f) := by
  refine Keeps.modify fun e inside => ⟨rfl,?_⟩
  rw [Option.isSome_map]
  exact inside

theorem outside_eq {e : Executor} (inside : e.tx.isSome) (x : ExecutorM Unit) : outside e x = pure () := by
  obtain ⟨tx,opened⟩ := Option.isSome_iff_exists.mp inside
  rw [outside,opened]
  rfl

theorem dataPrivate : DataRule Private where
  frame := privately
  put closed _ _ inside := absurd inside (by rw [closed]; exact Bool.false_ne_true)
  remove closed _ _ inside := absurd inside (by rw [closed]; exact Bool.false_ne_true)
  stage _ _ _ _ := onState_private _ _
  stageDelete _ _ := onState_private _ _

theorem executeStatement_private (ord : Order) (st : Statement) (data : st.isData) :
    Proc.Keeps Private (executeStatement ord st) := by
  apply dataPrivate.executeStatement
  · exact st.not_isControl data
  · intro q is
    rw [is] at data
    cases data

theorem execute_private (ord : Order) {statements : List Statement} (data : ∀ st ∈ statements, st.isData) :
    Proc.Keeps Private (execute ord statements) := by
  rcases statements with _ | ⟨first,_ | ⟨second,rest⟩⟩
  · exact Keeps.throw privately _
  · exact executeStatement_private ord first (data first List.mem_cons_self)
  · unfold execute
    refine Keeps.get_bind fun e inside => ?_
    refine Keeps.ite (R := Private) (fun _ => ?_) (fun no => absurd ?_ no) e inside
    · exact executeEach_frame privately executeStatement_private ord (forall_zipIdx.mpr data) _
    · rw [inside,Bool.true_or]

end Executor

namespace Server

variable {s : Server} {client : Nat}

theorem handle_private {statements : List Statement} (data : ∀ st ∈ statements, st.isData)
    (opened : (s.txs client).isSome) {other : Nat} (apart : other ≠ client) :
    (handle ⟨client,ord,.execute statements⟩ s).2.executor other = s.executor other := by
  have same := (Executor.execute_private ord data (s.executor client) opened).1
  change (s.withExecutor client ((Executor.execute ord statements).exec (s.executor client)).2).executor other = _
  rw [executor,withExecutor_tx,if_neg apart,executor]
  exact congrArg (Executor.mk · _) same

theorem state_of_mem (ok : s.Ok) {tx : Transaction} (opened : s.txs client = some tx) {state : TransactionTableState}
    (member : state ∈ tx.tables) : (s.executor client).state state.t = some state := by
  have found := (Keyed.find_eq_some TransactionTableState.t (ok.txs client tx opened).distinct).mpr ⟨member,rfl⟩
  rw [Executor.state,show (s.executor client).tx = some tx from opened]
  exact found

/-- An open transaction reads what `ScanAt` had for it at its BEGIN, under its own writes; and other
clients do not see what it writes. -/
theorem snapshot_reads (ok : s.Ok) {ord : Order} {began tx : Transaction}
    (begun : (handle (.one client ord .begin) s).1 = .ok .empty)
    (opened : (handle (.one client ord .begin) s).2.txs client = some began) (middle : List Request)
    (still : ((handle (.one client ord .begin) s).2.after middle).txs client = some tx) (same : tx.id = began.id) :
    (∀ state ∈ tx.tables, ((handle (.one client ord .begin) s).2.db.table state.t).PrintedAt state.readAt →
      ∀ now then' : Order, ∃ rows,
        (((handle (.one client ord .begin) s).2.after middle).executor client).rows now state.t = .ok rows ∧
        rows.Perm (state.overlaid ((handle (.one client ord .begin) s).2.db.table state.t).schema
          (((handle (.one client ord .begin) s).2.db.table state.t).rowsAt then' state.readAt))) ∧
      ∀ ord' statements, (∀ st ∈ statements, Statement.isData st) → ∀ other, other ≠ client →
        (handle ⟨client,ord',.execute statements⟩ ((handle (.one client ord .begin) s).2.after middle)).2.executor other =
          ((handle (.one client ord .begin) s).2.after middle).executor other := by
  obtain ⟨tx',begins⟩ := handle_begin begun
  have start := handle_steps (.one client ord .begin) s ok
  generalize (handle (.one client ord .begin) s).2 = s₁ at *
  obtain rfl := Option.some.inj (opened.symm.trans begins.opened)
  have finish := after_steps s₁ middle start.ok
  refine ⟨fun state member printed now then' => ?_,fun ord' statements data other apart => ?_⟩
  · have frames := still_open start.ok opened still same
    obtain ⟨readAt,-⟩ := begins.frame frames member
    have inside := ((start.ok.txs client _ opened).frames same frames).inside state member
    have schema := finish.moves.schema state.t inside
    have perm (ord : Order) := Table.rowsAt_perm schema (finish.moves.contents state.t inside) readAt.le ord then'
    have distinct := ((perm (now.at 0)).map (s₁.db.table state.t).schema.keyOf).nodup_iff.mpr (printed.keys then')
    rw [← schema] at distinct ⊢
    obtain ⟨rows,read,same⟩ := Executor.rows_over (state_of_mem finish.ok still member) now distinct
    exact ⟨rows,read,same.trans (((perm (now.at 0)).filter _).append_right _)⟩
  · exact handle_private data (Option.isSome_iff_exists.mpr ⟨tx,still⟩) apart

def oneRow : Server := Sample.server [(1,Sample.create "u" .int),(1,Sample.insert "u" 3 (.int 9))]

theorem snapshot_reads_beside :
    ∃ s₁ tx state rows, s₁ = (handle (.one 1 .stored .begin) oneRow).2 ∧
      (s₁.after beside).txs 1 = some tx ∧ state ∈ tx.tables ∧ ((s₁.after beside).executor 1).rows .stored state.t = .ok rows ∧
      rows.Perm (state.overlaid (s₁.db.table state.t).schema ((s₁.db.table state.t).rowsAt .stored state.readAt)) := by
  have begun : (handle (.one 1 .stored .begin) oneRow).1 = .ok .empty := by decide +kernel
  have ids : (((handle (.one 1 .stored .begin) oneRow).2.after beside).txs 1).map Transaction.id = some 1 ∧
      ((handle (.one 1 .stored .begin) oneRow).2.txs 1).map Transaction.id = some 1 := by decide +kernel
  have printed : (((handle (.one 1 .stored .begin) oneRow).2.after beside).txs 1).any (fun tx => tx.tables.any fun state =>
      ∀ e ∈ ((handle (.one 1 .stored .begin) oneRow).2.db.table state.t).store.versions.entries,
        ∀ row ∈ ((handle (.one 1 .stored .begin) oneRow).2.db.table state.t).rowAt state.readAt e.1,
          ((handle (.one 1 .stored .begin) oneRow).2.db.table state.t).schema.keyOf row = e.1) = true := by
    decide +kernel
  obtain ⟨tx,still,id⟩ := Option.map_eq_some_iff.mp ids.1
  obtain ⟨began,opened,id'⟩ := Option.map_eq_some_iff.mp ids.2
  rw [still] at printed
  obtain ⟨state,member,checked⟩ := List.any_eq_true.mp printed
  obtain ⟨rows,read,same⟩ := (snapshot_reads (Sample.server_ok _) begun opened beside still (id.trans id'.symm)).1 state
    member (Table.printedAt_of_versions (of_decide_eq_true checked)) .stored .stored
  exact ⟨_,tx,state,rows,rfl,still,member,read,same⟩

def dated (date : String) (a : Int64) : Statement :=
  .insert ⟨ascii "u",[ascii "id",ascii "a"],[.string (ascii date),.int a]⟩

/-- Two rows whose timestamps are 2^64 nanoseconds apart are stored under two keys but read back with one. -/
def wrapped : List (Nat × Statement) :=
  [(1,.createTable ⟨ascii "u",[⟨ascii "id",.timestamp⟩,⟨ascii "a",.int⟩],∅⟩),(1,dated "2000-01-01T00:00:00Z" 1),
    (1,dated "2584-07-20T23:34:33.709551616Z" 2),(1,.begin),(1,dated "2000-01-01T00:00:00Z" 3)]

/-- The transaction has written the key of the first row, and still reads that row. -/
theorem overwritten_row_read :
    ∃ tx state rows row, (Sample.server wrapped).txs 1 = some tx ∧ state ∈ tx.tables ∧
      (state.writes.lookup (ascii "2000-01-01 00:00:00 +0000 UTC")).isSome ∧
      ((Sample.server wrapped).db.table state.t).getAt state.readAt (ascii "2000-01-01 00:00:00 +0000 UTC") =
        .ok (some row) ∧
      ((Sample.server wrapped).executor 1).rows .stored state.t = .ok rows ∧ row ∈ rows ∧
      row ∉ state.batch.entries.filterMap Prod.snd ∧
      ¬rows.Perm (state.overlaid ((Sample.server wrapped).db.table state.t).schema
        (((Sample.server wrapped).db.table state.t).rowsAt .stored state.readAt)) := by
  have run : ((Sample.server wrapped).txs 1).any (fun tx => tx.tables.any fun state =>
      (state.writes.lookup (ascii "2000-01-01 00:00:00 +0000 UTC")).isSome &&
      (((Sample.server wrapped).db.table state.t).getAt state.readAt
          (ascii "2000-01-01 00:00:00 +0000 UTC")).toOption.join.any fun row =>
        (((Sample.server wrapped).executor 1).rows .stored state.t).toOption.any fun rows =>
          row ∈ rows ∧ row ∉ state.batch.entries.filterMap Prod.snd ∧
            rows.length ≠ (state.overlaid ((Sample.server wrapped).db.table state.t).schema
              (((Sample.server wrapped).db.table state.t).rowsAt .stored state.readAt)).length) = true := by
    decide +kernel
  obtain ⟨tx,opened,run⟩ := (Option.any_eq_true _ _).mp run
  obtain ⟨state,member,run⟩ := List.any_eq_true.mp run
  obtain ⟨written,run⟩ := (Bool.and_eq_true _ _).mp run
  obtain ⟨row,found,run⟩ := (Option.any_eq_true _ _).mp run
  obtain ⟨rows,read,run⟩ := (Option.any_eq_true _ _).mp run
  obtain ⟨seen,unwritten,length⟩ := of_decide_eq_true run
  refine ⟨tx,state,rows,row,opened,member,written,?_,?_,seen,unwritten,fun perm => length perm.length_eq⟩
  · exact eq_ok_of_toOption (Option.join_eq_some_iff.mp found)
  · exact eq_ok_of_toOption read

end Server
end GoDb
