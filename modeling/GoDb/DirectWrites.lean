import GoDb.ExecutorInvariant
import GoDb.TableMeaning

/-! Statements outside of a transaction write their tables directly: UPDATE is `Update` of the
table, and DELETE is `DeleteWhere`. So they keep what `Insert` and `Delete` keep. -/
namespace GoDb
open Foundation Outcome

variable {name : Bytes} {out : Row} {ord : Order} {rows : List Row}

namespace Schema

variable {s : Schema}

theorem updateSet_lookup {given : List (Bytes × Value)} (absent : name ∉ given.map Prod.fst) {set : Row}
    (made : s.updateSet given set = .ok out) : out.lookup name = set.lookup name := by
  induction given generalizing set with
  | nil => rw [← Except.ok.inj made]
  | cons e given ih =>
    obtain ⟨n,v⟩ := e
    obtain ⟨other,absent⟩ := not_or.mp (mt List.mem_cons.mpr absent)
    unfold updateSet at made
    split at made
    · cases made
    · split at made
      · cases made
      · rw [ih absent made,SortedMap.lookup_insert,if_neg other]

theorem updateSet_keyless {given : GoMap Value} (absent : given.lookup name = none)
    (made : s.updateSet (ord.arrange given.entries) ∅ = .ok out) : out.lookup name = none := by
  refine updateSet_lookup ?_ made
  intro member
  obtain ⟨pair,inside,same⟩ := List.mem_map.mp member
  rw [Order.mem_arrange,SortedMap.mem_entries,same,absent] at inside
  cases inside

theorem updateSet_given {given : List (Bytes × Value)} {v : Value} (distinct : (given.map Prod.fst).Nodup)
    (member : (name,v) ∈ given) {set : Row} (made : s.updateSet given set = .ok out) :
    ∃ c w, s.columnNamed name = some c ∧ coerceValue v c.type = .ok w ∧ out.lookup name = some w := by
  induction given generalizing set with
  | nil => cases member
  | cons e given ih =>
    obtain ⟨n,u⟩ := e
    obtain ⟨fresh,rest⟩ := List.nodup_cons.mp distinct
    unfold updateSet at made
    split at made
    · cases made
    · rename_i c named
      split at made
      · cases made
      · rename_i w coerced
        rcases List.mem_cons.mp member with same | later
        · obtain ⟨rfl,rfl⟩ := Prod.mk.inj same
          refine ⟨c,w,named,coerced,?_⟩
          rw [updateSet_lookup fresh made,SortedMap.lookup_insert,if_pos rfl]
        · exact ih rest later made

theorem updateSet_value {given : GoMap Value} {v : Value} (assigned : given.lookup name = some v)
    (made : s.updateSet (ord.arrange given.entries) ∅ = .ok out) :
    ∃ c w, s.columnNamed name = some c ∧ coerceValue v c.type = .ok w ∧ out.lookup name = some w := by
  refine updateSet_given ?_ ?_ made
  · have distinct : (given.entries.map Prod.fst).Nodup := given.increasing.keys.imp fun less => less.ne
    exact ((ord.arrange_perm _).map Prod.fst).nodup_iff.mpr distinct
  · rw [Order.mem_arrange,SortedMap.mem_entries]
    exact assigned

end Schema

namespace Db

variable {db : Db} {t : Nat}

theorem table_withTable_self (inside : t < db.tables.length) (table : Table) : (db.withTable t table).table t = table := by
  rw [table_withTable,if_pos ⟨rfl,inside⟩]

theorem withTable_withTable (db : Db) (t : Nat) (table table' : Table) :
    (db.withTable t table).withTable t table' = db.withTable t table' := by
  simp [withTable]

theorem withTable_table (inside : t < db.tables.length) : db.withTable t (db.table t) = db := by
  simp [withTable,Db.table,List.getD_eq_getElem?_getD,List.getElem?_eq_getElem inside]

end Db

namespace Executor

variable {e : Executor} {t : Nat} {α β : Type}

theorem lookup_of_table (found : e.table name = .ok t) : e.db.registry.lookup (toLower name) = some t := by
  rw [table] at found
  split at found
  · cases found
  · rename_i there
    rw [there,Except.ok.inj found]

theorem onTable_bind (inside : t < e.db.tables.length) (x : TableM α) (f : α → TableM β) :
    (onTable t (x >>= f)).exec e = (onTable t x >>= fun a => onTable t (f a)).exec e := by
  rw [exec_bind,onTable_exec,onTable_exec,exec_bind]
  rcases x.exec (e.db.table t) with ⟨err | a,table⟩
  · rfl
  · dsimp only
    rw [onTable_exec,Db.table_withTable_self inside,Db.withTable_withTable]

theorem onTable_map (x : TableM α) (f : α → β) :
    (onTable t (x >>= fun a => pure (f a))).exec e = (onTable t x >>= fun a => pure (f a)).exec e := by
  rw [exec_bind,onTable_exec,onTable_exec,exec_bind]
  rcases x.exec (e.db.table t) with ⟨err | a,table⟩ <;> rfl

theorem onTable_get_bind (f : Table → TableM β) :
    (onTable t (get >>= f)).exec e = (onTable t (f (e.db.table t))).exec e := by
  rw [onTable_exec,onTable_exec,exec_bind,exec_get]

theorem onState_closed (closed : e.tx = none) (t : Nat) (f : TransactionTableState → TransactionTableState) :
    (onState t f).exec e = (.ok (),e) := by
  rcases e with ⟨db,tx⟩
  cases closed
  rfl

theorem outside_closed (closed : e.tx = none) (x : ExecutorM Unit) : outside e x = x := by
  rw [outside,if_pos (Option.isNone_iff_eq_none.mpr closed)]

theorem deref_closed (closed : e.tx = none) (t : Nat) (row : Row) : e.deref t (.read row) = row := by
  have none : e.state t = none := by rw [state.eq_def,closed]
  rw [deref.eq_def,none]

theorem rowRefs_closed (closed : e.tx = none) (ord : Order) (scanned : (e.db.table t).scan = .ok rows) :
    e.rowRefs ord t = .ok (rows.map .read) := by
  have none : e.state t = none := by rw [state.eq_def,closed]
  rw [rowRefs.eq_def,none,scanned]

private theorem round_closed (closed : e.tx = none) (inside : t < e.db.tables.length) {x : TableM Unit}
    {f : TransactionTableState → TransactionTableState} {rest : ExecutorM Nat} {rest' : TableM Nat}
    (next : ∀ {e : Executor}, e.tx = none → t < e.db.tables.length → rest.exec e = (onTable t rest').exec e) :
    (do
      outside e (onTable t x)
      onState t f
      let n ← rest
      pure (n + 1) : ExecutorM Nat).exec e =
    (onTable t do
      x
      let n ← rest'
      pure (n + 1)).exec e := by
  rw [outside_closed closed,onTable_bind inside,exec_bind,exec_bind,onTable_exec]
  rcases x.exec (e.db.table t) with ⟨err | _,table⟩
  · rfl
  · have still : t < (e.db.withTable t table).tables.length := by rwa [Db.withTable,List.length_set]
    dsimp only
    rw [exec_bind_ok (onState_closed (e := ⟨e.db.withTable t table,e.tx⟩) closed t f),onTable_map,exec_bind,exec_bind,
      next (e := ⟨e.db.withTable t table,e.tx⟩) closed still]

theorem updateEach_closed (closed : e.tx = none) (inside : t < e.db.tables.length) (w : Option Condition) (set : Row)
    (rows : List Row) :
    (updateEach t w set (rows.map .read)).exec e = (onTable t (Table.updateEach (matchRow w) set rows)).exec e := by
  induction rows generalizing e with
  | nil =>
    rw [Table.updateEach,onTable_exec,exec_pure,Db.withTable_table inside]
    rfl
  | cons row rows ih =>
    rw [List.map_cons,updateEach,Table.updateEach,exec_bind_ok (exec_get e),deref_closed closed]
    split_ifs
    · rw [onTable_get_bind]
      exact round_closed closed inside ih
    · exact ih closed inside

theorem deleteEach_closed (closed : e.tx = none) (inside : t < e.db.tables.length) (w : Option Condition)
    (rows : List Row) :
    (deleteEach t w (rows.map .read)).exec e = (onTable t (Table.deleteEach (matchRow w) rows)).exec e := by
  induction rows generalizing e with
  | nil =>
    rw [Table.deleteEach,onTable_exec,exec_pure,Db.withTable_table inside]
    rfl
  | cons row rows ih =>
    rw [List.map_cons,deleteEach,Table.deleteEach,exec_bind_ok (exec_get e),deref_closed closed]
    split_ifs
    · rw [onTable_get_bind]
      exact round_closed closed inside ih
    · exact ih closed inside

theorem update_closed (closed : e.tx = none) (inside : t < e.db.tables.length) {q : Update}
    (found : e.table q.table = .ok t) {set : Row}
    (made : (e.db.table t).schema.updateSet ((ord.at 0).arrange q.set.entries) ∅ = .ok set)
    (scanned : (e.db.table t).scan = .ok rows) :
    (update ord q).exec e = (do
      let n ← onTable t (Table.updateEach (matchRow q.condition) set rows)
      pure {Result.empty with affected := n} : ExecutorM Result).exec e := by
  rw [update,exec_bind_ok (exec_get e),exec_of_bind found,exec_of_bind made,
    exec_of_bind (rowRefs_closed closed _ scanned),exec_bind,updateEach_closed closed inside,exec_bind]

theorem delete_closed (closed : e.tx = none) (inside : t < e.db.tables.length) {q : Delete}
    (found : e.table q.table = .ok t) (scanned : (e.db.table t).scan = .ok rows) :
    (delete ord q).exec e = (do
      let n ← onTable t (Table.deleteEach (matchRow q.condition) rows)
      pure {Result.empty with affected := n} : ExecutorM Result).exec e := by
  rw [delete,exec_bind_ok (exec_get e),exec_of_bind found,exec_of_bind (rowRefs_closed closed _ scanned),exec_bind,
    deleteEach_closed closed inside,exec_bind]

end Executor
end GoDb
