import GoDb.DirectWrites
import GoDb.ServerInvariant

/-! What UPDATE and DELETE do to the rows of a table that are stored under their printed
keys. Outside of a transaction the rows are written one after the other: an UPDATE that
fails leaves the rows it has written, and one that changes the key leaves the old row. -/
namespace GoDb
open Foundation Outcome

def ColumnType.Simple (type : ColumnType) : Prop := type ≠ .bytes ∧ type ≠ .timestamp

instance : DecidablePred ColumnType.Simple := fun _ => inferInstanceAs (Decidable (_ ∧ _))

namespace Schema

variable {s : Schema} {row : Row}

theorem coerceValue_simple {type : ColumnType} {v w : Value} (simple : type.Simple) (coerced : coerceValue v type = .ok w) :
    w = v ∨ ∃ i, v = .int i ∧ w = .float (Binary64.ofInt i.toInt) := by
  unfold coerceValue at coerced
  split at coerced
  any_goals cases coerced
  all_goals first
    | exact .inl rfl
    | exact .inr ⟨_,rfl,rfl⟩
    | exact absurd rfl simple.1
    | exact absurd rfl simple.2

theorem coerceValue_stored {c : Column} {v : Value} (simple : c.type.Simple)
    (written : v = .nil ∨ ∃ bytes, encodeValue c v = .ok bytes) : coerceValue v c.type = .ok (v.stored c.type) := by
  rcases written with rfl | ⟨bytes,written⟩
  · rw [Value.stored_nil,coerceValue]
  · unfold encodeValue at written
    split at written <;> rename_i type <;> cases written <;> rw [type] at simple ⊢
    any_goals rfl
    · exact absurd rfl simple.1
    · exact absurd rfl simple.2

theorem coerceValue_taken {c d : Column} {v w : Value} (simple : c.type.Simple) (other : d.type.Simple)
    (coerced : coerceValue v d.type = .ok w) (written : w = .nil ∨ ∃ bytes, encodeValue c w = .ok bytes) :
    coerceValue v c.type = .ok (w.stored c.type) := by
  rcases coerceValue_simple other coerced with rfl | ⟨i,rfl,rfl⟩
  · exact coerceValue_stored simple written
  · obtain ⟨bytes,written⟩ := written.resolve_left nofun
    have float : c.type = .float := by
      cases type : c.type <;> simp [encodeValue,type] at written ⊢
    rw [float]
    rfl

/-- The row with the values of a SET clause in its columns. -/
def assigned (s : Schema) (set : GoMap Value) (row : Row) : Row :=
  fillFrom (fun c =>
    match set.lookup c.name with
    | some v => (coerceValue v c.type).toOption.getD .nil
    | none => row.get c.name) ∅ s.columns

theorem stored_update {ord : Order} {given : GoMap Value} {set : Row} {b data : Bytes} (valid : s.validate = .ok ())
    (simple : ∀ c ∈ s.columns, c.type.Simple) (made : s.updateSet (ord.arrange given.entries) ∅ = .ok set)
    (decoded : s.decode data = .ok row) (encoded : s.encode (row.insertAll set.entries) = .ok b) :
    s.stored (row.insertAll set.entries) = s.assigned given row := by
  have distinct := distinct_of_validate valid
  unfold encode at encoded
  split_ifs at encoded
  refine List.foldl_ext _ _ _ fun acc c member => ?_
  obtain ⟨w,found,written⟩ := encodeFrom_found encoded c member
  congr 1
  rw [Row.get,found,Option.getD_some]
  rcases value : given.lookup c.name with _ | v
  · have same : row.lookup c.name = some w := by
      rw [← found,SortedMap.lookup_insertAll,updateSet_keyless value made,Option.none_or]
    have stored := stored_of_decode valid decoded
    have there : (s.stored row).lookup c.name = _ := lookup_stored distinct member
    rw [stored,same,Row.get,same] at there
    simp only [value,Row.get,same]
    exact (Option.some.inj there).symm
  · obtain ⟨d,w',named,coerced,there⟩ := updateSet_value value made
    rw [SortedMap.lookup_insertAll,there,Option.some_or] at found
    obtain rfl := Option.some.inj found
    have type := simple d (List.mem_of_find?_eq_some named)
    simp only [value,coerceValue_taken (simple c member) type coerced written]
    rfl

def bytesOf (s : Schema) (row : Row) : Bytes := (s.encode row).toOption.getD []

theorem bytesOf_encode {b : Bytes} (encoded : s.encode row = .ok b) : s.bytesOf row = b := by
  rw [bytesOf,encoded]
  rfl

end Schema

namespace Table

variable {t t' : Table} {key : Bytes} {row : Row}

def Printed (t : Table) : Prop := ∀ key row, t.get key = .ok (some row) → t.schema.keyOf row = key

namespace Legible

theorem printed (legible : t.Legible) (printed : t.Printed) {e : BTree.Entry} (member : e ∈ t.entries) :
    t.schema.keyOf (t.schema.rowOf e.2) = e.1 := by
  refine printed e.1 _ ?_
  rw [legible.get,(SortedEntries.mem_iff_lookup legible.increasing e).mp member]
  rfl

theorem printed_of (legible : t.Legible)
    (printed : ∀ e ∈ t.entries, t.schema.keyOf (t.schema.rowOf e.2) = e.1) : t.Printed := by
  intro key row found
  rw [legible.get] at found
  obtain ⟨b,there,rfl⟩ := Option.map_eq_some_iff.mp (Except.ok.inj found)
  exact printed (key,b) ((SortedEntries.mem_iff_lookup legible.increasing _).mpr there)

theorem rowOf_accepted (legible : t.Legible) {b : Bytes} (accepts : t.Accepts key row b) :
    t.schema.rowOf b = t.schema.stored row := by
  have short := accepts.fit.short
  rw [Schema.rowOf,Schema.decode_encode legible.valid accepts.encoded (by omega)]
  rfl

end Legible

theorem deleteEach_outcome (wanted : Row → Bool) (done left : List BTree.Entry) {t : Table}
    (legible : t.Legible) (split : t.entries = done ++ left)
    (printed : ∀ e ∈ left, t.schema.keyOf (t.schema.rowOf e.2) = e.1) :
    ∃ t', (deleteEach wanted (left.map fun e => t.schema.rowOf e.2)).exec t =
        (.ok ((left.map fun e => t.schema.rowOf e.2).countP wanted),t') ∧ t.Reads t' ∧
      t'.entries = done ++ left.filter fun e => !wanted (t.schema.rowOf e.2) := by
  induction left generalizing t done with
  | nil => exact ⟨t,rfl,reads.refl t,split⟩
  | cons e left ih =>
    obtain ⟨here,rest⟩ := List.forall_mem_cons.mp printed
    rw [List.map_cons,deleteEach]
    by_cases matched : wanted (t.schema.rowOf e.2)
    · obtain ⟨t₁,deleted,step,entries,-⟩ := delete_outcome legible e.1
      have left₁ : t₁.entries = done ++ left := by
        rw [entries,split,SortedEntries.remove_at (split ▸ legible.increasing)]
      obtain ⟨t₂,more,step₂,final⟩ := ih done (legible.reads step) left₁ (by rw [step.1]; exact rest)
      rw [step.1] at more final
      refine ⟨t₂,?_,reads.trans step step₂,?_⟩
      · rw [if_pos matched,exec_bind_ok (exec_get t),here,exec_bind_ok deleted,exec_bind_ok more,
          List.countP_cons_of_pos matched]
        rfl
      · rw [final,List.filter_cons_of_neg (by simp [matched])]
    · rw [if_neg matched,List.countP_cons_of_neg matched,List.filter_cons_of_pos (by simp [matched])]
      obtain ⟨t₂,more,step₂,final⟩ := ih (done ++ [e]) legible (by rw [split,List.append_assoc]; rfl) rest
      exact ⟨t₂,more,step₂,by rw [final,List.append_assoc]; rfl⟩

theorem deleteWhere_outcome (wanted : Row → Bool) (legible : t.Legible) (printed : t.Printed) :
    ∃ t', (deleteWhere wanted).exec t = (.ok ((t.entries.map fun e => t.schema.rowOf e.2).countP wanted),t') ∧ t.Reads t' ∧
      t'.entries = t.entries.filter fun e => !wanted (t.schema.rowOf e.2) := by
  unfold deleteWhere
  rw [exec_bind_ok (exec_get t),exec_of_bind legible.scan]
  exact deleteEach_outcome wanted [] t.entries legible rfl fun e member => legible.printed printed member

/-- The rows that `Update` writes: all that match, or those before the first that is refused. -/
def written (wanted : Row → Bool) (set : Row) : List Row → Table → List Row
  | [],_ => []
  | row::rows,t =>
    if wanted row then
      let new := row.insertAll set.entries
      match (insert (t.schema.keyOf new) new).exec t with
      | (.ok (),t') => row::written wanted set rows t'
      | (.error _,_) => []
    else written wanted set rows t

def passed (s : Schema) (wanted : Row → Bool) (set : Row) (e : BTree.Entry) : BTree.Entry :=
  if wanted (s.rowOf e.2) then (e.1,s.bytesOf ((s.rowOf e.2).insertAll set.entries)) else e

structure Updated (s : Schema) (wanted : Row → Bool) (set : Row) (t t' : Table) (done left first rest : List BTree.Entry) :
    Prop where
  parts : left = first ++ rest
  reads : t.Reads t'
  entries : t'.entries = done ++ first.map (passed s wanted set) ++ rest
  rows : (first.map fun e => s.rowOf e.2).filter wanted = written wanted set (left.map fun e => s.rowOf e.2) t
  stored : ∀ e ∈ first, s.rowOf (passed s wanted set e).2 =
    if wanted (s.rowOf e.2) then s.stored ((s.rowOf e.2).insertAll set.entries) else s.rowOf e.2

section loop

variable {wanted : Row → Bool} {set : Row} {s : Schema} {rows : List Row}

theorem written_skip (other : ¬wanted row) : written wanted set (row::rows) t = written wanted set rows t := by
  rw [written,if_neg other]

theorem written_refused {err : Error} (matched : wanted row) (schema : t.schema = s)
    (failed : (insert (s.keyOf (row.insertAll set.entries)) (row.insertAll set.entries)).exec t = (.error err,t')) :
    written wanted set (row::rows) t = [] := by
  subst schema
  rw [written,if_pos matched]
  simp only [failed]

theorem written_accepted (matched : wanted row) (schema : t.schema = s)
    (inserted : (insert (s.keyOf (row.insertAll set.entries)) (row.insertAll set.entries)).exec t = (.ok (),t')) :
    written wanted set (row::rows) t = row::written wanted set rows t' := by
  subst schema
  rw [written,if_pos matched]
  simp only [inserted]

theorem updateEach_outcome (done left : List BTree.Entry) {t : Table} (schema : t.schema = s)
    (legible : t.Legible) (split : t.entries = done ++ left) (printed : ∀ e ∈ left, s.keyOf (s.rowOf e.2) = e.1)
    (keyed : ∀ row ∈ written wanted set (left.map fun e => s.rowOf e.2) t,
      s.keyOf (row.insertAll set.entries) = s.keyOf row) :
    ∃ t' first rest, Updated s wanted set t t' done left first rest ∧
      ((updateEach wanted set (left.map fun e => s.rowOf e.2)).exec t =
          (.ok ((left.map fun e => s.rowOf e.2).countP wanted),t') ∧ rest = [] ∨
        ∃ err, (updateEach wanted set (left.map fun e => s.rowOf e.2)).exec t = (.error err,t')) := by
  induction left generalizing t done with
  | nil => exact ⟨t,[],[],⟨rfl,reads.refl t,by simpa using split,rfl,by simp⟩,.inl ⟨rfl,rfl⟩⟩
  | cons e left ih =>
    obtain ⟨here,others⟩ := List.forall_mem_cons.mp printed
    rw [List.map_cons] at keyed ⊢
    rw [updateEach]
    by_cases matched : wanted (s.rowOf e.2)
    · rw [if_pos matched,exec_bind_ok (exec_get t),schema]
      obtain ⟨t₁,step,⟨b,inserted,after⟩ | ⟨⟨err,failed⟩,-,entries,-⟩⟩ := insert_outcome legible
        (s.keyOf ((s.rowOf e.2).insertAll set.entries)) ((s.rowOf e.2).insertAll set.entries)
      · have accepts := after.accepts
        rw [written_accepted matched schema inserted] at keyed
        obtain ⟨own,keyed⟩ := List.forall_mem_cons.mp keyed
        have changed : passed s wanted set e = (e.1,b) := by
          rw [passed,if_pos matched,Schema.bytesOf_encode (schema ▸ accepts.encoded)]
        have left₁ : t₁.entries = (done ++ [passed s wanted set e]) ++ left := by
          rw [after.entries,own,here,split,SortedEntries.put_at (split ▸ legible.increasing),changed,List.append_assoc]
          rfl
        obtain ⟨t',first,rest,updated,result⟩ := ih _ (step.1.trans schema) (legible.reads step) left₁ others keyed
        refine ⟨t',e::first,rest,⟨?_,reads.trans step updated.reads,?_,?_,?_⟩,?_⟩
        · rw [updated.parts,List.cons_append]
        · rw [updated.entries,List.map_cons]
          simp
        · rw [List.map_cons,List.filter_cons_of_pos matched,updated.rows,List.map_cons,
            written_accepted matched schema inserted]
        · refine List.forall_mem_cons.mpr ⟨?_,updated.stored⟩
          rw [changed,if_pos matched,← schema]
          exact legible.rowOf_accepted (schema.symm ▸ accepts)
        · dsimp only
          rw [exec_bind_ok inserted,List.countP_cons_of_pos matched]
          rcases result with ⟨ran,none⟩ | ⟨err,failed⟩
          · exact .inl ⟨exec_bind_ok ran,none⟩
          · exact .inr ⟨err,exec_bind_error failed⟩
      · refine ⟨t₁,[],e::left,⟨rfl,step,?_,?_,by simp⟩,.inr ⟨err,exec_bind_error failed⟩⟩
        · rw [entries,split]
          simp
        · rw [List.map_cons,written_refused matched schema failed]
          rfl
    · rw [if_neg matched]
      rw [written_skip matched] at keyed
      obtain ⟨t',first,rest,updated,result⟩ := ih (done ++ [e]) schema legible
        (by rw [split,List.append_assoc]; rfl) others keyed
      have same : passed s wanted set e = e := if_neg matched
      rw [List.countP_cons_of_neg matched]
      refine ⟨t',e::first,rest,⟨?_,updated.reads,?_,?_,?_⟩,result⟩
      · rw [updated.parts,List.cons_append]
      · rw [updated.entries,List.map_cons,same]
        simp
      · rw [List.map_cons,List.filter_cons_of_neg matched,updated.rows,List.map_cons,written_skip matched]
      · refine List.forall_mem_cons.mpr ⟨?_,updated.stored⟩
        rw [same,if_neg matched]

theorem updateEach_scan (legible : t.Legible) (printed : t.Printed) (scanned : t.scan = .ok rows)
    (keyed : ∀ row ∈ written wanted set rows t, t.schema.keyOf (row.insertAll set.entries) = t.schema.keyOf row) :
    ∃ t', t.Reads t' ∧
      ((updateEach wanted set rows).exec t = (.ok (rows.countP wanted),t') ∧
          t'.scan = .ok (rows.map fun row => if wanted row then t.schema.stored (row.insertAll set.entries) else row) ∨
        (∃ err, (updateEach wanted set rows).exec t = (.error err,t')) ∧
          (t'.scan = .ok rows ↔ ∀ row ∈ written wanted set rows t, t.schema.stored (row.insertAll set.entries) = row)) := by
  obtain rfl := Except.ok.inj (scanned.symm.trans legible.scan)
  obtain ⟨t',first,rest,updated,result⟩ := updateEach_outcome [] t.entries rfl legible rfl
    (fun e member => legible.printed printed member) keyed
  have after : t'.scan = .ok ((first.map fun e => t.schema.rowOf (passed t.schema wanted set e).2) ++
      rest.map fun e => t.schema.rowOf e.2) := by
    rw [(legible.reads updated.reads).scan,updated.entries,updated.reads.1]
    simp
  refine ⟨t',updated.reads,?_⟩
  rcases result with ⟨ran,rfl⟩ | failed
  · refine .inl ⟨ran,?_⟩
    rw [after,updated.parts,List.append_nil,List.map_nil,List.append_nil,List.map_map]
    exact congrArg _ (List.map_congr_left updated.stored)
  · refine .inr ⟨failed,?_⟩
    rw [after,Except.ok.injEq,← updated.rows]
    conv_lhs => rw [updated.parts,List.map_append]
    rw [List.append_left_inj,List.map_inj_left]
    constructor
    · intro same row member
      obtain ⟨there,matched⟩ := List.mem_filter.mp member
      obtain ⟨e,inside,rfl⟩ := List.mem_map.mp there
      have unchanged := same e inside
      rwa [updated.stored e inside,if_pos matched] at unchanged
    · intro unchanged e inside
      rw [updated.stored e inside]
      split_ifs with matched
      · exact unchanged _ (List.mem_filter.mpr ⟨List.mem_map_of_mem inside,matched⟩)
      · rfl

theorem updateEach_other (wanted : Row → Bool) (rows : List Row) {t : Table} {key : Bytes} (schema : t.schema = s)
    (legible : t.Legible)
    (others : ∀ row ∈ rows, wanted row → s.keyOf (row.insertAll set.entries) ≠ key) :
    ((updateEach wanted set rows).exec t).2.entries.lookup key = t.entries.lookup key := by
  induction rows generalizing t with
  | nil => rfl
  | cons row rows ih =>
    obtain ⟨other,others⟩ := List.forall_mem_cons.mp others
    rw [updateEach]
    split_ifs with matched
    · rw [exec_bind_ok (exec_get t),schema]
      obtain ⟨t₁,step,⟨b,inserted,after⟩ | ⟨⟨err,failed⟩,-,entries,-⟩⟩ := insert_outcome legible
        (s.keyOf (row.insertAll set.entries)) (row.insertAll set.entries)
      · dsimp only
        rw [exec_bind_ok inserted,exec_bind_pure,ih (step.1.trans schema) (legible.reads step) others,after.entries,
          SortedEntries.lookup_put,if_neg (other matched).symm]
      · dsimp only
        rw [exec_bind_error failed,entries]
    · exact ih schema legible others

theorem updateEach_frame {R : Table → Table → Prop} (frame : Frame R) (wanted : Row → Bool) (set : Row)
    (each : ∀ t row, R t ((insert (t.schema.keyOf row) row).exec t).2) (rows : List Row) :
    Proc.Keeps R (updateEach wanted set rows) := by
  induction rows with
  | nil => exact Keeps.pure frame _
  | cons row rows ih =>
    unfold updateEach
    refine Keeps.ite (fun _ => Keeps.get_bind fun t => ?_) fun _ => ih
    exact Keeps.bind_at frame (each t _) fun _ => Keeps.bind frame ih fun _ => Keeps.pure frame _

theorem written_of_done {n : Nat} (done : (updateEach wanted set rows).exec t = (.ok n,t')) :
    written wanted set rows t = rows.filter wanted := by
  induction rows generalizing t t' n with
  | nil => rfl
  | cons row rows ih =>
    rw [updateEach] at done
    split_ifs at done with matched
    · rw [exec_bind_ok (exec_get t)] at done
      obtain ⟨_,t₁,inserted,rest⟩ := bind_success done
      obtain ⟨m,t₂,more,-⟩ := bind_success rest
      rw [written_accepted matched rfl inserted,List.filter_cons_of_pos matched,ih more]
    · rw [written_skip matched,List.filter_cons_of_neg matched,ih done]

theorem written_encodes (rows : List Row) {t : Table} (schema : t.schema = s) (legible : t.Legible) :
    ∀ row ∈ written wanted set rows t, ∃ b, s.encode (row.insertAll set.entries) = .ok b := by
  induction rows generalizing t with
  | nil => exact List.forall_mem_nil _
  | cons row rows ih =>
    by_cases matched : wanted row
    · obtain ⟨t₁,step,⟨b,inserted,after⟩ | ⟨⟨err,failed⟩,-⟩⟩ := insert_outcome legible
        (s.keyOf (row.insertAll set.entries)) (row.insertAll set.entries)
      · rw [written_accepted matched schema inserted]
        exact List.forall_mem_cons.mpr ⟨⟨b,schema ▸ after.accepts.encoded⟩,ih (step.1.trans schema) (legible.reads step)⟩
      · rw [written_refused matched schema failed]
        exact List.forall_mem_nil _
    · rw [written_skip matched]
      exact ih schema legible

end loop

private theorem map_ite_perm {α : Type} (p : α → Bool) (f : α → α) (l : List α) :
    (l.map fun a => if p a then f a else a).Perm ((l.filter fun a => !p a) ++ (l.filter p).map f) := by
  have others : (l.filter fun a => !p a).map (fun a => if p a then f a else a) = l.filter fun a => !p a := by
    conv_rhs => rw [← List.map_id (l.filter _)]
    exact List.map_congr_left fun a member => if_neg (by simpa using List.of_mem_filter member)
  have those : (l.filter p).map (fun a => if p a then f a else a) = (l.filter p).map f :=
    List.map_congr_left fun a member => if_pos (List.of_mem_filter member)
  have split := (List.filter_append_perm p l).symm.map fun a => if p a then f a else a
  rw [List.map_append,those,others] at split
  exact split.trans List.perm_append_comm

/-- What an UPDATE that assigns the key would do if it moved the rows that match. -/
structure Moved (t : Table) (wanted : Row → Bool) (set : Row) (rows : List Row) (t' : Table) : Prop where
  all : ∃ after, t'.scan = .ok after ∧ after.length ≤ rows.length ∧
    after.Perm ((rows.filter fun row => !wanted row) ++
      (rows.filter wanted).map fun row => t.schema.stored (row.insertAll set.entries))
  gone : ∀ row ∈ rows, wanted row → t.schema.keyOf (row.insertAll set.entries) ≠ t.schema.keyOf row →
    t'.get (t.schema.keyOf row) = .ok none

end Table

namespace Sample

def assign (column : String) (value : Value) (key : Int64) : Update :=
  ⟨ascii "u",(∅ : GoMap Value).insert (ascii column) value,some (.test (ascii "id") .equal (.int key))⟩

def setNine : Update := assign "a" (.int 9) 2

def twoRows : Server :=
  server [(1,create "u" .float),(1,insert "u" 1 (.int 7)),(1,insert "u" 2 (.int 8))]

def uniqueRows : Server :=
  server [(1,.createTable ⟨ascii "u",[⟨ascii "a",.int⟩],(∅ : GoMap ColumnConstraint).insert (ascii "a") ⟨false,true,none⟩⟩),
    (1,insert "u" 1 (.int 7)),(1,insert "u" 2 (.int 8))]

theorem twoRows_sound : (twoRows.db.table 0).Sound := (server_ok _).db.sound 0 (by decide +kernel)

theorem twoRows_printed : (twoRows.db.table 0).Printed := twoRows_sound.legible.printed_of (by decide +kernel)

theorem uniqueRows_sound : (uniqueRows.db.table 0).Sound := (server_ok _).db.sound 0 (by decide +kernel)

theorem uniqueRows_printed : (uniqueRows.db.table 0).Printed := uniqueRows_sound.legible.printed_of (by decide +kernel)

end Sample

namespace Executor

variable {e e' : Executor} {t : Nat} {rows : List Row} {out : Result}

theorem onTable_result {α : Type} {x : TableM α} {r : Except Error α} (inside : t < e.db.tables.length)
    (ran : (onTable t x).exec e = (r,e')) :
    x.exec (e.db.table t) = (r,e'.db.table t) ∧ e' = {e with db := e.db.withTable t (e'.db.table t)} := by
  rw [onTable_exec] at ran
  obtain ⟨rfl,rfl⟩ := Prod.mk.inj ran
  rw [Db.table_withTable_self inside]
  exact ⟨rfl,rfl⟩

theorem update_success {ord : Order} (closed : e.tx = none) (inside : t < e.db.tables.length) {q : Update}
    (found : e.table q.table = .ok t) (scanned : (e.db.table t).scan = .ok rows)
    (done : (executeStatement ord (.update q)).exec e = (.ok out,e')) :
    ∃ set, (e.db.table t).schema.updateSet ((ord.at 0).arrange q.set.entries) ∅ = .ok set ∧
      (Table.updateEach (matchRow q.condition) set rows).exec (e.db.table t) = (.ok out.affected,e'.db.table t) ∧
      e' = {e with db := e.db.withTable t (e'.db.table t)} := by
  have steps := done
  rw [executeStatement,update,exec_bind_ok (exec_get e),exec_of_bind found] at steps
  obtain ⟨set,made,-⟩ := of_bind_success steps
  rw [executeStatement,update_closed closed inside found made scanned] at done
  obtain ⟨n,mid,ran,last⟩ := bind_success done
  obtain ⟨result,rfl⟩ := Prod.mk.inj last
  obtain rfl := Except.ok.inj result
  exact ⟨set,made,onTable_result inside ran⟩

theorem delete_success {ord : Order} (closed : e.tx = none) (inside : t < e.db.tables.length) {q : Delete}
    (found : e.table q.table = .ok t) (scanned : (e.db.table t).scan = .ok rows)
    (done : (executeStatement ord (.delete q)).exec e = (.ok out,e')) :
    (Table.deleteEach (matchRow q.condition) rows).exec (e.db.table t) = (.ok out.affected,e'.db.table t) ∧
      e' = {e with db := e.db.withTable t (e'.db.table t)} := by
  rw [executeStatement,delete_closed closed inside found scanned] at done
  obtain ⟨n,mid,ran,last⟩ := bind_success done
  obtain ⟨result,rfl⟩ := Prod.mk.inj last
  obtain rfl := Except.ok.inj result
  exact onTable_result inside ran

/-- Outside of a transaction, an UPDATE that succeeds and does not assign the key changes the rows that match and
no others, and a DELETE removes them. -/
theorem update_delete_exact (closed : e.tx = none) (inside : t < e.db.tables.length) (order : (e.db.table t).InOrder)
    (printed : (e.db.table t).Printed) (simple : ∀ c ∈ (e.db.table t).schema.columns, c.type.Simple)
    (scanned : (e.db.table t).scan = .ok rows) (ord : Order) :
    (∀ q out e', e.table q.table = .ok t → q.set.lookup (e.db.table t).schema.keyColumn = none →
      (executeStatement ord (.update q)).exec e = (.ok out,e') →
      (e'.db.table t).scan = .ok (rows.map fun row =>
          if matchRow q.condition row then (e.db.table t).schema.assigned q.set row else row) ∧
        out.affected = rows.countP (matchRow q.condition)) ∧
    ∀ q out e', e.table q.table = .ok t → (executeStatement ord (.delete q)).exec e = (.ok out,e') →
      (e'.db.table t).scan = .ok (rows.filter fun row => !matchRow q.condition row) ∧
        out.affected = rows.countP (matchRow q.condition) := by
  have legible := order.legible scanned
  have rows' := Except.ok.inj (scanned.symm.trans legible.scan)
  constructor
  · intro q out e' found keyless done
    obtain ⟨set,made,ran,-⟩ := update_success closed inside found scanned done
    have kept : ∀ row ∈ Table.written (matchRow q.condition) set rows (e.db.table t),
        (e.db.table t).schema.keyOf (row.insertAll set.entries) = (e.db.table t).schema.keyOf row :=
      fun row _ => Schema.keyOf_insertAll (Schema.updateSet_keyless keyless made) row
    obtain ⟨t',-,⟨ran',after⟩ | ⟨⟨err,failed⟩,-⟩⟩ := Table.updateEach_scan legible printed scanned kept
    · obtain ⟨count,rfl⟩ := Prod.mk.inj (ran.symm.trans ran')
      refine ⟨?_,Except.ok.inj count⟩
      rw [after]
      refine congrArg _ (List.map_congr_left fun row member => ?_)
      split_ifs with matched
      · have wrote : row ∈ Table.written (matchRow q.condition) set rows (e.db.table t) := by
          rw [Table.written_of_done ran]
          exact List.mem_filter.mpr ⟨member,matched⟩
        obtain ⟨b,encoded⟩ := Table.written_encodes rows rfl legible row wrote
        rw [rows'] at member
        obtain ⟨d,there,rfl⟩ := List.mem_map.mp member
        exact Schema.stored_update legible.valid simple made (legible.decode there) encoded
      · rfl
    · rw [failed] at ran
      cases ran
  · intro q out e' found done
    obtain ⟨ran,-⟩ := delete_success closed inside found scanned done
    obtain ⟨t',ran',step,entries⟩ := Table.deleteEach_outcome (matchRow q.condition) [] (e.db.table t).entries
      legible rfl fun d member => legible.printed printed member
    rw [← rows'] at ran'
    obtain ⟨count,rfl⟩ := Prod.mk.inj (ran.symm.trans ran')
    refine ⟨?_,Except.ok.inj count⟩
    rw [(legible.reads step).scan,entries,step.1,rows',List.nil_append,List.filter_map]
    rfl

theorem update_delete_two_rows :
    ∃ rows, (Sample.twoRows.db.table 0).scan = .ok rows ∧ rows.length = 2 ∧
      (((executeStatement .stored (.update Sample.setNine)).exec (Sample.twoRows.executor 1)).2.db.table 0).scan =
        .ok (rows.map fun row => if matchRow Sample.setNine.condition row then
          (Sample.twoRows.db.table 0).schema.assigned Sample.setNine.set row else row) ∧
      (((executeStatement .stored (.delete ⟨ascii "u",Sample.setNine.condition⟩)).exec
        (Sample.twoRows.executor 1)).2.db.table 0).scan =
          .ok (rows.filter fun row => !matchRow Sample.setNine.condition row) := by
  have scanned := Sample.twoRows_sound.scan
  have exact := update_delete_exact (e := Sample.twoRows.executor 1) rfl (by decide +kernel)
    Sample.twoRows_sound.legible.inOrder Sample.twoRows_printed (by decide +kernel) scanned .stored
  refine ⟨_,scanned,by decide +kernel,?_,?_⟩
  · exact (exact.1 _ _ _ rfl rfl (exec_of_toOption (a := {Result.empty with affected := 1}) (by decide +kernel))).1
  · exact (exact.2 _ _ _ rfl (exec_of_toOption (a := {Result.empty with affected := 1}) (by decide +kernel))).1

/-- The rows an UPDATE writes, each with what it is to become, whether it succeeds or fails. -/
def writes (e : Executor) (ord : Order) (t : Nat) (rows : List Row) (q : Update) : List (Row × Row) :=
  match (e.db.table t).schema.updateSet ((ord.at 0).arrange q.set.entries) ∅ with
  | .error _ => []
  | .ok set => (Table.written (matchRow q.condition) set rows (e.db.table t)).map fun row => (row,row.insertAll set.entries)

end Executor
end GoDb
