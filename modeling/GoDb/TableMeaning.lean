import GoDb.CodecInverse
import GoDb.TableInvariant
import Mathlib.Data.List.TakeWhile

/-! What a table means to its readers: a row for each live key. In a table that is in
order every row can be read, and the operations do to the rows what they are for. -/
namespace GoDb
open Foundation Outcome

variable {row : Row} {writes : List (Bytes × TransactionRow)} {e : BTree.Entry}

namespace Schema

variable {s : Schema}

def rowOf (s : Schema) (b : Bytes) : Row := (s.decode b).toOption.getD ∅

theorem keyOf_insertAll {set : Row} (keyless : set.lookup s.keyColumn = none) (row : Row) :
    s.keyOf (row.insertAll set.entries) = s.keyOf row := by
  rw [keyOf,keyOf,Row.get,Row.get,SortedMap.lookup_insertAll,keyless,Option.none_or]

def Decodes (s : Schema) (b : Bytes) : Prop := s.validate = .ok () → b.length < 2^32 → ∃ row, s.decode b = .ok row

theorem decodes_of_encode {b : Bytes} (encoded : s.encode row = .ok b) : s.Decodes b := fun valid small =>
  ⟨s.stored row,decode_encode valid encoded small⟩

theorem Encodes.encode {b : Bytes} (encodes : s.Encodes b) (valid : s.validate = .ok ()) (small : b.length < 2^32) :
    s.encode (s.rowOf b) = .ok b := by
  obtain ⟨row,encoded⟩ := encodes
  rw [rowOf,decode_encode valid encoded small]
  exact encode_stored valid encoded

theorem decodeAll_map {bs : List Bytes} (decodes : ∀ b ∈ bs, s.decode b = .ok (s.rowOf b)) :
    s.decodeAll bs = .ok (bs.map s.rowOf) := by
  induction bs with
  | nil => rfl
  | cons b bs ih =>
    obtain ⟨here,rest⟩ := List.forall_mem_cons.mp decodes
    simp [decodeAll,here,ih rest,bind,Except.bind]

theorem decodes_of_decodeAll {bs : List Bytes} {rows : List Row} (decoded : s.decodeAll bs = .ok rows) :
    ∀ b ∈ bs, ∃ row, s.decode b = .ok row := by
  induction bs generalizing rows with
  | nil => exact List.forall_mem_nil _
  | cons b bs ih =>
    rw [decodeAll] at decoded
    rcases here : s.decode b with err | row
    · rw [here] at decoded
      cases decoded
    · rcases rest : s.decodeAll bs with err | more
      · rw [here,rest] at decoded
        cases decoded
      · exact List.forall_mem_cons.mpr ⟨⟨row,here⟩,ih rest⟩

theorem batchOp_key {write : Bytes × TransactionRow} {op : BatchOp} (made : s.batchOp write = .ok op) :
    op.key = write.1 := by
  rcases write with ⟨key,_ | row⟩
  · cases made
    rfl
  · simp only [batchOp] at made
    split at made <;> cases made
    rfl

theorem batchOps_keys {ops : List BatchOp} (made : s.batchOps writes = .ok ops) :
    ops.map BatchOp.key = writes.map Prod.fst := by
  have related := batchOps_eq_ok.mp made
  induction related with
  | nil => rfl
  | cons here _ ih => rw [List.map_cons,List.map_cons,batchOp_key here,ih (batchOps_eq_ok.mpr ‹_›)]

/-- A write that gets through: its row can be written, and fits on a page. -/
def Writable (s : Schema) (write : Bytes × TransactionRow) : Prop :=
  ∃ op, s.batchOp write = .ok op ∧ Store.Fits op.key op.value

instance (s : Schema) (write : Bytes × TransactionRow) : Decidable (s.Writable write) :=
  match made : s.batchOp write with
  | .error _ => isFalse fun ⟨_,ok,_⟩ => by rw [made] at ok; cases ok
  | .ok op => decidable_of_iff (Store.Fits op.key op.value)
      ⟨fun fit => ⟨op,made,fit⟩,fun ⟨_,ok,fit⟩ => by rw [made] at ok; cases ok; exact fit⟩

theorem writable_some {key : Bytes} : s.Writable (key,some row) ↔ ∃ b, s.encode row = .ok b ∧ Store.Fits key b := by
  unfold Writable batchOp
  rcases encoded : s.encode row with err | b
  · simp [encoded]
  · simp [encoded]

/-- The operations that a batch of these writes carries out before it succeeds or fails. -/
def applied (s : Schema) (writes : List (Bytes × TransactionRow)) : List BatchOp :=
  match s.batchOps writes with
  | .error _ => []
  | .ok ops => if ∀ op ∈ ops, Store.Short op then ops.takeWhile fun op => Store.Fits op.key op.value else []

theorem writable_iff :
    (∀ write ∈ writes, s.Writable write) ↔
      ∃ ops, s.batchOps writes = .ok ops ∧ ∀ op ∈ ops, Store.Fits op.key op.value := by
  induction writes with
  | nil => simp [batchOps]
  | cons write writes ih =>
    rw [List.forall_mem_cons,ih]
    constructor
    · rintro ⟨⟨op,made,fit⟩,ops,rest,fits⟩
      exact ⟨op::ops,batchOps_eq_ok.mpr (.cons made (batchOps_eq_ok.mp rest)),List.forall_mem_cons.mpr ⟨fit,fits⟩⟩
    · rintro ⟨ops,made,fits⟩
      obtain ⟨op,more,here,rest,rfl⟩ := List.forall₂_cons_left_iff.mp (batchOps_eq_ok.mp made)
      obtain ⟨fit,fits⟩ := List.forall_mem_cons.mp fits
      exact ⟨⟨op,here,fit⟩,more,batchOps_eq_ok.mpr rest,fits⟩

theorem applied_of_fits {ops : List BatchOp} (made : s.batchOps writes = .ok ops)
    (fits : ∀ op ∈ ops, Store.Fits op.key op.value) : s.applied writes = ops := by
  have all : ops.takeWhile (fun op => Store.Fits op.key op.value) = ops :=
    List.takeWhile_eq_self_iff.mpr fun op member => decide_eq_true (fits op member)
  rw [applied,made]
  dsimp only
  rw [if_pos fun op member => (fits op member).shortOp,all]

theorem applied_of_large {before after : List BatchOp} {op : BatchOp}
    (made : s.batchOps writes = .ok (before ++ op::after)) (short : ∀ other ∈ before ++ op::after, Store.Short other)
    (fits : ∀ op ∈ before, Store.Fits op.key op.value) (large : ¬Store.Fits op.key op.value) :
    s.applied writes = before := by
  rw [applied,made]
  dsimp only
  rw [if_pos short,List.takeWhile_append_of_pos fun op member => decide_eq_true (fits op member)]
  simp [large]

theorem encodeValue_error {c : Column} {v : Value} {err : Error} (failed : encodeValue c v = .error err) (key : Bytes) :
    err ≠ .conflict key := by
  unfold encodeValue at failed
  split at failed <;> cases failed
  exact Error.noConfusion

theorem encode_error {err : Error} (failed : s.encode row = .error err) (key : Bytes) : err ≠ .conflict key := by
  have loop : ∀ (columns : List Column) (bits body : Bytes), encodeFrom s row columns bits body = .error err →
      err ≠ .conflict key := by
    intro columns
    induction columns with
    | nil => exact fun _ _ absurd => nomatch absurd
    | cons c columns ih =>
      intro bits body failed
      unfold encodeFrom at failed
      split at failed
      · cases failed
        exact Error.noConfusion
      · split_ifs at failed
        · cases failed
          exact Error.noConfusion
        · exact ih _ _ failed
      · split at failed
        · rename_i wrong
          cases failed
          exact encodeValue_error wrong key
        · exact ih _ _ failed
  unfold encode at failed
  split_ifs at failed
  · cases failed
    exact Error.noConfusion
  · exact loop _ _ _ failed

theorem batchOps_error {err : Error} (failed : s.batchOps writes = .error err) (key : Bytes) : err ≠ .conflict key := by
  induction writes with
  | nil => cases failed
  | cons write writes ih =>
    rw [batchOps_cons] at failed
    rcases made : s.batchOp write with wrong | op
    · rw [made] at failed
      cases failed
      rcases write with ⟨k,_ | row⟩
      · cases made
      · simp only [batchOp] at made
        split at made
        · rename_i unwritable
          cases made
          exact encode_error unwritable key
        · cases made
    · rw [made] at failed
      rcases rest : s.batchOps writes with wrong | ops
      · rw [rest] at failed
        cases failed
        exact ih rest
      · rw [rest] at failed
        cases failed

end Schema

namespace Table

variable {t t' : Table} {key : Bytes}

def entries (t : Table) : List BTree.Entry := t.store.index.entries

/-- The store is in order, the columns have names of their own, and every row can be read, whoever wrote it. -/
structure Legible (t : Table) : Prop where
  valid : t.schema.validate = .ok ()
  columns : t.schema.columns ≠ []
  store : t.store.Sound t.schema.Decodes

namespace Legible

theorem fits (legible : t.Legible) : ∀ e ∈ t.entries, Store.Fits e.1 e.2 := legible.store.holds.fits

theorem increasing (legible : t.Legible) : SortedEntries.Increasing t.entries := legible.store.holds.increasing

theorem decode (legible : t.Legible) (member : e ∈ t.entries) : t.schema.decode e.2 = .ok (t.schema.rowOf e.2) := by
  have short := (legible.fits e member).short
  obtain ⟨row,decoded⟩ := legible.store.values e member legible.valid (by omega)
  rw [Schema.rowOf,decoded]
  rfl

theorem scan (legible : t.Legible) : t.scan = .ok (t.entries.map fun e => t.schema.rowOf e.2) := by
  have decodes : ∀ b ∈ t.entries.map Prod.snd, t.schema.decode b = .ok (t.schema.rowOf b) := by
    intro b member
    obtain ⟨e,there,rfl⟩ := List.mem_map.mp member
    exact legible.decode there
  change t.schema.decodeAll (t.entries.map Prod.snd) = _
  rw [Schema.decodeAll_map decodes,List.map_map]
  rfl

theorem stored (legible : t.Legible) (key : Bytes) : t.store.get key = t.entries.lookup key :=
  legible.store.holds.get key

theorem get (legible : t.Legible) (key : Bytes) : t.get key = .ok ((t.entries.lookup key).map t.schema.rowOf) := by
  unfold Table.get
  rw [legible.stored]
  rcases found : t.entries.lookup key with _ | b
  · rfl
  · have member : (key,b) ∈ t.entries := (SortedEntries.mem_iff_lookup legible.increasing (key,b)).mpr found
    simp only [legible.decode member,Option.map_some]

end Legible

/-- The store is in order, and the columns have names of their own. -/
structure InOrder (t : Table) : Prop where
  valid : t.schema.validate = .ok ()
  columns : t.schema.columns ≠ []
  store : t.store.Sound fun _ => True

theorem Legible.inOrder (legible : t.Legible) : t.InOrder :=
  ⟨legible.valid,legible.columns,legible.store.ok,legible.store.ordered,fun _ _ => trivial⟩

theorem InOrder.legible (order : t.InOrder) {rows : List Row} (scanned : t.scan = .ok rows) : t.Legible := by
  refine ⟨order.valid,order.columns,order.store.ok,order.store.ordered,fun e member _ _ => ?_⟩
  exact Schema.decodes_of_decodeAll scanned e.2 (List.mem_map_of_mem member)

abbrev Reads (t t' : Table) : Prop := t.StepsOf Schema.Decodes t'

theorem reads : Frame Reads := stepsOf Schema.Decodes

theorem Legible.reads (legible : t.Legible) (step : t.Reads t') : t'.Legible := by
  obtain ⟨schema,stored⟩ := step
  refine ⟨?_,?_,?_⟩
  · rw [schema]
    exact legible.valid
  · rw [schema]
    exact legible.columns
  · rw [schema]
    exact (stored legible.store).1

theorem Sound.legible (sound : t.Sound) : t.Legible := by
  refine ⟨sound.valid,sound.columns,sound.store.ok,sound.store.ordered,fun e member => ?_⟩
  obtain ⟨row,encoded⟩ := sound.store.values e member
  exact Schema.decodes_of_encode encoded

theorem Sound.fits (sound : t.Sound) : ∀ e ∈ t.entries, Store.Fits e.1 e.2 := sound.legible.fits

theorem Sound.increasing (sound : t.Sound) : SortedEntries.Increasing t.entries := sound.legible.increasing

theorem Sound.decode (sound : t.Sound) (member : e ∈ t.entries) :
    t.schema.decode e.2 = .ok (t.schema.rowOf e.2) := sound.legible.decode member

theorem Sound.encode (sound : t.Sound) (member : e ∈ t.entries) : t.schema.encode (t.schema.rowOf e.2) = .ok e.2 := by
  have short := (sound.fits e member).short
  exact (sound.store.values e member).encode sound.valid (by omega)

theorem Sound.scan (sound : t.Sound) : t.scan = .ok (t.entries.map fun e => t.schema.rowOf e.2) := sound.legible.scan

theorem Sound.stored (sound : t.Sound) (key : Bytes) : t.store.get key = t.entries.lookup key :=
  sound.legible.stored key

theorem Sound.get (sound : t.Sound) (key : Bytes) : t.get key = .ok ((t.entries.lookup key).map t.schema.rowOf) :=
  sound.legible.get key

theorem Sound.rowOf_inj (sound : t.Sound) (sound' : t'.Sound) (schema : t'.schema = t.schema) {e' : BTree.Entry}
    (member : e ∈ t.entries) (member' : e' ∈ t'.entries) (same : t.schema.rowOf e.2 = t.schema.rowOf e'.2) :
    e.2 = e'.2 := by
  have first := sound.encode member
  have second := sound'.encode member'
  rw [schema,← same,first] at second
  exact Except.ok.inj second

theorem insert_reads (key : Bytes) (row : Row) : Proc.Keeps Reads (insert key row) :=
  insert_of (P := Schema.Decodes) Schema.decodes_of_encode key row

theorem delete_reads (key : Bytes) : Proc.Keeps Reads (delete key) := delete_of (P := Schema.Decodes) key

private theorem foldl_withStore {columns : List Column} {f : Table → Column → Table} (s : Store)
    (step : ∀ t c, f {t with store := s} c = {f t c with store := s}) (t : Table) :
    columns.foldl f {t with store := s} = {columns.foldl f t with store := s} := by
  induction columns generalizing t with
  | nil => rfl
  | cons c columns ih => rw [List.foldl_cons,List.foldl_cons,step,ih]

theorem indexRow_withStore (key : Bytes) (row : Row) (s : Store) (t : Table) :
    indexRow key row {t with store := s} = {indexRow key row t with store := s} :=
  foldl_withStore s (fun _ _ => rfl) t

theorem unindexRow_withStore (key : Bytes) (row : Row) (s : Store) (t : Table) :
    unindexRow key row {t with store := s} = {unindexRow key row t with store := s} :=
  foldl_withStore s (fun _ _ => rfl) t

def forget (key : Bytes) (t : Table) : Table :=
  match t.entries.lookup key with
  | none => t
  | some old => unindexRow key (t.schema.rowOf old) t

structure Accepts (t : Table) (key : Bytes) (row : Row) (b : Bytes) : Prop where
  encoded : t.schema.encode row = .ok b
  checked : t.validateConstraints key row = .ok ()
  fit : Store.Fits key b

structure Inserted (t t' : Table) (key : Bytes) (row : Row) (b : Bytes) : Prop where
  accepts : t.Accepts key row b
  entries : t'.entries = SortedEntries.put key b t.entries
  secondary : t'.secondary = (indexRow key row (t.forget key)).secondary

theorem insert_outcome (legible : t.Legible) (key : Bytes) (row : Row) :
    ∃ t', t.Reads t' ∧
      ((∃ b, (insert key row).exec t = (.ok (),t') ∧ t.Inserted t' key row b) ∨
        (∃ err, (insert key row).exec t = (.error err,t')) ∧ (∀ b, ¬t.Accepts key row b) ∧
          t'.entries = t.entries ∧ t'.secondary = t.secondary) := by
  refine ⟨_,insert_reads key row t,?_⟩
  unfold insert
  rw [exec_bind_ok (exec_get t),exec_bind,exec_of]
  rcases encoded : t.schema.encode row with err | b
  · exact .inr ⟨⟨err,rfl⟩,fun b accepts => by simp [accepts.encoded] at encoded,rfl,rfl⟩
  have bytes {b' : Bytes} (accepts : t.Accepts key row b') : b' = b :=
    Except.ok.inj (accepts.encoded.symm.trans encoded)
  dsimp only
  rw [exec_bind,exec_of]
  rcases checked : t.validateConstraints key row with err | _
  · exact .inr ⟨⟨err,rfl⟩,fun b accepts => by simp [accepts.checked] at checked,rfl,rfl⟩
  dsimp only
  rw [exec_of_bind (legible.get key),exec_bind,onStore_exec]
  have outcome := Store.put_outcome legible.store.holds key b
  generalize (Store.put key b).exec t.store = result at outcome ⊢
  cases outcome with
  | done fit holds =>
    refine .inl ⟨b,?_⟩
    rcases found : t.entries.lookup key with _ | old
    · refine ⟨rfl,⟨encoded,checked,fit⟩,?_,?_⟩
      · change (indexRow _ _ _).store.index.entries = _
        rw [indexRow_store]
        exact holds.entries
      · change (indexRow _ _ _).secondary = _
        rw [indexRow_withStore,forget,found]
    · refine ⟨rfl,⟨encoded,checked,fit⟩,?_,?_⟩
      · change (indexRow _ _ (unindexRow _ _ _)).store.index.entries = _
        rw [indexRow_store,unindexRow_store]
        exact holds.entries
      · change (indexRow _ _ (unindexRow _ _ _)).secondary = _
        rw [unindexRow_withStore,indexRow_withStore,forget,found]
  | tooLarge large holds => exact .inr ⟨⟨_,rfl⟩,fun b' accepts => large (bytes accepts ▸ accepts.fit),holds.entries,rfl⟩
  | walTooLarge large => exact .inr ⟨⟨_,rfl⟩,fun b' accepts => large (bytes accepts ▸ accepts.fit),rfl,rfl⟩

theorem delete_outcome (legible : t.Legible) (key : Bytes) :
    ∃ t', (delete key).exec t = (.ok (),t') ∧ t.Reads t' ∧ t'.entries = SortedEntries.remove key t.entries ∧
      t'.secondary = (t.forget key).secondary := by
  have step := delete_reads key t
  suffices done : (delete key).exec t = (.ok (),((delete key).exec t).2) ∧
      ((delete key).exec t).2.entries = SortedEntries.remove key t.entries ∧
      ((delete key).exec t).2.secondary = (t.forget key).secondary from ⟨_,done.1,step,done.2⟩
  unfold delete
  rw [exec_bind_ok (exec_get t),exec_of_bind (legible.get key)]
  rcases found : t.entries.lookup key with _ | b
  · refine ⟨rfl,(SortedEntries.remove_of_lookup_none legible.increasing found).symm,?_⟩
    rw [forget,found]
    rfl
  · have fits := legible.fits (key,b) ((SortedEntries.mem_iff_lookup legible.increasing (key,b)).mpr found)
    have fit : Store.Fits key [] := by
      unfold Store.Fits Store.recordSize at fits ⊢
      dsimp only at fits
      rw [List.length_nil]
      omega
    have outcome := Store.delete_outcome legible.store.holds key
    dsimp only [Option.map_some]
    rw [exec_bind,onStore_exec]
    generalize (Store.delete key).exec t.store = result at outcome ⊢
    cases outcome with
    | done _ holds =>
      refine ⟨rfl,?_,?_⟩
      · change (unindexRow _ _ _).store.index.entries = _
        rw [unindexRow_store]
        exact holds.entries
      · change (unindexRow _ _ _).secondary = _
        rw [unindexRow_withStore,forget,found]
    | tooLarge large => exact absurd fit large
    | walTooLarge large => exact absurd fit large

theorem insert_accepted {b : Bytes} (legible : t.Legible) (accepts : t.Accepts key row b) :
    ∃ t', (insert key row).exec t = (.ok (),t') ∧ t.Reads t' ∧ t'.entries = SortedEntries.put key b t.entries := by
  obtain ⟨t',step,⟨b',ran,inserted⟩ | ⟨-,refused,-⟩⟩ := insert_outcome legible key row
  · obtain rfl : b' = b := Except.ok.inj (inserted.accepts.encoded.symm.trans accepts.encoded)
    exact ⟨t',ran,step,inserted.entries⟩
  · exact absurd accepts (refused b)

/-- The rows after a batch that has come as far as these operations; the index is left as it was. -/
structure Applied (t t' : Table) (ops : List BatchOp) : Prop where
  schema : t'.schema = t.schema
  secondary : t'.secondary = t.secondary
  entries : t'.entries = (ops.foldl Contents.apply t.store.contents).entries

theorem applyRowsBatch_outcome (sound : t.Sound) (ord : Order) (id : Nat) (writes : GoMap TransactionRow) :
    t.Applied ((applyRowsBatch ord id writes).exec t).2 (t.schema.applied (ord.arrange writes.entries)) ∧
      (((applyRowsBatch ord id writes).exec t).1 = .ok () ∧ (∀ write ∈ writes.entries, t.schema.Writable write) ∨
        ∃ err, ((applyRowsBatch ord id writes).exec t).1 = .error err ∧ (∀ key, err ≠ .conflict key) ∧
          ¬∀ write ∈ writes.entries, t.schema.Writable write) := by
  have writable : (∀ write ∈ writes.entries, t.schema.Writable write) ↔
      ∃ ops, t.schema.batchOps (ord.arrange writes.entries) = .ok ops ∧ ∀ op ∈ ops, Store.Fits op.key op.value := by
    rw [← Schema.writable_iff]
    simp
  unfold applyRowsBatch
  rw [exec_bind_ok (exec_get t),exec_bind,exec_of]
  -- Encoding comes first: an error there leaves the store as it was.
  rcases made : t.schema.batchOps (ord.arrange writes.entries) with err | ops
  · have nothing : t.schema.applied (ord.arrange writes.entries) = [] := by rw [Schema.applied,made]
    refine ⟨?_,.inr ⟨err,rfl,Schema.batchOps_error made,fun all => ?_⟩⟩
    · rw [nothing]
      exact ⟨rfl,rfl,rfl⟩
    · obtain ⟨ops,again,-⟩ := writable.mp all
      rw [made] at again
      cases again
  · have outcome := Store.applyBatch_outcome sound.store.holds id ops
    dsimp only
    rw [onStore_exec]
    generalize (Store.applyBatch id ops).exec t.store = result at outcome ⊢
    have refused : ∀ op ∈ ops, ¬Store.Fits op.key op.value → ¬∀ write ∈ writes.entries, t.schema.Writable write := by
      intro op member large all
      obtain ⟨others,again,fits⟩ := writable.mp all
      obtain rfl := Except.ok.inj (made.symm.trans again)
      exact large (fits op member)
    -- The log takes the whole batch before the first record gets to a page.
    rcases outcome with ⟨short,outcome⟩ | ⟨⟨op,member,long⟩,s',rfl,holds⟩
    · cases outcome with
      | done fits holds =>
        refine ⟨⟨rfl,rfl,?_⟩,.inl ⟨rfl,writable.mpr ⟨ops,made,fits⟩⟩⟩
        rw [Schema.applied_of_fits made fits]
        exact holds.entries
      | tooLarge before op after split fits large holds =>
        subst split
        refine ⟨⟨rfl,rfl,?_⟩,.inr ⟨_,rfl,fun _ => Error.noConfusion,refused op (by simp) large⟩⟩
        rw [Schema.applied_of_large made short fits large]
        exact holds.entries
    · have nothing : t.schema.applied (ord.arrange writes.entries) = [] := by
        rw [Schema.applied,made]
        exact if_neg fun short => long (short op member)
      refine ⟨⟨rfl,rfl,?_⟩,.inr ⟨_,rfl,fun _ => Error.noConfusion,refused op member fun fit => long fit.shortOp⟩⟩
      rw [nothing]
      exact holds.entries

end Table
end GoDb
