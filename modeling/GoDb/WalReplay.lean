import GoDb.Foundation.TransactionLog
import GoDb.Wal
import Mathlib.Algebra.Order.Group.Nat

/-! Replaying what was logged: plain records are applied where they stand, and the
operations of a transaction when its commit record is met. -/
namespace GoDb.Wal
open Foundation Outcome TransactionLog

def Short (key value : Bytes) : Prop := key.length < 2^32 ∧ value.length < 2^32

theorem read_four {n : Nat} (bound : n < 2^32) : LittleEndian.read (LittleEndian.put 4 n) = n :=
  LittleEndian.read_put_of_lt (show n < 256^4 from bound)

/-- A header with any lengths and any checksum. -/
def headed (op : UInt8) (keyLen valLen crc : Nat) : Bytes :=
  walMagic ++ op::(LittleEndian.put 4 keyLen ++ LittleEndian.put 4 valLen ++ LittleEndian.put 4 crc)

@[simp] theorem length_headed (op : UInt8) (keyLen valLen crc : Nat) :
    (headed op keyLen valLen crc).length = walHeader := by
  simp [headed,walMagic,walHeader]
  rfl

def header (op : UInt8) (key value : Bytes) : Bytes :=
  walMagic ++ op::(LittleEndian.put 4 key.length ++ LittleEndian.put 4 value.length ++
    LittleEndian.put 4 (checksumIEEE (op::(key ++ value))).toNat)

theorem record_eq (op : UInt8) (key value : Bytes) : record op key value = header op key value ++ (key ++ value) := by
  simp [record,header]

@[simp] theorem length_header (op : UInt8) (key value : Bytes) : (header op key value).length = walHeader :=
  length_headed ..

theorem headed_fields (op : UInt8) {keyLen valLen crc : Nat} (lengths : keyLen < 2^32 ∧ valLen < 2^32)
    (sum : crc < 2^32) (body : Bytes) :
    let bytes := headed op keyLen valLen crc ++ body
    bytes.take 8 = walMagic ∧ (bytes.drop 8).headD 0 = op ∧ LittleEndian.read ((bytes.drop 9).take 4) = keyLen ∧
      LittleEndian.read ((bytes.drop 13).take 4) = valLen ∧ LittleEndian.read ((bytes.drop 17).take 4) = crc := by
  have magic : walMagic = [77,89,87,65,76,48,49,0] := by decide
  have first := read_four lengths.1
  have second := read_four lengths.2
  have third := read_four sum
  simp only [LittleEndian.put] at first second third
  simp only [headed,magic,LittleEndian.put,List.cons_append,List.nil_append,List.take_succ_cons,List.take_zero,
    List.drop_succ_cons,List.drop_zero,List.headD_cons,first,second,third,and_self]

theorem next_headed (op : UInt8) {keyLen valLen crc : Nat} (lengths : keyLen < 2^32 ∧ valLen < 2^32) (sum : crc < 2^32)
    (body : Bytes) :
    next (headed op keyLen valLen crc ++ body) =
      if body.length < keyLen + valLen then .bad .walLength
      else if (checksumIEEE (op::body.take (keyLen + valLen))).toNat ≠ crc then .bad .walChecksum
      else if known op = false then .bad (.walOperation op)
      else .record op ((body.take (keyLen + valLen)).take keyLen) ((body.take (keyLen + valLen)).drop keyLen)
        (body.drop (keyLen + valLen)) := by
  obtain ⟨magic,first,keyField,valField,sumField⟩ := headed_fields op lengths sum body
  have rest : (headed op keyLen valLen crc ++ body).drop walHeader = body := List.drop_left' (length_headed ..)
  rw [next,if_neg (by simp),if_neg (not_not.mpr magic)]
  simp only [first,keyField,valField,sumField,rest]

private theorem next_header (op : UInt8) {key value : Bytes} (body : Bytes) (valid : known op = true)
    (short : Short key value) :
    next (header op key value ++ body) =
      if body.length < key.length + value.length then .bad .walLength
      else if (checksumIEEE (op::body.take (key.length + value.length))).toNat ≠
        (checksumIEEE (op::(key ++ value))).toNat then .bad .walChecksum
      else .record op ((body.take (key.length + value.length)).take key.length)
        ((body.take (key.length + value.length)).drop key.length) (body.drop (key.length + value.length)) := by
  have found := next_headed op short (checksumIEEE (op::(key ++ value))).toNat_lt body
  rwa [if_neg (c := known op = false) (by simp [valid])] at found

theorem next_record (op : UInt8) {key value : Bytes} (rest : Bytes) (valid : known op = true)
    (short : Short key value) : next (record op key value ++ rest) = .record op key value rest := by
  have length : (key ++ value).length = key.length + value.length := List.length_append
  rw [record_eq,List.append_assoc,next_header op _ valid short,if_neg (by simp),List.take_left' length,
    List.drop_left' length,if_neg (not_not.mpr rfl),List.take_left,List.drop_left]

theorem next_torn (op : UInt8) {key value : Bytes} {n : Nat} (valid : known op = true) (short : Short key value)
    (body : walHeader ≤ n) (cut : n < (record op key value).length) :
    next ((record op key value).take n) = .bad .walLength := by
  have missing : ((key ++ value).take (n - walHeader)).length < key.length + value.length := by
    simp [record_eq] at cut
    rw [List.length_take]
    omega
  rw [record_eq,List.take_append,length_header,List.take_of_length_le (by simpa using body),
    next_header op _ valid short,if_pos missing]

@[ext] structure Frame where
  op : UInt8
  key : Bytes
  value : Bytes
  deriving DecidableEq, Repr

namespace Frame

def bytes (f : Frame) : Bytes := record f.op f.key f.value

/-- What a record stands for. The key of a transaction's record starts with the number of the transaction. -/
def entry (f : Frame) : Entry Nat BatchOp :=
  if f.op = walTxPut ∨ f.op = walTxDelete then
    .member (LittleEndian.read (f.key.take 8)) ⟨f.key.drop 8,f.value,f.op = walTxDelete⟩
  else if f.op = walTxCommit then .commit (LittleEndian.read (f.key.take 8))
  else .plain ⟨f.key,f.value,f.op = walDelete⟩

structure Valid (f : Frame) : Prop where
  known : known f.op = true
  short : Short f.key f.value
  member : f.op = walTxPut ∨ f.op = walTxDelete → 8 ≤ f.key.length
  commit : f.op = walTxCommit → f.key.length = 8

/-- What the replay makes of a record whose checksum is right: the entry and the bytes left, or an error. -/
def settle (f : Frame) (rest : Bytes) : Except Error (Option (Entry Nat BatchOp × Bytes)) :=
  if (f.op = walTxPut ∨ f.op = walTxDelete) ∧ f.key.length < 8 then .error .walTransactionKey
  else if f.op = walTxCommit ∧ f.key.length ≠ 8 then .error .walCommit
  else .ok (some (f.entry,rest))

theorem settle_ok {f : Frame} (member : f.op = walTxPut ∨ f.op = walTxDelete → 8 ≤ f.key.length)
    (commit : f.op = walTxCommit → f.key.length = 8) (rest : Bytes) : f.settle rest = .ok (some (f.entry,rest)) := by
  rw [settle,if_neg (fun both => Nat.not_lt.mpr (member both.1) both.2),if_neg (fun both => both.2 (commit both.1))]

theorem length_bytes (f : Frame) : walHeader ≤ f.bytes.length := by
  rw [bytes,record_eq,List.length_append,length_header]
  exact Nat.le_add_right _ _

end Frame

def entryBytes : Entry Nat BatchOp → Bytes
  | .plain op => record (if op.delete then walDelete else walPut) op.key op.value
  | .member id op => record (txKind op) (LittleEndian.put 8 id ++ op.key) op.value
  | .commit id => record walTxCommit (LittleEndian.put 8 id) []

def Loggable : Entry Nat BatchOp → Prop
  | .plain op => op.key.length + op.value.length < 2^32
  | .member id op => id < 2^64 ∧ 8 + op.key.length + op.value.length < 2^32
  | .commit id => id < 2^64

def frame : Entry Nat BatchOp → Frame
  | .plain op => ⟨if op.delete then walDelete else walPut,op.key,op.value⟩
  | .member id op => ⟨txKind op,LittleEndian.put 8 id ++ op.key,op.value⟩
  | .commit id => ⟨walTxCommit,LittleEndian.put 8 id,[]⟩

theorem bytes_frame (e : Entry Nat BatchOp) : (frame e).bytes = entryBytes e := by
  cases e <;> rfl

private theorem read_id {id : Nat} (bound : id < 2^64) : LittleEndian.read (LittleEndian.put 8 id) = id :=
  LittleEndian.read_put_of_lt (show id < 256^8 from bound)

private theorem plain_put : ¬(walPut = walTxPut ∨ walPut = walTxDelete) ∧ walPut ≠ walTxCommit := by decide

private theorem plain_delete : ¬(walDelete = walTxPut ∨ walDelete = walTxDelete) ∧ walDelete ≠ walTxCommit := by decide

private theorem txKind_member (op : BatchOp) :
    known (txKind op) = true ∧ (txKind op = walTxPut ∨ txKind op = walTxDelete) ∧ txKind op ≠ walTxCommit := by
  unfold txKind
  cases op.delete <;> decide

theorem Loggable.frame {e : Entry Nat BatchOp} (loggable : Loggable e) : (frame e).Valid ∧ (frame e).entry = e := by
  cases e with
  | plain op =>
    have room : op.key.length + op.value.length < 2^32 := loggable
    have lengths : Short op.key op.value := ⟨by omega,by omega⟩
    rcases op with ⟨key,value,_ | _⟩
    · exact ⟨⟨rfl,lengths,fun op => absurd op plain_put.1,fun op => absurd op plain_put.2⟩,rfl⟩
    · exact ⟨⟨rfl,lengths,fun op => absurd op plain_delete.1,fun op => absurd op plain_delete.2⟩,rfl⟩
  | member id op =>
    obtain ⟨bound,room⟩ := loggable
    have lengths : Short (LittleEndian.put 8 id ++ op.key) op.value := ⟨by simp; omega,by omega⟩
    have long : 8 ≤ (LittleEndian.put 8 id ++ op.key).length := by simp
    have taken : (LittleEndian.put 8 id ++ op.key).take 8 = LittleEndian.put 8 id := List.take_left' (by simp)
    have dropped : (LittleEndian.put 8 id ++ op.key).drop 8 = op.key := List.drop_left' (by simp)
    obtain ⟨valid,kind,other⟩ := txKind_member op
    have same : (⟨op.key,op.value,decide (txKind op = walTxDelete)⟩ : BatchOp) = op := by
      rcases op with ⟨key,value,_ | _⟩ <;> rfl
    refine ⟨⟨valid,lengths,fun _ => long,fun op => absurd op other⟩,?_⟩
    rw [Frame.entry,Wal.frame,if_pos kind,taken,dropped,same,read_id bound]
  | commit id =>
    have bound : id < 2^64 := loggable
    have other : ¬(walTxCommit = walTxPut ∨ walTxCommit = walTxDelete) := by decide
    have length : (LittleEndian.put 8 id).length = 8 := LittleEndian.length_put 8 id
    have lengths : Short (LittleEndian.put 8 id) [] := ⟨by rw [length]; decide,by decide⟩
    refine ⟨⟨rfl,lengths,fun _ => Nat.le_of_eq length.symm,fun _ => length⟩,?_⟩
    rw [Frame.entry,Wal.frame,if_neg other,if_pos rfl,List.take_of_length_le (Nat.le_of_eq length),read_id bound]

/-- What the log can hold, in the lengths of keys and values and in the 64 bits of a transaction's number. -/
def Small : LogCall Nat BatchOp → Prop
  | .one op => op.key.length + op.value.length < 2^32 - 8
  | .batch id ops => id < 2^64 ∧ ∀ op ∈ ops, op.key.length + op.value.length < 2^32 - 8

theorem Small.loggable {r : LogCall Nat BatchOp} (small : Small r) : ∀ e ∈ r.entries, Loggable e := by
  cases r with
  | one op =>
    intro e member
    rw [List.mem_singleton.mp member]
    exact small.trans (by decide)
  | batch id ops =>
    obtain ⟨bound,short⟩ := small
    refine List.forall_mem_append.mpr ⟨List.forall_mem_map.mpr fun op member => ?_,List.forall_mem_singleton.mpr bound⟩
    have := short op member
    exact ⟨bound,by omega⟩

def transaction (id : Nat) (ops : List BatchOp) : Bytes :=
  ops.flatMap (fun op => record (txKind op) (LittleEndian.put 8 id ++ op.key) op.value) ++
    record walTxCommit (LittleEndian.put 8 id) []

theorem transaction_eq (id : Nat) (ops : List BatchOp) :
    transaction id ops = (Attempt.entries ⟨id,ops,true⟩).flatMap entryBytes := by
  simp [transaction,Attempt.entries,entryBytes,List.flatMap_map]

theorem transaction_mod (id : Nat) (ops : List BatchOp) : transaction (id % 2^64) ops = transaction id ops := by
  have same : LittleEndian.put 8 (id % 2^64) = LittleEndian.put 8 id := LittleEndian.put_mod 8 id
  rw [transaction,same,transaction]

theorem length_entryBytes_pos (e : Entry Nat BatchOp) : 1 ≤ (entryBytes e).length := by
  cases e <;> simp only [entryBytes,record,List.length_append,List.length_cons] <;> omega

theorem length_log_le (log : List (Entry Nat BatchOp)) : log.length ≤ (log.flatMap entryBytes).length := by
  induction log with
  | nil => exact Nat.le_refl _
  | cons e log ih =>
    have first := length_entryBytes_pos e
    rw [List.flatMap_cons,List.length_append,List.length_cons]
    omega

theorem appendTransaction_eq {id : Nat} {ops : List BatchOp} (wal : Bytes)
    (short : ∀ op ∈ ops, 8 + op.key.length + op.value.length < 2^32) :
    appendTransaction id ops wal = (.ok (),wal ++ transaction id ops) := by
  induction ops generalizing wal with
  | nil =>
    rw [appendTransaction,append,if_neg (by simp)]
    rfl
  | cons op ops ih =>
    obtain ⟨first,others⟩ := List.forall_mem_cons.mp short
    rw [appendTransaction,append,if_neg (by rw [List.length_append,LittleEndian.length_put]; omega)]
    dsimp only
    rw [ih _ others,transaction,transaction,List.flatMap_cons,List.append_assoc,List.append_assoc]

theorem appendTransaction_mod (id : Nat) (ops : List BatchOp) (wal : Bytes) :
    appendTransaction (id % 2^64) ops wal = appendTransaction id ops wal := by
  have same : LittleEndian.put 8 (id % 2^64) = LittleEndian.put 8 id := LittleEndian.put_mod 8 id
  induction ops generalizing wal with
  | nil => rw [appendTransaction,same,appendTransaction]
  | cons op ops ih =>
    rw [appendTransaction,same,appendTransaction]
    simp only [ih]

variable {log : List (Entry Nat BatchOp)}

section replay

variable {σ : Type} {apply : UInt8 → Bytes → Bytes → Proc Error σ Unit}

theorem applyAll_append (first second : List BatchOp) :
    applyAll apply (first ++ second) = (applyAll apply first >>= fun _ => applyAll apply second) := by
  induction first with
  | nil => simp [applyAll]
  | cons op ops ih => simp [applyAll,ih]

variable (apply) in
def proceed (fuel : Nat) (pending : Nat → List BatchOp) :
    Except Error (Option (Entry Nat BatchOp × Bytes)) → Proc Error σ Unit
  | .error e => throw e
  | .ok none => pure ()
  | .ok (some (e,rest)) => do
    applyAll apply (e.applied pending)
    replayFrom apply fuel rest (e.held pending)

theorem replayFrom_record {bytes : Bytes} {f : Frame} {rest : Bytes} (found : next bytes = .record f.op f.key f.value rest)
    (known : known f.op = true) (fuel : Nat) (pending : Nat → List BatchOp) :
    replayFrom apply (fuel + 1) bytes pending = proceed apply fuel pending (f.settle rest) := by
  rw [replayFrom,found]
  unfold Frame.settle Frame.entry
  by_cases member : f.op = walTxPut ∨ f.op = walTxDelete
  · have other : ¬(f.op = walTxCommit ∧ f.key.length ≠ 8) := by
      rintro ⟨commit,-⟩
      rw [commit] at member
      exact absurd member (by decide)
    simp only [if_pos member]
    by_cases few : f.key.length < 8
    · rw [if_pos few,if_pos ⟨member,few⟩]
      rfl
    · have long : ¬((f.op = walTxPut ∨ f.op = walTxDelete) ∧ f.key.length < 8) := fun both => few both.2
      rw [if_neg few,if_neg long,if_neg other]
      rfl
  · have noMember : ¬((f.op = walTxPut ∨ f.op = walTxDelete) ∧ f.key.length < 8) := fun both => member both.1
    simp only [if_neg member,if_neg noMember]
    by_cases commit : f.op = walTxCommit
    · simp only [if_pos commit]
      by_cases other : f.key.length ≠ 8
      · rw [if_pos other,if_pos ⟨commit,other⟩]
        rfl
      · have eight : ¬(f.op = walTxCommit ∧ f.key.length ≠ 8) := fun both => other both.2
        rw [if_neg other,if_neg eight]
        rfl
    · have same : (if decide (f.op = walDelete) = true then walDelete else walPut) = f.op := by
        simp only [Wal.known,Bool.or_eq_true,decide_eq_true_eq] at known
        by_cases delete : f.op = walDelete
        · simp [delete]
        · rw [if_neg (by simpa using delete)]
          simp_all
      have noCommit : ¬(f.op = walTxCommit ∧ f.key.length ≠ 8) := fun both => commit both.1
      rw [if_neg noCommit]
      simp only [if_neg commit,proceed,Entry.applied,Entry.held,applyAll,same,bind_assoc,pure_bind]

theorem replayFrom_frame {f : Frame} (valid : f.Valid) (fuel : Nat) (rest : Bytes) (pending : Nat → List BatchOp) :
    replayFrom apply (fuel + 1) (f.bytes ++ rest) pending =
      (applyAll apply (f.entry.applied pending) >>= fun _ => replayFrom apply fuel rest (f.entry.held pending)) := by
  rw [Frame.bytes,replayFrom_record (next_record f.op rest valid.known valid.short) valid.known,
    Frame.settle_ok valid.member valid.commit]
  rfl

theorem replayFrom_frames {frames : List Frame} (valid : ∀ f ∈ frames, f.Valid) (fuel : Nat) (rest : Bytes)
    (pending : Nat → List BatchOp) :
    replayFrom apply (fuel + frames.length) (frames.flatMap Frame.bytes ++ rest) pending =
      (applyAll apply (applied pending (frames.map Frame.entry)) >>= fun _ =>
        replayFrom apply fuel rest (held pending (frames.map Frame.entry))) := by
  induction frames generalizing pending with
  | nil => rfl
  | cons f frames ih =>
    obtain ⟨first,others⟩ := List.forall_mem_cons.mp valid
    rw [List.length_cons,← Nat.add_assoc,List.flatMap_cons,List.append_assoc,replayFrom_frame first,List.map_cons,
      applied,applyAll_append,bind_assoc]
    congr 1
    funext done
    exact ih others _

theorem replayFrom_log (loggable : ∀ e ∈ log, Loggable e) (fuel : Nat) (rest : Bytes) (pending : Nat → List BatchOp) :
    replayFrom apply (fuel + log.length) (log.flatMap entryBytes ++ rest) pending =
      (applyAll apply (applied pending log) >>= fun _ => replayFrom apply fuel rest (held pending log)) := by
  have valid : ∀ f ∈ log.map frame, f.Valid := List.forall_mem_map.mpr fun e member => (loggable e member).frame.1
  have bytes : (log.map frame).flatMap Frame.bytes = log.flatMap entryBytes := by
    rw [List.flatMap_map]
    exact List.flatMap_congr fun e _ => bytes_frame e
  have entries : (log.map frame).map Frame.entry = log := by
    rw [List.map_map]
    exact List.map_congr_left (fun e member => (loggable e member).frame.2) |>.trans (List.map_id log)
  have replayed : replayFrom apply _ _ _ = _ := replayFrom_frames valid fuel rest pending
  rwa [List.length_map,bytes,entries] at replayed

variable (apply)

theorem replay_log (loggable : ∀ e ∈ log, Loggable e) (rest : Bytes) :
    ∃ fuel, replay apply (log.flatMap entryBytes ++ rest) = (applyAll apply (applied (fun _ => []) log) >>= fun _ =>
      replayFrom apply (fuel + 1) rest (held (fun _ => []) log)) := by
  have turns := length_log_le log
  obtain ⟨fuel,total⟩ : ∃ fuel, (log.flatMap entryBytes ++ rest).length + 1 = fuel + 1 + log.length :=
    ⟨(log.flatMap entryBytes ++ rest).length - log.length,by rw [List.length_append]; omega⟩
  exact ⟨fuel,by rw [replay,total,replayFrom_log loggable]⟩

theorem replay_log_stop (loggable : ∀ e ∈ log, Loggable e) {rest : Bytes} (ends : next rest = .stop) :
    replay apply (log.flatMap entryBytes ++ rest) = applyAll apply (applied (fun _ => []) log) := by
  obtain ⟨fuel,replayed⟩ := replay_log apply loggable rest
  rw [replayed,replayFrom,ends]
  exact bind_pure _

theorem replay_log_bad (loggable : ∀ e ∈ log, Loggable e) {rest : Bytes} {e : Error} (ends : next rest = .bad e) :
    replay apply (log.flatMap entryBytes ++ rest) =
      (applyAll apply (applied (fun _ => []) log) >>= fun _ => throw e) := by
  obtain ⟨fuel,replayed⟩ := replay_log apply loggable rest
  rw [replayed,replayFrom,ends]

theorem replay_whole (loggable : ∀ e ∈ log, Loggable e) :
    replay apply (log.flatMap entryBytes) = applyAll apply (applied (fun _ => []) log) := by
  have whole := replay_log_stop apply loggable (show next [] = .stop from rfl)
  rwa [List.append_nil] at whole

end replay
end GoDb.Wal
