import GoDb.Foundation.Runs
import GoDb.Store
import GoDb.WalReplay
import Mathlib.Data.List.TakeWhile

/-! The log that a sequence of calls writes, cut behind any of its records or inside one. -/
namespace GoDb.Wal
open Foundation Outcome TransactionLog Runs

/-- A call of `append` with a put or a deletion, or one of `appendTransaction`. -/
def write : LogCall Nat BatchOp → Bytes → Except Error Unit × Bytes
  | .one op => append (if op.delete then walDelete else walPut) op.key op.value
  | .batch id ops => appendTransaction id ops

/-- An operation that has room in a record, with the number of its transaction. -/
def memberFits (op : BatchOp) : Bool := 8 + op.key.length + op.value.length < 2^32

/-- What `appendTransaction` logs: it ends at the first operation that has no room in a record. -/
def attempt (id : Nat) (ops : List BatchOp) : Attempt Nat BatchOp := ⟨id,ops.takeWhile memberFits,ops.all memberFits⟩

def logged : LogCall Nat BatchOp → List (Entry Nat BatchOp)
  | .one op => if op.key.length + op.value.length < 2^32 then [.plain op] else []
  | .batch id ops => (attempt id ops).entries

def Numbered : LogCall Nat BatchOp → Prop
  | .one _ => True
  | .batch id _ => id < 2^64

theorem appendTransaction_attempt (id : Nat) (ops : List BatchOp) (wal : Bytes) :
    (appendTransaction id ops wal).2 = wal ++ (attempt id ops).entries.flatMap entryBytes := by
  induction ops generalizing wal with
  | nil =>
    rw [appendTransaction,append,if_neg (by simp)]
    simp [attempt,Attempt.entries,entryBytes]
  | cons op ops ih =>
    have width : (LittleEndian.put 8 id ++ op.key).length + op.value.length = 8 + op.key.length + op.value.length := by
      rw [List.length_append,LittleEndian.length_put]
    rw [appendTransaction,append]
    by_cases fits : memberFits op = true
    · have room := of_decide_eq_true fits
      rw [if_neg (by omega)]
      dsimp only
      rw [ih]
      simp [attempt,Attempt.entries,entryBytes,fits]
    · have long : ¬(8 + op.key.length + op.value.length < 2^32) := fun room => fits (decide_eq_true room)
      rw [if_pos (by omega)]
      simp [attempt,Attempt.entries,fits]

theorem write_logged (r : LogCall Nat BatchOp) (wal : Bytes) :
    (write r wal).2 = wal ++ (logged r).flatMap entryBytes := by
  cases r with
  | one op =>
    by_cases room : op.key.length + op.value.length < 2^32
    · rw [logged,if_pos room,List.flatMap_singleton]
      exact congrArg Prod.snd (if_neg (by omega))
    · rw [logged,if_neg room,List.flatMap_nil,List.append_nil]
      exact congrArg Prod.snd (if_pos (by omega))
  | batch id ops => exact appendTransaction_attempt id ops wal

theorem attempt_fits {id : Nat} {ops : List BatchOp} : ∀ op ∈ (attempt id ops).ops, memberFits op = true :=
  fun _ member => List.mem_takeWhile_imp member

theorem loggable_attempt {a : Attempt Nat BatchOp} (bound : a.id < 2^64) (fits : ∀ op ∈ a.ops, memberFits op = true) :
    ∀ e ∈ a.entries, Loggable e := by
  refine List.forall_mem_append.mpr ⟨List.forall_mem_map.mpr fun op member => ⟨bound,?_⟩,fun e member => ?_⟩
  · exact of_decide_eq_true (fits op member)
  · split_ifs at member
    · exact List.mem_singleton.mp member ▸ bound
    · cases member

theorem Numbered.loggable {r : LogCall Nat BatchOp} (numbered : Numbered r) : ∀ e ∈ logged r, Loggable e := by
  cases r with
  | one op =>
    rw [logged]
    split_ifs with room
    · exact List.forall_mem_singleton.mpr room
    · exact List.forall_mem_nil _
  | batch id ops => exact loggable_attempt numbered attempt_fits

theorem loggable_all {calls : List (LogCall Nat BatchOp)} (numbered : ∀ r ∈ calls, Numbered r) :
    ∀ e ∈ calls.flatMap logged, Loggable e := by
  intro e member
  obtain ⟨r,asked,inside⟩ := List.mem_flatMap.mp member
  exact (numbered r asked).loggable e inside

theorem after_write (calls : List (LogCall Nat BatchOp)) (wal : Bytes) :
    after write calls wal = wal ++ (calls.flatMap logged).flatMap entryBytes := by
  induction calls generalizing wal with
  | nil => simp
  | cons r calls ih => rw [after_cons,ih,write_logged,List.flatMap_cons,List.flatMap_append,List.append_assoc]

theorem Small.written {r : LogCall Nat BatchOp} (small : Small r) (wal : Bytes) :
    write r wal = (.ok (),wal ++ r.entries.flatMap entryBytes) := by
  cases r with
  | one op =>
    have room : op.key.length + op.value.length < 2^32 - 8 := small
    rw [LogCall.entries,List.flatMap_singleton]
    exact if_neg (by omega)
  | batch id ops =>
    have short : ∀ op ∈ ops, 8 + op.key.length + op.value.length < 2^32 := fun op member => by
      have := small.2 op member
      omega
    rw [write,appendTransaction_eq wal short,transaction_eq]
    rfl

theorem run_small {calls : List (LogCall Nat BatchOp)} (small : ∀ r ∈ calls, Small r) (wal : Bytes) :
    run write calls wal =
      (calls.map fun r => (r,.ok ()),wal ++ (calls.flatMap LogCall.entries).flatMap entryBytes) := by
  induction calls generalizing wal with
  | nil => simp [run]
  | cons r calls ih =>
    obtain ⟨first,others⟩ := List.forall_mem_cons.mp small
    rw [run,first.written]
    dsimp only
    rw [ih others,List.flatMap_cons,List.flatMap_append,List.append_assoc,List.map_cons]

def noting (op : UInt8) (key value : Bytes) : Proc Error (List (UInt8 × Bytes × Bytes)) Unit :=
  modify fun noted => noted ++ [(op,key,value)]

def asCall (op : BatchOp) : UInt8 × Bytes × Bytes := (if op.delete then walDelete else walPut,op.key,op.value)

theorem asCall_injective : Function.Injective asCall := by
  rintro ⟨key,value,_ | _⟩ ⟨key',value',_ | _⟩ same <;> simp_all [asCall,walPut,walDelete]

theorem applyAll_noting (ops : List BatchOp) (noted : List (UInt8 × Bytes × Bytes)) :
    (applyAll noting ops).exec noted = (.ok (),noted ++ ops.map asCall) := by
  induction ops generalizing noted with
  | nil => simp [applyAll]
  | cons op ops ih =>
    have first : (noting (if op.delete then walDelete else walPut) op.key op.value).exec noted =
        (.ok (),noted ++ [asCall op]) := rfl
    rw [applyAll,exec_bind_ok first,ih,List.map_cons,List.append_assoc]
    rfl

/-- Every call returns, and replaying the first `n` records of the log applies the calls all of whose records are
there, in their order, and nothing else. -/
theorem replay_cut_log (calls : List (LogCall Nat BatchOp)) (small : ∀ r ∈ calls, Small r) :
    run write calls [] =
        (calls.map fun r => (r,.ok ()),(calls.flatMap LogCall.entries).flatMap entryBytes) ∧
      ∀ n, (replay noting (((calls.flatMap LogCall.entries).take n).flatMap entryBytes)).exec [] =
          (.ok (),(survived calls n).map asCall) ∧
        ∀ (σ : Type) (apply : UInt8 → Bytes → Bytes → Proc Error σ Unit),
          replay apply (((calls.flatMap LogCall.entries).take n).flatMap entryBytes) =
            applyAll apply (survived calls n) := by
  have replayed : ∀ n (σ : Type) (apply : UInt8 → Bytes → Bytes → Proc Error σ Unit),
      replay apply (((calls.flatMap LogCall.entries).take n).flatMap entryBytes) =
        applyAll apply (survived calls n) := by
    intro n σ apply
    rw [replay_whole apply fun e member => ?_,applied_take]
    obtain ⟨r,asked,inside⟩ := List.mem_flatMap.mp (List.mem_of_mem_take member)
    exact (small r asked).loggable e inside
  refine ⟨run_small small [],fun n => ⟨?_,replayed n⟩⟩
  rw [replayed,applyAll_noting,List.nil_append]

theorem replay_cut_log_before_commit :
    let calls : List (LogCall Nat BatchOp) := [.one ⟨[1],[2],false⟩,.batch 7 [⟨[3],[4],false⟩,⟨[1],[],true⟩]]
    run write calls [] = (calls.map fun r => (r,.ok ()),(calls.flatMap LogCall.entries).flatMap entryBytes) ∧
      (replay noting (((calls.flatMap LogCall.entries).take 3).flatMap entryBytes)).exec [] =
        (.ok (),[(walPut,[1],[2])]) ∧
      (replay noting (((calls.flatMap LogCall.entries).take 4).flatMap entryBytes)).exec [] =
        (.ok (),[(walPut,[1],[2]),(walPut,[3],[4]),(walDelete,[1],[])]) := by
  obtain ⟨wrote,replayed⟩ := replay_cut_log [.one ⟨[1],[2],false⟩,.batch 7 [⟨[3],[4],false⟩,⟨[1],[],true⟩]] (by
    simp [Small])
  exact ⟨wrote,(replayed 3).1,(replayed 4).1⟩

/-- The records that are whole in the first `n` bytes of a log, and the bytes left behind them. -/
def contained : List (Entry Nat BatchOp) → Nat → Nat × Nat
  | [],_ => (0,0)
  | e::log,n =>
    if (entryBytes e).length ≤ n then
      let (whole,left) := contained log (n - (entryBytes e).length)
      (whole + 1,left)
    else (0,n)

theorem take_contained (log : List (Entry Nat BatchOp)) (n : Nat) :
    ∃ torn, (log.flatMap entryBytes).take n = (log.take (contained log n).1).flatMap entryBytes ++ torn ∧
      torn.length = (contained log n).2 ∧
      (torn = [] ∨ ∃ e ∈ log, torn = (entryBytes e).take (contained log n).2 ∧ (contained log n).2 < (entryBytes e).length) := by
  induction log generalizing n with
  | nil => exact ⟨[],by simp,rfl,.inl rfl⟩
  | cons e log ih =>
    rw [contained]
    split_ifs with fits
    · obtain ⟨torn,split,length,source⟩ := ih (n - (entryBytes e).length)
      refine ⟨torn,?_,length,source.imp_right fun ⟨e',member,shape⟩ => ⟨e',List.mem_cons_of_mem _ member,shape⟩⟩
      rw [List.flatMap_cons,List.take_append,List.take_of_length_le fits,split,List.take_succ_cons,List.flatMap_cons,
        List.append_assoc]
    · -- The cut is inside this record.
      refine ⟨(entryBytes e).take n,?_,?_,.inr ⟨e,List.mem_cons_self,rfl,Nat.lt_of_not_le fits⟩⟩
      · rw [List.flatMap_cons,List.take_append_of_le_length (Nat.le_of_not_le fits)]
        rfl
      · exact List.length_take_of_le (Nat.le_of_not_le fits)

theorem next_entry_torn {e : Entry Nat BatchOp} {n : Nat} (loggable : Loggable e) (body : walHeader ≤ n)
    (cut : n < (entryBytes e).length) : next ((entryBytes e).take n) = .bad .walLength := by
  cases e with
  | plain op =>
    have room : op.key.length + op.value.length < 2^32 := loggable
    exact next_torn _ (by split <;> rfl) ⟨by omega,by omega⟩ body cut
  | member id op =>
    obtain ⟨-,room⟩ := loggable
    exact next_torn _ (by rcases op with ⟨key,value,_ | _⟩ <;> rfl) ⟨by simp; omega,by omega⟩ body cut
  | commit id => exact next_torn _ rfl ⟨by simp,by simp⟩ body cut

/-- The first `n` bytes of what these calls write are replayed up to the last whole record, and without an error just
when what is left behind it is shorter than a header. -/
theorem replay_torn_iff (calls : List (LogCall Nat BatchOp)) (numbered : ∀ r ∈ calls, Numbered r) (n : Nat) :
    (replay noting ((after write calls []).take n)).exec [] =
        (.ok (),(applied (fun _ => [])
          ((calls.flatMap logged).take (contained (calls.flatMap logged) n).1)).map asCall) ↔
      (contained (calls.flatMap logged) n).2 < walHeader := by
  have loggable := loggable_all numbered
  obtain ⟨torn,split,length,source⟩ := take_contained (calls.flatMap logged) n
  have whole := fun e member => loggable e (List.mem_of_mem_take
    (show e ∈ (calls.flatMap logged).take (contained (calls.flatMap logged) n).1 from member))
  rw [after_write,List.nil_append,split]
  constructor
  · intro replayed
    by_contra long
    rcases source with rfl | ⟨e,member,rfl,cut⟩
    · exact long (length ▸ Nat.zero_lt_succ _)
    · -- A whole header announces a body that is not there.
      have ends := next_entry_torn (loggable e member) (Nat.le_of_not_lt long) cut
      rw [replay_log_bad noting whole ends,exec_bind_ok (applyAll_noting _ _)] at replayed
      cases congrArg Prod.fst replayed
  · intro short
    have ends : next torn = .stop := if_pos (length ▸ short)
    rw [replay_log_stop noting whole ends,applyAll_noting,List.nil_append]

theorem replay_torn_header :
    (replay noting ((after write [.one ⟨[1],[2],false⟩,.one ⟨[3],[4],false⟩] []).take 40)).exec [] =
      (.ok (),[(walPut,[1],[2])]) :=
  (replay_torn_iff [.one ⟨[1],[2],false⟩,.one ⟨[3],[4],false⟩] (by simp [Numbered]) 40).mpr (by decide +kernel)

/-- A put whose value did not get to the log makes the replay fail, and with it every `Open`. -/
theorem replay_torn_body :
    let wal := (after write [.one ⟨[1],[2],false⟩] []).take 22
    (after write [.one ⟨[1],[2],false⟩] []).length = 23 ∧ contained (logged (.one ⟨[1],[2],false⟩)) 22 = (0,22) ∧
      (replay noting wal).exec [] = (.error .walLength,[]) ∧
      (Store.open ⟨[],wal,none⟩).1 = .error (.walRecovery .walLength) := by
  refine ⟨by decide +kernel,by decide +kernel,by decide +kernel,rfl⟩

end GoDb.Wal
