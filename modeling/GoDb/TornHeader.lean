import GoDb.KilledWrites
import GoDb.Sidecar

/-! A log that ends in a torn header. `Open` takes the torn bytes for the end of the log and
leaves them where they are; what is logged afterwards stands behind them, and the next
`Open` reads a header that is half the torn one and half that of the next record. -/
namespace GoDb
open Foundation Outcome TransactionLog

namespace Wal

theorem entryBytes_record (e : Entry Nat BatchOp) : ∃ op key value, entryBytes e = record op key value := by
  cases e with
  | plain op | member id op | commit id => exact ⟨_,_,_,rfl⟩

private theorem read_top {bytes : Bytes} {i : Nat} {top : UInt8} (here : bytes[i + 3]? = some top) :
    2^24 * top.toNat ≤ LittleEndian.read ((bytes.drop i).take 4) := by
  rw [← List.getElem?_drop] at here
  generalize bytes.drop i = bytes at here
  rcases bytes with _ | ⟨a,_ | ⟨b,_ | ⟨c,_ | ⟨d,rest⟩⟩⟩⟩
  all_goals simp at here
  subst here
  simp only [List.take_succ_cons,List.take_zero,LittleEndian.read]
  omega

private theorem bad_of_long {bytes : Bytes} (header : walHeader ≤ bytes.length)
    (long : bytes.length <
      LittleEndian.read ((bytes.drop 9).take 4) + LittleEndian.read ((bytes.drop 13).take 4)) :
    ∃ e, next bytes = .bad e := by
  unfold next
  rw [if_neg (by omega)]
  split_ifs with magic
  · exact ⟨_,rfl⟩
  · rw [if_pos (by rw [List.length_drop]; omega)]
    exact ⟨_,rfl⟩

private theorem bad_of_unknown {bytes : Bytes} (header : walHeader ≤ bytes.length)
    (unknown : known ((bytes.drop 8).headD 0) = false) : ∃ e, next bytes = .bad e := by
  unfold next
  rw [if_neg (by omega)]
  split_ifs with magic
  · exact ⟨_,rfl⟩
  · dsimp only
    split_ifs
    · exact ⟨_,rfl⟩
    · exact ⟨_,rfl⟩
    · exact ⟨_,rfl⟩

private theorem bad_of_magic {bytes : Bytes} (header : walHeader ≤ bytes.length) {i : Nat} (inside : i < 8)
    (other : bytes[i]? ≠ walMagic[i]?) : ∃ e, next bytes = .bad e := by
  have differ : bytes.take 8 ≠ walMagic := by
    intro same
    apply other
    rw [← same,List.getElem?_take_of_lt inside]
  unfold next
  rw [if_neg (by omega),if_pos differ]
  exact ⟨_,rfl⟩

/-- Up to 16 bytes of a header, and the records that were logged behind them: no record is found there. The next magic
stands where the torn header had the rest of its own magic, its operation or the last byte of a length. -/
theorem next_behind_torn {torn added : Bytes} (some : 0 < torn.length) (few : torn.length ≤ 16)
    (starts : walMagic <+: added) (whole : walHeader ≤ added.length) (size : added.length < 2^30) :
    ∃ e, next (torn ++ added) = .bad e := by
  have header : walHeader ≤ (torn ++ added).length := by
    rw [List.length_append]
    omega
  have behind (j : Nat) (inside : j < 8) : (torn ++ added)[torn.length + j]? = walMagic[j]? := by
    obtain ⟨rest,rfl⟩ := starts
    rw [List.getElem?_append_right (by omega),Nat.add_sub_cancel_left,List.getElem?_append_left inside]
  have length : (torn ++ added).length < 65 * 2^24 := by
    rw [List.length_append]
    omega
  have letters : ∀ j < 4, ∃ top, walMagic[j]? = .some top ∧ 65 ≤ top.toNat := by decide
  have lengths (i : Nat) (reaches : torn.length ≤ i + 3) (near : i + 3 < torn.length + 4) :
      65 * 2^24 ≤ LittleEndian.read (((torn ++ added).drop i).take 4) := by
    obtain ⟨top,letter,large⟩ := letters (i + 3 - torn.length) (by omega)
    have here := behind (i + 3 - torn.length) (by omega)
    rw [Nat.add_sub_cancel' reaches,letter] at here
    have most := read_top here
    omega
  rcases Nat.lt_or_ge torn.length 8 with magic | past
  · have fresh : ∀ n < 8, 0 < n → walMagic[0]? ≠ walMagic[n]? := by decide
    apply bad_of_magic header magic
    rw [← Nat.add_zero torn.length,behind 0 (by decide)]
    exact fresh torn.length magic some
  rcases Nat.eq_or_lt_of_le past with operation | past
  · apply bad_of_unknown header
    have here := behind 0 (by decide)
    rw [Nat.add_zero,← operation] at here
    rw [List.headD_eq_head?_getD,List.head?_drop,here]
    decide
  rcases Nat.lt_or_ge torn.length 13 with keyLen | valLen
  · have large := lengths 9 (by omega) (by omega)
    exact bad_of_long header (by omega)
  · have large := lengths 13 (by omega) (by omega)
    exact bad_of_long header (by omega)

end Wal

namespace Store
open Runs Layout

variable {s : Store}

theorem Op.run_unlogged {op : Op} (write : op.isWrite = true) (none : op.entries = []) (s : Store) :
    ∃ e, op.run s = (.error e,s) := by
  cases op with
  | put key value =>
    rw [Op.entries,Op.calls,List.flatMap_singleton,Wal.logged] at none
    split_ifs at none with short
    exact ⟨_,(put_long (Nat.le_of_not_lt short) s).2⟩
  | delete key =>
    rw [Op.entries,Op.calls,List.flatMap_singleton,Wal.logged] at none
    split_ifs at none with short
    exact ⟨_,(delete_long (Nat.le_of_not_lt short) s).2⟩
  | applyBatch id ops =>
    have unlogged : (Wal.appendTransaction id ops s.wal).2 = s.wal := by
      rw [Op.entries,Op.calls,List.flatMap_singleton] at none
      rw [← Wal.appendTransaction_mod,Wal.appendTransaction_attempt]
      exact (congrArg _ (congrArg _ none)).trans (List.append_nil _)
    rcases appendTransaction_result id ops s.wal with ⟨short,-⟩ | ⟨-,failed⟩
    · have all : ∀ op ∈ ops, Wal.memberFits op = true := fun op member => decide_eq_true (short op member)
      simp [Op.entries,Op.calls,Wal.logged,Wal.attempt,Attempt.entries,List.all_eq_true.mpr all] at none
    · refine ⟨.walRecordTooLarge,exec_bind_error ?_⟩
      rw [exec_onWal,failed,unlogged]
  | flush | compact | reopen => cases write

theorem run_unlogged {ops : List Op} (write : ∀ op ∈ ops, op.isWrite = true) (none : ops.flatMap Op.entries = [])
    (s : Store) : after Op.run ops s = s ∧ acknowledged (Runs.run Op.run ops s).1 = [] := by
  induction ops with
  | nil => exact ⟨rfl,rfl⟩
  | cons op ops ih =>
    obtain ⟨first,others⟩ := List.forall_mem_cons.mp write
    obtain ⟨now,later⟩ := List.append_eq_nil_iff.mp none
    obtain ⟨e,refused⟩ := op.run_unlogged first now s
    obtain ⟨same,nothing⟩ := ih others later
    rw [after_cons,Runs.run,refused]
    exact ⟨same,nothing⟩

variable {i : Image} {log : List (Entry Nat BatchOp)} {torn : Bytes} {calls : List Op}

private theorem magic_first {entries : List (Entry Nat BatchOp)} (some : entries ≠ []) :
    walMagic <+: entries.flatMap Wal.entryBytes ∧ walHeader ≤ (entries.flatMap Wal.entryBytes).length := by
  obtain ⟨first,rest,rfl⟩ := List.exists_cons_of_ne_nil some
  obtain ⟨op,key,value,bytes⟩ := Wal.entryBytes_record first
  rw [List.flatMap_cons,bytes]
  refine ⟨(List.prefix_append _ _).trans (List.prefix_append _ _),?_⟩
  rw [Wal.record_eq,List.length_append,List.length_append,Wal.length_header]
  omega

theorem torn_refused (wal : s.wal = log.flatMap Wal.entryBytes ++ torn) (loggable : ∀ e ∈ log, Wal.Loggable e)
    (some : 0 < torn.length) (few : torn.length ≤ 16) (write : ∀ op ∈ calls, op.isWrite = true)
    (logged : calls.flatMap Op.entries ≠ [])
    (size : ((calls.flatMap Op.entries).flatMap Wal.entryBytes).length < 2^30) :
    ∃ e, (Store.open (after Op.run calls s).image).1 = .error e := by
  obtain ⟨starts,whole⟩ := magic_first logged
  obtain ⟨e,bad⟩ := Wal.next_behind_torn some few starts whole size
  have left : (after Op.run calls s).image.wal =
      log.flatMap Wal.entryBytes ++ (torn ++ (calls.flatMap Op.entries).flatMap Wal.entryBytes) := by
    rw [← List.append_assoc,← wal]
    exact run_wal calls write s
  cases reopened : (Store.open (after Op.run calls s).image).1 with
  | error e => exact ⟨e,rfl⟩
  | ok s' => exact absurd reopened (open_not_bad left loggable bad)

theorem open_file (opened : (Store.open i).1 = .ok s) (small : s.pager.numPages ≤ 64) : s.pager.file = i.pages := by
  have still := pageStill.recover (fresh i) ⟨Pager.open_bounded i.pages,i.pages,Pager.open_shows i.pages⟩
  rw [recover_of_open opened] at still
  exact still.2.2 small

theorem torn_reopens {entries : List BTree.Entry} (wal : i.wal = log.flatMap Wal.entryBytes ++ torn)
    (loggable : ∀ e ∈ log, Wal.Loggable e) (few : torn.length < walHeader) (pages : PagesOk i.pages)
    (index : i.indexFile = some entries) (sorted : SortedEntries.Increasing entries)
    (live : ∀ e ∈ entries, Fits e.1 e.2) (opened : (Store.open i).1 = .ok s) (small : s.pager.numPages ≤ 64) :
    ∃ s', (Store.open s.image).1 = .ok s' ∧ ∀ key, s'.get key = s.get key := by
  have ends : Wal.next torn = .stop := if_pos few
  have fits := open_fits wal loggable opened
  rcases i with ⟨file,_,_⟩
  cases wal
  cases index
  obtain ⟨s₁,first,saved,answers⟩ := open_logged pages sorted live loggable ends fits
  obtain rfl := Except.ok.inj (opened.symm.trans first)
  have kept : s.image = ⟨file,log.flatMap Wal.entryBytes ++ torn,some s.index.entries⟩ := by
    rw [Store.image,open_wal opened,saved.file,open_file opened small]
    rfl
  obtain ⟨s',second,-,again⟩ := open_logged pages saved.valid.increasing saved.fits loggable ends fits
  refine ⟨s',by rw [kept,second],fun key => ?_⟩
  have before : (fun key => s.index.entries.lookup key) =
      (replayed [] (fun key => entries.lookup key) (TransactionLog.applied (fun _ => []) log)).2 := by
    funext key
    rw [← answers key]
    exact (saved.valid.get key).symm
  rw [again,before,replayed_replayed,answers]

def tornImage : Image := ⟨[],Wal.record walPut [1] [2] ++ (Wal.record walPut [3] [4]).take 5,some []⟩

end Store
end GoDb
