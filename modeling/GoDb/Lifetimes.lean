import GoDb.StoreFrame
import GoDb.StoreMeaning
import GoDb.WalLog

/-! Processes that use one path after another and are killed. `Open` leaves the log in
place, and each process takes the numbers of its transactions from a counter that starts
from 0. -/
namespace GoDb.Store
open Foundation Outcome TransactionLog Runs

/-- One process: the calls of `ApplyBatch` that returned, and one in which it is killed behind `cut` records of the log.
The numbers are values of `nextCommitSequence`, which commits to other stores raise as well. -/
structure Process where
  returned : List (Nat × List BatchOp)
  last : Nat × List BatchOp
  cut : Nat
  counted : (0::(returned.map Prod.fst ++ [last.1])).Pairwise (· < ·)
  bounded : last.1 < 2^64

def runBatch (c : Nat × List BatchOp) : Store → Except Error Unit × Store := (applyBatch c.1 c.2).exec

namespace Process

def leaves (p : Process) (s : Store) : Bytes :=
  (after runBatch p.returned s).wal ++ ((Wal.logged (.batch p.last.1 p.last.2)).take p.cut).flatMap Wal.entryBytes

def attempts (p : Process) : List (Attempt Nat BatchOp) :=
  p.returned.map (fun c => Wal.attempt c.1 c.2) ++ [(Wal.attempt p.last.1 p.last.2).stop p.cut]

def killed (p : Process) (i : Image) : Option Image :=
  (Store.open i).1.toOption.map fun s => {(after runBatch p.returned s).image with wal := p.leaves s}

end Process

/-- The files after processes that were killed one after another, since the log was empty: the path was new, or the store
was closed. Of the pages and the index file nothing is assumed but that `Open` accepts them. -/
inductive Lifetimes : List Process → Image → Prop
  | start (i : Image) (empty : i.wal = []) : Lifetimes [] i
  | next {processes : List Process} {i i' : Image} {s : Store} (before : Lifetimes processes i)
      (opened : (Store.open i).1 = .ok s) (p : Process) (left : i'.wal = p.leaves s) : Lifetimes (processes ++ [p]) i'

theorem runBatch_wal (c : Nat × List BatchOp) (s : Store) :
    (runBatch c s).2.wal = s.wal ++ (Wal.attempt c.1 c.2).entries.flatMap Wal.entryBytes :=
  wal_of_write (.batch c.1 c.2) (Keeps.bind sameWal.frame (sameWal.steps.applyOps c.2) fun _ => sameWal.steps.saveIndex) s

theorem after_runBatch_wal (calls : List (Nat × List BatchOp)) (s : Store) :
    (after runBatch calls s).wal =
      s.wal ++ (calls.flatMap fun c => (Wal.attempt c.1 c.2).entries).flatMap Wal.entryBytes := by
  induction calls generalizing s with
  | nil => simp
  | cons c calls ih => rw [after_cons,ih,runBatch_wal,List.flatMap_cons,List.flatMap_append,List.append_assoc]

namespace Process

theorem leaves_eq (p : Process) (s : Store) :
    p.leaves s = s.wal ++ (p.attempts.flatMap Attempt.entries).flatMap Wal.entryBytes := by
  rw [leaves,after_runBatch_wal,attempts,List.flatMap_append,List.flatMap_singleton,Attempt.entries_stop,
    List.flatMap_append,List.flatMap_map,List.append_assoc]
  rfl

private theorem ids_eq (p : Process) : p.attempts.map Attempt.id = p.returned.map Prod.fst ++ [p.last.1] := by
  simp [attempts,Wal.attempt,Attempt.stop]

theorem apart (p : Process) : p.attempts.Pairwise Attempt.Apart := by
  have increasing := (List.pairwise_cons.mp p.counted).2
  rw [← p.ids_eq,List.pairwise_map] at increasing
  exact increasing.imp fun less _ same => absurd same less.ne'

theorem loggable (p : Process) : ∀ e ∈ p.attempts.flatMap Attempt.entries, Wal.Loggable e := by
  intro e member
  obtain ⟨a,tried,inside⟩ := List.mem_flatMap.mp member
  refine Wal.loggable_attempt ?_ ?_ e inside
  · obtain ⟨-,-,below⟩ := List.pairwise_append.mp (List.pairwise_cons.mp p.counted).2
    have named : a.id ∈ p.returned.map Prod.fst ++ [p.last.1] := p.ids_eq ▸ List.mem_map_of_mem tried
    rcases List.mem_append.mp named with earlier | last
    · exact (below a.id earlier p.last.1 (List.mem_singleton_self _)).trans p.bounded
    · exact List.mem_singleton.mp last ▸ p.bounded
  · rcases List.mem_append.mp tried with earlier | last
    · obtain ⟨c,-,rfl⟩ := List.mem_map.mp earlier
      exact Wal.attempt_fits
    · rw [List.mem_singleton.mp last]
      exact fun op held => Wal.attempt_fits op (List.mem_of_mem_take held)

end Process

theorem Lifetimes.wal {processes : List Process} {i : Image} (lived : Lifetimes processes i) :
    i.wal = ((processes.flatMap Process.attempts).flatMap Attempt.entries).flatMap Wal.entryBytes := by
  induction lived with
  | start i empty => exact empty
  | next before opened p left ih =>
    rw [left,p.leaves_eq,open_wal opened,ih,List.flatMap_append,List.flatMap_singleton,List.flatMap_append,
      List.flatMap_append]

/-- `Open` applies the operations of the transactions that were committed, and no other, just when no process commits a
transaction under the number of one that an earlier process has left unfinished. -/
theorem uncommitted_unapplied_iff {processes : List Process} {i : Image} (lived : Lifetimes processes i) :
    (Wal.replay Wal.noting i.wal).exec [] =
        (.ok (),((processes.flatMap Process.attempts).flatMap Attempt.counted).map Wal.asCall) ↔
      processes.Pairwise fun p q => ∀ a ∈ p.attempts, ∀ b ∈ q.attempts, a.Apart b := by
  have loggable : ∀ e ∈ (processes.flatMap Process.attempts).flatMap Attempt.entries, Wal.Loggable e := by
    intro e member
    rw [List.flatMap_assoc] at member
    obtain ⟨p,-,inside⟩ := List.mem_flatMap.mp member
    exact p.loggable e inside
  -- Inside one process the numbers increase, so only pairs of processes remain.
  rw [lived.wal,Wal.replay_whole Wal.noting loggable,Wal.applyAll_noting,List.nil_append,Prod.mk.injEq,
    and_iff_right rfl,Wal.asCall_injective.list_map.eq_iff,applied_attempts,List.pairwise_flatMap,
    and_iff_right fun p _ => p.apart]

theorem Lifetimes.killed {processes : List Process} {i i' : Image} {p : Process} (lived : Lifetimes processes i)
    (dies : p.killed i = some i') : Lifetimes (processes ++ [p]) i' := by
  obtain ⟨s,opened,rfl⟩ := Option.map_eq_some_iff.mp dies
  exact lived.next (eq_ok_of_toOption opened) p rfl

theorem uncommitted_unapplied_other_number :
    let first : Process := ⟨[(1,[⟨[1],[2],false⟩])],(2,[⟨[3],[4],false⟩]),1,by decide,by decide⟩
    let second : Process := ⟨[(1,[⟨[5],[6],false⟩])],(2,[]),0,by decide,by decide⟩
    ∃ i, Lifetimes [first,second] i ∧
      (Wal.replay Wal.noting i.wal).exec [] = (.ok (),[(walPut,[1],[2]),(walPut,[5],[6])]) := by
  intro first second
  have runs : ((first.killed ⟨[],[],none⟩).bind second.killed).isSome = true := by decide +kernel
  obtain ⟨i,dies⟩ := Option.isSome_iff_exists.mp runs
  obtain ⟨middle,before,dies⟩ := Option.bind_eq_some_iff.mp dies
  have lived : Lifetimes [first,second] i := ((Lifetimes.start ⟨[],[],none⟩ rfl).killed before).killed dies
  exact ⟨i,lived,(uncommitted_unapplied_iff lived).mpr (by decide +kernel)⟩

/-- A first process is killed in transaction 1, before its commit record. The commit of transaction 1 of a second
process commits both for every later `Open`. -/
theorem uncommitted_applied :
    let first : Process := ⟨[],(1,[⟨[1],[2],false⟩]),1,by decide,by decide⟩
    let second : Process := ⟨[(1,[⟨[3],[4],false⟩])],(2,[]),0,by decide,by decide⟩
    first.attempts = [⟨1,[⟨[1],[2],false⟩],false⟩] ∧ second.attempts = [⟨1,[⟨[3],[4],false⟩],true⟩,⟨2,[],false⟩] ∧
      ∃ i s, Lifetimes [first,second] i ∧ (Store.open i).1 = .ok s ∧ s.get [1] = some [2] := by
  intro first second
  refine ⟨by decide +kernel,by decide +kernel,?_⟩
  have runs : (((first.killed ⟨[],[],none⟩).bind second.killed).bind fun i =>
      (Store.open i).1.toOption.bind fun s => s.get [1]) = some [2] := by decide +kernel
  obtain ⟨i,dies,opens⟩ := Option.bind_eq_some_iff.mp runs
  obtain ⟨middle,before,dies⟩ := Option.bind_eq_some_iff.mp dies
  obtain ⟨s,opened,found⟩ := Option.bind_eq_some_iff.mp opens
  exact ⟨i,s,((Lifetimes.start ⟨[],[],none⟩ rfl).killed before).killed dies,eq_ok_of_toOption opened,found⟩

end GoDb.Store
