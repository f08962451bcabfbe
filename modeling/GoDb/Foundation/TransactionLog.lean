import Mathlib.Data.List.Basic
import Mathlib.Data.List.Induction
import Mathlib.Logic.Function.Basic

/-! Logs of operations that count at once, and of transactions whose operations count when
a commit entry follows. Until then they are held back under the name of the transaction. -/
namespace GoDb.Foundation.TransactionLog

variable {ι α : Type}

inductive Entry (ι α : Type)
  | plain (a : α)
  | member (id : ι) (a : α)
  | commit (id : ι)
  deriving DecidableEq

/-- What a transaction has logged, the commit entry included or not. -/
structure Attempt (ι α : Type) where
  id : ι
  ops : List α
  committed : Bool
  deriving DecidableEq

namespace Attempt

def entries (a : Attempt ι α) : List (Entry ι α) :=
  a.ops.map (.member a.id) ++ if a.committed then [.commit a.id] else []

def counted (a : Attempt ι α) : List α := if a.committed then a.ops else []

def left (a : Attempt ι α) : List α := if a.committed then [] else a.ops

def stop (a : Attempt ι α) (n : Nat) : Attempt ι α := ⟨a.id,a.ops.take n,a.committed && a.ops.length < n⟩

theorem entries_stop (a : Attempt ι α) (n : Nat) : (a.stop n).entries = a.entries.take n := by
  rcases a with ⟨id,ops,_ | _⟩
  · simp [entries,stop]
  · by_cases whole : ops.length < n
    · have same : stop ⟨id,ops,true⟩ n = ⟨id,ops,true⟩ := by simp [stop,whole,List.take_of_length_le (Nat.le_of_lt whole)]
      rw [same,List.take_of_length_le (by simp [entries]; omega)]
    · simp [entries,stop,whole,List.take_append,Nat.sub_eq_zero_of_le (Nat.le_of_not_lt whole)]

end Attempt

inductive LogCall (ι α : Type)
  | one (a : α)
  | batch (id : ι) (ops : List α)
  deriving DecidableEq

def LogCall.entries : LogCall ι α → List (Entry ι α)
  | .one a => [.plain a]
  | .batch id ops => Attempt.entries ⟨id,ops,true⟩

def LogCall.ops : LogCall ι α → List α
  | .one a => [a]
  | .batch _ ops => ops

/-- What counts of a log that was cut behind `n` entries: each call all of whose entries are left. -/
def survived : List (LogCall ι α) → Nat → List α
  | [],_ => []
  | r::calls,n =>
    if r.entries.length ≤ n then r.ops ++ survived calls (n - r.entries.length) else []

variable [DecidableEq ι]

def Entry.applied (held : ι → List α) : Entry ι α → List α
  | .plain a => [a]
  | .member _ _ => []
  | .commit id => held id

def Entry.held (held : ι → List α) : Entry ι α → ι → List α
  | .plain _ => held
  | .member id a => Function.update held id (held id ++ [a])
  | .commit id => Function.update held id []

def applied : (ι → List α) → List (Entry ι α) → List α
  | _,[] => []
  | held,e::log => e.applied held ++ applied (e.held held) log

def held (start : ι → List α) (log : List (Entry ι α)) : ι → List α := log.foldl Entry.held start

theorem applied_append (start : ι → List α) (first second : List (Entry ι α)) :
    applied start (first ++ second) = applied start first ++ applied (held start first) second := by
  induction first generalizing start with
  | nil => rfl
  | cons e first ih =>
    rw [List.cons_append,applied,applied,ih,List.append_assoc]
    rfl

theorem held_append (start : ι → List α) (first second : List (Entry ι α)) :
    held start (first ++ second) = held (held start first) second := List.foldl_append

def Entry.commits (id : ι) : Entry ι α → Bool
  | .commit id' => id' = id
  | _ => false

def Entry.under (id : ι) : Entry ι α → Option α
  | .member id' a => if id' = id then some a else none
  | _ => none

def since (id : ι) (log : List (Entry ι α)) : List α :=
  ((log.reverse.takeWhile fun e => !e.commits id).reverse).filterMap (Entry.under id)

def counted (log : List (Entry ι α)) : List α :=
  (List.range log.length).flatMap fun i => log[i]?.elim [] (Entry.applied fun id => since id (log.take i))

theorem since_concat (id : ι) (log : List (Entry ι α)) (e : Entry ι α) :
    since id (log ++ [e]) = if e.commits id then [] else since id log ++ (e.under id).toList := by
  unfold since
  rw [List.reverse_append,List.reverse_singleton,List.singleton_append,List.takeWhile_cons]
  cases commits : e.commits id with
  | true => rfl
  | false =>
    simp only [Bool.not_false,if_true,List.reverse_cons,List.filterMap_append]
    cases under : e.under id <;> simp [under]

theorem held_eq_since (log : List (Entry ι α)) : held (fun _ => []) log = fun id => since id log := by
  induction log using List.reverseRecOn with
  | nil => rfl
  | append_singleton log e ih =>
    funext id
    rw [since_concat,held_append,ih]
    cases e with
    | plain a => simp [held,Entry.held,Entry.commits,Entry.under]
    | member id' a =>
      by_cases same : id' = id
      · subst same
        simp [held,Entry.held,Entry.commits,Entry.under]
      · simp [held,Entry.held,Entry.commits,Entry.under,Function.update_of_ne (Ne.symm same),same]
    | commit id' =>
      by_cases same : id' = id
      · subst same
        simp [held,Entry.held,Entry.commits]
      · simp [held,Entry.held,Entry.commits,Entry.under,Function.update_of_ne (Ne.symm same),same]

theorem applied_eq_counted (log : List (Entry ι α)) : applied (fun _ => []) log = counted log := by
  induction log using List.reverseRecOn with
  | nil => rfl
  | append_singleton log e ih =>
    rw [applied_append,ih,held_eq_since,counted,counted,List.length_append,List.length_singleton,List.range_succ,
      List.flatMap_append,List.flatMap_singleton]
    congr 1
    · apply List.flatMap_congr
      intro i member
      have inside := List.mem_range.mp member
      rw [List.getElem?_append_left inside,List.take_append_of_le_length (Nat.le_of_lt inside)]
    · rw [List.getElem?_concat_length,List.take_left,Option.elim_some,applied,applied,List.append_nil]

theorem applied_members (start : ι → List α) (id : ι) (ops : List α) : applied start (ops.map (.member id)) = [] := by
  induction ops generalizing start with
  | nil => rfl
  | cons a ops ih => exact ih _

theorem held_members (start : ι → List α) (id : ι) (ops : List α) :
    held start (ops.map (.member id)) = Function.update start id (start id ++ ops) := by
  induction ops generalizing start with
  | nil => simp [held]
  | cons a ops ih =>
    have next : held start (.member id a::ops.map (.member id)) =
        held (Function.update start id (start id ++ [a])) (ops.map (.member id)) := rfl
    rw [List.map_cons,next,ih]
    simp

namespace Attempt

theorem applied_entries (start : ι → List α) (a : Attempt ι α) :
    applied start a.entries = (if a.committed then start a.id else []) ++ a.counted := by
  rw [entries,applied_append,applied_members,held_members]
  rcases a with ⟨id,ops,_ | _⟩ <;> simp [applied,Entry.applied,counted]

theorem held_entries (start : ι → List α) (a : Attempt ι α) :
    held start a.entries = Function.update start a.id (if a.committed then [] else start a.id ++ a.left) := by
  rw [entries,held_append,held_members]
  rcases a with ⟨id,ops,_ | _⟩ <;> simp [held,Entry.held,left]

end Attempt

namespace LogCall

theorem applied_entries (r : LogCall ι α) : applied (fun _ => []) r.entries = r.ops ∧
    held (fun _ => []) r.entries = fun _ => [] := by
  cases r with
  | one a => exact ⟨rfl,rfl⟩
  | batch id ops =>
    refine ⟨Attempt.applied_entries _ ⟨id,ops,true⟩,(Attempt.held_entries _ ⟨id,ops,true⟩).trans ?_⟩
    exact Function.update_eq_self _ _

theorem applied_take (r : LogCall ι α) {n : Nat} (cut : n < r.entries.length) :
    applied (fun _ => []) (r.entries.take n) = [] := by
  cases r with
  | one a =>
    obtain rfl := Nat.lt_one_iff.mp cut
    rfl
  | batch id ops =>
    have unfinished : ¬ops.length < n := by
      simp [entries,Attempt.entries] at cut
      omega
    rw [entries,← Attempt.entries_stop,Attempt.applied_entries]
    simp [Attempt.stop,Attempt.counted,unfinished]

end LogCall

theorem applied_take (calls : List (LogCall ι α)) (n : Nat) :
    applied (fun _ => []) ((calls.flatMap LogCall.entries).take n) = survived calls n := by
  induction calls generalizing n with
  | nil =>
    rw [List.flatMap_nil,List.take_nil]
    rfl
  | cons r calls ih =>
    obtain ⟨whole,nothing⟩ := r.applied_entries
    rw [List.flatMap_cons,List.take_append,survived]
    split_ifs with fits
    · rw [List.take_of_length_le fits,applied_append,whole,nothing,ih]
    · rw [Nat.sub_eq_zero_of_le (by omega),List.take_zero,List.append_nil]
      exact r.applied_take (by omega)

theorem applied_calls (calls : List (LogCall ι α)) :
    applied (fun _ => []) (calls.flatMap LogCall.entries) = calls.flatMap LogCall.ops := by
  induction calls with
  | nil => rfl
  | cons r calls ih =>
    obtain ⟨whole,nothing⟩ := r.applied_entries
    rw [List.flatMap_cons,applied_append,whole,nothing,ih,List.flatMap_cons]

/-- The second transaction does not let through what the first has left. -/
def Attempt.Apart (a b : Attempt ι α) : Prop := b.committed = true → b.id = a.id → a.left = []

instance [DecidableEq α] (a b : Attempt ι α) : Decidable (a.Apart b) := inferInstanceAs (Decidable (_ → _ → _))

private theorem append_eq_iff {front first second : List α} (longer : second.length ≤ first.length) (counted : List α) :
    front ++ counted ++ first = counted ++ second ↔ front = [] ∧ first = second := by
  constructor
  · intro equal
    have lengths := congrArg List.length equal
    simp only [List.length_append] at lengths
    obtain rfl : front = [] := List.length_eq_zero_iff.mp (by omega)
    exact ⟨rfl,List.append_cancel_left equal⟩
  · rintro ⟨rfl,rfl⟩
    rfl

private theorem held_apart_iff {start : ι → List α} {a b : Attempt ι α} (unfinished : a.committed = false) :
    (b.committed = true → held start a.entries b.id = []) ↔
      (b.committed = true → start b.id = []) ∧ a.Apart b := by
  rw [a.held_entries,unfinished,Attempt.Apart,← forall_and,Function.update_apply]
  refine forall_congr' fun _ => ?_
  by_cases same : b.id = a.id <;> simp [same]

/-- What transactions let through is theirs at least, and theirs alone just when none commits under a name
that has something held back at the start or left by an earlier one. -/
private theorem applied_attempts_from (start : ι → List α) (attempts : List (Attempt ι α)) :
    (attempts.flatMap Attempt.counted).length ≤ (applied start (attempts.flatMap Attempt.entries)).length ∧
      (applied start (attempts.flatMap Attempt.entries) = attempts.flatMap Attempt.counted ↔
        (∀ a ∈ attempts, a.committed = true → start a.id = []) ∧ attempts.Pairwise Attempt.Apart) := by
  induction attempts generalizing start with
  | nil => exact ⟨Nat.le_refl _,fun _ => ⟨List.forall_mem_nil _,.nil⟩,fun _ => rfl⟩
  | cons a attempts ih =>
    obtain ⟨more,same⟩ := ih (held start a.entries)
    rw [List.flatMap_cons,List.flatMap_cons,applied_append,a.applied_entries,append_eq_iff more,same,
      List.forall_mem_cons,List.pairwise_cons]
    refine ⟨by simp only [List.length_append]; omega,?_⟩
    cases kind : a.committed with
    | true =>
      -- nothing was held back, and nothing is left
      have apart : ∀ b ∈ attempts, a.Apart b := fun b _ _ _ => by simp [Attempt.left,kind]
      have kept (none : start a.id = []) : held start a.entries = start := by
        rw [a.held_entries,kind,if_pos rfl,← none,Function.update_eq_self]
      simp only [if_true,and_iff_right apart,true_implies,and_assoc]
      exact and_congr_right fun none => by rw [kept none]
    | false =>
      simp only [held_apart_iff kind,forall₂_and]
      simp [and_assoc]

theorem applied_attempts (attempts : List (Attempt ι α)) :
    applied (fun _ => []) (attempts.flatMap Attempt.entries) = attempts.flatMap Attempt.counted ↔
      attempts.Pairwise Attempt.Apart := by
  rw [(applied_attempts_from _ attempts).2,and_iff_right fun _ _ _ => rfl]

end GoDb.Foundation.TransactionLog
