import Mathlib.Order.Lattice
import Mathlib.Data.List.Basic
import Mathlib.Logic.Function.Basic

/-! Finite maps kept as strictly increasing association lists, over any linearly
ordered key type. Two increasing lists with the same lookups are equal, so a
lookup specification determines the whole list. -/
namespace GoDb.Foundation.SortedEntries

variable {K V : Type} {entries more : List (K × V)} {key : K} {e : K × V}

section
variable [BEq K] [LawfulBEq K]

theorem lookup_none_of_ne (absent : ∀ e ∈ entries, e.1 ≠ key) : entries.lookup key = none := by
  rw [List.lookup_eq_none_iff]
  intro e member
  exact bne_iff_ne.mpr (absent e member).symm

theorem mem_of_lookup {value : V} (found : entries.lookup key = some value) : (key,value) ∈ entries := by
  obtain ⟨before,after,eq,-⟩ := List.lookup_eq_some_iff.mp found
  simp [eq]

end

variable [LinearOrder K]

def Increasing (entries : List (K × V)) : Prop := entries.Pairwise (fun a b => a.1 < b.1)

def put (key : K) (value : V) : List (K × V) → List (K × V)
  | [] => [(key,value)]
  | (k,v)::rest =>
    if key < k then (key,value)::(k,v)::rest
    else if key = k then (key,value)::rest
    else (k,v)::put key value rest

def remove (key : K) (entries : List (K × V)) : List (K × V) := entries.filter (fun e => e.1 ≠ key)

theorem mem_put {value : V} (member : e ∈ put key value entries) : e = (key,value) ∨ e ∈ entries := by
  induction entries with
  | nil => simpa [put] using member
  | cons head rest ih =>
    obtain ⟨k,v⟩ := head
    simp only [put] at member
    split_ifs at member with less same
    · simpa using member
    · rcases List.mem_cons.mp member with rfl | later
      · exact .inl rfl
      · exact .inr (List.mem_cons_of_mem _ later)
    · rcases List.mem_cons.mp member with rfl | later
      · exact .inr List.mem_cons_self
      · exact (ih later).imp id (List.mem_cons_of_mem _)

theorem increasing_put (sorted : Increasing entries) (key : K) (value : V) : Increasing (put key value entries) := by
  induction entries with
  | nil => simp [put,Increasing]
  | cons head rest ih =>
    obtain ⟨k,v⟩ := head
    obtain ⟨first,tail⟩ := List.pairwise_cons.mp sorted
    simp only [put]
    split_ifs with less same
    · refine List.pairwise_cons.mpr ⟨?_,sorted⟩
      intro e member
      rcases List.mem_cons.mp member with rfl | later
      · exact less
      · exact less.trans (first e later)
    · subst same
      exact List.pairwise_cons.mpr ⟨first,tail⟩
    · refine List.pairwise_cons.mpr ⟨?_,ih tail⟩
      intro e member
      rcases mem_put member with rfl | later
      · exact lt_of_le_of_ne (le_of_not_gt less) (Ne.symm same)
      · exact first e later

theorem increasing_remove (sorted : Increasing entries) (key : K) : Increasing (remove key entries) := sorted.filter _

theorem remove_head (sorted : Increasing (e::entries)) : remove e.1 (e::entries) = entries := by
  obtain ⟨smaller,-⟩ := List.pairwise_cons.mp sorted
  rw [remove,List.filter_cons_of_neg (by simp),List.filter_eq_self]
  exact fun d member => decide_eq_true (smaller d member).ne'

theorem Increasing.nodup (sorted : Increasing entries) : entries.Nodup :=
  sorted.imp (fun lt same => absurd (congrArg Prod.fst same) (ne_of_lt lt))

theorem Increasing.keys (sorted : Increasing entries) :
    (entries.map Prod.fst).Pairwise (· < ·) := List.pairwise_map.mpr sorted

theorem put_between (key : K) (value : V) (left middle right : List (K × V))
    (smaller : ∀ e ∈ left, e.1 < key) (larger : ∀ e ∈ right, key < e.1) :
    put key value (left ++ middle ++ right) = left ++ put key value middle ++ right := by
  induction left with
  | nil =>
    simp only [List.nil_append]
    induction middle with
    | nil =>
      cases right with
      | nil => rfl
      | cons head rest =>
        obtain ⟨k,v⟩ := head
        have less : key < k := larger (k,v) List.mem_cons_self
        simp [put,less]
    | cons head rest ih =>
      obtain ⟨k,v⟩ := head
      simp only [List.cons_append,put]
      split_ifs
      · rfl
      · rfl
      · rw [ih]
        rfl
  | cons head rest ih =>
    obtain ⟨k,v⟩ := head
    have less : k < key := smaller (k,v) List.mem_cons_self
    have step := ih (fun e member => smaller e (List.mem_cons_of_mem _ member))
    simp only [List.cons_append,put,not_lt_of_gt less,if_false,ne_of_gt less]
    rw [step]

theorem put_at {left right : List (K × V)} (sorted : Increasing (left ++ e::right)) (value : V) :
    put e.1 value (left ++ e::right) = left ++ (e.1,value)::right := by
  obtain ⟨-,behind,before⟩ := List.pairwise_append.mp sorted
  have smaller : ∀ d ∈ left, d.1 < e.1 := fun d member => before d member e List.mem_cons_self
  have larger : ∀ d ∈ right, e.1 < d.1 := (List.pairwise_cons.mp behind).1
  have between := put_between e.1 value left [e] right smaller larger
  simpa [put] using between

theorem remove_at {left right : List (K × V)} (sorted : Increasing (left ++ e::right)) :
    remove e.1 (left ++ e::right) = left ++ right := by
  obtain ⟨-,behind,before⟩ := List.pairwise_append.mp sorted
  have smaller : remove e.1 left = left :=
    List.filter_eq_self.mpr fun d member => decide_eq_true (before d member e List.mem_cons_self).ne
  rw [remove,List.filter_append]
  exact congrArg₂ (· ++ ·) smaller (remove_head behind)

theorem put_last (key : K) (value : V) (entries : List (K × V)) (smaller : ∀ e ∈ entries, e.1 < key) :
    put key value entries = entries ++ [(key,value)] := by
  simpa [put] using put_between key value entries [] [] smaller (by simp)

theorem foldl_put_append (start entries : List (K × V)) (sorted : Increasing (start ++ entries)) :
    entries.foldl (fun acc e => put e.1 e.2 acc) start = start ++ entries := by
  induction entries generalizing start with
  | nil => simp
  | cons e rest ih =>
    have smaller : ∀ x ∈ start, x.1 < e.1 := fun x member =>
      (List.pairwise_append.mp sorted).2.2 x member e List.mem_cons_self
    rw [List.foldl_cons,put_last _ _ _ smaller,ih]
    · simp
    · simpa using sorted

theorem foldl_put (entries : List (K × V)) (sorted : Increasing entries) :
    entries.foldl (fun acc e => put e.1 e.2 acc) [] = entries := by
  simpa using foldl_put_append [] entries sorted

theorem mem_keys_put {value : V} {k : K} :
    k ∈ (put key value entries).map Prod.fst ↔ k = key ∨ k ∈ entries.map Prod.fst := by
  induction entries with
  | nil => simp [put]
  | cons e entries ih =>
    rw [put]
    split_ifs with less same
    · simp
    · simp [same]
    · rw [List.map_cons,List.map_cons,List.mem_cons,List.mem_cons,ih]
      exact or_left_comm

theorem mem_keys_foldl_put {k : K} :
    k ∈ (more.foldl (fun acc e => put e.1 e.2 acc) entries).map Prod.fst ↔
      k ∈ entries.map Prod.fst ∨ k ∈ more.map Prod.fst := by
  induction more generalizing entries with
  | nil => simp
  | cons e more ih =>
    rw [List.foldl_cons,ih,mem_keys_put,List.map_cons,List.mem_cons,or_assoc,or_left_comm]

theorem increasing_foldl_put (sorted : Increasing entries) (more : List (K × V)) :
    Increasing (more.foldl (fun acc e => put e.1 e.2 acc) entries) := by
  induction more generalizing entries with
  | nil => exact sorted
  | cons e more ih => exact ih (increasing_put sorted e.1 e.2)

theorem foldl_put_same {new : List (K × V)} (sorted : Increasing entries)
    (keys : new.map Prod.fst = entries.map Prod.fst) : new.foldl (fun acc e => put e.1 e.2 acc) entries = new := by
  -- What is done stands in front.
  suffices general : ∀ left, Increasing (left ++ entries) →
      new.foldl (fun acc e => put e.1 e.2 acc) (left ++ entries) = left ++ new from general [] sorted
  clear sorted
  induction new generalizing entries with
  | nil =>
    obtain rfl := List.map_eq_nil_iff.mp keys.symm
    exact fun left _ => rfl
  | cons e new ih =>
    rcases entries with _ | ⟨d,entries⟩
    · cases keys
    · intro left sorted
      obtain ⟨same,rest⟩ := List.cons.inj keys
      have changed : put e.1 e.2 (left ++ d::entries) = (left ++ [e]) ++ entries := by
        rw [same,put_at sorted,← same,List.append_assoc]
        rfl
      have next := increasing_put sorted e.1 e.2
      rw [changed] at next
      rw [List.foldl_cons,changed,ih rest _ next,List.append_assoc]
      rfl

variable [BEq K] [LawfulBEq K]

theorem lookup_cons_ite (key : K) (value : V) (rest : List (K × V)) (k : K) :
    ((key,value)::rest).lookup k = if k = key then some value else rest.lookup k := by
  by_cases same : k = key
  · subst same
    simp
  · have test : (k == key) = false := beq_eq_false_iff_ne.mpr same
    simp only [List.lookup_cons,test,same,if_false]

theorem lookup_mapped {W : Type} (f : V → W) (entries : List (K × V)) (k : K) :
    (entries.map fun e => (e.1,f e.2)).lookup k = (entries.lookup k).map f := by
  induction entries with
  | nil => rfl
  | cons e entries ih =>
    obtain ⟨key,value⟩ := e
    rw [List.map_cons,lookup_cons_ite,lookup_cons_ite,ih]
    split_ifs <;> rfl

@[simp] theorem lookup_put (key : K) (value : V) (entries : List (K × V)) (k : K) :
    (put key value entries).lookup k = if k = key then some value else entries.lookup k := by
  induction entries with
  | nil => simp only [put,lookup_cons_ite]
  | cons head rest ih =>
    obtain ⟨k₁,v₁⟩ := head
    simp only [put]
    split_ifs with less same query query query
    all_goals simp_all [lookup_cons_ite]

@[simp] theorem lookup_remove (key : K) (entries : List (K × V)) (k : K) :
    (remove key entries).lookup k = if k = key then none else entries.lookup k := by
  induction entries with
  | nil => simp [remove]
  | cons head rest ih =>
    obtain ⟨k₁,v₁⟩ := head
    rw [lookup_cons_ite]
    by_cases same : k₁ = key
    · have dropped : remove key ((k₁,v₁)::rest) = remove key rest := by simp [remove,same]
      rw [dropped,ih]
      split_ifs <;> simp_all
    · have kept : remove key ((k₁,v₁)::rest) = (k₁,v₁)::remove key rest := by simp [remove,same]
      rw [kept,lookup_cons_ite,ih]
      split_ifs <;> simp_all

theorem lookup_of_mem (sorted : Increasing entries) (member : e ∈ entries) : entries.lookup e.1 = some e.2 := by
  induction entries with
  | nil => simp at member
  | cons head rest ih =>
    obtain ⟨first,tail⟩ := List.pairwise_cons.mp sorted
    rcases List.mem_cons.mp member with rfl | later
    · exact List.lookup_cons_self
    · have ne : e.1 ≠ head.1 := ne_of_gt (first e later)
      rw [show head = (head.1,head.2) from rfl,lookup_cons_ite,if_neg ne,ih tail later]

theorem mem_iff_lookup (sorted : Increasing entries) (e : K × V) : e ∈ entries ↔ entries.lookup e.1 = some e.2 :=
  ⟨lookup_of_mem sorted,mem_of_lookup⟩

theorem ext_lookup {first second : List (K × V)} (left : Increasing first) (right : Increasing second)
    (same : ∀ k, first.lookup k = second.lookup k) : first = second := by
  have perm : first.Perm second := by
    refine (List.perm_ext_iff_of_nodup left.nodup right.nodup).mpr ?_
    intro e
    rw [mem_iff_lookup left,mem_iff_lookup right,same]
  exact perm.eq_of_pairwise (fun a b _ _ lt gt => absurd (lt.trans gt) (lt_irrefl _)) left right

theorem remove_of_lookup_none (sorted : Increasing entries) (absent : entries.lookup key = none) :
    remove key entries = entries := by
  refine ext_lookup (increasing_remove sorted key) sorted fun k => ?_
  rw [lookup_remove]
  split_ifs with same
  · rw [same,absent]
  · rfl

theorem lookup_foldl_put_of_not_mem {k : K} (absent : k ∉ more.map Prod.fst) (entries : List (K × V)) :
    (more.foldl (fun acc e => put e.1 e.2 acc) entries).lookup k = entries.lookup k := by
  induction more generalizing entries with
  | nil => rfl
  | cons e more ih =>
    obtain ⟨other,absent⟩ := not_or.mp (mt List.mem_cons.mpr absent)
    rw [List.foldl_cons,ih absent,lookup_put,if_neg other]

theorem lookup_foldl_put_of_mem (distinct : (more.map Prod.fst).Nodup) (member : e ∈ more) (entries : List (K × V)) :
    (more.foldl (fun acc e => put e.1 e.2 acc) entries).lookup e.1 = some e.2 := by
  induction more generalizing entries with
  | nil => cases member
  | cons d more ih =>
    obtain ⟨fresh,distinct⟩ := List.nodup_cons.mp distinct
    rcases List.mem_cons.mp member with rfl | member
    · rw [List.foldl_cons,lookup_foldl_put_of_not_mem fresh,lookup_put,if_pos rfl]
    · exact ih distinct member _

end GoDb.Foundation.SortedEntries
