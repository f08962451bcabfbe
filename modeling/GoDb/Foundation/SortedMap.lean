import GoDb.Foundation.SortedEntries

/-! Finite maps over a linearly ordered key type, each with one representation: two
maps with the same lookups are equal. -/
namespace GoDb.Foundation

open SortedEntries

structure SortedMap (K V : Type) [LinearOrder K] where
  entries : List (K × V)
  increasing : Increasing entries

namespace SortedMap

variable {K V : Type} [LinearOrder K]

instance [DecidableEq V] : DecidableEq (SortedMap K V) := fun m m' =>
  decidable_of_iff (m.entries = m'.entries) ⟨fun same => by cases m; cases m'; cases same; rfl,congrArg entries⟩

def empty : SortedMap K V := ⟨[],List.Pairwise.nil⟩

instance : EmptyCollection (SortedMap K V) := ⟨empty⟩

def lookup (m : SortedMap K V) (key : K) : Option V := m.entries.lookup key

def insert (m : SortedMap K V) (key : K) (value : V) : SortedMap K V :=
  ⟨put key value m.entries,increasing_put m.increasing key value⟩

def erase (m : SortedMap K V) (key : K) : SortedMap K V :=
  ⟨remove key m.entries,increasing_remove m.increasing key⟩

def mapValues {W : Type} (f : V → W) (m : SortedMap K V) : SortedMap K W :=
  ⟨m.entries.map fun e => (e.1,f e.2),List.pairwise_map.mpr (m.increasing.imp fun less => less)⟩

def size (m : SortedMap K V) : Nat := m.entries.length

/-- The values one map has for the keys of the other go over its own. -/
def insertAll (m : SortedMap K V) (more : List (K × V)) : SortedMap K V :=
  more.foldl (fun m e => m.insert e.1 e.2) m

variable {m m' : SortedMap K V}

@[ext] theorem ext (same : ∀ key, m.lookup key = m'.lookup key) : m = m' := by
  have entries : m.entries = m'.entries := ext_lookup m.increasing m'.increasing same
  cases m
  cases m'
  cases entries
  rfl

theorem size_eq_zero : m.size = 0 ↔ m = ∅ := by
  constructor
  · intro zero
    obtain ⟨entries,increasing⟩ := m
    obtain rfl := List.length_eq_zero_iff.mp zero
    rfl
  · rintro rfl
    rfl

theorem mem_entries (e : K × V) : e ∈ m.entries ↔ m.lookup e.1 = some e.2 := mem_iff_lookup m.increasing e

@[simp] theorem lookup_empty (key : K) : (∅ : SortedMap K V).lookup key = none := rfl

@[simp] theorem lookup_insert (m : SortedMap K V) (key : K) (value : V) (k : K) :
    (m.insert key value).lookup k = if k = key then some value else m.lookup k :=
  lookup_put key value m.entries k

@[simp] theorem lookup_erase (m : SortedMap K V) (key : K) (k : K) :
    (m.erase key).lookup k = if k = key then none else m.lookup k :=
  lookup_remove key m.entries k

theorem lookup_insertAll_of_not_mem (m : SortedMap K V) {more : List (K × V)} {k : K} (absent : k ∉ more.map Prod.fst) :
    (m.insertAll more).lookup k = m.lookup k := by
  induction more generalizing m with
  | nil => rfl
  | cons e more ih =>
    obtain ⟨other,absent⟩ := not_or.mp (mt List.mem_cons.mpr absent)
    exact (ih _ absent).trans (by rw [lookup_insert,if_neg other])

theorem lookup_insertAll_of_mem (m : SortedMap K V) {more : List (K × V)} (distinct : (more.map Prod.fst).Nodup)
    {e : K × V} (member : e ∈ more) : (m.insertAll more).lookup e.1 = some e.2 := by
  induction more generalizing m with
  | nil => cases member
  | cons first more ih =>
    obtain ⟨fresh,rest⟩ := List.nodup_cons.mp distinct
    rcases List.mem_cons.mp member with rfl | member
    · exact (lookup_insertAll_of_not_mem _ fresh).trans (by rw [lookup_insert,if_pos rfl])
    · exact ih _ rest member

theorem lookup_insertAll (m : SortedMap K V) (more : SortedMap K V) (k : K) :
    (m.insertAll more.entries).lookup k = (more.lookup k).or (m.lookup k) := by
  rcases found : more.lookup k with _ | v
  · refine lookup_insertAll_of_not_mem m fun member => ?_
    obtain ⟨e,there,rfl⟩ := List.mem_map.mp member
    rw [mem_entries,found] at there
    cases there
  · exact lookup_insertAll_of_mem m (more.increasing.keys.imp ne_of_lt) (mem_entries (k,v) |>.mpr found)

theorem lookup_insertAll_of_agree (m : SortedMap K V) {more : List (K × V)} {g : K → Option V}
    (agree : ∀ e ∈ more, g e.1 = some e.2) {k : K} (member : k ∈ more.map Prod.fst) :
    (m.insertAll more).lookup k = g k := by
  induction more generalizing m with
  | nil => cases member
  | cons e more ih =>
    by_cases later : k ∈ more.map Prod.fst
    · exact ih _ (fun f there => agree f (List.mem_cons_of_mem e there)) later
    · rcases List.mem_cons.mp member with rfl | there
      · rw [agree e List.mem_cons_self]
        exact (lookup_insertAll_of_not_mem _ later).trans (by rw [lookup_insert,if_pos rfl])
      · exact absurd there later

theorem lookup_insertAll_ne_none (m : SortedMap K V) {more : List (K × V)} {k : K} (member : k ∈ more.map Prod.fst) :
    (m.insertAll more).lookup k ≠ none := by
  induction more generalizing m with
  | nil => cases member
  | cons e more ih =>
    by_cases later : k ∈ more.map Prod.fst
    · exact ih _ later
    · rcases List.mem_cons.mp member with rfl | there
      · change ((m.insert e.1 e.2).insertAll more).lookup e.1 ≠ none
        rw [lookup_insertAll_of_not_mem _ later,lookup_insert,if_pos rfl]
        exact Option.some_ne_none e.2
      · exact absurd there later

theorem entries_insertAll (m : SortedMap K V) (more : List (K × V)) :
    (m.insertAll more).entries = more.foldl (fun entries e => put e.1 e.2 entries) m.entries := by
  induction more generalizing m with
  | nil => rfl
  | cons e more ih => exact ih (m.insert e.1 e.2)

theorem insertAll_entries (m : SortedMap K V) : (∅ : SortedMap K V).insertAll m.entries = m := by
  have same : ((∅ : SortedMap K V).insertAll m.entries).entries = m.entries := by
    rw [entries_insertAll]
    exact foldl_put m.entries m.increasing
  rcases m with ⟨entries,increasing⟩
  generalize (∅ : SortedMap K V).insertAll entries = m' at same ⊢
  rcases m' with ⟨entries',increasing'⟩
  cases same
  rfl

@[simp] theorem lookup_mapValues {W : Type} (f : V → W) (m : SortedMap K V) (k : K) :
    (m.mapValues f).lookup k = (m.lookup k).map f := by
  rcases m with ⟨entries,increasing⟩
  change (entries.map fun e => (e.1,f e.2)).lookup k = (entries.lookup k).map f
  clear increasing
  induction entries with
  | nil => rfl
  | cons e entries ih =>
    rcases e with ⟨key,value⟩
    rw [List.map_cons,lookup_cons_ite,lookup_cons_ite,ih]
    split_ifs <;> rfl

end SortedMap
end GoDb.Foundation
