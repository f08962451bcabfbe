import GoDb.NotNull
import GoDb.References

/-! Times that are stored. A TIMESTAMP column has the nanoseconds since 1970 in 64 bits, so
a time comes back as it was from 1677 to 2262 and as another one otherwise. The zero time,
which ADD COLUMN writes, is of the year 1. -/
namespace GoDb
open Foundation Outcome

def Time.Fits (ns : Int) : Prop := -2^63 ≤ ns ∧ ns < 2^63

instance (ns : Int) : Decidable (Time.Fits ns) := inferInstanceAs (Decidable (_ ∧ _))

theorem Time.unixNano_iff (ns : Int) : (Time.unixNano ns).toInt = ns ↔ Time.Fits ns := by
  constructor
  · intro same
    have low := Int64.le_toInt (Time.unixNano ns)
    have high := Int64.toInt_lt (Time.unixNano ns)
    rw [same] at low high
    exact ⟨low,high⟩
  · rintro ⟨low,high⟩
    exact Int64.toInt_ofInt_of_le low high

theorem Value.stored_time_iff (ns : Int) : (Value.time ns).stored .timestamp = .time ns ↔ Time.Fits ns := by
  rw [← Time.unixNano_iff]
  exact Value.time.injEq _ _ ▸ Iff.rfl

namespace Schema

variable {s : Schema} {c : Column} {name : Bytes} {v : Value}

theorem insertRow_lookup {given : List (Bytes × Value)} (absent : name ∉ given.map Prod.fst) {row out : Row}
    (made : s.insertRow given row = .ok out) : out.lookup name = row.lookup name := by
  induction given generalizing row with
  | nil => rw [← Except.ok.inj made]
  | cons e given ih =>
    obtain ⟨n,v⟩ := e
    obtain ⟨other,absent⟩ := not_or.mp (mt List.mem_cons.mpr absent)
    unfold insertRow at made
    split at made
    · rw [ih absent made,SortedMap.lookup_insert,if_neg other]
    · split at made
      · cases made
      · rw [ih absent made,SortedMap.lookup_insert,if_neg other]

theorem insertRow_given {given : List (Bytes × Value)} (distinct : (given.map Prod.fst).Nodup) (member : (name,v) ∈ given)
    (named : s.columnNamed name = some c) {row out : Row} (made : s.insertRow given row = .ok out) :
    ∃ w, coerceValue v c.type = .ok w ∧ out.lookup name = some w := by
  induction given generalizing row with
  | nil => cases member
  | cons e given ih =>
    obtain ⟨n,u⟩ := e
    obtain ⟨fresh,rest⟩ := List.nodup_cons.mp distinct
    unfold insertRow at made
    rcases List.mem_cons.mp member with same | later
    · obtain ⟨rfl,rfl⟩ := Prod.mk.inj same
      rw [named] at made
      dsimp only at made
      split at made
      · cases made
      · rename_i w coerced
        refine ⟨w,coerced,?_⟩
        rw [insertRow_lookup fresh made,SortedMap.lookup_insert,if_pos rfl]
    · split at made
      · exact ih rest later made
      · split at made
        · cases made
        · exact ih rest later made

theorem get_stored_time (valid : s.validate = .ok ()) (member : c ∈ s.columns) (type : c.type = .timestamp) {row : Row} {ns : Int}
    (value : row.get c.name = .time ns) : (s.stored row).get c.name = .time ns ↔ Time.Fits ns := by
  rw [Row.get,lookup_stored (distinct_of_validate valid) member,Option.getD_some,value,type]
  exact Value.stored_time_iff ns

end Schema

namespace Executor

variable {e e' : Executor} {t : Nat} {ord : Order} {c : Column} {ns : Int} {v : Value} {r : Result}

theorem keyedRow_lookup {given row : Row} {name : Bytes} {w : Value} (keyed : e.keyedRow ord t given = .ok row)
    (there : given.lookup name = some w) : row.lookup name = some w := by
  unfold keyedRow at keyed
  dsimp only at keyed
  split at keyed
  · rw [← Except.ok.inj keyed]
    exact there
  · rename_i absent
    split_ifs at keyed
    split at keyed
    · cases keyed
    · rw [← Except.ok.inj keyed,SortedMap.lookup_insert,if_neg]
      · exact there
      · rintro rfl
        rw [absent] at there
        cases there

/-- The value that a statement gives for a TIMESTAMP column comes back as the same instant if and only if its
nanoseconds are within 64 bits. The zero time of ADD COLUMN never does. -/
theorem timestamps_survive_iff (closed : e.tx = none) (ok : e.Ok) :
    (∀ ord (q : Insert) r e' t c v ns, (executeStatement ord (.insert q)).exec e = (.ok r,e') →
      e.table q.table = .ok t → ((q.columns.zip q.values).map Prod.fst).Nodup → (c.name,v) ∈ q.columns.zip q.values →
      (e.db.table t).schema.columnNamed c.name = some c → c.type = .timestamp →
      coerceValue v .timestamp = .ok (.time ns) →
      ∃ row, (e'.db.table t).Holds row ∧
        (∀ other, (e'.db.table t).Holds other → other = row ∨ (e.db.table t).Holds other) ∧
        (row.get c.name = .time ns ↔ Time.Fits ns)) ∧
    (∀ ord (q : Update) r e' t c v ns, (executeStatement ord (.update q)).exec e = (.ok r,e') →
      e.table q.table = .ok t → q.set.lookup c.name = some v →
      (e.db.table t).schema.columnNamed c.name = some c → c.type = .timestamp →
      coerceValue v .timestamp = .ok (.time ns) →
      ∀ row, (e'.db.table t).Holds row → (e.db.table t).Holds row ∨ (row.get c.name = .time ns ↔ Time.Fits ns)) ∧
    ∀ q r e' t c, (alter q).exec e = (.ok r,e') → e.table q.table = .ok t → (e.db.table t).Printed →
      q.action = .add c → c.type = .timestamp →
      ∀ row, (e'.db.table t).Holds row → row.get c.name ≠ ColumnType.zero .timestamp := by
  refine ⟨?_,?_,?_⟩
  · intro ord q r e' t c v ns done found distinct given named type accepted
    have inside := ok.db.registered _ _ (lookup_of_table found)
    have legible := (ok.db.sound t inside).legible
    obtain ⟨t',row,new,table,found',made,keyed,-,inserted,rfl⟩ := insert_success closed done
    obtain rfl := Except.ok.inj (found.symm.trans found')
    have column := List.mem_of_find?_eq_some named
    obtain ⟨w,coerced,there⟩ := Schema.insertRow_given distinct given named made
    rw [type] at coerced
    obtain rfl := Except.ok.inj (accepted.symm.trans coerced)
    have value : new.get c.name = .time ns := by rw [Row.get,keyedRow_lookup keyed there]; rfl
    rw [Db.table_withTable_self inside]
    refine ⟨(e.db.table t).schema.stored new,?_,?_,Schema.get_stored_time legible.valid column type value⟩
    · exact Table.insert_live legible inserted
    · intro other live
      exact (Table.insert_holds legible inserted live).symm
  · intro ord q r e' t c v ns done found given named type accepted row live
    have inside := ok.db.registered _ _ (lookup_of_table found)
    have legible := (ok.db.sound t inside).legible
    obtain ⟨set,made,ran,-⟩ := update_success closed inside found legible.scan done
    have column := List.mem_of_find?_eq_some named
    apply (Table.updateEach_holds legible ran live).imp_right
    rintro ⟨old,-,rfl⟩
    apply Schema.get_stored_time legible.valid column type
    obtain ⟨d,w,named',coerced,there⟩ := Schema.updateSet_value given made
    obtain rfl := Option.some.inj (named.symm.trans named')
    rw [type] at coerced
    obtain rfl := Except.ok.inj (accepted.symm.trans coerced)
    rw [Row.get,SortedMap.lookup_insertAll,there]
    rfl
  · intro q r e' t c done found printed adds type row live
    have inside := ok.db.registered _ _ (lookup_of_table found)
    have legible := (ok.db.sound t inside).legible
    obtain ⟨table,altered,rfl⟩ := alter_success found done
    rw [adds] at altered
    have altered := Table.alter_done legible altered
    have keeps := Schema.keepsKey_altered legible.columns altered.valid fun _ drops => by cases drops
    obtain ⟨rows,scanned,member⟩ := live
    rw [Db.table_withTable_self inside,altered.scan_kept legible keeps printed] at scanned
    obtain rfl := Except.ok.inj scanned
    obtain ⟨entry,there,rfl⟩ := List.mem_map.mp member
    rw [Schema.stored_added_zero legible.valid altered.valid (legible.held there),Row.get,SortedMap.lookup_insert,if_pos rfl,type]
    decide

end Executor

namespace Sample

def dates : Executor := (server [(1,create "u" .timestamp)]).executor 1

def date (text : String) : Insert := ⟨ascii "u",[ascii "id",ascii "a"],[.int 1,.string (ascii text)]⟩

end Sample

namespace Executor

theorem timestamps_survive_millennium : ∃ row,
    (((executeStatement .stored (.insert (Sample.date "2000-01-01T00:00:00Z"))).exec Sample.dates).2.db.table 0).Holds row ∧
      row.get (ascii "a") = .time (946684800 * 10^9) := by
  obtain ⟨row,live,-,same⟩ := (timestamps_survive_iff (e := Sample.dates) rfl ((Sample.server_ok _).executor 1)).1
    .stored (Sample.date "2000-01-01T00:00:00Z") {Result.empty with affected := 1} _ 0 ⟨ascii "a",.timestamp⟩
    (.string (ascii "2000-01-01T00:00:00Z")) (946684800 * 10^9) (exec_of_toOption (by decide +kernel)) (by decide +kernel)
    (by decide +kernel) (by decide +kernel) (by decide +kernel) rfl (by decide +kernel)
  exact ⟨row,live,same.mpr (by decide)⟩

/-- The first second of the year 2300 comes back in the year 1715. -/
theorem timestamp_changes :
    Time.parse (ascii "2300-01-01T00:00:00Z") = some (10413792000 * 10^9) ∧
      ((((executeStatement .stored (.insert (Sample.date "2300-01-01T00:00:00Z"))).exec Sample.dates).2.db.table 0).scan.map
        fun rows => rows.map fun row => (row.get (ascii "a")).sprint) =
          .ok [ascii "1715-06-13 00:25:26.290448384 +0000 UTC"] := by
  decide +kernel

end Executor
end GoDb
