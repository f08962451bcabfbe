import Mathlib.Data.List.Basic

/-! Bits in a list of bytes, the lowest bit of a byte first. -/
namespace GoDb.Foundation.Bitmap

def mask (i : Nat) : UInt8 := (1 : UInt8) <<< UInt8.ofNat (i % 8)

def set (bits : List UInt8) (i : Nat) : List UInt8 := bits.modify (i / 8) (· ||| mask i)

def test (bits : List UInt8) (i : Nat) : Bool := bits.getD (i / 8) 0 &&& mask i != 0

@[simp] theorem length_set (bits : List UInt8) (i : Nat) : (set bits i).length = bits.length :=
  List.length_modify _ _ _

private theorem mask_fin : ∀ i j : Fin 8, mask i &&& mask j = (if i = j then mask j else 0) ∧ mask j ≠ 0 := by
  decide

private theorem mask_mod (i : Nat) : mask i = mask (i % 8) := by
  simp [mask]

private theorem mask_and_mask (i j : Nat) : mask i &&& mask j = if i % 8 = j % 8 then mask j else 0 := by
  have both := (mask_fin ⟨i % 8,Nat.mod_lt _ (by decide)⟩ ⟨j % 8,Nat.mod_lt _ (by decide)⟩).1
  simpa [← mask_mod] using both

private theorem mask_ne_zero (i : Nat) : mask i ≠ 0 := by
  rw [mask_mod]
  exact (mask_fin 0 ⟨i % 8,Nat.mod_lt _ (by decide)⟩).2

private theorem or_mask (b : UInt8) (i j : Nat) :
    ((b ||| mask i) &&& mask j != 0) = (decide (i % 8 = j % 8) || b &&& mask j != 0) := by
  have split : (b ||| mask i) &&& mask j = (b &&& mask j) ||| (mask i &&& mask j) := by
    rw [← UInt8.toNat_inj]
    simp only [UInt8.toNat_and,UInt8.toNat_or,Nat.and_or_distrib_right]
  rw [split,mask_and_mask]
  split_ifs with same
  · simp [same,UInt8.or_eq_zero_iff,mask_ne_zero]
  · simp [same]

theorem test_set {bits : List UInt8} {i : Nat} (inside : i < 8 * bits.length) (j : Nat) :
    test (set bits i) j = (decide (i = j) || test bits j) := by
  unfold test set
  rw [List.getD_eq_getElem?_getD,List.getElem?_modify]
  by_cases byte : i / 8 = j / 8
  · have found : i / 8 < bits.length := by omega
    have place : (i % 8 = j % 8) ↔ i = j := by omega
    rw [← byte,List.getD_eq_getElem?_getD,List.getElem?_eq_getElem found]
    simp [or_mask,place]
  · have other : i ≠ j := fun same => byte (same ▸ rfl)
    simp [byte,other]

@[simp] theorem test_replicate (n i : Nat) : test (List.replicate n 0) i = false := by
  unfold test
  rw [List.getD_eq_getElem?_getD,List.getElem?_replicate]
  split_ifs <;> simp

private theorem byte_bits : ∀ n : Fin 256,
    (List.range 8).foldl (fun b i => b + (if UInt8.ofNat n &&& mask i != 0 then mask i else 0)) 0 = UInt8.ofNat n := by
  decide +kernel

private theorem byte_ext {a b : UInt8} (same : ∀ i < 8, (a &&& mask i != 0) = (b &&& mask i != 0)) : a = b := by
  have whole (c : UInt8) : (List.range 8).foldl (fun b i => b + (if c &&& mask i != 0 then mask i else 0)) 0 = c := by
    have bits := byte_bits ⟨c.toNat,c.toNat_lt⟩
    rwa [UInt8.ofNat_toNat] at bits
  rw [← whole a,← whole b]
  apply List.foldl_ext
  intro acc i member
  rw [same i (List.mem_range.mp member)]

theorem ext {bits bits' : List UInt8} (length : bits.length = bits'.length)
    (same : ∀ i < 8 * bits.length, test bits i = test bits' i) : bits = bits' := by
  apply List.ext_getElem length
  intro i inside inside'
  apply byte_ext
  intro j small
  have here := same (8 * i + j) (by omega)
  have byte : (8 * i + j) / 8 = i := by omega
  have place : mask (8 * i + j) = mask j := by
    rw [mask_mod,mask_mod j]
    congr 1
    omega
  unfold test at here
  rwa [byte,place,List.getD_eq_getElem?_getD,List.getD_eq_getElem?_getD,List.getElem?_eq_getElem inside,
    List.getElem?_eq_getElem inside'] at here

/-- The bits from `n` on are cleared in the byte that holds bit `n`, when there is one that holds lower bits as well. -/
def clearFrom (bits : List UInt8) (n : Nat) : List UInt8 :=
  if n % 8 = 0 then bits else bits.modify (n / 8) (· &&& (mask n - 1))

@[simp] theorem length_clearFrom (bits : List UInt8) (n : Nat) : (clearFrom bits n).length = bits.length := by
  unfold clearFrom
  split_ifs
  · rfl
  · exact List.length_modify _ _ _

private theorem low_fin : ∀ i j : Fin 8, (mask i - 1) &&& mask j = if j < i then mask j else 0 := by
  decide

private theorem and_low (b : UInt8) (i j : Nat) :
    (b &&& (mask i - 1)) &&& mask j = if j % 8 < i % 8 then b &&& mask j else 0 := by
  have low := low_fin ⟨i % 8,Nat.mod_lt _ (by decide)⟩ ⟨j % 8,Nat.mod_lt _ (by decide)⟩
  simp only [← mask_mod,Fin.mk_lt_mk] at low
  rw [UInt8.and_assoc,low]
  split_ifs
  · rfl
  · exact UInt8.and_zero

theorem test_clearFrom {bits : List UInt8} {n : Nat} (enough : bits.length = (n + 7) / 8) {j : Nat}
    (inside : j < 8 * bits.length) : test (clearFrom bits n) j = (decide (j < n) && test bits j) := by
  unfold clearFrom
  split_ifs with whole
  · have before : j < n := by omega
    simp [before]
  · unfold test
    rw [List.getD_eq_getElem?_getD,List.getElem?_modify,List.getD_eq_getElem?_getD]
    by_cases byte : n / 8 = j / 8
    · have found : j / 8 < bits.length := by omega
      have place : (j % 8 < n % 8) ↔ j < n := by omega
      rw [List.getElem?_eq_getElem found]
      simp only [byte,if_true,Option.map_eq_map,Option.map_some,Option.getD_some,and_low,place]
      by_cases before : j < n <;> simp [before]
    · have before : j < n := by omega
      simp [byte,before]

theorem clearFrom_append {bits : List UInt8} {n : Nat} (enough : bits.length = (n + 7) / 8) (rest : List UInt8) :
    clearFrom (bits ++ rest) n = clearFrom bits n ++ rest := by
  unfold clearFrom
  split_ifs with whole
  · rfl
  · apply List.ext_getElem?
    intro i
    rw [List.getElem?_modify,List.getElem?_append,List.getElem?_append,List.length_modify,List.getElem?_modify]
    by_cases inside : i < bits.length
    · rw [if_pos inside,if_pos inside]
    · have other : n / 8 ≠ i := by omega
      simp [inside,other]

end GoDb.Foundation.Bitmap
