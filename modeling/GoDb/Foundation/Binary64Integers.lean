import GoDb.Foundation.Binary64

/-! Integers as floating-point numbers. Rounding keeps their order, up to those that become
equal, and integers of at most 53 bits are exact: so are their sums within the same bounds. -/
namespace GoDb.Foundation.Binary64

def nearest (n d : Nat) : Nat := if d < 2 * (n % d) ∨ d = 2 * (n % d) ∧ n / d % 2 = 1 then n / d + 1 else n / d

theorem nearest_low (n d : Nat) : n / d ≤ nearest n d := by
  unfold nearest
  split_ifs
  · exact Nat.le_succ _
  · exact Nat.le_refl _

theorem nearest_high (n d : Nat) : nearest n d ≤ n / d + 1 := by
  unfold nearest
  split_ifs
  · exact Nat.le_refl _
  · exact Nat.le_succ _

variable {n : Nat} {i : Int}

theorem nearest_of_dvd {d : Nat} (positive : 0 < d) (divides : d ∣ n) : nearest n d = n / d := by
  unfold nearest
  rw [if_neg]
  rw [Nat.mod_eq_zero_of_dvd divides]
  omega

theorem nearest_scale (n d : Nat) {k : Nat} (positive : 0 < k) : nearest (k * n) (k * d) = nearest n d := by
  unfold nearest
  have above : k * d < 2 * (k * (n % d)) ↔ d < 2 * (n % d) := by
    rw [Nat.mul_left_comm]
    exact Nat.mul_lt_mul_left positive
  have tie : k * d = 2 * (k * (n % d)) ↔ d = 2 * (n % d) := by
    rw [Nat.mul_left_comm]
    exact Nat.mul_right_inj positive.ne'
  rw [Nat.mul_mod_mul_left,Nat.mul_div_mul_left _ _ positive]
  simp only [above,tie]

theorem nearest_mono {a b : Nat} (le : a ≤ b) (d : Nat) : nearest a d ≤ nearest b d := by
  rcases Nat.lt_or_ge (a / d) (b / d) with less | same
  · exact (nearest_high a d).trans (less.trans_le (nearest_low b d))
  · have same : a / d = b / d := Nat.le_antisymm (Nat.div_le_div_right le) same
    have remainder : a % d ≤ b % d := by
      have first := Nat.div_add_mod a d
      have second := Nat.div_add_mod b d
      rw [same] at first
      omega
    unfold nearest
    rw [same]
    split_ifs with up down
    · exact Nat.le_refl _
    · omega
    · exact Nat.le_succ _
    · exact Nat.le_refl _

def significand (n : Nat) : Nat := nearest (n * 2^(52 - n.log2)) (2^(n.log2 - 52))

theorem significand_bounds (some : n ≠ 0) : 2^52 ≤ significand n ∧ significand n ≤ 2^53 := by
  have low : 2^n.log2 ≤ n := Nat.log2_self_le some
  have high : n < 2^(n.log2 + 1) := Nat.lt_log2_self
  have quotient : 2^52 ≤ n * 2^(52 - n.log2) / 2^(n.log2 - 52) ∧ n * 2^(52 - n.log2) / 2^(n.log2 - 52) < 2^53 := by
    rw [Nat.le_div_iff_mul_le (Nat.two_pow_pos _),Nat.div_lt_iff_lt_mul (Nat.two_pow_pos _),← Nat.pow_add,← Nat.pow_add]
    have same : 52 + (n.log2 - 52) = n.log2 + (52 - n.log2) := by omega
    have next : 53 + (n.log2 - 52) = n.log2 + 1 + (52 - n.log2) := by omega
    rw [same,next,Nat.pow_add 2 n.log2,Nat.pow_add 2 (n.log2 + 1)]
    exact ⟨Nat.mul_le_mul_right _ low,Nat.mul_lt_mul_of_pos_right high (Nat.two_pow_pos _)⟩
  exact ⟨quotient.1.trans (nearest_low _ _),(nearest_high _ _).trans quotient.2⟩

theorem log2_scale (some : n ≠ 0) (j : Nat) : (n * 2^j).log2 = n.log2 + j := by
  induction j with
  | zero => rw [Nat.pow_zero,Nat.mul_one,Nat.add_zero]
  | succ j ih =>
    have positive : n * 2^j ≠ 0 := Nat.mul_ne_zero some (Nat.two_pow_pos j).ne'
    rw [Nat.pow_succ,← Nat.mul_assoc,Nat.mul_comm _ 2,Nat.log2_two_mul positive,ih,Nat.add_assoc]

theorem roundMagnitude_scaled (some : n ≠ 0) (j : Nat) :
    roundMagnitude (n * 2^j) (2^j) = min ((n.log2 + 1022) * 2^52 + significand n) infinityBits := by
  have scaled : n * 2^j ≠ 0 := Nat.mul_ne_zero some (Nat.two_pow_pos j).ne'
  have guess : ((n * 2^j).log2 : Int) - ((2^j).log2 : Int) = n.log2 := by
    rw [log2_scale some,Nat.log2_two_pow]
    omega
  have place : exponent (n * 2^j) (2^j) = n.log2 := by
    unfold exponent
    dsimp only
    rw [guess,if_pos]
    rw [Int.toNat_natCast,Int.toNat_eq_zero.mpr (by omega : -(n.log2 : Int) ≤ 0),Nat.pow_zero,Nat.mul_one,Nat.mul_comm]
    exact Nat.mul_le_mul_right _ (Nat.log2_self_le some)
  have unit : max ((n.log2 : Int) - 52) (-1074) = n.log2 - 52 := by omega
  have below : (-((n.log2 : Int) - 52)).toNat = 52 - n.log2 := by omega
  have above : ((n.log2 : Int) - 52).toNat = n.log2 - 52 := by omega
  have field : (max ((n.log2 : Int) + 1022) 0).toNat = n.log2 + 1022 := by omega
  have bits : nearest (n * 2^j * 2^(52 - n.log2)) (2^j * 2^(n.log2 - 52)) = significand n := by
    rw [Nat.mul_comm n,Nat.mul_assoc]
    exact nearest_scale _ _ (Nat.two_pow_pos j)
  unfold roundMagnitude
  rw [if_neg scaled]
  dsimp only
  rw [place,unit,below,above,field]
  exact congrArg (fun q => min ((n.log2 + 1022) * 2^52 + q) infinityBits) bits

theorem roundMagnitude_integer (some : n ≠ 0) (small : n < 2^64) (j : Nat) :
    roundMagnitude (n * 2^j) (2^j) = (n.log2 + 1022) * 2^52 + significand n ∧
      (n.log2 + 1022) * 2^52 + significand n < infinityBits := by
  have bits : n.log2 < 64 := (Nat.log2_lt some).mpr small
  have high := (significand_bounds some).2
  have finite : (n.log2 + 1022) * 2^52 + significand n < infinityBits := by
    unfold infinityBits
    omega
  rw [roundMagnitude_scaled some,Nat.min_eq_left finite.le]
  exact ⟨rfl,finite⟩

theorem significand_mono {a b : Nat} (le : a ≤ b) (same : a.log2 = b.log2) : significand a ≤ significand b := by
  unfold significand
  rw [same]
  exact nearest_mono (Nat.mul_le_mul_right _ le) _

def whole (n : Nat) : Nat := roundMagnitude n 1

@[simp] theorem whole_zero : whole 0 = 0 := rfl

theorem whole_of_ne (some : n ≠ 0) (small : n < 2^64) : whole n = (n.log2 + 1022) * 2^52 + significand n := by
  have rounded := (roundMagnitude_integer some small 0).1
  rwa [Nat.pow_zero,Nat.mul_one] at rounded

theorem whole_lt (small : n < 2^64) : whole n < infinityBits := by
  by_cases some : n = 0
  · rw [some]
    decide
  · rw [whole_of_ne some small]
    exact (roundMagnitude_integer some small 0).2

theorem whole_pos (some : n ≠ 0) (small : n < 2^64) : 0 < whole n := by
  have low := (significand_bounds some).1
  rw [whole_of_ne some small]
  omega

theorem whole_mono {a b : Nat} (le : a ≤ b) (small : b < 2^64) : whole a ≤ whole b := by
  by_cases some : a = 0
  · rw [some]
    exact Nat.zero_le _
  · have some' : b ≠ 0 := by omega
    rw [whole_of_ne some (le.trans_lt small),whole_of_ne some' small]
    have places : a.log2 ≤ b.log2 := by
      rw [Nat.le_log2 some']
      exact (Nat.log2_self_le some).trans le
    rcases Nat.lt_or_eq_of_le places with less | same
    · -- The largest significand of one place is the smallest of the next.
      have high := (significand_bounds some).2
      have low := (significand_bounds some').1
      omega
    · rw [same]
      exact Nat.add_le_add_left (significand_mono le same) _

theorem infinityBits_lt : infinityBits < 2^63 := by decide

theorem magnitude_signed (neg : Bool) {mag : Nat} (small : mag < 2^63) : magnitude (signed neg mag) = mag := by
  unfold magnitude signed
  rw [UInt64.toNat_ofNat']
  cases neg
  · simp only [Bool.false_eq_true,if_false]
    omega
  · simp only [if_true]
    omega

theorem negative_signed (neg : Bool) {mag : Nat} (small : mag < 2^63) : negative (signed neg mag) = neg := by
  unfold negative signed
  rw [UInt64.toNat_ofNat']
  cases neg
  · simp only [Bool.false_eq_true,if_false,decide_eq_false_iff_not]
    omega
  · simp only [if_true,decide_eq_true_eq]
    omega

section integers

variable {i k : Int} (small : i.natAbs < 2^64)
include small

theorem magnitude_ofInt : magnitude (ofInt i) = whole i.natAbs :=
  magnitude_signed _ ((whole_lt small).trans infinityBits_lt)

theorem negative_ofInt : negative (ofInt i) = decide (i < 0) :=
  negative_signed _ ((whole_lt small).trans infinityBits_lt)

theorem finite_ofInt : isNaN (ofInt i) = false ∧ isInfinite (ofInt i) = false := by
  have finite := whole_lt small
  unfold isNaN isInfinite
  rw [magnitude_ofInt small]
  simp only [decide_eq_false_iff_not]
  omega

theorem rank_ofInt : rank (ofInt i) = if i < 0 then -(whole i.natAbs : Int) else whole i.natAbs := by
  unfold rank
  rw [magnitude_ofInt small,negative_ofInt small]
  simp only [decide_eq_true_eq]

theorem rank_ofInt_mono (le : i ≤ k) (small' : k.natAbs < 2^64) : rank (ofInt i) ≤ rank (ofInt k) := by
  rw [rank_ofInt small,rank_ofInt small']
  split_ifs with neg neg' neg'
  · have order := whole_mono (by omega : k.natAbs ≤ i.natAbs) small
    omega
  · omega
  · omega
  · have order := whole_mono (by omega : i.natAbs ≤ k.natAbs) small'
    omega

theorem ofInt_of_rank (small' : k.natAbs < 2^64) (same : rank (ofInt i) = rank (ofInt k)) : ofInt i = ofInt k := by
  rw [rank_ofInt small,rank_ofInt small'] at same
  have positive (some : i ≠ 0) := whole_pos (Int.natAbs_ne_zero.mpr some) small
  have positive' (some : k ≠ 0) := whole_pos (Int.natAbs_ne_zero.mpr some) small'
  have signs : decide (i < 0) = decide (k < 0) := by
    rw [decide_eq_decide]
    split_ifs at same with neg neg' neg'
    · exact iff_of_true neg neg'
    · have := positive (by omega)
      omega
    · have := positive' (by omega)
      omega
    · exact iff_of_false neg neg'
  have magnitudes : whole i.natAbs = whole k.natAbs := by
    rw [decide_eq_decide] at signs
    split_ifs at same with neg neg' neg'
    · omega
    · omega
    · omega
    · omega
  unfold ofInt
  rw [signs]
  exact congrArg (signed _) magnitudes

theorem less_ofInt (small' : k.natAbs < 2^64) : less (ofInt i) (ofInt k) = decide (i < k ∧ ofInt i ≠ ofInt k) := by
  unfold less
  rw [(finite_ofInt small).1,(finite_ofInt small').1,Bool.not_false,Bool.true_and,Bool.true_and,decide_eq_decide]
  constructor
  · intro less
    constructor
    · by_contra order
      have reversed := rank_ofInt_mono small' (Int.not_lt.mp order) small
      omega
    · intro same
      rw [same] at less
      omega
  · rintro ⟨order,different⟩
    have places := rank_ofInt_mono small order.le small'
    exact lt_of_le_of_ne places fun same => different (ofInt_of_rank small small' same)

end integers

theorem significand_exact (some : n ≠ 0) (small : n ≤ 2^53) :
    significand n * 2^(n.log2 - 52) = n * 2^(52 - n.log2) ∧ significand n < 2^53 := by
  have bits : n.log2 ≤ 53 := by
    have le := Nat.log2_self_le some
    exact (Nat.pow_le_pow_iff_right (by decide)).mp (le.trans small)
  rcases Nat.lt_or_eq_of_le bits with less | top
  · have low : n.log2 - 52 = 0 := by omega
    have same : significand n = n * 2^(52 - n.log2) := by
      unfold significand
      rw [low,Nat.pow_zero,nearest_of_dvd Nat.one_pos (Nat.one_dvd _),Nat.div_one]
    have high : n < 2^(n.log2 + 1) := Nat.lt_log2_self
    refine ⟨by rw [low,same,Nat.pow_zero,Nat.mul_one],?_⟩
    rw [same]
    calc n * 2^(52 - n.log2) < 2^(n.log2 + 1) * 2^(52 - n.log2) := Nat.mul_lt_mul_of_pos_right high (Nat.two_pow_pos _)
      _ = 2^53 := by rw [← Nat.pow_add]; congr 1; omega
  · obtain rfl : n = 2^53 := by
      have le := Nat.log2_self_le some
      rw [top] at le
      exact Nat.le_antisymm small le
    decide +kernel

theorem ratio_ofInt (small : i.natAbs ≤ 2^53) : ∃ j, ratio (ofInt i) = (i.natAbs * 2^j,2^j) := by
  have within : i.natAbs < 2^64 := small.trans_lt (by decide)
  unfold ratio
  rw [magnitude_ofInt within]
  by_cases zero : i.natAbs = 0
  · refine ⟨1074,?_⟩
    rw [zero,whole_zero]
    dsimp only
    rw [Nat.zero_div,Nat.zero_mod,if_pos rfl,Nat.zero_mul]
  · obtain ⟨exact,high⟩ := significand_exact zero small
    have low := (significand_bounds zero).1
    have field : whole i.natAbs / 2^52 = i.natAbs.log2 + 1023 := by
      rw [whole_of_ne zero within]
      omega
    have fraction : 2^52 + whole i.natAbs % 2^52 = significand i.natAbs := by
      rw [whole_of_ne zero within]
      omega
    refine ⟨52 - i.natAbs.log2,?_⟩
    dsimp only
    have above : i.natAbs.log2 + 1023 - 1075 = i.natAbs.log2 - 52 := by omega
    have below : 1075 - (i.natAbs.log2 + 1023) = 52 - i.natAbs.log2 := by rw [Nat.add_comm,Nat.sub_add_eq]
    have normal : i.natAbs.log2 + 1023 ≠ 0 := by omega
    rw [field,fraction,if_neg normal,above,below,exact]

theorem ofInt_inj {k : Int} (small : i.natAbs ≤ 2^53) (small' : k.natAbs ≤ 2^53) (same : ofInt i = ofInt k) :
    i = k := by
  have sign := negative_ofInt (small.trans_lt (by decide))
  rw [same,negative_ofInt (small'.trans_lt (by decide)),decide_eq_decide] at sign
  obtain ⟨j,first⟩ := ratio_ofInt small
  obtain ⟨l,second⟩ := ratio_ofInt small'
  rw [same,second] at first
  obtain ⟨parts,units⟩ := Prod.mk.inj first
  rw [units] at parts
  have abs : k.natAbs = i.natAbs := Nat.eq_of_mul_eq_mul_right (Nat.two_pow_pos j) parts
  omega

theorem signed_parts (i : Int) (j l : Nat) :
    (if decide (i < 0) = true then -(↑(i.natAbs * 2^j) * ↑(2^l : Nat) : Int) else ↑(i.natAbs * 2^j) * ↑(2^l : Nat)) =
      i * 2^(j + l) := by
  have parts : (↑(i.natAbs * 2^j) * ↑(2^l : Nat) : Int) = i.natAbs * 2^(j + l) := by
    rw [Int.pow_add]
    push_cast
    exact Int.mul_assoc _ _ _
  simp only [parts,decide_eq_true_eq]
  split_ifs with neg
  · rw [← Int.neg_mul]
    congr 1
    omega
  · congr 1
    omega

theorem add_ofInt {k : Int} (small : i.natAbs ≤ 2^53) (small' : k.natAbs ≤ 2^53) :
    add (ofInt i) (ofInt k) = ofInt (i + k) := by
  have within : i.natAbs < 2^64 := small.trans_lt (by decide)
  have within' : k.natAbs < 2^64 := small'.trans_lt (by decide)
  obtain ⟨j,first⟩ := ratio_ofInt small
  obtain ⟨l,second⟩ := ratio_ofInt small'
  unfold add
  rw [(finite_ofInt within).1,(finite_ofInt within').1,(finite_ofInt within).2,(finite_ofInt within').2,first,second]
  simp only [Bool.or_self,Bool.false_eq_true,if_false]
  rw [negative_ofInt within,negative_ofInt within',signed_parts,signed_parts,Nat.add_comm l j,← Int.add_mul]
  have positive : (0 : Int) < 2^(j + l) := Int.pow_pos (by decide)
  split_ifs with none
  · have none : i + k = 0 := (Int.mul_eq_zero.mp none).resolve_right positive.ne'
    have signs : (decide (i < 0) && decide (k < 0)) = false := by
      rw [Bool.and_eq_false_iff,decide_eq_false_iff_not,decide_eq_false_iff_not]
      omega
    rw [signs,none]
    rfl
  · have some : (i + k).natAbs ≠ 0 := by
      intro zero
      rw [Int.natAbs_eq_zero.mp zero,Int.zero_mul] at none
      exact none rfl
    have size : (i + k).natAbs < 2^64 := by omega
    have sign : decide ((i + k) * 2^(j + l) < 0) = decide (i + k < 0) := by
      rw [decide_eq_decide]
      constructor
      · intro less
        by_contra order
        exact absurd less (Int.not_lt.mpr (Int.mul_nonneg (Int.not_lt.mp order) positive.le))
      · intro less
        exact Int.mul_neg_of_neg_of_pos less positive
    have abs : ((i + k) * 2^(j + l)).natAbs = (i + k).natAbs * 2^(j + l) := by
      rw [Int.natAbs_mul,Int.natAbs_pow]
      rfl
    rw [sign,abs,← Nat.pow_add,(roundMagnitude_integer some size _).1,← whole_of_ne some size]
    rfl

theorem truncate_ofInt (small : i.natAbs ≤ 2^53) : truncate (ofInt i) = Int64.ofInt i := by
  have within : i.natAbs < 2^64 := small.trans_lt (by decide)
  obtain ⟨j,parts⟩ := ratio_ofInt small
  unfold truncate
  rw [magnitude_ofInt within,if_neg (Nat.not_le.mpr (whole_lt within)),parts,negative_ofInt within]
  dsimp only
  rw [Nat.mul_div_cancel _ (Nat.two_pow_pos j)]
  have value : (if decide (i < 0) = true then -(i.natAbs : Int) else i.natAbs) = i := by
    simp only [decide_eq_true_eq]
    split_ifs
    · omega
    · omega
  rw [value,if_pos (by omega)]

end GoDb.Foundation.Binary64
