import GoDb.Foundation.Binary64

/-! The shortest decimal of a number that is not 0 has a digit that is not 0. -/
namespace GoDb.Foundation.Binary64

theorem leading_le {num : Nat} (positive : 0 < num) (den : Nat) :
    den * 10^(leading num den).toNat ≤ num * 10^(-leading num den).toNat := by
  unfold leading
  split_ifs with whole
  · rw [Int.toNat_natCast,Int.toNat_neg_natCast,pow_zero,Nat.mul_one]
    rcases Nat.eq_zero_or_pos den with rfl | some
    · rw [Nat.zero_mul]
      exact Nat.zero_le num
    · calc den * 10^Nat.log 10 (num / den) ≤ den * (num / den) :=
            Nat.mul_le_mul_left den (Nat.pow_log_le_self 10 (Nat.div_pos whole some).ne')
        _ ≤ num := Nat.mul_div_le num den
  · rw [Int.toNat_neg_natCast,neg_neg,Int.toNat_natCast,pow_zero,Nat.mul_one]
    have above : den ≤ num * ((den + num - 1) / num) := by
      have split := Nat.div_add_mod (den + num - 1) num
      have small := Nat.mod_lt (den + num - 1) positive
      omega
    exact above.trans (Nat.mul_le_mul_left num (Nat.le_pow_clog (by decide) _))

theorem scaled_le {num den high : Nat} {k : Int} {j : Nat} (some : 0 < j) (half : high ≤ 2 * num)
    (le : den * 10^k.toNat ≤ high * 10^(-k).toNat) : den * 10^(k - j).toNat ≤ num * 10^(-(k - j)).toNat := by
  have double : 2 ≤ 10^j := (by decide : 2 ≤ 10^1).trans (Nat.pow_le_pow_right (by decide) some)
  have bound : den * 10^k.toNat ≤ num * 10^((-k).toNat + j) := by
    calc den * 10^k.toNat ≤ 2 * num * 10^(-k).toNat := le.trans (Nat.mul_le_mul_right _ half)
      _ = num * 10^(-k).toNat * 2 := by rw [Nat.mul_comm 2,Nat.mul_right_comm]
      _ ≤ num * 10^(-k).toNat * 10^j := Nat.mul_le_mul_left _ double
      _ = num * 10^((-k).toNat + j) := by rw [pow_add,Nat.mul_assoc]
  -- Both exponents are moved by j, as far as they go.
  have total : (k - j).toNat + ((-k).toNat + j) = k.toNat + (-(k - j)).toNat := by omega
  have positive : 0 < 10^((-k).toNat + j) := Nat.pow_pos (by decide)
  apply Nat.le_of_mul_le_mul_right _ positive
  calc den * 10^(k - j).toNat * 10^((-k).toNat + j) = den * 10^k.toNat * 10^(-(k - j)).toNat := by
        rw [Nat.mul_assoc,← pow_add,total,pow_add,Nat.mul_assoc]
    _ ≤ num * 10^((-k).toNat + j) * 10^(-(k - j)).toNat := Nat.mul_le_mul_right _ bound
    _ = num * 10^(-(k - j)).toNat * 10^((-k).toNat + j) := Nat.mul_right_comm ..

section Candidates

variable {num den lowNum highNum : Nat} {inclusive : Bool} (positive : 0 < lowNum)

include positive

theorem candidate_pos {k : Int} {found : Nat} (some : candidate num den lowNum highNum inclusive k = some found) :
    0 < found := by
  have low : 0 < lowNum * 10^(-k).toNat := Nat.mul_pos positive (Nat.pow_pos (by decide))
  have down (ok : (decide (lowNum * 10^(-k).toNat < num * 10^(-k).toNat / (den * 10^k.toNat) * (den * 10^k.toNat)) ||
      inclusive && decide (lowNum * 10^(-k).toNat = num * 10^(-k).toNat / (den * 10^k.toNat) * (den * 10^k.toNat))) = true) :
      0 < num * 10^(-k).toNat / (den * 10^k.toNat) := by
    apply Nat.pos_of_ne_zero
    intro zero
    rw [zero,Nat.zero_mul,Bool.or_eq_true,Bool.and_eq_true,decide_eq_true_eq,decide_eq_true_eq] at ok
    omega
  unfold candidate at some
  dsimp only at some
  split_ifs at some with both nearer ok up
  · exact Option.some.inj some ▸ down (Bool.and_eq_true_iff.mp both).1
  · exact Option.some.inj some ▸ Nat.succ_pos _
  · exact Option.some.inj some ▸ down ok
  · exact Option.some.inj some ▸ Nat.succ_pos _

theorem shortestFrom_pos (whole : 0 < den) (fuel : Nat) {k : Int}
    (last : den * 10^(k - fuel).toNat ≤ num * 10^(-(k - fuel)).toNat) :
    0 < (shortestFrom num den lowNum highNum inclusive fuel k).1 := by
  induction fuel generalizing k with
  | zero =>
    rw [Int.natCast_zero,sub_zero] at last
    exact Nat.div_pos last (Nat.mul_pos whole (Nat.pow_pos (by decide)))
  | succ fuel ih =>
    rw [shortestFrom]
    cases found : candidate num den lowNum highNum inclusive k with
    | some n => exact candidate_pos positive found
    | none =>
      apply ih
      rw [sub_sub,add_comm 1,← Int.natCast_add_one]
      exact last

end Candidates

theorem ratio_den_pos (bits : UInt64) : 0 < (ratio bits).2 := by
  unfold ratio
  dsimp only
  split_ifs
  · apply Nat.two_pow_pos
  · apply Nat.two_pow_pos

theorem shortest_pos {bits : UInt64} (some : magnitude bits ≠ 0) : 0 < (shortest bits).1 := by
  -- The bounds lie half a unit apart from a number of at least one unit.
  have unit : (if magnitude bits / 2^52 = 0 then 1 else 2^(magnitude bits / 2^52 - 1075)) ≤ (ratio bits).1 := by
    unfold ratio
    dsimp only
    split_ifs with small
    · exact Nat.pos_of_ne_zero fun zero => some (by omega)
    · exact Nat.le_mul_of_pos_left _ (by omega)
  have step : 0 < (if magnitude bits / 2^52 = 0 then 1 else 2^(magnitude bits / 2^52 - 1075)) := by
    split_ifs
    · exact Nat.one_pos
    · exact Nat.two_pow_pos _
  have den := ratio_den_pos bits
  unfold shortest
  dsimp only
  generalize (if magnitude bits / 2^52 = 0 then 1 else 2^(magnitude bits / 2^52 - 1075)) = u at unit step ⊢
  apply shortestFrom_pos
  · split_ifs
    · omega
    · omega
  · omega
  · have half : 4 * (ratio bits).1 + 2 * u ≤ 2 * (4 * (ratio bits).1) := by omega
    exact scaled_le (by decide) half (leading_le (by omega) _)

end GoDb.Foundation.Binary64
