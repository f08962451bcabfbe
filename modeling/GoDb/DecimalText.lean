import GoDb.Text

/-! `Atoi` reads the decimal text of an integer back. -/
namespace GoDb
open Foundation

theorem digit_byte {c : Char} (digit : c.isDigit = true) :
    (UInt8.ofNat c.toNat).toNat = c.toNat ∧ Time.isDigit (UInt8.ofNat c.toNat) = true := by
  have range : 48 ≤ c.toNat ∧ c.toNat ≤ 57 := by
    simpa [Char.isDigit,UInt32.le_iff_toNat_le] using digit
  have size : (UInt8.ofNat c.toNat).toNat = c.toNat := by
    rw [UInt8.toNat_ofNat']
    omega
  refine ⟨size,?_⟩
  rw [Time.isDigit,Bool.and_eq_true,decide_eq_true_eq,decide_eq_true_eq,UInt8.le_iff_toNat_le,UInt8.le_iff_toNat_le,size]
  exact range

theorem decimal_eq (n : Nat) : decimal 0 n = (Nat.toDigits 10 n).map fun c => UInt8.ofNat c.toNat := by
  simp [decimal]

theorem decimal_ne_nil (n : Nat) : decimal 0 n ≠ [] := by
  rw [decimal_eq]
  exact fun none => Nat.toDigits_ne_nil (List.map_eq_nil_iff.mp none)

theorem decimal_digits {n : Nat} {c : UInt8} (member : c ∈ decimal 0 n) : Time.isDigit c = true := by
  rw [decimal_eq] at member
  obtain ⟨d,there,rfl⟩ := List.mem_map.mp member
  exact (digit_byte (Nat.isDigit_of_mem_toDigits (by decide) (by decide) there)).2

theorem number_decimal (n : Nat) : Time.number (decimal 0 n) = n := by
  have read {digits : List Char} (all : ∀ c ∈ digits, c.isDigit = true) (m : Nat) :
      (digits.map fun c => UInt8.ofNat c.toNat).foldl (fun m c => 10 * m + (c.toNat - 48)) m =
        Nat.ofDigitChars 10 digits m := by
    induction digits generalizing m with
    | nil => rfl
    | cons c digits ih =>
      obtain ⟨digit,others⟩ := List.forall_mem_cons.mp all
      rw [List.map_cons,List.foldl_cons,(digit_byte digit).1,Nat.ofDigitChars_cons]
      exact ih others _
  rw [decimal_eq,Time.number,read fun c => Nat.isDigit_of_mem_toDigits (by decide) (by decide)]
  exact Nat.ofDigitChars_ten_toDigits

theorem le_ofDigitChars (digits : List Char) (n : Nat) : n ≤ Nat.ofDigitChars 10 digits n := by
  induction digits generalizing n with
  | nil => exact Nat.le_refl n
  | cons c digits ih =>
    rw [Nat.ofDigitChars_cons]
    have next := ih (10 * n + (c.toNat - '0'.toNat))
    omega

theorem parseUint_digits {digits : List Char} (all : ∀ c ∈ digits, c.isDigit = true) {n : Nat} (small : n < 2^64) :
    parseUint n (digits.map fun c => UInt8.ofNat c.toNat) =
      if Nat.ofDigitChars 10 digits n < 2^64 then .ok (Nat.ofDigitChars 10 digits n) else .error .range := by
  induction digits generalizing n with
  | nil => exact (if_pos small).symm
  | cons c digits ih =>
    obtain ⟨byte,digit⟩ := digit_byte (all c List.mem_cons_self)
    rw [List.map_cons,parseUint,digit,if_neg (by decide),byte,Nat.ofDigitChars_cons]
    have zero : '0'.toNat = 48 := rfl
    rw [zero]
    split_ifs with above fits
    · have more := le_ofDigitChars digits (10 * n + (c.toNat - 48))
      omega
    · rfl
    · rename_i fits
      exact (ih (fun d there => all d (List.mem_cons_of_mem c there)) (by omega)).trans (if_pos fits)
    · rename_i large
      exact (ih (fun d there => all d (List.mem_cons_of_mem c there)) (by omega)).trans (if_neg large)

theorem parseUint_decimal (n : Nat) : parseUint 0 (decimal 0 n) = if n < 2^64 then .ok n else .error .range := by
  have all (c : Char) (there : c ∈ Nat.toDigits 10 n) : c.isDigit = true :=
    Nat.isDigit_of_mem_toDigits (by decide) (by decide) there
  rw [decimal_eq,parseUint_digits all (by decide),Nat.ofDigitChars_ten_toDigits]

theorem splitSign_decimal (n : Nat) : splitSign (decimal 0 n) = (false,decimal 0 n) := by
  have digits := @decimal_digits n
  cases text : decimal 0 n with
  | nil => rfl
  | cons c s =>
    have digit : Time.isDigit c = true := digits (text ▸ List.mem_cons_self)
    have minus : c ≠ 45 := by rintro rfl; cases digit
    have plus : c ≠ 43 := by rintro rfl; cases digit
    unfold splitSign
    split
    · rename_i same
      exact absurd (List.cons.inj same).1 minus
    · rename_i same
      exact absurd (List.cons.inj same).1 plus
    · rfl

theorem atoi_decimal (n : Nat) :
    atoi (decimal 0 n) = if n < 2^63 then .ok (Int64.ofInt n) else .error .range := by
  unfold atoi
  rw [splitSign_decimal]
  dsimp only
  rw [if_neg (decimal_ne_nil n),parseUint_decimal]
  by_cases fits : n < 2^64
  · rw [if_pos fits]
    rfl
  · rw [if_neg fits,if_neg (by omega)]

theorem atoi_decimalInt (i : Int64) : atoi (decimalInt 0 i.toInt) = .ok i := by
  have low := i.le_toInt
  have high := i.toInt_lt
  unfold decimalInt
  split_ifs with negative
  · have small : i.toInt.natAbs ≤ 2^63 := by omega
    have value : -(i.toInt.natAbs : Int) = i.toInt := by omega
    have sign : splitSign (45::decimal 0 i.toInt.natAbs) = (true,decimal 0 i.toInt.natAbs) := rfl
    unfold atoi
    rw [sign]
    dsimp only
    rw [if_neg (decimal_ne_nil _),parseUint_decimal,if_pos (by omega)]
    dsimp only
    rw [if_pos rfl,if_pos small,value,Int64.ofInt_toInt]
  · have value : (i.toInt.natAbs : Int) = i.toInt := by omega
    rw [atoi_decimal,if_pos (by omega),value,Int64.ofInt_toInt]

end GoDb
