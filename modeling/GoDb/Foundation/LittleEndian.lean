import Mathlib.Data.Nat.ModEq
import Mathlib.Tactic.Ring

/-! Fixed-width little-endian numbers. -/
namespace GoDb.Foundation.LittleEndian

def put : Nat → Nat → List UInt8
  | 0,_ => []
  | width+1,n => UInt8.ofNat (n % 256)::put width (n/256)

def read : List UInt8 → Nat
  | [] => 0
  | byte::rest => byte.toNat + 256 * read rest

@[simp] theorem length_put (width n : Nat) : (put width n).length = width := by
  induction width generalizing n with
  | zero => rfl
  | succ width ih => rw [put,List.length_cons,ih]

theorem read_put (width n : Nat) : read (put width n) = n % 256^width := by
  induction width generalizing n with
  | zero => simp [put,read,Nat.mod_one]
  | succ width ih =>
    have low : (UInt8.ofNat (n % 256)).toNat = n % 256 := by simp
    rw [put,read,ih,low,Nat.pow_succ',Nat.mod_mul]

theorem read_put_of_lt {width n : Nat} (fits : n < 256^width) : read (put width n) = n := by
  rw [read_put,Nat.mod_eq_of_lt fits]

theorem put_mod (width n : Nat) : put width (n % 256^width) = put width n := by
  induction width generalizing n with
  | zero => rfl
  | succ width ih =>
    have low : n % 256^(width+1) % 256 = n % 256 := Nat.mod_mod_of_dvd n (Dvd.intro_left (256^width) rfl)
    have high : n % 256^(width+1) / 256 = n / 256 % 256^width := by
      rw [Nat.pow_succ',Nat.mod_mul_right_div_self]
    rw [put,put,low,high,ih]

theorem put_read (bytes : List UInt8) : put bytes.length (read bytes) = bytes := by
  induction bytes with
  | nil => rfl
  | cons byte rest ih =>
    have bound : byte.toNat < 256 := byte.toNat_lt
    have low : (byte.toNat + 256 * read rest) % 256 = byte.toNat := by omega
    have high : (byte.toNat + 256 * read rest) / 256 = read rest := by omega
    rw [List.length_cons,read,put,low,high,ih,UInt8.ofNat_toNat]

theorem read_lt (bytes : List UInt8) : read bytes < 256^bytes.length := by
  induction bytes with
  | nil => exact Nat.one_pos
  | cons byte rest ih =>
    have bound : byte.toNat < 256 := byte.toNat_lt
    rw [List.length_cons,read,Nat.pow_succ]
    omega

end GoDb.Foundation.LittleEndian
