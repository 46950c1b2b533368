import Mathlib.Algebra.Ring.Nat

/-!
# Numbers in network order

A number is written with so many bytes, the highest first; what does not fit is lost. Reading
the bytes gives the number again.
-/

namespace Nsblast

open List

/-- So many bytes of a number, the highest first. -/
def bigEndian : Nat → Nat → List UInt8
  | 0, _ => []
  | count + 1, value => UInt8.ofNat (value / 256 ^ count) :: bigEndian count value

/-- The number that bytes stand for. -/
def readBigEndian (bytes : List UInt8) :
    Nat := bytes.foldl (fun number byte => 256 * number + byte.toNat) 0

/-- The two bytes of a `uint16_t`. -/
abbrev be16 (value : Nat) : List UInt8 := bigEndian 2 value

/-- The four bytes of a `uint32_t`. -/
abbrev be32 (value : Nat) : List UInt8 := bigEndian 4 value

variable {count value : Nat}

@[simp] theorem length_bigEndian : (bigEndian count value).length = count := by
  induction count with
  | zero => rfl
  | succ count ih => rw [bigEndian, length_cons, ih]

/-- The lower bytes and the highest one. -/
theorem mod_split (count value : Nat) :
    value % 256 ^ (count + 1) = 256 ^ count * (value / 256 ^ count % 256) + value % 256 ^ count := by
  rw [Nat.pow_succ, Nat.mod_mul, Nat.add_comm]

/-- Reading gives the number again, up to what does not fit. -/
theorem readBigEndian_bigEndian :
    readBigEndian (bigEndian count value) = value % 256 ^ count := by
  have reads : ∀ count number, (bigEndian count value).foldl
      (fun number byte => 256 * number + byte.toNat) number =
        256 ^ count * number + value % 256 ^ count := by
    intro count
    induction count with
    | zero => simp [bigEndian, Nat.mod_one]
    | succ count ih =>
      intro number
      have power : 256 ^ (count + 1) = 256 ^ count * 256 := Nat.pow_succ _ _
      have byte : (UInt8.ofNat (value / 256 ^ count)).toNat = value / 256 ^ count % 256 :=
        UInt8.toNat_ofNat'
      rw [bigEndian, foldl_cons, ih, byte, mod_split, power, Nat.mul_add, ← Nat.mul_assoc,
        Nat.add_assoc]
  rw [readBigEndian, reads, Nat.mul_zero, Nat.zero_add]

theorem readBigEndian_fits (count : Nat) (fits : value < 256 ^ count) :
    readBigEndian (bigEndian count value) = value := by
  rw [readBigEndian_bigEndian, Nat.mod_eq_of_lt fits]

theorem bigEndian_injective {other : Nat} (fits : value < 256 ^ count) (otherFits : other < 256 ^ count)
    (same : bigEndian count value = bigEndian count other) : value = other := by
  rw [← readBigEndian_fits count fits, same, readBigEndian_fits count otherFits]

theorem readBigEndian_lt (bytes : List UInt8) : readBigEndian bytes < 256 ^ bytes.length := by
  -- What has been read is the upper part of the number.
  have bound : ∀ number, bytes.foldl (fun number byte => 256 * number + byte.toNat) number <
      256 ^ bytes.length * (number + 1) := by
    induction bytes with
    | nil => simp
    | cons byte rest ih =>
      intro number
      have low := byte.toNat_lt
      refine Nat.lt_of_lt_of_le (ih _) ?_
      rw [length_cons, Nat.pow_succ, Nat.mul_assoc]
      apply Nat.mul_le_mul_left
      dsimp only
      omega
  exact Nat.lt_of_lt_of_eq (bound 0) (Nat.mul_one _)

end Nsblast
