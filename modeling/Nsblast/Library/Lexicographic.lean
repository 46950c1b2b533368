import Nsblast.Library.BigEndian
import Std.Data.ExtTreeMap

/-!
# Prefixes and numbers in lexicographic order

In the lexicographic order the continuations of a list form an interval that
begins with the list itself. Numbers written with the same number of bytes, the
highest byte first, are ordered as the numbers are.
-/

namespace Nsblast.Lexicographic

open List

variable {α : Type} [Ord α] [Std.TransOrd α] [Std.LawfulEqOrd α]

omit [Std.TransOrd α] in
/-- A list comes before its continuations. -/
theorem le_of_prefix (short long : List α) (continued : short <+: long) :
    (compare short long).isLE := by
  induction short generalizing long with
  | nil => cases long <;> rfl
  | cons first rest ih =>
    obtain ⟨tail, rfl⟩ := continued
    have self : compare first first = .eq := Std.ReflCmp.compare_self
    rw [List.cons_append, List.compare_cons_cons, self, Ordering.eq_then]
    exact ih _ (prefix_append rest tail)

omit [Std.TransOrd α] in
/-- A common beginning does not matter. -/
theorem compare_append (front left right : List α) :
    compare (front ++ left) (front ++ right) = compare left right := by
  induction front with
  | nil => rfl
  | cons first rest ih =>
    have self : compare first first = .eq := Std.ReflCmp.compare_self
    rw [List.cons_append, List.cons_append, List.compare_cons_cons, self, Ordering.eq_then, ih]

/-- What lies between a list and one of its continuations is a continuation. -/
theorem prefix_of_between {short middle long : List α} (continued : short <+: long)
    (above : (compare short middle).isLE) (below : (compare middle long).isLE) :
    short <+: middle := by
  induction short generalizing middle long with
  | nil => exact nil_prefix
  | cons first rest ih =>
    obtain ⟨tail, rfl⟩ := continued
    cases middle with
    | nil => cases above
    | cons head middle =>
      rw [List.compare_cons_cons] at above
      rw [List.cons_append, List.compare_cons_cons] at below
      cases order : compare first head with
      | lt =>
        rw [Std.OrientedCmp.gt_of_lt order] at below
        cases below
      | gt =>
        rw [order] at above
        cases above
      | eq =>
        have same : first = head := Std.LawfulEqCmp.eq_of_compare order
        subst same
        rw [order, Ordering.eq_then] at above
        rw [order, Ordering.eq_then] at below
        rw [cons_prefix_cons]
        exact ⟨rfl, ih (prefix_append rest tail) above below⟩

section bigEndian

variable (count first second : Nat)

theorem compare_byte :
    compare (UInt8.ofNat first) (UInt8.ofNat second) = compare (first % 256) (second % 256) := by
  have bytes : ∀ left right : UInt8, compare left right = compare left.toNat right.toNat := by
    intro left right
    rcases Nat.lt_trichotomy left.toNat right.toNat with less | same | greater
    · rw [Nat.compare_eq_lt.mpr less, Std.compare_eq_lt]
      exact UInt8.lt_iff_toNat_lt.mpr less
    · rw [Nat.compare_eq_eq.mpr same, UInt8.toNat_inj.mp same]
      exact Std.ReflCmp.compare_self
    · rw [Nat.compare_eq_gt.mpr greater, Std.compare_eq_gt]
      exact UInt8.lt_iff_toNat_lt.mpr greater
  rw [bytes, UInt8.toNat_ofNat', UInt8.toNat_ofNat']

/-- The order of the bytes is that of the numbers, up to what does not fit. -/
theorem compare_bigEndian :
    compare (bigEndian count first) (bigEndian count second) =
      compare (first % 256 ^ count) (second % 256 ^ count) := by
  induction count with
  | zero => simp [bigEndian, Nat.mod_one]
  | succ count ih =>
    have positive : 0 < 256 ^ count := Nat.pow_pos (by omega)
    have firstLow := Nat.mod_lt first positive
    have secondLow := Nat.mod_lt second positive
    rw [bigEndian, bigEndian, List.compare_cons_cons, compare_byte, ih, mod_split, mod_split]
    generalize first / 256 ^ count % 256 = high
    generalize second / 256 ^ count % 256 = other
    generalize first % 256 ^ count = low at *
    generalize second % 256 ^ count = otherLow at *
    rcases Nat.lt_trichotomy high other with less | rfl | greater
    · have above : 256 ^ count * (high + 1) ≤ 256 ^ count * other := Nat.mul_le_mul_left _ less
      rw [Nat.mul_succ] at above
      have sum : 256 ^ count * high + low < 256 ^ count * other + otherLow := by omega
      rw [Nat.compare_eq_lt.mpr less, Nat.compare_eq_lt.mpr sum, Ordering.lt_then]
    · rw [Nat.compare_eq_eq.mpr rfl, Ordering.eq_then]
      rcases Nat.lt_trichotomy low otherLow with less | rfl | greater
      · rw [Nat.compare_eq_lt.mpr less, Nat.compare_eq_lt.mpr (by omega)]
      · rw [Nat.compare_eq_eq.mpr rfl, Nat.compare_eq_eq.mpr rfl]
      · rw [Nat.compare_eq_gt.mpr greater, Nat.compare_eq_gt.mpr (by omega)]
    · have above : 256 ^ count * (other + 1) ≤ 256 ^ count * high := Nat.mul_le_mul_left _ greater
      rw [Nat.mul_succ] at above
      have sum : 256 ^ count * other + otherLow < 256 ^ count * high + low := by omega
      rw [Nat.compare_eq_gt.mpr greater, Nat.compare_eq_gt.mpr sum, Ordering.gt_then]

end bigEndian

end Nsblast.Lexicographic
