import Mathlib.Data.List.Infix

/-!
# Parts of a list at their places

A part stands at a place of a list when the list goes on with it from there. A list that
only grows at its end keeps all of its parts, and one that is also changed at its front
keeps those behind the front.

Nothing here mentions a particular element type.
-/

namespace Nsblast

open List

variable {α : Type}

/-- The list goes on with `part` from `position`. -/
def PartAt (whole : List α) (position : Nat) (part : List α) : Prop := part <+: whole.drop position

/-- Behind the first `floor` elements, the other list goes on where the first one ends. -/
def GrownBehind (floor : Nat) (whole other : List α) : Prop :=
  ∃ more, other.drop floor = whole.drop floor ++ more

namespace GrownBehind

theorem refl (floor : Nat) (whole : List α) : GrownBehind floor whole whole := ⟨[], by simp⟩

theorem append (floor : Nat) (whole more : List α) (inside : floor ≤ whole.length) :
    GrownBehind floor whole (whole ++ more) :=
  ⟨more, drop_append_of_le_length inside⟩

theorem take (floor : Nat) (whole : List α) (count : Nat) :
    GrownBehind floor (whole.take count) whole :=
  ⟨(whole.drop floor).drop (count - floor), by rw [drop_take, take_append_drop]⟩

theorem trans {floor : Nat} {first second third : List α} (left : GrownBehind floor first second)
    (right : GrownBehind floor second third) : GrownBehind floor first third := by
  obtain ⟨more, isSecond⟩ := left
  obtain ⟨rest, isThird⟩ := right
  exact ⟨more ++ rest, by rw [isThird, isSecond, append_assoc]⟩

/-- The first elements grow alike, as far as both lists have them. -/
theorem take_both {floor count : Nat} {whole other : List α} (grows : GrownBehind floor whole other)
    (inside : count ≤ whole.length) : GrownBehind floor (whole.take count) (other.take count) := by
  obtain ⟨more, isOther⟩ := grows
  refine ⟨[], ?_⟩
  rw [drop_take, drop_take, isOther, append_nil, take_append_of_le_length]
  rw [length_drop]
  omega

/-- A front that is replaced by one of the same length. -/
theorem front {floor : Nat} {front other : List α} (body : List α) (length : front.length = floor)
    (otherLength : other.length = floor) : GrownBehind floor (front ++ body) (other ++ body) :=
  ⟨[], by rw [drop_left' length, drop_left' otherLength, append_nil]⟩

end GrownBehind

namespace PartAt

variable {whole other part first second : List α} {position floor : Nat}

theorem nil (whole : List α) (position : Nat) : PartAt whole position [] := List.nil_prefix

/-- Two parts, one behind the other. -/
theorem append_iff : PartAt whole position (first ++ second) ↔
    PartAt whole position first ∧ PartAt whole (position + first.length) second := by
  constructor
  · rintro ⟨rest, isRest⟩
    refine ⟨⟨second ++ rest, by rw [← isRest, append_assoc]⟩, rest, ?_⟩
    rw [← drop_drop, ← isRest, append_assoc, drop_left]
  · rintro ⟨⟨rest, isRest⟩, more, isMore⟩
    rw [← drop_drop, ← isRest, drop_left] at isMore
    exact ⟨more, by rw [← isRest, ← isMore, append_assoc]⟩

theorem left (both : PartAt whole position (first ++ second)) : PartAt whole position first :=
  (append_iff.mp both).1

theorem right (both : PartAt whole position (first ++ second)) :
    PartAt whole (position + first.length) second := (append_iff.mp both).2

theorem cons_iff (head : α) : PartAt whole position (head :: part) ↔
    whole[position]? = some head ∧ PartAt whole (position + 1) part := by
  have single : PartAt whole position [head] ↔ whole[position]? = some head := by
    constructor
    · rintro ⟨rest, isRest⟩
      have first := congrArg head? isRest
      rw [head?_drop] at first
      exact first.symm
    · intro found
      obtain ⟨inside, isHead⟩ := List.getElem?_eq_some_iff.mp found
      refine ⟨whole.drop (position + 1), ?_⟩
      rw [drop_eq_getElem_cons inside, isHead]
      rfl
  have isAppend : head :: part = [head] ++ part := rfl
  rw [isAppend, append_iff, single]
  rfl

/-- A part that is not empty ends inside the list. -/
theorem inside (stands : PartAt whole position part) (filled : part ≠ []) :
    position + part.length ≤ whole.length := by
  have positive := length_pos_iff.mpr filled
  have shorter := stands.length_le
  rw [length_drop] at shorter
  omega

theorem take_drop (stands : PartAt whole position part) :
    (whole.drop position).take part.length = part := (prefix_iff_eq_take.mp stands).symm

/-- Parts behind the front stay when the list grows. -/
theorem grown (stands : PartAt whole position part) (grows : GrownBehind floor whole other)
    (behind : floor ≤ position) : PartAt other position part := by
  obtain ⟨more, isMore⟩ := grows
  obtain ⟨between, rfl⟩ := Nat.exists_eq_add_of_le behind
  obtain ⟨rest, isRest⟩ := stands
  by_cases inside : between ≤ (whole.drop floor).length
  · refine ⟨rest ++ more, ?_⟩
    rw [← drop_drop, isMore, drop_append_of_le_length inside, drop_drop, ← isRest,
      append_assoc]
  · have outside : whole.drop (floor + between) = [] := by
      rw [← drop_drop, drop_eq_nil_of_le (by omega)]
    rw [outside] at isRest
    rw [(append_eq_nil_iff.mp isRest).1]
    exact nil other _

theorem at_end (whole part more : List α) : PartAt (whole ++ (part ++ more)) whole.length part :=
  ⟨more, by rw [drop_left]⟩

/-- A part that ends in time is a part of the first elements. -/
theorem take (stands : PartAt whole position part) (count : Nat)
    (inTime : position + part.length ≤ count) : PartAt (whole.take count) position part := by
  obtain ⟨rest, isRest⟩ := stands
  have isPart : part.take (count - position) = part := take_of_length_le (by omega)
  exact ⟨rest.take (count - position - part.length),
    by rw [drop_take, ← isRest, take_append, isPart]⟩

end PartAt

end Nsblast
