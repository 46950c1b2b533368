import Mathlib.Data.List.Sort
import Std.Data.ExtTreeMap

/-!
# Sorting and subtracting ranges

What a program may rely on when it sorts a range with a comparison, and the loop
that subtracts one range from another by walking both with the same comparison.
The loop is described on any two ranges: an element it drops was met by an
element of the second range that compares as equal. Only on sorted ranges does
it subtract every such element.

Nothing here mentions a particular element type.
-/

namespace Nsblast

open List

variable {α : Type}

/-- A sorting function for the comparison `less`. The order of elements that
compare as equal is left open. -/
structure Sorter (less : α → α → Bool) where
  sort : List α → List α
  perm : ∀ range, (sort range).Perm range
  sorted : ∀ range, (sort range).Pairwise fun first second => less second first = false

namespace Sorter

/-- Insertion sort is a sorting function for every comparison by a key. -/
def byKey {κ : Type} (cmp : κ → κ → Ordering) [Std.TransCmp cmp] (key : α → κ) :
    Sorter fun first second => cmp (key first) (key second) == .lt where
  sort range := range.insertionSort fun first second => (cmp (key first) (key second)).isLE
  perm range := range.perm_insertionSort _
  sorted range := by
    have total : Std.Total fun first second : α => ((cmp (key first) (key second)).isLE : Prop) := by
      constructor
      intro first second
      cases order : cmp (key first) (key second) with
      | lt => exact Or.inl rfl
      | eq => exact Or.inl rfl
      | gt => exact Or.inr (by rw [Std.OrientedCmp.lt_of_gt order]; rfl)
    have trans : IsTrans α fun first second => ((cmp (key first) (key second)).isLE : Prop) :=
      ⟨fun _ _ _ => Std.TransCmp.isLE_trans⟩
    have ordered := pairwise_insertionSort
      (fun first second : α => ((cmp (key first) (key second)).isLE : Prop)) range
    apply ordered.imp
    intro first second le
    apply beq_eq_false_iff_ne.mpr
    intro behind
    rw [Std.OrientedCmp.gt_of_lt behind] at le
    cases le

variable {less : α → α → Bool} (sorter : Sorter less)

/-- A sorting function that leaves one range in a given order. -/
def leaving [DecidableEq α] (range sorted : List α) (perm : sorted.Perm range)
    (ordered : sorted.Pairwise fun first second => less second first = false) : Sorter less where
  sort other := if other = range then sorted else sorter.sort other
  perm other := by
    split
    · rename_i same
      rw [same]
      exact perm
    · exact sorter.perm other
  sorted other := by
    split
    · exact ordered
    · exact sorter.sorted other

theorem mem_sort (range : List α) (x : α) : x ∈ sorter.sort range ↔ x ∈ range :=
  (sorter.perm range).mem_iff

end Sorter

/-- The turns of the loop that decide about one element of the first range:
`rest` goes on with the next one. -/
def differAt (less : α → α → Bool) (x : α) (rest : List α → List α) : List α → List α
  | [] => x :: rest []
  | y :: ys =>
      if less x y then x :: rest (y :: ys)
      else if less y x then differAt less x rest ys
      else rest ys

/-- The loop of `std::set_difference`. -/
def setDifference (less : α → α → Bool) : List α → (List α → List α)
  | [] => fun _ => []
  | x :: xs => differAt less x (setDifference less xs)

section setDifference

variable (less : α → α → Bool)

/-- One element is kept, or dropped for an element it compares equal to. What
follows is subtracted from a later part of the second range. -/
theorem differAt_cases (x : α) (rest : List α → List α) (ys : List α) :
    ∃ skipped tail, ys = skipped ++ tail ∧
      (differAt less x rest ys = x :: rest tail ∨ (differAt less x rest ys = rest tail ∧
          ∃ y ∈ skipped, less x y = false ∧ less y x = false)) := by
  induction ys with
  | nil => exact ⟨[], [], rfl, Or.inl rfl⟩
  | cons y ys ih =>
    by_cases before : less x y = true
    · refine ⟨[], y :: ys, rfl, Or.inl ?_⟩
      rw [differAt, if_pos before]
    · by_cases behind : less y x = true
      · obtain ⟨skipped, tail, rfl, outcome⟩ := ih
        refine ⟨y :: skipped, tail, rfl, ?_⟩
        rw [differAt, if_neg before, if_pos behind]
        rcases outcome with kept | ⟨dropped, other, member, equal⟩
        · exact Or.inl kept
        · exact Or.inr ⟨dropped, other, mem_cons_of_mem y member, equal⟩
      · refine ⟨[y], ys, rfl, Or.inr ⟨?_, y, mem_singleton_self y, ?_⟩⟩
        · rw [differAt, if_neg before, if_neg behind]
        · exact ⟨Bool.eq_false_iff.mpr before, Bool.eq_false_iff.mpr behind⟩

variable (xs ys : List α)

/-- Nothing enters the result that was not in the first range. -/
theorem setDifference_sublist : (setDifference less xs ys).Sublist xs := by
  induction xs generalizing ys with
  | nil => exact List.Sublist.refl []
  | cons x xs ih =>
    obtain ⟨skipped, tail, rfl, kept | ⟨dropped, _⟩⟩ :=
      differAt_cases less x (setDifference less xs) ys
    · rw [setDifference, kept]
      exact (ih tail).cons_cons x
    · rw [setDifference, dropped]
      exact (ih tail).cons x

/-- What is missing from the result has an equal in the second range. -/
theorem mem_setDifference_or {x : α} (member : x ∈ xs) :
    x ∈ setDifference less xs ys ∨ ∃ y ∈ ys, less x y = false ∧ less y x = false := by
  induction xs generalizing ys with
  | nil => cases member
  | cons first xs ih =>
    obtain ⟨skipped, tail, rfl, outcome⟩ :=
      differAt_cases less first (setDifference less xs) ys
    have rest (later : x ∈ xs) : x ∈ setDifference less xs tail ∨
        ∃ y ∈ skipped ++ tail, less x y = false ∧ less y x = false := by
      rcases ih tail later with kept | ⟨y, inTail, equal⟩
      · exact Or.inl kept
      · exact Or.inr ⟨y, mem_append_right skipped inTail, equal⟩
    rcases outcome with kept | ⟨dropped, y, met, equal⟩
    · rw [setDifference, kept, mem_cons]
      rcases mem_cons.mp member with rfl | later
      · exact Or.inl (Or.inl rfl)
      · exact (rest later).imp_left Or.inr
    · rw [setDifference, dropped]
      rcases mem_cons.mp member with rfl | later
      · exact Or.inr ⟨y, mem_append_left tail met, equal⟩
      · exact rest later

/-- Subtracting by a key is subtracting the keys. -/
theorem setDifference_map {β : Type} (key : β → α) (xs ys : List β) :
    (setDifference (fun first second => less (key first) (key second)) xs ys).map key =
      setDifference less (xs.map key) (ys.map key) := by
  induction xs generalizing ys with
  | nil => rfl
  | cons x xs outer =>
    rw [setDifference, map_cons, setDifference]
    induction ys with
    | nil =>
      rw [differAt, map_cons, outer]
      rfl
    | cons y ys inner =>
      rw [differAt, map_cons, differAt]
      split
      · rw [map_cons, outer, map_cons]
      · split
        · exact inner
        · exact outer ys

theorem setDifference_nil : setDifference less xs [] = xs := by
  induction xs with
  | nil => rfl
  | cons x xs ih => exact congrArg (x :: ·) ih

/-- Subtracting two ranges from each other: what both results leave out is paired
up, each element with one it compares equal to. The two walks make the same moves,
so that this needs no order of the ranges. -/
theorem setDifference_pairs (asymmetric : ∀ x y, less x y = true → less y x = false)
    (xs ys : List α) :
    ∃ left right, xs.Perm (setDifference less xs ys ++ left) ∧
      ys.Perm (setDifference less ys xs ++ right) ∧
      List.Forall₂ (fun x y => less x y = false ∧ less y x = false) left right := by
  induction xs generalizing ys with
  | nil => exact ⟨[], [], by rfl, by rw [setDifference_nil, append_nil], .nil⟩
  | cons x xs outer =>
    induction ys with
    | nil => exact ⟨[], [], by rw [setDifference_nil, append_nil], by rfl, .nil⟩
    | cons y ys inner =>
      by_cases before : less x y = true
      · obtain ⟨left, right, leftPerm, rightPerm, pairs⟩ := outer (y :: ys)
        refine ⟨left, right, ?_, ?_, pairs⟩
        · rw [setDifference, differAt, if_pos before, cons_append]
          exact leftPerm.cons x
        · rw [setDifference, differAt, if_neg (by rw [asymmetric x y before]; exact nofun),
            if_pos before]
          exact rightPerm
      · by_cases behind : less y x = true
        · obtain ⟨left, right, leftPerm, rightPerm, pairs⟩ := inner
          refine ⟨left, right, ?_, ?_, pairs⟩
          · rw [setDifference, differAt, if_neg before, if_pos behind]
            exact leftPerm
          · rw [setDifference, differAt, if_pos behind, cons_append]
            exact rightPerm.cons y
        · obtain ⟨left, right, leftPerm, rightPerm, pairs⟩ := outer ys
          refine ⟨x :: left, y :: right, ?_, ?_, .cons ?_ pairs⟩
          · rw [setDifference, differAt, if_neg before, if_neg behind]
            exact (leftPerm.cons x).trans perm_middle.symm
          · rw [setDifference, differAt, if_neg behind, if_neg before]
            exact (rightPerm.cons y).trans perm_middle.symm
          · exact ⟨Bool.eq_false_iff.mpr before, Bool.eq_false_iff.mpr behind⟩

end setDifference

/-- Paired elements with equal images. -/
theorem map_eq_of_pairs {β : Type} {R : α → α → Prop} (f : α → β) {left right : List α}
    (pairs : List.Forall₂ R left right)
    (images : ∀ x ∈ left, ∀ y ∈ right, R x y → f x = f y) : left.map f = right.map f := by
  induction pairs with
  | nil => rfl
  | cons related _ ih =>
    rw [map_cons, map_cons, images _ mem_cons_self _ mem_cons_self related, ih]
    intro x inLeft y inRight
    exact images x (mem_cons_of_mem _ inLeft) y (mem_cons_of_mem _ inRight)

end Nsblast
