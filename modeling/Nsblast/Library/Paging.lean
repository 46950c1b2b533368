import Mathlib.Data.List.TakeWhile
import Nsblast.Library.Outcome

/-!
# Fetching a list page by page

A client fetches a page, and as long as the page says that there is more, it goes on with
the next one, from the cursor the page names. Each page shows what comes next, up to a
number of items. Then the pages together show all items, each once, and all pages but the
last are full.

What a cursor stands for is a relation between the cursor and the items that are left. It
holds for the first cursor and is kept from page to page; nothing else is said about
cursors and pages here.
-/

namespace Nsblast.Paging

open List

variable {κ β α : Type} (fetch : κ → Run β) (more : β → Bool) (next : β → κ)

/-- Pages that are fetched one behind the other, up to the first without more. -/
inductive Fetched : κ → List β → Prop
  | last {cursor : κ} {page : β} (fetched : fetch cursor = .ok page) (ends : more page = false) :
      Fetched cursor [page]
  | further {cursor : κ} {page : β} {rest : List β} (fetched : fetch cursor = .ok page)
      (goesOn : more page = true) (later : Fetched (next page) rest) : Fetched cursor (page :: rest)

variable {fetch more next}

variable {cursor : κ} {pages : List β}

/-- What is fetched is determined by where it begins. -/
theorem Fetched.unique {first second : List β} (isFirst : Fetched fetch more next cursor first)
    (isSecond : Fetched fetch more next cursor second) : first = second := by
  induction isFirst generalizing second with
  | last fetched ends =>
    cases isSecond with
    | last fetched' _ =>
      cases fetched.symm.trans fetched'
      rfl
    | further fetched' goesOn _ =>
      cases fetched.symm.trans fetched'
      rw [ends] at goesOn
      cases goesOn
  | further fetched goesOn _ ih =>
    cases isSecond with
    | last fetched' ends =>
      cases fetched.symm.trans fetched'
      rw [ends] at goesOn
      cases goesOn
    | further fetched' _ later =>
      cases fetched.symm.trans fetched'
      rw [ih later]

/-- Every page was fetched. -/
theorem Fetched.mem (fetched : Fetched fetch more next cursor pages) {page : β}
    (member : page ∈ pages) : ∃ cursor, fetch cursor = .ok page := by
  induction fetched with
  | @last cursor only fetched _ =>
    rw [mem_singleton.mp member]
    exact ⟨cursor, fetched⟩
  | @further cursor first rest fetched _ _ ih =>
    rcases mem_cons.mp member with rfl | later
    · exact ⟨cursor, fetched⟩
    · exact ih later

/-- There is a first page, and it is the only one if there is no more. -/
theorem Fetched.first (fetched : Fetched fetch more next cursor pages) :
    ∃ page rest, pages = page :: rest ∧ fetch cursor = .ok page ∧ (more page = false → rest = []) := by
  cases fetched with
  | @last _ page fetched _ => exact ⟨page, [], rfl, fetched, fun _ => rfl⟩
  | @further _ page rest fetched goesOn _ =>
    refine ⟨page, rest, rfl, fetched, fun ends => ?_⟩
    rw [ends] at goesOn
    cases goesOn

/-- Exactly the last page is without more. -/
theorem Fetched.flags (fetched : Fetched fetch more next cursor pages) :
    ∃ front page, pages = front ++ [page] ∧ more page = false ∧ ∀ other ∈ front, more other = true := by
  induction fetched with
  | @last _ page _ ends => exact ⟨[], page, rfl, ends, fun _ member => nomatch member⟩
  | @further _ page rest _ goesOn _ ih =>
    obtain ⟨front, last, rfl, ends, others⟩ := ih
    refine ⟨page :: front, last, rfl, ends, fun other member => ?_⟩
    rcases mem_cons.mp member with rfl | later
    · exact goesOn
    · exact others other later

/-- Pages that show so many items each, and together the given ones in some order. -/
structure Complete (shown : β → List α) (items : List α) (size : Nat) (pages : List β) : Prop where
  all : (pages.flatMap shown).Perm items
  short : ∀ page ∈ pages, (shown page).length ≤ size
  full : ∀ page ∈ pages.dropLast, (shown page).length = size

/-- The page that is fetched at a cursor shows the next items. If there are more, it says so,
and its cursor stands for the rest. -/
structure Advances (fetch : κ → Run β) (more : β → Bool) (next : β → κ) (shown : β → List α)
    (size : Nat) (stands : κ → List α → Prop) (cursor : κ) (left : List α) (page : β) : Prop where
  fetched : fetch cursor = .ok page
  shows : (shown page).Perm (left.take size)
  more : more page = true ↔ size < left.length
  stands : size < left.length → stands (next page) (left.drop size)

/-- If every page advances, the pages are complete. -/
theorem fetched_complete {shown : β → List α} {size : Nat} {stands : κ → List α → Prop}
    (positive : 0 < size) (advances : ∀ cursor left, stands cursor left →
      ∃ page, Advances fetch more next shown size stands cursor left page) {left : List α}
    (start : stands cursor left) :
    ∃ pages, Fetched fetch more next cursor pages ∧ Complete shown left size pages := by
  -- Each page takes at least one item from what is left.
  induction count : left.length using Nat.strongRecOn generalizing cursor left with
  | ind total ih =>
    obtain ⟨page, advance⟩ := advances cursor left start
    have length := advance.shows.length_eq
    rw [length_take] at length
    by_cases goesOn : size < left.length
    · obtain ⟨rest, later, complete⟩ := ih (left.drop size).length
        (by rw [length_drop]; omega) (advance.stands goesOn) rfl
      have filled : rest ≠ [] := by
        intro none
        rw [none] at later
        cases later
      refine ⟨page :: rest, .further advance.fetched (advance.more.mpr goesOn) later, ?_, ?_, ?_⟩
      · rw [flatMap_cons]
        have parts := advance.shows.append complete.all
        rwa [take_append_drop] at parts
      · intro other member
        rcases mem_cons.mp member with rfl | inRest
        · omega
        · exact complete.short other inRest
      · intro other member
        rw [dropLast_cons_of_ne_nil filled] at member
        rcases mem_cons.mp member with rfl | inRest
        · omega
        · exact complete.full other inRest
    · have ends : more page = false := by
        rw [Bool.eq_false_iff]
        exact fun isMore => goesOn (advance.more.mp isMore)
      refine ⟨[page], .last advance.fetched ends, ?_, ?_, ?_⟩
      · have shows := advance.shows
        rw [take_of_length_le (by omega)] at shows
        simpa using shows
      · intro other member
        rw [mem_singleton.mp member]
        omega
      · intro other member
        cases member

end Nsblast.Paging
