import Mathlib.Algebra.BigOperators.Group.List.Basic
import Mathlib.Data.List.Sort
import Std.Data.ExtTreeMap
import Nsblast.Library.Outcome

/-!
# Reading an ordered map in the order of its keys

The entries of an ordered map, listed by ascending key, are determined by what
the map holds. A new key therefore enters the list at one place, between the
smaller and the larger keys, and a cursor placed on a key sees exactly the
entries at that key and behind it, nearest first. A loop that updates the value
of every key in turn leaves each with the result of one update. A sum over the
entries is the summand of one key and the sum over the others.
-/

namespace Nsblast.OrderedMap

open Std List ExtTreeMap OrientedCmp LawfulEqCmp

variable {K V : Type} {cmp : K → K → Ordering}

/-- The order of the entries of a map. -/
def Before (cmp : K → K → Ordering) (first second : K × V) : Prop :=
  cmp first.1 second.1 = .lt

variable [TransCmp cmp] (map : ExtTreeMap K V cmp)

instance before_irrefl : Std.Irrefl (Before (V := V) cmp) where
  irrefl entry less := by
    have self : cmp entry.1 entry.1 = .eq := ReflCmp.compare_self
    rw [Before, self] at less
    cases less

instance before_antisymm : Std.Antisymm (Before (V := V) cmp) where
  antisymm first second less more := by
    have greater := gt_of_lt less
    rw [Before, greater] at more
    cases more

theorem before_sorted : map.toList.Pairwise (Before cmp) :=
  ordered_keys_toList

variable [LawfulEqCmp cmp]

/-- A sorted list with the entries of a map is the list of the map. -/
theorem toList_eq_of_mem (entries : List (K × V)) (sorted : entries.Pairwise (Before cmp))
    (same : ∀ key value, (key, value) ∈ entries ↔ map[key]? = some value) :
    map.toList = entries := by
  apply (before_sorted map).eq_of_mem_iff sorted
  rintro ⟨key, value⟩
  rw [mem_toList_iff_getElem?_eq_some, same]

/-- The entries with smaller keys. -/
def below (map : ExtTreeMap K V cmp) (key : K) : List (K × V) :=
  map.toList.filter fun entry => cmp entry.1 key == .lt

/-- The entries with larger keys. -/
def above (map : ExtTreeMap K V cmp) (key : K) : List (K × V) :=
  map.toList.filter fun entry => cmp key entry.1 == .lt

/-- Placing a cursor on a key: the entries at this key and behind it. -/
def seek (map : ExtTreeMap K V cmp) (key : K) : List (K × V) :=
  map.toList.filter fun entry => (cmp key entry.1).isLE

/-- A cursor placed on the last entry at or before a key, or on the first or last of all
if there is none, and moved on from there. An entry it was placed on may be skipped. -/
def fromPrev (map : ExtTreeMap K V cmp) (key : K) (skip forward : Bool) : List (K × V) :=
  match (map.toList.filter fun entry => (cmp entry.1 key).isLE).reverse with
  | [] => if forward then map.toList else map.toList.reverse
  | last :: before =>
      let behind := if forward then above map key else before
      if skip then behind else last :: behind

theorem mem_below (key : K) (entry : K × V) :
    entry ∈ below map key ↔ map[entry.1]? = some entry.2 ∧ cmp entry.1 key = .lt := by
  rw [below, mem_filter, mem_toList_iff_getElem?_eq_some]
  simp

theorem mem_above (key : K) (entry : K × V) :
    entry ∈ above map key ↔ map[entry.1]? = some entry.2 ∧ cmp key entry.1 = .lt := by
  rw [above, mem_filter, mem_toList_iff_getElem?_eq_some]
  simp

theorem mem_seek (key : K) (entry : K × V) :
    entry ∈ seek map key ↔ map[entry.1]? = some entry.2 ∧ (cmp key entry.1).isLE := by
  rw [seek, mem_filter, mem_toList_iff_getElem?_eq_some]

variable {key : K}

/-- Such a cursor visits entries of the map. -/
theorem mem_of_mem_fromPrev {skip forward : Bool} {entry : K × V}
    (visited : entry ∈ fromPrev map key skip forward) : map[entry.1]? = some entry.2 := by
  have listed (entry : K × V) (member : entry ∈ map.toList) : map[entry.1]? = some entry.2 :=
    mem_toList_iff_getElem?_eq_some.mp member
  rw [fromPrev] at visited
  split at visited
  · apply listed
    cases forward <;> simpa using visited
  · rename_i last before isLast
    have inBefore (entry : K × V) (member : entry ∈ last :: before) : map[entry.1]? = some entry.2 := by
      rw [← isLast, mem_reverse, mem_filter] at member
      exact listed entry member.1
    have inBehind (member : entry ∈ if forward then above map key else before) :
        map[entry.1]? = some entry.2 := by
      cases forward with
      | true => exact ((mem_above map key entry).mp member).1
      | false => exact inBefore entry (mem_cons_of_mem _ member)
    cases skip with
    | true => exact inBehind visited
    | false =>
      rcases mem_cons.mp visited with rfl | later
      · exact inBefore entry mem_cons_self
      · exact inBehind later

omit [LawfulEqCmp cmp] in
theorem seek_sorted (key : K) : (seek map key).Pairwise (Before cmp) :=
  (before_sorted map).filter _

variable {value : V}

/-- A cursor placed on a key that is there stands on it. -/
theorem seek_present
    (present : map[key]? = some value) : seek map key = (key, value) :: above map key := by
  have sorted : ((key, value) :: above map key).Pairwise (Before cmp) := by
    rw [pairwise_cons]
    refine ⟨?_, (before_sorted map).filter _⟩
    intro entry larger
    exact ((mem_above map key entry).mp larger).2
  apply (seek_sorted map key).eq_of_mem_iff sorted
  rintro ⟨other, found⟩
  rw [mem_seek, mem_cons, mem_above]
  have self : cmp key key = .eq := ReflCmp.compare_self
  constructor
  · rintro ⟨stored, le⟩
    cases order : cmp key other with
    | lt => exact Or.inr ⟨stored, rfl⟩
    | gt =>
      rw [order] at le
      cases le
    | eq =>
      have same : key = other := eq_of_compare order
      subst same
      cases present.symm.trans stored
      exact Or.inl rfl
  · rintro (same | ⟨stored, less⟩)
    · cases same
      exact ⟨present, by rw [self]; rfl⟩
    · exact ⟨stored, by rw [less]; rfl⟩

/-- Smaller entries followed by larger ones are sorted. -/
theorem below_above_sorted (key : K) (value : V) :
    (below map key ++ (key, value) :: above map key).Pairwise (Before cmp) := by
  rw [pairwise_append, pairwise_cons]
  refine ⟨(before_sorted map).filter _, ⟨?_, (before_sorted map).filter _⟩, ?_⟩
  · intro entry larger
    exact ((mem_above map key entry).mp larger).2
  · intro first smaller second later
    have less := ((mem_below map key first).mp smaller).2
    rcases mem_cons.mp later with rfl | larger
    · exact less
    · exact TransCmp.lt_trans less ((mem_above map key second).mp larger).2

/-- Without the key, the map lists the smaller entries and then the larger. -/
theorem toList_absent (absent : map[key]? = none) :
    map.toList = below map key ++ above map key := by
  apply toList_eq_of_mem
  · rw [pairwise_append]
    refine ⟨(before_sorted map).filter _, (before_sorted map).filter _, ?_⟩
    intro first smaller second larger
    exact TransCmp.lt_trans ((mem_below map key first).mp smaller).2
      ((mem_above map key second).mp larger).2
  · intro other value
    rw [mem_append, mem_below, mem_above]
    constructor
    · rintro (⟨stored, _⟩ | ⟨stored, _⟩) <;> exact stored
    · intro stored
      cases order : cmp other key with
      | lt => exact Or.inl ⟨stored, rfl⟩
      | gt => exact Or.inr ⟨stored, lt_of_gt order⟩
      | eq =>
        rw [eq_of_compare order, absent] at stored
        cases stored

/-- A new key enters the list between the smaller and the larger ones. -/
theorem toList_insert (key : K) (value : V) :
    (map.insert key value).toList = below map key ++ (key, value) :: above map key := by
  apply toList_eq_of_mem
  · exact below_above_sorted map key value
  · intro other found
    rw [mem_append, mem_cons, mem_below, mem_above, ExtTreeMap.getElem?_insert]
    have self : cmp key key = .eq := ReflCmp.compare_self
    cases order : cmp key other with
    | lt =>
      have greater := gt_of_lt order
      have differ : other ≠ key := by
        rintro rfl
        rw [self] at order
        cases order
      simp [greater, differ]
    | gt =>
      have less := lt_of_gt order
      have differ : other ≠ key := by
        rintro rfl
        rw [self] at order
        cases order
      simp [less, differ]
    | eq =>
      cases eq_of_compare order
      simp [ReflCmp.compare_self, eq_comm]

/-- The entries up to a key are the smaller ones and the one at the key. -/
theorem upTo_eq (key : K) : (map.toList.filter fun entry => (cmp entry.1 key).isLE) =
      below map key ++ (map[key]?.map fun value => (key, value)).toList := by
  have self : cmp key key = .eq := ReflCmp.compare_self
  have sorted : (below map key ++ (map[key]?.map fun value => (key, value)).toList).Pairwise
      (Before cmp) := by
    rw [pairwise_append]
    refine ⟨(before_sorted map).filter _, ?_, ?_⟩
    · cases map[key]? <;> simp
    · intro first smaller second atKey
      cases found : map[key]? with
      | none =>
        rw [found] at atKey
        cases atKey
      | some value =>
        rw [found, Option.map_some, Option.toList_some, mem_singleton] at atKey
        rw [atKey]
        exact ((mem_below map key first).mp smaller).2
  apply ((before_sorted map).filter _).eq_of_mem_iff sorted
  rintro ⟨other, value⟩
  rw [mem_filter, mem_append, mem_below, mem_toList_iff_getElem?_eq_some]
  cases order : cmp other key with
  | lt =>
    have differs : key ≠ other := by
      rintro rfl
      rw [self] at order
      cases order
    simp [differs]
  | gt =>
    have differs : key ≠ other := by
      rintro rfl
      rw [self] at order
      cases order
    simp [differs]
  | eq =>
    cases eq_of_compare order
    simp

/-- Skipping the last entry up to a key, the cursor is at the first one behind it. -/
theorem fromPrev_forward (key : K) : fromPrev map key true true = above map key := by
  rw [fromPrev]
  split
  · rename_i noneUpTo
    rw [reverse_eq_nil_iff, upTo_eq, append_eq_nil_iff] at noneUpTo
    have absent : map[key]? = none := by simpa using noneUpTo.2
    rw [if_pos rfl, toList_absent map absent, noneUpTo.1, nil_append]
  · rfl

/-- Backwards from a key that is there, the cursor is at the last one before it. -/
theorem fromPrev_backward_present (present : map[key]? = some value) :
    fromPrev map key true false = (below map key).reverse := by
  simp [fromPrev, upTo_eq, present]

/-- Backwards from a key that is not there, the last entry before it is left out; and if
there is none, the cursor is at the very last entry. -/
theorem fromPrev_backward_absent (absent : map[key]? = none) : fromPrev map key true false =
      if below map key = [] then (above map key).reverse else (below map key).reverse.tail := by
  rw [fromPrev, upTo_eq, absent, Option.map_none, Option.toList_none, append_nil,
    toList_absent map absent]
  split
  · rename_i none
    rw [reverse_eq_nil_iff] at none
    rw [if_pos none, none, nil_append, if_neg Bool.false_ne_true]
  · rename_i last before isBelow
    have filled : below map key ≠ [] := by
      intro none
      rw [none] at isBelow
      cases isBelow
    rw [if_neg filled, isBelow, tail_cons]
    rfl

/-- If what passes a test comes first, stopping at what does not is the same as leaving it
out. -/
theorem takeWhile_eq_filter {α : Type} (p : α → Bool) {list : List α}
    (first : list.Pairwise fun earlier later => p later = true → p earlier = true) :
    list.takeWhile p = list.filter p := by
  induction list with
  | nil => rfl
  | cons x rest ih =>
    obtain ⟨before, ordered⟩ := pairwise_cons.mp first
    by_cases passes : p x = true
    · rw [takeWhile_cons_of_pos passes, filter_cons_of_pos passes, ih ordered]
    · have none : rest.filter p = [] := by
        rw [filter_eq_nil_iff]
        exact fun later member isLater => passes (before later member isLater)
      rw [takeWhile_cons_of_neg passes, filter_cons_of_neg passes, none]

variable {after before : List (K × V)} {p : K × V → Bool} {index : Nat}

/-- What lies behind an entry of an upper part of the map is the rest of that part. -/
theorem filter_behind (upper p : K × V → Bool)
    (upward : ∀ first second, upper first = true → Before cmp first second → upper second = true)
    (item : K × V) (part : (map.toList.filter upper).filter p = before ++ item :: after) :
    (above map item.1).filter p = after := by
  have sorted : (before ++ item :: after).Pairwise (Before cmp) := by
    rw [← part]
    exact ((before_sorted map).filter _).filter p
  have listed : ∀ other, other ∈ before ++ item :: after ↔
      (map[other.1]? = some other.2 ∧ upper other = true) ∧ p other = true := by
    rintro ⟨other, value⟩
    rw [← part, mem_filter, mem_filter, mem_toList_iff_getElem?_eq_some]
  obtain ⟨_, behind, inOrder⟩ := pairwise_append.mp sorted
  obtain ⟨first, afterSorted⟩ := pairwise_cons.mp behind
  have isUpper := ((listed item).mp (by simp)).1.2
  apply (((before_sorted map).filter _).filter p).eq_of_mem_iff afterSorted
  intro other
  rw [mem_filter, ← above, mem_above]
  constructor
  · rintro ⟨⟨stored, above⟩, passes⟩
    have member := (listed other).mpr ⟨⟨stored, upward item other isUpper above⟩, passes⟩
    rcases mem_append.mp member with isBefore | isAfter
    · have less := inOrder other isBefore item mem_cons_self
      rw [Before, gt_of_lt above] at less
      cases less
    · rcases mem_cons.mp isAfter with rfl | later
      · have self : cmp other.1 other.1 = .eq := ReflCmp.compare_self
        rw [self] at above
        cases above
      · exact later
  · intro later
    obtain ⟨⟨stored, _⟩, passes⟩ :=
      (listed other).mp (mem_append_right _ (mem_cons_of_mem _ later))
    exact ⟨⟨stored, first other later⟩, passes⟩

variable {item : K × V} {cursor : K}

theorem above_filter_behind (part : (above map cursor).filter p = before ++ item :: after) :
    (above map item.1).filter p = after := by
  apply filter_behind map _ p _ item part
  intro first second isAbove later
  rw [beq_iff_eq] at isAbove ⊢
  exact TransCmp.lt_trans isAbove later

theorem seek_behind (part : seek map cursor = before ++ item :: after) :
    above map item.1 = after := by
  have behind := filter_behind map (fun entry => (cmp cursor entry.1).isLE) (fun _ => true)
    (fun first second isAbove later => TransCmp.isLE_trans isAbove (by rw [later]; rfl))
    item (by rw [filter_true]; exact part)
  rwa [filter_true] at behind

/-- The first entry behind a key is at most every other. -/
theorem isLE_of_mem_cons {map : ExtTreeMap K V cmp} {first : K × V}
    {rest : List (K × V)} (parts : above map key = first :: rest) (member : item ∈ above map key) :
    (cmp first.1 item.1).isLE := by
  have sorted : (above map key).Pairwise (Before cmp) := (before_sorted map).filter _
  rw [parts] at sorted member
  rcases mem_cons.mp member with rfl | later
  · have self : cmp item.1 item.1 = .eq := ReflCmp.compare_self
    rw [self]
    rfl
  · rw [(pairwise_cons.mp sorted).1 item later]
    rfl

/-- Behind an element that was taken, what is taken goes on. -/
theorem takeWhile_split {α : Type} {p : α → Bool} {list : List α} {item : α}
    (isItem : (list.takeWhile p)[index]? = some item) :
    ∃ before after, list = before ++ item :: after ∧
      after.takeWhile p = (list.takeWhile p).drop (index + 1) := by
  induction list generalizing index with
  | nil => cases isItem
  | cons first rest ih =>
    by_cases passes : p first = true
    · rw [takeWhile_cons_of_pos passes] at isItem ⊢
      cases index with
      | zero =>
        cases isItem
        exact ⟨[], rest, rfl, rfl⟩
      | succ index =>
        obtain ⟨before, after, rfl, taken⟩ := ih isItem
        exact ⟨first :: before, after, rfl, taken⟩
    · rw [takeWhile_cons_of_neg passes] at isItem
      cases isItem

theorem seek_takeWhile_behind (isItem : ((seek map cursor).takeWhile p)[index]? = some item) :
    (above map item.1).takeWhile p = ((seek map cursor).takeWhile p).drop (index + 1) := by
  obtain ⟨before, after, parts, taken⟩ := takeWhile_split isItem
  rw [seek_behind map parts, taken]

/-- A cursor placed on a key that is there begins with it. -/
theorem fromPrev_present
    (present : map[key]? = some value) : fromPrev map key false true = seek map key := by
  simp [fromPrev, upTo_eq, present, seek_present map present]

section update

variable (f : V → Run V)

/-- The loop that updates the values of the listed entries in turn. -/
def updateFrom : List (K × V) → ExtTreeMap K V cmp → Run (ExtTreeMap K V cmp)
  | [], map => .ok map
  | (key, value) :: rest, map => do
      let next ← f value
      updateFrom rest (map.insert key next)

/-- Updating every value of a map, by ascending key. -/
def update (map : ExtTreeMap K V cmp) : Run (ExtTreeMap K V cmp) := updateFrom f map.toList map

omit [LawfulEqCmp cmp] in
/-- Keys that are not listed keep their values. -/
theorem updateFrom_frame (entries : List (K × V)) (map result : ExtTreeMap K V cmp)
    (returned : updateFrom f entries map = .ok result) (key : K)
    (absent : ∀ entry ∈ entries, cmp entry.1 key ≠ .eq) : result[key]? = map[key]? := by
  induction entries generalizing map with
  | nil =>
    cases returned
    rfl
  | cons entry rest ih =>
    obtain ⟨first, value⟩ := entry
    rw [updateFrom, Run.bind_eq_ok] at returned
    obtain ⟨next, _, later⟩ := returned
    rw [ih _ later fun other member => absent other (mem_cons_of_mem _ member),
      ExtTreeMap.getElem?_insert, if_neg (absent (first, value) mem_cons_self)]

omit [LawfulEqCmp cmp] in
/-- A listed key gets the update of its value. -/
theorem updateFrom_updated (entries : List (K × V)) (map result : ExtTreeMap K V cmp)
    (sorted : entries.Pairwise (Before cmp)) (returned : updateFrom f entries map = .ok result)
    (key : K) (value : V) (listed : (key, value) ∈ entries) :
    ∃ next, f value = .ok next ∧ result[key]? = some next := by
  induction entries generalizing map with
  | nil => cases listed
  | cons entry rest ih =>
    obtain ⟨first, old⟩ := entry
    rw [updateFrom, Run.bind_eq_ok] at returned
    obtain ⟨new, updated, later⟩ := returned
    rw [pairwise_cons] at sorted
    rcases mem_cons.mp listed with same | listed
    · cases same
      refine ⟨new, updated, ?_⟩
      rw [updateFrom_frame f rest _ result later key, getElem?_insert_self]
      intro other member equal
      have less := sorted.1 other member
      rw [Before, eq_symm equal] at less
      cases less
    · exact ih _ sorted.2 later listed

/-- What an update of every value leaves at a key. -/
theorem update_eq_ok {map result : ExtTreeMap K V cmp} (returned : update f map = .ok result)
    (key : K) :
    (map[key]? = none ∧ result[key]? = none) ∨
      ∃ value next, map[key]? = some value ∧ f value = .ok next ∧ result[key]? = some next := by
  cases found : map[key]? with
  | none =>
    refine Or.inl ⟨rfl, ?_⟩
    rw [updateFrom_frame f map.toList map result returned key, found]
    rintro ⟨other, value⟩ member equal
    have same : other = key := eq_of_compare equal
    rw [mem_toList_iff_getElem?_eq_some, same, found] at member
    cases member
  | some value =>
    obtain ⟨next, updated, stored⟩ := updateFrom_updated f map.toList map result
      (before_sorted map) returned key value
      (mem_toList_iff_getElem?_eq_some.mpr found)
    exact Or.inr ⟨value, next, rfl, updated, stored⟩

end update

section total

variable {M : Type} [AddCommMonoid M] (f : K → V → M)

/-- The sum over the entries. -/
def total (map : ExtTreeMap K V cmp) : M := (map.toList.map fun entry => f entry.1 entry.2).sum

/-- The summand of a key, which may be absent. -/
def worth (key : K) (value : Option V) : M := value.elim 0 (f key)

/-- The map lists the smaller entries, the entry of the key, and the larger ones. -/
theorem toList_present (present : map[key]? = some value) :
    map.toList = below map key ++ (key, value) :: above map key := by
  rw [← toList_insert]
  congr 1
  apply ExtTreeMap.ext_getElem?
  intro other
  rw [ExtTreeMap.getElem?_insert]
  split
  · rename_i equal
    rw [← eq_of_compare equal, present]
  · rfl

theorem toList_erase (key : K) : (map.erase key).toList = below map key ++ above map key := by
  rw [toList_absent (map.erase key) getElem?_erase_self]
  congr 1
  · apply ((before_sorted _).filter _).eq_of_mem_iff ((before_sorted map).filter _)
    intro entry
    rw [← below, ← below, mem_below, mem_below, getElem?_erase]
    refine and_congr_left fun less => ?_
    rw [gt_of_lt less, if_neg nofun]
  · apply ((before_sorted _).filter _).eq_of_mem_iff ((before_sorted map).filter _)
    intro entry
    rw [← above, ← above, mem_above, mem_above, getElem?_erase]
    refine and_congr_left fun less => ?_
    rw [less, if_neg nofun]

/-- One key and all the others. -/
theorem total_eq (map : ExtTreeMap K V cmp) (key : K) :
    total f map = worth f key map[key]? + total f (map.erase key) := by
  rw [total, total, toList_erase]
  cases found : map[key]? with
  | none => rw [toList_absent map found, worth, Option.elim_none, zero_add]
  | some value =>
    rw [toList_present map found, worth, Option.elim_some, map_append, map_cons,
      sum_append, sum_cons, map_append, sum_append, add_left_comm]

/-- The sums over two maps that agree except at one key. -/
theorem total_agree (first second : ExtTreeMap K V cmp) (key : K)
    (agree : ∀ other, other ≠ key → first[other]? = second[other]?) :
    ∃ rest, total f first = worth f key first[key]? + rest ∧
      total f second = worth f key second[key]? + rest := by
  have sameRest : first.erase key = second.erase key := by
    apply ExtTreeMap.ext_getElem?
    intro other
    rw [getElem?_erase, getElem?_erase]
    split
    · rfl
    · rename_i differs
      apply agree
      rintro rfl
      exact differs ReflCmp.compare_self
  refine ⟨_, total_eq f first key, ?_⟩
  rw [sameRest]
  exact total_eq f second key

/-- The sums over two maps that agree except at two keys. -/
theorem total_agree_two {first second : ExtTreeMap K V cmp} {one two : K} (differ : one ≠ two)
    (agree : ∀ other, other ≠ one → other ≠ two → first[other]? = second[other]?) :
    ∃ rest, total f first = worth f one first[one]? + (worth f two first[two]? + rest) ∧
      total f second = worth f one second[one]? + (worth f two second[two]? + rest) := by
  have erased (map : ExtTreeMap K V cmp) (other : K) (notOne : other ≠ one) :
      (map.erase one)[other]? = map[other]? := by
    rw [getElem?_erase, if_neg]
    intro equal
    exact notOne (eq_of_compare equal).symm
  obtain ⟨rest, firstRest, secondRest⟩ := total_agree f (first.erase one) (second.erase one) two (by
    intro other notTwo
    by_cases isOne : other = one
    · rw [isOne, getElem?_erase_self, getElem?_erase_self]
    · rw [erased first other isOne, erased second other isOne, agree other isOne notTwo])
  rw [erased first two (Ne.symm differ)] at firstRest
  rw [erased second two (Ne.symm differ)] at secondRest
  exact ⟨rest, by rw [total_eq f first one, firstRest], by rw [total_eq f second one, secondRest]⟩

end total

end Nsblast.OrderedMap
