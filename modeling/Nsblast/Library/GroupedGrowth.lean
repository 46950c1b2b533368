import Nsblast.Library.SortedRange

/-!
# Growing by groups without what is there

A range grows by groups. Each group is sorted, the loop of `std::set_difference` takes away
from it what is there already, and the rest is appended. What is there is made of sorted runs
and need not be sorted itself. The loop therefore misses an element that stands behind a greater
one, and appends it a second time. Neither does it look for elements that one group has twice.

The two together are all that can go wrong: the range has no element twice exactly if no group
has, and no element comes again that first came in a group behind one with a greater element.

Nothing here mentions a particular element type.
-/

namespace Nsblast.GroupedGrowth

open List

variable {α : Type} (less : α → α → Bool)

/-- When the element first came, a greater one had come in an earlier group. -/
def Late (groups : List (List α)) (x : α) : Prop :=
  ∃ earlier first later, groups = earlier ++ first :: later ∧ x ∈ first ∧ x ∉ earlier.flatten ∧
    ∃ y ∈ earlier.flatten, less x y = true

/-- No group has an element twice, and no late element comes again. -/
def Once (groups : List (List α)) : Prop :=
  (∀ group ∈ groups, group.Nodup) ∧
    ∀ before again after, groups = before ++ again :: after → ∀ x ∈ again, ¬ Late less before x

variable {less} {groups : List (List α)} {group xs there : List α} {x : α}

/-- One group of a list of groups is the last one or stands before it. -/
theorem concat_eq_append_cons_iff {before after : List (List α)} {one : List α} :
    groups ++ [group] = before ++ one :: after ↔
      (before = groups ∧ one = group ∧ after = []) ∨
        ∃ rest, groups = before ++ one :: rest ∧ after = rest ++ [group] := by
  constructor
  · intro same
    rcases after.eq_nil_or_concat with rfl | ⟨rest, last, rfl⟩
    · obtain ⟨left, right⟩ := append_inj' same rfl
      exact Or.inl ⟨left.symm, (cons.inj right).1.symm, rfl⟩
    · rw [concat_eq_append, ← cons_append, ← append_assoc] at same
      obtain ⟨left, right⟩ := append_inj' same rfl
      rw [(cons.inj right).1, concat_eq_append]
      exact Or.inr ⟨rest, left, rfl⟩
  · rintro (⟨rfl, rfl, rfl⟩ | ⟨rest, rfl, rfl⟩)
    · rfl
    · simp

/-- A late element has come. -/
theorem Late.mem (late : Late less groups x) : x ∈ groups.flatten := by
  obtain ⟨earlier, first, later, rfl, member, _⟩ := late
  simp [member]

/-- A further group makes those late that come new and below what has come. -/
theorem late_concat_iff : Late less (groups ++ [group]) x ↔ Late less groups x ∨
    (x ∈ group ∧ x ∉ groups.flatten ∧ ∃ y ∈ groups.flatten, less x y = true) := by
  constructor
  · rintro ⟨earlier, first, later, split, member, new, greater⟩
    rcases concat_eq_append_cons_iff.mp split with ⟨rfl, rfl, rfl⟩ | ⟨rest, rfl, rfl⟩
    · exact Or.inr ⟨member, new, greater⟩
    · exact Or.inl ⟨earlier, first, rest, rfl, member, new, greater⟩
  · rintro (⟨earlier, first, later, rfl, member, new, greater⟩ | ⟨member, new, greater⟩)
    · exact ⟨earlier, first, later ++ [group], by simp, member, new, greater⟩
    · exact ⟨groups, group, [], rfl, member, new, greater⟩

/-- What a further group has to keep to. -/
theorem once_concat_iff : Once less (groups ++ [group]) ↔
    Once less groups ∧ group.Nodup ∧ ∀ x ∈ group, ¬ Late less groups x := by
  constructor
  · rintro ⟨single, again⟩
    refine ⟨⟨fun other member => single other (mem_append_left _ member), ?_⟩,
      single group (mem_append_right _ (mem_singleton_self _)), again groups group [] rfl⟩
    rintro before one after rfl
    exact again before one (after ++ [group]) (by simp)
  · rintro ⟨⟨single, again⟩, last, fresh⟩
    refine ⟨?_, ?_⟩
    · intro other member
      rcases mem_append.mp member with earlier | here
      · exact single other earlier
      · rw [mem_singleton.mp here]
        exact last
    · intro before one after split
      rcases concat_eq_append_cons_iff.mp split with ⟨rfl, rfl, rfl⟩ | ⟨rest, same, _⟩
      · exact fresh
      · exact again before one rest same

/-- Nothing is there twice when nothing has come. -/
theorem once_of_flatten_nil (nothing : groups.flatten = []) : Once less groups := by
  have empty := flatten_eq_nil_iff.mp nothing
  refine ⟨?_, ?_⟩
  · intro group member
    rw [empty group member]
    exact nodup_nil
  · rintro before again after rfl x member
    rw [empty again (by simp)] at member
    cases member

/-- Of two groups the first one has no late elements. -/
theorem once_pair_iff (first second : List α) :
    Once less [first, second] ↔ first.Nodup ∧ second.Nodup := by
  have none (x : α) : ¬ Late less [] x := fun late => by simpa using late.mem
  have nothing : Once less ([] : List (List α)) := once_of_flatten_nil rfl
  have early (x : α) : ¬ Late less [first] x := by
    rw [← nil_append [first], late_concat_iff]
    rintro (late | ⟨_, _, _, came, _⟩)
    · exact none x late
    · simp at came
  rw [← singleton_append, once_concat_iff, ← nil_append [first], once_concat_iff, nil_append]
  simp [nothing, none, early]

/-- `less` is a strict total order. -/
structure StrictTotal (less : α → α → Bool) : Prop where
  asymm : ∀ {x y}, less x y = true → less y x = false
  trans : ∀ {x y z}, less x y = true → less y z = true → less x z = true
  total : ∀ {x y}, less x y = false → less y x = false → x = y

theorem StrictTotal.irrefl (order : StrictTotal less) (x : α) : less x x = false := by
  by_contra self
  rw [Bool.not_eq_false] at self
  cases self.symm.trans (order.asymm self)

/-- No greater element stands before the first place of the element. -/
def Met (less : α → α → Bool) (there : List α) (x : α) : Prop :=
  ∀ front back, there = front ++ x :: back → ∀ y ∈ front, less x y = false

/-- If the first element is not greater, it does not matter. -/
theorem met_cons_iff {y : α} (differs : x ≠ y) (below : less x y = false) :
    Met less (y :: there) x ↔ Met less there x := by
  constructor
  · rintro met front back rfl other member
    exact met (y :: front) back rfl other (mem_cons_of_mem y member)
  · intro met front back split other member
    cases front with
    | nil => cases member
    | cons first front =>
      obtain ⟨rfl, rfl⟩ := cons.inj split
      rcases mem_cons.mp member with rfl | later
      · exact below
      · exact met front back rfl other later

/-- Behind a greater first element, only an element that is not there is met. -/
theorem met_cons_of_less {y : α} (order : StrictTotal less) (above : less x y = true) :
    Met less (y :: there) x ↔ x ∉ y :: there := by
  constructor
  · intro met member
    rcases mem_cons.mp member with rfl | later
    · cases above.symm.trans (order.irrefl x)
    · obtain ⟨front, back, rfl⟩ := append_of_mem later
      cases above.symm.trans (met (y :: front) back rfl y mem_cons_self)
  · intro absent front back split
    rw [split] at absent
    simp at absent

/-- Of what is not there, nothing is taken away. -/
theorem mem_setDifference_iff (order : StrictTotal less) (absent : x ∉ there) :
    x ∈ setDifference less xs there ↔ x ∈ xs := by
  refine ⟨fun member => (setDifference_sublist less xs there).subset member, fun member => ?_⟩
  rcases mem_setDifference_or less xs there member with kept | ⟨other, met, low, high⟩
  · exact kept
  · rw [order.total low high] at absent
    exact absurd met absent

/-- The loop has passed the first element of both ranges. -/
theorem pass_equal_iff {passed : List α} (distinct : (passed ++ x :: there).Nodup)
    (rising : ∀ other ∈ xs, less other x = false) :
    (xs.Nodup ∧ (∀ other ∈ xs, other ∉ passed ++ [x]) ∧ ∀ other ∈ xs, Met less there other) ↔
      (x :: xs).Nodup ∧ (∀ other ∈ x :: xs, other ∉ passed) ∧
        ∀ other ∈ x :: xs, Met less (x :: there) other := by
  obtain ⟨_, rest, apart⟩ := nodup_append.mp distinct
  have notPassed : x ∉ passed := fun passes => apart x passes x mem_cons_self rfl
  have here : Met less (x :: there) x := by
    intro front back split other member
    cases front with
    | nil => cases member
    | cons first front =>
      have single := (nodup_cons.mp rest).1
      rw [(cons.inj split).2] at single
      simp at single
  rw [nodup_cons, forall_mem_cons, forall_mem_cons]
  constructor
  · rintro ⟨distinctXs, apart, met⟩
    have new : x ∉ xs := fun member => apart x member (by simp)
    refine ⟨⟨new, distinctXs⟩, ⟨notPassed, fun other member passes =>
      apart other member (mem_append_left _ passes)⟩, here, fun other member => ?_⟩
    have differs : other ≠ x := fun same => new (same ▸ member)
    exact (met_cons_iff differs (rising other member)).mpr (met other member)
  · rintro ⟨⟨new, distinctXs⟩, ⟨_, apart⟩, _, met⟩
    have differs (other : α) (member : other ∈ xs) : other ≠ x :=
      fun same => new (same ▸ member)
    refine ⟨distinctXs, fun other member passes => ?_, fun other member => ?_⟩
    · rcases mem_append.mp passes with earlier | last
      · exact apart other member earlier
      · exact differs other member (mem_singleton.mp last)
    · exact (met_cons_iff (differs other member) (rising other member)).mp (met other member)

/-- The loop, wherever it is in the range: what it has passed is in `passed`, where nothing is
greater than what is left of the group. -/
theorem nodup_walk_iff (order : StrictTotal less) (passed : List α)
    (sorted : xs.Pairwise fun first second => less second first = false)
    (distinct : (passed ++ there).Nodup) (below : ∀ x ∈ xs, ∀ y ∈ passed, less x y = false) :
    (passed ++ there ++ setDifference less xs there).Nodup ↔
      xs.Nodup ∧ (∀ x ∈ xs, x ∉ passed) ∧ ∀ x ∈ xs, Met less there x := by
  induction xs generalizing passed there with
  | nil => simpa [setDifference] using distinct
  | cons x xs outer =>
    obtain ⟨rising, later⟩ := pairwise_cons.mp sorted
    induction there generalizing passed with
    | nil =>
      have all (other : α) : Met less [] other := by
        intro front back split
        simp at split
      rw [append_nil] at distinct ⊢
      rw [setDifference_nil, nodup_append]
      constructor
      · rintro ⟨_, single, apart⟩
        exact ⟨single, fun other member passes => apart other passes other member rfl,
          fun other _ => all other⟩
      · rintro ⟨single, apart, _⟩
        exact ⟨distinct, single, fun other passes one member same =>
          apart one member (same ▸ passes)⟩
    | cons y there inner =>
      have moved : passed ++ y :: there = passed ++ [y] ++ there := by simp
      by_cases before : less x y = true
      · have step := outer passed later distinct
          fun other member => below other (mem_cons_of_mem x member)
        rw [setDifference, differAt, if_pos before, nodup_middle, nodup_cons, step, mem_append,
          mem_append, forall_mem_cons, forall_mem_cons, met_cons_of_less order before, nodup_cons]
        constructor
        · rintro ⟨absent, single, apart, met⟩
          simp only [not_or] at absent
          exact ⟨⟨fun member => absent.2 ((mem_setDifference_iff order absent.1.2).mpr member),
            single⟩, ⟨absent.1.1, apart⟩, absent.1.2, met⟩
        · rintro ⟨⟨new, single⟩, ⟨notPassed, apart⟩, absent, met⟩
          simp only [not_or]
          exact ⟨⟨⟨notPassed, absent⟩, fun member =>
            new ((mem_setDifference_iff order absent).mp member)⟩, single, apart, met⟩
      · rw [Bool.not_eq_true] at before
        by_cases behind : less y x = true
        · have above : ∀ other ∈ x :: xs, less other y = false ∧ other ≠ y := by
            intro other member
            have notBelow : less other x = false := by
              rcases mem_cons.mp member with rfl | listed
              · exact order.irrefl other
              · exact rising other listed
            constructor
            · by_contra less'
              rw [Bool.not_eq_false] at less'
              cases notBelow.symm.trans (order.trans less' behind)
            · rintro rfl
              cases notBelow.symm.trans behind
          rw [moved] at distinct ⊢
          rw [setDifference, differAt, if_neg (by simp [before]), if_pos behind]
          refine (inner (passed ++ [y]) distinct ?_).trans ?_
          · intro other member one passes
            rcases mem_append.mp passes with earlier | here
            · exact below other member one earlier
            · rw [mem_singleton.mp here]
              exact (above other member).1
          · refine and_congr_right fun _ => and_congr ?_ ?_
            · refine forall₂_congr fun other member => ?_
              simp [(above other member).2]
            · refine forall₂_congr fun other member => ?_
              exact (met_cons_iff (above other member).2 (above other member).1).symm
        · rw [Bool.not_eq_true] at behind
          obtain rfl := order.total before behind
          rw [← pass_equal_iff distinct rising]
          rw [moved] at distinct ⊢
          rw [setDifference, differAt, if_neg (by simp [before]), if_neg (by simp [before])]
          refine outer (passed ++ [x]) later distinct ?_
          intro other member one passes
          rcases mem_append.mp passes with earlier | last
          · exact below other (mem_cons_of_mem x member) one earlier
          · rw [mem_singleton.mp last]
            exact rising other member

/-- What is there after the groups: what they have, without repetition exactly if they keep to
`Once`, and then with a greater element before the late ones only. -/
structure Piled (less : α → α → Bool) (groups : List (List α)) (there : List α) : Prop where
  mem : ∀ x, x ∈ there ↔ x ∈ groups.flatten
  once : there.Nodup ↔ Once less groups
  late : there.Nodup → ∀ front x back, there = front ++ x :: back →
    ((∃ y ∈ front, less x y = true) ↔ Late less groups x)

/-- Groups without elements leave nothing. -/
theorem piled_nil (count : Nat) : Piled less (replicate count []) ([] : List α) where
  mem x := by simp
  once := by
    have nothing : (replicate count ([] : List α)).flatten = [] := by simp
    exact ⟨fun _ => once_of_flatten_nil nothing, fun _ => nodup_nil⟩
  late _ front x back split := by simp at split

/-- The elements that stand behind nothing greater are those that are not late. -/
theorem Piled.met_iff (piled : Piled less groups there) (distinct : there.Nodup) (x : α) :
    Met less there x ↔ ¬ Late less groups x := by
  constructor
  · intro met late
    obtain ⟨front, back, split⟩ := append_of_mem ((piled.mem x).mpr late.mem)
    obtain ⟨y, member, above⟩ := (piled.late distinct front x back split).mpr late
    cases above.symm.trans (met front back split y member)
  · intro onTime front back split y member
    rw [← Bool.not_eq_true]
    intro above
    exact onTime ((piled.late distinct front x back split).mp ⟨y, member, above⟩)

/-- A place in two ranges is one of the first or one of the second. -/
theorem append_eq_append_cons {first second front back : List α}
    (split : first ++ second = front ++ x :: back) :
    (∃ rest, first = front ++ x :: rest) ∨
      ∃ early, front = first ++ early ∧ second = early ++ x :: back := by
  rcases append_eq_append_iff.mp split with ⟨early, isFront, tail⟩ | ⟨rest, isFirst, tail⟩
  · exact Or.inr ⟨early, isFront, tail⟩
  · cases rest with
    | nil => exact Or.inr ⟨[], by simpa using isFirst.symm, tail.symm⟩
    | cons one rest =>
      obtain ⟨rfl, _⟩ := cons.inj tail
      exact Or.inl ⟨rest, isFirst⟩

/-- Step: a group, sorted, without what is there. -/
theorem Piled.concat (order : StrictTotal less) (piled : Piled less groups there)
    (perm : xs.Perm group) (sorted : xs.Pairwise fun first second => less second first = false) :
    Piled less (groups ++ [group]) (there ++ setDifference less xs there) where
  mem x := by
    rw [mem_append, flatten_append, flatten_singleton, mem_append, piled.mem]
    refine or_congr_right' fun absent => ?_
    rw [← perm.mem_iff]
    exact mem_setDifference_iff order fun member => absent ((piled.mem x).mp member)
  once := by
    rw [once_concat_iff, ← piled.once]
    by_cases distinct : there.Nodup
    · have walk := nodup_walk_iff order [] sorted distinct (by simp)
      rw [nil_append] at walk
      rw [walk, perm.nodup_iff, and_iff_right distinct]
      refine and_congr_right fun _ => ?_
      simp only [not_mem_nil, not_false_eq_true, implies_true, true_and, perm.mem_iff]
      exact forall₂_congr fun x _ => piled.met_iff distinct x
    · refine ⟨fun whole => absurd (nodup_append.mp whole).1 distinct, fun parts => ?_⟩
      exact absurd parts.1 distinct
  late whole front x back split := by
    obtain ⟨distinct, _, apart⟩ := nodup_append.mp whole
    rw [late_concat_iff, ← piled.mem]
    rcases append_eq_append_cons split with ⟨rest, before⟩ | ⟨early, rfl, tail⟩
    · -- the element was there
      rw [piled.late distinct front x rest before]
      have old : x ∈ there := by
        rw [before]
        exact mem_append_right _ mem_cons_self
      exact ⟨Or.inl, fun either => either.resolve_right fun fresh => fresh.2.1 old⟩
    · -- the element is a new one
      have new : x ∈ setDifference less xs there := by
        rw [tail]
        exact mem_append_right _ mem_cons_self
      have absent : x ∉ there := fun member => apart x member x new rfl
      have listed : x ∈ group :=
        perm.mem_iff.mp ((setDifference_sublist less xs there).subset new)
      have run := sorted.sublist (setDifference_sublist less xs there)
      rw [tail, pairwise_append] at run
      constructor
      · rintro ⟨y, member, above⟩
        refine Or.inr ⟨listed, absent, y, ?_, above⟩
        rcases mem_append.mp member with old | fresh
        · exact (piled.mem y).mp old
        · cases above.symm.trans (run.2.2 y fresh x mem_cons_self)
      · rintro (late | ⟨_, _, y, member, above⟩)
        · exact absurd ((piled.mem x).mpr late.mem) absent
        · exact ⟨y, mem_append_left _ ((piled.mem y).mpr member), above⟩

/-- Groups without elements change nothing. -/
theorem Piled.append_replicate (order : StrictTotal less) (piled : Piled less groups there)
    (count : Nat) : Piled less (groups ++ replicate count []) there := by
  induction count with
  | zero => simpa using piled
  | succ count ih =>
    have step := ih.concat order (Perm.refl []) Pairwise.nil
    rw [setDifference, append_nil, append_assoc] at step
    rwa [replicate_succ']

end Nsblast.GroupedGrowth
