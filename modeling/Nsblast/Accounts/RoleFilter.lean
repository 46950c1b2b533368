import Nsblast.Accounts.Session

/-!
# What the filter of a role grants

A filter is meant to grant the permissions of its role on the names below the root of
the tenant that it describes: the name it is given followed by the root, what is below
that if the filter is recursive, or what a regular expression allows in front of it.

`matchesFqdn` also accepts the name of the filter as it was given, without the root and
without the regular expression, and a filter with neither name nor expression applies
to every name. So with a root the filter is kept to only if its own name is never
matched. The pattern of a filter with an expression has no dot between the expression and
the name, so that the expression alone decides whether a match ends at the boundary of a
label. The expression is compiled in lower case, where `\D` means what `\d` means, and
inside a group, which its back references count.

Names are compared in lower case and without a final dot. Of ECMAScript it is assumed what
the patterns of literal names match, and that an expression in front of a literal name
matches what it matches when that name follows.
-/

namespace Nsblast.AuthMgr.Session

open Pb Name List Detail.ZoneFilter StorageBuilder

variable {fqdn : Bytes}

section names

/-- A name in lower case, without a final dot. -/
def bare (name : Bytes) : Bytes := withoutDot (toLower name)

variable (name front zone : Bytes)

@[simp] theorem bare_toLower : bare (toLower name) = bare name := by
  simp [bare]

theorem bare_append (back : Bytes) (filled : back ≠ []) :
    bare (front ++ back) = toLower front ++ bare back := by
  have lowerFilled : toLower back ≠ [] := by simpa [toLower] using filled
  have lowered : toLower (front ++ back) = toLower front ++ toLower back := by
    simp [toLower]
  rw [bare, bare, lowered, withoutDot, withoutDot,
    getLast?_append_of_ne_nil _ lowerFilled, dropLast_append_of_ne_nil lowerFilled]
  split <;> rfl

theorem toLower_front_append {front : Bytes} (lower : toLower front = front) (name : Bytes) :
    toLower (front ++ toLower name) = front ++ toLower name := by
  rw [toLower, map_append, ← toLower, ← toLower, lower, toLower_toLower]

theorem dotted_iff :
    (toLower name).getLast? = some 0x2E ↔ name.getLast? = some 0x2E :=
  ⟨fun dotted => by_contra fun plain => toLower_plain plain dotted, toLower_dotted⟩

theorem bare_withDot : bare (withDot name) = bare name := by
  rw [withDot]
  split
  · rfl
  · rename_i plain
    have lowerPlain : (toLower name).getLast? ≠ some 0x2E := mt (dotted_iff name).mp plain
    have isBare : bare name = toLower name := withoutDot_of_plain lowerPlain
    have noDot : bare [0x2E] = [] := by decide
    rw [bare_append name [0x2E] (by simp), isBare, noDot, append_nil]

/-- The dot makes a name longer than it is without one. -/
theorem length_bare_lt : (bare name).length < (withDot name).length := by
  rw [bare, withoutDot, withDot]
  simp only [dotted_iff]
  split
  · rename_i dotted
    have filled : name ≠ [] := by
      rintro rfl
      cases dotted
    have positive := length_pos_of_ne_nil filled
    simp only [toLower, length_dropLast, length_map]
    omega
  · simp [toLower]

/-- A name behind a front that is empty or ends with a dot. -/
theorem within_of_front (boundary : front = [] ∨ front.getLast? = some 0x2E) :
    Name.Within zone (front ++ zone) := by
  rcases boundary with rfl | dotted
  · exact Or.inl rfl
  · obtain ⟨start, rfl⟩ := getLast?_eq_some_iff.mp dotted
    right
    right
    exact ⟨start, by simp⟩

theorem length_le_of_within {zone name : Bytes} (within : Name.Within zone name) :
    zone.length ≤ name.length := by
  rcases within with rfl | ⟨rfl, _⟩ | below
  · rfl
  · simp
  · have shorter := below.length_le
    rw [length_cons] at shorter
    omega

/-- `isSameZone` splits the name before the zone. -/
theorem isSameZone_split {zone : Bytes} (same : isSameZone zone fqdn = true) :
    ∃ front back, fqdn = front ++ back ∧ toLower back = toLower zone ∧
      (front = [] ∨ front.getLast? = some 0x2E) := by
  rw [isSameZone] at same
  split at same
  · cases same
  · simp only [Bool.and_eq_true, Bool.or_eq_true, compareCaseInsensitive_iff, beq_iff_eq] at same
    obtain ⟨sameTail, boundary⟩ := same
    refine ⟨fqdn.take (fqdn.length - zone.length), fqdn.drop (fqdn.length - zone.length),
      (take_append_drop _ _).symm, sameTail.symm, ?_⟩
    rcases boundary with sameLength | dotted
    · left
      simp [sameLength]
    · by_cases start : fqdn.length - zone.length = 0
      · left
        simp [start]
      · right
        simp [getLast?_take, start, dotted]

theorem isSameZone_toLower : isSameZone zone (toLower zone) = true := by
  have sameLength : (toLower zone).length = zone.length := by simp [toLower]
  rw [isSameZone, if_neg (by omega), sameLength]
  simp [compareCaseInsensitive]

end names

section meaning

/-- The name of a filter followed by the root. -/
def formed (fqdn root : Bytes) : Bytes := if fqdn = [] then root else withDot fqdn ++ root

/-- What expressions match. The rest that follows matters for assertions such as `$`. -/
structure Matching where
  /-- The expression matches the front, when the rest follows. -/
  before : Bytes → Bytes → Bytes → Prop
  /-- The same for an expression inside the first group of a pattern. -/
  grouped : Bytes → Bytes → Bytes → Prop

/-- The name ends like the given one, and the expression matches what is in front. -/
def FollowedBy (env : Env) (matching : Matching) (regex name fqdn : Bytes) : Prop :=
  (env.regex regex).isSome ∧ ∃ front back, fqdn = front ++ back ∧ bare back = bare name ∧
    matching.before regex back front

/-- The filter means the name. -/
structure Means (env : Env) (matching : Matching) (root : Bytes) (filter : Detail.ZoneFilter)
    (fqdn : Bytes) : Prop where
  inRoot : Name.Within (bare root) (bare fqdn)
  named : filter.regex = [] → bare fqdn = bare (formed filter.fqdn root) ∨
    (filter.recursive = true ∧ Name.Within (bare (formed filter.fqdn root)) (bare fqdn))
  matched : filter.regex ≠ [] →
    FollowedBy env matching filter.regex (formed filter.fqdn root) fqdn

/-- The expression refers back to a group. -/
def hasReference : Bytes → Bool
  | [] => false
  | ch :: rest =>
      (ch == 0x5C && rest.head?.any fun digit => 0x31 ≤ digit && digit ≤ 0x39) ||
        hasReference rest

/-- What ECMAScript says about the patterns of literal names, alone and behind an expression
that compiles on its own. Case is no matter of brackets: what compiles only together with the
brackets around it in lower case does not compile as it was given. -/
structure Ecmascript (regex : Bytes → Option (Bytes → Bool)) (matching : Matching) : Prop where
  exact : ∀ name accepts, name.all hostnameByte = true → regex (exactPattern name) = some accepts →
    ∀ fqdn, accepts fqdn = true → fqdn = name
  below : ∀ name accepts, name.all hostnameByte = true → regex (belowPattern name) = some accepts →
    ∀ fqdn, accepts fqdn = true → fqdn = name ∨ ∃ front, fqdn = front ++ 0x2E :: name
  alone : ∀ expression accepts, regex expression = some accepts →
    ∀ fqdn, accepts fqdn = true ↔ matching.before expression [] fqdn
  behind : ∀ expression name accepts, (regex expression).isSome → name.all hostnameByte = true →
    regex (regexPattern expression name) = some accepts →
    ∀ fqdn, accepts fqdn = true ↔ ∃ front, fqdn = front ++ name ∧
      matching.grouped expression name front
  plain : ∀ expression rest front, hasReference expression = false →
    (matching.grouped expression rest front ↔ matching.before expression rest front)
  balanced : ∀ expression name, (regex (toLower (regexPattern expression name))).isSome →
    regex (toLower expression) = none → regex expression = none

/-- The compiled pattern of the filter matches the name. -/
def PatternMatches (env : Env) (root : Bytes) (filter : Detail.ZoneFilter) (fqdn : Bytes) : Prop :=
  ∃ pattern ∈ filterPattern root filter, ∃ accepts ∈ env.regex (toLower pattern),
    accepts fqdn = true

/-- The expression of the filter, compiled with its pattern, matches the front before the
name. -/
def Front (env : Env) (matching : Matching) (root : Bytes) (filter : Detail.ZoneFilter)
    (front : Bytes) : Prop :=
  toLower front = front ∧ ∃ name ∈ filterName root filter,
    (env.regex (toLower (regexPattern filter.regex name))).isSome ∧
      matching.grouped (toLower filter.regex) (toLower name) front

/-- What keeps a filter to its meaning. A filter for all names has no root to keep to.
A filter whose own name can be matched has no root either, and its expression, if it
has one, allows all those names. In front of a root alone, the expression matches nothing or
what ends with a dot. If it has capital letters or refers back to a group, it still has to
match what its compiled form matches. One that is not balanced matches nothing at all. What
the pattern matches is open only if the root is not made of the characters of a name. -/
structure StaysInside (env : Env) (matching : Matching) (root : Bytes)
    (filter : Detail.ZoneFilter) : Prop where
  all : filter.fqdn = [] → filter.regex = [] → bare root = [] ∧ filter.recursive = true
  name : filter.fqdn ≠ [] → (filter.recursive = true ∨ toLower filter.fqdn = filter.fqdn) →
    root = [] ∧ (filter.regex ≠ [] → ∀ fqdn, toLower fqdn = fqdn → filter.matchesName fqdn = true →
      FollowedBy env matching filter.regex (formed filter.fqdn root) fqdn)
  boundary : filter.regex ≠ [] → root.all hostnameByte = true →
    (env.regex (toLower filter.regex)).isSome → filter.fqdn = [] → bare root ≠ [] →
    ∀ front, Front env matching root filter front → front = [] ∨ front.getLast? = some 0x2E
  compiled : filter.regex ≠ [] → root.all hostnameByte = true →
    (env.regex (toLower filter.regex)).isSome →
    (toLower filter.regex ≠ filter.regex ∨ hasReference filter.regex = true) →
    ∀ front, Front env matching root filter front → FollowedBy env matching filter.regex
      (formed filter.fqdn root) (front ++ toLower (formed filter.fqdn root))
  balanced : filter.regex ≠ [] → root.all hostnameByte = true →
    env.regex (toLower filter.regex) = none → ∀ fqdn, toLower fqdn = fqdn →
    ¬ PatternMatches env root filter fqdn
  unusual : root.all hostnameByte = false → ∀ fqdn, toLower fqdn = fqdn →
    PatternMatches env root filter fqdn → Means env matching root filter fqdn

end meaning

section matching

variable {env : Env} {matching : Matching} {root : Bytes} {filter : Detail.ZoneFilter}

/-- A name that is matched as it was given, without a root. -/
theorem matchesName_within (matched : filter.matchesName fqdn = true) :
    bare fqdn = bare filter.fqdn ∨
      (filter.recursive = true ∧ Name.Within (bare filter.fqdn) (bare fqdn)) := by
  rw [matchesName, Bool.and_eq_true, Bool.not_eq_true', isEmpty_eq_false_iff]
    at matched
  obtain ⟨filled, matched⟩ := matched
  split at matched
  · rename_i recursive
    obtain ⟨front, back, rfl, sameBack, boundary⟩ := isSameZone_split matched
    have backFilled : back ≠ [] := by
      rintro rfl
      simp [toLower, filled] at sameBack
    have sameBare : bare back = bare filter.fqdn := by rw [bare, bare, sameBack]
    right
    refine ⟨recursive, ?_⟩
    rw [bare_append front back backFilled, sameBare]
    refine within_of_front _ _ (boundary.imp ?_ (toLower_dotted))
    rintro rfl
    rfl
  · left
    rw [beq_iff_eq.mp matched]

/-- The name of the filter in lower case is matched, unless the filter compares it with
its capital letters. -/
theorem matchesName_self (filled : filter.fqdn ≠ [])
    (matchable : filter.recursive = true ∨ toLower filter.fqdn = filter.fqdn) :
    filter.matchesName (toLower filter.fqdn) = true := by
  rw [matchesName, Bool.and_eq_true, Bool.not_eq_true', isEmpty_eq_false_iff]
  refine ⟨filled, ?_⟩
  split
  · exact isSameZone_toLower filter.fqdn
  · rename_i notRecursive
    simp [matchable.resolve_left notRecursive]

theorem matchable_of_matchesName (lower : toLower fqdn = fqdn)
    (matched : filter.matchesName fqdn = true) :
    filter.fqdn ≠ [] ∧ (filter.recursive = true ∨ toLower filter.fqdn = filter.fqdn) := by
  rw [matchesName, Bool.and_eq_true, Bool.not_eq_true', isEmpty_eq_false_iff]
    at matched
  refine ⟨matched.1, ?_⟩
  cases recursive : filter.recursive with
  | true => exact Or.inl rfl
  | false =>
    right
    have same : filter.fqdn = fqdn := by simpa [recursive] using matched.2
    rw [same, lower]

/-- With a root, the filter does not mean its own name. -/
theorem not_means_own_name (filled : filter.fqdn ≠ []) (rooted : root ≠ []) :
    ¬ Means env matching root filter (toLower filter.fqdn) := by
  intro meant
  have isFormed : formed filter.fqdn root = withDot filter.fqdn ++ root := if_neg filled
  have shorter : (bare (toLower filter.fqdn)).length < (bare (formed filter.fqdn root)).length := by
    have dotted := length_bare_lt filter.fqdn
    rw [bare_toLower, isFormed, bare_append _ _ rooted, length_append, toLower, length_map]
    omega
  by_cases noRegex : filter.regex = []
  · rcases meant.named noRegex with same | ⟨_, within⟩
    · rw [same] at shorter
      exact absurd shorter (lt_irrefl _)
    · have longer := length_le_of_within within
      omega
  · obtain ⟨_, front, back, split, sameBack, _⟩ := meant.matched noRegex
    have longer : (bare back).length ≤ (bare (toLower filter.fqdn)).length := by
      rw [split]
      by_cases empty : back = []
      · simp [empty, bare, withoutDot, toLower]
      · simp [bare_append front back empty]
    rw [sameBack] at longer
    omega

theorem toLower_escapeDots (name : Bytes) :
    toLower (escapeDots name) = escapeDots (toLower name) := by
  rw [toLower, escapeDots, escapeDots, toLower, map_flatMap, flatMap_map]
  congr 1
  funext ch
  by_cases dot : ch = 0x2E
  · subst dot
    rfl
  · have lowered : lowerByte ch ≠ 0x2E := mt (lowerByte_eq_dot) dot
    simp [dot, lowered]

theorem toLower_exactPattern (name : Bytes) :
    toLower (exactPattern name) = exactPattern (toLower name) := by
  have escaped := toLower_escapeDots name
  simp only [toLower] at escaped
  simp [exactPattern, toLower, escaped, lowerByte]

theorem toLower_belowPattern (name : Bytes) :
    toLower (belowPattern name) = belowPattern (toLower name) := by
  have escaped := toLower_escapeDots name
  simp only [toLower] at escaped
  simp [belowPattern, toLower, escaped, lowerByte]

theorem toLower_regexPattern (regex name : Bytes) :
    toLower (regexPattern regex name) = regexPattern (toLower regex) (toLower name) := by
  have escaped := toLower_escapeDots name
  simp only [toLower] at escaped
  simp [regexPattern, toLower, escaped, lowerByte]

theorem hostnameByte_lowerByte (ch : UInt8) (host : hostnameByte ch = true) :
    hostnameByte (lowerByte ch) = true := by
  rw [lowerByte]
  split
  · rename_i upper
    simp only [hostnameByte, Bool.or_eq_true, Bool.and_eq_true, decide_eq_true_iff,
      UInt8.le_iff_toNat_le, UInt8.toNat_add, UInt8.reduceToNat] at upper ⊢
    omega
  · exact host

/-- The name of a valid filter. -/
theorem filterName_eq_some {name : Bytes} (isName : filterName root filter = some name) :
    name = formed filter.fqdn root := by
  rw [filterName] at isName
  rw [formed]
  split at isName
  · rename_i empty
    rw [if_pos empty]
    split at isName
    · exact (Option.some.inj isName).symm
    · cases isName
  · rename_i filled
    rw [if_neg filled]
    split at isName
    · exact (Option.some.inj isName).symm
    · cases isName

/-- With a root of the right characters, the name is made of them. -/
theorem host_of_filterName {name : Bytes} (isName : filterName root filter = some name)
    (host : root.all hostnameByte = true) :
    name.all hostnameByte = true ∧ (toLower name).all hostnameByte = true := by
  have own : name.all hostnameByte = true := by
    rw [filterName] at isName
    split at isName
    · split at isName
      · rw [← Option.some.inj isName, host]
      · cases isName
    · split at isName
      · rename_i hostFqdn
        rw [← Option.some.inj isName, all_append, host, withDot]
        split
        · rw [hostFqdn]
          rfl
        · rw [all_append, hostFqdn]
          rfl
      · cases isName
  refine ⟨own, all_eq_true.mpr fun ch member => ?_⟩
  obtain ⟨byte, isByte, rfl⟩ := mem_map.mp member
  exact hostnameByte_lowerByte byte (all_eq_true.mp own byte isByte)

/-- Every name is within the empty one. -/
theorem within_nil (name : Bytes) : Name.Within [] name := by
  by_cases nothing : name = []
  · exact Or.inl nothing
  · exact Or.inr (Or.inl ⟨rfl, nothing⟩)

/-- What stands behind a front is in the root, if the filter has a name or there is no root, or
else behind nothing or a dot. -/
theorem within_root_iff (front : Bytes) (lower : toLower front = front) :
    Name.Within (bare root) (bare (front ++ toLower (formed filter.fqdn root))) ↔
      (filter.fqdn = [] → bare root ≠ [] → front = [] ∨ front.getLast? = some 0x2E) := by
  by_cases empty : bare root = []
  · rw [empty]
    exact iff_of_true (within_nil _) fun _ rooted => absurd rfl rooted
  · have rooted : root ≠ [] := by
      rintro rfl
      exact empty rfl
    have lowerRooted : toLower root ≠ [] := by simpa [toLower] using rooted
    rw [formed]
    split
    · rename_i noName
      rw [bare_append _ _ lowerRooted, bare_toLower, lower]
      refine ⟨fun within _ _ => ?_, fun boundary => within_of_front _ _ (boundary noName empty)⟩
      rcases within with same | ⟨none, _⟩ | ⟨start, same⟩
      · exact Or.inl (by simpa using same)
      · exact absurd none empty
      · right
        have split : front = start ++ [0x2E] := by
          refine (append_left_inj (bare root)).mp ?_
          rw [← same, append_assoc]
          rfl
        rw [split, getLast?_append]
        rfl
    · rename_i filled
      refine iff_of_true ?_ fun noName => absurd noName filled
      have lowered : toLower (withDot filter.fqdn ++ root) =
          toLower (withDot filter.fqdn) ++ toLower root := by simp [toLower]
      rw [lowered, ← append_assoc, bare_append _ _ lowerRooted, bare_toLower]
      refine within_of_front _ _ (Or.inr (toLower_dotted ?_))
      have dotted : (toLower (withDot filter.fqdn)).getLast? = some 0x2E := by
        apply toLower_dotted
        rw [withDot]
        split
        · assumption
        · simp
      rw [getLast?_append, dotted, Option.some_or]

/-- Without an expression and with a root of the right characters, the pattern matches
what the filter means. -/
theorem means_of_patternMatches (ecma : Ecmascript env.regex matching) (noRegex : filter.regex = [])
    (filled : filter.fqdn ≠ []) (host : root.all hostnameByte = true) (lower : toLower fqdn = fqdn)
    (matched : PatternMatches env root filter fqdn) : Means env matching root filter fqdn := by
  obtain ⟨pattern, isPattern, accepts, compiled, accepted⟩ := matched
  rw [Option.mem_def, filterPattern, Option.bind_eq_bind, Option.bind_eq_some_iff] at isPattern
  obtain ⟨name, isName, isPattern⟩ := isPattern
  have hostName := (host_of_filterName isName host).2
  have isFormed := filterName_eq_some isName
  rw [isFormed] at hostName isPattern
  simp only [noRegex, ne_eq, not_true_eq_false, if_false] at isPattern
  -- the name ends like the formed one, behind nothing or behind a dot
  obtain ⟨front, split, boundary, onlySelf⟩ : ∃ front,
      fqdn = front ++ toLower (formed filter.fqdn root) ∧
        (front = [] ∨ front.getLast? = some 0x2E) ∧ (filter.recursive = false → front = []) := by
    split at isPattern
    · cases isPattern
    · split at isPattern
      · rename_i recursive
        rw [← Option.some.inj isPattern, toLower_belowPattern] at compiled
        rcases ecma.below _ _ hostName compiled fqdn accepted with same | ⟨front, same⟩
        · exact ⟨[], same, Or.inl rfl, fun _ => rfl⟩
        · exact ⟨front ++ [0x2E], by simp [same], Or.inr (by simp), by simp [recursive]⟩
      · rw [← Option.some.inj isPattern, toLower_exactPattern] at compiled
        exact ⟨[], ecma.exact _ _ hostName compiled fqdn accepted, Or.inl rfl, fun _ => rfl⟩
  have lowerFront : toLower front = front := by
    rw [split, toLower, map_append] at lower
    exact (append_inj lower (by simp)).1
  have formedFilled : toLower (formed filter.fqdn root) ≠ [] := by
    rw [formed, if_neg filled]
    simp [toLower, withDot]
    split <;> simp [filled]
  have isBare : bare fqdn = front ++ bare (formed filter.fqdn root) := by
    rw [split, bare_append _ _ formedFilled, bare_toLower, lowerFront]
  refine ⟨?_, fun _ => ?_, fun regex => absurd noRegex regex⟩
  · rw [split]
    exact (within_root_iff front lowerFront).mpr fun noName => absurd noName filled
  · cases recursive : filter.recursive with
    | true => exact Or.inr ⟨rfl, isBare ▸ within_of_front _ _ boundary⟩
    | false =>
      left
      rw [isBare, onlySelf recursive]
      rfl

/-- With an expression that compiles on its own, the pattern matches what the expression
matches in front of the name. -/
theorem patternMatches_iff (ecma : Ecmascript env.regex matching) (regular : filter.regex ≠ [])
    (host : root.all hostnameByte = true) (compiles : (env.regex (toLower filter.regex)).isSome)
    (lower : toLower fqdn = fqdn) :
    PatternMatches env root filter fqdn ↔ ∃ front, Front env matching root filter front ∧
      fqdn = front ++ toLower (formed filter.fqdn root) := by
  have isPattern {name : Bytes} (isName : filterName root filter = some name) :
      filterPattern root filter = some (regexPattern filter.regex name) := by
    have noSlash : 0x5C ∉ name := fun member =>
      absurd (all_eq_true.mp (host_of_filterName isName host).1 _ member) (by decide)
    simp [filterPattern, isName, noSlash, regular]
  constructor
  · rintro ⟨pattern, named, accepts, compiled, accepted⟩
    have valid := named
    rw [Option.mem_def, filterPattern, Option.bind_eq_bind, Option.bind_eq_some_iff] at valid
    obtain ⟨name, isName, _⟩ := valid
    cases (isPattern isName).symm.trans named
    have both := compiled
    rw [Option.mem_def, toLower_regexPattern] at both
    obtain ⟨front, split, matched⟩ := (ecma.behind _ _ _ compiles
      (host_of_filterName isName host).2 both fqdn).mp accepted
    refine ⟨front, ⟨?_, name, isName, ?_, matched⟩, ?_⟩
    · rw [split, toLower, map_append] at lower
      exact (append_inj lower (by simp)).1
    · rw [Option.mem_def.mp compiled]
      rfl
    · rw [split, filterName_eq_some isName]
  · rintro ⟨front, ⟨_, name, isName, compiled, matched⟩, split⟩
    obtain ⟨accepts, compiled⟩ := Option.isSome_iff_exists.mp compiled
    refine ⟨_, isPattern isName, accepts, compiled, ?_⟩
    rw [toLower_regexPattern] at compiled
    refine (ecma.behind _ _ _ compiles (host_of_filterName isName host).2 compiled fqdn).mpr
      ⟨front, ?_, matched⟩
    rw [split, filterName_eq_some isName]

/-- An expression without capital letters and back references that is matched in front of the
name is followed by it. -/
theorem followedBy_of_front (ecma : Ecmascript env.regex matching)
    (compiles : (env.regex (toLower filter.regex)).isSome)
    (sameCase : toLower filter.regex = filter.regex) (noReference : hasReference filter.regex = false)
    {front : Bytes} (matched : Front env matching root filter front) :
    FollowedBy env matching filter.regex (formed filter.fqdn root)
      (front ++ toLower (formed filter.fqdn root)) := by
  obtain ⟨_, name, isName, _, matched⟩ := matched
  rw [sameCase] at compiles matched
  rw [filterName_eq_some isName] at matched
  exact ⟨compiles, front, _, rfl, bare_toLower _, (ecma.plain _ _ _ noReference).mp matched⟩

/-- The names a filter matches are meant, if it stays inside. -/
theorem means_of_matches (ecma : Ecmascript env.regex matching)
    (stays : StaysInside env matching root filter) (lower : toLower fqdn = fqdn)
    (applies : filter.fqdn ≠ [] ∨ filter.regex ≠ [])
    (matched : filter.matchesName fqdn = true ∨ PatternMatches env root filter fqdn) :
    Means env matching root filter fqdn := by
  rcases matched with named | pattern
  · obtain ⟨filled, matchable⟩ := matchable_of_matchesName lower named
    obtain ⟨rfl, follows⟩ := stays.name filled matchable
    refine ⟨within_nil _, fun _ => ?_, fun regex => follows regex fqdn lower named⟩
    rw [formed, if_neg filled, append_nil, bare_withDot]
    exact matchesName_within named
  · by_cases host : root.all hostnameByte = true
    · by_cases noRegex : filter.regex = []
      · exact means_of_patternMatches ecma noRegex (applies.resolve_right (not_not.mpr noRegex)) host
          lower pattern
      · cases isCompiled : env.regex (toLower filter.regex) with
        | none => exact absurd pattern (stays.balanced noRegex host isCompiled fqdn lower)
        | some accepts =>
          have compiles : (env.regex (toLower filter.regex)).isSome := by rw [isCompiled]; rfl
          obtain ⟨front, matched, rfl⟩ :=
            (patternMatches_iff ecma noRegex host compiles lower).mp pattern
          refine ⟨?_, fun none => absurd none noRegex, fun _ => ?_⟩
          · exact (within_root_iff front matched.1).mpr fun noName rooted =>
              stays.boundary noRegex host compiles noName rooted front matched
          · by_cases same : toLower filter.regex = filter.regex ∧ hasReference filter.regex = false
            · exact followedBy_of_front ecma compiles same.1 same.2 matched
            · refine stays.compiled noRegex host compiles ?_ front matched
              rcases not_and_or.mp same with differs | refers
              · exact Or.inl differs
              · exact Or.inr (by simpa using refers)
    · exact stays.unusual (by simpa using host) fqdn lower pattern

/-- A root that names without anything in common are in is empty. -/
theorem rootless_of_within (first : Name.Within (bare root) [0x61])
    (second : Name.Within (bare root) [0x62]) : bare root = [] := by
  have short (name : Bytes) (within : Name.Within (bare root) name) (one : name.length = 1)
      (noDot : name ≠ [0x2E]) : bare root = [] ∨ bare root = name := by
    rcases within with same | ⟨empty, _⟩ | below
    · exact Or.inr same.symm
    · exact Or.inl empty
    · exfalso
      have short := below.length_le
      rw [one, length_cons] at short
      have empty : bare root = [] := eq_nil_of_length_eq_zero (by omega)
      rw [empty] at below
      exact noDot (below.eq_of_length (by simp [one])).symm
  rcases short [0x61] first rfl (by decide) with empty | isFirst
  · exact empty
  · rcases short [0x62] second rfl (by decide) with empty | isSecond
    · exact empty
    · exact absurd (isFirst.symm.trans isSecond) (by decide)

/-- A filter that matches only what it means stays inside. -/
theorem staysInside_of_means (ecma : Ecmascript env.regex matching)
    (meant : ∀ fqdn, toLower fqdn = fqdn → (filter.fqdn = [] ∧ filter.regex = []) ∨
      filter.matchesName fqdn = true ∨ PatternMatches env root filter fqdn →
        Means env matching root filter fqdn) : StaysInside env matching root filter := by
  have behind (regular : filter.regex ≠ []) (host : root.all hostnameByte = true)
      (compiles : (env.regex (toLower filter.regex)).isSome) (front : Bytes)
      (matched : Front env matching root filter front) :=
    have lower := toLower_front_append matched.1 (formed filter.fqdn root)
    meant _ lower (Or.inr (Or.inr
      ((patternMatches_iff ecma regular host compiles lower).mpr ⟨front, matched, rfl⟩)))
  constructor
  · intro noName noRegex
    have first := meant [0x61] rfl (Or.inl ⟨noName, noRegex⟩)
    have second := meant [0x62] rfl (Or.inl ⟨noName, noRegex⟩)
    have rootless := rootless_of_within first.inRoot second.inRoot
    refine ⟨rootless, ?_⟩
    rcases first.named noRegex with same | ⟨recursive, _⟩
    · rw [formed, if_pos noName, rootless] at same
      exact absurd same (by decide)
    · exact recursive
  · intro filled matchable
    have rootless : root = [] := by
      by_contra rooted
      exact not_means_own_name filled rooted (meant _ (toLower_toLower _)
        (Or.inr (Or.inl (matchesName_self filled matchable))))
    refine ⟨rootless, ?_⟩
    intro regex fqdn lower matched
    exact (meant fqdn lower (Or.inr (Or.inl matched))).matched regex
  · intro regular host compiles noName rooted front matched
    have inside := (behind regular host compiles front matched).inRoot
    exact (within_root_iff front matched.1).mp inside noName rooted
  · intro regular host compiles _ front matched
    exact (behind regular host compiles front matched).matched regular
  · intro regular host unbalanced fqdn lower matched
    obtain ⟨compiles, _⟩ := (meant fqdn lower (Or.inr (Or.inr matched))).matched regular
    obtain ⟨pattern, isPattern, accepts, compiled, _⟩ := matched
    rw [Option.mem_def, filterPattern, Option.bind_eq_bind, Option.bind_eq_some_iff] at isPattern
    obtain ⟨name, _, isPattern⟩ := isPattern
    split at isPattern
    · cases isPattern
    · cases isPattern
      have none :=
        ecma.balanced filter.regex name (by rw [Option.mem_def.mp compiled]; rfl) unbalanced
      rw [none] at compiles
      cases compiles
  · intro _ fqdn lower matched
    exact meant fqdn lower (Or.inr (Or.inr matched))

end matching

section sessions

variable (env : Env)

/-- Without the validation of the zone, what the roles grant is allowed. -/
theorem isAllowed_unvalidated (auth : env.hasAuth = true) (fuel : Nat) (session : Session)
    (perm : Permission) (fqdn : Bytes) (throwOnFailure : Bool) :
    session.isAllowed env fuel perm fqdn ⟨false, throwOnFailure⟩ = .done (.ok true) ↔
      session.grants perm fqdn = true := by
  have unfolded : session.isAllowed env fuel perm fqdn ⟨false, throwOnFailure⟩ =
      if session.grants perm fqdn then .done (.ok true)
      else if throwOnFailure then
        .done (.thrown ("Access denied for permission " ++ env.permissionName perm ++ " on zone " ++
          env.toText fqdn))
      else .done (.ok false) := by
    simp only [isAllowed, auth]
    rfl
  rw [unfolded]
  cases session.grants perm fqdn <;> cases throwOnFailure <;> simp

/-- A session with one role grants a permission of the role where its filter matches. -/
theorem grants_of_one_role {tenant : Tenant} {names : List Bytes} {session : Session}
    {role : Pb.Role} {filter : Pb.ZoneFilter} (made : make env tenant names = .ok session)
    (only : rolesOf tenant names = [role]) (filtered : role.filter = some filter)
    {perm : Permission} (byName : perm ∉ nameIndependent) (fqdn : Bytes) :
    let own := ofPb filter
    session.grants perm fqdn = true ↔ perm ∈ role.permissions ∧
      ((own.fqdn = [] ∧ own.regex = []) ∨ own.matchesName fqdn = true ∨
        PatternMatches env (tenant.root.getD []) own fqdn) := by
  intro own
  simp only [make, Run.bind_eq_ok] at made
  obtain ⟨_, _, tenantId, _, isSession⟩ := made
  cases isSession
  have patternMatches : ((filterPattern (tenant.root.getD []) own).bind fun pattern =>
      env.regex (toLower pattern)).any (fun accepts => accepts fqdn) = true ↔
        PatternMatches env (tenant.root.getD []) own fqdn := by
    simp only [PatternMatches, Option.any_eq_true, Option.bind_eq_some_iff, Option.mem_def]
    constructor
    · rintro ⟨accepts, ⟨pattern, isPattern, compiled⟩, accepted⟩
      exact ⟨pattern, isPattern, accepts, compiled, accepted⟩
    · rintro ⟨pattern, isPattern, accepts, compiled, accepted⟩
      exact ⟨accepts, ⟨pattern, isPattern, compiled⟩, accepted⟩
  have sameName (matcher : Option (Bytes → Bool)) :
      ({ own with matcher } : Detail.ZoneFilter).matchesName fqdn = own.matchesName fqdn := rfl
  rw [← patternMatches]
  by_cases all : own.fqdn = [] ∧ own.regex = []
  · simp [grants, populate, populated, only, filtered, everywhere, initRole,
      Detail.Role.appliesToAll, all, own]
  · have notAll : (own.fqdn.isEmpty && own.regex.isEmpty) = false := by simpa using all
    have filters : ((some filter).map ofPb) = some own := rfl
    simp only [grants, populate, populated, only, filtered, everywhere, initRole, Detail.Role.appliesToAll,
      filters, notAll, map_cons, map_nil, foldl_cons, foldl_nil, Option.map_some,
      Detail.Role.matchesFqdn, sameName]
    split <;> simp_all

/-- A filter grants only what it means, if and only if its role has no permission on
names or the filter stays inside. -/
theorem filter_respected_iff (matching : Matching) (ecma : Ecmascript env.regex matching)
    (auth : env.hasAuth = true) (fuel : Nat) (throwOnFailure : Bool) (tenant : Tenant)
    (names : List Bytes) (session : Session)
    (role : Pb.Role) (filter : Pb.ZoneFilter) (made : make env tenant names = .ok session)
    (only : rolesOf tenant names = [role]) (filtered : role.filter = some filter) :
    (∀ perm fqdn, perm ∉ nameIndependent → toLower fqdn = fqdn →
        session.isAllowed env fuel perm fqdn ⟨false, throwOnFailure⟩ = .done (.ok true) →
        Means env matching (tenant.root.getD []) (.ofPb filter) fqdn) ↔
      ((∃ perm ∈ role.permissions, perm ∉ nameIndependent) →
        StaysInside env matching (tenant.root.getD []) (.ofPb filter)) := by
  have granted (perm : Permission) (byName : perm ∉ nameIndependent) (fqdn : Bytes) :=
    (isAllowed_unvalidated env auth fuel session perm fqdn throwOnFailure).trans
      (grants_of_one_role env made only filtered byName fqdn)
  generalize tenant.root.getD [] = root at granted ⊢
  generalize ofPb filter = own at granted ⊢
  constructor
  · rintro respected ⟨perm, isPerm, byName⟩
    exact staysInside_of_means ecma fun fqdn lower matched =>
      respected perm fqdn byName lower ((granted perm byName fqdn).mpr ⟨isPerm, matched⟩)
  · intro stays perm fqdn byName lower allowed
    obtain ⟨isPerm, matched⟩ := (granted perm byName fqdn).mp allowed
    have inside := stays ⟨perm, isPerm, byName⟩
    by_cases all : own.fqdn = [] ∧ own.regex = []
    · obtain ⟨noName, noRegex⟩ := all
      obtain ⟨rootless, recursive⟩ := inside.all noName noRegex
      have within : Name.Within (bare root) (bare fqdn) := rootless ▸ within_nil _
      refine ⟨within, fun _ => Or.inr ⟨recursive, ?_⟩, fun regex => absurd noRegex regex⟩
      rw [formed, if_pos noName]
      exact within
    · refine means_of_matches ecma inside lower ?_ (matched.resolve_left all)
      rcases not_and_or.mp all with filled | regex
      · exact Or.inl filled
      · exact Or.inr regex

end sessions

section samples

/-- The expression `(a\.)*`. -/
def sampleExpression : Bytes := [0x28, 0x61, 0x5C, 0x2E, 0x29, 0x2A]

/-- What it matches. -/
def repeats : Bytes → Bool
  | [] => true
  | [_] => false
  | first :: second :: rest => first == 0x61 && second == 0x2E && repeats rest

/-- A stand-in for `std::regex` that knows the expression, alone and in front of the name `z`. -/
def sampleRegex (pattern : Bytes) : Option (Bytes → Bool) :=
  if pattern = sampleExpression then some repeats
  else if pattern = regexPattern sampleExpression [0x7A] then
    some fun fqdn => fqdn.getLast? == some 0x7A && repeats fqdn.dropLast
  else none

def sampleMatching : Matching where
  before expression rest front := ∃ accepts, sampleRegex expression = some accepts ∧
    accepts front = true ∧ (expression = sampleExpression ∨ rest = [])
  grouped expression rest front := ∃ accepts, sampleRegex expression = some accepts ∧
    accepts front = true ∧ (expression = sampleExpression ∨ rest = [])

theorem escapeDots_cons (ch : UInt8) (rest : Bytes) :
    escapeDots (ch :: rest) = (if ch = 0x2E then [0x5C, 0x2E] else [ch]) ++ escapeDots rest := rfl

/-- Only the name `z` is written as `z`. -/
theorem eq_of_escapeDots {name : Bytes} (same : escapeDots name = [0x7A]) : name = [0x7A] := by
  cases name with
  | nil => cases same
  | cons ch rest =>
    rw [escapeDots_cons] at same
    split at same
    · cases same
    · obtain ⟨rfl, later⟩ := cons.inj same
      cases rest with
      | nil => rfl
      | cons next others =>
        have later : escapeDots (next :: others) = [] := later
        rw [escapeDots_cons] at later
        split at later <;> cases later

/-- The pattern of a name does not begin with a bracket inside its own. -/
theorem exactPattern_ne {name rest : Bytes} (host : name.all hostnameByte = true) :
    exactPattern name ≠ [0x5E, 0x28, 0x28] ++ rest := by
  intro same
  simp only [exactPattern, cons_append, nil_append, List.cons.injEq, true_and] at same
  cases name with
  | nil => simp [escapeDots] at same
  | cons ch others =>
    rw [escapeDots_cons] at same
    rw [all_cons, Bool.and_eq_true] at host
    split at same
    · simp at same
    · simp only [cons_append, nil_append, List.cons.injEq] at same
      rw [same.1] at host
      exact absurd host.1 (by decide)

theorem sampleRegex_eq_some {pattern : Bytes} {accepts : Bytes → Bool}
    (compiled : sampleRegex pattern = some accepts) :
    (pattern = sampleExpression ∧ accepts = repeats) ∨
      (pattern = regexPattern sampleExpression [0x7A] ∧
        accepts = fun fqdn => fqdn.getLast? == some 0x7A && repeats fqdn.dropLast) := by
  rw [sampleRegex] at compiled
  split at compiled
  · rename_i same
    exact Or.inl ⟨same, (Option.some.inj compiled).symm⟩
  · split at compiled
    · rename_i same
      exact Or.inr ⟨same, (Option.some.inj compiled).symm⟩
    · cases compiled

theorem ecmascript_sampleRegex : Ecmascript sampleRegex sampleMatching where
  exact name accepts host compiled := by
    rcases sampleRegex_eq_some compiled with ⟨same, _⟩ | ⟨same, _⟩
    · simp [exactPattern, sampleExpression] at same
    · exact absurd same (exactPattern_ne host)
  below name accepts _ compiled := by
    rcases sampleRegex_eq_some compiled with ⟨same, _⟩ | ⟨same, _⟩
    · simp [belowPattern, sampleExpression] at same
    · simp [belowPattern, regexPattern, sampleExpression] at same
  alone expression accepts compiled fqdn := by
    constructor
    · intro accepted
      exact ⟨accepts, compiled, accepted, Or.inr rfl⟩
    · rintro ⟨other, isOther, accepted, _⟩
      cases compiled.symm.trans isOther
      exact accepted
  behind expression name accepts compiles _ compiled fqdn := by
    obtain ⟨own, isOwn⟩ := Option.isSome_iff_exists.mp compiles
    rcases sampleRegex_eq_some isOwn with ⟨rfl, rfl⟩ | ⟨rfl, _⟩
    · rcases sampleRegex_eq_some compiled with ⟨same, _⟩ | ⟨same, rfl⟩
      · simp [regexPattern, sampleExpression] at same
      · have isZ : name = [0x7A] := by
          apply eq_of_escapeDots
          refine (append_left_inj [0x29, 0x24]).mp ?_
          simpa [regexPattern, sampleExpression, escapeDots] using same
        subst isZ
        rw [Bool.and_eq_true, beq_iff_eq, getLast?_eq_some_iff]
        constructor
        · rintro ⟨⟨front, rfl⟩, accepted⟩
          rw [dropLast_concat] at accepted
          exact ⟨front, rfl, repeats, isOwn, accepted, Or.inl rfl⟩
        · rintro ⟨front, rfl, other, isOther, accepted, _⟩
          cases isOwn.symm.trans isOther
          rw [dropLast_concat]
          exact ⟨⟨front, rfl⟩, accepted⟩
    · rcases sampleRegex_eq_some compiled with ⟨same, _⟩ | ⟨same, _⟩ <;>
        simp [regexPattern, sampleExpression] at same
  plain _ _ _ _ := Iff.rfl
  balanced expression _ _ unbalanced := by
    cases compiled : sampleRegex expression with
    | none => rfl
    | some accepts =>
      rcases sampleRegex_eq_some compiled with ⟨rfl, _⟩ | ⟨rfl, _⟩
      · exact absurd (congrArg Option.isSome unbalanced) (by decide)
      · exact absurd (congrArg Option.isSome unbalanced) (by decide)

def sampleEnv : Env where
  hasAuth := true
  regex := sampleRegex
  parseUuid _ := .ok 1
  permissionName _ := ""
  toText _ := ""

/-- A role that may create records at the name `o` and below. -/
def sampleRole : Pb.Role where
  name := some [0x72]
  permissions := [.createRr]
  filter := some ⟨some [0x6F], some true, none⟩

/-- A tenant with this role and a root. -/
def tenantWithRoot (root : Bytes) : Tenant where
  id := some [0x74]
  name := none
  active := none
  root := some root
  roles := [sampleRole]
  users := []

/-- The session of a user with the role. -/
def sampleSession (root : Bytes) : Session where
  nonZonePerms := 0
  roles := (populate (tenantWithRoot root) [[0x72]]).map (initRole sampleEnv root)
  tenant := [0x74]
  tenantId := 1

/-- A tenant whose role grants what the expression allows in front of the root. -/
def tenantWithExpression : Tenant :=
  { tenantWithRoot [0x7A] with
    roles := [{ sampleRole with filter := some ⟨none, none, some sampleExpression⟩ }] }

theorem repeats_boundary {front : Bytes} (accepted : repeats front = true) :
    front = [] ∨ front.getLast? = some 0x2E := by
  fun_induction repeats front with
  | case1 => exact Or.inl rfl
  | case2 => cases accepted
  | case3 first second rest ih =>
    simp only [Bool.and_eq_true, beq_iff_eq] at accepted
    right
    rcases ih accepted.2 with rfl | dotted
    · simp [accepted.1.2]
    · rw [getLast?_cons_cons, getLast?_cons, dotted]
      rfl

/-- The name `a.a.z` is granted, and nothing outside of the root `z`. -/
theorem expression_filter_respected :
    ∃ session, make sampleEnv tenantWithExpression [[0x72]] = .ok session ∧
      session.isAllowed sampleEnv 0 .createRr [0x61, 0x2E, 0x61, 0x2E, 0x7A] {} = .done (.ok true) ∧
      ∀ perm fqdn, perm ∉ nameIndependent → toLower fqdn = fqdn →
        session.isAllowed sampleEnv 0 perm fqdn {} = .done (.ok true) →
        Means sampleEnv sampleMatching [0x7A] (.ofPb ⟨none, none, some sampleExpression⟩) fqdn := by
  refine ⟨_, rfl, ?_, ?_⟩
  · rw [isAllowed_unvalidated sampleEnv rfl]
    decide +kernel
  · refine (filter_respected_iff sampleEnv sampleMatching ecmascript_sampleRegex rfl 0 false
      tenantWithExpression [[0x72]] _ _ _ rfl rfl rfl).mpr fun _ => ?_
    constructor
    · exact fun _ noRegex => absurd noRegex (by decide)
    · exact fun filled => absurd rfl filled
    · rintro _ _ _ _ _ front ⟨_, _, _, _, accepts, isAccepts, accepted, _⟩
      rcases sampleRegex_eq_some isAccepts with ⟨_, rfl⟩ | ⟨same, _⟩
      · exact repeats_boundary accepted
      · exact absurd same (by decide)
    · rintro _ _ _ (differs | refers)
      · exact absurd (by decide) differs
      · exact absurd refers (by decide)
    · intro _ _ none
      exact absurd (congrArg Option.isSome none) (by decide)
    · exact fun unusual => absurd unusual (by decide)

/-- With the root `z`, the role still grants the name `o` itself. -/
theorem rooted_filter_grants_own_name :
    make sampleEnv (tenantWithRoot [0x7A]) [[0x72]] = .ok (sampleSession [0x7A]) ∧
      (sampleSession [0x7A]).isAllowed sampleEnv 0 .createRr [0x6F] {} = .done (.ok true) ∧
      ¬ Name.Within (bare [0x7A]) (bare [0x6F]) ∧
      ¬ Means sampleEnv sampleMatching [0x7A] (.ofPb ⟨some [0x6F], some true, none⟩) [0x6F] := by
  refine ⟨rfl, ?_, by decide, fun meant => absurd meant.inRoot (by decide)⟩
  rw [isAllowed_unvalidated sampleEnv rfl]
  decide

end samples

end Nsblast.AuthMgr.Session
