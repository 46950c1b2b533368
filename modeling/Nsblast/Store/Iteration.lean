import Mathlib.Data.Set.List
import Nsblast.Store.Transaction

/-!
# Iterating from a key

`iterateFromPrevT` places a cursor on the last key up to the given one, or on the first or
the last key of all if there is none, and calls a function for each key from there on, as
long as the function asks for more and the keys are of the class of the given key. The key
at which the cursor was placed can be skipped.

With skipping, the forward direction is exact: what is visited are the keys behind the
given one. Backwards, the key at which the cursor was placed is skipped whether or not it
is the given one, and if there is no key up to the given one, the iteration begins at the
end. So it is exact for a stored key, and else only if there was nothing to visit and
nothing of the class at the end.

`iterateT` begins with the first key that is not before the given one. In the keys of
differences the version stands in network order behind the name of the zone and a NUL. So the
keys of a zone are next to each other, in the order of the versions.
-/

namespace Nsblast.RealKey

open List

variable {V σ : Type}

/-- The loop of `iterateFromPrevT` over what the cursor will visit. -/
def iterateWhile (key : Key) (fn : Key → V → σ → Run (Bool × σ)) : List (Key × V) → σ → Run σ
  | [], state => .ok state
  | (k, value) :: rest, state =>
      if isSameKeyClass key k then do
        let (more, next) ← fn k value state
        if more then iterateWhile key fn rest next else .ok next
      else .ok state

/-- `iterateFromPrevT`. -/
def iterateFromPrevT (family : ColumnFamily V) (key : Key) (fn : Key → V → σ → Run (Bool × σ))
    (skipKey iterateForward : Bool) (state : σ) : Run σ :=
  iterateWhile key fn (OrderedMap.fromPrev family key skipKey iterateForward) state

/-- Only the keys of the class are looked at, up to the first of another one. -/
theorem iterateWhile_takeWhile (key : Key) (fn : Key → V → σ → Run (Bool × σ))
    (items : List (Key × V)) (state : σ) :
    iterateWhile key fn (items.takeWhile fun item => isSameKeyClass key item.1) state =
      iterateWhile key fn items state := by
  induction items generalizing state with
  | nil => rfl
  | cons item rest ih =>
    obtain ⟨k, value⟩ := item
    by_cases same : isSameKeyClass key k = true
    · rw [takeWhile_cons_of_pos (by exact same), iterateWhile, iterateWhile]
      simp only [ih]
    · rw [takeWhile_cons_of_neg (by exact same), iterateWhile, iterateWhile, if_neg same]

section order

theorem isSameKeyClass_iff (key other : Key) :
    isSameKeyClass key other = true ↔ ∃ first, [first] <+: key ∧ [first] <+: other := by
  cases key with
  | nil => simp [isSameKeyClass]
  | cons first rest =>
    cases other with
    | nil => simp [isSameKeyClass]
    | cons second more =>
      simp only [isSameKeyClass, beq_iff_eq, cons_prefix_cons, nil_prefix, and_true]
      exact ⟨fun same => ⟨first, rfl, same⟩, fun ⟨_, isFirst, isSecond⟩ => isFirst.symm.trans isSecond⟩

theorem isLE_of_lt {first second : Key} (less : compare first second = .lt) :
    (compare first second).isLE := by
  rw [less]
  rfl

/-- A key between two of one class is of this class. -/
theorem isSameKeyClass_between {key middle last : Key} (above : (compare key middle).isLE)
    (below : (compare middle last).isLE) (same : isSameKeyClass key last = true) :
    isSameKeyClass key middle = true := by
  obtain ⟨first, ofKey, ofLast⟩ := (isSameKeyClass_iff key last).mp same
  have atFirst : (compare [first] middle).isLE :=
    Std.TransCmp.isLE_trans (Lexicographic.le_of_prefix [first] key ofKey) above
  exact (isSameKeyClass_iff key middle).mpr
    ⟨first, ofKey, Lexicographic.prefix_of_between ofLast atFirst below⟩

theorem isSameKeyClass_comm (key other : Key) :
    isSameKeyClass key other = isSameKeyClass other key := by
  cases key with
  | nil => cases other <;> rfl
  | cons first rest =>
    cases other with
    | nil => rfl
    | cons second more =>
      exact Bool.beq_comm

theorem isSameKeyClass_trans {first second third : Key} (left : isSameKeyClass first second = true)
    (right : isSameKeyClass second third = true) : isSameKeyClass first third = true := by
  obtain ⟨byte, ofFirst, ofSecond⟩ := (isSameKeyClass_iff first second).mp left
  obtain ⟨other, ofSecond', ofThird⟩ := (isSameKeyClass_iff second third).mp right
  cases second with
  | nil => simp at ofSecond
  | cons head tail =>
    simp only [cons_prefix_cons, nil_prefix, and_true] at ofSecond ofSecond'
    subst ofSecond ofSecond'
    exact (isSameKeyClass_iff first third).mpr ⟨_, ofFirst, ofThird⟩

variable (family : ColumnFamily V) (cursor : Key)

/-- The keys of the class come first behind the cursor. -/
theorem above_class_first :
    (OrderedMap.above family cursor).Pairwise fun earlier later =>
      isSameKeyClass cursor later.1 = true → isSameKeyClass cursor earlier.1 = true := by
  have sorted : (OrderedMap.above family cursor).Pairwise (OrderedMap.Before compare) :=
    (OrderedMap.before_sorted family).filter _
  apply Pairwise.imp_of_mem _ sorted
  intro earlier later member _ before same
  have behind := ((OrderedMap.mem_above family cursor earlier).mp member).2
  exact isSameKeyClass_between (isLE_of_lt behind) (isLE_of_lt before) same

/-- And so they do before it, backwards. -/
theorem below_class_first :
    (OrderedMap.below family cursor).reverse.Pairwise fun earlier later =>
      isSameKeyClass cursor later.1 = true → isSameKeyClass cursor earlier.1 = true := by
  have sorted : (OrderedMap.below family cursor).Pairwise (OrderedMap.Before compare) :=
    (OrderedMap.before_sorted family).filter _
  rw [pairwise_reverse]
  apply Pairwise.imp_of_mem _ sorted
  intro later earlier _ member before same
  have smaller := ((OrderedMap.mem_below family cursor earlier).mp member).2
  have between : isSameKeyClass later.1 earlier.1 = true :=
    isSameKeyClass_between (isLE_of_lt before) (isLE_of_lt smaller) (by rwa [isSameKeyClass_comm])
  exact isSameKeyClass_trans same between

end order

section visited

variable (family : ColumnFamily V) (cursor : Key)

/-- A function that notes the keys it is called for, and always asks for more. -/
def note (key : Key) (_ : V) (visited : List Key) : Run (Bool × List Key) :=
  .ok (true, visited ++ [key])

/-- The stored keys of the class of the cursor that lie beyond it, nearest first. -/
def beyond (forward : Bool) : List Key :=
  ((if forward then OrderedMap.above family cursor else (OrderedMap.below family cursor).reverse).filter
    fun item => isSameKeyClass cursor item.1).map Prod.fst

theorem iterateWhile_note (items : List (Key × V)) (visited : List Key)
    (same : ∀ item ∈ items, isSameKeyClass cursor item.1 = true) :
    iterateWhile cursor note items visited = .ok (visited ++ items.map Prod.fst) := by
  induction items generalizing visited with
  | nil => simp [iterateWhile]
  | cons item rest ih =>
    have later := ih (visited ++ [item.1]) fun other member => same other (mem_cons_of_mem _ member)
    rw [iterateWhile, if_pos (same item mem_cons_self), note, Run.bind_ok]
    simp [later]

theorem iterateFromPrevT_note (skipKey forward : Bool) :
    iterateFromPrevT family cursor note skipKey forward [] =
      .ok (((OrderedMap.fromPrev family cursor skipKey forward).takeWhile
        fun item => isSameKeyClass cursor item.1).map Prod.fst) := by
  rw [iterateFromPrevT, ← iterateWhile_takeWhile, iterateWhile_note, nil_append]
  intro item member
  exact mem_takeWhile_imp (p := fun item : Key × V => isSameKeyClass cursor item.1) member

/-- Forwards, what is visited are the keys beyond the cursor. -/
theorem visits_forward :
    iterateFromPrevT family cursor note true true [] = .ok (beyond family cursor true) := by
  rw [iterateFromPrevT_note, OrderedMap.fromPrev_forward,
    OrderedMap.takeWhile_eq_filter _ (above_class_first family cursor)]
  rfl

/-- So they are backwards from a stored key. -/
theorem visits_backward_present (stored : cursor ∈ family) :
    iterateFromPrevT family cursor note true false [] = .ok (beyond family cursor false) := by
  obtain ⟨value, present⟩ := Option.isSome_iff_exists.mp (Std.ExtTreeMap.isSome_getElem?_iff_mem.mpr stored)
  rw [iterateFromPrevT_note, OrderedMap.fromPrev_backward_present family present,
    OrderedMap.takeWhile_eq_filter _ (below_class_first family cursor)]
  rfl

/-- Backwards from a key that is not stored, they are not if a key of the class is before it. -/
theorem visits_backward_absent (absent : family[cursor]? = none) {item : Key × V}
    {rest : List (Key × V)} (before : (OrderedMap.below family cursor).reverse = item :: rest) :
    iterateFromPrevT family cursor note true false [] = .ok (beyond family cursor false) ↔
      isSameKeyClass cursor item.1 = false := by
  have filled : OrderedMap.below family cursor ≠ [] := by
    intro none
    rw [none] at before
    cases before
  have first := below_class_first family cursor
  rw [before] at first
  obtain ⟨below, ordered⟩ := pairwise_cons.mp first
  rw [iterateFromPrevT_note, OrderedMap.fromPrev_backward_absent family absent, if_neg filled,
    before, tail_cons, OrderedMap.takeWhile_eq_filter _ ordered, beyond,
    if_neg Bool.false_ne_true, before, Run.ok.injEq]
  constructor
  · intro visited
    by_contra same
    rw [Bool.not_eq_false] at same
    have lengths := congrArg length visited
    rw [filter_cons_of_pos (by exact same)] at lengths
    simp at lengths
  · intro other
    rw [filter_cons_of_neg (by simp [other])]

/-- If nothing is before it, they are if there is no key of the class at the end. -/
theorem visits_backward_first (absent : family[cursor]? = none)
    (first : OrderedMap.below family cursor = []) :
    iterateFromPrevT family cursor note true false [] = .ok (beyond family cursor false) ↔
      ∀ last ∈ family.toList.getLast?, isSameKeyClass cursor last.1 = false := by
  have whole : family.toList = OrderedMap.above family cursor := by
    rw [OrderedMap.toList_absent family absent, first, nil_append]
  rw [iterateFromPrevT_note, OrderedMap.fromPrev_backward_absent family absent, if_pos first,
    beyond, if_neg Bool.false_ne_true, first, ← whole, getLast?_eq_head?_reverse]
  cases family.toList.reverse with
  | nil => simp
  | cons last rest =>
    by_cases same : isSameKeyClass cursor last.1 = true
    · simp [same]
    · simp [same]

end visited

/-- Iterating with skipping visits exactly the keys of the class beyond the cursor: forwards
always; backwards if the cursor is stored, or if no key of its class is before it and either
some key is before it or the last key of all is of another class. -/
theorem iterateFromPrevT_exact_iff (family : ColumnFamily V) (cursor : Key) (forward : Bool) :
    iterateFromPrevT family cursor note true forward [] = .ok (beyond family cursor forward) ↔
      forward = true ∨ cursor ∈ family ∨
        ((∀ item ∈ OrderedMap.below family cursor, isSameKeyClass cursor item.1 = false) ∧
          (OrderedMap.below family cursor = [] →
            ∀ last ∈ family.toList.getLast?, isSameKeyClass cursor last.1 = false)) := by
  cases forward with
  | true => simp [visits_forward]
  | false =>
    by_cases stored : cursor ∈ family
    · simp [stored, visits_backward_present]
    have absent : family[cursor]? = none := Std.ExtTreeMap.getElem?_eq_none stored
    cases before : (OrderedMap.below family cursor).reverse with
    | nil =>
      rw [reverse_eq_nil_iff] at before
      rw [visits_backward_first family cursor absent before, before]
      simp [stored]
    | cons item rest =>
      have isBelow : ∀ other, other ∈ OrderedMap.below family cursor ↔ other ∈ item :: rest := by
        intro other
        rw [← before, mem_reverse]
      have filled : OrderedMap.below family cursor ≠ [] := by
        intro none
        rw [none] at before
        cases before
      have first := below_class_first family cursor
      rw [before] at first
      rw [visits_backward_absent family cursor absent before]
      constructor
      · intro other
        refine .inr (.inr ⟨fun smaller member => ?_, fun none => absurd none filled⟩)
        rcases mem_cons.mp ((isBelow smaller).mp member) with rfl | inRest
        · exact other
        · by_contra same
          rw [Bool.not_eq_false] at same
          rw [(pairwise_cons.mp first).1 smaller inRest same] at other
          cases other
      · rintro (isForward | isStored | ⟨others, _⟩)
        · cases isForward
        · exact absurd isStored stored
        · exact others item ((isBelow item).mpr mem_cons_self)

section sample

/-- The keys of the names `a` and `c`. -/
def twoNames : ColumnFamily Unit := ((∅ : ColumnFamily Unit).insert (ofName [0x61]) ()).insert
  (ofName [0x63]) ()

/-- Backwards from `b`, which is not stored, `a` is skipped; backwards from a name before both,
both are visited. -/
theorem backward_from_missing_cursor :
    iterateFromPrevT twoNames (ofName [0x62]) note true false [] = .ok [] ∧
      beyond twoNames (ofName [0x62]) false = [ofName [0x61]] ∧
      iterateFromPrevT twoNames (ofName [0x5F]) note true false [] =
        .ok [ofName [0x63], ofName [0x61]] ∧
      beyond twoNames (ofName [0x5F]) false = [] := by
  decide +kernel

end sample

section diff

/-- `iterateT`. -/
def iterateT (family : ColumnFamily V) (key : Key) (fn : Key → V → σ → Run (Bool × σ)) (state : σ) :
    Run σ :=
  iterateWhile key fn (OrderedMap.seek family key) state

/-- What `isSameFqdn` compares of a key: what is behind the class and, for a difference,
before the version. -/
def fqdnPart (key : Key) : Run Key := do
  let last := if key.head? = some Class.diff.toByte then 5 else 0
  Run.assert (1 + last ≤ key.length)
  .ok ((key.drop 1).take (key.length - (1 + last)))

/-- `RealKey::isSameFqdn`. -/
def isSameFqdn (key other : Key) : Run Bool := do
  let left ← fqdnPart key
  let right ← fqdnPart other
  .ok (left == right)

/-- A function that notes the keys of one name and stops at the first of another. -/
def noteSame (key k : Key) (_ : V) (visited : List Key) : Run (Bool × List Key) := do
  let same ← isSameFqdn key k
  if same then .ok (true, visited ++ [k]) else .ok (false, visited)

/-- The key of the difference that leads to a version of a zone. -/
def diffKey (zone : List UInt8) (serial : UInt32) : Key := init zone .diff (some serial.toNat)

/-- What the keys of the differences of a zone begin with. -/
def diffHead (zone : List UInt8) : Key := 1 :: zone.reverse ++ [0]

/-- A key of a difference of a zone without NUL in its name. -/
def DiffKey (key : Key) : Prop := ∃ zone serial, 0 ∉ zone ∧ key = diffKey zone serial

theorem diffKey_eq (zone : List UInt8) (serial : UInt32) :
    diffKey zone serial = diffHead zone ++ bigEndian 4 serial.toNat := by
  simp [diffKey, diffHead, init, isReversed, Class.toByte, be32, bigEndian]

theorem compare_diffKey (zone : List UInt8) (low high : UInt32) :
    compare (diffKey zone low) (diffKey zone high) = compare low.toNat high.toNat := by
  have four : 256 ^ 4 = 2 ^ 32 := by decide
  rw [diffKey_eq, diffKey_eq, Lexicographic.compare_append, Lexicographic.compare_bigEndian, four,
    Nat.mod_eq_of_lt low.toNat_lt, Nat.mod_eq_of_lt high.toNat_lt]

theorem diffKey_injective (zone : List UInt8) : (diffKey zone).Injective := by
  intro low high same
  have self : compare (diffKey zone high) (diffKey zone high) = .eq := Std.ReflCmp.compare_self
  nth_rewrite 1 [← same] at self
  rw [compare_diffKey, Nat.compare_eq_eq] at self
  exact UInt32.toNat_inj.mp self

/-- The NUL behind the name tells a zone from those whose names extend its name. -/
theorem diffHead_prefix_iff {zone other : List UInt8} (plain : 0 ∉ zone) (otherPlain : 0 ∉ other)
    (serial : UInt32) : diffHead zone <+: diffKey other serial ↔ zone = other := by
  rw [diffKey_eq]
  constructor
  · rintro ⟨tail, same⟩
    simp only [diffHead, cons_append, append_assoc, cons.injEq, true_and,
      nil_append] at same
    have upToNul (name tail : List UInt8) (noNul : 0 ∉ name) :
        (name.reverse ++ 0 :: tail).takeWhile (· != 0) = name.reverse := by
      rw [takeWhile_append_of_pos, takeWhile_cons_of_neg (by decide), append_nil]
      intro byte member
      exact bne_iff_ne.mpr fun isNul => noNul (isNul ▸ mem_reverse.mp member)
    have names := congrArg (takeWhile (· != 0)) same
    rw [upToNul zone tail plain, upToNul other _ otherPlain] at names
    exact reverse_inj.mp names
  · rintro rfl
    exact prefix_append _ _

theorem fqdnPart_diffKey (zone : List UInt8) (serial : UInt32) :
    fqdnPart (diffKey zone serial) = .ok zone.reverse := by
  simp [fqdnPart, Run.assert, diffKey_eq, diffHead, Class.toByte, length_bigEndian]

variable {zone : List UInt8} (plain : 0 ∉ zone) (serial : UInt32)

include plain

/-- The iteration goes on as long as the keys are those of the zone. -/
theorem iterateWhile_noteSame (items : List (Key × V)) (visited : List Key)
    (built : ∀ item ∈ items, DiffKey item.1) :
    iterateWhile (diffKey zone serial) (noteSame (diffKey zone serial)) items visited =
      .ok (visited ++ (items.takeWhile fun item => diffHead zone <+: item.1).map Prod.fst) := by
  induction items generalizing visited with
  | nil => simp [iterateWhile]
  | cons item rest ih =>
    obtain ⟨other, version, otherPlain, isKey⟩ := built item mem_cons_self
    have later := fun visited => ih visited fun item member => built item (mem_cons_of_mem _ member)
    rw [iterateWhile, isKey, if_pos (by rfl), noteSame, isSameFqdn, fqdnPart_diffKey, fqdnPart_diffKey,
      takeWhile_cons, isKey]
    by_cases same : zone = other
    · subst same
      simp [(diffHead_prefix_iff plain plain version).mpr rfl, later, isKey]
    · simp [diffHead_prefix_iff plain otherPlain, same]

omit plain in
/-- From a key of the zone on, the keys of the zone come first. -/
theorem seek_zone_first (family : ColumnFamily V) :
    (OrderedMap.seek family (diffKey zone serial)).Pairwise fun earlier later =>
      decide (diffHead zone <+: later.1) = true → decide (diffHead zone <+: earlier.1) = true := by
  apply Pairwise.imp_of_mem _ (OrderedMap.seek_sorted family _)
  intro earlier later member _ before ofZone
  rw [decide_eq_true_iff] at ofZone ⊢
  have ofKey : diffHead zone <+: diffKey zone serial := by
    rw [diffKey_eq]
    exact prefix_append _ _
  have atHead : (compare (diffHead zone) earlier.1).isLE :=
    Std.TransCmp.isLE_trans (Lexicographic.le_of_prefix _ _ ofKey)
      ((OrderedMap.mem_seek family _ earlier).mp member).2
  exact Lexicographic.prefix_of_between ofZone atHead (isLE_of_lt before)

/-- From the key of a version of a zone on, until a key of another name, what is visited are the
stored differences of the zone of at least this version, in the order of the versions. -/
theorem iterateT_versions (family : ColumnFamily V) (built : ∀ key ∈ family, DiffKey key) :
    ∃ versions : List UInt32,
      iterateT family (diffKey zone serial) (noteSame (diffKey zone serial)) [] =
        .ok (versions.map (diffKey zone)) ∧
      versions.Pairwise (· < ·) ∧
      ∀ version, version ∈ versions ↔ serial ≤ version ∧ diffKey zone version ∈ family := by
  obtain ⟨items, isItems⟩ : ∃ items, (OrderedMap.seek family (diffKey zone serial)).filter
      (fun item => diffHead zone <+: item.1) = items := ⟨_, rfl⟩
  have mem (item : Key × V) : item ∈ items ↔ (family[item.1]? = some item.2 ∧
      (compare (diffKey zone serial) item.1).isLE) ∧ diffHead zone <+: item.1 := by
    rw [← isItems, mem_filter, OrderedMap.mem_seek, decide_eq_true_iff]
  have built (item : Key × V) (present : family[item.1]? = some item.2) : DiffKey item.1 :=
    built item.1 (Std.ExtTreeMap.mem_iff_isSome_getElem?.mpr (by rw [present]; rfl))
  obtain ⟨versions, same⟩ : items.map Prod.fst ∈ Set.range (map (diffKey zone)) := by
    rw [Set.range_list_map]
    intro key member
    obtain ⟨item, found, rfl⟩ := mem_map.mp member
    obtain ⟨⟨present, _⟩, ofZone⟩ := (mem item).mp found
    obtain ⟨other, version, otherPlain, isKey⟩ := built item present
    rw [isKey, diffHead_prefix_iff plain otherPlain] at ofZone
    exact ⟨version, by rw [isKey, ofZone]⟩
  refine ⟨versions, ?_, ?_, fun version => ?_⟩
  · rw [iterateT, iterateWhile_noteSame plain serial _ _ fun item found =>
        built item ((OrderedMap.mem_seek family _ item).mp found).1, nil_append,
      OrderedMap.takeWhile_eq_filter _ (seek_zone_first serial family), isItems, same]
  · have sorted := ((OrderedMap.seek_sorted family (diffKey zone serial)).filter
      fun item => diffHead zone <+: item.1).map Prod.fst
      (S := fun left right => compare left right = .lt) fun _ _ before => before
    rw [isItems, ← same, pairwise_map] at sorted
    apply sorted.imp
    intro low high before
    rw [compare_diffKey, Nat.compare_eq_lt] at before
    exact UInt32.lt_iff_toNat_lt.mpr before
  · rw [← mem_map_of_injective (diffKey_injective zone), same, mem_map]
    constructor
    · rintro ⟨item, found, isKey⟩
      obtain ⟨⟨present, above⟩, _⟩ := (mem item).mp found
      rw [isKey, compare_diffKey, Nat.isLE_compare] at above
      rw [isKey] at present
      exact ⟨UInt32.le_iff_toNat_le.mpr above,
        Std.ExtTreeMap.mem_iff_isSome_getElem?.mpr (by rw [present]; rfl)⟩
    · rintro ⟨above, present⟩
      refine ⟨(diffKey zone version, family[diffKey zone version]), (mem _).mpr ⟨⟨?_, ?_⟩, ?_⟩, rfl⟩
      · exact Std.ExtTreeMap.getElem?_eq_some_getElem present
      · rw [compare_diffKey, Nat.isLE_compare]
        exact UInt32.le_iff_toNat_le.mp above
      · exact (diffHead_prefix_iff plain plain version).mpr rfl

/-- Differences to three versions of the zone `z`, and to one of `a.z`. -/
def fourVersions : ColumnFamily Unit :=
  ((((∅ : ColumnFamily Unit).insert (diffKey [0x7A] 1) ()).insert (diffKey [0x7A] 2) ()).insert
    (diffKey [0x7A] 0x100) ()).insert (diffKey [0x61, 0x2E, 0x7A] 3) ()

omit plain in
theorem iterateT_fourVersions : ∃ versions : List UInt32,
    iterateT fourVersions (diffKey [0x7A] 2) (noteSame (diffKey [0x7A] 2)) [] =
        .ok (versions.map (diffKey [0x7A])) ∧
      versions.Pairwise (· < ·) ∧
      ∀ version, version ∈ versions ↔ 2 ≤ version ∧ diffKey [0x7A] version ∈ fourVersions := by
  apply iterateT_versions (by decide) 2 fourVersions
  intro key member
  simp only [fourVersions, Std.ExtTreeMap.mem_insert, Std.compare_eq_iff_eq,
    Std.ExtTreeMap.not_mem_empty, or_false] at member
  rcases member with rfl | rfl | rfl | rfl
  all_goals exact ⟨_, _, by decide, rfl⟩

end diff

end Nsblast.RealKey
