import Nsblast.Storage.Builder

/-!
# The bytes of a stored record

`Rr::selfSpan` shows a record with its labels as they stand in the buffer: written
out, or as a pointer to the first name. Records of one name are told apart by
these bytes as far as what they say about the name: their labels take equally
many bytes, or begin with a byte that tells a pointer from a label.
-/

namespace Nsblast

open List StorageBuilder

/-- A name as it is written out. -/
def wireName (name : Name) : List UInt8 :=
  (labelsOf name).flatMap fun label => UInt8.ofNat label.length :: label

namespace StoredRr

/-- The labels of the record in a buffer whose first name is at the offset. -/
def labelSpan (first : Nat) (rr : StoredRr) : List UInt8 :=
  if rr.pointer then be16 (0xC000 + first) else wireName rr.owner

/-- `Rr::selfSpan`. -/
def selfSpan (first : Nat) (rr : StoredRr) : List UInt8 :=
  rr.labelSpan first ++ rr.dataSpanAfterLabel

end StoredRr

variable {name : Name} {left right : StoredRr}

section writeName

/-- No label is empty if all of their bytes are written. -/
theorem writeSegments_eq_ok {segments : List (List UInt8)} (written : writeSegments segments =
      .ok ((segments.map fun label => label.length + 1).sum + 1)) :
    ∀ segment ∈ segments, segment ≠ [] ∧ segment.length ≤ 63 := by
  induction segments with
  | nil =>
    intro segment none
    cases none
  | cons first rest ih =>
    rw [writeSegments] at written
    split at written
    · rename_i last
      rw [last.1, last.2] at written
      cases written
    rw [Run.bind_eq_ok] at written
    obtain ⟨_, here, later⟩ := written
    rw [Run.bind_eq_ok] at later
    obtain ⟨bytes, later, whole⟩ := later
    have counted := Run.ok.inj whole
    rw [map_cons, sum_cons] at counted
    obtain rfl : bytes = (rest.map fun label => label.length + 1).sum + 1 := by omega
    intro segment member
    rcases mem_cons.mp member with rfl | member
    · simp only [writeSegment, Run.bind_eq_ok] at here
      obtain ⟨_, filled, _, _, _, _, short⟩ := here
      refine ⟨?_, ?_⟩
      · intro empty
        rw [empty] at filled
        cases filled
      · by_contra long
        rw [Run.throwIf_of (Nat.lt_of_not_le long)] at short
        cases short
    · exact ih later segment member

theorem splitOn_length (name : Name) :
    ((name.splitOn 0x2E).map fun label => label.length + 1).sum = name.length + 1 := by
  induction name with
  | nil => rfl
  | cons byte rest ih =>
    rw [splitOn] at ih ⊢
    rw [splitOnP_cons_eq_if_modifyHead]
    split
    · rw [map_cons, sum_cons, ih, length_nil, length_cons, Nat.zero_add, Nat.add_comm]
    · cases parts : splitOnP (fun x => x == (0x2E : UInt8)) rest with
      | nil => exact absurd parts (splitOnP_ne_nil _ _)
      | cons first others =>
        rw [parts, map_cons, sum_cons] at ih
        rw [modifyHead_cons, map_cons, sum_cons, length_cons, length_cons]
        omega

/-- The labels of a name that could be written. -/
theorem writeName_eq_ok (written : Name.Writable name) (filled : name ≠ []) :
    ∀ segment ∈ name.splitOn 0x2E, segment ≠ [] ∧ segment.length ≤ 63 := by
  rw [Name.Writable, writeName, Run.bind_eq_ok, if_neg filled] at written
  obtain ⟨_, _, written⟩ := written
  exact writeSegments_eq_ok (by rw [written, splitOn_length])

/-- Such a name has no final dot. -/
theorem writeName_plain (written : Name.Writable name) :
    name.getLast? ≠ some 0x2E := by
  intro dotted
  obtain ⟨front, rfl⟩ := getLast?_eq_some_iff.mp dotted
  have last : [] ∈ (front ++ [0x2E]).splitOn (0x2E : UInt8) := by
    rw [splitOn, splitOnP_append_cons front [] (by decide)]
    exact mem_append_right _ (by simp)
  exact (writeName_eq_ok written (by simp) _ last).1 rfl

/-- The bytes of a name are counted before it is written, and the count is right except for
the root with its dot. -/
theorem labelsLen_iff (fqdn : Name) :
    (if withoutDot fqdn = [] then 1 else (withoutDot fqdn).length + 2) = labelsLen fqdn ↔
      fqdn ≠ [0x2E] := by
  rw [labelsLen, withoutDot]
  by_cases empty : fqdn = []
  · simp [empty]
  by_cases dotted : fqdn.getLast? = some 0x2E
  · obtain ⟨front, rfl⟩ := getLast?_eq_some_iff.mp dotted
    simp
  · have notDot : fqdn ≠ [0x2E] := by
      rintro rfl
      exact dotted rfl
    simp [empty, dotted, notDot]

/-- The count is right exactly for the other names that are written as a whole. -/
theorem writeName_labelsLen {fqdn : Name} : writeName (withoutDot fqdn) = .ok (labelsLen fqdn) ↔
    Name.Writable (withoutDot fqdn) ∧ fqdn ≠ [0x2E] := by
  constructor
  · intro written
    have notDot : fqdn ≠ [0x2E] := by
      rintro rfl
      cases written
    exact ⟨written.trans (congrArg _ ((labelsLen_iff fqdn).mpr notDot).symm), notDot⟩
  · rintro ⟨written, notDot⟩
    exact written.trans (congrArg _ ((labelsLen_iff fqdn).mpr notDot))

end writeName

section wireName

/-- The bytes of a written name depend on its length only. -/
theorem wireName_length (name : Name) :
    (wireName name).length = if name = [] then 1 else name.length + 2 := by
  rw [wireName, length_flatMap, labelsOf]
  split
  · rfl
  · rw [map_append, sum_append]
    simp only [length_cons, splitOn_length, map_cons, map_nil, length_nil, sum_cons, sum_nil]
    omega

/-- A written name begins with the length of a label, which is no pointer. -/
theorem wireName_head (written : Name.Writable name) :
    ∃ byte rest, wireName name = byte :: rest ∧ byte.toNat < 192 := by
  rw [wireName, labelsOf]
  split
  · exact ⟨0, [], rfl, by decide⟩
  · rename_i filled
    cases parts : name.splitOn 0x2E with
    | nil => exact absurd parts (splitOnP_ne_nil _ _)
    | cons first others =>
      have short := (writeName_eq_ok written filled first (by rw [parts]; exact mem_cons_self)).2
      refine ⟨UInt8.ofNat first.length, first ++ _, rfl, ?_⟩
      rw [UInt8.toNat_ofNat']
      omega

end wireName

namespace StoredRr

/-- Names that differ in the case of letters only have the same length. -/
theorem owner_length_of_key (sameKey : left.key = right.key) :
    left.owner.length = right.owner.length := by
  have lengths := congrArg length sameKey
  simpa only [Record.key, Name.toLower, length_map] using lengths

/-- The pointer to a first name begins with a byte no label has. -/
theorem labelSpan_pointer {first : Nat} (near : first < 256) {rr : StoredRr}
    (pointer : rr.pointer = true) : rr.labelSpan first = [0xC0, UInt8.ofNat first] := by
  rw [labelSpan, if_pos pointer]
  have high : (0xC000 + first) / 256 = 192 := by omega
  have low : UInt8.ofNat (0xC000 + first) = UInt8.ofNat first := by
    apply UInt8.toNat_inj.mp
    rw [UInt8.toNat_ofNat', UInt8.toNat_ofNat']
    omega
  simp only [bigEndian, Nat.pow_one, Nat.pow_zero, Nat.div_one, high, low]
  rfl

/-- Records of one name with the same bytes say the same. -/
theorem body_of_selfSpan {firstLeft firstRight : Nat} (nearLeft : firstLeft < 256)
    (nearRight : firstRight < 256) (sameKey : left.key = right.key)
    (writtenLeft : Name.Writable left.owner) (writtenRight : Name.Writable right.owner)
    (same : left.selfSpan firstLeft = right.selfSpan firstRight) : left.toBody = right.toBody := by
  have data (lengths : (left.labelSpan firstLeft).length = (right.labelSpan firstRight).length) :
      left.toBody = right.toBody :=
    Body.dataSpanAfterLabel_injective (append_inj same lengths).2
  -- a pointer is never taken for a written name
  have mixed (pointed written : StoredRr) (first other : Nat) (near : first < 256)
      (isPointer : pointed.pointer = true) (notPointer : ¬ written.pointer = true)
      (writable : Name.Writable written.owner) :
      pointed.selfSpan first ≠ written.selfSpan other := by
    intro equal
    obtain ⟨byte, rest, head, small⟩ := wireName_head writable
    rw [selfSpan, selfSpan, labelSpan_pointer near isPointer, labelSpan,
      if_neg notPointer, head, cons_append, cons_append, cons_append,
      List.cons.injEq] at equal
    rw [← equal.1] at small
    exact absurd small (by decide)
  by_cases leftPointer : left.pointer = true
  · by_cases rightPointer : right.pointer = true
    · apply data
      rw [labelSpan_pointer nearLeft leftPointer, labelSpan_pointer nearRight rightPointer]
      rfl
    · exact absurd same
        (mixed left right firstLeft firstRight nearLeft leftPointer rightPointer writtenRight)
  · by_cases rightPointer : right.pointer = true
    · exact absurd same.symm
        (mixed right left firstRight firstLeft nearRight rightPointer leftPointer writtenLeft)
    · apply data
      have lengths := owner_length_of_key sameKey
      have empty : left.owner = [] ↔ right.owner = [] := by
        rw [← length_eq_zero_iff, ← length_eq_zero_iff, lengths]
      simp [labelSpan, if_neg leftPointer, if_neg rightPointer, wireName_length, lengths, empty]

end StoredRr

end Nsblast
