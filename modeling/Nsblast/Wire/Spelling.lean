import Nsblast.Library.Parts
import Nsblast.Wire.LabelsIterator

/-!
# Names as a builder writes them

A builder writes the labels of a name one behind the other and ends with the root or
with a pointer to a label of an earlier name. `Spelled` describes such a name by the
texts of its labels. Pointers lead in front of where the name they belong to begins, and
to a label or the root, never to another pointer.

Such a name is always accepted by the parser, which counts what was written, and the
iterator stands on its labels. At each of these places a name begins that has the rest
of the labels. Nothing of this depends on bytes in front of a given place, or on what
follows the name.
-/

namespace Nsblast.Labels

open Buffer PartAt List
open UInt8 (ofNat)

abbrev Text := List UInt8

/-- A label in place. -/
def labelBytes (text : Text) : List UInt8 := ofNat text.length :: text

/-- `writeNamePtr`: the offset in network order, with the tag in its first byte. -/
def pointerBytes (target : Nat) : List UInt8 :=
  [ofNat (target / 256) ||| 0xC0, ofNat target]

/-- The name at `position` with the texts of its labels and the bytes it takes in place.
It belongs to what was written from `start` on, and everything it uses is behind
`floor`. -/
inductive Spelled (buffer : Buffer) (floor : Nat) : Nat → Nat → List Text → Nat → Prop where
  | root (start position : Nat) (behind : floor ≤ position) (near : position < 65535)
      (stored : PartAt buffer position [0]) : Spelled buffer floor start position [] 1
  | label (start position extent : Nat) (text : Text) (rest : List Text)
      (behind : floor ≤ position) (near : position < 65535) (filled : text ≠ [])
      (short : text.length ≤ 63) (stored : PartAt buffer position (labelBytes text))
      (tail : Spelled buffer floor start (position + 1 + text.length) rest extent) :
      Spelled buffer floor start position (text :: rest) (1 + text.length + extent)
  | pointer (start position origin target extent : Nat) (first : UInt8) (labels : List Text)
      (behind : floor ≤ position) (near : position < 65535)
      (stored : PartAt buffer position (pointerBytes target)) (fits : target < 16384)
      (earlier : target < start) (begun : origin ≤ target) (found : buffer[target]? = some first)
      (plain : isPointer first = false) (tail : Spelled buffer floor origin target labels extent) :
      Spelled buffer floor start position labels 2

/-- The length of the text of a name whose first part has `size` characters. -/
def textSize : Nat → List Text → Nat
  | size, [] => size
  | size, text :: rest => textSize ((if size = 0 then 0 else size + 1) + text.length) rest

theorem textSize_ge (labels : List Text) (size : Nat) : size ≤ textSize size labels := by
  induction labels generalizing size with
  | nil => exact Nat.le_refl size
  | cons text rest ih =>
    have grown := ih ((if size = 0 then 0 else size + 1) + text.length)
    rw [textSize]
    split at grown <;> split <;> omega

section bytes

/-- What can be decided for every number of eight bits holds of every byte. -/
theorem forall_byte (property : UInt8 → Prop)
    (holds : ∀ number < 256, property (ofNat number)) (byte : UInt8) : property byte := by
  have shown := holds byte.toNat byte.toNat_lt
  rwa [UInt8.ofNat_toNat] at shown

/-- The length of a label is not taken for a pointer. -/
theorem length_byte {length : Nat} (short : length ≤ 63) :
    isPointer (ofNat length) = false ∧ isExtLabel (ofNat length) = false ∧
      (ofNat length).toNat = length := by
  have all : ∀ number < 64, isPointer (ofNat number) = false ∧
      isExtLabel (ofNat number) = false ∧ (ofNat number).toNat = number := by
    decide
  exact all length (by omega)

theorem pointer_byte (high : UInt8) :
    isPointer (high ||| 0xC0) = true ∧ ((high ||| 0xC0) &&& 0x3F).toNat = high.toNat % 64 :=
  forall_byte (fun high => isPointer (high ||| 0xC0) = true ∧
    ((high ||| 0xC0) &&& 0x3F).toNat = high.toNat % 64) (by decide +kernel) high

/-- A pointer is read back up to its 14 bits. -/
theorem resolvePtr_pointerBytes {buffer : Buffer} {position target : Nat}
    (stored : PartAt buffer position (pointerBytes target)) :
    resolvePtr buffer position = .ok (target % 16384) := by
  simp only [pointerBytes, cons_iff] at stored
  have readHigh := (read_eq_ok buffer position _).mpr stored.1
  have readLow := (read_eq_ok buffer (position + 1) _).mpr stored.2.1
  have high := (pointer_byte (ofNat (target / 256))).2
  simp only [resolvePtr, readHigh, readLow, Run.bind_ok, Run.pure_eq, Run.ok.injEq]
  simp only [readBigEndian, foldl_cons, foldl_nil, high, UInt8.toNat_ofNat', Nat.reducePow]
  omega

end bytes

section spelled

variable {buffer other : Buffer} {floor start position extent : Nat} {labels : List Text}

namespace Spelled

theorem above (spelled : Spelled buffer floor start position labels extent) :
    floor ≤ position ∧ position < 65535 := by
  cases spelled <;> constructor <;> assumption

theorem inside (spelled : Spelled buffer floor start position labels extent) :
    position < buffer.length := by
  cases spelled with
  | root _ _ _ _ stored => exact stored.inside (by simp)
  | label _ _ extent text rest _ _ _ _ stored _ =>
    have ends := stored.inside (by simp [labelBytes])
    simp only [labelBytes, length_cons] at ends
    omega
  | pointer _ _ origin target extent first _ _ _ stored _ _ _ _ _ _ =>
    have ends := stored.inside (by simp [pointerBytes])
    simp only [pointerBytes, length_cons] at ends
    omega

/-- The name stays when the buffer grows. -/
theorem grown (spelled : Spelled buffer floor start position labels extent)
    (grows : GrownBehind floor buffer other) :
    Spelled other floor start position labels extent := by
  induction spelled with
  | root start position behind near stored =>
    exact .root start position behind near (stored.grown grows behind)
  | label start position extent text rest behind near filled short stored _ ih =>
    exact .label start position extent text rest behind near filled short
      (stored.grown grows behind) ih
  | pointer start position origin target extent first labels behind near stored fits earlier begun
      found plain tail ih =>
    have same : PartAt other target [first] :=
      ((cons_iff first).mpr ⟨found, PartAt.nil _ _⟩).grown grows tail.above.1
    exact .pointer start position origin target extent first labels behind near
      (stored.grown grows behind) fits earlier begun ((cons_iff first).mp same).1 plain ih

end Spelled

end spelled

section parsing

/-- The loop of the parser is inside a name that was written by a builder. -/
inductive OnWay (buffer : Buffer) (floor : Nat) (scan : Scan) : Prop where
  | header (start extent : Nat) (labels : List Text) (starts : scan.inHeader = true)
      (spelled : Spelled buffer floor start scan.position labels extent)
      (fits : textSize scan.size labels ≤ 254) (jumps : ∀ target ∈ scan.jumpedTo, start ≤ target)
      (row : scan.numPtrsInSequence = 0 ∨
        ∃ first, buffer[scan.position]? = some first ∧ isPointer first = false)
  | label (start extent : Nat) (rest : List Text) (within : scan.inHeader = false)
      (positive : 0 < scan.labelBytes)
      (spelled : Spelled buffer floor start (scan.position + scan.labelBytes) rest extent)
      (fits : textSize (scan.size + scan.labelBytes) rest ≤ 254)
      (jumps : ∀ target ∈ scan.jumpedTo, start ≤ target) (row : scan.numPtrsInSequence = 0)

/-- A turn in such a name goes on in it, or accepts at its root. -/
theorem body_onWay {buffer : Buffer} {floor : Nat} {scan : Scan} (onWay : OnWay buffer floor scan) :
    (∃ following, body buffer scan = .next following ∧ OnWay buffer floor following) ∨
      ∃ final, body buffer scan = .leave (.ok final) := by
  cases onWay with
  | header start extent labels starts spelled fits jumps row =>
    have near : ¬ scan.position ≥ 65535 := by have := spelled.above; omega
    cases spelled with
    | root _ _ _ _ stored =>
      have byte := ((cons_iff _).mp stored).1
      have small : ¬ scan.size + 1 > 255 := by
        simp only [textSize] at fits
        omega
      exact Or.inr ⟨_, by simp [body, byte, starts, header, near, root, small]; rfl⟩
    | label _ _ extent text rest _ _ filled short stored tail =>
      have byte := ((cons_iff _).mp stored).1
      obtain ⟨plain, notExt, length⟩ := length_byte short
      have positive : 0 < text.length := length_pos_iff.mpr filled
      have notZero : ofNat text.length ≠ 0 := by
        intro zero
        rw [zero] at length
        simp only [UInt8.reduceToNat] at length
        omega
      have room := tail.inside
      have within : ¬ scan.position + text.length ≥ buffer.length := by omega
      have grown := textSize_ge rest ((if scan.size = 0 then 0 else scan.size + 1) + text.length)
      rw [textSize] at fits
      have small : ¬ (startLabel scan text.length).size > 254 := by
        simp only [startLabel]
        omega
      refine Or.inl ⟨startLabel scan text.length, ?_, ?_⟩
      · have notLong : ¬ 63 < text.length := by omega
        simp only [body, byte, starts, if_true, header, near, if_false, notZero, plain,
          Bool.false_eq_true, label, notExt, length, gt_iff_lt, notLong, within, checkSize]
        rw [if_neg small]
      · exact .label start extent rest rfl positive (by simpa [startLabel] using tail)
          (by simpa [startLabel] using fits) jumps rfl
    | pointer _ _ origin target extent first _ _ _ stored small earlier begun found plain tail =>
      have byte := ((cons_iff _).mp stored).1
      have tagged := (pointer_byte (ofNat (target / 256))).1
      have single : scan.numPtrsInSequence = 0 := by
        rcases row with zero | ⟨other, isOther, notPointer⟩
        · exact zero
        · cases byte.symm.trans isOther
          cases tagged.symm.trans notPointer
      have notZero : ofNat (target / 256) ||| 0xC0 ≠ 0 := by
        intro zero
        rw [zero] at tagged
        exact absurd tagged (by decide)
      have ends := stored.inside (by simp [pointerBytes])
      have notLast : ¬ scan.position + 1 = buffer.length := by
        simp only [pointerBytes, length_cons] at ends
        omega
      have resolved := resolvePtr_pointerBytes stored
      rw [Nat.mod_eq_of_lt small] at resolved
      have within : ¬ target ≥ buffer.length := by have := tail.inside; omega
      have fresh : target ∉ scan.jumpedTo := by
        intro member
        have := jumps target member
        omega
      refine Or.inl ⟨jump scan target, ?_, ?_⟩
      · simp [body, byte, starts, header, near, notZero, tagged, pointer, single, maxPtrsInARow,
          notLast, resolved, within, fresh]
      · refine .header origin extent labels (by simpa [jump, countByte] using starts) tail
          (by simpa [jump, countByte] using fits) ?_ (Or.inr ⟨first, found, plain⟩)
        intro other member
        simp only [jump, countByte, mem_append, mem_singleton] at member
        rcases member with old | rfl
        · have := jumps other old
          omega
        · exact begun
  | label start extent rest within positive spelled fits jumps row =>
    have room := spelled.inside
    obtain ⟨byte, _, stored⟩ := read_inside buffer scan.position (by omega)
    have grown := textSize_ge rest (scan.size + scan.labelBytes)
    have small : ¬ (passByte scan).size > 254 := by
      simp only [passByte]
      omega
    refine Or.inl ⟨passByte scan, ?_, ?_⟩
    · simp only [body, stored, within, Bool.false_eq_true, if_false, labelByte, checkSize]
      rw [if_neg small]
    · by_cases last : scan.labelBytes - 1 = 0
      · have ended : scan.labelBytes = 1 := by omega
        rw [ended] at spelled fits
        exact .header start extent rest (by simp [passByte, ended]) spelled fits jumps (Or.inl row)
      · have place : scan.position + 1 + (scan.labelBytes - 1) = scan.position + scan.labelBytes := by
          omega
        have total : scan.size + 1 + (scan.labelBytes - 1) = scan.size + scan.labelBytes := by omega
        refine .label start extent rest (by simp [passByte, last])
          (by simp only [passByte]; omega) ?_ ?_ jumps row
        · simpa only [passByte, place] using spelled
        · simpa only [passByte, total] using fits

/-- The loop does not refuse such a name. -/
theorem loop_onWay {buffer : Buffer} (floor fuel : Nat) {scan : Scan}
    (onWay : OnWay buffer floor scan) :
    loop buffer fuel scan = .outOfFuel ∨ ∃ final, loop buffer fuel scan = .ok final := by
  induction fuel generalizing scan with
  | zero => exact Or.inl rfl
  | succ fuel ih =>
    have room : ¬ scan.position = buffer.length := by
      cases onWay with
      | header start extent labels starts spelled =>
        have := spelled.inside
        omega
      | label start extent rest within positive spelled =>
        have := spelled.inside
        omega
    rw [loop, if_neg room]
    rcases body_onWay onWay with ⟨following, turned, onWay⟩ | ⟨final, left⟩
    · rw [turned]
      exact ih onWay
    · rw [left]
      exact Or.inr ⟨final, rfl⟩

end parsing

section visiting

/-- A name with these labels begins at the place, and not with a pointer. -/
def Begins (buffer : Buffer) (floor location : Nat) (labels : List Text) : Prop :=
  ∃ origin extent first, origin ≤ location ∧ buffer[location]? = some first ∧
    isPointer first = false ∧ Spelled buffer floor origin location labels extent

variable {buffer : Buffer} {extent floor location position start : Nat} {labels : List Text}

theorem Begins.grown {other : Buffer} (begins : Begins buffer floor location labels)
    (grows : GrownBehind floor buffer other) :
    Begins other floor location labels := by
  obtain ⟨origin, extent, first, begun, found, plain, spelled⟩ := begins
  have same : PartAt other location [first] :=
    ((cons_iff first).mpr ⟨found, PartAt.nil _ _⟩).grown grows spelled.above.1
  exact ⟨origin, extent, first, begun, ((cons_iff first).mp same).1, plain, spelled.grown grows⟩

theorem Begins.inside (begins : Begins buffer floor location labels) :
    location < buffer.length := by
  obtain ⟨_, _, _, _, _, _, spelled⟩ := begins
  exact spelled.inside

/-- The views are those of the labels and of the root, each at a place where the rest of
the name begins. -/
def Sites (buffer : Buffer) (floor : Nat) : List Text → List View → Prop
  | [], [root] => root.length = 0 ∧ 0 < root.start ∧ Begins buffer floor (root.start - 1) []
  | text :: rest, view :: views => view.length = text.length ∧ PartAt buffer view.start text ∧
      0 < view.start ∧ Begins buffer floor (view.start - 1) (text :: rest) ∧
      Sites buffer floor rest views
  | _, _ => False

/-- The iterator visits the labels of a name as it was written. -/
theorem visit_spelled (spelled : Spelled buffer floor start position labels extent)
    (begun : start ≤ position) :
    ∃ views, Sites buffer floor labels views ∧
      ∀ fuel, labels.length + 1 ≤ fuel → visit buffer fuel position = .ok views := by
  induction spelled with
  | root start position behind near stored =>
    have byte := ((cons_iff _).mp stored).1
    have byteRead := (read_eq_ok buffer position 0).mpr byte
    refine ⟨[⟨position + 1, 0⟩], ⟨rfl, by simp, start, 1, 0, begun, byte, rfl,
      .root start position behind near stored⟩, ?_⟩
    rintro (_ | fuel) enough
    · omega
    · have followed := followPointers_plain maxPtrsInARow byte rfl
      simp [visit, followed, update, byteRead, Run.assert]
  | label start position extent text rest behind near filled short stored tail ih =>
    obtain ⟨views, sites, visited⟩ := ih (by omega)
    have byte := ((cons_iff _).mp stored).1
    have byteRead := (read_eq_ok buffer position _).mpr byte
    obtain ⟨plain, _, length⟩ := length_byte short
    refine ⟨⟨position + 1, text.length⟩ :: views, ⟨rfl, ((cons_iff _).mp stored).2, by simp,
      ⟨start, _, _, begun, byte, plain, .label start position extent text rest behind near filled short
        stored tail⟩, sites⟩, ?_⟩
    rintro (_ | fuel) enough
    · omega
    · have followed := followPointers_plain maxPtrsInARow byte plain
      have room := tail.inside
      have far := tail.above
      have step : (position + (text.length + 1)) % 65536 = position + 1 + text.length := by omega
      have rested := visited fuel (by simpa using enough)
      simp [visit, followed, update, byteRead, length, Run.assert, room, filled, step, rested]
  | pointer start position origin target extent first labels behind near stored fits earlier begun'
      found plain tail ih =>
    obtain ⟨views, sites, visited⟩ := ih begun'
    refine ⟨views, sites, ?_⟩
    rintro (_ | fuel) enough
    · omega
    · have byte := ((cons_iff _).mp stored).1
      have tagged := (pointer_byte (ofNat (target / 256))).1
      have resolved := resolvePtr_pointerBytes stored
      rw [Nat.mod_eq_of_lt fits] at resolved
      have jumped := followPointers_tagged 15 byte tagged resolved tail.inside
      have here := followPointers_plain 15 found plain
      have there := followPointers_plain maxPtrsInARow found plain
      rw [← visited (fuel + 1) enough, visit, visit]
      simp only [maxPtrsInARow] at there ⊢
      rw [jumped, here, there]

variable {views : List View}

theorem Sites.lengths (sites : Sites buffer floor labels views) :
    views.map (·.length) = labels.map List.length ++ [0] := by
  induction labels generalizing views with
  | nil =>
    match views, sites with
    | [root], sites => simp [sites.1]
  | cons text rest ih =>
    match views, sites with
    | view :: views, sites => simp [sites.1, ih sites.2.2.2.2]

theorem Sites.inside (sites : Sites buffer floor labels views) :
    ∀ view ∈ views, view.length = 0 ∨ view.Inside buffer := by
  induction labels generalizing views with
  | nil =>
    match views, sites with
    | [root], sites => simp [sites.1]
  | cons text rest ih =>
    match views, sites with
    | view :: views, ⟨length, stored, _, _, more⟩ =>
      intro other member
      rcases mem_cons.mp member with rfl | later
      · by_cases empty : text = []
        · exact Or.inl (by rw [length, empty, length_nil])
        · refine Or.inr ?_
          rw [View.Inside, length]
          exact stored.inside empty
      · exact ih more other later

theorem dotted_eq_textSize {views : List View} (size : Nat)
    (lengths : views.map (·.length) = labels.map List.length) :
    dotted size views = textSize size labels := by
  induction labels generalizing views size with
  | nil =>
    rw [map_nil, map_eq_nil_iff] at lengths
    rw [lengths, dotted, textSize]
  | cons text rest ih =>
    cases views with
    | nil => cases lengths
    | cons view views =>
      simp only [map_cons, List.cons.injEq] at lengths
      rw [dotted, textSize, lengths.1]
      exact ih _ lengths.2

/-- What a name begins with decides about the bytes it takes. -/
theorem nameAt_first {row : Nat} (name : NameAt buffer row position views extent) :
    ∃ byte, buffer[position]? = some byte ∧
      ((byte = 0 ∧ views = [] ∧ extent = 1) ∨ (isPointer byte = true ∧ extent = 2) ∨
        (isPointer byte = false ∧ 0 < byte.toNat ∧ ∃ rest behind,
          NameAt buffer 0 (position + 1 + byte.toNat) rest behind ∧
          extent = 1 + byte.toNat + behind)) := by
  cases name with
  | root _ _ => exact ⟨0, by assumption, Or.inl ⟨rfl, rfl, rfl⟩⟩
  | label _ _ extent byte rest =>
    exact ⟨byte, by assumption, Or.inr (Or.inr ⟨by assumption, by assumption, rest, extent, by assumption,
      rfl⟩)⟩
  | pointer _ _ target extent byte =>
    exact ⟨byte, by assumption, Or.inr (Or.inl ⟨by assumption, rfl⟩)⟩

/-- The bytes a name takes in place are those the builder has written. -/
theorem extent_unique {row other : Nat} {views : List View}
    (spelled : Spelled buffer floor start position labels extent)
    (name : NameAt buffer row position views other) : extent = other := by
  induction spelled generalizing row views other with
  | root start position behind near stored =>
    obtain ⟨byte, isByte, first⟩ := nameAt_first name
    cases isByte.symm.trans ((cons_iff _).mp stored).1
    rcases first with ⟨_, _, one⟩ | ⟨tagged, _⟩ | ⟨_, positive, _⟩
    · exact one.symm
    · cases tagged
    · exact absurd positive (by decide)
  | label start position extent text rest behind near filled short stored tail ih =>
    obtain ⟨byte, isByte, first⟩ := nameAt_first name
    obtain ⟨plain, _, length⟩ := length_byte short
    have same := Option.some.inj (isByte.symm.trans ((cons_iff _).mp stored).1)
    rw [← same] at plain length
    rcases first with ⟨zero, _⟩ | ⟨tagged, _⟩ | ⟨_, _, rest, behind, inner, total⟩
    · rw [zero, UInt8.toNat_zero] at length
      exact absurd (length_eq_zero_iff.mp length.symm) filled
    · cases tagged.symm.trans plain
    · rw [length] at inner total
      rw [total, ih inner]
  | pointer start position origin target extent first labels behind near stored fits earlier begun
      found plain tail ih =>
    obtain ⟨byte, isByte, first⟩ := nameAt_first name
    have tagged := (pointer_byte (ofNat (target / 256))).1
    have same := Option.some.inj (isByte.symm.trans ((cons_iff _).mp stored).1)
    rw [← same] at tagged
    rcases first with ⟨zero, _⟩ | ⟨_, two⟩ | ⟨notTagged, _⟩
    · rw [zero] at tagged
      cases tagged
    · exact two.symm
    · cases tagged.symm.trans notTagged

/-- The parser accepts a name as it was written, and counts its labels, its text and its
bytes. -/
theorem parse_spelled (buffer : Buffer) (floor position extent : Nat)
    (spelled : Spelled buffer floor position position labels extent)
    (fits : textSize 0 labels ≤ 254) :
    parse buffer position =
      .ok ⟨buffer, position, labels.length + 1, textSize 0 labels + 1, extent⟩ := by
  have onWay : OnWay buffer floor { position } :=
    .header position extent labels rfl spelled fits (by simp) (Or.inl rfl)
  rcases parse_spec buffer position with ⟨what, refused⟩ | ⟨name, views, accepted, parsed⟩
  · have inside : ¬ position ≥ buffer.length := by have := spelled.inside; omega
    rw [parse, if_neg inside] at refused
    rcases loop_onWay floor (turns buffer) onWay with empty | ⟨final, ended⟩
    · rw [empty] at refused
      cases refused
    · rw [ended] at refused
      cases refused
  · obtain ⟨isView, offset, nameAt, count, size⟩ := parsed
    obtain ⟨sited, sites, visited⟩ := visit_spelled spelled (Nat.le_refl _)
    obtain ⟨root, empty, walked⟩ := visit_name nameAt
    have same : sited = views ++ [root] := by
      have enough := visited (labels.length + 1 + (views.length + 1)) (by omega)
      rw [walked _ (by omega)] at enough
      exact (Run.ok.inj enough).symm
    have lengths : views.map (·.length) = labels.map List.length := by
      have both := sites.lengths
      rw [same, map_append, map_singleton, empty] at both
      exact append_cancel_right both
    have isCount : views.length = labels.length := by
      simpa using congrArg List.length lengths
    have bytes := extent_unique
      spelled nameAt
    rw [accepted]
    obtain ⟨view, nameOffset, nameCount, nameSize, nameBytes⟩ := name
    simp only at isView offset count size bytes
    rw [isView, offset, count, size, ← bytes, isCount, dotted_eq_textSize 0 lengths]

end visiting

end Nsblast.Labels
