import Mathlib.Data.Finset.Card
import Mathlib.Tactic.Ring
import Nsblast.Wire.LabelsWalk

/-!
# The parser's loop

One turn of the loop in `Labels::parse` can do three things: read a byte of a
label, start a label, or jump through a pointer. `Moves` lists them with their
guards; every other turn leaves the loop with an exception or at the root byte.
What the loop preserves, why it ends and what an accepted name looks like are
derived from that list.
-/

namespace Nsblast.Labels

open Buffer List

/-- The three ways in which the loop goes on. -/
inductive Moves (buffer : Buffer) (scan : Scan) : Scan → Prop where
  | labelByte (within : scan.inHeader = false) (fits : scan.size + 1 ≤ 254) :
      Moves buffer scan (passByte scan)
  | label (byte : UInt8) (starts : scan.inHeader = true) (near : scan.position < 65535)
      (stored : buffer[scan.position]? = some byte) (plain : isPointer byte = false)
      (positive : 0 < byte.toNat) (short : byte.toNat ≤ 63)
      (inside : scan.position + byte.toNat < buffer.length) :
      Moves buffer scan (startLabel scan byte.toNat)
  | pointer (byte : UInt8) (target : Nat) (starts : scan.inHeader = true)
      (near : scan.position < 65535) (stored : buffer[scan.position]? = some byte)
      (tagged : isPointer byte = true)
      (allowed : scan.numPtrsInSequence + 1 < maxPtrsInARow)
      (resolved : resolvePtr buffer scan.position = .ok target) (inside : target < buffer.length)
      (fresh : target ∉ scan.jumpedTo) :
      Moves buffer scan (jump scan target)

/-- The loop accepts at a root byte, which is counted like any other label. -/
structure Accepts (buffer : Buffer) (scan final : Scan) : Prop where
  starts : scan.inHeader = true
  near : scan.position < 65535
  stored : buffer[scan.position]? = some 0
  fits : scan.size + 1 ≤ 255
  final_eq : final = { countByte scan with count := scan.count + 1, size := scan.size + 1 }

/-- A pointer with a second byte resolves without a stray read. -/
theorem resolvePtr_inside (buffer : Buffer) (offset : Nat) (inside : offset + 1 < buffer.length) :
    ∃ target, resolvePtr buffer offset = .ok target := by
  obtain ⟨high, readHigh, _⟩ := read_inside buffer offset (by omega)
  obtain ⟨low, readLow, _⟩ := read_inside buffer (offset + 1) inside
  exact ⟨readBigEndian [high &&& 0x3F, low], by simp [resolvePtr, readHigh, readLow]⟩

/-- The result of one turn: an exception, acceptance, or one of the moves. No
turn inside the buffer reads outside it. -/
inductive TurnSpec (buffer : Buffer) (scan : Scan) : Turn → Prop where
  | refused (what : String) : TurnSpec buffer scan (.leave (.thrown what))
  | accepted (final : Scan) (accepts : Accepts buffer scan final) :
      TurnSpec buffer scan (.leave (.ok final))
  | moved (following : Scan) (moves : Moves buffer scan following) :
      TurnSpec buffer scan (.next following)

variable {buffer : Buffer} {scan : Scan}

/-- A check that throws. -/
theorem TurnSpec.unless {condition : Prop} [Decidable condition] {what : String} {turn : Turn}
    (passed : ¬ condition → TurnSpec buffer scan turn) :
    TurnSpec buffer scan (if condition then .leave (.thrown what) else turn) := by
  split
  · exact .refused what
  · rename_i fails
    exact passed fails

variable {byte : UInt8} {final following : Scan} {extent fuel : Nat} {views : List View}

theorem pointer_spec (inside : scan.position < buffer.length) (starts : scan.inHeader = true)
    (near : scan.position < 65535) (stored : buffer[scan.position]? = some byte)
    (tagged : isPointer byte = true) :
    TurnSpec buffer scan (pointer buffer scan) := by
  refine .unless fun few => .unless fun more => ?_
  obtain ⟨target, resolved⟩ := resolvePtr_inside buffer scan.position (by omega)
  simp only [resolved]
  refine .unless fun bounded => .unless fun fresh => ?_
  exact .moved _ (.pointer byte target starts near stored tagged (by omega) resolved
    (by omega) fresh)

theorem label_spec (starts : scan.inHeader = true) (near : scan.position < 65535)
    (stored : buffer[scan.position]? = some byte) (plain : isPointer byte = false)
    (positive : 0 < byte.toNat) : TurnSpec buffer scan (label buffer scan byte) := by
  refine .unless fun _ => .unless fun short => .unless fun bounded => .unless fun _ => ?_
  exact .moved _ (.label byte starts near stored plain positive (by omega) (by omega))

/-- What one turn of the loop can do. -/
theorem body_spec (inside : scan.position < buffer.length) :
    TurnSpec buffer scan (body buffer scan) := by
  obtain ⟨byte, _, stored⟩ := read_inside buffer scan.position inside
  simp only [body, stored]
  cases starts : scan.inHeader with
  | false =>
    rw [if_neg Bool.false_ne_true]
    exact .unless fun fits => .moved _ (.labelByte starts (Nat.le_of_not_lt fits))
  | true =>
    rw [if_pos rfl]
    refine .unless fun near => ?_
    by_cases isRoot : byte = 0
    · rw [if_pos isRoot]
      subst isRoot
      exact .unless fun fits => .accepted _ ⟨starts, by omega, stored, by omega, rfl⟩
    rw [if_neg isRoot]
    cases tagged : isPointer byte with
    | true =>
      rw [if_pos rfl]
      exact pointer_spec inside starts (by omega) stored tagged
    | false =>
      rw [if_neg Bool.false_ne_true]
      have positive : 0 < byte.toNat := by
        apply Nat.pos_of_ne_zero
        intro zero
        exact isRoot (UInt8.toNat_inj.mp zero)
      exact label_spec starts (by omega) stored tagged positive

/-- What holds of the loop variables on every turn: the position is in the
buffer or at its end, a label being read has bytes left, and the targets jumped
to are different positions of the buffer. -/
structure Sane (buffer : Buffer) (scan : Scan) : Prop where
  position : scan.position ≤ buffer.length
  labelBytes : scan.inHeader = false → 0 < scan.labelBytes
  targets : ∀ target ∈ scan.jumpedTo, target < buffer.length
  distinct : scan.jumpedTo.Nodup

theorem moves_sane (inside : scan.position < buffer.length) (sane : Sane buffer scan)
    (moves : Moves buffer scan following) : Sane buffer following := by
  cases moves with
  | labelByte within fits =>
    refine ⟨Nat.succ_le_of_lt inside, ?_, sane.targets, sane.distinct⟩
    intro unread
    simp only [passByte, beq_eq_false_iff_ne, ne_eq] at unread
    exact Nat.pos_of_ne_zero unread
  | label byte starts near stored plain positive short bounded =>
    exact ⟨Nat.succ_le_of_lt inside, fun _ => positive, sane.targets, sane.distinct⟩
  | pointer byte target starts near stored tagged allowed resolved bounded fresh =>
    refine ⟨Nat.le_of_lt bounded, ?_, ?_, ?_⟩
    · intro within
      exact Bool.noConfusion (starts.symm.trans within)
    · intro visited member
      simp only [jump, mem_append, mem_singleton] at member
      rcases member with earlier | rfl
      · exact sane.targets visited earlier
      · exact bounded
    · refine nodup_append.mpr ⟨sane.distinct, nodup_singleton target, ?_⟩
      intro visited earlier other same equal
      rw [mem_singleton] at same
      exact fresh (same ▸ equal ▸ earlier)

/-- The number of turns the loop can still take: the positions behind the
current one, and a whole buffer for each position not jumped to yet. -/
def turnsLeft (buffer : Buffer) (scan : Scan) : Nat :=
  (buffer.length - scan.jumpedTo.length) * (buffer.length + 1) + (buffer.length - scan.position)

/-- Distinct positions of the buffer are at most as many as it has bytes. -/
theorem jumps_bounded (sane : Sane buffer scan) : scan.jumpedTo.length ≤ buffer.length := by
  have included : scan.jumpedTo.toFinset ⊆ Finset.range buffer.length := by
    intro target member
    exact Finset.mem_range.mpr (sane.targets target (mem_toFinset.mp member))
  have counted := Finset.card_le_card included
  rwa [toFinset_card_of_nodup sane.distinct, Finset.card_range] at counted

theorem moves_decrease (inside : scan.position < buffer.length) (sane : Sane buffer scan)
    (moves : Moves buffer scan following) :
    turnsLeft buffer following < turnsLeft buffer scan := by
  have nextSane := moves_sane inside sane moves
  have bounded := jumps_bounded nextSane
  cases moves with
  | labelByte within fits =>
    simp only [turnsLeft, passByte, countByte]
    omega
  | label byte starts near stored plain positive short ends =>
    simp only [turnsLeft, startLabel, countByte]
    omega
  | pointer byte target starts near stored tagged allowed resolved ends fresh =>
    simp only [jump, length_append, length_singleton] at bounded
    simp only [turnsLeft, jump, length_append, length_singleton]
    obtain ⟨spare, spares⟩ : ∃ spare, buffer.length = scan.jumpedTo.length + 1 + spare :=
      ⟨buffer.length - (scan.jumpedTo.length + 1), by omega⟩
    have less : buffer.length - (scan.jumpedTo.length + 1) = spare := by omega
    have more : buffer.length - scan.jumpedTo.length = spare + 1 := by omega
    rw [less, more, Nat.succ_mul]
    omega

/-- With a turn for every move left, the loop ends in a value or an exception:
it never reads outside the buffer and never runs out of fuel. -/
theorem loop_settled {buffer : Buffer} {scan : Scan} (sane : Sane buffer scan)
    (enough : turnsLeft buffer scan < fuel) : Run.Settled (loop buffer fuel scan) := by
  induction fuel generalizing scan with
  | zero => omega
  | succ fuel ih =>
    simp only [loop]
    split
    · exact Run.settled_thrown _
    have inside : scan.position < buffer.length := by
      have bounded := sane.position
      omega
    have turn := body_spec inside
    cases turned : body buffer scan with
    | next following =>
      rw [turned] at turn
      cases turn with
      | moved _ moves =>
        have less := moves_decrease inside sane moves
        exact ih (moves_sane inside sane moves) (by omega)
    | leave result =>
      rw [turned] at turn
      cases turn with
      | refused what => exact Run.settled_thrown what
      | accepted final accepts => exact Run.settled_ok final

/-- The variables at the start of the loop. -/
theorem start_sane (buffer : Buffer) (startOffset : Nat) (inside : startOffset < buffer.length) :
    Sane buffer { position := startOffset } :=
  ⟨Nat.le_of_lt inside, by simp, by simp, by simp⟩

theorem start_turns (buffer : Buffer) (startOffset : Nat) :
    turnsLeft buffer { position := startOffset } < turns buffer := by
  simp only [turnsLeft, turns, length_nil, Nat.sub_zero, Nat.succ_mul]
  omega

/-- The bytes of the current label that are still to be read. -/
def ahead (scan : Scan) : Nat := if scan.inHeader then 0 else scan.labelBytes

theorem ahead_header (scan : Scan) (starts : scan.inHeader = true) : ahead scan = 0 := by
  simp [ahead, starts]

/-- What the loop has found when it accepts in `final`, seen from an earlier
turn: behind the rest of the current label stands a name, and the counters have
grown by what that name consists of. -/
structure Counted (buffer : Buffer) (final scan : Scan) (views : List View) (extent : Nat) :
    Prop where
  name : NameAt buffer scan.numPtrsInSequence (scan.position + ahead scan) views extent
  count : final.count = scan.count + (views.length + 1)
  size : final.size = dotted (scan.size + ahead scan) views + 1
  fits : final.size ≤ 255
  bytes : final.bytes =
    if scan.inPointer then scan.bytes else (scan.bytes + (ahead scan + extent)) % 65536

theorem accepts_counted (accepts : Accepts buffer scan final) : Counted buffer final scan [] 1 := by
  obtain ⟨starts, near, stored, fits, rfl⟩ := accepts
  have none := ahead_header scan starts
  exact {
    name := by rw [none]; exact .root _ scan.position near stored
    count := rfl
    size := by rw [none]; rfl
    fits := fits
    bytes := by rw [none]; rfl }

/-- Reading a label byte moves it from the part ahead to the part read. -/
theorem ahead_labelByte (within : scan.inHeader = false) (unread : 0 < scan.labelBytes) :
    ahead scan = 1 + ahead (passByte scan) := by
  simp only [ahead, passByte, within, Bool.false_eq_true, ↓reduceIte, beq_iff_eq]
  split <;> omega

/-- Every move keeps the account: what the following turn has found, together
with what the move itself consumed, is what this turn has found. -/
theorem moves_counted (sane : Sane buffer scan) (moves : Moves buffer scan following)
    (counted : Counted buffer final following views extent) :
    ∃ views extent, Counted buffer final scan views extent := by
  obtain ⟨name, count, size, fits, bytes⟩ := counted
  cases moves with
  | labelByte within fitsNow =>
    have split := ahead_labelByte within (sane.labelBytes within)
    refine ⟨views, extent, ?_, count, ?_, fits, ?_⟩
    · rw [split, ← Nat.add_assoc]
      exact name
    · rw [split, ← Nat.add_assoc]
      exact size
    · rw [bytes, split]
      cases closed : scan.inPointer with
      | true => simp [passByte, countByte, closed]
      | false => simp [passByte, countByte, closed, Nat.add_assoc]
  | label byte starts near stored plain positive short inside =>
    refine ⟨⟨scan.position + 1, byte.toNat⟩ :: views, 1 + byte.toNat + extent, ?_, ?_, ?_, fits, ?_⟩
    · rw [ahead_header scan starts]
      exact .label _ scan.position extent byte views near stored plain positive short inside name
    · simp only [count, startLabel, length_cons]
      omega
    · rw [ahead_header scan starts]
      exact size
    · rw [bytes, ahead_header scan starts]
      cases closed : scan.inPointer with
      | true => simp [startLabel, countByte, closed]
      | false => simp [startLabel, countByte, closed, ahead, Nat.add_assoc]
  | pointer byte target starts near stored tagged allowed resolved inside fresh =>
    rw [ahead_header (jump scan target) starts] at name size
    refine ⟨views, 2, ?_, count, ?_, fits, ?_⟩
    · rw [ahead_header scan starts]
      exact .pointer _ scan.position target extent byte views near stored tagged allowed resolved
        inside name
    · rw [ahead_header scan starts]
      exact size
    · rw [bytes, ahead_header scan starts]
      cases closed : scan.inPointer with
      | true => simp [jump, countByte, closed]
      | false => simp [jump, countByte, closed]

/-- An accepting loop has walked over a name and counted it. -/
theorem loop_counted {buffer : Buffer} {scan : Scan} (sane : Sane buffer scan)
    (accepted : loop buffer fuel scan = .ok final) :
    ∃ views extent, Counted buffer final scan views extent := by
  induction fuel generalizing scan with
  | zero => cases accepted
  | succ fuel ih =>
    simp only [loop] at accepted
    split at accepted
    · cases accepted
    have inside : scan.position < buffer.length := by
      have bounded := sane.position
      omega
    have turn := body_spec inside
    cases turned : body buffer scan with
    | next following =>
      rw [turned] at turn accepted
      cases turn with
      | moved _ moves =>
        have nextSane := moves_sane inside sane moves
        obtain ⟨views, extent, counted⟩ := ih nextSane accepted
        exact moves_counted sane moves counted
    | leave result =>
      rw [turned] at turn accepted
      subst accepted
      cases turn with
      | accepted _ accepts => exact ⟨[], 1, accepts_counted accepts⟩

/-- An accepted name, without the loop that accepted it. -/
structure Parsed (buffer : Buffer) (startOffset : Nat) (labels : Labels) (views : List View) :
    Prop where
  view : labels.view = buffer
  offset : labels.offset = startOffset
  name : NameAt buffer 0 startOffset views labels.bytes
  count : labels.count = views.length + 1
  size : labels.size = dotted 0 views + 1
  fits : labels.size ≤ 255

theorem near_of_name {row position : Nat} (name : NameAt buffer row position views extent) :
    position < 65535 := by
  cases name <;> assumption

/-- `Labels::parse` always ends, inside the buffer, and what it accepts is a
name whose labels, text and extent it has counted. The 16-bit counter of bytes
cannot wrap, as the text of an accepted name is bounded. -/
theorem parse_spec (buffer : Buffer) (startOffset : Nat) :
    (∃ what, parse buffer startOffset = .thrown what) ∨
      ∃ labels views, parse buffer startOffset = .ok labels ∧
        Parsed buffer startOffset labels views := by
  unfold parse
  by_cases outside : startOffset ≥ buffer.length
  · rw [if_pos outside]
    exact Or.inl ⟨_, rfl⟩
  rw [if_neg outside]
  have sane := start_sane buffer startOffset (by omega)
  have settled := loop_settled sane (start_turns buffer startOffset)
  cases ran : loop buffer (turns buffer) { position := startOffset } with
  | thrown what => exact Or.inl ⟨what, rfl⟩
  | aborted => rw [ran] at settled; exact settled.elim
  | outOfBounds => rw [ran] at settled; exact settled.elim
  | outOfFuel => rw [ran] at settled; exact settled.elim
  | ok final =>
    obtain ⟨views, extent, counted⟩ := loop_counted sane ran
    obtain ⟨name, count, size, fits, bytes⟩ := counted
    simp only [ahead, ↓reduceIte, Nat.add_zero, Nat.zero_add, Bool.false_eq_true] at *
    have bound := extent_bound 0 name
    have exact16 : extent % 65536 = extent := Nat.mod_eq_of_lt (by simp at bound; omega)
    have near := near_of_name name
    refine Or.inr ⟨_, views, rfl, rfl, ?_, ?_, count, size, fits⟩
    · exact Nat.mod_eq_of_lt (by omega)
    · simpa only [bytes, exact16] using name

/-- A name that is parsed. -/
theorem parse_accepted {buffer : Buffer} {startOffset : Nat} {labels : Labels}
    (accepted : parse buffer startOffset = .ok labels) :
    ∃ views, Parsed buffer startOffset labels views := by
  rcases parse_spec buffer startOffset with ⟨_, refused⟩ | ⟨name, views, same, parsed⟩
  · cases accepted.symm.trans refused
  · cases accepted.symm.trans same
    exact ⟨views, parsed⟩

end Nsblast.Labels
