import Nsblast.Wire.MessageBounds

/-!
# The fields of a SOA in a message

`RrSoa` finds its five numbers from the end of the data, whose length the sender of the
message chooses. The offset is an unsigned difference, and `getValueAt` compares the place
of the last byte with the length. If one to three bytes are missing, the difference wraps
and the sum wraps back: the check passes, and the value begins in front of the data.

The assertions on the length are not compiled in. `Rr::parse` accepts data of any length.
-/

namespace Nsblast.RrSoa

open Run Buffer

/-- The range of `rdata()`. -/
def rdata (rr : Rr) : View :=
  if rr.isQuery then ⟨0, 0⟩
  else
    let startOfRdata := rr.offsetToType + 10
    ⟨rr.selfView.start + startOfRdata, rr.selfView.length - startOfRdata⟩

/-- The accessors. -/
inductive Field where
  | serial
  | refresh
  | retry
  | expire
  | minimum

/-- How far before the end of the data a field begins. -/
def Field.back : Field → Nat
  | serial => 20
  | refresh => 16
  | retry => 12
  | expire => 8
  | minimum => 4

/-- Where `getValueAt` reads the field. Offsets and addresses have 64 bits. -/
def Field.place (field : Field) (rdata : View) : Run Nat := do
  let location := (rdata.length + 2 ^ 64 - field.back) % 2 ^ 64
  throwIf ((location + 3) % 2 ^ 64 ≥ rdata.length)
    "getValueAt: Cannot get value outside range of buffer!"
  .ok ((rdata.start + location) % 2 ^ 64)

/-- The bytes of the number that an accessor returns, in network order. -/
def Field.read (field : Field) (buffer : Buffer) (rr : Rr) : Run (List UInt8) := do
  let place ← field.place (rdata rr)
  readRange buffer place 4

/-- The accessor throws, or returns four bytes of the data. -/
def ReadsInside (buffer : Buffer) (rr : Rr) (field : Field) : Prop :=
  (∃ what, field.read buffer rr = .thrown what) ∨
    ∃ place bytes, field.place (rdata rr) = .ok place ∧ (rdata rr).start ≤ place ∧
      place + 4 ≤ (rdata rr).start + (rdata rr).length ∧ field.read buffer rr = .ok bytes

variable {buffer : Buffer} {rr : Rr}

/-- A record that is parsed lies inside the message. -/
theorem parse_whole {offset : Nat} (inMemory : buffer.length < 2 ^ 64)
    (parsed : Rr.parse buffer offset false = .ok rr) : rr.Whole buffer := by
  simp only [Rr.parse, Rr.parseRecord, Rr.recordView, bind_eq_ok, if_neg Bool.false_ne_true] at parsed
  obtain ⟨_, _, length, _, _, room, rdlen, _, _, fits, _, _, same⟩ := parsed
  cases same
  rw [throwIf] at room fits
  split at room
  · cases room
  split at fits
  · cases fits
  rename_i inside short
  simp only [decide_eq_true_eq, not_lt] at inside short
  rw [Rr.maxWindowSize_inside offset (by omega) inMemory] at short
  refine ⟨?_, .inr (by dsimp only; omega)⟩
  simp only [View.Inside]
  omega

/-- The data lie inside the message, behind the fixed fields of the record. -/
theorem rdata_inside (whole : rr.Whole buffer) :
    (rdata rr).length = 0 ∨
      10 ≤ (rdata rr).start ∧ (rdata rr).start + (rdata rr).length ≤ buffer.length := by
  have inside := whole.inside
  rw [rdata]
  split
  · exact .inl rfl
  · simp only [View.Inside] at inside ⊢
    omega

theorem readsInside_iff (inMemory : buffer.length < 2 ^ 64) (whole : rr.Whole buffer)
    (field : Field) :
    ReadsInside buffer rr field ↔
      (rdata rr).length + 3 < field.back ∨ field.back ≤ (rdata rr).length := by
  have range : 4 ≤ field.back ∧ field.back ≤ 20 := by cases field <;> decide
  have inside := rdata_inside whole
  rw [ReadsInside, Field.read, Field.place]
  generalize rdata rr = data at *
  rcases Nat.lt_or_ge (data.length + 3) field.back with short | long
  · -- the last byte of the field is in front of the data as well
    have refused : (((data.length + 2 ^ 64 - field.back) % 2 ^ 64 + 3) % 2 ^ 64 ≥ data.length) := by
      omega
    rw [throwIf_of refused, bind_thrown]
    exact ⟨fun _ => .inl short, fun _ => .inl ⟨_, rfl⟩⟩
  · have passed : ¬ ((data.length + 2 ^ 64 - field.back) % 2 ^ 64 + 3) % 2 ^ 64 ≥ data.length := by
      omega
    have isPlace : (data.start + (data.length + 2 ^ 64 - field.back) % 2 ^ 64) % 2 ^ 64 =
        data.start + data.length - field.back := by omega
    rw [throwIf_of_not passed, bind_ok, isPlace, bind_ok, readRange_inside _ _ _ (by omega)]
    constructor
    · rintro (⟨_, thrown⟩ | ⟨place, _, same, behind, _⟩)
      · cases thrown
      · cases same
        omega
    · intro fits
      exact .inr ⟨_, _, rfl, by omega, by omega, rfl⟩

/-- All five accessors of a record stay inside its data exactly if the data are long enough
for the five numbers, or hold a whole number of words. -/
theorem soa_fields_inside_iff {buffer : Buffer} {offset : Nat} {rr : Rr}
    (inMemory : buffer.length < 2 ^ 64) (parsed : Rr.parse buffer offset false = .ok rr) :
    (∀ field, ReadsInside buffer rr field) ↔
      20 ≤ (rdata rr).length ∨ (rdata rr).length % 4 = 0 := by
  simp only [readsInside_iff inMemory (parse_whole inMemory parsed)]
  constructor
  · intro all
    have serial := all .serial
    have refresh := all .refresh
    have retry := all .retry
    have expire := all .expire
    have minimum := all .minimum
    simp only [Field.back] at serial refresh retry expire minimum
    omega
  · intro words field
    cases field <;> simp only [Field.back] <;> omega

/-- A message with a SOA of the root as its only answer, with two bytes of data. -/
def shortSoa : Buffer :=
  [0, 0, 0x80, 0, 0, 0, 0, 1, 0, 0, 0, 0, 0, 0, 6, 0, 1, 0, 0, 0, 0, 0, 2, 0xAA, 0xBB]

theorem shortSoa_minimum : (Message.createIndex shortSoa).isOk = true ∧
    Rr.parse shortSoa 12 false = .ok ⟨12, 1, ⟨12, 13⟩⟩ ∧
      Field.minimum.read shortSoa ⟨12, 1, ⟨12, 13⟩⟩ = .ok [0, 2, 0xAA, 0xBB] ∧
        ¬ ReadsInside shortSoa ⟨12, 1, ⟨12, 13⟩⟩ .minimum := by
  have parsed : Rr.parse shortSoa 12 false = .ok ⟨12, 1, ⟨12, 13⟩⟩ := by decide
  refine ⟨by decide, parsed, by decide, ?_⟩
  rw [readsInside_iff (by decide) (parse_whole (by decide) parsed)]
  decide

/-- A message with a SOA of the name `a` as its only answer, with two names and five numbers. -/
def wholeSoa : Buffer :=
  [0, 0, 0x80, 0, 0, 0, 0, 1, 0, 0, 0, 0, 1, 0x61, 0, 0, 6, 0, 1, 0, 0, 0, 60, 0, 25,
    1, 0x6E, 0xC0, 12, 0, 0, 0, 0, 9, 0, 0, 0, 1, 0, 0, 0, 2, 0, 0, 0, 3, 0, 0, 0, 4]

theorem wholeSoa_fields_inside : Rr.parse wholeSoa 12 false = .ok ⟨12, 3, ⟨12, 38⟩⟩ ∧
    ∀ field, ReadsInside wholeSoa ⟨12, 3, ⟨12, 38⟩⟩ field := by
  have parsed : Rr.parse wholeSoa 12 false = .ok ⟨12, 3, ⟨12, 38⟩⟩ := by decide
  exact ⟨parsed, (soa_fields_inside_iff (by decide) parsed).mpr (.inl (by decide))⟩

end Nsblast.RrSoa
