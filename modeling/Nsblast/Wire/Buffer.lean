import Nsblast.Library.BigEndian
import Nsblast.Library.Outcome

/-!
# Byte buffers and big-endian values

`boost::span<const char>` over the bytes of a message or a stored entry. A read
is checked here and nowhere in the program: reading at an index the span does
not have is reported as the separate outcome `outOfBounds`. A sub-view is only a
pair of numbers, as `subspan` checks nothing; the bytes are looked at when the
view is read.
-/

namespace Nsblast

open List Run

abbrev Buffer := List UInt8

namespace Buffer

/-- Reading one byte. -/
def read (buffer : Buffer) (index : Nat) : Run UInt8 :=
  match buffer[index]? with
  | some byte => .ok byte
  | none => .outOfBounds

variable (buffer : Buffer) (index start : Nat) (view : View) (length location : Nat)

theorem read_inside (inside : index < buffer.length) :
    ∃ byte, read buffer index = .ok byte ∧ buffer[index]? = some byte := by
  refine ⟨buffer[index], ?_, getElem?_eq_getElem inside⟩
  simp [read, getElem?_eq_getElem inside]

theorem read_eq_ok (byte : UInt8) :
    read buffer index = .ok byte ↔ buffer[index]? = some byte := by
  unfold read
  cases buffer[index]? with
  | none => simp
  | some found => simp

theorem read_outside (outside : buffer.length ≤ index) :
    read buffer index = .outOfBounds := by
  simp [read, getElem?_eq_none outside]

/-- Reading `length` consecutive bytes from `start`. -/
def readRange (buffer : Buffer) (start : Nat) : Nat → Run (List UInt8)
  | 0 => .ok []
  | length + 1 => do
      let byte ← read buffer start
      let rest ← readRange buffer (start + 1) length
      pure (byte :: rest)

/-- A range inside the buffer is read without a stray access and yields exactly
the bytes stored there. -/
theorem readRange_inside (inside : start + length ≤ buffer.length) :
    readRange buffer start length = .ok ((buffer.drop start).take length) := by
  induction length generalizing start with
  | zero => simp [readRange]
  | succ length ih =>
    have first : start < buffer.length := by omega
    have rest := ih (start + 1) (by omega)
    simp only [readRange, read, getElem?_eq_getElem first, bind_ok, rest, pure_eq]
    rw [drop_eq_getElem_cons first, take_succ_cons]

/-- A range that reaches behind the buffer cannot be read. -/
theorem readRange_outside (outside : buffer.length < start + length) (positive : 0 < length) :
    readRange buffer start length = .outOfBounds := by
  induction length generalizing start with
  | zero => omega
  | succ length ih =>
    by_cases first : start < buffer.length
    · have rest := ih (start + 1) (by omega) (by omega)
      simp [readRange, read, getElem?_eq_getElem first, rest]
    · simp [readRange, read_outside buffer start (by omega)]

/-- A view of a part of a buffer. -/
structure View where
  start : Nat
  length : Nat
  deriving DecidableEq, Repr

/-- The viewed range lies inside the buffer. -/
def View.Inside (buffer : Buffer) (view : View) : Prop :=
  view.start + view.length ≤ buffer.length

/-- `getValueAt` over a view: the location is checked against the size of the
view, the bytes are then read from the underlying buffer. -/
def getValueAt (buffer : Buffer) (view : View) (bytes location : Nat) : Run (List UInt8) := do
  throwIf (location + (bytes - 1) ≥ view.length)
    "getValueAt: Cannot get value outside range of buffer!"
  readRange buffer (view.start + location) bytes

/-- A location inside the view is passed on to the buffer, whether or not the
view lies inside it. -/
theorem getValueAt_accepted {view : View} {bytes location : Nat} (positive : 0 < bytes)
    (fits : location + bytes ≤ view.length) :
    getValueAt buffer view bytes location = readRange buffer (view.start + location) bytes := by
  have accepted : ¬ location + (bytes - 1) ≥ view.length := by omega
  simp [getValueAt, throwIf, accepted]

/-- The whole buffer as a view, as `get16bValueAt(span_, loc)` uses it. -/
def whole (buffer : Buffer) : View := ⟨0, buffer.length⟩

/-- Two bytes in network order. -/
def get16bValueAt (buffer : Buffer) (view : View) (location : Nat) : Run Nat := do
  let bytes ← getValueAt buffer view 2 location
  pure (readBigEndian bytes)

/-- Four bytes in network order. -/
def get32bValueAt (buffer : Buffer) (view : View) (location : Nat) : Run Nat := do
  let bytes ← getValueAt buffer view 4 location
  pure (readBigEndian bytes)

/-- Bytes of the view that are bytes of the buffer are read. -/
theorem getValueAt_inside {bytes : Nat} (positive : 0 < bytes) (fits : location + bytes ≤ view.length)
    (inside : view.start + location + bytes ≤ buffer.length) :
    ∃ value, getValueAt buffer view bytes location = .ok value ∧ value.length = bytes := by
  refine ⟨_, (getValueAt_accepted buffer positive fits).trans (readRange_inside _ _ _ inside), ?_⟩
  rw [length_take, length_drop]
  omega

theorem get16bValueAt_inside (fits : location + 2 ≤ view.length)
    (inside : view.start + location + 2 ≤ buffer.length) :
    ∃ value, get16bValueAt buffer view location = .ok value ∧ value < 65536 := by
  obtain ⟨bytes, isRead, two⟩ := getValueAt_inside buffer view location (by omega) fits inside
  have bound := readBigEndian_lt bytes
  rw [two] at bound
  exact ⟨_, by rw [get16bValueAt, isRead]; rfl, bound⟩

theorem get32bValueAt_inside (fits : location + 4 ≤ view.length)
    (inside : view.start + location + 4 ≤ buffer.length) :
    ∃ value, get32bValueAt buffer view location = .ok value := by
  obtain ⟨bytes, isRead, _⟩ := getValueAt_inside buffer view location (by omega) fits inside
  exact ⟨_, by rw [get32bValueAt, isRead]; rfl⟩

/-- Two bytes of the view that the buffer does not have are a stray read. -/
theorem get16bValueAt_outside (fits : location + 2 ≤ view.length)
    (outside : buffer.length < view.start + location + 2) :
    get16bValueAt buffer view location = .outOfBounds := by
  simp [get16bValueAt, getValueAt_accepted buffer (by omega) fits,
    readRange_outside buffer (view.start + location) 2 outside (by omega)]

end Buffer

end Nsblast
