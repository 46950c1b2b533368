import Nsblast.Wire.Labels

/-!
# The name a buffer holds at an offset

`NameAt` describes a name by its labels alone: a root byte, a label followed by
a name, or a pointer to a name. It records how many pointers in a row lead to
the current position and how many bytes the name occupies in place. Neither the
parser's loop variables nor the iterator occur in it.

An accepting parser establishes the relation and counts what it describes. The
relation alone is then enough for the iterator: it justifies every read, bounds
the pointers in a row and yields the same labels.
-/

namespace Nsblast.Labels

open Buffer

/-- The labels of the name at `position`, without the root, and the number of
bytes from there up to and including the root byte or the first pointer. -/
inductive NameAt (buffer : Buffer) : Nat → Nat → List View → Nat → Prop where
  | root (row position : Nat) (near : position < 65535)
      (stored : buffer[position]? = some 0) : NameAt buffer row position [] 1
  | label (row position extent : Nat) (byte : UInt8) (rest : List View)
      (near : position < 65535) (stored : buffer[position]? = some byte)
      (plain : isPointer byte = false) (positive : 0 < byte.toNat) (short : byte.toNat ≤ 63)
      (inside : position + byte.toNat < buffer.length)
      (tail : NameAt buffer 0 (position + 1 + byte.toNat) rest extent) :
      NameAt buffer row position (⟨position + 1, byte.toNat⟩ :: rest) (1 + byte.toNat + extent)
  | pointer (row position target extent : Nat) (byte : UInt8) (views : List View)
      (near : position < 65535) (stored : buffer[position]? = some byte)
      (tagged : isPointer byte = true) (allowed : row + 1 < maxPtrsInARow)
      (resolved : resolvePtr buffer position = .ok target) (inside : target < buffer.length)
      (tail : NameAt buffer (row + 1) target views extent) :
      NameAt buffer row position views 2

/-- The length of the text of a name whose first part has `size` characters:
a dot goes before every label but the first. -/
def dotted : Nat → List View → Nat
  | size, [] => size
  | size, view :: rest => dotted ((if size = 0 then 0 else size + 1) + view.length) rest

variable {buffer : Buffer} {extent position row : Nat} (views : List View) (size : Nat)

/-- The text only grows. -/
theorem dotted_ge : size ≤ dotted size views := by
  induction views generalizing size with
  | nil => exact Nat.le_refl size
  | cons view rest ih =>
    have grown := ih ((if size = 0 then 0 else size + 1) + view.length)
    simp only [dotted]
    split at grown <;> split <;> omega

/-- The labels that stand in place are labels of the name, so that the bytes
they occupy are bounded by the length of its text. -/
theorem extent_bound {views : List View} (name : NameAt buffer row position views extent) :
    extent + size ≤ dotted size views + (if size = 0 then 3 else 2) := by
  induction name generalizing size with
  | root row position near stored =>
    simp only [dotted]
    split <;> omega
  | label row position extent byte rest near stored plain positive short inside tail ih =>
    by_cases empty : size = 0
    · have bound := ih byte.toNat
      have named : byte.toNat ≠ 0 := by omega
      simp only [named, ↓reduceIte] at bound
      simp only [dotted, empty, ↓reduceIte, Nat.zero_add]
      omega
    · have bound := ih (size + 1 + byte.toNat)
      have named : size + 1 + byte.toNat ≠ 0 := by omega
      simp only [named, ↓reduceIte] at bound
      simp only [dotted, empty, ↓reduceIte]
      omega
  | pointer row position target extent byte views near stored tagged allowed resolved inside
      tail ih =>
    have grown := dotted_ge views size
    split <;> omega

/-- Every label of a name has 1 to 63 bytes, all of them in the buffer. -/
theorem views_bounded (buffer : Buffer) (views : List View)
    (name : NameAt buffer row position views extent) (view : View) (member : view ∈ views) :
    0 < view.length ∧ view.length ≤ 63 ∧ view.Inside buffer := by
  induction name with
  | root row position near stored => cases member
  | label row position extent byte rest near stored plain positive short inside tail ih =>
    rcases List.mem_cons.mp member with rfl | later
    · refine ⟨positive, short, ?_⟩
      simp only [View.Inside]
      omega
    · exact ih later
  | pointer row position target extent byte views near stored tagged allowed resolved inside
      tail ih => exact ih member

/-- Where a name ends in place, read off the buffer alone. -/
inductive EndsAt (buffer : Buffer) : Nat → Nat → Prop where
  | root (position : Nat) (stored : buffer[position]? = some 0) :
      EndsAt buffer position (position + 1)
  | pointer (position : Nat) (byte : UInt8) (stored : buffer[position]? = some byte)
      (tagged : isPointer byte = true) : EndsAt buffer position (position + 2)
  | label (position stop : Nat) (byte : UInt8) (stored : buffer[position]? = some byte)
      (positive : 0 < byte.toNat) (short : byte.toNat ≤ 63)
      (tail : EndsAt buffer (position + 1 + byte.toNat) stop) : EndsAt buffer position stop

theorem extent_ends {views : List View} (name : NameAt buffer row position views extent) :
    EndsAt buffer position (position + extent) := by
  induction name with
  | root row position near stored => exact .root position stored
  | label row position extent byte rest near stored plain positive short inside tail ih =>
    have stop : position + 1 + byte.toNat + extent = position + (1 + byte.toNat + extent) := by
      omega
    exact .label position _ byte stored positive short (stop ▸ ih)
  | pointer row position target extent byte views near stored tagged allowed resolved inside
      tail ih => exact .pointer position byte stored tagged

end Nsblast.Labels
