import Nsblast.Wire.LabelsParse

/-!
# Iterating an accepted name

`Labels::Iterator` checks almost nothing itself. Each of its reads, the limit on
pointers in a row and both assertions are justified by the name the parser has
accepted: the parser refuses the sixteenth pointer in a row, the iterator the
seventeenth.
-/

namespace Nsblast.Labels

open Buffer List

/-- Where the iterator stops following pointers: on the root, or on a label with
a name behind it. -/
inductive Lands (buffer : Buffer) : Nat → List View → Prop where
  | root (location : Nat) (stored : buffer[location]? = some 0) : Lands buffer location []
  | label (location extent : Nat) (byte : UInt8) (rest : List View)
      (stored : buffer[location]? = some byte) (positive : 0 < byte.toNat)
      (tail : NameAt buffer 0 (location + 1 + byte.toNat) rest extent) :
      Lands buffer location (⟨location + 1, byte.toNat⟩ :: rest)

variable {buffer : Buffer}

variable {extent location position : Nat} {byte : UInt8} {views : List View} (remaining : Nat)

theorem followPointers_plain (stored : buffer[location]? = some byte)
    (plain : isPointer byte = false) :
    followPointers buffer remaining location = .ok location := by
  have byteRead := (read_eq_ok buffer location byte).mpr stored
  cases remaining <;> simp [followPointers, byteRead, plain]

theorem followPointers_tagged {target : Nat} (stored : buffer[location]? = some byte)
    (tagged : isPointer byte = true) (resolved : resolvePtr buffer location = .ok target)
    (inside : target < buffer.length) :
    followPointers buffer (remaining + 1) location = followPointers buffer remaining target := by
  have byteRead := (read_eq_ok buffer location byte).mpr stored
  simp [followPointers, byteRead, tagged, resolved, Run.assert, inside]

/-- The iterator follows the pointers of a name to its first label or its root. -/
theorem followPointers_lands (buffer : Buffer) (row position extent remaining : Nat)
    (views : List View) (name : NameAt buffer row position views extent)
    (enough : maxPtrsInARow ≤ remaining + row) :
    ∃ location, followPointers buffer remaining position = .ok location ∧
      Lands buffer location views := by
  induction name generalizing remaining with
  | root row position near stored =>
    exact ⟨position, followPointers_plain remaining stored rfl, .root position stored⟩
  | label row position extent byte rest near stored plain positive short inside tail ih =>
    exact ⟨position, followPointers_plain remaining stored plain,
      .label position extent byte rest stored positive tail⟩
  | pointer row position target extent byte views near stored tagged allowed resolved inside
      tail ih =>
    obtain ⟨fewer, rfl⟩ : ∃ fewer, remaining = fewer + 1 := ⟨remaining - 1, by omega⟩
    rw [followPointers_tagged fewer stored tagged resolved inside]
    exact ih fewer (by omega)

/-- A name starts at a byte of the buffer. -/
theorem name_starts_inside {row : Nat} (name : NameAt buffer row position views extent) :
    position < buffer.length := by
  have stored : ∃ byte, buffer[position]? = some byte := by
    cases name <;> exact ⟨_, by assumption⟩
  obtain ⟨byte, stored⟩ := stored
  exact (List.getElem?_eq_some_iff.mp stored).1

/-- The iterator visits the labels of a name in order and then the root, with a
turn for each of them. -/
theorem visit_name {buffer : Buffer} (name : NameAt buffer 0 position views extent) :
    ∃ root : View, root.length = 0 ∧
      ∀ fuel, views.length + 1 ≤ fuel → visit buffer fuel position = .ok (views ++ [root]) := by
  induction views generalizing position extent with
  | nil =>
    obtain ⟨location, followed, lands⟩ :=
      followPointers_lands buffer 0 position extent maxPtrsInARow [] name (by omega)
    refine ⟨⟨location + 1, 0⟩, rfl, ?_⟩
    rintro (_ | fuel) enough
    · omega
    cases lands with
    | root stored =>
      have byteRead := (read_eq_ok buffer location 0).mpr stored
      simp [visit, followed, update, byteRead, Run.assert]
  | cons view rest ih =>
    obtain ⟨location, followed, lands⟩ :=
      followPointers_lands buffer 0 position extent maxPtrsInARow (view :: rest) name (by omega)
    cases lands with
    | label extent byte _ stored positive tail =>
      obtain ⟨root, empty, visited⟩ := ih tail
      refine ⟨root, empty, ?_⟩
      rintro (_ | fuel) enough
      · omega
      have byteRead := (read_eq_ok buffer location byte).mpr stored
      have bounded := name_starts_inside tail
      have near := near_of_name tail
      have step : (location + (byte.toNat + 1)) % 65536 = location + 1 + byte.toNat := by omega
      have rested := visited fuel (by simpa using enough)
      have named : byte.toNat ≠ 0 := by omega
      simp [visit, followed, update, byteRead, Run.assert, bounded, named, step, rested]

/-- Joining labels that lie in the buffer reads only there, and the text has the
length the parser counted. -/
theorem join_length {root : View} (text : List UInt8) (empty : root.length = 0)
    (bounded : ∀ view ∈ views, 0 < view.length ∧ view.length ≤ 63 ∧ view.Inside buffer) :
    ∃ joined, join buffer (views ++ [root]) text = .ok joined ∧
      joined.length = dotted text.length views := by
  induction views generalizing text with
  | nil => exact ⟨text, by simp [join, empty], rfl⟩
  | cons view rest ih =>
    obtain ⟨positive, _, inside⟩ := bounded view mem_cons_self
    have named : view.length ≠ 0 := by omega
    have bytes := readRange_inside buffer view.start view.length inside
    obtain ⟨joined, accepted, counted⟩ :=
      ih (text ++ (if text = [] then [] else [0x2E]) ++ (buffer.drop view.start).take view.length)
        (fun later member => bounded later (mem_cons_of_mem view member))
    refine ⟨joined, ?_, ?_⟩
    · simpa [join, named, bytes] using accepted
    · rw [counted]
      have taken : ((buffer.drop view.start).take view.length).length = view.length := by
        simp only [View.Inside] at inside
        simp only [length_take, length_drop]
        omega
      cases text with
      | nil => simp only [↓reduceIte, append_nil, nil_append, taken, dotted,
          length_nil, Nat.zero_add]
      | cons first others =>
        have grown : (first :: others).length ≠ 0 := Nat.succ_ne_zero _
        simp only [reduceCtorEq, ↓reduceIte, length_append, taken, dotted, grown, length_singleton]

/-- The parser is total and its result agrees with iteration. Whatever the bytes
are, it ends in an exception or in a name. The iterator then visits exactly
`count` labels of which only the last is empty, the text has `size - 1`
characters, and `bytes` leads from the start offset behind the root byte or
behind the first pointer. No outcome is a stray read, a failed assertion or a
walk without an end. -/
theorem parse_agrees_with_iteration (buffer : Buffer) (startOffset : Nat) :
    (∃ what, parse buffer startOffset = .thrown what) ∨
      ∃ name views root text,
        parse buffer startOffset = .ok name ∧
        (∀ fuel, name.count ≤ fuel → labels name fuel = .ok (views ++ [root])) ∧
        (views ++ [root]).length = name.count ∧
        root.length = 0 ∧
        (∀ view ∈ views, 1 ≤ view.length ∧ view.length ≤ 63 ∧ view.Inside buffer) ∧
        (∀ fuel, name.count ≤ fuel → string name fuel = .ok text) ∧
        text.length + 1 = name.size ∧
        EndsAt buffer startOffset (startOffset + name.bytes) := by
  rcases parse_spec buffer startOffset with refused | ⟨name, views, accepted, parsed⟩
  · exact Or.inl refused
  obtain ⟨view, offset, nameAt, count, size⟩ := parsed
  obtain ⟨root, empty, visited⟩ := visit_name nameAt
  have bounded := views_bounded buffer views nameAt
  obtain ⟨text, joined, length⟩ := join_length [] empty bounded
  have filled : buffer ≠ [] := by
    have inside := name_starts_inside nameAt
    rintro rfl
    exact absurd inside (Nat.not_lt_zero startOffset)
  have iterated : ∀ fuel, name.count ≤ fuel → labels name fuel = .ok (views ++ [root]) := by
    intro fuel enough
    rw [labels, view, if_neg filled, offset]
    exact visited fuel (by omega)
  refine Or.inr ⟨name, views, root, text, accepted, iterated, ?_, empty, bounded, ?_, ?_, ?_⟩
  · rw [count, length_append, length_singleton]
  · intro fuel enough
    simp only [string, iterated fuel enough, Run.bind_ok, view]
    exact joined
  · rw [length, size, length_nil]
  · exact extent_ends nameAt

end Nsblast.Labels
