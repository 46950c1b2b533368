import Nsblast.Engine.QueryKeys

/-!
# The longest names

`Labels::parse` bounds the text of a name, counted with one more byte, `writeName` the bytes
the name takes. These are one more than the parser counts, unless the name is the root.
-/

namespace Nsblast.Labels

open List Run Buffer Wire.DnsEngine

/-- The bytes of a name that is written out. -/
def wireSize (views : List View) : Nat := (views.map (·.length + 1)).sum

/-- Letters, digits and dashes, with no dash in front. -/
def HostLabel (label : Text) : Prop := label.head? ≠ some 0x2D ∧ ∀ ch ∈ label, validByte ch = true

/-- The name takes 255 bytes at most, and can be written if it has only the characters of
host names. -/
def Writable (name : Labels) : Prop :=
  ∃ views names text, labels name name.count = .ok views ∧ labelTexts name = .ok names ∧
    string name name.count = .ok text ∧ wireSize views ≤ 255 ∧
    ((∀ label ∈ names, HostLabel label) → Name.Writable text)

variable {views : List View}

theorem dotted_eq_wireSize {size : Nat} (some : size ≠ 0) :
    dotted size views = size + wireSize views := by
  induction views generalizing size with
  | nil => rfl
  | cons view rest ih =>
    rw [dotted, if_neg some, ih (by omega), wireSize, wireSize, map_cons, sum_cons]
    omega

/-- The labels of a name can be read. -/
theorem texts_bounded {buffer : Buffer} {root : View} (empty : root.length = 0)
    (bounded : ∀ view ∈ views, 0 < view.length ∧ view.length ≤ 63 ∧ view.Inside buffer) :
    ∃ found, texts buffer (views ++ [root]) = .ok found ∧ ∀ label ∈ found, label.length ≤ 63 := by
  induction views with
  | nil => exact ⟨[], by simp [texts, empty], nofun⟩
  | cons view rest ih =>
    obtain ⟨⟨some, small, inside⟩, later⟩ := forall_mem_cons.mp bounded
    obtain ⟨found, isFound, short⟩ := ih later
    have isRead := readRange_inside buffer view.start view.length inside
    refine ⟨(buffer.drop view.start).take view.length :: found, ?_, ?_⟩
    · rw [cons_append, texts, isFound, bind_ok, if_neg (by omega), isRead, bind_ok]
    · refine forall_mem_cons.mpr ⟨?_, short⟩
      exact Nat.le_trans (length_take_le _ _) small

theorem checkBytes_valid {bytes : Text} (valid : ∀ ch ∈ bytes, validByte ch = true) (first : Bool)
    (noDash : first = true → bytes.head? ≠ some 0x2D) : checkBytes first bytes = .ok () := by
  induction bytes generalizing first with
  | nil => rfl
  | cons ch rest ih =>
    obtain ⟨here, later⟩ := forall_mem_cons.mp valid
    have last : ch ≠ 0xFF := by
      rintro rfl
      cases here
    have checked : checkByte first ch = .ok () := by
      cases first with
      | false => simp [checkByte, last, here, throwIf]
      | true => simp_all [checkByte, throwIf]
    rw [checkBytes, checked, bind_ok, ih later false (by simp)]

theorem writeSegments_host {names : List Text} (hosts : ∀ label ∈ names, HostLabel label)
    (sized : ∀ label ∈ names, label ≠ [] ∧ label.length ≤ 63) :
    writeSegments names = .ok ((names.map fun label => label.length + 1).sum + 1) := by
  induction names with
  | nil => rfl
  | cons label rest ih =>
    obtain ⟨⟨noDash, valid⟩, later⟩ := forall_mem_cons.mp hosts
    obtain ⟨⟨some, small⟩, laterSized⟩ := forall_mem_cons.mp sized
    rw [writeSegments, if_neg fun last => some last.1, writeSegment, assert_of some, bind_ok,
      checkBytes_valid valid true fun _ => noDash, bind_ok, assert_of (by omega), bind_ok,
      throwIf_of_not (by omega), bind_ok, ih later laterSized, bind_ok, map_cons, sum_cons,
      Nat.add_assoc _ (sum _)]

/-- The labels of a name are determined by the place of the name. -/
theorem NameAt.unique {buffer : Buffer} {position extent other : Nat} {others : List View}
    (first : NameAt buffer 0 position views extent) (second : NameAt buffer 0 position others other) :
    views = others := by
  obtain ⟨root, _, visited⟩ := visit_name first
  obtain ⟨_, _, visited'⟩ := visit_name second
  have same := (visited (views.length + others.length + 1) (by omega)).symm.trans
    (visited' _ (by omega))
  exact (append_inj' (ok.inj same) rfl).1

/-- A name that is parsed is within the limit exactly if its labels in the buffer, with dots
between them, are a text of at most 253 characters. -/
theorem parsed_name_writable_iff (buffer : Buffer) (startOffset : Nat) (name : Labels)
    (accepted : parse buffer startOffset = .ok name) : Writable name ↔
      ∃ views extent, NameAt buffer 0 startOffset views extent ∧ dotted 0 views ≤ 253 := by
  obtain ⟨views, view, offset, nameAt, count, size⟩ := parse_accepted accepted
  obtain ⟨root, empty, visited⟩ := visit_name nameAt
  have bounded := views_bounded buffer views nameAt
  obtain ⟨text, joined, length⟩ := join_length [] empty bounded
  rw [length_nil] at length
  obtain ⟨names, isTexts, small⟩ := texts_bounded empty bounded
  have filled : buffer ≠ [] := ne_nil_of_length_pos (Nat.zero_lt_of_lt (name_starts_inside nameAt))
  have iterated : labels name name.count = .ok (views ++ [root]) := by
    rw [labels, view, if_neg filled, offset]
    exact visited name.count (by omega)
  have isString : string name name.count = .ok text := by
    rw [string, iterated, bind_ok, view, joined]
  have read : labelTexts name = .ok names := by
    rw [labelTexts, iterated, bind_ok, view, isTexts]
  have wire : wireSize (views ++ [root]) = if views = [] then 1 else name.size + 1 := by
    rw [wireSize, map_append, sum_append, size]
    cases views with
    | nil => simp [empty]
    | cons first rest =>
      have some := (bounded first mem_cons_self).1
      rw [dotted, dotted_eq_wireSize (by omega), wireSize, if_neg (cons_ne_nil _ _)]
      simp [empty]
      omega
  constructor
  · rintro ⟨_, _, _, isViews, _, _, small, _⟩
    cases iterated.symm.trans isViews
    refine ⟨views, _, nameAt, ?_⟩
    rw [wire] at small
    split at small
    · rename_i none
      rw [none, dotted]
      omega
    · omega
  · rintro ⟨_, _, other, fits⟩
    cases nameAt.unique other
    refine ⟨_, names, text, iterated, read, isString, ?_, ?_⟩
    · rw [wire]
      split <;> omega
    · intro hosts
      obtain ⟨named, spelled⟩ := join_texts [] isTexts
      rw [joined, if_pos rfl] at spelled
      obtain rfl := ok.inj spelled
      have plain : parts names = names := by
        refine parts_of_plain fun label member dot => ?_
        cases (hosts label member).2 _ dot
      rw [parts_eq named] at plain
      by_cases none : [0x2E].intercalate names = []
      · rw [none]
        rfl
      · have written := writeSegments_host hosts fun label member =>
          ⟨named label member, small label member⟩
        rw [if_neg none] at plain
        rw [← plain, splitOn_length] at written
        rw [Name.Writable, writeName, throwIf_of_not (by omega), bind_ok, written, if_neg none]

/-- The name `a.b`, with a pointer to `b`. -/
theorem pointed_name_writable :
    ∃ name, parse [1, 0x62, 0, 1, 0x61, 0xC0, 0] 3 = .ok name ∧ Writable name := by
  refine ⟨_, rfl, (parsed_name_writable_iff [1, 0x62, 0, 1, 0x61, 0xC0, 0] 3 _ rfl).mpr
    ⟨[⟨4, 1⟩, ⟨1, 1⟩], 4, ?_, by decide⟩⟩
  refine .label 0 3 2 1 _ (by decide) rfl rfl (by decide) (by decide) (by decide) ?_
  refine .pointer 0 5 0 3 0xC0 _ (by decide) rfl rfl (by decide) rfl (by decide) ?_
  exact .label 1 0 1 1 _ (by decide) rfl rfl (by decide) (by decide) (by decide)
    (.root 0 2 (by decide) rfl)

/-- Labels of 63, 63, 63 and 62 letters. -/
def longestName : Buffer :=
  (replicate 3 (63 :: replicate 63 0x61)).flatten ++ 62 :: replicate 62 0x61 ++ [0]

/-- They are parsed, take 256 bytes and cannot be written. -/
theorem longest_name_refused :
    (do
      let name ← parse longestName 0
      let views ← labels name name.count
      let text ← string name name.count
      .ok (wireSize views, text.filter (· != 0x61), (writeName text).isOk)) =
    .ok (256, [0x2E, 0x2E, 0x2E], false) := by
  decide +kernel

end Nsblast.Labels
