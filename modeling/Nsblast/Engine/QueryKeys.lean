import Nsblast.Engine.ProcessRequest

/-!
# The keys of query names

`labelsToFqdnKey` turns the labels of a name into one text, with dots between them and in
lower case. A label may hold any bytes, a dot as well. Two names have the same key exactly
if their labels are the same, apart from upper and lower case, once each label is cut at its
dots. Names without a dot inside a label are told apart.
-/

namespace Nsblast.Wire.DnsEngine

open Buffer List Labels Name Run

/-- The labels of a name as texts, without the root. -/
def texts (buffer : Buffer) : List View → Run (List Text)
  | [] => .ok []
  | view :: rest => do
      let later ← texts buffer rest
      if view.length = 0 then .ok later
      else do
        let label ← readRange buffer view.start view.length
        .ok (label :: later)

def labelTexts (name : Labels) : Run (List Text) := do
  let visited ← labels name name.count
  texts name.view visited

def lower (names : List Text) : List Text := names.map toLower

/-- The labels, cut at their dots. -/
def parts (names : List Text) : List Text := names.flatMap (splitOn 0x2E)

variable {buffer : Buffer} {found : List Text} (names : List Text)

theorem readRange_ne_nil {start length : Nat} {bytes : List UInt8} (positive : length ≠ 0)
    (isRead : readRange buffer start length = .ok bytes) : bytes ≠ [] := by
  rcases Nat.lt_or_ge buffer.length (start + length) with outside | inside
  · rw [readRange_outside _ _ _ outside (by omega)] at isRead
    cases isRead
  · rw [readRange_inside _ _ _ inside] at isRead
    cases isRead
    simp only [ne_eq, take_eq_nil_iff, drop_eq_nil_iff]
    omega

/-- The text that `string` makes of the labels. -/
theorem join_texts {views : List View} (text : Text) (isTexts : texts buffer views = .ok found) :
    (∀ label ∈ found, label ≠ []) ∧
      join buffer views text =
        .ok ([0x2E].intercalate (if text = [] then found else text :: found)) := by
  induction views generalizing text found with
  | nil =>
    cases isTexts
    refine ⟨nofun, ?_⟩
    by_cases empty : text = []
    · simp [join, empty]
    · simp [join, empty]
  | cons view rest ih =>
    rw [texts, bind_eq_ok] at isTexts
    obtain ⟨later, isLater, isTexts⟩ := isTexts
    split at isTexts
    · rename_i root
      cases isTexts
      rw [join, if_pos root]
      exact ih text isLater
    · rename_i named
      rw [bind_eq_ok] at isTexts
      obtain ⟨label, isRead, same⟩ := isTexts
      cases same
      have filled := readRange_ne_nil named isRead
      refine ⟨forall_mem_cons.mpr ⟨filled, (ih [] isLater).1⟩, ?_⟩
      rw [join, if_neg named, isRead, bind_ok, (ih _ isLater).2, if_neg (by simp [filled])]
      by_cases empty : text = []
      · simp [empty]
      · cases later <;> simp [empty]

theorem toLower_intercalate :
    toLower ([0x2E].intercalate names) = [0x2E].intercalate (lower names) := by
  induction names with
  | nil => rfl
  | cons first rest ih =>
    cases rest with
    | nil => simp [lower]
    | cons second rest =>
      rw [lower, map_cons, map_cons, intercalate_cons_cons, intercalate_cons_cons, toLower,
        map_append, map_append]
      exact congrArg (map lowerByte first ++ [0x2E] ++ ·) ih

theorem splitOn_intercalate_eq (first : Text) (rest : List Text) :
    ([0x2E].intercalate (first :: rest)).splitOn 0x2E = parts (first :: rest) := by
  induction rest generalizing first with
  | nil => simp [parts]
  | cons second rest ih =>
    rw [intercalate_cons_cons, append_assoc, singleton_append, splitOn,
      splitOnP_append_cons first _ (by decide)]
    exact congrArg _ (ih second)

theorem parts_eq {names : List Text} (filled : ∀ label ∈ names, label ≠ []) :
    parts names = if [0x2E].intercalate names = [] then []
      else ([0x2E].intercalate names).splitOn 0x2E := by
  match names with
  | [] => rfl
  | [label] => simp [parts, filled label mem_cons_self]
  | label :: other :: rest =>
    rw [if_neg (by simp [intercalate_cons_cons]), splitOn_intercalate_eq]

theorem intercalate_parts :
    [0x2E].intercalate (parts names) = [0x2E].intercalate names := by
  cases names with
  | nil => rfl
  | cons label rest => rw [← splitOn_intercalate_eq, intercalate_splitOn]

/-- Labels that have no dots are not cut. -/
theorem parts_of_plain {names : List Text} (plain : ∀ label ∈ names, 0x2E ∉ label) :
    parts names = names := by
  induction names with
  | nil => rfl
  | cons label rest ih =>
    obtain ⟨plainLabel, plainRest⟩ := forall_mem_cons.mp plain
    have whole : label.splitOn 0x2E = [label] := by
      refine splitOnP_eq_singleton ?_
      intro byte member
      exact beq_eq_false_iff_ne.mpr fun dot => plainLabel (dot ▸ member)
    rw [parts, flatMap_cons, whole]
    exact congrArg _ (ih plainRest)

theorem labelsToFqdnKey_eq {name : Labels} (isTexts : labelTexts name = .ok found) :
    labelsToFqdnKey name = .ok ([0x2E].intercalate (lower found)) ∧
      ∀ label ∈ lower found, label ≠ [] := by
  rw [labelTexts, bind_eq_ok] at isTexts
  obtain ⟨visited, isVisited, isTexts⟩ := isTexts
  obtain ⟨filled, joined⟩ := join_texts [] isTexts
  constructor
  · rw [labelsToFqdnKey, string, isVisited, bind_ok, joined, bind_ok, if_pos rfl,
      toLower_intercalate]
  · simpa [lower, toLower] using filled

/-- The keys of two names. They differ for different names exactly if the labels are still
different when they are cut at their dots; so they do if no label has a dot. -/
theorem query_keys_differ_iff {first second : Labels} {firstTexts secondTexts : List Text}
    (isFirst : labelTexts first = .ok firstTexts) (isSecond : labelTexts second = .ok secondTexts) :
    ((lower firstTexts ≠ lower secondTexts → labelsToFqdnKey first ≠ labelsToFqdnKey second) ↔
        (lower firstTexts ≠ lower secondTexts →
          parts (lower firstTexts) ≠ parts (lower secondTexts))) ∧
      ((∀ label ∈ firstTexts ++ secondTexts, 0x2E ∉ label) →
        lower firstTexts ≠ lower secondTexts →
          labelsToFqdnKey first ≠ labelsToFqdnKey second) := by
  obtain ⟨firstKey, firstFilled⟩ := labelsToFqdnKey_eq isFirst
  obtain ⟨secondKey, secondFilled⟩ := labelsToFqdnKey_eq isSecond
  have keys : labelsToFqdnKey first = labelsToFqdnKey second ↔
      parts (lower firstTexts) = parts (lower secondTexts) := by
    rw [firstKey, secondKey, ok.injEq]
    constructor
    · intro same
      rw [parts_eq firstFilled, parts_eq secondFilled, same]
    · intro same
      rw [← intercalate_parts, same, intercalate_parts]
  rw [ne_eq (labelsToFqdnKey first), keys]
  refine ⟨Iff.rfl, ?_⟩
  intro plain differ same
  have lowerPlain : ∀ label ∈ lower firstTexts ++ lower secondTexts, 0x2E ∉ label := by
    rw [lower, lower, ← map_append]
    intro label member dot
    obtain ⟨text, isText, rfl⟩ := mem_map.mp member
    obtain ⟨byte, isByte, isDot⟩ := mem_map.mp dot
    exact plain text isText (lowerByte_eq_dot isDot ▸ isByte)
  obtain ⟨firstPlain, secondPlain⟩ := forall_mem_append.mp lowerPlain
  rw [parts_of_plain firstPlain, parts_of_plain secondPlain] at same
  exact differ same

/-- `a.b` as one label and as two. -/
def oneLabel : Labels := ⟨[3, 0x61, 0x2E, 0x62, 0], 0, 2, 4, 5⟩

def twoLabels : Labels := ⟨[1, 0x61, 1, 0x62, 0], 0, 3, 4, 5⟩

theorem one_key_for_two_names :
    Labels.parse oneLabel.view 0 = .ok oneLabel ∧ Labels.parse twoLabels.view 0 = .ok twoLabels ∧
      labelTexts oneLabel = .ok [[0x61, 0x2E, 0x62]] ∧ labelTexts twoLabels = .ok [[0x61], [0x62]] ∧
        labelsToFqdnKey oneLabel = labelsToFqdnKey twoLabels := by
  decide

theorem two_keys_for_two_names :
    labelsToFqdnKey ⟨[1, 0x62, 0], 0, 2, 2, 3⟩ ≠ labelsToFqdnKey twoLabels :=
  (query_keys_differ_iff (by decide : labelTexts _ = .ok [[0x62]])
    (by decide : labelTexts _ = .ok [[0x61], [0x62]])).2 (by decide) (by decide)

end Nsblast.Wire.DnsEngine
