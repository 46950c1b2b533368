import Nsblast.Wire.Message

/-!
# Which messages are indexed inside their bytes

A record is refused when it does not fit, so the record sections can only be
left by an exception or stay inside the message. A question is not tested. One
whose name is accepted but whose type and class are cut off gets a view that
reaches up to four bytes behind the message, and what is parsed behind it starts
there.

`TruncatedQuestion` says that the constructor meets such a question. Messages
without one are indexed inside their bytes, all others are not, except that an
offset behind 65535 starts again at zero and may then meet an element that is
refused.
-/

namespace Nsblast

open Buffer List
open Run (bind_eq_ok bind_ok bind_outOfBounds bind_thrown pure_eq throwIf_of throwIf_of_not)

namespace Labels

/-- The bytes of an accepted name are bytes of the buffer. -/
theorem extent_inside {buffer : Buffer} {row position extent : Nat} {views : List View}
    (name : NameAt buffer row position views extent) :
    1 ≤ extent ∧ position + extent ≤ buffer.length := by
  have starts := name_starts_inside name
  induction name with
  | root row position near stored => exact ⟨Nat.le_refl 1, starts⟩
  | label row position extent byte rest near stored plain positive short inside tail ih =>
    have tailInside := ih (name_starts_inside tail)
    omega
  | pointer row position target extent byte views near stored tagged allowed resolved inside
      tail ih =>
    obtain ⟨high, _, continued⟩ := (bind_eq_ok _ _ _).mp resolved
    obtain ⟨low, lowRead, _⟩ := (bind_eq_ok _ _ _).mp continued
    have second := (List.getElem?_eq_some_iff.mp ((read_eq_ok buffer _ low).mp lowRead)).1
    omega

end Labels

namespace Rr

/-- An element whose view lies inside the message and has room for the fields
that the accessors read. -/
structure Whole (buffer : Buffer) (rr : Rr) : Prop where
  inside : rr.selfView.Inside buffer
  fields : rr.selfView.length = rr.offsetToType + 4 ∨ rr.offsetToType + 10 ≤ rr.selfView.length

/-- The accessors of an element return; none of them reads outside the message. -/
structure Readable (buffer : Buffer) (rr : Rr) : Prop where
  type : ∃ value, rr.type buffer = .ok value
  clas : ∃ value, rr.clas buffer = .ok value
  ttl : ∃ value, rr.ttl buffer = .ok value
  rdlength : ∃ value, rr.rdlength buffer = .ok value
  rdata : ∃ bytes, rr.rdata buffer = .ok bytes

variable {buffer : Buffer} {offset : Nat} (isQuery : Bool)

theorem whole_readable {rr : Rr} (contained : rr.Whole buffer) :
    rr.Readable buffer := by
  obtain ⟨inside, fields⟩ := contained
  simp only [View.Inside] at inside
  have type := get16bValueAt_inside buffer rr.selfView rr.offsetToType (by omega) (by omega)
  have clas := get16bValueAt_inside buffer rr.selfView (rr.offsetToType + 2) (by omega) (by omega)
  refine ⟨⟨_, type.choose_spec.1⟩, ⟨_, clas.choose_spec.1⟩, ?_, ?_, ?_⟩
  · cases question : rr.isQuery with
    | true => exact ⟨0, by simp [Rr.ttl, question]⟩
    | false =>
      have long : rr.selfView.length - rr.offsetToType ≠ 4 := by simpa [isQuery] using question
      have stored :=
        get32bValueAt_inside buffer rr.selfView (rr.offsetToType + 4) (by omega) (by omega)
      simpa [Rr.ttl, question] using stored
  · cases question : rr.isQuery with
    | true => exact ⟨0, by simp [Rr.rdlength, question]⟩
    | false =>
      have long : rr.selfView.length - rr.offsetToType ≠ 4 := by simpa [isQuery] using question
      obtain ⟨value, stored, _⟩ :=
        get16bValueAt_inside buffer rr.selfView (rr.offsetToType + 8) (by omega) (by omega)
      exact ⟨value, by simpa [Rr.rdlength, question] using stored⟩
  · cases question : rr.isQuery with
    | true => exact ⟨[], by simp [Rr.rdata, question]⟩
    | false =>
      have long : rr.selfView.length - rr.offsetToType ≠ 4 := by simpa [isQuery] using question
      have range := readRange_inside buffer (rr.selfView.start + (rr.offsetToType + 10))
        (rr.selfView.length - (rr.offsetToType + 10)) (by omega)
      simp only [Rr.rdata, question, Bool.false_eq_true, ↓reduceIte, range]
      exact ⟨_, rfl⟩

theorem maxWindowSize_inside (offset : Nat) (inside : offset ≤ buffer.length)
    (small : buffer.length < 2 ^ 64) : maxWindowSize buffer offset = buffer.length - offset := by
  unfold maxWindowSize
  omega

/-- Behind the end of the message the difference wraps around: the window looks
as large as the address space. -/
theorem maxWindowSize_outside (outside : buffer.length < offset) (small : offset ≤ 65535) :
    2 ≤ maxWindowSize buffer offset := by
  unfold maxWindowSize
  omega

/-- With two bytes left, the name of an element is refused or lies inside the
message. -/
theorem labelLen_spec (buffer : Buffer) (offset : Nat) (inside : offset + 2 ≤ buffer.length) :
    (∃ what, labelLen buffer offset = .thrown what) ∨
      ∃ length, labelLen buffer offset = .ok length ∧ 1 ≤ length ∧
        offset + length ≤ buffer.length := by
  obtain ⟨first, firstRead, _⟩ := read_inside buffer offset (by omega)
  simp only [labelLen, firstRead, bind_ok]
  by_cases root : first = 0
  · exact Or.inr ⟨1, by simp [root], by omega, by omega⟩
  rw [if_neg root]
  by_cases tagged : Labels.isPointer first = true
  · exact Or.inr ⟨2, by simp [tagged], by omega, by omega⟩
  rw [if_neg tagged]
  rcases Labels.parse_spec buffer offset with ⟨what, refused⟩ | ⟨labels, views, accepted, parsed⟩
  · exact Or.inl ⟨what, by rw [refused, bind_thrown]⟩
  · obtain ⟨positive, bounded⟩ := Labels.extent_inside parsed.name
    exact Or.inr ⟨labels.bytes, by rw [accepted, bind_ok, pure_eq], positive, bounded⟩

/-- With two bytes left, everything depends on the name. -/
theorem parse_inside (small : buffer.length < 2 ^ 64) (inside : offset + 2 ≤ buffer.length) :
    parse buffer offset isQuery = labelLen buffer offset >>= fun length =>
      if isQuery then pure ⟨offset, length, ⟨offset, length + 4⟩⟩
      else parseRecord buffer offset length := by
  have window := maxWindowSize_inside offset (by omega) small
  have passed : ¬ maxWindowSize buffer offset < 2 := by omega
  rw [parse, throwIf_of_not passed, bind_ok]

/-- Less than two bytes before the end nothing is parsed. -/
theorem parse_short (small : buffer.length ≤ 65535) (inside : offset ≤ buffer.length)
    (short : buffer.length < offset + 2) : ∃ what, parse buffer offset isQuery = .thrown what := by
  have window := maxWindowSize_inside offset inside (by omega)
  have refused : maxWindowSize buffer offset < 2 := by omega
  rw [parse, throwIf_of refused, bind_thrown]
  exact ⟨_, rfl⟩

/-- Behind the end of the message the first look at the name is a stray read. -/
theorem parse_outside (outside : buffer.length < offset) (small : offset ≤ 65535) :
    parse buffer offset isQuery = .outOfBounds := by
  have window := maxWindowSize_outside outside small
  have passed : ¬ maxWindowSize buffer offset < 2 := by omega
  rw [parse, throwIf_of_not passed, bind_ok, labelLen,
    read_outside buffer offset (by omega), bind_outOfBounds, bind_outOfBounds]

/-- A record with an accepted name is refused or lies completely inside the
message. -/
theorem parseRecord_spec (length : Nat) (small : buffer.length ≤ 65535)
    (inside : offset ≤ buffer.length) :
    (∃ what, parseRecord buffer offset length = .thrown what) ∨
      ∃ rr, parseRecord buffer offset length = .ok rr ∧ rr.selfView.start = offset ∧
        rr.Whole buffer := by
  have window := maxWindowSize_inside offset inside (by omega)
  by_cases cut : offset + length + 2 + 2 + 4 + 2 > buffer.length
  · rw [parseRecord, throwIf_of cut, bind_thrown]
    exact Or.inl ⟨_, rfl⟩
  obtain ⟨rdlen, stored, _⟩ := get16bValueAt_inside buffer (whole buffer)
    (offset + length + 2 + 2 + 4) (by simp only [whole]; omega) (by simp only [whole]; omega)
  rw [parseRecord, throwIf_of_not cut, bind_ok, stored, bind_ok]
  by_cases long : length + (2 + 2 + 4 + 2 + rdlen) > maxWindowSize buffer offset
  · rw [recordView, throwIf_of long, bind_thrown]
    exact Or.inl ⟨_, rfl⟩
  have fits : length + (2 + 2 + 4 + 2 + rdlen) ≤ maxWindowSize buffer offset := by omega
  refine Or.inr ⟨⟨offset, length, ⟨offset, length + (2 + 2 + 4 + 2 + rdlen)⟩⟩, ?_, rfl, ?_, ?_⟩
  · rw [recordView, throwIf_of_not long, bind_ok, Run.assert_of fits, bind_ok, pure_eq]
  · simp only [View.Inside]
    omega
  · exact Or.inr (by simp only; omega)

theorem parse_record (small : buffer.length ≤ 65535) (inside : offset ≤ buffer.length) :
    (∃ what, parse buffer offset false = .thrown what) ∨
      ∃ rr, parse buffer offset false = .ok rr ∧ rr.selfView.start = offset ∧
        rr.Whole buffer := by
  by_cases short : buffer.length < offset + 2
  · exact Or.inl (parse_short false small inside short)
  rw [parse_inside false (by omega) (by omega)]
  rcases labelLen_spec buffer offset (by omega) with ⟨what, refused⟩ | ⟨length, named, _, _⟩
  · exact Or.inl ⟨what, by rw [refused, bind_thrown]⟩
  · rw [named, bind_ok, if_neg Bool.false_ne_true]
    exact parseRecord_spec length small inside

end Rr

namespace RrList

/-- The element of an index entry, as iterating the list finds it again, lies
inside the message and its accessors read only bytes of the message. -/
def EntryContained (buffer : Buffer) (isQuestion : Bool) (entry : Index) : Prop :=
  ∃ rr, Rr.parse buffer entry.offset isQuestion = .ok rr ∧ rr.selfView.Inside buffer ∧
    rr.Readable buffer

def Contained (buffer : Buffer) (list : RrList) : Prop :=
  ∀ entry ∈ list.index, EntryContained buffer list.isQuestion entry

/-- Among the next `remaining` questions, one has an accepted name and ends
behind the message, all before it being complete. -/
def TruncatedFrom (buffer : Buffer) : Nat → Nat → Prop
  | 0, _ => False
  | remaining + 1, offset =>
      ∃ length, offset + 2 ≤ buffer.length ∧ Rr.labelLen buffer offset = .ok length ∧
        (buffer.length < offset + length + 4 ∨ TruncatedFrom buffer remaining (offset + length + 4))

section
variable {buffer : Buffer} (small : buffer.length ≤ 65535)
include small

/-- The next element is refused, or lies inside the message, unless it is a
truncated question. -/
theorem element_inside {isQuestion : Bool} {remaining coffset : Nat}
    (inside : coffset ≤ buffer.length)
    (complete : isQuestion = true → ¬ TruncatedFrom buffer (remaining + 1) coffset) :
    (∃ what, Rr.parse buffer coffset isQuestion = .thrown what) ∨
      ∃ rr, Rr.parse buffer coffset isQuestion = .ok rr ∧ rr.selfView.start = coffset ∧
        rr.Whole buffer ∧
        (isQuestion = true → ¬ TruncatedFrom buffer remaining (coffset + rr.size)) := by
  cases isQuestion with
  | false =>
    rcases Rr.parse_record small inside with refused | ⟨rr, parsed, start, whole⟩
    · exact Or.inl refused
    · exact Or.inr ⟨rr, parsed, start, whole, fun question => by cases question⟩
  | true =>
    by_cases short : buffer.length < coffset + 2
    · exact Or.inl (Rr.parse_short true small inside short)
    rw [Rr.parse_inside true (by omega) (by omega)]
    rcases Rr.labelLen_spec buffer coffset (by omega) with ⟨what, refused⟩ | ⟨length, named, _, _⟩
    · exact Or.inl ⟨what, by rw [refused, bind_thrown]⟩
    have ends : coffset + length + 4 ≤ buffer.length := by
      by_contra cut
      exact complete rfl ⟨length, by omega, named, Or.inl (by omega)⟩
    refine Or.inr ⟨⟨coffset, length, ⟨coffset, length + 4⟩⟩, ?_, rfl, ⟨?_, Or.inl rfl⟩, ?_⟩
    · rw [named, bind_ok, if_pos rfl, pure_eq]
    · simp only [View.Inside]
      omega
    · intro _ later
      exact complete rfl ⟨length, by omega, named, Or.inr later⟩

/-- Without a truncated question the loop stays inside the message, and the sum
of the bytes is exact. -/
theorem indexFrom_inside (isQuestion : Bool) (remaining coffset bytes : Nat)
    (inside : coffset ≤ buffer.length) (counted : bytes ≤ coffset)
    (complete : isQuestion = true → ¬ TruncatedFrom buffer remaining coffset) :
    (∃ what, indexFrom buffer isQuestion remaining coffset bytes = .thrown what) ∨
      ∃ index stop, indexFrom buffer isQuestion remaining coffset bytes =
          .ok (index, bytes + (stop - coffset)) ∧
        (∀ entry ∈ index, EntryContained buffer isQuestion entry) ∧
        coffset ≤ stop ∧ stop ≤ buffer.length := by
  induction remaining generalizing coffset bytes with
  | zero => exact Or.inr ⟨[], coffset, by simp [indexFrom], by simp, Nat.le_refl _, inside⟩
  | succ remaining ih =>
    rcases element_inside small inside complete with
      ⟨what, refused⟩ | ⟨rr, parsed, start, whole, later⟩
    · exact Or.inl ⟨what, by rw [indexFrom, refused, bind_thrown]⟩
    have readable := Rr.whole_readable whole
    obtain ⟨type, typed⟩ := readable.type
    have bounded : coffset + rr.size ≤ buffer.length := by
      have stays := whole.inside
      simp only [View.Inside, start] at stays
      exact stays
    have exactOffset : (coffset + rr.size) % 65536 = coffset + rr.size :=
      Nat.mod_eq_of_lt (by omega)
    have exactBytes : (bytes + rr.size) % 65536 = bytes + rr.size :=
      Nat.mod_eq_of_lt (by omega)
    rw [indexFrom, parsed, bind_ok, typed, bind_ok, exactOffset, exactBytes]
    rcases ih (coffset + rr.size) (bytes + rr.size) bounded (by omega) later with
      ⟨what, refused⟩ | ⟨index, stop, indexed, contained, forward, stopped⟩
    · exact Or.inl ⟨what, by rw [refused, bind_thrown]⟩
    · refine Or.inr ⟨⟨type, coffset⟩ :: index, stop, ?_, ?_, by omega, stopped⟩
      · have total : bytes + rr.size + (stop - (coffset + rr.size)) = bytes + (stop - coffset) := by
          omega
        rw [indexed, total]
        rfl
      · intro entry member
        rcases mem_cons.mp member with rfl | listed
        · exact ⟨rr, parsed, whole.inside, readable⟩
        · exact contained entry listed

/-- A truncated question is parsed, and its view leaves the message. -/
theorem truncated_parsed {coffset length : Nat} (inside : coffset + 2 ≤ buffer.length)
    (named : Rr.labelLen buffer coffset = .ok length) :
    Rr.parse buffer coffset true = .ok ⟨coffset, length, ⟨coffset, length + 4⟩⟩ := by
  rw [Rr.parse_inside true (by omega) inside, named, bind_ok, if_pos rfl, pure_eq]

/-- Whenever the loop returns in spite of a truncated question, the index has an
entry for it. -/
theorem indexFrom_truncated {remaining coffset bytes : Nat}
    (truncated : TruncatedFrom buffer remaining coffset) {result : List Index × Nat}
    (indexed : indexFrom buffer true remaining coffset bytes = .ok result) :
    ∃ entry ∈ result.1, ¬ EntryContained buffer true entry := by
  induction remaining generalizing coffset bytes result with
  | zero => exact truncated.elim
  | succ remaining ih =>
    obtain ⟨length, inside, named, cut⟩ := truncated
    have parsed := truncated_parsed small inside named
    rw [indexFrom, parsed, bind_ok] at indexed
    obtain ⟨type, _, continued⟩ := (bind_eq_ok _ _ _).mp indexed
    obtain ⟨rest, restIndexed, returned⟩ := (bind_eq_ok _ _ _).mp continued
    cases returned
    by_cases ends : buffer.length < coffset + length + 4
    · refine ⟨⟨type, coffset⟩, mem_cons_self, ?_⟩
      rintro ⟨rr, again, stays, _⟩
      rw [parsed] at again
      cases again
      simp only [View.Inside] at stays
      omega
    · have next : (coffset + (length + 4)) % 65536 = coffset + length + 4 := by omega
      have later := cut.resolve_left ends
      simp only [Rr.size, next] at restIndexed
      obtain ⟨entry, listed, stray⟩ := ih later restIndexed
      exact ⟨entry, mem_cons_of_mem _ listed, stray⟩

end

/-- Where a 16-bit offset cannot wrap around, nothing behind a truncated question
is refused: the loop leaves the message or returns at an offset behind it. -/
theorem indexFrom_truncated_low (buffer : Buffer) (low : buffer.length < 65532)
    (remaining coffset bytes : Nat) (counted : bytes ≤ coffset)
    (truncated : TruncatedFrom buffer remaining coffset) :
    indexFrom buffer true remaining coffset bytes = .outOfBounds ∨
      ∃ index stop, indexFrom buffer true remaining coffset bytes =
          .ok (index, bytes + (stop - coffset)) ∧
        coffset ≤ stop ∧ buffer.length < stop ∧ stop ≤ 65535 := by
  have small : buffer.length ≤ 65535 := by omega
  induction remaining generalizing coffset bytes with
  | zero => exact truncated.elim
  | succ remaining ih =>
    obtain ⟨length, inside, named, cut⟩ := truncated
    have parsed := truncated_parsed small inside named
    obtain ⟨_, bounded⟩ : 1 ≤ length ∧ coffset + length ≤ buffer.length := by
      rcases Rr.labelLen_spec buffer coffset inside with ⟨what, refused⟩ | ⟨other, same, spec⟩
      · rw [named] at refused
        cases refused
      · rw [named] at same
        cases same
        exact spec
    have nextOffset : (coffset + (length + 4)) % 65536 = coffset + length + 4 := by omega
    have nextBytes : (bytes + (length + 4)) % 65536 = bytes + length + 4 := by omega
    rw [indexFrom, parsed, bind_ok]
    simp only [Rr.size, Rr.type, nextOffset, nextBytes]
    by_cases stray : buffer.length < coffset + length + 2
    · refine Or.inl ?_
      rw [get16bValueAt_outside buffer _ length (by simp only; omega) stray, bind_outOfBounds]
    obtain ⟨type, typed, _⟩ := get16bValueAt_inside buffer ⟨coffset, length + 4⟩ length
      (by simp only; omega) (by simp only; omega)
    rw [typed, bind_ok]
    by_cases ends : buffer.length < coffset + length + 4
    · cases remaining with
      | zero =>
        refine Or.inr ⟨[⟨type, coffset⟩], coffset + length + 4, ?_, by omega, ends, by omega⟩
        have total : bytes + length + 4 = bytes + (coffset + length + 4 - coffset) := by omega
        rw [indexFrom, total]
        rfl
      | succ remaining =>
        refine Or.inl ?_
        rw [indexFrom, Rr.parse_outside true ends (by omega), bind_outOfBounds,
          bind_outOfBounds]
    · rcases ih (coffset + length + 4) (bytes + length + 4) (by omega) (cut.resolve_left ends) with
        stray | ⟨index, stop, indexed, forward, behind, limit⟩
      · exact Or.inl (by rw [stray, bind_outOfBounds])
      · refine Or.inr ⟨⟨type, coffset⟩ :: index, stop, ?_, by omega, behind, limit⟩
        have total : bytes + length + 4 + (stop - (coffset + length + 4)) =
            bytes + (stop - coffset) := by omega
        rw [indexed, total]
        rfl

end RrList

namespace Message

/-- Every question and record of the message lies inside its bytes. -/
def Contained (buffer : Buffer) (message : Message) : Prop :=
  ∀ list, some list ∈ message.rrsets → list.Contained buffer

/-- The construction throws, or every element of the message lies inside its
bytes. It neither reads behind them nor fails an assertion. -/
def StaysInside (buffer : Buffer) : Prop :=
  (∃ what, createIndex buffer = .thrown what) ∨
    ∃ message, createIndex buffer = .ok message ∧ message.Contained buffer

/-- The header is accepted and one of the questions is truncated. -/
def TruncatedQuestion (buffer : Buffer) : Prop :=
  validate buffer = .ok true ∧
    ∃ questions, qdcount buffer = .ok questions ∧
      RrList.TruncatedFrom buffer questions headerSize

/-- The header decides whether there is anything to index. An accepted one has
all four counts. -/
theorem createIndex_header (buffer : Buffer) :
    ((∃ what, createIndex buffer = .thrown what) ∧ validate buffer ≠ .ok true) ∨
      ∃ questions later, validate buffer = .ok true ∧ qdcount buffer = .ok questions ∧
        headerSize ≤ buffer.length ∧
        createIndex buffer =
          sectionsFrom buffer (questions :: later) 0 headerSize >>= fun rrsets => pure ⟨rrsets⟩ := by
  by_cases short : buffer.length < headerSize
  · refine Or.inl ⟨?_, ?_⟩
    · rw [createIndex, validate, getHdrFlags, throwIf_of short]
      exact ⟨_, rfl⟩
    · rw [validate, getHdrFlags, throwIf_of short]
      exact fun accepted => by cases accepted
  simp only [headerSize, Nat.not_lt] at short
  have count : ∀ location, location + 2 ≤ 12 →
      ∃ value, get16bValueAt buffer (whole buffer) location = .ok value := by
    intro location fits
    obtain ⟨value, stored, _⟩ := get16bValueAt_inside buffer (whole buffer) location
      (by simp only [whole]; omega) (by simp only [whole]; omega)
    exact ⟨value, stored⟩
  obtain ⟨questions, counted⟩ := count 4 (by omega)
  obtain ⟨answers, answersCounted⟩ := count 6 (by omega)
  obtain ⟨authorities, authoritiesCounted⟩ := count 8 (by omega)
  obtain ⟨additional, additionalCounted⟩ := count 10 (by omega)
  obtain ⟨valid, validated⟩ : ∃ valid, validate buffer = .ok valid := by
    have passed : ¬ buffer.length < headerSize := by simp only [headerSize]; omega
    obtain ⟨first, firstRead, _⟩ := read_inside buffer 2 (by omega)
    obtain ⟨second, secondRead, _⟩ := read_inside buffer 3 (by omega)
    simp only [validate, getHdrFlags, throwIf_of_not passed, firstRead, secondRead,
      bind_ok, pure_eq, ancount, answersCounted]
    repeat' split
    all_goals exact ⟨_, rfl⟩
  cases valid with
  | false =>
    refine Or.inl ⟨⟨"Message::createIndex: Invalid message header", ?_⟩, ?_⟩
    · rw [createIndex, validated]
      rfl
    · rw [validated]
      exact fun accepted => by cases accepted
  | true =>
    refine Or.inr ⟨questions, [answers, authorities, additional], validated, counted, short, ?_⟩
    simp [createIndex, validated, Run.throwIf, qdcount, counted, ancount, answersCounted, nscount,
      authoritiesCounted, arcount, additionalCounted]

section
variable {buffer : Buffer} (small : buffer.length ≤ 65535)
include small

/-- From an offset inside the message, sections without a truncated question are
refused or contained. -/
theorem sectionsFrom_inside (counts : List Nat) (sectionIndex offset : Nat)
    (inside : offset ≤ buffer.length)
    (complete : sectionIndex = 0 → ∀ count later, counts = count :: later →
      ¬ RrList.TruncatedFrom buffer count offset) :
    (∃ what, sectionsFrom buffer counts sectionIndex offset = .thrown what) ∨
      ∃ rrsets, sectionsFrom buffer counts sectionIndex offset = .ok rrsets ∧
        ∀ list, some list ∈ rrsets → list.Contained buffer := by
  induction counts generalizing sectionIndex offset with
  | nil => exact Or.inr ⟨[], rfl, by simp⟩
  | cons count later ih =>
    have laterComplete : ∀ stop, sectionIndex + 1 = 0 → ∀ count others, later = count :: others →
        ¬ RrList.TruncatedFrom buffer count stop := by omega
    rw [sectionsFrom]
    by_cases empty : count = 0
    · rw [if_neg (by simpa using empty)]
      rcases ih (sectionIndex + 1) offset inside (laterComplete offset) with
        ⟨what, refused⟩ | ⟨rrsets, indexed, contained⟩
      · exact Or.inl ⟨what, by rw [refused, bind_thrown]⟩
      · refine Or.inr ⟨none :: rrsets, by rw [indexed, bind_ok, pure_eq], ?_⟩
        intro list member
        simp only [mem_cons, reduceCtorEq, false_or] at member
        exact contained list member
    · rw [if_pos empty, RrList.construct, Nat.mod_eq_of_lt (by omega : offset < 65536)]
      have first := RrList.indexFrom_inside small (sectionIndex == 0) count offset 0 inside
        (Nat.zero_le offset) (fun question => complete (by simpa using question) count later rfl)
      rcases first with ⟨what, refused⟩ | ⟨index, stop, indexed, entries, forward, stopped⟩
      · exact Or.inl ⟨what, by rw [refused]; rfl⟩
      rw [indexed]
      simp only [bind_ok, pure_eq, Nat.zero_add]
      have next : offset + (stop - offset) = stop := by omega
      rw [next]
      rcases ih (sectionIndex + 1) stop stopped (laterComplete stop) with
        ⟨what, refused⟩ | ⟨rrsets, laterIndexed, contained⟩
      · exact Or.inl ⟨what, by rw [refused, bind_thrown]⟩
      · refine Or.inr ⟨some ⟨sectionIndex == 0, index, stop - offset⟩ :: rrsets,
          by rw [laterIndexed, bind_ok], ?_⟩
        intro list member
        rcases mem_cons.mp member with same | listed
        · cases same
          exact entries
        · exact contained list listed

/-- A message that is indexed in spite of a truncated question has an element
outside its bytes. -/
theorem sectionsFrom_truncated {count offset : Nat} {later : List Nat}
    (inside : offset ≤ buffer.length) (truncated : RrList.TruncatedFrom buffer count offset)
    {rrsets : List (Option RrList)}
    (indexed : sectionsFrom buffer (count :: later) 0 offset = .ok rrsets) :
    ∃ list, some list ∈ rrsets ∧ ¬ list.Contained buffer := by
  have asked : count ≠ 0 := by
    rintro rfl
    exact truncated
  rw [sectionsFrom, if_pos asked, RrList.construct, Nat.mod_eq_of_lt (by omega : offset < 65536)]
    at indexed
  obtain ⟨list, constructed, continued⟩ := (bind_eq_ok _ _ _).mp indexed
  obtain ⟨result, looped, wrapped⟩ := (bind_eq_ok _ _ _).mp constructed
  obtain ⟨rest, _, returned⟩ := (bind_eq_ok _ _ _).mp continued
  cases returned
  obtain ⟨entry, listed, stray⟩ :=
    RrList.indexFrom_truncated small truncated looped
  cases wrapped
  exact ⟨_, mem_cons_self, fun contained => stray (contained entry listed)⟩

end

/-- Sections that start behind the message are empty or leave it. -/
theorem sectionsFrom_outside {buffer : Buffer} (counts : List Nat) (sectionIndex : Nat)
    {offset : Nat} (outside : buffer.length < offset) (limit : offset ≤ 65535) :
    sectionsFrom buffer counts sectionIndex offset = .outOfBounds ∨
      ∃ rrsets, sectionsFrom buffer counts sectionIndex offset = .ok rrsets := by
  induction counts generalizing sectionIndex with
  | nil => exact Or.inr ⟨[], rfl⟩
  | cons count later ih =>
    rw [sectionsFrom]
    cases count with
    | zero =>
      rw [if_neg (by simp)]
      rcases ih (sectionIndex + 1) with stray | ⟨rrsets, indexed⟩
      · exact Or.inl (by rw [stray, bind_outOfBounds])
      · exact Or.inr ⟨none :: rrsets, by rw [indexed, bind_ok, pure_eq]⟩
    | succ count =>
      rw [if_pos (Nat.succ_ne_zero count), RrList.construct,
        Nat.mod_eq_of_lt (by omega : offset < 65536), RrList.indexFrom,
        Rr.parse_outside (sectionIndex == 0) outside limit]
      exact Or.inl rfl

/-- Where a 16-bit offset cannot wrap around, a message with a truncated question
is not refused. -/
theorem sectionsFrom_truncated_low {buffer : Buffer} (low : buffer.length < 65532)
    {count offset : Nat} (later : List Nat) (inside : offset ≤ buffer.length)
    (truncated : RrList.TruncatedFrom buffer count offset) (what : String) :
    sectionsFrom buffer (count :: later) 0 offset ≠ .thrown what := by
  have asked : count ≠ 0 := by
    rintro rfl
    exact truncated
  rw [sectionsFrom, if_pos asked, RrList.construct, Nat.mod_eq_of_lt (by omega : offset < 65536)]
  rcases RrList.indexFrom_truncated_low buffer low count offset 0 (Nat.zero_le offset) truncated
    with stray | ⟨index, stop, indexed, forward, behind, limit⟩
  · rw [beq_self_eq_true, stray]
    exact fun refused => by cases refused
  · rw [beq_self_eq_true, indexed]
    simp only [bind_ok, pure_eq, Nat.zero_add]
    have next : offset + (stop - offset) = stop := by omega
    rw [next]
    rcases sectionsFrom_outside later 1 behind limit with stray | ⟨rrsets, returned⟩
    · rw [stray]
      exact fun refused => by cases refused
    · rw [returned]
      exact fun refused => by cases refused

/-- Exactly which messages are indexed inside their bytes: those without a
truncated question, and of the longest ones those that are refused after an
offset has started again at zero. -/
theorem stays_inside_iff_no_truncated_question (buffer : Buffer) (small : buffer.length ≤ 65535) :
    StaysInside buffer ↔
      ¬ TruncatedQuestion buffer ∨
        (65532 ≤ buffer.length ∧ ∃ what, createIndex buffer = .thrown what) := by
  rcases createIndex_header buffer with
    ⟨refused, invalid⟩ | ⟨questions, later, valid, counted, long, indexed⟩
  · exact ⟨fun _ => Or.inl fun truncated => invalid truncated.1, fun _ => Or.inl refused⟩
  have truncatedHere : TruncatedQuestion buffer ↔
      RrList.TruncatedFrom buffer questions headerSize := by
    constructor
    · rintro ⟨_, others, sameCount, truncated⟩
      rw [counted] at sameCount
      cases sameCount
      exact truncated
    · intro truncated
      exact ⟨valid, questions, counted, truncated⟩
  rw [truncatedHere]
  constructor
  · intro stays
    by_cases truncated : RrList.TruncatedFrom buffer questions headerSize
    · rcases stays with ⟨what, refused⟩ | ⟨message, constructed, contained⟩
      · refine Or.inr ⟨?_, what, refused⟩
        by_contra low
        have never := sectionsFrom_truncated_low (by omega) later long truncated what
        rw [indexed] at refused
        cases ran : sectionsFrom buffer (questions :: later) 0 headerSize with
        | thrown other =>
          rw [ran] at refused never
          cases refused
          exact never rfl
        | ok rrsets => rw [ran] at refused; cases refused
        | aborted => rw [ran] at refused; cases refused
        | outOfBounds => rw [ran] at refused; cases refused
        | outOfFuel => rw [ran] at refused; cases refused
      · rw [indexed] at constructed
        obtain ⟨rrsets, ran, returned⟩ := (bind_eq_ok _ _ _).mp constructed
        cases returned
        obtain ⟨list, member, stray⟩ := sectionsFrom_truncated small long truncated ran
        exact absurd (contained list member) stray
    · exact Or.inl truncated
  · rintro (complete | ⟨_, refused⟩)
    · unfold StaysInside
      rw [indexed]
      rcases sectionsFrom_inside small (questions :: later) 0 headerSize long
        (fun _ count others same => by cases same; exact complete) with
        ⟨what, refused⟩ | ⟨rrsets, ran, contained⟩
      · exact Or.inl ⟨what, by rw [refused, bind_thrown]⟩
      · exact Or.inr ⟨⟨rrsets⟩, by rw [ran, bind_ok, pure_eq], contained⟩
    · exact Or.inl refused

/-- A query for the address of the root, with the given bytes behind the type of
its only question. -/
def rootQuery (behindType : Buffer) : Buffer :=
  [0, 0, 0, 0, 0, 1, 0, 0, 0, 0, 0, 0, 0, 0, 1] ++ behindType

/-- With the class of the question missing, the message is accepted and the view
of the question reaches two bytes behind it. -/
theorem rootQuery_cut_leaves_message :
    (rootQuery []).length = 15 ∧
      createIndex (rootQuery []) = .ok ⟨[some ⟨true, [⟨1, 12⟩], 5⟩, none, none, none]⟩ ∧
      Rr.parse (rootQuery []) 12 true = .ok ⟨12, 1, ⟨12, 5⟩⟩ ∧
      Rr.clas (rootQuery []) ⟨12, 1, ⟨12, 5⟩⟩ = .outOfBounds ∧
      ¬ StaysInside (rootQuery []) := by
  have indexed : createIndex (rootQuery []) =
      .ok ⟨[some ⟨true, [⟨1, 12⟩], 5⟩, none, none, none]⟩ := by decide
  have parsed : Rr.parse (rootQuery []) 12 true = .ok ⟨12, 1, ⟨12, 5⟩⟩ := by decide
  refine ⟨rfl, indexed, parsed, by decide, ?_⟩
  rintro (⟨what, refused⟩ | ⟨message, constructed, contained⟩)
  · rw [indexed] at refused
    cases refused
  · rw [indexed] at constructed
    cases constructed
    obtain ⟨rr, again, inside, _⟩ := contained _ mem_cons_self ⟨1, 12⟩ mem_cons_self
    cases again
    exact absurd inside (by simp [View.Inside, rootQuery])

/-- The complete query stays inside its bytes. -/
theorem rootQuery_complete_stays_inside : StaysInside (rootQuery [0, 1]) := by
  refine (stays_inside_iff_no_truncated_question (rootQuery [0, 1]) (by decide)).mpr (Or.inl ?_)
  rintro ⟨_, questions, counted, truncated⟩
  cases counted
  obtain ⟨length, _, named, cut | later⟩ := truncated
  · cases named
    exact absurd cut (by decide)
  · exact later

end Message

end Nsblast
