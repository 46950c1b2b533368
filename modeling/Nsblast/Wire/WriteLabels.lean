import Nsblast.Wire.Spelling

/-!
# Writing a name with compression

`writeLabels` compares the labels of a name from its end with those of the names that
are in the message already, writes the labels that no earlier name ends in, and a pointer
to the place where the longest common end begins. The names it compares with are views
of the buffer that is being written, each as long as the buffer was when the name had
been added.

A failed comparison with the limit is reported as a length of zero and leaves the buffer
as it was. The reallocation of the buffer, which would leave the views behind, is not
modelled: the builder reserves the memory up to its limit.
-/

namespace Nsblast

open List hiding count
open Buffer Labels Run

/-- A name in the message: where it begins, how long the buffer was when it had been
added, and the number of its labels. -/
structure KnownName where
  offset : Nat
  viewSize : Nat
  count : Nat
  deriving DecidableEq, Repr

/-- `best_match` and `best_count`. -/
structure Match where
  location : Option Nat := none
  count : Nat := 0
  deriving DecidableEq, Repr

namespace WriteLabels

/-- The labels of a name with their places, the root included. -/
def iterate (buffer : Buffer) (offset count : Nat) : Run (List (Nat × Text)) := do
  let views ← visit buffer count offset
  views.mapM fun view => do
    let text ← readRange buffer view.start view.length
    .ok (view.start - 1, text)

/-- The loop that compares two names from their ends. -/
def compareBack (best : Match) : Nat → List Text → List (Nat × Text) → Match
  | count, needle :: needles, (location, text) :: haystack =>
      if needle = text then
        compareBack (if count + 1 > best.count then ⟨some location, count + 1⟩ else best) (count + 1)
          needles haystack
      else best
  | _, _, _ => best

/-- The loop over the names of the message. It ends early when the whole name is found. -/
def search (buffer : Buffer) (needle : List Text) (total : Nat) :
    List KnownName → Match → Run (Match × Bool)
  | [], best => .ok (best, false)
  | known :: rest, best =>
      if known.count ≤ best.count then search buffer needle total rest best
      else do
        let haystack ← iterate (buffer.take known.viewSize) known.offset known.count
        let best := compareBack best 0 needle.reverse haystack.reverse
        if best.count = total then .ok (best, true) else search buffer needle total rest best

/-- What is written: the labels up to the match, and a pointer to it. -/
def nameBytes (needle : List Text) (best : Match) : List UInt8 :=
  (needle.take (needle.length - best.count)).flatMap labelBytes ++ best.location.elim [] pointerBytes

/-- The half of `writeLabels` that chooses: the labels of the name, the best match, and
whether it is all of the name. -/
def choose (fqdn : Labels) (existing : List KnownName) (buffer : Buffer) :
    Run (List Text × Match × Bool) := do
  let labels ← iterate fqdn.view fqdn.offset fqdn.count
  let needle := labels.map Prod.snd
  let (best, fullMatch) ← search buffer needle fqdn.count existing {}
  .ok (needle, best, fullMatch)

/-- `writeLabels`, with the length it returns, the buffer and the names of the message. -/
def writeLabels (fqdn : Labels) (existing : List KnownName) (buffer : Buffer) (maxLen : Nat) :
    Run (Nat × Buffer × List KnownName) :=
  if fqdn.bytes = 1 then
    .ok (if buffer.length + 1 > maxLen then (0, buffer, existing) else (1, buffer ++ [0], existing))
  else do
    let (needle, best, fullMatch) ← choose fqdn existing buffer
    let name := nameBytes needle best
    if maxLen ≠ 0 ∧ name.length ≥ maxLen then .ok (0, buffer, existing)
    else if fullMatch then .ok (name.length, buffer ++ name, existing)
    else do
      let added ← Labels.parse (buffer ++ name) buffer.length
      .ok (name.length, buffer ++ name,
        existing ++ [⟨added.offset, (buffer ++ name).length, added.count⟩])

section own

/-- The labels of a name that was parsed in its own buffer. -/
structure Named (fqdn : Labels) (labels : List Text) : Prop where
  iterated : ∃ pairs, iterate fqdn.view fqdn.offset fqdn.count = .ok pairs ∧
    pairs.map Prod.snd = labels ++ [[]]
  filled : ∀ text ∈ labels, text ≠ [] ∧ text.length ≤ 63
  count : fqdn.count = labels.length + 1
  size : textSize 0 labels ≤ 254
  rooted : fqdn.bytes = 1 → labels = []

theorem mapM_views {buffer : Buffer} {views : List View}
    (inside : ∀ view ∈ views, view.length = 0 ∨ view.Inside buffer) :
    views.mapM (fun view => do
      let text ← readRange buffer view.start view.length
      (.ok (view.start - 1, text) : Run (Nat × Text))) =
      .ok (views.map fun view => (view.start - 1, (buffer.drop view.start).take view.length)) := by
  induction views with
  | nil => rfl
  | cons view rest ih =>
    have read : readRange buffer view.start view.length =
        .ok ((buffer.drop view.start).take view.length) := by
      rcases inside view mem_cons_self with empty | isInside
      · rw [empty, readRange, take_zero]
      · exact readRange_inside buffer view.start view.length isInside
    simp [read, ih fun other member => inside other (mem_cons_of_mem view member)]

/-- A name that was parsed has labels. -/
theorem named_of_parse {own : Buffer} {offset : Nat} {fqdn : Labels}
    (parsed : Labels.parse own offset = .ok fqdn) : ∃ labels, Named fqdn labels := by
  obtain ⟨views, isView, isOffset, nameAt, count, size, fits⟩ := parse_accepted parsed
  have bounded := views_bounded own views nameAt
  obtain ⟨root, empty, walked⟩ := visit_name nameAt
  have lengths : (views.map fun view => (own.drop view.start).take view.length).map length =
      views.map (·.length) := by
    rw [map_map]
    apply map_congr_left
    intro view member
    have inside := (bounded view member).2.2
    simp only [View.Inside] at inside
    simp only [Function.comp, length_take, length_drop]
    omega
  refine ⟨views.map fun view => (own.drop view.start).take view.length, ?_, ?_, ?_, ?_, ?_⟩
  · refine ⟨(views ++ [root]).map fun view =>
      (view.start - 1, (own.drop view.start).take view.length), ?_, ?_⟩
    · rw [isView, isOffset, count, iterate, walked _ (Nat.le_refl _), bind_ok]
      apply mapM_views
      intro view member
      rcases mem_append.mp member with early | isRoot
      · exact Or.inr (bounded view early).2.2
      · exact Or.inl (by rw [mem_singleton.mp isRoot, empty])
    · simp [empty]
  · intro text member
    obtain ⟨view, isMember, rfl⟩ := mem_map.mp member
    obtain ⟨positive, short, inside⟩ := bounded view isMember
    simp only [View.Inside] at inside
    rw [← length_pos_iff, length_take, length_drop]
    omega
  · rw [count, length_map]
  · rw [← dotted_eq_textSize 0 lengths.symm]
    omega
  · intro one
    obtain ⟨byte, _, ⟨_, none, _⟩ | ⟨_, two⟩ | ⟨_, positive, _, behind, _, total⟩⟩ :=
      nameAt_first nameAt
    · rw [none, map_nil]
    · omega
    · omega

end own

variable {labels : List Text}

section search

variable {buffer : Buffer} {floor : Nat}

/-- A name of the message is where it was written, in the part of the buffer it was added
with. -/
structure Known (buffer : Buffer) (floor : Nat) (known : KnownName) (labels : List Text) : Prop where
  spelled : ∃ extent,
    Spelled (buffer.take known.viewSize) floor known.offset known.offset labels extent
  count : known.count = labels.length + 1

/-- Every name of the message is known, and lies in front of `limit`. -/
def Table (buffer : Buffer) (floor limit : Nat) (existing : List KnownName) : Prop :=
  ∀ known ∈ existing, known.viewSize ≤ limit ∧ ∃ labels, Known buffer floor known labels

/-- A match is where a name begins that the labels end in. -/
structure Matches (buffer : Buffer) (floor limit : Nat) (labels : List Text) (location : Nat)
    (rest : List Text) : Prop where
  ends : rest <:+ labels
  begins : Begins buffer floor location rest
  low : location < limit

/-- What the search has found so far. -/
def Found (buffer : Buffer) (floor limit : Nat) (labels : List Text) (best : Match) : Prop :=
  best = {} ∨ ∃ location rest, best = ⟨some location, rest.length + 1⟩ ∧
    Matches buffer floor limit labels location rest

/-- The labels of a name from its end, where `done` stands behind them. -/
def SitesBack (buffer : Buffer) (floor limit : Nat) : List Text → List (Nat × Text) → Prop
  | _, [] => True
  | done, (location, text) :: more => location < limit ∧ Begins buffer floor location (text :: done) ∧
      SitesBack buffer floor limit (text :: done) more

variable {extent limit position start : Nat} {haystack : List (Nat × Text)} {done : List Text}
    {best : Match} {view : Buffer} {known : KnownName} {existing : List KnownName} {fqdn : Labels}

variable {labels : List Text}

/-- The comparison behind the roots. -/
theorem compareBack_found {needles : List Text}
    (isLabels : labels = needles.reverse ++ done)
    (sites : SitesBack buffer floor limit done haystack)
    (found : Found buffer floor limit labels best) :
    Found buffer floor limit labels (compareBack best (done.length + 1) needles haystack) := by
  induction needles generalizing haystack done best with
  | nil => simpa [compareBack] using found
  | cons needle needles ih =>
    cases haystack with
    | nil => simpa [compareBack] using found
    | cons site haystack =>
      obtain ⟨location, text⟩ := site
      obtain ⟨low, begins, more⟩ := sites
      rw [compareBack]
      split
      · rename_i same
        subst same
        refine ih (by simp [isLabels]) more ?_
        split
        · refine Or.inr ⟨location, needle :: done, by simp, ⟨?_, begins, low⟩⟩
          exact ⟨needles.reverse, by simp [isLabels]⟩
        · exact found
      · exact found

theorem sitesBack_concat {location : Nat} {text : Text} (low : location < limit)
    (sites : SitesBack buffer floor limit done haystack)
    (begins : Begins buffer floor location (text :: ((haystack.map Prod.snd).reverse ++ done))) :
    SitesBack buffer floor limit done (haystack ++ [(location, text)]) := by
  induction haystack generalizing done with
  | nil => exact ⟨low, begins, trivial⟩
  | cons site haystack ih =>
    obtain ⟨isLow, isSite, more⟩ := sites
    exact ⟨isLow, isSite, ih more (by simpa using begins)⟩

/-- What the iterator has visited, from the end. -/
theorem sites_back {views : List View} (grows : GrownBehind floor view buffer)
    (small : view.length ≤ limit) (sites : Sites view floor labels views) :
    ∃ root haystack, (views.map fun site =>
        (site.start - 1, (view.drop site.start).take site.length)).reverse = (root, []) :: haystack ∧
      haystack.map Prod.snd = labels.reverse ∧ root < limit ∧ Begins buffer floor root [] ∧
      SitesBack buffer floor limit [] haystack := by
  induction labels generalizing views with
  | nil =>
    match views, sites with
    | [root], ⟨empty, _, begins⟩ =>
      exact ⟨root.start - 1, [], by simp [empty], rfl, Nat.lt_of_lt_of_le begins.inside small,
        begins.grown grows, trivial⟩
  | cons text rest ih =>
    match views, sites with
    | site :: views, ⟨length, stored, _, begins, more⟩ =>
      obtain ⟨root, haystack, isReverse, texts, low, isRoot, back⟩ := ih more
      refine ⟨root, haystack ++ [(site.start - 1, text)], ?_, by simp [texts], low, isRoot, ?_⟩
      · rw [map_cons, reverse_cons, isReverse, length, stored.take_drop, cons_append]
      · refine sitesBack_concat
          (Nat.lt_of_lt_of_le begins.inside small) back ?_
        rw [texts, reverse_reverse, append_nil]
        exact begins.grown grows

/-- Iterating a name, or a part of one, as it was written. -/
theorem iterate_back (grows : GrownBehind floor view buffer) (small : view.length ≤ limit)
    (spelled : Spelled view floor start position labels extent) (begun : start ≤ position) :
    ∃ pairs root haystack, iterate view position (labels.length + 1) = .ok pairs ∧
      pairs.reverse = (root, []) :: haystack ∧ haystack.map Prod.snd = labels.reverse ∧
      root < limit ∧ Begins buffer floor root [] ∧ SitesBack buffer floor limit [] haystack := by
  obtain ⟨views, sites, visited⟩ := visit_spelled spelled begun
  obtain ⟨root, haystack, back⟩ := sites_back grows small sites
  refine ⟨_, root, haystack, ?_, back⟩
  rw [iterate, visited _ (Nat.le_refl _), bind_ok]
  exact mapM_views sites.inside

/-- Iterating a name of the message. -/
theorem iterate_known (isKnown : Known buffer floor known labels)
    (small : known.viewSize ≤ limit) :
    ∃ pairs root haystack,
      iterate (buffer.take known.viewSize) known.offset known.count = .ok pairs ∧
      pairs.reverse = (root, []) :: haystack ∧ haystack.map Prod.snd = labels.reverse ∧
      root < limit ∧ Begins buffer floor root [] ∧ SitesBack buffer floor limit [] haystack := by
  obtain ⟨⟨extent, spelled⟩, count⟩ := isKnown
  rw [count]
  refine iterate_back (GrownBehind.take floor buffer known.viewSize) ?_ spelled (Nat.le_refl _)
  rw [length_take]
  omega

/-- The labels from a place on. -/
theorem iterate_spelled (spelled : Spelled buffer floor start position labels extent)
    (begun : start ≤ position) :
    ∃ pairs, iterate buffer position (labels.length + 1) = .ok pairs ∧
      pairs.map Prod.snd = labels ++ [[]] := by
  obtain ⟨pairs, root, haystack, iterated, reversed, texts, _⟩ :=
    iterate_back (GrownBehind.refl floor buffer) (Nat.le_refl _) spelled begun
  refine ⟨pairs, iterated, ?_⟩
  have isPairs := congrArg reverse reversed
  rw [reverse_reverse] at isPairs
  rw [isPairs, map_reverse, map_cons, texts, reverse_cons, reverse_reverse]

/-- The whole comparison, the roots included. -/
theorem compareBack_known {root : Nat} (low : root < limit) (isRoot : Begins buffer floor root [])
    (sites : SitesBack buffer floor limit [] haystack)
    (found : Found buffer floor limit labels best) :
    Found buffer floor limit labels
      (compareBack best 0 (labels ++ [[]]).reverse ((root, []) :: haystack)) := by
  rw [reverse_append, reverse_singleton, singleton_append, compareBack, if_pos rfl]
  refine compareBack_found (by simp) sites ?_
  split
  · exact Or.inr ⟨root, [], rfl, ⟨nil_suffix, isRoot, low⟩⟩
  · exact found

theorem Found.count_le (found : Found buffer floor limit labels best) :
    best.count ≤ labels.length + 1 := by
  rcases found with none | ⟨location, rest, isMatch, matched⟩
  · rw [none]
    exact Nat.zero_le _
  · rw [isMatch]
    have := matched.ends.length_le
    simp only
    omega

/-- The search returns a match, or nothing if there are no names. The flag says that all
of the name was found. -/
theorem search_spec (table : Table buffer floor limit existing)
    (found : Found buffer floor limit labels best) (short : best.count ≤ labels.length) :
    ∃ final full, search buffer (labels ++ [[]]) (labels.length + 1) existing best =
        .ok (final, full) ∧ Found buffer floor limit labels final ∧
      (full = true ↔ final.count = labels.length + 1) := by
  induction existing generalizing best with
  | nil => exact ⟨best, false, rfl, found, by simp; omega⟩
  | cons known rest ih =>
    have later := fun other member => table other (mem_cons_of_mem known member)
    rw [search]
    split
    · exact ih later found short
    · obtain ⟨small, names, isKnown⟩ := table known mem_cons_self
      obtain ⟨pairs, root, haystack, iterated, reversed, _, low, isRoot, sites⟩ :=
        iterate_known isKnown small
      rw [iterated, bind_ok, reversed]
      have next := compareBack_known low isRoot sites found
      simp only
      split
      · rename_i all
        exact ⟨_, true, rfl, next, by simpa using all⟩
      · have bound := next.count_le
        exact ih later next (by omega)

/-- The name and the match that is chosen for it. -/
theorem choose_spec (named : Named fqdn labels)
    (table : Table buffer floor limit existing) :
    ∃ best fullMatch, choose fqdn existing buffer = .ok (labels ++ [[]], best, fullMatch) ∧
      Found buffer floor limit labels best ∧
      (fullMatch = true ↔ best.count = labels.length + 1) := by
  obtain ⟨pairs, iterated, texts⟩ := named.iterated
  obtain ⟨best, fullMatch, searched, found, isFull⟩ := search_spec table
    (Or.inl rfl) (Nat.zero_le _)
  refine ⟨best, fullMatch, ?_, found, isFull⟩
  simp only [choose, iterated, bind_ok, texts]
  rw [named.count, searched, bind_ok]

/-- A pointer is all that is written then. -/
theorem nameBytes_full (labels : List Text) (location : Nat) :
    nameBytes (labels ++ [[]]) ⟨some location, labels.length + 1⟩ = pointerBytes location := by
  simp [nameBytes]

end search

section writing

variable {buffer : Buffer} {floor limit : Nat}

/-- Labels in front of the rest of a name. -/
theorem spelled_labels {front rest : List Text} {start position extent : Nat}
    (filled : ∀ text ∈ front, text ≠ [] ∧ text.length ≤ 63) (behind : floor ≤ position)
    (stored : PartAt buffer position (front.flatMap labelBytes))
    (tail : Spelled buffer floor start (position + (front.flatMap labelBytes).length) rest extent) :
    Spelled buffer floor start position (front ++ rest)
      ((front.flatMap labelBytes).length + extent) := by
  induction front generalizing position with
  | nil => simpa using tail
  | cons text front ih =>
    obtain ⟨notEmpty, short⟩ := filled text mem_cons_self
    have length : (labelBytes text).length = 1 + text.length := by
      rw [labelBytes, length_cons, Nat.add_comm]
    rw [flatMap_cons] at stored tail ⊢
    obtain ⟨here, more⟩ := PartAt.append_iff.mp stored
    rw [length_append, length] at tail ⊢
    rw [length, ← Nat.add_assoc] at more
    have near := tail.above
    have behindText := ih
      (fun other member => filled other (mem_cons_of_mem text member)) (by omega) more
      (by simpa [Nat.add_assoc] using tail)
    rw [Nat.add_assoc (1 + text.length)]
    exact .label start position _ text (front ++ rest) behind (by omega) notEmpty short here behindText

/-- What is written for a match is the name. -/
theorem nameBytes_spelled {labels : List Text} {best : Match}
    (filled : ∀ text ∈ labels, text ≠ [] ∧ text.length ≤ 63) (behind : floor ≤ buffer.length)
    (found : Found buffer floor limit labels best)
    (low : ∀ location ∈ best.location, location < 16384)
    (near : (buffer ++ nameBytes (labels ++ [[]]) best).length ≤ 65535) :
    Spelled (buffer ++ nameBytes (labels ++ [[]]) best) floor buffer.length buffer.length labels
      (nameBytes (labels ++ [[]]) best).length := by
  rcases found with none | ⟨location, rest, isMatch, ⟨front, isLabels⟩, begins, _⟩
  · have isName : nameBytes (labels ++ [[]]) best = labels.flatMap labelBytes ++ [0] := by
      rw [none, nameBytes, Nat.sub_zero, take_length]
      simp [labelBytes]
    rw [isName] at near ⊢
    rw [length_append, length_append, length_singleton] at near
    have stored := PartAt.at_end buffer (labels.flatMap labelBytes ++ [0]) []
    have tail := Spelled.root buffer.length (buffer.length + (labels.flatMap labelBytes).length)
      (by omega : floor ≤ _) (by omega) stored.right
    have whole := spelled_labels filled behind stored.left tail
    simpa using whole
  · subst isLabels
    have isName : nameBytes (front ++ rest ++ [[]]) best =
        front.flatMap labelBytes ++ pointerBytes location := by
      have count : (front ++ rest ++ [([] : Text)]).length - (rest.length + 1) = front.length := by
        simp only [length_append, length_singleton]
        omega
      rw [nameBytes, isMatch, count, append_assoc, take_left]
      rfl
    obtain ⟨origin, extent, first, begun, isFirst, plain, spelled⟩ := begins
    have inside := spelled.inside
    have grows := GrownBehind.append floor buffer (front.flatMap labelBytes ++ pointerBytes location)
      behind
    rw [isName] at near ⊢
    have stored := PartAt.at_end buffer (front.flatMap labelBytes ++ pointerBytes location) []
    rw [append_nil] at stored
    have two : (pointerBytes location).length = 2 := rfl
    rw [length_append, length_append, two] at near
    have tail : Spelled (buffer ++ (front.flatMap labelBytes ++ pointerBytes location)) floor
        buffer.length (buffer.length + (front.flatMap labelBytes).length) rest 2 :=
      .pointer buffer.length _ origin location extent first rest (by omega) (by omega) stored.right
        (low location (by rw [isMatch]; rfl)) inside begun
        (by rw [getElem?_append_left inside, isFirst]) plain (spelled.grown grows)
    have whole := spelled_labels
      (fun text member => filled text (mem_append_left rest member)) behind stored.left tail
    rwa [← two, ← length_append] at whole

theorem nameBytes_ne_nil (labels : List Text) (best : Match)
    (found : Found buffer floor limit labels best) : nameBytes (labels ++ [[]]) best ≠ [] := by
  rcases found with none | ⟨location, rest, isMatch, _⟩
  · have all : (labels ++ [([] : Text)]).take (labels.length + 1) = labels ++ [[]] :=
      take_of_length_le (by simp)
    simp [none, nameBytes, labelBytes, all]
  · simp [isMatch, nameBytes, pointerBytes]

variable {name other : Buffer} {fqdn : Labels}

theorem Known.grown {known : KnownName} (isKnown : Known buffer floor known labels)
    (inside : known.viewSize ≤ buffer.length) (grows : GrownBehind floor buffer other) :
    Known other floor known labels := by
  obtain ⟨⟨extent, spelled⟩, count⟩ := isKnown
  exact ⟨⟨extent, spelled.grown (grows.take_both inside)⟩, count⟩

variable {existing : List KnownName}

/-- The names stay known when the buffer grows. -/
theorem Table.grown (table : Table buffer floor limit existing) (small : limit ≤ buffer.length)
    (grows : GrownBehind floor buffer other) : Table other floor limit existing := by
  intro known member
  obtain ⟨short, labels, isKnown⟩ := table known member
  exact ⟨short, labels, isKnown.grown (by omega) grows⟩

theorem Table.raised {more : Nat}
    (table : Table buffer floor limit existing) (larger : limit ≤ more) :
    Table buffer floor more existing := fun known member =>
  ⟨Nat.le_trans (table known member).1 larger, (table known member).2⟩

/-- The name that is added to the table. -/
def newName (buffer name : Buffer) (labels : List Text) : KnownName :=
  ⟨buffer.length, (buffer ++ name).length, labels.length + 1⟩

theorem newName_known
    (spelled : Spelled (buffer ++ name) floor buffer.length buffer.length labels name.length) :
    Known (buffer ++ name) floor (newName buffer name labels) labels := by
  refine ⟨⟨name.length, ?_⟩, rfl⟩
  rwa [newName, take_length]

/-- A name that is written: it can be read where it was written, and the table knows it
or knew it before. -/
structure Writes (fqdn : Labels) (existing : List KnownName) (buffer : Buffer) (maxLen floor : Nat)
    (labels : List Text) (name : Buffer) : Prop where
  filled : name ≠ []
  appended : ∀ length written known, writeLabels fqdn existing buffer maxLen =
    .ok (length, written, known) → length = name.length ∧ written = buffer ++ name
  done : (buffer ++ name).length ≤ 65535 →
    Spelled (buffer ++ name) floor buffer.length buffer.length labels name.length ∧
    ∃ known, writeLabels fqdn existing buffer maxLen = .ok (name.length, buffer ++ name, known) ∧
      (known = existing ∨ known = existing ++ [newName buffer name labels])

/-- A name that is short enough is written. -/
theorem writeLabels_chosen (existing : List KnownName) (maxLen : Nat) (needle : List Text)
    (best : Match) (fullMatch : Bool) (notRoot : fqdn.bytes ≠ 1)
    (chosen : choose fqdn existing buffer = .ok (needle, best, fullMatch))
    (short : maxLen = 0 ∨ (nameBytes needle best).length < maxLen) :
    writeLabels fqdn existing buffer maxLen =
      if fullMatch then
        .ok ((nameBytes needle best).length, buffer ++ nameBytes needle best, existing)
      else
        Labels.parse (buffer ++ nameBytes needle best) buffer.length >>= fun added =>
          .ok ((nameBytes needle best).length, buffer ++ nameBytes needle best,
            existing ++ [⟨added.offset, (buffer ++ nameBytes needle best).length, added.count⟩]) := by
  rw [writeLabels, if_neg notRoot, chosen, bind_ok]
  simp only
  rw [if_neg (by omega)]

/-- A name is refused or written, if the match that is chosen can be written. -/
theorem writeLabels_spec (maxLen : Nat) (named : Named fqdn labels)
    (table : Table buffer floor limit existing) (behind : floor ≤ buffer.length)
    (low : fqdn.bytes ≠ 1 → ∀ needle best fullMatch,
      choose fqdn existing buffer = .ok (needle, best, fullMatch) →
      ∀ location ∈ best.location, location < 16384) :
    writeLabels fqdn existing buffer maxLen = .ok (0, buffer, existing) ∨
      ∃ name, Writes fqdn existing buffer maxLen floor labels name := by
  rw [writeLabels]
  by_cases isRoot : fqdn.bytes = 1
  · rw [if_pos isRoot]
    split
    · exact Or.inl rfl
    · rename_i room
      have run : writeLabels fqdn existing buffer maxLen = .ok (1, buffer ++ [0], existing) := by
        rw [writeLabels, if_pos isRoot, if_neg room]
      refine Or.inr ⟨[0], by simp, ?_, ?_⟩
      · intro length written known same
        rw [run] at same
        cases same
        exact ⟨rfl, rfl⟩
      · intro near
        rw [length_append, length_singleton] at near
        rw [named.rooted isRoot]
        have stored := PartAt.at_end buffer [0] []
        exact ⟨.root _ _ behind (by omega) stored, existing, run, Or.inl rfl⟩
  · rw [if_neg isRoot]
    obtain ⟨best, fullMatch, chosen, found, _⟩ := choose_spec named table
    by_cases room : maxLen = 0 ∨ (nameBytes (labels ++ [[]]) best).length < maxLen
    · have run := writeLabels_chosen existing maxLen _ best fullMatch isRoot chosen room
      refine Or.inr ⟨nameBytes (labels ++ [[]]) best, nameBytes_ne_nil labels best found, ?_, ?_⟩
      · intro length written known same
        rw [run] at same
        split at same
        · cases same
          exact ⟨rfl, rfl⟩
        · rw [bind_eq_ok] at same
          obtain ⟨_, _, same⟩ := same
          cases same
          exact ⟨rfl, rfl⟩
      · intro near
        have spelled := nameBytes_spelled named.filled behind found
          (low isRoot _ best fullMatch chosen) near
        refine ⟨spelled, ?_⟩
        rw [run]
        split
        · exact ⟨existing, rfl, Or.inl rfl⟩
        · rw [parse_spelled _ floor buffer.length _ spelled named.size, bind_ok]
          exact ⟨_, rfl, Or.inr rfl⟩
    · rw [chosen, bind_ok]
      simp only
      rw [if_pos (by omega)]
      exact Or.inl rfl

/-- The table after a name was written. -/
theorem Table.written {known : List KnownName} (table : Table buffer floor limit existing)
    (small : limit ≤ buffer.length) (behind : floor ≤ buffer.length)
    (spelled : Spelled (buffer ++ name) floor buffer.length buffer.length labels name.length)
    (added : known = existing ∨ known = existing ++ [newName buffer name labels]) :
    Table (buffer ++ name) floor (buffer ++ name).length known := by
  have old : Table (buffer ++ name) floor (buffer ++ name).length existing := by
    refine (table.grown small (GrownBehind.append floor buffer name behind)).raised ?_
    rw [length_append]
    omega
  rcases added with rfl | rfl
  · exact old
  · intro entry member
    rcases mem_append.mp member with before | new
    · exact old entry before
    · rw [mem_singleton] at new
      rw [new]
      exact ⟨Nat.le_refl _, labels, newName_known spelled⟩

end writing

end WriteLabels

end Nsblast
