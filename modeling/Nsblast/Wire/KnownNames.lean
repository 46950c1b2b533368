import Nsblast.Wire.MessageRoundTrip

/-!
# Records of names that are known

The compressor goes over the names of the message one by one. Here is what it finds in a name
of one label, which is the one that is looked for or has only the root in common with it, and
what a message looks like behind a record whose name is written as a pointer, or with a pointer
to the longest common end.

The limit is that of large messages: the message may be longer than a pointer reaches.
-/

namespace Nsblast.Wire.MessageBuilder

open List hiding choose iterate
open Buffer Labels WriteLabels Message Run

variable {fqdn : Labels} {labels : List Text} {record : OwnRr} {data : RrData} {isQuestion : Bool}

section names

/-- A name that is written out has two bytes more than its text. -/
theorem length_labelBytes (size : Nat) (filled : ∀ text ∈ labels, text ≠ []) :
    (labels.flatMap labelBytes).length + size ≤ textSize size labels + (if size = 0 then 1 else 0) := by
  induction labels generalizing size with
  | nil => simp [textSize]
  | cons text rest ih =>
    have positive := length_pos_iff.mpr (filled text mem_cons_self)
    have later := fun size => ih size fun other member => filled other (mem_cons_of_mem _ member)
    rw [textSize, flatMap_cons, length_append, labelBytes, length_cons]
    by_cases empty : size = 0
    · have here := later (0 + text.length)
      rw [if_neg (by omega)] at here
      rw [if_pos empty, if_pos empty]
      omega
    · have here := later (size + 1 + text.length)
      rw [if_neg (by omega)] at here
      rw [if_neg empty, if_neg empty]
      omega

theorem length_nameBytes_le (best : Match) (filled : ∀ text ∈ labels, text ≠ []) :
    (nameBytes (labels ++ [[]]) best).length ≤ textSize 0 labels + 4 := by
  have all := length_labelBytes 0 filled
  have whole : ((labels ++ [[]]).flatMap labelBytes).length = (labels.flatMap labelBytes).length + 1 := by
    rw [flatMap_append, length_append]
    rfl
  have parts := take_append_drop ((labels ++ [[]]).length - best.count) (labels ++ [([] : Text)])
  rw [← parts, flatMap_append, length_append] at whole
  have pointer : (best.location.elim [] pointerBytes).length ≤ 2 := by
    cases best.location with
    | none => exact Nat.zero_le 2
    | some location => exact Nat.le_refl 2
  rw [nameBytes, length_append]
  rw [if_pos rfl] at all
  omega

/-- Only the name of the root takes one byte. -/
theorem notRoot_of_named (named : Named fqdn labels) (filled : labels ≠ []) : fqdn.bytes ≠ 1 :=
  fun isRoot => filled (named.rooted isRoot)

/-- The labels of a record that is valid. -/
theorem OwnRr.Content.labels_eq {fields : List UInt8}
    (content : record.Content isQuestion data fqdn labels fields) :
    data.labels = labels ++ [[]] := by
  have reads := content.reads
  simp only [fieldsData, bind_eq_ok] at reads
  obtain ⟨_, _, _, _, reads⟩ := reads
  split at reads
  · cases reads
    rfl
  · rw [bind_eq_ok] at reads
    obtain ⟨_, _, isData⟩ := reads
    cases isData
    rfl

/-- A name takes no more bytes than its text and three more. -/
theorem bytes_le {own : Buffer} {offset : Nat}
    (parsed : Labels.parse own offset = .ok fqdn) : fqdn.bytes ≤ 257 := by
  obtain ⟨views, spec⟩ := parse_accepted parsed
  have bound := extent_bound 0 spec.name
  have size := spec.size
  have fits := spec.fits
  rw [if_pos rfl] at bound
  omega

variable {fields : List UInt8}

/-- The bytes behind the name of a record are those of its fields and its data. -/
theorem fields_of_content (content : record.Content false data fqdn labels fields) :
    fields.length = 10 + data.rdata.length ∧ fields.drop 10 = data.rdata := by
  have long : 10 ≤ fields.length := by
    have isFields := content.isFields
    exact isFields.1
  have reads := content.reads
  simp only [fieldsData, Bool.false_eq_true, if_false, bind_eq_ok] at reads
  obtain ⟨_, _, _, _, _, _, isData⟩ := reads
  cases isData
  refine ⟨?_, rfl⟩
  rw [length_drop]
  omega

end names

section search

variable {buffer : Buffer} {floor limit : Nat} {known : KnownName} {text needle : Text}

/-- What is found in the table is what is chosen. -/
theorem choose_of_search {existing : List KnownName} {best : Match} {fullMatch : Bool}
    (named : Named fqdn labels)
    (searched : search buffer (labels ++ [[]]) (labels.length + 1) existing {} = .ok (best, fullMatch)) :
    choose fqdn existing buffer = .ok (labels ++ [[]], best, fullMatch) := by
  obtain ⟨pairs, iterated, texts⟩ := named.iterated
  rw [choose, iterated, bind_ok, texts, named.count]
  simp [searched]

/-- A name of one label begins with it, unless it begins with a pointer. -/
theorem iterate_head {offset count : Nat} {byte : UInt8} {pairs : List (Nat × Text)}
    (isByte : buffer[offset]? = some byte) (plain : isPointer byte = false)
    (iterated : iterate buffer offset (count + 1) = .ok pairs) :
    ∃ text rest, pairs = (offset, text) :: rest := by
  have isRead := (read_eq_ok buffer offset byte).mpr isByte
  have lands := followPointers_plain maxPtrsInARow isByte plain
  simp only [iterate, visit, update, lands, isRead, bind_ok, bind_eq_ok] at iterated
  obtain ⟨views, ⟨_, ⟨_, _, isCurrent⟩, visited⟩, mapped⟩ := iterated
  cases isCurrent
  obtain ⟨later, rfl⟩ : ∃ later, views = ⟨offset + 1, byte.toNat⟩ :: later := by
    split at visited
    · cases visited
      exact ⟨[], rfl⟩
    · rw [bind_eq_ok] at visited
      obtain ⟨later, _, visited⟩ := visited
      cases visited
      exact ⟨later, rfl⟩
  simp only [mapM_cons, bind_eq_ok] at mapped
  obtain ⟨_, ⟨text, _, isHead⟩, rest, _, isPairs⟩ := mapped
  cases isHead
  cases isPairs
  exact ⟨text, rest, rfl⟩

/-- A name of one label consists of that and the root. -/
theorem iterate_one (isKnown : Known buffer floor known [text]) (small : known.viewSize ≤ limit) :
    ∃ place root, iterate (buffer.take known.viewSize) known.offset 2 =
      .ok [(place, text), (root, [])] ∧ root < limit ∧ Begins buffer floor root [] := by
  obtain ⟨pairs, root, haystack, iterated, reversed, texts, low, begins, _⟩ :=
    iterate_known isKnown small
  obtain ⟨⟨place, same⟩, rfl, rfl⟩ :=
    map_eq_singleton_iff.mp (texts : haystack.map Prod.snd = [text])
  refine ⟨place, root, ?_, low, begins⟩
  rw [isKnown.count] at iterated
  rw [← reverse_reverse pairs, reversed] at iterated
  exact iterated

/-- A name with another label has only the root in common. -/
theorem search_apart (isKnown : Known buffer floor known [text]) (small : known.viewSize ≤ limit)
    (other : needle ≠ text) (rest : List KnownName) :
    ∃ root, root < limit ∧ Begins buffer floor root [] ∧
      search buffer [needle, []] 2 (known :: rest) {} =
        search buffer [needle, []] 2 rest ⟨some root, 1⟩ := by
  obtain ⟨place, root, iterated, low, begins⟩ := iterate_one isKnown small
  have two : known.count = 2 := isKnown.count
  refine ⟨root, low, begins, ?_⟩
  rw [search, two, if_neg (by simp), iterated, bind_ok]
  simp [compareBack, other]

/-- A name that is the same one is found where it begins. -/
theorem search_same (isKnown : Known buffer floor known [needle]) {byte : UInt8}
    (isByte : (buffer.take known.viewSize)[known.offset]? = some byte)
    (plain : isPointer byte = false) {best : Match} (few : best.count < 2) :
    search buffer [needle, []] 2 [known] best = .ok (⟨some known.offset, 2⟩, true) := by
  obtain ⟨place, root, iterated, _⟩ := iterate_one isKnown (Nat.le_refl _)
  obtain ⟨_, _, isPairs⟩ := iterate_head isByte plain iterated
  cases isPairs
  have two : known.count = 2 := isKnown.count
  obtain ⟨location, count⟩ := best
  rw [search, two, if_neg (by simpa using few), iterated, bind_ok]
  obtain rfl | rfl : count = 0 ∨ count = 1 := by
    simp only at few
    omega
  all_goals simp [compareBack]

end search

section added

variable {builder next : MessageBuilder} {front fields name : List UInt8} {counts : Segment → Nat}

/-- A record was added as an answer, its name in the given bytes. -/
structure Appends (builder next : MessageBuilder) (front : List UInt8) (counts : Segment → Nat)
    (name fields : List UInt8) : Prop where
  same : next.rcode = builder.rcode ∧ next.opt = builder.opt ∧
    next.maxBufferSize = builder.maxBufferSize
  header : ∃ body, next.buffer = headerBytes front (counted counts .answer) ++ body
  grows : GrownBehind headerSize (builder.buffer ++ name) next.buffer
  length : next.buffer.length = builder.buffer.length + name.length + fields.length
  isName : PartAt next.buffer builder.buffer.length name
  isFields : PartAt next.buffer (builder.buffer.length + name.length) fields

/-- A record whose name has been written, in a builder with room for the record. -/
theorem written_added {table : List KnownName} {length : Nat}
    (content : record.Content false data fqdn labels fields) (sound : Sound builder front counts)
    (limit : builder.maxBufferSize = 65535)
    (room : builder.buffer.length + data.rdata.length < 65000) (few : name.length ≤ 258)
    (wrote : writeLabels fqdn builder.labels builder.buffer builder.maxBufferSize =
      .ok (length, builder.buffer ++ name, table)) (notZero : length ≠ 0) :
    ∃ next, builder.addRr record.own record.rr .answer = .ok (true, next) ∧ next.labels = table ∧
      Appends builder next front counts name fields := by
  obtain ⟨size, _⟩ := fields_of_content content
  have bytes := bytes_le content.parsed
  have whole := content.size
  have long := sound.long
  have named : (builder.buffer ++ name).length = builder.buffer.length + name.length :=
    length_append
  have total : (builder.buffer ++ name ++ fields).length = (builder.buffer ++ name).length +
    fields.length := length_append
  obtain ⟨body, added, grows, longer⟩ := addRr_room .answer sound content (by omega) wrote notZero
    (by omega) (by omega)
  have behind : GrownBehind headerSize (builder.buffer ++ name)
      (headerBytes front (counted counts .answer) ++ body) :=
    (GrownBehind.append _ _ fields (by simp only [headerSize]; omega)).trans grows
  have isName := PartAt.at_end builder.buffer name []
  have isFields := PartAt.at_end (builder.buffer ++ name) fields []
  rw [append_nil] at isName isFields
  rw [named] at isFields
  exact ⟨_, added, rfl, ⟨rfl, rfl, rfl⟩, ⟨body, rfl⟩, behind, by simp only; omega,
    isName.grown behind long, isFields.grown grows (by simp only [headerSize]; omega)⟩

/-- A record of a name of the message is written with a pointer. -/
theorem pointed_added {location : Nat} (content : record.Content false data fqdn labels fields)
    (filled : labels ≠ []) (sound : Sound builder front counts) (limit : builder.maxBufferSize = 65535)
    (room : builder.buffer.length + data.rdata.length < 65000)
    (chosen : choose fqdn builder.labels builder.buffer =
      .ok (labels ++ [[]], ⟨some location, labels.length + 1⟩, true)) :
    ∃ next, builder.addRr record.own record.rr .answer = .ok (true, next) ∧
      next.labels = builder.labels ∧
      Appends builder next front counts (pointerBytes location) fields := by
  have isName := nameBytes_full labels location
  have two : (pointerBytes location).length = 2 := rfl
  have wrote := writeLabels_chosen builder.labels builder.maxBufferSize _ _ _
    (notRoot_of_named content.named filled) chosen (.inr (by rw [isName]; omega))
  rw [if_pos rfl, isName] at wrote
  exact written_added content sound limit room (by omega) wrote (by omega)

/-- A record whose name is written up to a match in front of 16384. The name is known from
there on. -/
theorem named_added {best : Match} (content : record.Content false data fqdn labels fields)
    (filled : labels ≠ []) (sound : Sound builder front counts)
    (limit : builder.maxBufferSize = 65535)
    (room : builder.buffer.length + data.rdata.length < 65000)
    (chosen : choose fqdn builder.labels builder.buffer = .ok (labels ++ [[]], best, false))
    (found : Found builder.buffer headerSize 16384 labels best) :
    ∃ next, builder.addRr record.own record.rr .answer = .ok (true, next) ∧
      next.labels = builder.labels ++
        [newName builder.buffer (nameBytes (labels ++ [[]]) best) labels] ∧
      Appends builder next front counts (nameBytes (labels ++ [[]]) best) fields ∧
      LowMatch builder record ∧
      Known next.buffer headerSize
        (newName builder.buffer (nameBytes (labels ++ [[]]) best) labels) labels := by
  have textual := content.named.size
  have low : ∀ location ∈ best.location, location < 16384 := by
    intro location member
    rcases found with none | ⟨other, rest, isMatch, matched⟩
    · rw [none] at member
      cases member
    · rw [isMatch] at member
      cases member
      exact matched.low
  obtain ⟨name, isName⟩ : ∃ name, name = nameBytes (labels ++ [[]]) best := ⟨_, rfl⟩
  have few := length_nameBytes_le best fun text member => (content.named.filled text member).1
  have notEmpty := nameBytes_ne_nil labels best found
  rw [← isName] at few notEmpty
  have whole : (builder.buffer ++ name).length = builder.buffer.length + name.length :=
    length_append
  have spelled := nameBytes_spelled content.named.filled sound.long found low
    (by rw [← isName, whole]; omega)
  have wrote := writeLabels_chosen builder.labels builder.maxBufferSize _ _ _
    (notRoot_of_named content.named filled) chosen (.inr (by rw [← isName]; omega))
  rw [← isName] at spelled wrote ⊢
  rw [if_neg Bool.false_ne_true, parse_spelled _ _ _ _ spelled textual, bind_ok] at wrote
  obtain ⟨next, added, table, appends⟩ := written_added content sound limit room (by omega)
    wrote fun zero => notEmpty (eq_nil_of_length_eq_zero zero)
  refine ⟨next, added, table, appends, ?_, (newName_known spelled).grown (Nat.le_refl _) appends.grows⟩
  intro fqdn' needle best' fullMatch isLabels _ chosen'
  cases content.parsed.symm.trans isLabels
  cases chosen.symm.trans chosen'
  exact low

end added

end Nsblast.Wire.MessageBuilder
