import Nsblast.Wire.CompressionPointers

/-!
# Filling a message

The answers to a question are added until one does not fit. Then the flag TC is set and
no more are tried. The name of the refused record may stay in the table of names although
it was cut off; all that is added behind it is a record of the root, for which the table
is not consulted.

A record is added or refused if its name can be written. The condition is on the places: the
name ends within the 65535 bytes that an offset reaches, and if it ends with a pointer, the
place the pointer was chosen for has fourteen bits. A message that ends in front of 16384
meets it for every record.
-/

namespace Nsblast.Wire.MessageBuilder

open Buffer Labels WriteLabels List Run NewHeader Message

/-- Several calls of `addRr` for the answer section, up to the first that is refused. The
flag tells whether there was none. -/
def addUntilFull : List OwnRr → MessageBuilder → Run (Bool × MessageBuilder)
  | [], builder => .ok (true, builder)
  | record :: rest, builder => do
      let (added, next) ← builder.addRr record.own record.rr .answer
      if added then addUntilFull rest next else .ok (false, next)

/-- The first bytes of the header with the flag TC. -/
def withTc (front : List UInt8) : List UInt8 := front.modify 2 (withFlag 0x02 true)

variable {builder next : MessageBuilder} {front : List UInt8} {counts : Segment → Nat}

/-- Without its table, a message is as sound as before. -/
theorem Sound.forget (sound : Sound builder front counts) :
    Sound { builder with labels := [] } front counts :=
  ⟨sound.four, sound.header, sound.bounded, fun _ member => nomatch member⟩

variable {data : RrData} {fqdn : Labels} {isQuestion : Bool}

section refused

/-- One of the first bytes is changed. -/
theorem modify_headerBytes (front body : List UInt8) (counts : Segment → Nat) {location : Nat}
    (change : UInt8 → UInt8) (four : front.length = 4) (inside : location < 4) :
    (headerBytes front counts ++ body).modify location change =
      headerBytes (front.modify location change) counts ++ body := by
  obtain ⟨b0, b1, b2, b3, rfl⟩ := length_eq_four.mp four
  obtain rfl | rfl | rfl | rfl : location = 0 ∨ location = 1 ∨ location = 2 ∨ location = 3 := by omega
  all_goals rfl

theorem changeFlags_headerBytes (front body : List UInt8) (counts : Segment → Nat) {location : Nat}
    (change : UInt8 → UInt8) (four : front.length = 4) (inside : location < 4) :
    changeFlags location change (headerBytes front counts ++ body) =
      .ok (headerBytes (front.modify location change) counts ++ body) := by
  have long : ¬ (headerBytes front counts ++ body).length < headerSize := by
    rw [length_append, length_headerBytes counts four, headerSize]
    omega
  rw [changeFlags, throwIf_of_not long, bind_ok,
    modify_headerBytes front body counts change four inside]

/-- What is left of a message after one of its first bytes was changed. -/
structure Reflagged (builder : MessageBuilder) (buffer : Buffer) (front : List UInt8)
    (counts : Segment → Nat) : Prop where
  sound : Sound { builder with buffer, labels := [] } front counts
  grows : GrownBehind headerSize builder.buffer buffer
  length : buffer.length = builder.buffer.length

theorem Sound.changeFlags (sound : Sound builder front counts) (location : Nat)
    (change : UInt8 → UInt8) (inside : location < 4) :
    ∃ buffer, changeFlags location change builder.buffer = .ok buffer ∧
      Reflagged builder buffer (front.modify location change) counts := by
  obtain ⟨body, isBuffer⟩ := sound.header
  have four := sound.four
  have other : (front.modify location change).length = 4 := by rw [length_modify, four]
  have before := length_headerBytes counts four
  have after := length_headerBytes counts other
  have same : (headerBytes (front.modify location change) counts ++ body).length =
      builder.buffer.length := by
    rw [isBuffer, length_append, length_append, before, after]
  refine ⟨headerBytes (front.modify location change) counts ++ body, ?_, ⟨other, ⟨body, rfl⟩, ?_, ?_⟩, ?_,
    same⟩
  · rw [isBuffer]
    exact changeFlags_headerBytes front body counts change four inside
  · intro segment
    have bounded := sound.bounded segment
    simp only [same]
    exact bounded
  · exact fun _ member => nomatch member
  · rw [isBuffer]
    exact GrownBehind.front _ before after

/-- A record is added or refused, if its name can be written. -/
theorem addRr_returns {record : OwnRr} {labels : List Text} {fields written : List UInt8}
    {known : List KnownName} {length : Nat} (segment : Segment) (sound : Sound builder front counts)
    (content : record.Content isQuestion data fqdn labels fields)
    (positive : 0 < builder.maxBufferSize) (limit : builder.maxBufferSize ≤ 65535)
    (wrote : writeLabels fqdn builder.labels builder.buffer builder.maxBufferSize =
      .ok (length, written, known)) :
    (∃ next, builder.addRr record.own record.rr segment = .ok (true, next)) ∨
      ∃ known, builder.addRr record.own record.rr segment =
        truncate { builder with labels := known } segment := by
  rw [addRr]
  split
  · exact .inr ⟨builder.labels, rfl⟩
  rw [content.parsed, bind_ok, wrote, bind_ok]
  simp only
  split
  · exact .inr ⟨builder.labels, rfl⟩
  rename_i notZero
  rw [content.length, bind_ok]
  split
  · exact .inr ⟨known, rfl⟩
  left
  obtain ⟨body, isBuffer⟩ := sound.header
  have bounded := sound.bounded segment
  obtain ⟨name, rfl⟩ : ∃ name, written = builder.buffer ++ name := by
    rcases writeLabels_appends wrote notZero with ⟨_, isWritten⟩ | ⟨_, _, _, _, _, isWritten⟩
    · exact ⟨_, isWritten⟩
    · exact ⟨_, isWritten⟩
  have increased := increment_headerBytes (body ++ (name ++ fields)) counts sound.four segment
    (by omega)
  rw [← append_assoc, ← isBuffer, ← append_assoc] at increased
  rw [content.copied (by omega), bind_ok, increased, bind_ok]
  exact ⟨_, rfl⟩

/-- For a record of the root, the table of names is not looked at. -/
theorem addRr_root (builder : MessageBuilder) {own : Buffer} {rr : Rr} (known : List KnownName)
    (segment : Segment) (isLabels : rr.labels own = .ok fqdn) (isRoot : fqdn.bytes = 1) :
    addRr { builder with labels := known } own rr segment =
      (addRr { builder with labels := [] } own rr segment >>= fun (added, next) =>
        .ok (added, { next with labels := known })) := by
  have cut : ∀ segment, truncate { builder with labels := known } segment =
      (truncate { builder with labels := [] } segment >>= fun (added, next) =>
        .ok (added, { next with labels := known })) := by
    intro segment
    simp only [truncate]
    split
    · rw [bind_assoc]
      rfl
    · rfl
  simp only [addRr, isLabels, bind_ok, writeLabels, isRoot, if_true]
  split
  · exact cut segment
  by_cases full : builder.buffer.length + 1 > builder.maxBufferSize
  · simp only [if_pos full, if_true]
    exact cut segment
  · simp only [if_neg full, one_ne_zero, if_false, bind_assoc]
    congr 1
    funext dataLen
    split
    · exact cut segment
    · simp

end refused

/-- What is known of a message to which some records were added as answers. -/
structure Filled (builder final : MessageBuilder) (front : List UInt8) (counts : Segment → Nat)
    (full : Bool) (added records : List RrData) : Prop where
  sound : Sound { final with labels := [] } (if full then front else withTc front)
    fun segment => if segment = .answer then counts segment + added.length else counts segment
  grows : GrownBehind headerSize builder.buffer final.buffer
  placed : PlacedAll final.buffer headerSize false builder.buffer.length added
    final.buffer.length
  limit : final.maxBufferSize = builder.maxBufferSize
  rcode : final.rcode = builder.rcode
  opt : final.opt = builder.opt
  short : final.buffer.length < builder.maxBufferSize
  all : full = true → added = records

/-- The name of a record can be written: it ends where an offset reaches, and the place that a
pointer was chosen for has fourteen bits. -/
def Addressable (builder : MessageBuilder) (record : OwnRr) : Prop :=
  ∀ fqdn needle best fullMatch, record.rr.labels record.own = .ok fqdn → fqdn.bytes ≠ 1 →
    choose fqdn builder.labels builder.buffer = .ok (needle, best, fullMatch) →
    (builder.buffer ++ nameBytes needle best).length ≤ 65535 ∧
      ∀ location ∈ best.location, location < 16384

/-- What is written for the name of a record ends where an offset reaches, and its pointer is
read as the place it was chosen for. -/
def PointsBack (builder : MessageBuilder) (record : OwnRr) : Prop :=
  ∀ fqdn needle best fullMatch, record.rr.labels record.own = .ok fqdn → fqdn.bytes ≠ 1 →
    choose fqdn builder.labels builder.buffer = .ok (needle, best, fullMatch) →
    (builder.buffer ++ nameBytes needle best).length ≤ 65535 ∧
      ∀ location ∈ best.location,
        resolvePtr (builder.buffer ++ nameBytes needle best)
          ((builder.buffer ++ nameBytes needle best).length - 2) = .ok location

/-- A pointer is read as the place it was chosen for exactly if that has fourteen bits. -/
theorem pointsBack_iff (builder : MessageBuilder) (record : OwnRr) :
    PointsBack builder record ↔ Addressable builder record := by
  refine forall₄_congr fun fqdn needle best fullMatch => ?_
  refine imp_congr_right fun _ => imp_congr_right fun _ => imp_congr_right fun _ => ?_
  refine and_congr_right fun _ => forall₂_congr fun location isLocation => ?_
  have stands := PartAt.at_end (builder.buffer ++
    (needle.take (needle.length - best.count)).flatMap labelBytes) (pointerBytes location) []
  have isName : builder.buffer ++ nameBytes needle best = builder.buffer ++
      (needle.take (needle.length - best.count)).flatMap labelBytes ++ pointerBytes location := by
    rw [nameBytes, Option.mem_def.mp isLocation, Option.elim_some, append_assoc]
  have two : (pointerBytes location).length = 2 := rfl
  rw [append_nil] at stands
  rw [isName, length_append, two, Nat.add_sub_cancel, resolvePtr_pointerBytes stands]
  simp only [ok.injEq]
  omega

/-- The records are offered one behind the other, and one that there is room for comes to a
message. -/
inductive Reaches : MessageBuilder → List OwnRr → MessageBuilder → OwnRr → Prop
  | here {builder : MessageBuilder} {record : OwnRr} {rest : List OwnRr}
      (room : builder.buffer.length + record.rr.size < builder.maxBufferSize) :
      Reaches builder (record :: rest) builder record
  | later {builder next reached : MessageBuilder} {record other : OwnRr} {rest : List OwnRr}
      (added : builder.addRr record.own record.rr .answer = .ok (true, next))
      (behind : Reaches next rest reached other) : Reaches builder (record :: rest) reached other

/-- A message of which nothing was added to is filled with nothing. -/
theorem Filled.nil (sound : Sound builder front counts)
    (short : builder.buffer.length < builder.maxBufferSize) :
    Filled builder builder front counts true [] [] := by
  refine ⟨?_, GrownBehind.refl _ _, rfl, rfl, rfl, rfl, short, fun _ => rfl⟩
  simpa using sound.forget

/-- A record that is refused sets the flag. -/
theorem Filled.refused (sound : Sound builder front counts) (known : List KnownName)
    (records : List RrData) (short : builder.buffer.length < builder.maxBufferSize) :
    ∃ final, truncate { builder with labels := known } .answer = .ok (false, final) ∧
      Filled builder final front counts false [] records := by
  obtain ⟨buffer, changed, reflagged⟩ := sound.changeFlags 2 (withFlag 0x02 true) (by omega)
  refine ⟨{ builder with buffer, labels := known }, ?_, ?_⟩
  · rw [truncate, if_pos rfl, setTc, changed, bind_ok]
  · refine ⟨?_, reflagged.grows, reflagged.length.symm, rfl, rfl, rfl, ?_, by simp⟩
    · simpa [withTc] using reflagged.sound
    · simp only [reflagged.length]
      exact short

/-- A record that is added stands in front of the later ones. -/
theorem Filled.cons {final : MessageBuilder} {full : Bool}
    {added records : List RrData} (adds : Adds builder next front counts .answer false data)
    (rcode : next.rcode = builder.rcode) (opt : next.opt = builder.opt)
    (later : Filled next final front (counted counts .answer) full added records) :
    Filled builder final front counts full (data :: added) (data :: records) := by
  obtain ⟨size, placed, length⟩ := adds.placed
  refine ⟨later.sound.congr fun segment => ?_, adds.grows.trans later.grows,
    ⟨size, placed.grown later.grows, ?_⟩, later.limit.trans adds.limit, later.rcode.trans rcode,
    later.opt.trans opt, ?_, fun isFull => by rw [later.all isFull]⟩
  · simp only [counted, length_cons]
    split <;> omega
  · rw [← length]
    exact later.placed
  · have short := later.short
    rw [adds.limit] at short
    exact short

section names

variable {labels : List Text} {record : OwnRr}

/-- The name of a record is written, if it can be. -/
theorem Addressable.writes (addressable : Addressable builder record)
    (sound : Sound builder front counts) (valid : record.Valid isQuestion data) :
    ∃ fqdn length written known, record.rr.labels record.own = .ok fqdn ∧
      writeLabels fqdn builder.labels builder.buffer builder.maxBufferSize =
        .ok (length, written, known) := by
  obtain ⟨fqdn, labels, fields, content⟩ := valid.content
  refine ⟨fqdn, ?_⟩
  by_cases isRoot : fqdn.bytes = 1
  · rw [writeLabels, if_pos isRoot]
    split
    · exact ⟨_, _, _, content.parsed, rfl⟩
    · exact ⟨_, _, _, content.parsed, rfl⟩
  obtain ⟨best, fullMatch, chosen, found, _⟩ := choose_spec
    content.named sound.table
  by_cases room : builder.maxBufferSize = 0 ∨
    (nameBytes (labels ++ [[]]) best).length < builder.maxBufferSize
  · obtain ⟨near, low⟩ := addressable fqdn _ best fullMatch content.parsed isRoot chosen
    have spelled := nameBytes_spelled content.named.filled sound.long found low near
    rw [writeLabels_chosen builder.labels builder.maxBufferSize _ best fullMatch isRoot chosen
      room, parse_spelled _ _ builder.buffer.length _ spelled content.named.size, bind_ok]
    split
    · exact ⟨_, _, _, content.parsed, rfl⟩
    · exact ⟨_, _, _, content.parsed, rfl⟩
  · rw [writeLabels, if_neg isRoot, chosen, bind_ok]
    simp only
    rw [if_pos (by omega)]
    exact ⟨_, _, _, content.parsed, rfl⟩

theorem Addressable.low (addressable : Addressable builder record) : LowMatch builder record :=
  fun fqdn needle best fullMatch isLabels notRoot chosen =>
    (addressable fqdn needle best fullMatch isLabels notRoot chosen).2

/-- In a message that is short, every name can be written. -/
theorem addressable_short (sound : Sound builder front counts) (valid : record.Valid isQuestion data)
    (short : builder.buffer.length ≤ 16384) : Addressable builder record := by
  intro fqdn needle best fullMatch isLabels notRoot chosen
  refine ⟨?_, sound.lowMatch short valid fqdn needle best fullMatch isLabels notRoot chosen⟩
  obtain ⟨fqdn', labels, fields, content⟩ := valid.content
  cases content.parsed.symm.trans isLabels
  obtain ⟨best', fullMatch', chosen', _⟩ := choose_spec content.named sound.table
  cases chosen.symm.trans chosen'
  have length := length_nameBytes_le best fun text member => (content.named.filled text member).1
  have size := content.named.size
  rw [length_append]
  omega

/-- The loop over the answers: as long as every name can be written, a record is added or
the flag is set, and then the loop is over. -/
theorem addUntilFull_fills {offered : List OwnRr} {records : List RrData}
    (sound : Sound builder front counts) (positive : 0 < builder.maxBufferSize)
    (limit : builder.maxBufferSize ≤ 65535) (short : builder.buffer.length < builder.maxBufferSize)
    (valid : List.Forall₂ (fun record data => OwnRr.Valid record false data) offered records)
    (addressable : ∀ reached record, Reaches builder offered reached record →
      Addressable reached record) :
    ∃ full final added, addUntilFull offered builder = .ok (full, final) ∧
      Filled builder final front counts full added records := by
  induction valid generalizing builder counts with
  | nil => exact ⟨true, builder, [], rfl, Filled.nil sound short⟩
  | @cons record data offered records isValid valid ih =>
    have refuse (known : List KnownName) (refused : builder.addRr record.own record.rr .answer =
        truncate { builder with labels := known } .answer) :
        ∃ full final added, addUntilFull (record :: offered) builder = .ok (full, final) ∧
          Filled builder final front counts full added (data :: records) := by
      obtain ⟨final, truncated, filled⟩ := Filled.refused sound known (data :: records) short
      refine ⟨false, final, [], ?_, filled⟩
      rw [addUntilFull, refused, truncated]
      rfl
    by_cases room : builder.buffer.length + record.rr.size < builder.maxBufferSize
    · have can := addressable builder record (.here room)
      obtain ⟨fqdn, labels, fields, content⟩ := isValid.content
      obtain ⟨fqdn', length, written, known, isLabels, wrote⟩ := can.writes sound isValid
      cases content.parsed.symm.trans isLabels
      rcases addRr_returns .answer sound content positive limit wrote with
        ⟨next, added⟩ | ⟨known, refused⟩
      · have adds := addRr_adds sound limit positive isValid can.low added
        have same := adds.limit
        have room := adds.short
        obtain ⟨_, _, _, _, _, _, _, _, _, _, _, _, _, _, isNext⟩ := addRr_eq_true record added
        obtain ⟨full, final, more, ran, filled⟩ := ih adds.sound (by omega) (by omega) (by omega)
          fun reached other behind => addressable reached other (.later added behind)
        refine ⟨full, final, data :: more, ?_, filled.cons adds (by rw [isNext]) (by rw [isNext])⟩
        rw [addUntilFull, added, bind_ok]
        exact ran
      · exact refuse known refused
    · exact refuse builder.labels (by rw [addRr, if_pos (by omega)])

/-- With a limit of at most 16384, every name can be written. -/
theorem addressable_of_limit {offered : List OwnRr} {records : List RrData}
    {reached : MessageBuilder} (sound : Sound builder front counts)
    (short : builder.buffer.length < builder.maxBufferSize) (low : builder.maxBufferSize ≤ 16384)
    (valid : List.Forall₂ (fun record data => OwnRr.Valid record false data) offered records)
    (reaches : Reaches builder offered reached record) : Addressable reached record := by
  induction reaches generalizing counts records with
  | here room =>
    cases valid with
    | cons isValid _ => exact addressable_short sound isValid (by omega)
  | later added _ ih =>
    cases valid with
    | cons isValid valid =>
      have adds := addRr_adds sound (by omega) (by omega) isValid
        (addressable_short sound isValid (by omega)).low added
      have same := adds.limit
      have room := adds.short
      exact ih adds.sound (by omega) (by omega) valid

end names

end Nsblast.Wire.MessageBuilder
