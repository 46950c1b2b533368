import Nsblast.Storage.EntryRoundTrip

/-!
# Offsets of sixteen bits

`StorageBuilder` keeps its buffer in a vector and its offsets in `uint16_t`: where a
record starts, where its name is, how long its data are, and where the index begins. The
buffer may outgrow them. Nothing checks that, and the bytes of a record are then written
over earlier ones, or are looked for in the wrong place.

The other model of the builder reports a buffer that outgrows its offsets. Here the
offsets are narrowed as the program narrows them. As long as the buffer has at most 65535
bytes in front of the index, both are the same, and what is finished is read again as the
records that were added.
-/

namespace Nsblast

open Buffer Labels List Nsblast.StorageBuilder
open Run (assert assert_eq_ok assert_of bind_eq_ok bind_ok)

namespace Wire.Narrow

/-- Bytes that are written over those at a place. Nothing checks that they are there. -/
def overwrite (buffer : Buffer) (location : Nat) (bytes : List UInt8) : Run Buffer :=
  if location + bytes.length ≤ buffer.length then
    .ok (buffer.take location ++ bytes ++ buffer.drop (location + bytes.length))
  else .outOfBounds

/-- `setValueAt`, for the bytes of a value. -/
def setValueAt (buffer : Buffer) (location : Nat) (bytes : List UInt8) : Run Buffer := do
  Run.throwIf (location + (bytes.length - 1) ≥ buffer.length)
    "setValueAt: Cannot set value outside range of buffer!"
  overwrite buffer location bytes

/-- The labels that `writeName` writes, at an offset of sixteen bits. -/
def writeLabelsAt (buffer : Buffer) : Nat → List Text → Run Buffer
  | _, [] => .ok buffer
  | offset, label :: rest => do
      let buffer ← overwrite buffer offset (labelBytes label)
      writeLabelsAt buffer ((offset + (label.length + 1)) % 65536) rest

/-- The place of the first SOA, which `finishRr` keeps. -/
def soaPlace (builder : StorageBuilder) (startOffset : Nat) (type : UInt16) : Run Nat :=
  if type ≠ RrType.soa then .ok builder.soaOffset
  else if builder.soaOffset = 0 then do
    assert (0 < startOffset)
    .ok startOffset
  else if builder.oneSoa then .thrown "StorageBuilder::finishRr: More than one SOA!"
  else .ok builder.soaOffset

/-- `finishRr` and `adding`. The length of the data is narrowed where it is written. -/
def finishRr (builder : StorageBuilder) (startOffset labelLen : Nat) (type : UInt16) (ttl : UInt32)
    (rdata : List UInt8) : Run StorageBuilder := do
  let soaOffset ← soaPlace builder startOffset type
  let coffset := startOffset + labelLen
  let buffer ← setValueAt builder.buffer coffset (be16 type.toNat)
  let buffer ← setValueAt buffer (coffset + 2) (be16 classIn.toNat)
  let buffer ← setValueAt buffer (coffset + 4) (be32 (sanitizeTtl ttl).toNat)
  let buffer ← setValueAt buffer (coffset + 8) (be16 rdata.length)
  assert (coffset + 10 + rdata.length ≤ buffer.length)
  let buffer ← overwrite buffer (coffset + 10) rdata
  .ok { builder with
    buffer, soaOffset
    index := builder.index ++ [⟨type.toNat, startOffset⟩]
    flags := builder.flags.adding type }

/-- `calculateLen`. -/
def calculateLen (labelsLen rdataLen : Nat) : Nat := labelsLen + 10 + rdataLen

/-- `createRr` with the offset of a name. -/
def createRrAt (builder : StorageBuilder) (nameOffset : Nat) (type : UInt16) (ttl : UInt32)
    (rdata : List UInt8) : Run StorageBuilder := do
  assert (!builder.finished)
  let startOffset := builder.buffer.length
  let resized := builder.buffer ++ replicate (calculateLen 2 rdata.length) 0
  let buffer ← overwrite resized (startOffset % 65536) (pointerBytes nameOffset)
  finishRr { builder with buffer } (startOffset % 65536) 2 type ttl rdata

/-- `createRr` with a name. The room for it was made before, so that the check of
`writeName` for it does not fail: the narrowed offset is not behind the other. -/
def createRr (builder : StorageBuilder) (fqdn : Name) (type : UInt16) (ttl : UInt32)
    (rdata : List UInt8) (isOneEntity : Bool) : Run StorageBuilder := do
  assert (!builder.finished)
  let shares ← builder.sharesName fqdn isOneEntity
  if shares then createRrAt builder builder.namePtr type ttl rdata
  else do
    let startOffset := builder.buffer.length
    let name := withoutDot fqdn
    let labelsLen := Nsblast.StorageBuilder.labelsLen fqdn
    let resized := builder.buffer ++ replicate (calculateLen labelsLen rdata.length) 0
    let rlen ← writeName name
    let buffer ← writeLabelsAt resized (startOffset % 65536) (labelsOf name)
    assert (rlen = labelsLen)
    let named := { builder with
      buffer
      namePtr := if builder.namePtr = 0 then startOffset % 65536 else builder.namePtr
      labelLen := if builder.labelLen = 0 then labelsLen else builder.labelLen }
    finishRr named (startOffset % 65536) labelsLen type ttl rdata

section writing

variable {bytes : List UInt8} {buffer : Buffer} {location : Nat}

variable {next : Buffer} {old room : List UInt8} {labels : List Text}

theorem overwrite_eq_ok (wrote : overwrite buffer location bytes = .ok next) :
    next.length = buffer.length := by
  rw [overwrite] at wrote
  split at wrote
  · cases wrote
    simp only [length_append, length_take, length_drop]
    omega
  · cases wrote

/-- Bytes that are written behind the old ones. -/
theorem overwrite_end (old : List UInt8) (fits : bytes.length ≤ room.length) :
    overwrite (old ++ room) old.length bytes = .ok (old ++ bytes ++ room.drop bytes.length) := by
  rw [overwrite, if_pos (by rw [length_append]; omega), take_left, drop_append,
    drop_eq_nil_of_le (Nat.le_add_right _ _), nil_append, Nat.add_sub_cancel_left]

theorem setValueAt_eq_ok (wrote : setValueAt buffer location bytes = .ok next) :
    next.length = buffer.length := by
  rw [setValueAt, bind_eq_ok] at wrote
  obtain ⟨_, _, wrote⟩ := wrote
  exact overwrite_eq_ok wrote

/-- A value that is written to the room behind the old bytes. -/
theorem setValueAt_end {count : Nat} (isEnd : location = old.length) (some : 0 < bytes.length)
    (fits : bytes.length ≤ count) :
    setValueAt (old ++ replicate count 0) location bytes =
      .ok (old ++ bytes ++ replicate (count - bytes.length) 0) := by
  subst isEnd
  have inside : ¬ old.length + (bytes.length - 1) ≥ (old ++ replicate count (0 : UInt8)).length := by
    rw [length_append, length_replicate]
    omega
  rw [setValueAt, Run.throwIf_of_not inside, bind_ok,
    overwrite_end old (by rw [length_replicate]; exact fits), drop_replicate]

theorem writeLabelsAt_eq_ok {offset : Nat} (wrote : writeLabelsAt buffer offset labels = .ok next) :
    next.length = buffer.length := by
  induction labels generalizing buffer offset with
  | nil =>
    cases wrote
    rfl
  | cons label rest ih =>
    rw [writeLabelsAt, bind_eq_ok] at wrote
    obtain ⟨middle, here, later⟩ := wrote
    rw [ih later, overwrite_eq_ok here]

/-- A name that is written behind the old bytes, where the offset does not wrap. -/
theorem writeLabelsAt_end (fits : (labels.flatMap labelBytes).length ≤ room.length)
    (low : old.length + (labels.flatMap labelBytes).length ≤ 65535) :
    writeLabelsAt (old ++ room) old.length labels =
      .ok (old ++ labels.flatMap labelBytes ++ room.drop (labels.flatMap labelBytes).length) := by
  induction labels generalizing old room with
  | nil => simp [writeLabelsAt]
  | cons label rest ih =>
    rw [flatMap_cons, length_append] at fits low
    have length : (labelBytes label).length = label.length + 1 := rfl
    have next : (old.length + (label.length + 1)) % 65536 = (old ++ labelBytes label).length := by
      rw [length_append, length, Nat.mod_eq_of_lt (by omega)]
    rw [writeLabelsAt, overwrite_end old (by omega), bind_ok, next,
      ih (by rw [length_drop]; omega) (by rw [length_append]; omega)]
    simp

end writing

section appending

variable {builder next : StorageBuilder}

/-- A record in the room that was made for it behind the old bytes. -/
theorem finishRr_end (builder : StorageBuilder) (old labels : List UInt8) (type : UInt16)
    (ttl : UInt32) (rdata : List UInt8) :
    finishRr { builder with buffer := old ++ labels ++ replicate (10 + rdata.length) 0 } old.length
        labels.length type ttl rdata =
      soaPlace builder old.length type >>= fun soaOffset => .ok { builder with
        buffer := old ++ labels ++ Body.dataSpanAfterLabel ⟨type, classIn, sanitizeTtl ttl, rdata⟩
        soaOffset
        index := builder.index ++ [⟨type.toNat, old.length⟩]
        flags := builder.flags.adding type } := by
  have two : ∀ value, (be16 value).length = 2 := fun _ => rfl
  have four : ∀ value, (be32 value).length = 4 := fun _ => rfl
  rw [finishRr]
  refine congrArg (soaPlace builder old.length type >>= ·) (funext fun soaOffset => ?_)
  simp only
  -- Each value stands behind the one before it, and takes its part of the room.
  rw [setValueAt_end (by simp only [length_append])
      (by simp only [two]; omega) (by simp only [two]; omega), bind_ok,
    setValueAt_end (by simp only [length_append, two])
      (by simp only [two]; omega) (by simp only [two]; omega), bind_ok,
    setValueAt_end (by simp only [length_append, two])
      (by simp only [four]; omega) (by simp only [two, four]; omega), bind_ok,
    setValueAt_end (by simp only [length_append, two, four])
      (by simp only [two]; omega) (by simp only [two, four]; omega), bind_ok]
  obtain ⟨front, isFront⟩ : ∃ front, front = old ++ labels ++ be16 type.toNat ++ be16 classIn.toNat ++
    be32 (sanitizeTtl ttl).toNat ++ be16 rdata.length := ⟨_, rfl⟩
  have length : old.length + labels.length + 10 = front.length := by
    simp only [isFront, length_append, two, four]
  have left : 10 + rdata.length - (be16 type.toNat).length - (be16 classIn.toNat).length -
      (be32 (sanitizeTtl ttl).toNat).length - (be16 rdata.length).length = rdata.length := by
    simp only [two, four]
    omega
  have room : (replicate rdata.length (0 : UInt8)).length = rdata.length := length_replicate
  rw [left, ← isFront, length, assert_of (by rw [length_append, room]), bind_ok,
    overwrite_end front (Nat.le_of_eq room.symm), bind_ok,
    drop_of_length_le (Nat.le_of_eq room), isFront]
  simp [Body.dataSpanAfterLabel]

/-- Where the next SOA would be noted, if the offset is not narrowed. -/
theorem soaPlace_eq {builder : StorageBuilder} (type : UInt16) (long : 0 < builder.buffer.length) :
    soaPlace builder builder.buffer.length type = builder.soaPlace type := by
  rw [soaPlace, StorageBuilder.soaPlace, assert_of long, bind_ok]

variable {type : UInt16} {ttl : UInt32} {labels rdata : List UInt8} {fqdn : Name}
    {isOneEntity : Bool}

/-- A record behind a name that was written, in both models. -/
theorem finishRr_eq (namePtr labelLen : Nat) (type : UInt16) (ttl : UInt32)
    (long : 0 < builder.buffer.length)
    (fits : builder.buffer.length + labels.length + 10 + rdata.length ≤ 65535) :
    finishRr { builder with
        buffer := builder.buffer ++ labels ++ replicate (10 + rdata.length) 0, namePtr, labelLen }
        builder.buffer.length labels.length type ttl rdata =
      { builder with namePtr, labelLen }.finishRr labels type ttl rdata := by
  have small : (builder.buffer ++ labels ++
      Body.dataSpanAfterLabel ⟨type, classIn, sanitizeTtl ttl, rdata⟩).length ≤ 65535 := by
    rw [length_append, length_append, length_dataSpanAfterLabel]
    simp only
    omega
  rw [finishRr_end { builder with namePtr, labelLen }, StorageBuilder.finishRr]
  simp only [if_pos small]
  exact congrArg (· >>= _) (soaPlace_eq type long)

theorem createRrAt_eq (nameOffset : Nat) (type : UInt16) (ttl : UInt32)
    (long : 0 < builder.buffer.length)
    (fits : builder.buffer.length + calculateLen 2 rdata.length ≤ 65535) :
    createRrAt builder nameOffset type ttl rdata = builder.createRrAt nameOffset type ttl rdata := by
  have pointer : (pointerBytes nameOffset).length = 2 := rfl
  simp only [calculateLen] at fits
  rw [createRrAt, StorageBuilder.createRrAt]
  simp only
  rw [Nat.mod_eq_of_lt (by omega), overwrite_end _
    (by rw [length_replicate, pointer, calculateLen]; omega), bind_ok, drop_replicate,
    pointer, calculateLen, Nat.add_assoc, Nat.add_sub_cancel_left]
  exact congrArg (_ >>= ·) (funext fun _ =>
    finishRr_eq builder.namePtr builder.labelLen type ttl long (by omega))

theorem length_finishRr {startOffset labelLen : Nat}
    (finished : finishRr builder startOffset labelLen type ttl rdata = .ok next) :
    next.buffer.length = builder.buffer.length := by
  simp only [finishRr, bind_eq_ok] at finished
  obtain ⟨_, _, b1, first, b2, second, b3, third, b4, fourth, _, _, b5, last, isNext⟩ := finished
  cases isNext
  rw [overwrite_eq_ok last, setValueAt_eq_ok fourth, setValueAt_eq_ok third, setValueAt_eq_ok second,
    setValueAt_eq_ok first]

theorem length_createRrAt {nameOffset : Nat}
    (created : createRrAt builder nameOffset type ttl rdata = .ok next) :
    next.buffer.length = builder.buffer.length + calculateLen 2 rdata.length := by
  simp only [createRrAt, bind_eq_ok] at created
  obtain ⟨_, _, buffer, wrote, finished⟩ := created
  rw [length_finishRr finished]
  rw [overwrite_eq_ok wrote, length_append, length_replicate]

/-- The buffer grows. -/
theorem le_length_createRr (created : createRr builder fqdn type ttl rdata isOneEntity = .ok next) :
    builder.buffer.length ≤ next.buffer.length := by
  simp only [createRr, bind_eq_ok] at created
  obtain ⟨_, _, shares, _, created⟩ := created
  split at created
  · rw [length_createRrAt created]
    exact Nat.le_add_right _ _
  · simp only [bind_eq_ok] at created
    obtain ⟨_, _, buffer, wrote, _, _, finished⟩ := created
    rw [length_finishRr finished]
    rw [writeLabelsAt_eq_ok wrote, length_append]
    exact Nat.le_add_right _ _

/-- A record with a name of its own, if only the name is where its offset says. -/
theorem createRr_new (type : UInt16) (ttl : UInt32) (rdata : List UInt8)
    (opened : builder.finished = false) (alone : builder.sharesName fqdn isOneEntity = .ok false)
    (written : writeName (withoutDot fqdn) = .ok (labelsLen fqdn))
    (measured : (wireName (withoutDot fqdn)).length = labelsLen fqdn)
    (low : builder.buffer.length + (wireName (withoutDot fqdn)).length ≤ 65535) :
    createRr builder fqdn type ttl rdata isOneEntity =
      finishRr { builder with
        buffer := builder.buffer ++ wireName (withoutDot fqdn) ++
          replicate (10 + rdata.length) 0
        namePtr := if builder.namePtr = 0 then builder.buffer.length else builder.namePtr
        labelLen := if builder.labelLen = 0 then
            (wireName (withoutDot fqdn)).length else builder.labelLen }
        builder.buffer.length (wireName (withoutDot fqdn)).length type ttl rdata := by
  have isWire : wireName (withoutDot fqdn) =
    (labelsOf (withoutDot fqdn)).flatMap labelBytes := rfl
  have notFinished : assert (!builder.finished) = .ok () := by
    rw [opened]
    rfl
  rw [createRr, notFinished, bind_ok, alone, bind_ok, if_neg Bool.false_ne_true]
  simp only
  rw [written, bind_ok, Nat.mod_eq_of_lt (by omega), ← measured,
    writeLabelsAt_end (by rw [length_replicate, ← isWire, calculateLen]; omega)
      (by rw [← isWire]; omega), ← isWire, bind_ok, drop_replicate, calculateLen, Nat.add_assoc,
    Nat.add_sub_cancel_left, assert_of rfl, bind_ok]

/-- As long as the offsets fit, a record is created as in the other model. -/
theorem createRr_eq (long : 0 < builder.buffer.length) (fits : next.buffer.length ≤ 65535)
    (created : createRr builder fqdn type ttl rdata isOneEntity = .ok next) :
    builder.createRr fqdn type ttl rdata isOneEntity = .ok next := by
  have result := created
  simp only [createRr, bind_eq_ok] at created
  obtain ⟨_, opened, shares, isShared, created⟩ := created
  rw [StorageBuilder.createRr, opened, bind_ok, isShared, bind_ok]
  cases shares with
  | true =>
    have length := length_createRrAt created
    rw [createRrAt_eq _ _ _ long (by omega)] at created
    exact created
  | false =>
    rw [if_neg Bool.false_ne_true] at created ⊢
    simp only [bind_eq_ok] at created
    obtain ⟨rlen, written, buffer, wrote, _, measured, finished⟩ := created
    obtain rfl : rlen = labelsLen fqdn := of_decide_eq_true (assert_eq_ok measured)
    have length : next.buffer.length = builder.buffer.length + calculateLen
        (labelsLen fqdn) rdata.length := by
      rw [length_finishRr finished]
      rw [writeLabelsAt_eq_ok wrote, length_append, length_replicate]
    have same := (wireName_length _).trans ((labelsLen_iff fqdn).mpr (writeName_labelsLen.mp written).2)
    have open' : builder.finished = false := by simpa using assert_eq_ok opened
    rw [← same, calculateLen] at length
    rw [createRr_new type ttl rdata open' isShared written same (by omega),
      finishRr_eq _ _ _ _ long (by omega)] at result
    simp only
    rw [written, bind_ok, measured, bind_ok, ← same]
    exact result

theorem small_finishRr (finished : builder.finishRr labels type ttl rdata = .ok next) :
    builder.buffer.length + labels.length + 10 + rdata.length ≤ 65535 := by
  rw [StorageBuilder.finishRr, bind_eq_ok] at finished
  obtain ⟨_, _, finished⟩ := finished
  simp only at finished
  split at finished
  · rename_i small
    rw [length_append, length_append, length_dataSpanAfterLabel] at small
    simp only at small
    omega
  · cases finished

/-- What the other model creates is created. -/
theorem createRr_of_wire (long : 0 < builder.buffer.length)
    (created : builder.createRr fqdn type ttl rdata isOneEntity = .ok next) :
    createRr builder fqdn type ttl rdata isOneEntity = .ok next := by
  simp only [StorageBuilder.createRr, bind_eq_ok] at created
  obtain ⟨_, opened, shares, isShared, created⟩ := created
  cases shares with
  | true =>
    rw [createRr, opened, bind_ok, isShared, bind_ok, if_pos rfl]
    have finished := created
    rw [StorageBuilder.createRrAt, opened, bind_ok] at finished
    have small := small_finishRr finished
    have pointer : (pointerBytes builder.namePtr).length = 2 := rfl
    rw [createRrAt_eq _ _ _ long (by rw [calculateLen]; omega)]
    exact created
  | false =>
    rw [if_neg Bool.false_ne_true] at created
    simp only [bind_eq_ok] at created
    obtain ⟨rlen, written, _, measured, finished⟩ := created
    obtain rfl : rlen = labelsLen fqdn := of_decide_eq_true (assert_eq_ok measured)
    have small := small_finishRr finished
    simp only at small
    have same := (wireName_length _).trans ((labelsLen_iff fqdn).mpr (writeName_labelsLen.mp written).2)
    have open' : builder.finished = false := by simpa using assert_eq_ok opened
    rw [createRr_new type ttl rdata open' isShared written same (by omega),
      finishRr_eq _ _ _ _ long (by omega), same]
    exact finished

/-- A call adds its type to the index. -/
theorem createRr_adds (created : createRr builder fqdn type ttl rdata isOneEntity = .ok next) :
    next.index.map Index.type = builder.index.map Index.type ++ [type.toNat] ∧
      next.sort = builder.sort := by
  have finishes : ∀ {named : StorageBuilder} {startOffset labelLen : Nat},
      finishRr named startOffset labelLen type ttl rdata = .ok next → named.index = builder.index →
      named.sort = builder.sort →
      next.index.map Index.type = builder.index.map Index.type ++ [type.toNat] ∧
        next.sort = builder.sort := by
    intro named startOffset labelLen finished sameIndex sameSort
    simp only [finishRr, bind_eq_ok] at finished
    obtain ⟨_, _, _, _, _, _, _, _, _, _, _, _, _, _, isNext⟩ := finished
    cases isNext
    simp [sameIndex, sameSort]
  simp only [createRr, bind_eq_ok] at created
  obtain ⟨_, _, shares, _, created⟩ := created
  split at created
  · simp only [createRrAt, bind_eq_ok] at created
    obtain ⟨_, _, buffer, _, finished⟩ := created
    exact finishes finished rfl rfl
  · simp only [bind_eq_ok] at created
    obtain ⟨_, _, buffer, _, _, _, finished⟩ := created
    exact finishes finished rfl rfl

end appending

/-- A call of `createRr`. -/
structure Call where
  fqdn : Name
  type : UInt16
  ttl : UInt32
  rdata : List UInt8
  isOneEntity : Bool
  deriving DecidableEq, Repr

/-- `addRr`. The calls for one type compute the data and are calls for one entity. -/
def Call.addRr (rr : Record) : Call := ⟨rr.owner, rr.type, rr.ttl, rr.rdata, false⟩

/-- A builder before the first record. -/
def begun (tenantId : Option Uuid) (zonelen : Nat) (sort oneSoa : Bool) : Run StorageBuilder := do
  let fresh : StorageBuilder := {}
  let owned ← tenantId.elim (.ok fresh) fresh.setTenantId
  let placed ← owned.setZoneLen zonelen
  .ok { placed with sort, oneSoa }

/-- The calls one after the other. -/
def createAll (calls : List Call) (builder : StorageBuilder) : Run StorageBuilder :=
  calls.foldlM (fun builder call =>
    createRr builder call.fqdn call.type call.ttl call.rdata call.isOneEntity) builder

/-- The owner of the record: in one entity the name that was given first. -/
def Call.owner (call : Call) : Option Name → Name
  | some first => if call.isOneEntity then first else withoutDot call.fqdn
  | none => withoutDot call.fqdn

/-- The record that the call adds. -/
def Call.data (call : Call) (first : Option Name) : RrData :=
  ⟨labelsOf (call.owner first), call.type.toNat, classIn.toNat, min call.ttl.toNat (2 ^ 31 - 1),
    call.rdata⟩

/-- The records that the calls add, with the name that was given first. -/
def added : Option Name → List Call → List RrData
  | _, [] => []
  | first, call :: rest => call.data first :: added (some (first.getD (call.owner none))) rest

section run

variable {calls : List Call} {filled : StorageBuilder}

variable {builder placed : StorageBuilder} {tenantId : Option Uuid} {oneSoa sort : Bool}

theorem le_length_createAll (ran : createAll calls builder = .ok filled) :
    builder.buffer.length ≤ filled.buffer.length := by
  induction calls generalizing builder with
  | nil =>
    cases ran
    exact Nat.le_refl _
  | cons call rest ih =>
    rw [createAll, foldlM_cons, bind_eq_ok] at ran
    obtain ⟨middle, here, later⟩ := ran
    exact (le_length_createRr here).trans (ih later)

/-- As long as the offsets fit, the calls are those of the other model. -/
theorem createAll_eq (long : 0 < builder.buffer.length) (fits : filled.buffer.length ≤ 65535)
    (ran : createAll calls builder = .ok filled) :
    calls.foldlM (fun builder call => StorageBuilder.createRr builder call.fqdn call.type call.ttl
        call.rdata call.isOneEntity) builder = .ok filled := by
  induction calls generalizing builder with
  | nil => exact ran
  | cons call rest ih =>
    rw [createAll, foldlM_cons, bind_eq_ok] at ran
    obtain ⟨middle, here, later⟩ := ran
    have grown := le_length_createRr here
    have growing := le_length_createAll later
    rw [foldlM_cons, createRr_eq long (by omega) here, bind_ok]
    exact ih (by omega) later

/-- The calls that return there return. -/
theorem createAll_of_wire (long : 0 < builder.buffer.length)
    (ran : calls.foldlM (fun builder call => StorageBuilder.createRr builder call.fqdn call.type call.ttl
      call.rdata call.isOneEntity) builder = .ok filled) :
    createAll calls builder = .ok filled := by
  induction calls generalizing builder with
  | nil => exact ran
  | cons call rest ih =>
    rw [foldlM_cons, bind_eq_ok] at ran
    obtain ⟨middle, here, later⟩ := ran
    have created := createRr_of_wire long here
    have grown := le_length_createRr created
    rw [createAll, foldlM_cons, created, bind_ok]
    exact ih (by omega) later

/-- The types of the index are those of the calls. -/
theorem createAll_adds (ran : createAll calls builder = .ok filled) :
    filled.index.map Index.type = builder.index.map Index.type ++ calls.map (fun call => call.type.toNat) ∧
      filled.sort = builder.sort := by
  induction calls generalizing builder with
  | nil =>
    cases ran
    exact ⟨(append_nil _).symm, rfl⟩
  | cons call rest ih =>
    rw [createAll, foldlM_cons, bind_eq_ok] at ran
    obtain ⟨middle, here, later⟩ := ran
    obtain ⟨types, sort⟩ := createRr_adds here
    obtain ⟨laterTypes, laterSort⟩ := ih later
    rw [laterTypes, types, laterSort, sort, append_assoc]
    exact ⟨rfl, rfl⟩

/-- The name that was given first, if there was one. -/
structure First (builder : Nsblast.StorageBuilder) (first : Option Name) : Prop where
  absent : builder.rrs = [] → first = none
  given : builder.rrs ≠ [] → first = some builder.defaultLabels ∧
    builder.defaultLabels.getLast? ≠ some 0x2E

variable {first : Option Name}

theorem First.owner {builder : Nsblast.StorageBuilder} (isFirst : First builder first)
    (call : Call) :
    (if builder.sharesName call.fqdn call.isOneEntity then builder.defaultLabels
      else withoutDot call.fqdn) = call.owner first := by
  by_cases empty : builder.rrs = []
  · simp [sharesName, empty, isFirst.absent empty, Call.owner]
  · obtain ⟨isName, plain⟩ := isFirst.given empty
    rw [isName, Call.owner, sharesName]
    cases call.isOneEntity with
    | true => simp [empty]
    | false =>
      by_cases same : builder.defaultLabels = call.fqdn
      · rw [← same, withoutDot, if_neg plain]
        simp
      · simp [same]

/-- After a record was added, its name or the earlier one is the first. -/
theorem First.next {builder : Nsblast.StorageBuilder} {call : Call} {pointer : Bool}
    (isFirst : First builder first)
    (written : builder.rrs = [] → Name.Writable (withoutDot call.fqdn)) :
    First (builder.adding (newRr (call.owner first) pointer call.type call.ttl
      call.rdata)) (some (first.getD (call.owner none))) := by
  refine ⟨fun empty => absurd empty (by simp [adding]), fun _ => ?_⟩
  by_cases empty : builder.rrs = []
  · have plain := writeName_plain (written empty)
    have isName : (builder.adding (newRr (call.owner first) pointer call.type
        call.ttl call.rdata)).defaultLabels = call.owner none := by
      rw [isFirst.absent empty]
      simp [adding, empty, defaultLabels, newRr]
    rw [isName, isFirst.absent empty]
    exact ⟨rfl, plain⟩
  · obtain ⟨isName, plain⟩ := isFirst.given empty
    rw [defaultLabels_adding _ empty, isName]
    exact ⟨rfl, plain⟩

/-- The calls add the records they are to add. -/
theorem created_added {builder filled : Nsblast.StorageBuilder} (isFirst : First builder first)
    (ran : calls.foldlM (fun builder call => Nsblast.StorageBuilder.createRr builder call.fqdn call.type
      call.ttl call.rdata call.isOneEntity) builder = .ok filled) :
    filled.rrs.map StoredRr.data = builder.rrs.map StoredRr.data ++ added first calls ∧
      filled = { builder with rrs := filled.rrs } := by
  induction calls generalizing builder first with
  | nil =>
    cases ran
    exact ⟨(append_nil _).symm, rfl⟩
  | cons call rest ih =>
    rw [foldlM_cons, bind_eq_ok] at ran
    obtain ⟨middle, here, later⟩ := ran
    obtain ⟨isMiddle, _, _⟩ := createRr_eq_ok here
    rw [isFirst.owner call] at isMiddle
    have written : builder.rrs = [] → Name.Writable (withoutDot call.fqdn) := by
      intro empty
      have alone : ¬ builder.sharesName call.fqdn call.isOneEntity = true := by
        simp [sharesName, empty]
      simp only [Nsblast.StorageBuilder.createRr, if_neg alone, bind_eq_ok] at here
      obtain ⟨rlen, written, _, measured, _⟩ := here
      obtain rfl : rlen = labelsLen call.fqdn := of_decide_eq_true (assert_eq_ok measured)
      exact (writeName_labelsLen.mp written).1
    subst isMiddle
    obtain ⟨records, same⟩ := ih (isFirst.next written) later
    refine ⟨?_, same⟩
    rw [records, adding, map_append, map_singleton, newRr_data, added, append_assoc]
    rfl

variable {zonelen : Nat}

/-- A builder is begun without records. -/
theorem begun_returns (tenantId : Option Uuid) (sort oneSoa : Bool) (zone : zonelen ≤ 255) :
    ∃ placed, begun tenantId zonelen sort oneSoa = .ok placed ∧
      Encodes placed { tenantId, zoneLen := zonelen, sort, oneSoa } := by
  obtain ⟨owned, placed, isOwned, isPlaced, encodes⟩ := begun_encodes tenantId zone
  refine ⟨{ placed with sort, oneSoa }, ?_, ⟨encodes.opened, rfl, rfl, encodes.size, encodes.small,
    encodes.tenant, encodes.zonelen, encodes.flags, encodes.namePtr, encodes.named, encodes.soa,
    encodes.placed⟩⟩
  rw [begun, isOwned, bind_ok, isPlaced, bind_ok]

/-- What the other model has filled and finished is read as the records that were added. -/
theorem wire_yields_added {sorter : Sorter placeLess} {bytes : Buffer} (zone : zonelen ≤ 255)
    (encodes : Encodes placed { tenantId, zoneLen := zonelen, sort, oneSoa })
    (ran : calls.foldlM (fun builder call => StorageBuilder.createRr builder call.fqdn call.type call.ttl
      call.rdata call.isOneEntity) placed = .ok filled)
    (isFinished : filled.finish sorter = .ok bytes) :
    ∃ entry records, Entry.construct bytes = .ok entry ∧ entry.records = .ok records ∧
      records.Perm (added none calls) ∧ (sort = false → records = added none calls) := by
  have same := Run.Rel.foldlM calls encodes (fun _ _ call encodes =>
    encodes.createRr call.fqdn call.type call.ttl call.rdata call.isOneEntity)
  rw [ran] at same
  obtain ⟨builder, created, encoded⟩ := same.returns
  have isFirst : First { tenantId, zoneLen := zonelen, sort, oneSoa } none :=
    ⟨fun _ => rfl, fun filled => absurd rfl filled⟩
  obtain ⟨records, isBuilder⟩ := created_added isFirst created
  have isZone : builder.zoneLen = zonelen := by rw [isBuilder]
  have isSort : builder.sort = sort := by rw [isBuilder]
  obtain ⟨order, alike⟩ := encoded.finish sorter (by omega)
  rw [isFinished] at alike
  obtain ⟨entry, finished, index, shown⟩ := alike.returns
  rw [map_nil, nil_append] at records
  refine ⟨_, _, shown.constructed, shown.records, ?_, fun unsorted => ?_⟩
  · rw [← records]
    exact (finish_perm order entry finished).map _
  · rw [finish_eq_ok finished, isSort, unsorted, ← records]
    rfl

/-- What a builder encodes that was begun. -/
theorem begun_encoded (isPlaced : begun tenantId zonelen sort oneSoa = .ok placed) :
    zonelen ≤ 255 ∧ Encodes placed { tenantId, zoneLen := zonelen, sort, oneSoa } ∧
      bufferHeaderLen ≤ placed.buffer.length := by
  have zone : zonelen ≤ 255 := by
    by_contra long
    simp only [begun, bind_eq_ok, StorageBuilder.setZoneLen] at isPlaced
    obtain ⟨_, _, _, ⟨_, passed, _⟩, _⟩ := isPlaced
    rw [Run.throwIf_of (by omega)] at passed
    cases passed
  obtain ⟨placed', isPlaced', encodes⟩ := begun_returns tenantId sort oneSoa zone
  cases isPlaced.symm.trans isPlaced'
  refine ⟨zone, encodes, ?_⟩
  rw [encodes.size]
  exact (firstName_cases tenantId).1.trans
    (firstName_le_size { tenantId, zoneLen := zonelen, sort, oneSoa })

end run

/-- Any calls, of any number and size, that return: if the records take at most 65535 bytes
and the index is one piece of memory, the finished entry is read as the records that were
added, in the order of the calls if the index is not sorted. -/
theorem finished_yields_added (sorter : Sorter placeLess) (tenantId : Option Uuid) (zonelen : Nat)
    (sort oneSoa : Bool) (calls : List Call) (placed filled : StorageBuilder) (bytes : Buffer)
    (isPlaced : begun tenantId zonelen sort oneSoa = .ok placed)
    (ran : createAll calls placed = .ok filled) (isFinished : filled.finish sorter = .ok bytes)
    (fits : filled.buffer.length ≤ 65535) :
    ∃ entry records, Entry.construct bytes = .ok entry ∧ entry.records = .ok records ∧
      records.Perm (added none calls) ∧ (sort = false → records = added none calls) := by
  obtain ⟨zone, encodes, header⟩ := begun_encoded isPlaced
  have long : 0 < placed.buffer.length := Nat.lt_of_lt_of_le (by decide) header
  exact wire_yields_added zone encodes (createAll_eq long fits ran) isFinished

section sample

/-- A difference: the SOA before, an address, and the SOA after, of two names. -/
def diffCalls : List Call :=
  [⟨[0x7A], RrType.soa, 60, [0, 0] ++ replicate 20 1, false⟩,
    Call.addRr ⟨⟨RrType.a, classIn, 60, [1, 2, 3, 4]⟩, [0x61, 0x2E, 0x7A]⟩,
    ⟨[0x7A], RrType.soa, 60, [0, 0] ++ replicate 20 2, false⟩]

/-- It is read in the order of the calls. -/
theorem diff_yields_added : ∃ placed filled bytes entry,
    begun none 0 false false = .ok placed ∧ createAll diffCalls placed = .ok filled ∧
      filled.finish insertionPlaces = .ok bytes ∧ Entry.construct bytes = .ok entry ∧
      entry.records = .ok (added none diffCalls) := by
  have evaluated : (begun none 0 false false >>= fun placed => createAll diffCalls placed >>= fun filled =>
      filled.finish insertionPlaces >>= fun _ => .ok (decide (filled.buffer.length ≤ 65535))) =
      .ok true := by decide +kernel
  simp only [bind_eq_ok, Run.ok.injEq, decide_eq_true_eq] at evaluated
  obtain ⟨placed, isPlaced, filled, ran, bytes, isFinished, fits⟩ := evaluated
  obtain ⟨entry, records, constructed, read, _, same⟩ := finished_yields_added insertionPlaces none 0
    false false diffCalls placed filled bytes isPlaced ran isFinished fits
  rw [same rfl] at read
  exact ⟨placed, filled, bytes, entry, isPlaced, ran, isFinished, constructed, read⟩

/-- A text of 65536 bytes of the name `a`. Its first bytes look like an index. -/
def wideCall (rest : List UInt8) : Call := ⟨[0x61], RrType.txt, 60, [0, 16, 0, 8] ++ rest, true⟩

/-- The builder with that record. -/
def wideBuilder (rest : List UInt8) : StorageBuilder where
  buffer := [1, 0, 0, 0, 0, 0, 0, 0] ++ [1, 0x61, 0] ++
    [0, 16, 0, 1, 0, 0, 0, 60, 0, 0] ++ [0, 16, 0, 8] ++ rest
  namePtr := 8
  labelLen := 3
  flags := { txt := true }
  index := [⟨16, 8⟩]

theorem wideCall_created {rest : List UInt8} (length : rest.length = 65532) :
    createAll [wideCall rest] {} = .ok (wideBuilder rest) := by
  have wide : ([0, 16, 0, 8] ++ rest).length = 65536 := by
    rw [length_append, length]
    rfl
  have name : wireName [0x61] = [1, 0x61, 0] := by decide
  have created : createRr {} [0x61] RrType.txt 60 ([0, 16, 0, 8] ++ rest) true =
      .ok (wideBuilder rest) := by
    refine (createRr_new _ _ _ rfl rfl (by decide) (by decide) (by decide)).trans ?_
    refine (finishRr_end { namePtr := 8, labelLen := 3 } _ (wireName [0x61]) RrType.txt 60 _).trans ?_
    have place : soaPlace { namePtr := 8, labelLen := 3 } 8 RrType.txt = .ok 0 := by decide
    have flags : ({} : Flags).adding RrType.txt = { txt := true } := by decide
    rw [Body.dataSpanAfterLabel, wide, name]
    simp only [wideBuilder, flags, append_assoc]
    exact congrArg (· >>= _) place
  rw [createAll, foldlM_cons, wideCall, created]
  rfl

/-- What `Entry` finds there: the index is read from the data, and the data are empty. -/
theorem wideBuilder_read {rest : List UInt8} (length : rest.length = 65532) :
    ∃ bytes entry, (wideBuilder rest).finish insertionPlaces = .ok bytes ∧
      Entry.construct bytes = .ok entry ∧ entry.records = .ok [⟨[[0x61], []], 16, 1, 60, []⟩] := by
  have size : (wideBuilder rest).buffer.length = 65557 := by
    simp only [wideBuilder, length_append, length]
    rfl
  obtain ⟨bytes, isBytes⟩ : ∃ bytes : Buffer, bytes = [1, 32, 0, 1, 3, 0, 0, 21] ++ wireName [0x61] ++
    ([0, 16, 0, 1, 0, 0, 0, 60, 0, 0] ++ ([0, 16, 0, 8] ++ (rest ++ [0, 16, 0, 8]))) := ⟨_, rfl⟩
  have name : wireName [0x61] = [1, 0x61, 0] := by decide
  have isFinished : finished (wideBuilder rest) [⟨16, 8⟩] = bytes := by
    rw [finished_eq, size, isBytes, name]
    simp only [wideBuilder, append_assoc]
    rfl
  have long : bytes.length = 65561 := by
    rw [← isFinished, length_finished _ (by rw [size]; decide), size]
    rfl
  -- The record stands behind the header, with the length that was stored for its data.
  have written : Name.Writable [0x61] := by decide
  obtain ⟨labels, isWritten⟩ := writeName_written written
  have isLabels : labels ++ [[]] = [[0x61], []] := isWritten.isName.symm.trans (by decide)
  have spelled : Spelled ([1, 32, 0, 1, 3, 0, 0, 21] ++ wireName [0x61]) 8 8 8 labels
    (wireName [0x61]).length := isWritten.spelled (Nat.le_refl 8) (by decide)
  have grows : GrownBehind 8 ([1, 32, 0, 1, 3, 0, 0, 21] ++ wireName [0x61]) bytes := by
    rw [isBytes]
    exact GrownBehind.append 8 _ _ (by decide)
  have stands : PartAt bytes (8 + (wireName [0x61]).length) [0, 16, 0, 1, 0, 0, 0, 60, 0, 0] := by
    rw [isBytes]
    exact PartAt.at_end ([1, 32, 0, 1, 3, 0, 0, 21] ++ wireName [0x61]) _ _
  have reads : fieldsData (labels ++ [[]]) false [0, 16, 0, 1, 0, 0, 0, 60, 0, 0] =
      .ok ⟨[[0x61], []], 16, 1, 60, []⟩ := by
    rw [isLabels]
    rfl
  have placed : Placed bytes 8 8 false ⟨[[0x61], []], 16, 1, 60, []⟩ ((wireName [0x61]).length + 10) :=
    ⟨labels, _, _, spelled.grown grows, isWritten.size, stands, ⟨by decide, by decide⟩, reads, rfl⟩
  obtain ⟨rr, isRr, _, isData⟩ := rrAt_placed ⟨bytes, 1, [⟨16, 8⟩]⟩ ⟨16, 8⟩
    (by simp only; omega) rfl placed
  refine ⟨bytes, ⟨bytes, 1, [⟨16, 8⟩]⟩, ?finish, ?construct, ?records⟩
  case finish =>
    have notShort : ¬ (wideBuilder rest).buffer.length < bufferHeaderLen := by
      rw [size]
      decide
    have opened : assert (!(wideBuilder rest).finished) = .ok () := rfl
    have isIndex : (wideBuilder rest).index = [⟨16, 8⟩] := rfl
    have alone : ¬ 2 ≤ (wideBuilder rest).index.length := by
      rw [isIndex]
      decide
    have sorted : insertionPlaces.sort (wideBuilder rest).index = [⟨16, 8⟩] := by
      rw [isIndex]
      decide
    have few : (wideBuilder rest).index.length ≤ indexBlock := by
      rw [isIndex]
      decide
    rw [StorageBuilder.finish, opened, bind_ok, Run.throwIf_of_not notShort, bind_ok,
      assert_of fun _ two => absurd two alone, bind_ok, sorted, if_pos few, ← isFinished]
    rfl
  case construct =>
    have count : Entry.read16 bytes 2 = .ok 1 := by
      rw [isBytes]
      rfl
    have offset : Entry.read16 bytes 6 = .ok 21 := by
      rw [isBytes]
      rfl
    have index : Entry.readIndex bytes 21 1 = .ok [⟨16, 8⟩] := by
      rw [isBytes, name]
      rfl
    rw [Entry.construct, if_neg (by simp [isBytes]), assert_of (by rw [long]; decide),
      bind_ok, count, bind_ok, offset, bind_ok, index, bind_ok]
  case records =>
    simp only [Entry.records, mapM_cons, mapM_nil]
    rw [isRr, bind_ok, isData, bind_ok]
    rfl

/-- The data have 65536 bytes, so that their length is stored as 0; the buffer has 65557
bytes in front of the index, so that the index is looked for at 21, in the data. -/
theorem wide_text_read_empty : ∃ rest placed filled bytes entry,
    begun none 0 true true = .ok placed ∧ createAll [wideCall rest] placed = .ok filled ∧
      filled.finish insertionPlaces = .ok bytes ∧ Entry.construct bytes = .ok entry ∧
      entry.records = .ok [⟨[[0x61], []], 16, 1, 60, []⟩] ∧
      added none [wideCall rest] = [⟨[[0x61], []], 16, 1, 60, [0, 16, 0, 8] ++ rest⟩] ∧
      ([0, 16, 0, 8] ++ rest).length = 65536 := by
  have length : (replicate 65532 (0 : UInt8)).length = 65532 := length_replicate
  obtain ⟨bytes, entry, isFinished, constructed, read⟩ := wideBuilder_read length
  refine ⟨replicate 65532 0, {}, wideBuilder _, bytes, entry, rfl, wideCall_created length,
    isFinished, constructed, read, rfl, ?_⟩
  rw [length_append, length]
  rfl

end sample

end Wire.Narrow

end Nsblast
