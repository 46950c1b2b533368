import Nsblast.Wire.Records

/-!
# Building a message byte by byte

`MessageBuilder` writes a header of twelve bytes and appends questions and records to it.
A record is taken from another buffer: its name is written by `writeLabels`, which
compresses it against the names of the message, and the bytes behind the name are copied.
The header counts the records of each section.

A record that does not fit is refused. There are three places for that: the size of the
record in its own buffer, the length of the name, and the bytes behind the name. In the
last case the name has been written already; it is cut off again, but stays in the table
of names.

The length of a message is a number of its own only in the model of a zone transfer;
here the message is its bytes.
-/

namespace Nsblast

open Buffer Labels WriteLabels

namespace Buffer

/-- `set16bValueAt`. -/
def set16bValueAt (buffer : Buffer) (location value : Nat) : Run Buffer := do
  Run.throwIf (location + 1 ≥ buffer.length) "setValueAt: Cannot set value outside range of buffer!"
  .ok (buffer.take location ++ be16 value ++ buffer.drop (location + 2))

/-- `inc16BitValueAt`. -/
def inc16BitValueAt (buffer : Buffer) (location : Nat) : Run Buffer := do
  let value ← get16bValueAt buffer (whole buffer) location
  set16bValueAt buffer location ((value + 1) % 65536)

end Buffer

namespace Wire

/-- `MessageBuilder::Segment`. -/
inductive Segment where
  | question
  | answer
  | authority
  | additional
  deriving DecidableEq, Repr

/-- The number behind a segment. -/
def Segment.number : Segment → Nat
  | .question => 0
  | .answer => 1
  | .authority => 2
  | .additional => 3

namespace NewHeader

/-- `NewHeader::increment`. -/
def increment (segment : Segment) (buffer : Buffer) : Run Buffer :=
  inc16BitValueAt buffer (4 + segment.number * 2)

/-- `getHdrFlags` and `setHdrFlags`, with one of the two bytes changed. -/
def changeFlags (location : Nat) (change : UInt8 → UInt8) (buffer : Buffer) : Run Buffer := do
  Run.throwIf (buffer.length < Message.headerSize)
    "getHdrFlags: Cannot get value outside range of buffer!"
  .ok (buffer.modify location change)

/-- A flag of a byte. -/
def withFlag (mask : UInt8) (flag : Bool) (byte : UInt8) : UInt8 :=
  if flag then byte ||| mask else byte &&& ~~~mask

def setTc (flag : Bool) : Buffer → Run Buffer := changeFlags 2 (withFlag 0x02 flag)
def setAa (flag : Bool) : Buffer → Run Buffer := changeFlags 2 (withFlag 0x04 flag)

/-- `NewHeader::setRcode`, of which the header has four bits. -/
def setRcode (rcode : Nat) : Buffer → Run Buffer :=
  changeFlags 3 fun byte => (byte &&& 0xF0) ||| UInt8.ofNat (rcode % 16)

end NewHeader

structure OptValues where
  bufferSize : Nat
  version : Nat
  deriving DecidableEq, Repr

/-- `MessageBuilder`. A limit of zero is none. -/
structure MessageBuilder where
  buffer : Buffer := []
  maxBufferSize : Nat := 0
  labels : List KnownName := []
  rcode : Nat := 0
  opt : Option OptValues := none
  deriving DecidableEq, Repr

namespace MessageBuilder

/-- `createHeader`. -/
def createHeader (builder : MessageBuilder) (id : Nat) (qr : Bool) (opcode : Nat) (rd : Bool) :
    Run MessageBuilder := do
  Run.assert (builder.buffer.length = 0 ∨ builder.buffer.length = 2)
  Run.throwIf (opcode ≥ 5) ("createHeader: Invalid opcode " ++ toString opcode)
  let bits := rd.toNat + (if opcode = 4 then 4 else 0) + opcode * 8 + qr.toNat * 128
  .ok { builder with
    buffer := be16 id ++ [UInt8.ofNat bits, 0] ++ List.replicate (8 + builder.buffer.length) 0 }

/-- The branch `truncate` of `addRr`. -/
def truncate (builder : MessageBuilder) (segment : Segment) : Run (Bool × MessageBuilder) :=
  if segment = .answer then do
    let buffer ← NewHeader.setTc true builder.buffer
    .ok (false, { builder with buffer })
  else .ok (false, builder)

/-- `addRr`, with a record of the buffer `own`. -/
def addRr (builder : MessageBuilder) (own : Buffer) (rr : Rr) (segment : Segment) :
    Run (Bool × MessageBuilder) :=
  if builder.maxBufferSize ≠ 0 ∧ builder.buffer.length + rr.size ≥ builder.maxBufferSize then
    builder.truncate segment
  else do
    let fqdn ← rr.labels own
    let (labelLen, buffer, labels) ←
      writeLabels fqdn builder.labels builder.buffer builder.maxBufferSize
    if labelLen = 0 then builder.truncate segment
    else do
      let dataLen ← rr.dataLen own
      if builder.maxBufferSize ≠ 0 ∧ buffer.length + dataLen ≥ builder.maxBufferSize then
        truncate { builder with labels } segment
      else do
        let data ← rr.dataSpanAfterLabel own
        let buffer ← NewHeader.increment segment (buffer ++ data)
        .ok (true, { builder with buffer, labels })

/-- A record with the buffer it is in. -/
structure OwnRr where
  own : Buffer
  rr : Rr

/-- Several calls of `addRr` for one section. The flag tells whether all records were
added. -/
def addAll (segment : Segment) : List OwnRr → MessageBuilder → Run (Bool × MessageBuilder)
  | [], builder => .ok (true, builder)
  | record :: rest, builder => do
      let (added, next) ← builder.addRr record.own record.rr segment
      let (all, last) ← addAll segment rest next
      .ok (added && all, last)

end MessageBuilder

section header

/-- The header: the four bytes of the id and the flags, and the counts of the sections. -/
def headerBytes (front : List UInt8) (counts : Segment → Nat) : List UInt8 :=
  front ++ be16 (counts .question) ++ be16 (counts .answer) ++
    be16 (counts .authority) ++ be16 (counts .additional)

@[simp] theorem length_headerBytes {front : List UInt8} (counts : Segment → Nat)
    (four : front.length = 4) : (headerBytes front counts).length = 12 := by
  simp [headerBytes, four]

/-- One more record in a section. -/
def counted (counts : Segment → Nat) (segment : Segment) : Segment → Nat := fun other =>
  if other = segment then counts other + 1 else counts other

variable {front : List UInt8} (body : List UInt8) (counts : Segment → Nat)

/-- A count as it is read from the header. -/
theorem get_count (four : front.length = 4) (segment : Segment) (small : counts segment < 65536) :
    get16bValueAt (headerBytes front counts ++ body) (whole (headerBytes front counts ++ body))
      (4 + segment.number * 2) = .ok (counts segment) := by
  have value := readBigEndian_fits 2 small
  obtain ⟨b0, b1, b2, b3, rfl⟩ := List.length_eq_four.mp four
  cases segment <;> exact congrArg Run.ok value

/-- Counting a record changes one count of the header. -/
theorem increment_headerBytes (four : front.length = 4) (segment : Segment)
    (small : counts segment < 65535) :
    NewHeader.increment segment (headerBytes front counts ++ body) =
      .ok (headerBytes front (counted counts segment) ++ body) := by
  rw [NewHeader.increment, inc16BitValueAt,
    get_count body counts four segment (by omega), Run.bind_ok, Nat.mod_eq_of_lt (by omega)]
  obtain ⟨b0, b1, b2, b3, rfl⟩ := List.length_eq_four.mp four
  cases segment <;> rfl

end header

end Wire

end Nsblast
