import Nsblast.Wire.LabelsIterator

/-!
# Indexing a received message

`Message::createIndex` validates the header, then builds one `RrList` for each
section with a non-zero count. An `RrList` parses its elements one behind the
other and keeps the type and the offset of each; iterating the list parses the
element again at that offset.

An element is a view of the message. A question is a name, a type and a class,
and its view is made without a test. A record is tested against the end of the
buffer twice. Offsets inside a section and the sum of its bytes are 16-bit
numbers, and the size of the window behind an offset is an unsigned difference.
-/

namespace Nsblast

open Buffer

/-- `Rr`: a record or a question, as a view of the message it was found in. -/
structure Rr where
  offset : Nat
  offsetToType : Nat
  selfView : View
  deriving DecidableEq, Repr

/-- `TYPE_OPT`. -/
def typeOpt : Nat := 41

namespace Rr

def size (rr : Rr) : Nat := rr.selfView.length

/-- Only a question has exactly a type and a class behind its name. -/
def isQuery (rr : Rr) : Bool := rr.selfView.length - rr.offsetToType == 4

def type (buffer : Buffer) (rr : Rr) : Run Nat :=
  get16bValueAt buffer rr.selfView rr.offsetToType

def clas (buffer : Buffer) (rr : Rr) : Run Nat :=
  get16bValueAt buffer rr.selfView (rr.offsetToType + 2)

def ttl (buffer : Buffer) (rr : Rr) : Run Nat :=
  if rr.isQuery then pure 0 else get32bValueAt buffer rr.selfView (rr.offsetToType + 4)

def rdlength (buffer : Buffer) (rr : Rr) : Run Nat :=
  if rr.isQuery then pure 0 else get16bValueAt buffer rr.selfView (rr.offsetToType + 8)

/-- The bytes of `rdata()`, which is the rest of the record's own view. -/
def rdata (buffer : Buffer) (rr : Rr) : Run (List UInt8) :=
  if rr.isQuery then pure []
  else
    let startOfRdata := rr.offsetToType + 10
    readRange buffer (rr.selfView.start + startOfRdata) (rr.selfView.length - startOfRdata)

/-- `buffer_view_.size() - offset_` in a `size_t`. -/
def maxWindowSize (buffer : Buffer) (offset : Nat) : Nat :=
  (buffer.length + 2 ^ 64 - offset) % 2 ^ 64

/-- The bytes the name takes in place. A name that starts with a pointer is not
parsed here. -/
def labelLen (buffer : Buffer) (offset : Nat) : Run Nat := do
  let first ← read buffer offset
  if first = 0 then pure 1
  else if Labels.isPointer first then pure 2
  else do
    let labels ← Labels.parse buffer offset
    pure labels.bytes

/-- The view of a record of `len` bytes, which must fit the window. -/
def recordView (buffer : Buffer) (offset labelLen len : Nat) : Run Rr := do
  Run.throwIf (len > maxWindowSize buffer offset)
    "Rr::parse: Buffer-window is too small to hold the full RR!"
  Run.assert (len ≤ maxWindowSize buffer offset)
  pure ⟨offset, labelLen, ⟨offset, len⟩⟩

/-- The rest of `Rr::parse` for a record: the fixed fields must fit, and so must
the data whose length they state. -/
def parseRecord (buffer : Buffer) (offset labelLen : Nat) : Run Rr := do
  Run.throwIf (offset + labelLen + 2 + 2 + 4 + 2 > buffer.length)
    "Rr::parse: Buffer-window is too small to hold rdtata section!"
  let rdlen ← get16bValueAt buffer (whole buffer) (offset + labelLen + 2 + 2 + 4)
  recordView buffer offset labelLen (labelLen + (2 + 2 + 4 + 2 + rdlen))

/-- `Rr::parse`. -/
def parse (buffer : Buffer) (offset : Nat) (isQuery : Bool) : Run Rr := do
  Run.throwIf (maxWindowSize buffer offset < 2) "Rr::parse: Buffer-window < 2 bytes!"
  let labelLen ← labelLen buffer offset
  if isQuery then pure ⟨offset, labelLen, ⟨offset, labelLen + 4⟩⟩
  else parseRecord buffer offset labelLen

end Rr

/-- `RrList::Index`. -/
structure Index where
  type : Nat
  offset : Nat
  deriving DecidableEq, Repr

/-- `RrList`: the index of one section, and the 16-bit sum of its bytes. -/
structure RrList where
  isQuestion : Bool
  index : List Index
  bytes : Nat
  deriving DecidableEq, Repr

namespace RrList

/-- The loop of `RrList::parse`. -/
def indexFrom (buffer : Buffer) (isQuestion : Bool) :
    Nat → Nat → Nat → Run (List Index × Nat)
  | 0, _, bytes => pure ([], bytes)
  | remaining + 1, coffset, bytes => do
      let rr ← Rr.parse buffer coffset isQuestion
      let type ← rr.type buffer
      let (rest, total) ← indexFrom buffer isQuestion remaining
        ((coffset + rr.size) % 65536) ((bytes + rr.size) % 65536)
      pure (⟨type, coffset⟩ :: rest, total)

/-- `RrList::RrList`: the offset is passed as a `uint16_t`. -/
def construct (buffer : Buffer) (offset count : Nat) (isQuestion : Bool) : Run RrList := do
  let (index, bytes) ← indexFrom buffer isQuestion count (offset % 65536) 0
  pure ⟨isQuestion, index, bytes⟩

end RrList

/-- `Message` after its construction: the four sections. -/
structure Message where
  rrsets : List (Option RrList)
  deriving DecidableEq, Repr

namespace Message

/-- `Header::SIZE`. -/
def headerSize : Nat := 12

/-- The bits of `hdrbits` that `validate` decides on. -/
structure HdrFlags where
  aa : Bool
  opcode : Nat
  qr : Bool
  rcode : Nat
  deriving DecidableEq, Repr

def getHdrFlags (buffer : Buffer) : Run HdrFlags := do
  Run.throwIf (buffer.length < headerSize)
    "getHdrFlags: Cannot get value outside range of buffer!"
  let first ← read buffer 2
  let second ← read buffer 3
  pure {
    aa := first.toNat / 4 % 2 == 1
    opcode := first.toNat / 8 % 16
    qr := first.toNat / 128 == 1
    rcode := second.toNat % 16 }

def qdcount (buffer : Buffer) : Run Nat := get16bValueAt buffer (whole buffer) 4
def ancount (buffer : Buffer) : Run Nat := get16bValueAt buffer (whole buffer) 6
def nscount (buffer : Buffer) : Run Nat := get16bValueAt buffer (whole buffer) 8
def arcount (buffer : Buffer) : Run Nat := get16bValueAt buffer (whole buffer) 10

/-- `Header::validate`. Opcode 0 is QUERY and 5 is RESERVED_; the other flags are
only logged. -/
def validate (buffer : Buffer) : Run Bool := do
  let flags ← getHdrFlags buffer
  if flags.opcode ≥ 5 then pure false
  else if flags.opcode = 0 && flags.aa && !flags.qr then pure false
  else if flags.rcode ≠ 0 && !flags.qr then pure false
  else if flags.qr then pure true
  else do
    let answers ← ancount buffer
    pure (answers == 0)

/-- The loop over the sections in `Message::createIndex`. -/
def sectionsFrom (buffer : Buffer) : List Nat → Nat → Nat → Run (List (Option RrList))
  | [], _, _ => pure []
  | sectionCount :: later, sectionIndex, offset =>
      if sectionCount ≠ 0 then do
        let rs ← RrList.construct buffer offset sectionCount (sectionIndex == 0)
        let rest ← sectionsFrom buffer later (sectionIndex + 1) (offset + rs.bytes)
        pure (some rs :: rest)
      else do
        let rest ← sectionsFrom buffer later (sectionIndex + 1) offset
        pure (none :: rest)

/-- The construction of a `Message` from received bytes. -/
def createIndex (buffer : Buffer) : Run Message := do
  let valid ← validate buffer
  Run.throwIf (!valid) "Message::createIndex: Invalid message header"
  let questions ← qdcount buffer
  let answers ← ancount buffer
  let authorities ← nscount buffer
  let additional ← arcount buffer
  let rrsets ← sectionsFrom buffer [questions, answers, authorities, additional] 0 headerSize
  pure ⟨rrsets⟩

end Message

end Nsblast
