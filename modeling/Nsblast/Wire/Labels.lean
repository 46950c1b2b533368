import Nsblast.Wire.Buffer

/-!
# Parsing a domain name

`Labels::parse` walks a name byte by byte, following compression pointers
through the whole message, and `Labels::Iterator` walks it again label by label.
Both are embedded as they are written, with the local variables of the parser's
loop collected in one record. The walkers protect themselves differently: the
parser keeps a list of the targets it has jumped to and a limit on pointers in a
row, the iterator has only the limit.

A fuel argument makes the two loops structurally recursive; running out of it is
an outcome of its own. Offsets are natural numbers, reduced to 16 bits where the
source stores them in a `uint16_t`.
-/

namespace Nsblast

open Buffer

/-- `Labels`: a view over the full buffer, where the name starts in it, and the
three numbers the parser counted. -/
structure Labels where
  view : Buffer
  offset : Nat
  count : Nat
  size : Nat
  bytes : Nat
  deriving DecidableEq, Repr

namespace Labels

/-- `MAX_PTRS_IN_A_ROW`. -/
def maxPtrsInARow : Nat := 16

/-- Both bits of `START_OF_POINTER_TAG` are set. -/
def isPointer (byte : UInt8) : Bool := byte &&& 0xC0 == 0xC0

/-- The bit of `START_OF_EXT_LABEL_TAG` is set. -/
def isExtLabel (byte : UInt8) : Bool := byte &&& 0x40 == 0x40

/-- The 14 bits after the two tag bits, in host order. -/
def resolvePtr (buffer : Buffer) (offset : Nat) : Run Nat := do
  let high ← read buffer offset
  let low ← read buffer (offset + 1)
  pure (readBigEndian [high &&& 0x3F, low])

/-- The local variables of the parser's loop. `position` is the distance of the
loop iterator from the start of the buffer. -/
structure Scan where
  position : Nat
  inPointer : Bool := false
  inHeader : Bool := true
  labelBytes : Nat := 0
  numPtrsInSequence : Nat := 0
  jumpedTo : List Nat := []
  count : Nat := 0
  size : Nat := 0
  bytes : Nat := 0
  deriving DecidableEq, Repr

/-- One turn of the loop either goes on with new variables or leaves it. -/
inductive Turn where
  | next (scan : Scan)
  | leave (result : Run Scan)
  deriving DecidableEq, Repr

/-- The last statement of the loop body, shared by a label header and a label
byte: the limit for a complete name. -/
def checkSize (scan : Scan) : Turn :=
  if scan.size > 254 then
    .leave (.thrown "Labels::parse: Labels exeed the 255 bytes limit for a fqdn")
  else .next scan

/-- `++bytes_`: bytes are counted until the first pointer has been passed. -/
def countByte (scan : Scan) : Scan :=
  { scan with bytes := if scan.inPointer then scan.bytes else (scan.bytes + 1) % 65536 }

/-- The root byte ends the name. -/
def root (scan : Scan) : Turn :=
  if scan.size + 1 > 255 then
    .leave (.thrown "Labels::parse: Labels exeed the 255 bytes limit for a fqdn")
  else .leave (.ok { countByte scan with count := scan.count + 1, size := scan.size + 1 })

/-- The variables after a jump. The pointer is not counted as a label: the label
is counted where the jump lands. Its two bytes are counted if it is the first. -/
def jump (scan : Scan) (target : Nat) : Scan :=
  { countByte (countByte scan) with
    inPointer := true
    numPtrsInSequence := scan.numPtrsInSequence + 1
    jumpedTo := scan.jumpedTo ++ [target]
    position := target }

/-- A pointer: its second byte must exist, its target must lie inside the buffer
and must not have been jumped to before. -/
def pointer (buffer : Buffer) (scan : Scan) : Turn :=
  if scan.numPtrsInSequence + 1 ≥ maxPtrsInARow then
    .leave (.thrown "Labels::parse: Too many pointers in a row")
  else if scan.position + 1 = buffer.length then
    .leave (.thrown "Labels::parse: Found a label pointer starting at the last byte of the buffer")
  else match resolvePtr buffer scan.position with
    | .ok ptr =>
        if ptr ≥ buffer.length then
          .leave (.thrown "Labels::parse: Pointer tried to escape buffer")
        else if ptr ∈ scan.jumpedTo then
          .leave (.thrown "Labels::parse: Found a recursive pointer.")
        else .next (jump scan ptr)
    | _ => .leave .outOfBounds

/-- The variables after the header of a label. The first header is not counted in
the size, as there is no leading dot in the name. -/
def startLabel (scan : Scan) (length : Nat) : Scan :=
  { countByte scan with
    count := scan.count + 1
    numPtrsInSequence := 0
    inHeader := false
    labelBytes := length
    size := if scan.size = 0 then 0 else scan.size + 1
    position := scan.position + 1 }

/-- The header byte of a normal label. -/
def label (buffer : Buffer) (scan : Scan) (byte : UInt8) : Turn :=
  if isExtLabel byte then .leave (.thrown "Deprecated: Extended Label Type 0x40")
  else if byte.toNat > 63 then
    .leave (.thrown ("Labels::parse: Max label size is 63 bytes: This label is "
      ++ toString byte.toNat))
  else if scan.position + byte.toNat ≥ buffer.length then
    .leave (.thrown "Labels::parse: Labels exeed the containing buffer-size")
  else checkSize (startLabel scan byte.toNat)

/-- The variables after a byte of the current label. -/
def passByte (scan : Scan) : Scan :=
  { countByte scan with
    size := scan.size + 1
    labelBytes := scan.labelBytes - 1
    inHeader := scan.labelBytes - 1 == 0
    position := scan.position + 1 }

/-- A byte of the current label. -/
def labelByte (scan : Scan) : Turn := checkSize (passByte scan)

/-- The byte the loop looks at where a label or a pointer starts. -/
def header (buffer : Buffer) (scan : Scan) (byte : UInt8) : Turn :=
  if scan.position ≥ 65535 then
    .leave (.thrown "Labels::parse: Too long distance between labels in the buffer. Must be addressable with 16 bits.")
  else if byte = 0 then root scan
  else if isPointer byte then pointer buffer scan
  else label buffer scan byte

/-- The body of the parser's loop. -/
def body (buffer : Buffer) (scan : Scan) : Turn :=
  match buffer[scan.position]? with
  | none => .leave .outOfBounds
  | some byte => if scan.inHeader then header buffer scan byte else labelByte scan

/-- The loop runs until the body leaves it or the end of the buffer is reached. -/
def loop (buffer : Buffer) : Nat → Scan → Run Scan
  | 0, _ => .outOfFuel
  | fuel + 1, scan =>
      if scan.position = buffer.length then .thrown "Labels::parse: Labels are not valid"
      else match body buffer scan with
        | .next following => loop buffer fuel following
        | .leave result => result

/-- Every target is jumped to at most once, and between two jumps the position
only grows: this many turns are enough for any name in the buffer. -/
def turns (buffer : Buffer) : Nat := (buffer.length + 1) * (buffer.length + 1)

/-- `Labels::parse`. -/
def parse (buffer : Buffer) (startOffset : Nat) : Run Labels :=
  if startOffset ≥ buffer.length then
    .thrown "Labels::parse: startOffset needs to be smaller than the buffers size"
  else do
    let scan ← loop buffer (turns buffer) { position := startOffset }
    pure {
      view := buffer
      offset := startOffset % 65536
      count := scan.count
      size := scan.size
      bytes := scan.bytes }

/-- The iterator's own pointer walk: `remaining` counts the jumps it still
allows in a row. -/
def followPointers (buffer : Buffer) : Nat → Nat → Run Nat
  | remaining, location => do
      let byte ← read buffer location
      if isPointer byte then
        match remaining with
        | 0 => .thrown "Labels::Iterator::increment: Recursive pointer or too many jumps!"
        | remaining + 1 => do
            let ptr ← resolvePtr buffer location
            Run.assert (ptr < buffer.length)
            followPointers buffer remaining ptr
      else pure location

/-- The label the iterator stands on. The root label does not point to anything. -/
def update (buffer : Buffer) (location : Nat) : Run View := do
  let length ← read buffer location
  Run.assert (length.toNat = 0 || location + 1 + length.toNat < buffer.length)
  pure ⟨location + 1, length.toNat⟩

/-- The labels visited from an iterator at `location` until it has become
`end()`: the increment from a non-empty label moves behind it, the increment
from the root ends the iteration. -/
def visit (buffer : Buffer) : Nat → Nat → Run (List View)
  | 0, _ => .outOfFuel
  | fuel + 1, location => do
      let location ← followPointers buffer maxPtrsInARow location
      let current ← update buffer location
      if current.length = 0 then pure [current]
      else do
        let rest ← visit buffer fuel ((location + (current.length + 1)) % 65536)
        pure (current :: rest)

/-- All labels from `begin()` to `end()`. A default constructed name has an
empty view, for which the two are the same. -/
def labels (name : Labels) (fuel : Nat) : Run (List View) :=
  if name.view = [] then .ok [] else visit name.view fuel name.offset

/-- Appending the labels with a dot between them; the root adds nothing. -/
def join (buffer : Buffer) : List View → List UInt8 → Run (List UInt8)
  | [], text => .ok text
  | current :: rest, text => do
      if current.length = 0 then join buffer rest text
      else do
        let bytes ← readRange buffer current.start current.length
        join buffer rest (text ++ (if text = [] then [] else [0x2E]) ++ bytes)

/-- `Labels::string` without the trailing dot. -/
def string (name : Labels) (fuel : Nat) : Run (List UInt8) := do
  let visited ← labels name fuel
  join name.view visited []

end Labels

end Nsblast
