import Nsblast.Engine.ReplyBuilder
import Nsblast.Storage.SelfSpan
import Nsblast.Wire.CompressionPointers

/-!
# The replies of a transfer

A transfer over TCP goes on with another reply when a record does not fit into the one in
the making. The replies are those of `MessageBuilder`; each of them comes with the records that
were added to its answers.

A pointer has room for fourteen bits. A name whose tail was first written further
back gets a pointer to another place, so that what is read is not what was
written: the model reports `outOfBounds`.
-/

namespace Nsblast

open List Labels Wire.MessageBuilder
open Wire.DnsEngine (createBuilder)

/-- A stored record in a buffer of its own. Where it has a pointer, its name stands in front
of it. -/
def StoredRr.own (rr : StoredRr) : Run OwnRr := do
  let name := wireName rr.owner
  let own := name ++ ((if rr.pointer then pointerBytes 0 else []) ++ rr.dataSpanAfterLabel)
  let parsed ← Rr.parse own (if rr.pointer then name.length else 0) false
  .ok ⟨own, parsed⟩

/-- A reply and the records of its answers. -/
structure Reply where
  mb : Wire.MessageBuilder
  answers : List Record := []
  deriving DecidableEq, Repr

/-- `MessageBuilder::addRr` to the answer section. -/
def Reply.addRr (reply : Reply) (rr : StoredRr) : Run (Bool × Reply) := do
  let record ← rr.own
  let pointers ← reply.mb.emitted record
  if ∃ pointer ∈ pointers, 0x4000 ≤ pointer.target then .outOfBounds
  else do
    let (added, mb) ← reply.mb.addRr record.own record.rr .answer
    .ok (added, ⟨mb, if added then reply.answers ++ [rr.toRecord] else reply.answers⟩)

/-- A request for a transfer, as it was parsed, and the sizes of replies: to a transfer, and
for a request with an OPT record. -/
structure TransferRequest where
  request : Wire.DnsEngine.Request
  message : Message
  maxLargeTcpBufferSize : Nat
  maxUdpBufferSizeWithOpt : Nat
  deriving DecidableEq, Repr

/-- The reply in the making and the ones handed to `send` before it. -/
structure Sender where
  reply : Reply
  sent : List Reply := []
  deriving DecidableEq, Repr

namespace Sender

/-- All records sent so far, in order. -/
def answers (sender : Sender) : List Record :=
  sender.sent.flatMap (·.answers) ++ sender.reply.answers

/-- `DnsEngine::flushIf`. -/
def flushIf (request : TransferRequest) (sender : Sender) (rr : StoredRr) : Run Sender :=
  if sender.reply.mb.buffer.length + rr.size ≥ sender.reply.mb.maxBufferSize then do
    let done ← sender.reply.mb.finish
    let (ok, mb) ← createBuilder request.request request.message request.maxLargeTcpBufferSize
      request.maxUdpBufferSizeWithOpt
    Run.assert ok
    .ok { reply := { mb }, sent := sender.sent ++ [{ sender.reply with mb := done }] }
  else .ok sender

/-- `flushIf` and `addRr`, as a full transfer calls them for each record. -/
def offer (request : TransferRequest) (sender : Sender) (rr : StoredRr) : Run Sender := do
  let flushed ← sender.flushIf request rr
  let (ok, reply) ← flushed.reply.addRr rr
  Run.assert ok
  .ok { flushed with reply }

def offerAll (request : TransferRequest) : List StoredRr → Sender → Run Sender
  | [], sender => .ok sender
  | rr :: rest, sender => do
      let next ← sender.offer request rr
      offerAll request rest next

variable {request : TransferRequest} {next sender : Sender} {rr : StoredRr}

theorem flushIf_answers (flushed : sender.flushIf request rr = .ok next) :
    next.answers = sender.answers := by
  rw [flushIf] at flushed
  split at flushed
  · simp only [Run.bind_eq_ok] at flushed
    obtain ⟨_, _, _, _, _, _, same⟩ := flushed
    cases same
    simp [answers]
  · cases flushed
    rfl

/-- An offered record is sent behind the others. -/
theorem offer_answers (offered : sender.offer request rr = .ok next) :
    next.answers = sender.answers ++ [rr.toRecord] := by
  simp only [offer, Reply.addRr, Run.bind_eq_ok] at offered
  obtain ⟨flushed, ready, ⟨ok, reply⟩, ⟨_, _, _, _, added⟩, _, asserted, same⟩ := offered
  cases same
  split at added
  · cases added
  · rw [Run.bind_eq_ok] at added
    obtain ⟨⟨added, mb⟩, _, isReply⟩ := added
    cases isReply
    cases added with
    | false => cases asserted
    | true => rw [← flushIf_answers ready, answers, answers, if_pos rfl, append_assoc]

theorem offerAll_answers {rrs : List StoredRr} (offered : offerAll request rrs sender = .ok next) :
    next.answers = sender.answers ++ rrs.map (·.toRecord) := by
  induction rrs generalizing sender with
  | nil =>
    cases offered
    rw [map_nil, append_nil]
  | cons rr rest ih =>
    rw [offerAll, Run.bind_eq_ok] at offered
    obtain ⟨middle, first, later⟩ := offered
    rw [ih later, offer_answers first, append_assoc, singleton_append, map_cons]

theorem offerAll_append (request : TransferRequest) (first second : List StoredRr) (sender : Sender) :
    offerAll request (first ++ second) sender =
      (offerAll request first sender >>= offerAll request second) := by
  induction first generalizing sender with
  | nil => rfl
  | cons rr rest ih =>
    rw [cons_append, offerAll, offerAll]
    cases sender.offer request rr with
    | ok next => exact ih next
    | _ => rfl

end Sender

end Nsblast
