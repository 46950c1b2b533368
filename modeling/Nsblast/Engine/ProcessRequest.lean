import Nsblast.Engine.ReplyBuilder
import Nsblast.Library.Handler
import Nsblast.Storage.EntryBytes
import Nsblast.Store.Transaction

/-!
# Processing a request

`processRequest` parses a message, starts the reply and hands the message on by its
opcode. The reply is sent by code that runs when the scope is left, whether the handler
returns or throws, unless the handler has dropped the builder or has asked for no reply.
That code runs in a destructor: an exception in it ends the process.

A query is answered from the entry of its name. An entry with a CNAME adds it to the
answer, and the search goes on with the owner of that record. A name without an entry may
lie in a zone that is delegated; then the name servers are given.

The two kinds of zone transfers, and what is done about a notification, are given. A
transfer may send messages of its own and start a new reply.
-/

namespace Nsblast.Wire

open Buffer
open Handler (call)

namespace DnsEngine

/-- `labelsToFqdnKey`. -/
def labelsToFqdnKey (labels : Labels) : Run Name := do
  let text ← labels.string labels.count
  .ok (Name.toLower text)

/-- `getNextKey`. Behind a backslash no dot is found. -/
def getNextKey : Name → Name
  | [] => []
  | ch :: rest => if ch = 0x2E then rest else if ch = 0x5C then [] else getNextKey rest

/-- `QtypeAllResponse`. -/
inductive QtypeAllResponse where
  | ignore
  | all
  | relevant
  | hinfo
  deriving DecidableEq, Repr

/-- What the handlers of a request share: the reply, whether it is to be sent, and what
was sent already. -/
structure Serving where
  mb : Option MessageBuilder
  doReply : Bool := true
  sent : List Buffer := []
  deriving DecidableEq, Repr

/-- There is a reply, if only to be finished. -/
def Serving.HasReply (serving : Serving) : Prop := serving.mb.isSome = true

/-- A zone transfer. It may start a new reply, but drops none. -/
structure Transfer where
  run : Request → Message → Name → Handler Serving Unit
  keeps : ∀ request message key, (run request message key).Keeps Serving.HasReply

/-- `DnsEngine`, with its configuration. -/
structure Engine where
  udpMaxBufferSizeWithOpt : UInt16 := 4096
  hinfoTtl : UInt32 := 86400
  udpQanyResponse : String := "hinfo"
  tcpQanyResponse : String := "relevant"
  sorter : Sorter placeLess
  notified : Name → Run Unit
  onNotify : Name → Run Unit
  doAxfr : Transfer
  doIxfr : Transfer

/-- `getMaxUdpBufferSizeWithOpt`. -/
def Engine.getMaxUdpBufferSizeWithOpt (engine : Engine) : Nat :=
  max engine.udpMaxBufferSizeWithOpt.toNat maxUdpQueryBuffer

/-- `getQtypeAllResponse`. -/
def Engine.getQtypeAllResponse (engine : Engine) (request : Request) (type : Nat) :
    QtypeAllResponse :=
  if type ≠ qtypeAll then .ignore
  else
    match if request.isTcp then engine.tcpQanyResponse else engine.udpQanyResponse with
    | "hinfo" => .hinfo
    | "relevant" => .relevant
    | "all" => .all
    | _ => .hinfo

/-- `lookup`. -/
def lookup (families : Families Buffer) (fqdn : Name) : Run Entry :=
  match (families .entry)[RealKey.ofName fqdn]? with
  | some bytes => Entry.construct bytes
  | none => .ok ⟨[], 0, []⟩

/-- The entry with the answer that is given instead of all records. -/
def Engine.hinfo (engine : Engine) (fqdn : Name) : Run Entry := do
  let rdata := [7, 0x52, 0x46, 0x43, 0x38, 0x34, 0x38, 0x32, 0]
  let builder ← StorageBuilder.createRr {} fqdn 13 engine.hinfoTtl rdata false
  let bytes ← builder.finish engine.sorter
  let entry ← Entry.construct bytes
  Run.assert (entry.span ≠ [])
  .ok entry

section building

/-- A call on the builder of the reply. -/
def withBuilder {α : Type} (change : MessageBuilder → Run (α × MessageBuilder)) :
    Handler Serving α := fun serving =>
  match serving.mb with
  | none => .error .outOfBounds serving
  | some mb =>
      match change mb with
      | .ok (value, next) => .ok value { serving with mb := some next }
      | .thrown what => .error (.thrown what) serving
      | .aborted => .error .aborted serving
      | .outOfBounds => .error .outOfBounds serving
      | .outOfFuel => .error .outOfFuel serving

def setRcode (rcode : Nat) : Handler Serving Unit :=
  withBuilder fun mb => .ok ((), mb.setRcode rcode)

/-- `addRr`, behind which a handler returns if the record does not fit. -/
def addOrReturn (own : Buffer) (segment : Segment) (rr : Rr) : Handler Serving Unit := do
  let added ← withBuilder fun mb => mb.addRr own rr segment
  if added then pure () else throw .returned

/-- One turn of a loop over an entry: a record is added if it is of one of some types. -/
def addRecord (entry : Entry) (segment : Segment) (relevant : Nat → Bool) (place : Index) :
    Handler Serving Unit := do
  let rr ← call (entry.rrAt place)
  let type ← call (rr.type entry.span)
  if relevant type then addOrReturn entry.span segment rr else pure ()

def addRecords (entry : Entry) (segment : Segment) (relevant : Nat → Bool) : Handler Serving Unit :=
  entry.index.forM (addRecord entry segment relevant)

end building

section query

variable (engine : Engine) (families : Families Buffer) (request : Request)

/-- `find_if` for the CNAME of an entry. -/
def findCname (entry : Entry) : List Index → Run (Option Rr)
  | [] => .ok none
  | place :: rest => do
      let rr ← entry.rrAt place
      let type ← rr.type entry.span
      if type = RrType.cname.toNat then .ok (some rr) else findCname entry rest

/-- The types that are copied to the answer. The response `hinfo` is dealt with before. -/
def copied (response : QtypeAllResponse) (qtype type : Nat) : Bool :=
  match response with
  | .ignore => type == qtype
  | .hinfo => false
  | .relevant =>
      type == RrType.a.toNat || type == RrType.aaaa.toNat || type == RrType.cname.toNat ||
        type == RrType.mx.toNat
  | .all => true

/-- The name servers of a delegation, with the names they are looked up by. -/
def addNameServers (entry : Entry) : List Index → Handler Serving (List Name)
  | [] => pure []
  | place :: rest => do
      let rr ← call (entry.rrAt place)
      let type ← call (rr.type entry.span)
      if type = RrType.ns.toNat then do
        addOrReturn entry.span .authority rr
        let labels ← call (rr.labels entry.span)
        let ns ← call (labels.string labels.count)
        let others ← addNameServers entry rest
        pure (ns :: others)
      else addNameServers entry rest

/-- The addresses of one name server. -/
def addAddresses (ns : Name) : Handler Serving Unit := do
  let entry ← call (lookup families (Name.toLower ns))
  if entry.span ≠ [] then
    addRecords entry .additional fun type =>
      type == RrType.cname.toNat || type == RrType.a.toNat || type == RrType.aaaa.toNat
  else pure ()

/-- The part for a name that is not found. It tells whether there is a referral. -/
def addReferral (key : Name) : Handler Serving Bool := do
  let prev := getNextKey key
  if prev = [] then pure false
  else do
    let entry ← call (lookup families prev)
    if entry.span = [] then pure false
    else do
      let flags ← call entry.flags
      if flags.ns && !flags.soa then do
        let nsList ← addNameServers entry entry.index
        nsList.forM (addAddresses families)
        pure true
      else pure false

/-- A question, as `processRequest` has read it. -/
structure Asked where
  qtype : Nat
  origFqdn : Labels
  response : QtypeAllResponse

/-- The part behind the label `again`. -/
def again (asked : Asked) : Nat → Name → Bool → Handler Serving Unit
  | 0, _, _ => throw .outOfFuel
  | fuel + 1, key, persuingCname => do
      let rrSet ← call (lookup families key)
      if rrSet.span ≠ [] then do
        let flags ← call rrSet.flags
        if flags.cname && asked.qtype != RrType.cname.toNat then do
          match ← call (findCname rrSet rrSet.index) with
          | none => do
              modify fun serving => { serving with doReply := false }
              throw (.thrown " DnsEngine::processRequest Internal error: rr_cname == rr.end()")
          | some cname => do
              addOrReturn rrSet.span .answer cname
              let owner ← call (cname.labels rrSet.span)
              let next ← call (labelsToFqdnKey owner)
              again asked fuel next true
        else if asked.response = .hinfo then do
          let fqdn ← call (asked.origFqdn.string asked.origFqdn.count)
          let entry ← call (engine.hinfo fqdn)
          match entry.index with
          | [] => throw .outOfBounds
          | place :: _ => do
              let rr ← call (entry.rrAt place)
              addOrReturn entry.span .answer rr
        else addRecords rrSet .answer (copied asked.response asked.qtype)
      else do
        let isReferral ← addReferral families key
        if !isReferral && !persuingCname then setRcode Rcode.nameError else pure ()

/-- One turn of the loop over the questions. -/
def answer (fuel : Nat) (message : Message) (place : Index) : Handler Serving Unit := do
  let query ← call (Rr.parse request.span place.offset true)
  let clas ← call (query.clas request.span)
  if clas ≠ classIn.toNat then do
    setRcode Rcode.notImplemented
    throw .returned
  else do
    let qtype ← call (query.type request.span)
    let origFqdn ← call (query.labels request.span)
    let key ← call (labelsToFqdnKey origFqdn)
    if qtype = qtypeAxfr then do
      engine.doAxfr.run request message key
      throw .returned
    else if qtype = qtypeIxfr then do
      engine.doIxfr.run request message key
      throw .returned
    else again engine families ⟨qtype, origFqdn, engine.getQtypeAllResponse request qtype⟩ fuel key false

end query

/-- `handleNotify`. The test of the class stands behind one that is never met. -/
def handleNotify (engine : Engine) (request : Request) (message : Message) (qr : Bool) :
    Handler Serving Unit := do
  if qr then modify fun serving => { serving with mb := none } else pure ()
  let questions ← call (Message.qdcount request.span)
  let formatError : Handler Serving Unit :=
    if qr then pure () else setRcode Rcode.formatError
  if questions ≠ 1 then formatError
  else
    match message.indexOf .question with
    | [] => throw .outOfBounds
    | place :: _ => do
        let rr ← call (Rr.parse request.span place.offset true)
        let type ← call (rr.type request.span)
        if type ≠ RrType.soa.toNat then formatError
        else do
          let labels ← call (rr.labels request.span)
          let text ← call (labels.string labels.count)
          if qr then call (engine.notified (Name.toLower text))
          else call (engine.onNotify (Name.toLower text))

/-- The body of `processRequest`, behind the test of what `createBuilder` returned. -/
def dispatch (engine : Engine) (families : Families Buffer) (fuel : Nat) (request : Request)
    (message : Message) (flags : Message.HdrFlags) : Handler Serving Unit :=
  if flags.opcode = 4 then handleNotify engine request message flags.qr
  else if flags.opcode ≠ 0 then setRcode Rcode.notImplemented
  else (message.indexOf .question).forM (answer engine families request fuel message)

/-- What is left when `processRequest` is over. -/
structure Outcome where
  sent : List Buffer := []
  ending : Run Unit
  deriving DecidableEq, Repr

/-- The code that runs when the scope is left. -/
def scopedExit (serving : Serving) (ending : Run Unit) : Outcome :=
  match serving.mb with
  | some mb =>
      if serving.doReply then
        match Run.noexcept mb.finish with
        | .ok done => ⟨serving.sent ++ [done.buffer], ending⟩
        | .thrown what => ⟨serving.sent, .thrown what⟩
        | .aborted => ⟨serving.sent, .aborted⟩
        | .outOfBounds => ⟨serving.sent, .outOfBounds⟩
        | .outOfFuel => ⟨serving.sent, .outOfFuel⟩
      else ⟨serving.sent, ending⟩
  | none => ⟨serving.sent, ending⟩

/-- Leaving the scope, unless the process does not get there. -/
def close : EStateM.Result Leave Serving Unit → Outcome
  | .ok () serving => scopedExit serving (.ok ())
  | .error .returned serving => scopedExit serving (.ok ())
  | .error (.thrown what) serving => scopedExit serving (.thrown what)
  | .error .aborted serving => ⟨serving.sent, .aborted⟩
  | .error .outOfBounds serving => ⟨serving.sent, .outOfBounds⟩
  | .error .outOfFuel serving => ⟨serving.sent, .outOfFuel⟩

/-- What `processRequest` does before the reply can be sent. -/
def begin (engine : Engine) (request : Request) :
    Run (Message × Message.HdrFlags × Bool × MessageBuilder) := do
  let message ← Message.createIndex request.span
  let (ok, mb) ← createBuilder request message request.maxReplyBytes.toNat
    engine.getMaxUdpBufferSizeWithOpt
  let flags ← Message.getHdrFlags request.span
  .ok (message, flags, ok, mb)

/-- The scope in which the reply is due: nothing more is done unless `createBuilder`
found the request to be in order. -/
def scope (engine : Engine) (families : Families Buffer) (fuel : Nat) (request : Request)
    (message : Message) (flags : Message.HdrFlags) (ok : Bool) (mb : MessageBuilder) :
    EStateM.Result Leave Serving Unit :=
  if ok then dispatch engine families fuel request message flags { mb := some mb }
  else .ok () { mb := some mb }

/-- `processRequest`. -/
def processRequest (engine : Engine) (families : Families Buffer) (fuel : Nat) (request : Request) :
    Outcome :=
  match begin engine request with
  | .ok (message, flags, ok, mb) =>
      close (scope engine families fuel request message flags ok mb)
  | .thrown what => ⟨[], .thrown what⟩
  | .aborted => ⟨[], .aborted⟩
  | .outOfBounds => ⟨[], .outOfBounds⟩
  | .outOfFuel => ⟨[], .outOfFuel⟩

/-- A transfer that adds nothing. -/
def emptyTransfer : Transfer where
  run _ _ _ := pure ()
  keeps _ _ _ := Handler.keeps_pure ()

/-- A server with the default configuration. -/
def sampleEngine : Engine where
  sorter := Sorter.byKey compare fun place : Index => sortingTable (UInt16.ofNat place.type)
  notified _ := .ok ()
  onNotify _ := .ok ()
  doAxfr := emptyTransfer
  doIxfr := emptyTransfer

end DnsEngine

end Nsblast.Wire
