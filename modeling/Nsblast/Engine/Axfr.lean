import Nsblast.Engine.AnsweredReplies
import Nsblast.Engine.Sender
import Nsblast.Store.Iteration

/-!
# Sending a zone

`DnsEngine::doAxfr` visits the entries from the key of the zone on, in the order
of their keys, and sends the records of each entry that is not behind a cut. The
key of an entry with NS records and no SOA is put into `cut` once for every record
of the entry. The visit ends with the keys of the class, not with the zone.

`sentEntries` is the part of the visit that decides which entries are sent. The
whole transfer offers their records to the reply, in order, and then the SOA.

An engine with `axfr` as its transfer sends these replies for a request.
-/

namespace Nsblast

open Sender RealKey List

namespace Entry

/-- NS records and no SOA: the start of a cut. -/
def isDelegation (entry : Entry) : Bool := entry.hasType RrType.ns && !entry.hasType RrType.soa

end Entry

namespace DnsEngine

/-- What a visit of the entries knows. `rcode` is set when the zone is not found. -/
structure Visit where
  sender : Sender
  count : Nat := 0
  zone : Option Entry := none
  cut : List UInt8 := []
  nameError : Bool := false

/-- The key is behind the cut. -/
def behindCut (cut : List UInt8) (dbKey : Key) : Bool :=
  cut ≠ [] && cut.length ≤ dbKey.length && dbKey.take cut.length == cut

/-- The loop over the records of an entry. -/
def sendRrs (request : TransferRequest) (dbKey : Key) (delegation : Bool) :
    List StoredRr → Visit → Run Visit
  | [], visit => .ok visit
  | rr :: rest, visit => do
      let cut := if delegation then visit.cut ++ dbKey else visit.cut
      let sender ← visit.sender.offer request rr
      sendRrs request dbKey delegation rest { visit with sender, cut }

/-- An entry behind no cut. The first one must be the zone. -/
def sendEntry (request : TransferRequest) (key dbKey : Key) (entry : Entry) (visit : Visit) :
    Run (Bool × Visit) :=
  let counted := { visit with count := visit.count + 1, cut := [] }
  if counted.count = 1 then
    if key ≠ dbKey then .ok (false, { counted with nameError := true })
    else if !entry.hasType RrType.soa then .ok (false, { counted with nameError := true })
    else do
      Run.assert ((entry.rrs.map (·.type)).head? = some RrType.soa)
      let sent ← sendRrs request dbKey entry.isDelegation entry.rrs
        { counted with zone := some entry }
      .ok (true, sent)
  else do
    let sent ← sendRrs request dbKey entry.isDelegation entry.rrs counted
    .ok (true, sent)

/-- The callback of the iteration. -/
def onEntry (request : TransferRequest) (key dbKey : Key) (entry : Entry) (visit : Visit) :
    Run (Bool × Visit) :=
  if behindCut visit.cut dbKey then .ok (true, visit)
  else sendEntry request key dbKey entry visit

/-- The end of `doAxfr`: the SOA once more, if there is a zone. -/
def sendClosingSoa (request : TransferRequest) (zone : Option Entry) (sender : Sender) : Run Sender :=
  match zone with
  | none => .ok sender
  | some entry =>
      match entry.rrs with
      | [] => .aborted
      | soa :: _ => do
          Run.assert (soa.type = RrType.soa)
          sender.offer request soa

/-- `DnsEngine::doAxfr`. The sender holds what was handed to `send` and the reply
that is sent at the end of the request. -/
def doAxfr (request : TransferRequest) (db : Db Entry) (trx : Transaction Entry) (zone : Name)
    (sender : Sender) : Run Visit := do
  let key := ofName zone
  let visit ← iterateT (trx.view db .entry) key (onEntry request key) { sender }
  let closed ← sendClosingSoa request visit.zone visit.sender
  .ok { visit with sender := closed, nameError := visit.nameError || visit.zone.isNone }

section Factor

/-- The cut behind an entry that is sent. -/
def cutBehind (dbKey : Key) (entry : Entry) : List UInt8 :=
  if entry.isDelegation then (replicate entry.rrs.length dbKey).flatten else []

/-- The entries that are sent, of the ones to be visited. -/
def sentEntries : List UInt8 → List (Key × Entry) → List (Key × Entry)
  | _, [] => []
  | cut, (dbKey, entry) :: rest =>
      if behindCut cut dbKey then sentEntries cut rest
      else (dbKey, entry) :: sentEntries (cutBehind dbKey entry) rest

/-- The records of entries, in order. -/
def rrsOf (entries : List (Key × Entry)) : List StoredRr := entries.flatMap (·.2.rrs)

variable {entry : Entry} {soa : StoredRr} {others : List StoredRr} (request : TransferRequest)
    (key dbKey : Key) (sender : Sender)

theorem sendRrs_eq (delegation : Bool) (rrs : List StoredRr) (visit : Visit) :
    sendRrs request dbKey delegation rrs visit =
      (offerAll request rrs visit.sender >>= fun sender =>
        .ok { visit with
          sender
          cut := if delegation then visit.cut ++ (replicate rrs.length dbKey).flatten
            else visit.cut }) := by
  induction rrs generalizing visit with
  | nil => cases delegation <;> simp [sendRrs, offerAll]
  | cons rr rest ih =>
    rw [sendRrs, offerAll]
    cases visit.sender.offer request rr with
    | ok sender =>
      simp only [Run.bind_ok]
      rw [ih]
      cases delegation <;> simp [replicate_succ, append_assoc]
    | _ => rfl

/-- Behind the zone, an entry that is not cut off is sent. -/
theorem sendEntry_later (entry : Entry) {visit : Visit} (later : visit.count ≠ 0) :
    sendEntry request key dbKey entry visit =
      (offerAll request entry.rrs visit.sender >>= fun sender =>
        .ok (true, { visit with
          sender, count := visit.count + 1, cut := cutBehind dbKey entry })) := by
  rw [sendEntry, if_neg (by simpa using later), sendRrs_eq]
  cases offerAll request entry.rrs visit.sender with
  | ok sender => cases delegation : entry.isDelegation <;> simp [cutBehind, delegation]
  | _ => rfl

/-- Behind the zone, the visit offers the records of the entries it sends. -/
theorem iterateWhile_later (entries : List (Key × Entry)) (visit : Visit)
    (sameClass : ∀ entry ∈ entries, isSameKeyClass key entry.1 = true) (later : visit.count ≠ 0) :
    (iterateWhile key (onEntry request key) entries visit >>= fun done => .ok (done.zone, done.sender)) =
      (offerAll request (rrsOf (sentEntries visit.cut entries)) visit.sender >>=
        fun sender => .ok (visit.zone, sender)) := by
  induction entries generalizing visit with
  | nil => rfl
  | cons first rest ih =>
    obtain ⟨dbKey, entry⟩ := first
    have restClass : ∀ entry ∈ rest, isSameKeyClass key entry.1 = true :=
      fun other member => sameClass other (mem_cons_of_mem _ member)
    rw [iterateWhile, if_pos (sameClass _ mem_cons_self), onEntry, sentEntries]
    split
    · exact ih visit restClass later
    · rw [sendEntry_later request key dbKey entry later, rrsOf, flatMap_cons, offerAll_append]
      cases offerAll request entry.rrs visit.sender with
      | ok sender => exact ih _ restClass (Nat.succ_ne_zero _)
      | _ => rfl

/-- The zone itself is sent first. -/
theorem onEntry_zone (rrs : entry.rrs = soa :: others) (isSoa : soa.type = RrType.soa) :
    onEntry request key key entry { sender } =
      (offerAll request entry.rrs sender >>= fun sent =>
        .ok (true, { sender := sent, count := 1, zone := some entry })) := by
  have hasSoa : entry.hasType RrType.soa = true := by
    rw [Entry.hasType, rrs, any_cons, beq_iff_eq.mpr isSoa, Bool.true_or]
  have noCut : entry.isDelegation = false := by
    rw [Entry.isDelegation, hasSoa, Bool.not_true, Bool.and_false]
  have first : (entry.rrs.map (·.type)).head? = some RrType.soa := by
    rw [rrs, map_cons, head?_cons, isSoa]
  rw [onEntry, if_neg (by simp [behindCut]), sendEntry, if_pos rfl, if_neg (not_not.mpr rfl),
    hasSoa, if_neg (by decide), Run.assert_of first, Run.bind_ok, sendRrs_eq, noCut]
  cases offerAll request entry.rrs sender <;> rfl

/-- A transfer of a zone that is there: the zone's records, those of the other
entries that are sent, and the SOA. -/
theorem doAxfr_eq {db : Db Entry} {trx : Transaction Entry} {zone : Name}
    {rest : List (Key × Entry)} (rrs : entry.rrs = soa :: others) (isSoa : soa.type = RrType.soa)
    (visited : OrderedMap.seek (trx.view db .entry) (ofName zone) = (ofName zone, entry) :: rest)
    (sameClass : ∀ entry ∈ rest, isSameKeyClass (ofName zone) entry.1 = true) :
    (doAxfr request db trx zone sender >>= fun visit => .ok visit.sender) =
      offerAll request (entry.rrs ++ rrsOf (sentEntries [] rest) ++ [soa]) sender := by
  have zoneClass : isSameKeyClass (ofName zone) (ofName zone) = true := by
    rw [ofName_eq, isSameKeyClass, beq_self_eq_true]
  rw [doAxfr, iterateT, visited, iterateWhile, if_pos zoneClass,
    onEntry_zone request _ sender rrs isSoa, append_assoc, offerAll_append]
  cases offerAll request entry.rrs sender with
  | ok sent =>
    simp only [Run.bind_ok, if_pos]
    rw [offerAll_append]
    have later := iterateWhile_later request (ofName zone) rest
      { sender := sent, count := 1, zone := some entry } sameClass Nat.one_ne_zero
    have closing (last : Sender) : (sendClosingSoa request (some entry) last) =
        offerAll request [soa] last := by
      simp only [sendClosingSoa, rrs, Run.assert_of isSoa, Run.bind_ok, offerAll]
      cases last.offer request soa <;> rfl
    generalize iterateWhile (ofName zone) (onEntry request (ofName zone)) rest _ = walked at later ⊢
    generalize offerAll request (rrsOf (sentEntries [] rest)) sent = offered at later ⊢
    cases walked with
    | ok done =>
      cases offered with
      | ok last =>
        obtain ⟨sameZone, sameSender⟩ : done.zone = some entry ∧ done.sender = last := by
          simpa using later
        simp only [Run.bind_ok]
        rw [sameZone, sameSender, closing]
        cases offerAll request [soa] last <;> rfl
      | _ => cases later
    | _ =>
      cases offered <;> cases later
      rfl
  | _ => rfl

end Factor

end DnsEngine

end Nsblast

namespace Nsblast.Wire.DnsEngine

open Handler
open Nsblast.DnsEngine (doAxfr Visit)

/-- `doAxfr` as the transfer of an engine, over the records of a store. What it has sent before
it fails is left out. -/
def axfr (db : Db Nsblast.Entry) (large udp : Nat) : Transfer where
  run request message key := do
    let sent ← withBuilder fun mb => do
      let visit ← doAxfr ⟨request, message, large, udp⟩ db {} key { reply := { mb } }
      let last := visit.sender.reply.mb
      .ok (visit.sender.sent.map (·.mb.buffer),
        if visit.nameError then last.setRcode Rcode.nameError else last)
    modify fun serving => { serving with sent := serving.sent ++ sent }
  keeps _ _ _ := keeps_bind _ (keeps_withBuilder stable_hasReply _) fun _ =>
    keeps_modify _ fun _ hasReply => hasReply

variable {engine : Engine} {request : Request} {message : Message} {mb done : MessageBuilder}
  {visit : Visit} {query : Rr} {labels : Labels} {place : Index} {rest : List Index}

/-- A request for a zone is answered with what `doAxfr` sends, and with its last reply. -/
theorem processRequest_axfr {db : Db Nsblast.Entry} {families : Families Buffer}
    {fuel large udp : Nat} {flags : Message.HdrFlags} {zone : Name}
    (serves : engine.doAxfr = axfr db large udp)
    (begun : begin engine request = .ok (message, flags, true, mb)) (isQuery : flags.opcode = 0)
    (asks : message.indexOf .question = place :: rest)
    (parsed : Rr.parse request.span place.offset true = .ok query)
    (clas : query.clas request.span = .ok classIn.toNat)
    (type : query.type request.span = .ok qtypeAxfr)
    (named : query.labels request.span = .ok labels) (key : labelsToFqdnKey labels = .ok zone)
    (sent : doAxfr ⟨request, message, large, udp⟩ db {} zone { reply := { mb } } = .ok visit)
    (found : visit.nameError = false) (finished : visit.sender.reply.mb.finish = .ok done) :
    processRequest engine families fuel request =
      ⟨visit.sender.sent.map (·.mb.buffer) ++ [done.buffer], .ok ()⟩ := by
  have answered : answer engine families request fuel message place { mb := some mb } =
      .error .returned
        { mb := some visit.sender.reply.mb, sent := visit.sender.sent.map (·.mb.buffer) } := by
    rw [answer, parsed, bind_of_ok (call_ok _ _), clas, bind_of_ok (call_ok _ _),
      if_neg (not_not.mpr rfl), type, bind_of_ok (call_ok _ _), named, bind_of_ok (call_ok _ _),
      key, bind_of_ok (call_ok _ _), if_pos rfl, serves]
    refine bind_of_ok (bind_of_ok (show withBuilder _ _ = .ok _ { mb := some _ } from ?_))
    simp only [withBuilder, sent, Run.bind_ok, found, Bool.false_eq_true, if_false]
  rw [processRequest, begun]
  simp only [scope, if_true, dispatch, isQuery]
  rw [if_neg (by decide), if_neg (by simp), asks, forM_of_error answered, close, scopedExit]
  simp only [if_true, finished, Run.noexcept_ok]

end Nsblast.Wire.DnsEngine
