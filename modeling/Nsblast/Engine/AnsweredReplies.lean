import Nsblast.Engine.ProcessRequest

/-!
# Replies that are answered

A message with the flag QR is a reply, and a server that answers replies can be kept busy
by another one for ever. Only `handleNotify` looks at the flag. It is reached by a message
with the opcode NOTIFY that `createBuilder` has found to be in order, and then it drops
the reply. On every other way the reply is kept, so it is sent when the scope is left.

What remains are the messages that are not answered because something went wrong: the
message could not be parsed or its reply could not be started, the process ended, or an
entry that claims to have a CNAME has none.
-/

namespace Nsblast.Wire.DnsEngine

open Buffer Handler

/-- A property of what the handlers share that does not depend on what the reply says. -/
structure Serving.Stable (invariant : Serving → Prop) : Prop where
  replied : ∀ serving mb, invariant serving → invariant { serving with mb := some mb }
  withheld : ∀ serving, invariant serving → invariant { serving with doReply := false }

theorem stable_hasReply : Serving.Stable Serving.HasReply :=
  ⟨fun _ _ _ => rfl, fun _ hasReply => hasReply⟩

section keeps

variable {engine : Engine} {families : Families Buffer} {invariant : Serving → Prop}
  (stable : Serving.Stable invariant)
include stable

theorem keeps_withBuilder {α : Type} (change : MessageBuilder → Run (α × MessageBuilder)) :
    Keeps invariant (withBuilder change) := by
  intro serving holds
  rw [leaves, withBuilder]
  cases serving.mb with
  | none => exact holds
  | some mb =>
    simp only
    cases change mb with
    | ok changed => exact stable.replied serving changed.2 holds
    | _ => exact holds

theorem keeps_addOrReturn (own : Buffer) (segment : Segment) (rr : Rr) :
    Keeps invariant (addOrReturn own segment rr) := by
  refine keeps_bind _ (keeps_withBuilder stable _) fun added => ?_
  exact keeps_ite (keeps_pure _) (keeps_throw _)

theorem keeps_addRecords (entry : Entry) (segment : Segment) (relevant : Nat → Bool) :
    Keeps invariant (addRecords entry segment relevant) := by
  refine keeps_forM _ fun place _ => ?_
  refine keeps_call_bind fun rr _ => ?_
  refine keeps_call_bind fun type _ => ?_
  exact keeps_ite (keeps_addOrReturn stable _ _ _) (keeps_pure _)

theorem keeps_addNameServers (entry : Entry) (places : List Index) :
    Keeps invariant (addNameServers entry places) := by
  induction places with
  | nil => exact keeps_pure _
  | cons place rest ih =>
    refine keeps_call_bind fun rr _ => ?_
    refine keeps_call_bind fun type _ => ?_
    refine keeps_ite ?_ ih
    refine keeps_bind _ (keeps_addOrReturn stable _ _ _) fun _ => ?_
    refine keeps_call_bind fun labels _ => ?_
    refine keeps_call_bind fun ns _ => ?_
    exact keeps_bind _ ih fun others => keeps_pure _

theorem keeps_addAddresses (ns : Name) : Keeps invariant (addAddresses families ns) := by
  refine keeps_call_bind fun entry _ => ?_
  exact keeps_ite (keeps_addRecords stable _ _ _) (keeps_pure _)

theorem keeps_addReferral (key : Name) : Keeps invariant (addReferral families key) := by
  refine keeps_ite (keeps_pure _) ?_
  refine keeps_call_bind fun entry _ => ?_
  refine keeps_ite (keeps_pure _) ?_
  refine keeps_call_bind fun flags _ => ?_
  refine keeps_ite ?_ (keeps_pure _)
  refine keeps_bind _ (keeps_addNameServers stable _ _) fun nsList => ?_
  exact keeps_bind _ (keeps_forM _ fun ns _ => keeps_addAddresses stable ns) fun _ => keeps_pure _

theorem keeps_again (asked : Asked) (fuel : Nat) (key : Name) (persuingCname : Bool) :
    Keeps invariant (again engine families asked fuel key persuingCname) := by
  induction fuel generalizing key persuingCname with
  | zero => exact keeps_throw _
  | succ fuel ih =>
    refine keeps_call_bind fun rrSet _ => ?_
    refine keeps_ite ?found ?missing
    case found =>
      refine keeps_call_bind fun flags _ => ?_
      refine keeps_ite ?pursued (keeps_ite ?hinfo (keeps_addRecords stable _ _ _))
      case pursued =>
        refine keeps_call_bind fun cname _ => ?_
        cases cname with
        | none => exact keeps_bind _ (keeps_modify _ stable.withheld) fun _ => keeps_throw _
        | some cname =>
          refine keeps_bind _ (keeps_addOrReturn stable _ _ _) fun _ => ?_
          refine keeps_call_bind fun owner _ => ?_
          exact keeps_call_bind fun next _ => ih next true
      case hinfo =>
        refine keeps_call_bind fun fqdn _ => ?_
        refine keeps_call_bind fun entry _ => ?_
        split
        · exact keeps_throw _
        · exact keeps_call_bind fun rr _ => keeps_addOrReturn stable _ _ _
    case missing =>
      refine keeps_bind _ (keeps_addReferral stable key) fun isReferral => ?_
      exact keeps_ite (keeps_withBuilder stable _) (keeps_pure _)

/-- A question for a zone transfer keeps what the transfer keeps. -/
theorem keeps_answer {request : Request} (fuel : Nat) {message : Message} {place : Index}
    (transfers : ∀ query key, Rr.parse request.span place.offset true = .ok query →
      (query.type request.span = .ok qtypeAxfr →
        Keeps invariant (engine.doAxfr.run request message key)) ∧
      (query.type request.span = .ok qtypeIxfr →
        Keeps invariant (engine.doIxfr.run request message key))) :
    Keeps invariant (answer engine families request fuel message place) := by
  refine keeps_call_bind fun query parsed => ?_
  refine keeps_call_bind fun clas _ => ?_
  refine keeps_ite ?_ ?_
  · exact keeps_bind _ (keeps_withBuilder stable _) fun _ => keeps_throw _
  refine keeps_call_bind fun qtype isType => ?_
  refine keeps_call_bind fun origFqdn _ => ?_
  refine keeps_call_bind fun key _ => ?_
  obtain ⟨axfr, ixfr⟩ := transfers query key parsed
  split
  · rename_i isAxfr
    rw [isAxfr] at isType
    exact keeps_bind _ (axfr isType) fun _ => keeps_throw _
  split
  · rename_i isIxfr
    rw [isIxfr] at isType
    exact keeps_bind _ (ixfr isType) fun _ => keeps_throw _
  · exact keeps_again stable _ _ _ _

end keeps

variable {flags : Message.HdrFlags}

variable (engine : Engine) (result : EStateM.Result Leave Serving Unit) (families : Families Buffer)
    (fuel : Nat) (request : Request) (message : Message) (mb : MessageBuilder)

/-- Only a notification can lose its reply. -/
theorem keeps_dispatch {engine : Engine} {families : Families Buffer} (other : flags.opcode ≠ 4) :
    Keeps Serving.HasReply (dispatch engine families fuel request message flags) := by
  rw [dispatch, if_neg other]
  refine keeps_ite (keeps_withBuilder stable_hasReply _) (keeps_forM _ fun place _ => ?_)
  exact keeps_answer stable_hasReply fuel fun query key _ =>
    ⟨fun _ => engine.doAxfr.keeps request message key, fun _ => engine.doIxfr.keeps request message key⟩

/-- Nothing was sent and there is no reply left that could be. -/
def Serving.Dropped (serving : Serving) : Prop := serving.mb = none ∧ serving.sent = []

/-- A notification that is a reply has its own reply dropped first. -/
theorem handleNotify_drops :
    ((handleNotify engine request message true).leaves { mb := some mb }).Dropped := by
  obtain ⟨rest, same, kept⟩ : ∃ rest : Handler Serving Unit,
      handleNotify engine request message true =
        (modify fun serving => { serving with mb := none }) >>= (fun _ => rest) ∧
      Keeps Serving.Dropped rest := by
    refine ⟨_, rfl, keeps_call_bind fun questions _ => ?_⟩
    simp only [if_true]
    refine keeps_ite (keeps_pure _) ?_
    split
    · exact keeps_throw _
    refine keeps_call_bind fun rr _ => ?_
    refine keeps_call_bind fun type _ => ?_
    refine keeps_ite (keeps_pure _) ?_
    refine keeps_call_bind fun labels _ => ?_
    exact keeps_call_bind fun text _ => keeps_call _
  rw [same]
  exact kept { mb := none } ⟨rfl, rfl⟩

/-- Something went wrong before anything was sent: the process ended, the reply was
withheld or it could not be finished. -/
inductive GivenUp (result : EStateM.Result Leave Serving Unit) : Prop
  | ended {leave : Leave} {serving : Serving} (left : result = .error leave serving)
      (ends : leave.EndsProcess) (nothing : serving.sent = [])
  | withheld (noReply : (stateOf result).doReply = false) (nothing : (stateOf result).sent = [])
  | unfinished {mb : MessageBuilder} (isReply : (stateOf result).mb = some mb)
      (fails : mb.finish.isOk = false) (nothing : (stateOf result).sent = [])

/-- The code that runs when the scope is left sends a reply that can be finished. -/
theorem sent_scopedExit (serving : Serving) (ending : Run Unit) :
    (scopedExit serving ending).sent = [] ↔ serving.sent = [] ∧
      ∀ mb, serving.mb = some mb → serving.doReply = true → mb.finish.isOk = false := by
  rw [scopedExit]
  cases serving.mb with
  | none => simp
  | some mb =>
    cases serving.doReply with
    | false => simp
    | true => cases finished : mb.finish <;> simp [Run.noexcept, Run.isOk, finished]

/-- The scope is left, or the process ends in it. -/
theorem close_cases :
    (∃ ending, close result = scopedExit (stateOf result) ending ∧
      ∀ leave serving, result = .error leave serving → ¬ leave.EndsProcess) ∨
    ∃ leave serving, result = .error leave serving ∧ leave.EndsProcess ∧
      (close result).sent = serving.sent := by
  cases result with
  | ok value serving => exact .inl ⟨.ok (), rfl, nofun⟩
  | error leave serving =>
    cases leave with
    | returned => exact .inl ⟨.ok (), rfl, by rintro _ _ ⟨⟩ ends; exact ends⟩
    | thrown what => exact .inl ⟨.thrown what, rfl, by rintro _ _ ⟨⟩ ends; exact ends⟩
    | aborted => exact .inr ⟨.aborted, serving, rfl, trivial, rfl⟩
    | outOfBounds => exact .inr ⟨.outOfBounds, serving, rfl, trivial, rfl⟩
    | outOfFuel => exact .inr ⟨.outOfFuel, serving, rfl, trivial, rfl⟩

/-- A reply that is there when the handler is left is sent, unless something went wrong. -/
theorem sent_close {result : EStateM.Result Leave Serving Unit}
    (hasReply : (stateOf result).HasReply) : (close result).sent = [] ↔ GivenUp result := by
  obtain ⟨mb, isReply⟩ := Option.isSome_iff_exists.mp hasReply
  obtain ⟨ending, closed, survives⟩ | ⟨leave, serving, left, ends, sent⟩ := close_cases result
  · rw [closed, sent_scopedExit]
    constructor
    · rintro ⟨nothing, notSent⟩
      cases replies : (stateOf result).doReply with
      | false => exact .withheld replies nothing
      | true => exact .unfinished isReply (notSent mb isReply replies) nothing
    · intro givenUp
      cases givenUp with
      | ended left ends nothing => exact absurd ends (survives _ _ left)
      | withheld noReply nothing =>
        refine ⟨nothing, fun _ _ replies => ?_⟩
        rw [noReply] at replies
        cases replies
      | unfinished isReply' fails nothing =>
        refine ⟨nothing, fun other isOther _ => ?_⟩
        rw [isReply'] at isOther
        cases isOther
        exact fails
  · rw [sent]
    constructor
    · exact .ended left ends
    · intro givenUp
      subst left
      cases givenUp with
      | ended left' ends' nothing =>
        cases left'
        exact nothing
      | withheld noReply nothing => exact nothing
      | unfinished isReply' fails nothing => exact nothing

/-- What was dropped is not sent. -/
theorem close_dropped (dropped : (stateOf result).Dropped) : (close result).sent = [] := by
  obtain ⟨ending, closed, -⟩ | ⟨leave, serving, rfl, -, sent⟩ := close_cases result
  · rw [closed, sent_scopedExit]
    refine ⟨dropped.2, fun mb isReply _ => ?_⟩
    rw [dropped.1] at isReply
    cases isReply
  · rw [sent]
    exact dropped.2

/-- The messages that are left unanswered for what they say: no reply to them is started, or
they are notifications that are in order. -/
def Unanswered (engine : Engine) (request : Request) : Prop :=
  ∀ message flags ok mb, begin engine request = .ok (message, flags, ok, mb) →
    ok = true ∧ flags.opcode = 4

/-- A reply is started, but something goes wrong. -/
def Failing (engine : Engine) (families : Families Buffer) (fuel : Nat) (request : Request) : Prop :=
  ∃ message flags ok mb, begin engine request = .ok (message, flags, ok, mb) ∧
    GivenUp (scope engine families fuel request message flags ok mb)

/-- A notification that is a reply is not answered if `createBuilder` accepts it. -/
theorem notification_unanswered (notify : flags.opcode = 4) (isReply : flags.qr = true) :
    (close (scope engine families fuel request message flags true mb)).sent = [] := by
  have drops := handleNotify_drops engine request message mb
  apply close_dropped
  rwa [scope, if_pos rfl, dispatch, if_pos notify, isReply]

/-- Every other message keeps its reply. -/
theorem scope_hasReply {ok : Bool} (other : ¬ (ok = true ∧ flags.opcode = 4)) :
    (stateOf (scope engine families fuel request message flags ok mb)).HasReply := by
  rw [scope]
  split
  · rename_i accepted
    exact keeps_dispatch fuel request message (fun notify => other ⟨accepted, notify⟩)
      { mb := some mb } rfl
  · rfl

/-- A reply is left unanswered exactly if it is one of the messages to be left so, or if
something goes wrong. -/
theorem reply_unanswered_iff (engine : Engine) (families : Families Buffer) (fuel : Nat)
    (request : Request) (flags : Message.HdrFlags)
    (isFlags : Message.getHdrFlags request.span = .ok flags) (isReply : flags.qr = true) :
    (processRequest engine families fuel request).sent = [] ↔
      Unanswered engine request ∨ Failing engine families fuel request := by
  rw [processRequest, Unanswered, Failing]
  cases begun : begin engine request with
  | ok begins =>
    obtain ⟨message, flags', ok, mb⟩ := begins
    simp only [Run.ok.injEq, Prod.mk.injEq]
    have same : flags' = flags := by
      simp only [begin, Run.bind_eq_ok] at begun
      obtain ⟨_, _, ⟨_, _⟩, _, _, read, returned⟩ := begun
      cases returned
      rw [isFlags] at read
      cases read
      rfl
    subst same
    by_cases notification : ok = true ∧ flags'.opcode = 4
    · obtain ⟨rfl, notify⟩ := notification
      constructor
      · rintro -
        refine .inl ?_
        rintro _ _ _ _ ⟨rfl, rfl, rfl, rfl⟩
        exact ⟨rfl, notify⟩
      · intro _
        exact notification_unanswered engine families fuel request message mb notify isReply
    · rw [sent_close (scope_hasReply engine families fuel request message mb notification)]
      constructor
      · intro givenUp
        exact .inr ⟨message, flags', ok, mb, ⟨rfl, rfl, rfl, rfl⟩, givenUp⟩
      · rintro (unanswered | ⟨_, _, _, _, ⟨rfl, rfl, rfl, rfl⟩, givenUp⟩)
        · exact absurd (unanswered message flags' ok mb ⟨rfl, rfl, rfl, rfl⟩) notification
        · exact givenUp
  | thrown what => simp
  | aborted => simp
  | outOfBounds => simp
  | outOfFuel => simp

section sample

/-- A message with one question, for the SOA of a name of one label. -/
def sampleMessage (bits rcode : UInt8) : Buffer :=
  [0x12, 0x34, bits, rcode, 0, 1, 0, 0, 0, 0, 0, 0, 1, 0x61, 0, 0, 6, 0, 1]

/-- A reply to a notification is not answered. -/
theorem sample_notification_unanswered :
    (processRequest sampleEngine (fun _ => ∅) 1 ⟨sampleMessage 0xA4 0, 512, false⟩).sent = [] := by
  refine (reply_unanswered_iff sampleEngine (fun _ => ∅) 1 ⟨sampleMessage 0xA4 0, 512, false⟩
    ⟨true, 4, true, 0⟩ (by decide +kernel) rfl).mpr (.inl ?_)
  intro message flags ok mb begun
  have ran : (begin sampleEngine ⟨sampleMessage 0xA4 0, 512, false⟩ >>= fun begins =>
      .ok (decide (begins.2.2.1 = true ∧ begins.2.1.opcode = 4))) = .ok true := by decide +kernel
  rw [begun, Run.bind_ok] at ran
  exact of_decide_eq_true (Run.ok.inj ran)

/-- The messages on their way between two servers after some turns, the first of which is
that of the first server. -/
def exchange (first second : Buffer → List Buffer) : Nat → List Buffer → List Buffer
  | 0, messages => messages
  | turns + 1, messages => exchange second first turns (messages.flatMap first)

/-- The reply to a query for a name that does not exist is answered, and with the very
same message: two servers send it to and fro for ever. -/
theorem reply_answered_for_ever :
    let server := fun span => (processRequest sampleEngine (fun _ => ∅) 1 ⟨span, 512, false⟩).sent
    server (sampleMessage 0x01 0) = [sampleMessage 0x85 3] ∧
    (∃ flags, Message.getHdrFlags (sampleMessage 0x85 3) = .ok flags ∧ flags.qr = true) ∧
    ∀ turns, exchange server server turns [sampleMessage 0x85 3] = [sampleMessage 0x85 3] := by
  intro server
  have answered : server (sampleMessage 0x85 3) = [sampleMessage 0x85 3] := by decide +kernel
  refine ⟨by decide +kernel, ⟨⟨true, 0, true, 3⟩, by decide +kernel, rfl⟩, fun turns => ?_⟩
  induction turns with
  | zero => rfl
  | succ turns ih => rwa [exchange, List.flatMap_singleton, answered]

end sample

end Nsblast.Wire.DnsEngine
