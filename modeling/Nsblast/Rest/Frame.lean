import Nsblast.Rest.Requests

/-!
# What a request leaves as it was

A request for a name below a zone writes the entry of the name and the entry of the
zone, and no other entry. The name then has the records that the request asks for,
and the entry of the zone has its records with the next serial.

The entry of the zone is written under the name in its SOA, which has no final dot. A
zone that was created with a final dot has its entry under another key, and a request
that finds this entry does not change it.
-/

namespace Nsblast.RestApi

open Program (runs_bind runs_done runs_done_bind runs_pure runs_write)
open Name List StorageBuilder Run Op

section expected

/-- The records of a body as they are stored. -/
def bodyFacts (config : Config) (fqdn : Name) (body : JsonBody) : List (Name × Body) :=
  body.rrs.map fun rr =>
    (fqdn, ⟨rr.type, classIn, sanitizeTtl (body.ttl.getD config.defaultTtl), rr.rdata⟩)

/-- The old records of other types. -/
def factsWithout (types : List UInt16) (old : Option Entry) : List (Name × Body) :=
  ((recordsOf old).filter fun rr => rr.type ∉ types).map StoredRr.fact

/-- What a name has after a request, which may be no entry at all. -/
def expectedFacts (config : Config) (fqdn : Name) (old : Option Entry) :
    Method JsonBody → Option (List (Name × Body))
  | .post body => some (bodyFacts config fqdn body)
  | .put body => some (bodyFacts config fqdn body)
  | .patch body _ =>
      some (bodyFacts config fqdn body ++ factsWithout (body.rrs.map (·.type)) old)
  | .delete none => none
  | .delete (some types) =>
      if factsWithout types old = [] then none else some (factsWithout types old)

/-- The entry has exactly these records. -/
def Holds (content : Option Entry) (expected : Option (List (Name × Body))) : Prop :=
  match expected with
  | none => content = none
  | some facts => ∃ entry, content = some entry ∧ (entry.rrs.map StoredRr.fact).Perm facts

/-- A record, with another serial if it is a SOA. -/
def withSerial (serial : Nat) (fact : Name × Body) : Name × Body :=
  if fact.2.type = RrType.soa then
    (fact.1, { fact.2 with rdata := Body.serialSet fact.2.rdata serial })
  else fact

/-- The entry of the zone after a request: its SOA has the next serial. -/
structure ApexRaised (old new : Entry) : Prop where
  tenantId : new.tenantId = old.tenantId
  serial : ∃ serial, old.serial = .ok serial ∧ new.serial = .ok (nextSerial serial) ∧
    (new.rrs.map StoredRr.fact).Perm
      ((old.rrs.map StoredRr.fact).map (withSerial (nextSerial serial)))

/-- Only the name and the serial of its zone have changed. -/
structure ChangesOnlyName (config : Config) (call : Call) (before after : Address → Option Entry) :
    Prop where
  name : Holds (after (entryAt (toLower call.request.target)))
    (expectedFacts config (toLower call.request.target)
      (before (entryAt (toLower call.request.target))) call.request.method)
  zone : ∃ apex old new, apexFrom before call.fuel (toLower call.request.target) = some apex ∧
    before (entryAt apex) = some old ∧ after (entryAt apex) = some new ∧ ApexRaised old new ∧
    ∀ key, key ≠ RealKey.ofName (toLower call.request.target) → key ≠ RealKey.ofName apex →
      after (.entry, key) = before (.entry, key)

/-- Records that were written by `finishRr`. -/
def Sane (rrs : List StoredRr) : Prop := ∀ rr ∈ rrs, rr.clas = classIn ∧ rr.ttl ≤ ttlMax

/-- A store as the interface fills it: every entry belongs to the name it is found
under, up to a final dot, and its records were written by `finishRr`. -/
structure Orderly (content : Address → Option Entry) : Prop where
  stored : ∀ name entry, content (entryAt name) = some entry →
    Stored (withoutDot name) entry
  sane : ∀ name entry, content (entryAt name) = some entry → Sane entry.rrs

end expected

section facts

/-- What `createRr` stores for a record. -/
def storedFact (fqdn : Name) (body : Body) : Name × Body :=
  (toLower (withoutDot fqdn), sanitized body)

/-- A loop of `createRr` for one name adds exactly the records it is given. -/
theorem creates_facts {α : Type} (fqdn : Name) (body : α → Body) (items : List α)
    (sb next : StorageBuilder) (one : sb.oneSoa = true)
    (wide : ∀ item ∈ items, (body item).type = RrType.soa → minRrLen ≤ (body item).rdata.length)
    (ofName : OfName (· = withoutDot fqdn) sb.rrs) (created : items.foldlM (fun sb item =>
      sb.createRr fqdn (body item).type (body item).ttl (body item).rdata true) sb = .ok next) :
    OfName (· = withoutDot fqdn) next.rrs ∧ next = { sb with rrs := next.rrs } ∧
      next.rrs.map StoredRr.fact =
        sb.rrs.map StoredRr.fact ++ items.map fun item => storedFact fqdn (body item) := by
  induction items generalizing sb with
  | nil =>
    cases created
    exact ⟨ofName, rfl, by simp⟩
  | cons item rest ih =>
    rw [foldlM_cons, bind_eq_ok] at created
    obtain ⟨middle, first, later⟩ := created
    obtain ⟨rr, added, ofMiddle, owner, stored⟩ :=
      createRr_ofName first one (wide item mem_cons_self) ofName
    subst added
    obtain ⟨ofNext, header, facts⟩ := ih (sb.adding rr) one
      (fun other member => wide other (mem_cons_of_mem item member)) ofMiddle later
    refine ⟨ofNext, header, ?_⟩
    have fact : rr.fact = storedFact fqdn (body item) := by
      rw [StoredRr.fact, Record.key, owner, stored]
      rfl
    rw [facts]
    simp [adding, fact]

theorem sane_of_facts (rrs : List StoredRr) (fqdn : Name) (bodies : List Body)
    (facts : (rrs.map StoredRr.fact).Perm (bodies.map (storedFact fqdn))) : Sane rrs := by
  intro rr member
  have listed := facts.mem_iff.mp (mem_map_of_mem member)
  obtain ⟨body, _, same⟩ := mem_map.mp listed
  have sameBody : sanitized body = rr.toBody := congrArg Prod.snd same
  rw [← sameBody]
  exact ⟨rfl, sanitizeTtl_le body.ttl⟩

/-- A copy of such a record says the same. -/
theorem storedFact_of_sane {fqdn : Name} {rr : StoredRr}
    (owner : rr.key = toLower (withoutDot fqdn))
    (sane : rr.clas = classIn ∧ rr.ttl ≤ ttlMax) : storedFact fqdn rr.toBody = rr.fact := by
  rw [storedFact, ← owner, sanitized_of_sane sane.1 sane.2]
  rfl

theorem copies_facts (fqdn : Name) (rrs : List StoredRr) (sb next : StorageBuilder)
    (one : sb.oneSoa = true) (sane : Sane rrs)
    (owners : ∀ rr ∈ rrs, rr.key = toLower (withoutDot fqdn))
    (wide : ∀ rr ∈ rrs, rr.type = RrType.soa → minRrLen ≤ rr.rdata.length)
    (ofName : OfName (· = withoutDot fqdn) sb.rrs)
    (copied : rrs.foldlM (copyRr fqdn) sb = .ok next) :
    OfName (· = withoutDot fqdn) next.rrs ∧ next = { sb with rrs := next.rrs } ∧
      next.rrs.map StoredRr.fact = sb.rrs.map StoredRr.fact ++ rrs.map StoredRr.fact := by
  obtain ⟨ofNext, header, facts⟩ :=
    creates_facts fqdn (fun rr : StoredRr => rr.toBody) rrs sb next one wide ofName copied
  refine ⟨ofNext, header, ?_⟩
  rw [facts]
  congr 1
  apply map_congr_left
  intro rr member
  exact storedFact_of_sane (owners rr member) (sane rr member)

end facts

section change

variable {config : Config} {session : Session} {request : Method JsonBody} {method : Method Entry}
  {target fqdn : Name} {existing : RrAndSoa} {zone : Entry} {sb : StorageBuilder}

variable {body : JsonBody} {entry old : Entry}

/-- What `build` makes of a body. -/
theorem build_facts (empty : sb.rrs = []) (one : sb.oneSoa = true)
    (built : build config target sb body = .ok entry) :
    (entry.rrs.map StoredRr.fact).Perm
        (bodyFacts config (toLower (withoutDot target)) body) ∧
      OfName (· = withoutDot target) entry.rrs ∧ Sane entry.rrs := by
  rw [build, bind_eq_ok] at built
  obtain ⟨filled, created, finished⟩ := built
  have ofNone : OfName (· = withoutDot target) sb.rrs := by
    rw [empty]
    exact OfName.nil _
  obtain ⟨ofFilled, _, facts⟩ := creates_facts target
    (fun rr : NewRr => ⟨rr.type, classIn, body.ttl.getD config.defaultTtl, rr.rdata⟩) body.rrs sb
    filled one (fun rr _ => rr.wide) ofNone created
  have perm := finish_perm config.index entry finished
  have factsPerm : (entry.rrs.map StoredRr.fact).Perm
      (bodyFacts config (toLower (withoutDot target)) body) := by
    have listed := perm.map StoredRr.fact
    rw [facts, empty] at listed
    exact listed
  refine ⟨factsPerm, ofFilled.of_perm perm, ?_⟩
  apply sane_of_facts entry.rrs target (body.rrs.map fun rr : NewRr =>
    ⟨rr.type, classIn, body.ttl.getD config.defaultTtl, rr.rdata⟩)
  rw [map_map]
  exact factsPerm

/-- The types of the records of a body. -/
theorem types_of_facts {owner : Name}
    (facts : (entry.rrs.map StoredRr.fact).Perm (bodyFacts config owner body)) (type : UInt16) :
    type ∈ entry.rrs.map (·.type) ↔ type ∈ body.rrs.map (·.type) := by
  have types := (facts.map fun fact => fact.2.type).mem_iff (a := type)
  simp only [bodyFacts, map_map] at types
  exact types

/-- A merge takes the old records of other types and, with `append`, some of the same types. -/
theorem mergeOld_facts (fqdn : Name) (newTypes : List UInt16) (append : Bool) (rrs : List StoredRr)
    (sb next : StorageBuilder) (one : sb.oneSoa = true) (sane : Sane rrs)
    (owners : ∀ rr ∈ rrs, rr.key = toLower (withoutDot fqdn))
    (wide : ∀ rr ∈ rrs, rr.type = RrType.soa → minRrLen ≤ rr.rdata.length)
    (ofName : OfName (· = withoutDot fqdn) sb.rrs)
    (merged : rrs.foldlM (mergeOld fqdn newTypes append) sb = .ok next) :
    OfName (· = withoutDot fqdn) next.rrs ∧ next = { sb with rrs := next.rrs } ∧
      ∃ appended : List StoredRr, (next.rrs.map StoredRr.fact).Perm (sb.rrs.map StoredRr.fact ++
          (rrs.filter fun rr => rr.type ∉ newTypes).map StoredRr.fact ++ appended.map StoredRr.fact) ∧
        (∀ rr ∈ appended, rr ∈ rrs ∧ rr.type ∈ newTypes) ∧ (append = false → appended = []) := by
  induction rrs generalizing sb with
  | nil =>
    cases merged
    exact ⟨ofName, rfl, [], by simp, nofun, fun _ => rfl⟩
  | cons rr rest ih =>
    rw [foldlM_cons, bind_eq_ok] at merged
    obtain ⟨middle, turned, later⟩ := merged
    have continued := fun sb one ofName => ih sb one (fun other member => sane other (.tail _ member))
      (fun other member => owners other (.tail _ member))
      (fun other member => wide other (.tail _ member)) ofName
    have copies (copied : copyRr fqdn sb rr = .ok middle) := copies_facts fqdn [rr] sb middle one
      (fun other member => sane other (by simp_all)) (fun other member => owners other (by simp_all))
      (fun other member => wide other (by simp_all)) ofName (by simp [copied])
    rw [mergeOld] at turned
    split at turned
    · rename_i kept
      obtain ⟨ofMiddle, header, facts⟩ := copies turned
      obtain ⟨ofNext, again, appended, perm, old, none⟩ :=
        continued middle (by rw [header, one]) ofMiddle later
      refine ⟨ofNext, by rw [again, header], appended, ?_, fun rr member => ?_, none⟩
      · simpa [facts, kept] using perm
      · exact ⟨.tail _ (old rr member).1, (old rr member).2⟩
    · rename_i present
      rw [not_not] at present
      split at turned
      · rename_i appends
        obtain ⟨ofMiddle, header, facts⟩ := copies turned
        obtain ⟨ofNext, again, appended, perm, old, none⟩ :=
          continued middle (by rw [header, one]) ofMiddle later
        refine ⟨ofNext, by rw [again, header], rr :: appended, ?_, ?_, ?_⟩
        · rw [facts] at perm
          rw [filter_cons_of_neg (by simpa using present), map_cons]
          refine perm.trans ?_
          simp only [map_cons, map_nil, append_assoc, singleton_append]
          exact List.Perm.append_left _ perm_middle.symm
        · rintro other (_ | ⟨_, member⟩)
          · exact ⟨mem_cons_self, present⟩
          · exact ⟨.tail _ (old other member).1, (old other member).2⟩
        · rintro rfl
          simp at appends
      · cases turned
        obtain ⟨ofNext, again, appended, perm, old, none⟩ := continued sb one ofName later
        refine ⟨ofNext, again, appended, ?_, fun rr member => ?_, none⟩
        · rw [filter_cons_of_neg (by simpa using present)]
          exact perm
        · exact ⟨.tail _ (old rr member).1, (old rr member).2⟩

/-- What the merge of a body with an old entry holds. -/
theorem merged_facts {target : Name} {built : Entry} {append : Bool} {copied both : StorageBuilder}
    (stored : Stored (withoutDot (toLower target)) old) (sane : Sane old.rrs) (empty : sb.rrs = [])
    (one : sb.oneSoa = true) (isBuilt : build config target sb body = .ok built)
    (copiedNew : built.rrs.foldlM (copyRr (toLower target)) { tenantId := old.tenantId } = .ok copied)
    (mergedOld : old.rrs.foldlM (mergeOld (toLower target) (built.rrs.map (·.type)) append) copied =
      .ok both) :
    OfName (· = withoutDot (toLower target)) both.rrs ∧
      both = { tenantId := old.tenantId, rrs := both.rrs } ∧
      ∃ appended : List StoredRr, (both.rrs.map StoredRr.fact).Perm
          (bodyFacts config (withoutDot (toLower target)) body ++
            factsWithout (body.rrs.map (·.type)) (some old) ++ appended.map StoredRr.fact) ∧
        (∀ rr ∈ appended, rr ∈ old.rrs ∧ rr.type ∈ body.rrs.map (·.type)) ∧
        (append = false → appended = []) := by
  obtain ⟨facts, ofBuilt, saneBuilt⟩ := build_facts empty one isBuilt
  have lower := withoutDot_toLower target
  have owners : ∀ rr ∈ built.rrs,
      rr.key = toLower (withoutDot (toLower target)) := by
    intro rr member
    rw [lower, toLower_toLower, Record.key, ofBuilt.owned rr member]
  obtain ⟨ofCopied, header, copiedFacts⟩ := copies_facts (toLower target) built.rrs _ copied rfl
    saneBuilt owners ofBuilt.wide (OfName.nil _) copiedNew
  obtain ⟨ofBoth, again, appended, perm, others, none⟩ := mergeOld_facts (toLower target) _ append
    old.rrs copied both (by rw [header]) sane (fun rr member => by
      rw [stored.owners rr member, lower, toLower_toLower]) stored.ofName.wide ofCopied mergedOld
  have types := types_of_facts facts
  refine ⟨ofBoth, by rw [again, header], appended, ?_, fun rr member =>
    ⟨(others rr member).1, (types rr.type).mp (others rr member).2⟩, none⟩
  simp only [types, copiedFacts, map_nil, nil_append] at perm
  rw [lower]
  exact perm.trans ((facts.append_right _).append_right _)

/-- Finishing a merge below the zone. -/
theorem closeMerged_perm {merged : StorageBuilder} (below : existing.isSame = false)
    (closed : closeMerged config existing zone merged = .ok entry) : entry.rrs.Perm merged.rrs := by
  rw [closeMerged, below, if_neg Bool.false_ne_true, bind_eq_ok] at closed
  obtain ⟨sb, measured, finished⟩ := closed
  obtain ⟨soa, _, rfl⟩ := withZoneLen_eq_ok measured
  have perm := finish_perm config.index entry finished
  exact perm

/-- The records that are left of an old entry are copied as they are. -/
theorem copies_old {fqdn : Name} (plain : fqdn.getLast? ≠ some 0x2E) (lower : toLower fqdn = fqdn)
    (stored : Stored fqdn old) (sane : Sane old.rrs) {kept : StoredRr → Bool}
    {sb next : StorageBuilder} (one : sb.oneSoa = true)
    (ofName : OfName (· = withoutDot fqdn) sb.rrs)
    (copied : (old.rrs.filter kept).foldlM (copyRr fqdn) sb = .ok next) :
    next.rrs.map StoredRr.fact =
      sb.rrs.map StoredRr.fact ++ (old.rrs.filter kept).map StoredRr.fact := by
  refine (copies_facts fqdn _ sb next one ?_ ?_ ?_ ofName copied).2.2
  · exact fun rr member => sane rr (mem_of_mem_filter member)
  · intro rr member
    rw [withoutDot_of_plain plain, lower]
    exact stored.owners rr (mem_of_mem_filter member)
  · exact fun rr member => stored.ofName.wide rr (mem_of_mem_filter member)

/-- What a request below the zone leaves at its name. -/
theorem changeOf_facts {change : Change} (sbNew : newBuilder existing zone = .ok sb)
    (received : request.mapM (build config target sb) = .ok method)
    (plain : target.getLast? ≠ some 0x2E) (below : existing.isSame = false)
    (replaces : ∀ body, request ≠ .patch body true)
    (oldStored : ∀ old ∈ existing.rr, Stored (toLower target) old ∧ Sane old.rrs)
    (changed : changeOf config session (toLower target) existing zone method = .ok change) :
    change.needVersionIncrement = true ∧
      Holds change.data (expectedFacts config (toLower target) existing.rr request) := by
  obtain ⟨empty, one, _, _⟩ := newBuilder_eq_ok sbNew
  have plainFqdn := toLower_plain plain
  -- the entry built from the body
  have fromBody (body : JsonBody) (entry : Entry) (built : build config target sb body = .ok entry) :
      (entry.rrs.map StoredRr.fact).Perm (bodyFacts config (toLower target) body) := by
    have facts := (build_facts empty one built).1
    rw [withoutDot_of_plain plain] at facts
    exact facts
  cases switched_of_changeOf changed with
  | created entry =>
    cases Method.mapped received with
    | post built => exact ⟨rfl, entry, rfl, fromBody _ entry built⟩
  | @replaced _ entry puts =>
    rcases puts with rfl | ⟨append, rfl, absent⟩
    · cases Method.mapped received with
      | put built => exact ⟨rfl, entry, rfl, fromBody _ entry built⟩
    · cases Method.mapped received with
      | patch _ built =>
        refine ⟨rfl, entry, rfl, ?_⟩
        rw [absent]
        simpa [factsWithout, recordsOf] using fromBody _ entry built
  | raised _ same => cases same.symm.trans below
  | @merged entry old result append copied both found copiedNew mergedOld closed =>
    cases Method.mapped received with
    | @patch body _ _ built =>
      have replace : append = false := by
        cases append with
        | false => rfl
        | true => exact absurd rfl (replaces body)
      obtain ⟨stored, sane⟩ := oldStored old found
      have dotless := withoutDot_of_plain plainFqdn
      obtain ⟨_, _, appended, perm, _, nothing⟩ := merged_facts (dotless.symm ▸ stored) sane empty
        one built copiedNew mergedOld
      rw [nothing replace, dotless, map_nil, append_nil] at perm
      refine ⟨by rw [below]; rfl, result, rfl, ?_⟩
      rw [found]
      exact ((closeMerged_perm below closed).map StoredRr.fact).trans perm
  | removed =>
    cases Method.mapped received
    exact ⟨rfl, rfl⟩
  | @filtered old result types copied found copiedOld closed =>
    cases Method.mapped received
    obtain ⟨stored, sane⟩ := oldStored old found
    have copiedFacts := copies_old plainFqdn (toLower_toLower target) stored sane rfl (OfName.nil _)
      copiedOld
    have perm := (closeMerged_perm below closed).map StoredRr.fact
    rw [copiedFacts] at perm
    have left : factsWithout types existing.rr =
        (old.rrs.filter fun rr => rr.type ∉ types).map StoredRr.fact := by
      rw [factsWithout, found]
      rfl
    rw [expectedFacts, left]
    split
    · rename_i empty
      rw [empty] at perm
      have nothing : (old.rrs.filter fun rr => rr.type ∉ types).map StoredRr.fact = [] :=
        nil_perm.mp perm
      rw [if_pos nothing]
      exact ⟨rfl, rfl⟩
    · rename_i filled
      rw [below, if_neg]
      · exact ⟨rfl, result, rfl, perm⟩
      · intro none
        rw [none] at perm
        exact filled (map_eq_nil_iff.mp (perm_nil.mp perm))

end change

section apex

variable {zone : Entry} {config : Config} {zoneName : Name} {ops : List (Op Address Entry)}
    {newSoa : Option StoredRr}

/-- Raising the serial changes nothing but the SOA. -/
theorem incremented_facts {named : Name → Prop} {rrs result : List StoredRr} {name : Name}
    (stored : Stored name zone) {serial : Nat} (read : zone.serial = .ok serial)
    (ofName : OfName named rrs) (incremented : incrementedRrs rrs zone = .ok result) :
    result.map StoredRr.fact = (rrs.map StoredRr.fact).map (withSerial (nextSerial serial)) := by
  obtain ⟨old, oldSerial, before, first, changed, after, found, oldRead, split, rfl, noSoa, isSoa, _,
    shape⟩ := incrementedRrs_eq_ok incremented
  rw [serial_of_find stored found, oldRead] at read
  cases read
  have plainRr (rr : StoredRr) (other : rr.type ≠ RrType.soa) :
      withSerial (nextSerial serial) rr.fact = rr.fact := if_neg other
  have noneAfter : ∀ rr ∈ after, rr.type ≠ RrType.soa := by
    intro rr member second
    have single := ofName.single
    rw [split, soasOf, filter_append, length_append, filter_cons_of_pos (by simpa),
      length_cons] at single
    have listed : rr ∈ after.filter fun rr => rr.type == RrType.soa :=
      mem_filter.mpr ⟨member, beq_iff_eq.mpr second⟩
    have := length_pos_of_mem listed
    omega
  have raisedSoa : withSerial (nextSerial serial) first.fact = changed.fact := by
    refine (if_pos isSoa).trans ?_
    rw [StoredRr.fact, StoredRr.fact, Record.key, Record.key, shape]
    rfl
  have unchanged (rrs : List StoredRr) (others : ∀ rr ∈ rrs, rr.type ≠ RrType.soa) :
      (rrs.map StoredRr.fact).map (withSerial (nextSerial serial)) = rrs.map StoredRr.fact := by
    rw [map_map]
    exact map_congr_left fun rr member => plainRr rr (others rr member)
  rw [split, map_append, map_cons, map_append, map_append, map_cons,
    map_cons, unchanged before noSoa, unchanged after noneAfter, raisedSoa]

/-- The copy of the entry of the zone, with the next serial. -/
theorem raisedZone_facts {raised : Entry} (plain : zoneName.getLast? ≠ some 0x2E)
    (lower : toLower zoneName = zoneName) (stored : Stored zoneName zone) (sane : Sane zone.rrs)
    (returned : raisedZone config zoneName zone = .ok raised) : ApexRaised zone raised := by
  obtain ⟨⟨raisedStored, soa, serial, only, read, raisedSerial⟩, _⟩ :=
    raisedZone_eq_ok plain lower stored returned
  rw [raisedZone, bind_eq_ok] at returned
  obtain ⟨sb, copied, returned⟩ := returned
  rw [bind_eq_ok] at returned
  obtain ⟨next, incremented, finished⟩ := returned
  have owners : ∀ rr ∈ zone.rrs, rr.key = toLower (withoutDot zoneName) := by
    intro rr member
    rw [withoutDot_of_plain plain, lower]
    exact stored.owners rr member
  obtain ⟨ofCopied, header, facts⟩ := copies_facts zoneName zone.rrs _ sb rfl sane owners
    stored.ofName.wide (OfName.nil _) copied
  rw [incrementSoaVersion, bind_eq_ok] at incremented
  obtain ⟨rrs, incremented, same⟩ := incremented
  cases same
  have entry := finish_eq_ok finished
  have perm := finish_perm config.index raised finished
  refine ⟨?_, serial, read, (raisedStored.serial_eq only).2.2.2.trans raisedSerial, ?_⟩
  · rw [entry, header]
  · have copiedFacts : zone.rrs.map StoredRr.fact = sb.rrs.map StoredRr.fact := facts.symm
    rw [copiedFacts, ← incremented_facts stored read ofCopied incremented]
    exact perm.map _

/-- What the request writes for the entry of the zone. -/
theorem raise_runs {change : Change} (runs : (raise config zoneName zone change).Runs ops newSoa) :
    (change.needVersionIncrement = false ∧ ops = []) ∨
      (change.needVersionIncrement = true ∧ ∃ raised, raisedZone config zoneName zone = .ok raised ∧
        ops = [.write (entryAt zoneName) (some raised)]) := by
  rw [raise] at runs
  split at runs
  · rename_i needed
    refine Or.inr ⟨needed, ?_⟩
    rw [runs_done_bind] at runs
    obtain ⟨raised, returned, runs⟩ := runs
    rw [runs_bind] at runs
    obtain ⟨written, last, _, rfl, writeRuns, returnRuns⟩ := runs
    rw [runs_write] at writeRuns
    rw [runs_pure] at returnRuns
    obtain ⟨_, rfl⟩ := returnRuns
    exact ⟨raised, returned, by rw [writeRuns]; rfl⟩
  · rename_i notNeeded
    rw [runs_pure] at runs
    exact Or.inl ⟨Bool.eq_false_iff.mpr notNeeded, runs.2⟩

/-- The difference is all that is written. -/
theorem logChange_writes {oldSoa : StoredRr} {oldData newData : Option Entry}
    (runs : (logChange config zoneName oldSoa newSoa oldData newData).Runs ops ()) {key : Address}
    (other : key.1 ≠ .diff) : key ∉ Replay.keys (Op.writes ops) := by
  have nothing (ops : List (Op Address Entry)) (none : ops = []) :
      key ∉ Replay.keys (Op.writes ops) := by
    rw [none]
    exact not_mem_nil
  rw [logChange.eq_def] at runs
  split at runs
  · cases newSoa with
    | none => cases ((runs_done _ _ _).mp runs).1
    | some newSoa =>
      dsimp only at runs
      obtain ⟨_, serial, _, diff, previous, _, _, _, _, _, rfl⟩ := addDiff_steps runs
      simp only [Replay.keys, writes_read, writes_write, writes_nil, map_cons, map_nil,
        mem_singleton]
      rintro rfl
      exact other rfl
  · exact nothing ops ((runs_done _ _ _).mp runs).2

/-- The lookup ends at the zone of the name. -/
theorem apexFrom_of_lookup (content : Address → Option Entry) (fuel : Nat) (first : Bool)
    (rr : Option Entry) (key : Name) (ops : List (Op Address Entry)) (found : RrAndSoa)
    (apex : Entry) (runs : (lookupFrom fuel first rr key).Runs ops found)
    (answered : Op.Answered content ops) (hosted : found.soa = some apex) :
    ∃ zone, apexFrom content fuel key = some zone ∧
      ops.getLast? = some (.read (entryAt zone) (some apex)) := by
  induction fuel generalizing first rr key ops with
  | zero => cases ((runs_done _ _ _).mp runs).1
  | succ fuel ih =>
    rcases lookupFrom_turn runs with rfl | ⟨named, answer, rest, rfl, turn⟩
    · cases hosted
    obtain ⟨here, answered⟩ := answered
    rcases turn with ⟨entry, rfl, isZone, rfl, rfl⟩ | ⟨_, shorter, _, same, runs⟩
    · refine ⟨key, by simp [apexFrom, named, here, isZone], ?_⟩
      cases first <;> cases hosted <;> rfl
    · obtain ⟨zone, isApex, last⟩ := ih false _ shorter rest runs answered
      refine ⟨zone, (same content here).trans isApex, ?_⟩
      rw [getLast?_cons, last]
      rfl

end apex

section request

/-- What a request that runs alone has found and written: it finds the zone of its name, and
behind its reads it writes the entry of the name, the entry of the zone unless that was the same,
and differences. -/
structure Alone (config : Config) (session : Session) (fuel : Nat) (request : RrRequest)
    (content : Address → Option Entry) (ops : List (Op Address Entry)) where
  apex : Name
  old : Entry
  sb : StorageBuilder
  method : Method Entry
  change : Change
  raising : Replay.Writes Address Entry
  logged : Replay.Writes Address Entry
  existing : RrAndSoa
  isApex : apexFrom content fuel (toLower request.target) = some apex
  suffix : apex <:+ toLower request.target
  filled : apex ≠ []
  oldFound : content (entryAt apex) = some old
  isZone : old.hasType RrType.soa = true
  name : content (entryAt (toLower request.target)) = existing.rr
  isSame : existing.isSame = true → existing.rr = some old ∧ apex = toLower request.target ∧
    request.method.createsOrDeletes = false
  isBelow : existing.isSame = false → ∀ entry ∈ existing.rr, entry.hasType RrType.soa = false
  sbNew : newBuilder existing old = .ok sb
  received : request.method.mapM (build config request.target sb) = .ok method
  changed : changeOf config session (toLower request.target) existing old method = .ok change
  raises : (change.needVersionIncrement = false ∧ raising = []) ∨
    (change.needVersionIncrement = true ∧ ∃ raised,
      raisedZone config (withoutDot apex) old = .ok raised ∧
        raising = [(entryAt (withoutDot apex), some raised)])
  writes : Op.writes ops = (entryAt (toLower request.target), change.data) :: raising ++ logged
  unlogged : ∀ key : Address, key.1 ≠ .diff → key ∉ Replay.keys logged

theorem record_runs {ρ : Type} {result : Name → StorageBuilder → Method Entry → Change → ρ}
    {config : Config} {session : Session} {fuel : Nat} {request : RrRequest}
    {content : Address → Option Entry} {ops : List (Op Address Entry)} {value : ρ}
    (runs : (lookupEntryAndSoa fuel (toLower request.target) >>=
      behindLookups config session request result).Runs ops value)
    (answered : Op.Answered content ops)
    (stored : ∀ name entry, content (entryAt name) = some entry → Stored (withoutDot name) entry) :
    ∃ alone : Alone config session fuel request content ops,
      value = result (withoutDot alone.apex) alone.sb alone.method alone.change := by
  rw [runs_bind] at runs
  obtain ⟨looked, rest, existing, rfl, lookupRuns, runs⟩ := runs
  obtain ⟨⟨old, sb, method, soa, change, newSoa, reads, raising, logging, hosted, authorized, sbNew,
    received, getSoa, changed, reading, raiseRuns, logRuns, rfl⟩, isValue⟩ :=
    behind_lookups result existing rest value runs
  obtain ⟨apex, lookups, rfl, looking, isZone, suffix, filled, place⟩ :=
    lookupEntryAndSoa_runs lookupRuns hosted
  have readingAll := looking.reading.append (reading_single (entryAt apex) (some old))
  rw [answered_append] at answered
  have shown := answered.1.reading readingAll
  obtain ⟨zone, isApex, last⟩ := apexFrom_of_lookup content fuel true none _ _ existing
    old lookupRuns answered.1 hosted
  have sameZone : apex = zone := by
    simp only [getLast?_append, getLast?_singleton, Option.some_or, Option.some.injEq,
      Op.read.injEq, and_true] at last
    exact entryAt_injective last
  subst sameZone
  have oldFound : content (entryAt apex) = some old := shown _ _ (by simp)
  obtain ⟨zoneName, _⟩ := (stored apex old oldFound).soa_owner isZone getSoa
  rw [zoneName] at raiseRuns logRuns isValue
  have found : content (entryAt (toLower request.target)) = existing.rr ∧
      (existing.isSame = true → existing.rr = some old ∧ apex = toLower request.target) ∧
      (existing.isSame = false → ∀ entry ∈ existing.rr, entry.hasType RrType.soa = false) := by
    rcases place with ⟨same, sameOld, rfl, _⟩ | ⟨differs, plain, reads, rfl⟩
    · exact ⟨oldFound.trans sameOld.symm, fun _ => ⟨sameOld, rfl⟩, fun differs => by simp [same] at differs⟩
    · exact ⟨shown _ _ (by simp), fun same => by simp [differs] at same, fun _ => plain⟩
  refine ⟨⟨apex, old, sb, method, change, Op.writes raising, Op.writes logging, existing, isApex,
    suffix, filled, oldFound, isZone, found.1,
    fun same => ⟨(found.2.1 same).1, (found.2.1 same).2, authorized same⟩, found.2.2, sbNew, received,
    changed, ?_, ?_, fun key other => logChange_writes logRuns other⟩, isValue⟩
  · rcases raise_runs raiseRuns with ⟨needless, rfl⟩ | ⟨needed, raised, returned, rfl⟩
    · exact Or.inl ⟨needless, rfl⟩
    · exact Or.inr ⟨needed, raised, returned, rfl⟩
  · rw [writes_append, readingAll.writes, writes_append, reading.writes, writes_write,
      writes_append, nil_append, nil_append, cons_append]

/-- What a request for a name below its zone has found and written. -/
theorem below_zone {config : Config} {server next : Server} {call : Call} {zoneName : Name}
    (orderly : Orderly server.db.content)
    (performed : server.perform (call.program config) = .ok (zoneName, next))
    (below : ∀ entry, server.db.content (entryAt (toLower call.request.target)) = some entry →
      entry.hasType RrType.soa = false) :
    ∃ ops, ∃ alone : Alone config call.session call.fuel call.request server.db.content ops,
      alone.existing.isSame = false ∧ ∀ key, next.db.content (.entry, key) =
        Replay.apply server.db.content ((entryAt (toLower call.request.target), alone.change.data) ::
          alone.raising) (.entry, key) := by
  obtain ⟨ops, runs, answered, content⟩ := server.perform_eq_ok _ _ next performed
  obtain ⟨alone, rfl⟩ := record_runs runs answered orderly.stored
  refine ⟨ops, alone, ?_, ?_⟩
  · rw [Bool.eq_false_iff]
    intro isSame
    have isOld := below alone.old (alone.name.trans (alone.isSame isSame).1)
    cases isOld.symm.trans alone.isZone
  · intro key
    rw [content, alone.writes, Replay.apply_append]
    exact Replay.apply_unwritten _ (alone.unlogged _ (by simp))

/-- A request below a zone changes only its name and the serial of the zone, exactly
when its name is written without a final dot. -/
theorem changesOnlyName_iff_no_final_dot (config : Config) (server next : Server) (call : Call)
    (zoneName : Name) (orderly : Orderly server.db.content)
    (performed : server.perform (call.program config) = .ok (zoneName, next))
    (below : ∀ entry, server.db.content (entryAt (toLower call.request.target)) = some entry →
      entry.hasType RrType.soa = false)
    (replaces : ∀ body, call.request.method ≠ .patch body true) :
    ChangesOnlyName config call server.db.content next.db.content ↔
      call.request.target.getLast? ≠ some 0x2E := by
  obtain ⟨ops, ⟨apex, old, sb, method, change, raising, _, existing, isApex, suffix, filled, oldFound,
    isZone, name, _, _, sbNew, received, changed, raises, _, _⟩, differs, after⟩ :=
    below_zone orderly performed below
  have notApex : entryAt apex ≠ entryAt (toLower call.request.target) := by
    intro same
    rw [same] at oldFound
    rw [below old oldFound] at isZone
    cases isZone
  constructor
  · -- the entry of a zone with a final dot is not written
    rintro ⟨_, zone, before, new, sameApex, beforeFound, newFound, raised, _⟩ dotted
    cases isApex.symm.trans sameApex
    have dottedApex : apex.getLast? = some 0x2E := by
      rw [suffix_getLast suffix filled]
      exact toLower_dotted dotted
    have elsewhere : entryAt apex ≠ entryAt (withoutDot apex) := by
      intro same
      have lengths := congrArg length (entryAt_injective same)
      rw [withoutDot, if_pos dottedApex, length_dropLast] at lengths
      have := length_pos_iff.mpr filled
      omega
    have unwritten : entryAt apex ∉ Replay.keys
        ((entryAt (toLower call.request.target), change.data) :: raising) := by
      rcases raises with ⟨_, rfl⟩ | ⟨_, _, _, rfl⟩
      · simpa [Replay.keys] using notApex
      · simpa [Replay.keys] using ⟨notApex, elsewhere⟩
    have kept : next.db.content (entryAt apex) = some old := by
      refine (after (RealKey.ofName apex)).trans ?_
      exact (Replay.apply_unwritten _ unwritten).trans oldFound
    cases oldFound.symm.trans beforeFound
    cases kept.symm.trans newFound
    obtain ⟨serial, read, readAgain, _⟩ := raised.serial
    rw [read, ok.injEq, nextSerial] at readAgain
    omega
  · intro plain
    have plainFqdn := toLower_plain plain
    have plainApex := suffix_plain suffix filled plainFqdn
    have sameName := withoutDot_of_plain plainApex
    have oldStored := orderly.stored apex old oldFound
    rw [sameName] at oldStored raises
    obtain ⟨soa, _, _, _, _, gotSoa, _⟩ := oldStored.soa_found isZone
    have lower := (oldStored.soa_owner isZone gotSoa).2
    obtain ⟨needed, holds⟩ := changeOf_facts sbNew received plain differs replaces (by
        intro entry isOld
        have found := name.trans isOld
        have stored := orderly.stored _ entry found
        rw [withoutDot_of_plain plainFqdn] at stored
        exact ⟨stored, orderly.sane _ entry found⟩) changed
    rcases raises with ⟨needless, _⟩ | ⟨_, raised, returned, rfl⟩
    · rw [needed] at needless
      cases needless
    · have apexRaised := raisedZone_facts plainApex lower oldStored
        (orderly.sane apex old oldFound) returned
      have written (key : Key) : next.db.content (.entry, key) =
          if (Category.entry, key) = entryAt apex then some raised
          else if (Category.entry, key) = entryAt (toLower call.request.target) then change.data
          else server.db.content (.entry, key) := by
        rw [after, Replay.apply_cons, Replay.apply_cons, Replay.apply_nil, Function.update_apply,
          Function.update_apply]
      refine ⟨?_, apex, old, raised, isApex, oldFound, ?_, apexRaised, ?_⟩
      · rw [name]
        have found : next.db.content (entryAt (toLower call.request.target)) = change.data :=
          (written _).trans ((if_neg fun same => notApex same.symm).trans (if_pos rfl))
        rw [found]
        exact holds
      · exact (written (RealKey.ofName apex)).trans (if_pos rfl)
      · intro key notName notZone
        rw [written, if_neg fun same => notZone (congrArg Prod.snd same),
          if_neg fun same => notName (congrArg Prod.snd same)]

theorem orderly_serverOfZ : Orderly serverOfZ.db.content where
  stored name entry found := by
    obtain ⟨rfl, rfl⟩ := serverOfZ_entry found
    exact stored_apexOfZ
  sane name entry found := by
    obtain ⟨_, rfl⟩ := serverOfZ_entry found
    unfold Sane
    decide +kernel

/-- Creating an address in a zone with nothing else. -/
theorem posted_address_changes_only_name :
    ∃ next, serverOfZ.perform ((postAddress 0x61).program sampleConfig) = .ok ([0x7A], next) ∧
      ChangesOnlyName sampleConfig (postAddress 0x61) serverOfZ.db.content next.db.content := by
  have performed := Server.perform_of_exec _ _ _ _ postAddress_ran
  refine ⟨_, performed, ?_⟩
  apply (changesOnlyName_iff_no_final_dot sampleConfig serverOfZ _ (postAddress 0x61) [0x7A]
    orderly_serverOfZ performed ?_ ?_).mpr
  · exact fun dotted => absurd dotted (by decide)
  · exact fun _ found => nomatch postAddress_absent.symm.trans found
  · exact nofun

/-- A server with the zone `z` created as `z.`. -/
def serverOfZDot : Server where
  db :=
    { families := fun
        | .entry => (∅ : ColumnFamily Entry).insert (RealKey.ofName [0x7A, 0x2E]) apexOfZ
        | _ => ∅
      trxlog := ∅ }
  trxId := 0

/-- A request for an address at `a.z.`. -/
def postDotted : Call :=
  { postAddress 0x61 with
    request := ⟨[0x61, 0x2E, 0x7A, 0x2E], (postAddress 0x61).request.method⟩ }

/-- The entry of a zone that was created with a final dot keeps its serial. -/
theorem dotted_zone_keeps_serial :
    ∃ next, serverOfZDot.perform (postDotted.program sampleConfig) = .ok ([0x7A], next) ∧
      apexFrom serverOfZDot.db.content 3 [0x61, 0x2E, 0x7A, 0x2E] = some [0x7A, 0x2E] ∧
      next.db.content (entryAt [0x7A, 0x2E]) = some apexOfZ ∧
      ¬ ChangesOnlyName sampleConfig postDotted serverOfZDot.db.content next.db.content := by
  have ran : (postDotted.program sampleConfig).exec serverOfZDot.db.content =
      .ok ([0x7A], operations (postDotted.program sampleConfig) serverOfZDot.db.content) := by
    decide +kernel
  have kept : (serverOfZDot.commit (operations (postDotted.program sampleConfig)
      serverOfZDot.db.content)).db.content (entryAt [0x7A, 0x2E]) = some apexOfZ := by decide +kernel
  have apex : apexFrom serverOfZDot.db.content 3 [0x61, 0x2E, 0x7A, 0x2E] = some [0x7A, 0x2E] := by
    decide +kernel
  have before : serverOfZDot.db.content (entryAt [0x7A, 0x2E]) = some apexOfZ := by decide +kernel
  refine ⟨_, Server.perform_of_exec _ _ _ _ ran, apex, kept, ?_⟩
  rintro ⟨_, zone, old, new, sameApex, oldFound, newFound, raised, _⟩
  cases apex.symm.trans sameApex
  cases before.symm.trans oldFound
  cases kept.symm.trans newFound
  obtain ⟨serial, read, readAgain, _⟩ := raised.serial
  rw [read, ok.injEq, nextSerial] at readAgain
  omega

end request

end Nsblast.RestApi
