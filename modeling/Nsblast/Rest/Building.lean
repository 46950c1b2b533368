import Nsblast.Rest.ResourceRecord

/-!
# The entries a request builds

Each of the loops that fill a builder adds records of one name. What they build is
an entry as the interface stores it; an entry below the zone has the length of the
zone's name in its header. The entry of the zone that is written beside it says the
same as before, except for its SOA.
-/

namespace Nsblast

open StorageBuilder Run List Name

namespace RestApi

/-- A builder in the middle of an entry: nothing but records of the name, of allowed
types, was added to the start. -/
structure Building (fqdn : Name) (allowed : UInt16 → Prop) (start sb : StorageBuilder) :
    Prop where
  ofName : OfName (· = withoutDot fqdn) sb.rrs
  header : sb = { start with rrs := sb.rrs }
  types : ∀ rr ∈ sb.rrs, allowed rr.type

namespace Building

variable {fqdn : Name} {allowed : UInt16 → Prop} {start sb : StorageBuilder}

theorem begin (fqdn : Name) (allowed : UInt16 → Prop) {start : StorageBuilder}
    (empty : start.rrs = []) : Building fqdn allowed start start := by
  refine ⟨?_, rfl, ?_⟩
  · rw [empty]
    exact OfName.nil _
  · rw [empty]
    exact nofun

theorem create (building : Building fqdn allowed start sb) (one : start.oneSoa = true)
    {type : UInt16} {ttl : UInt32} {rdata : List UInt8} {next : StorageBuilder}
    (wide : type = RrType.soa → minRrLen ≤ rdata.length) (accepted : allowed type)
    (created : sb.createRr fqdn type ttl rdata true = .ok next) :
    Building fqdn allowed start next := by
  have oneSoa : sb.oneSoa = true := by
    rw [building.header]
    exact one
  obtain ⟨rr, rfl, ofName, _, body⟩ :=
    createRr_ofName created oneSoa wide building.ofName
  refine ⟨ofName, ?_, ?_⟩
  · rw [adding, building.header]
  · intro other member
    rcases mem_append.mp member with earlier | last
    · exact building.types other earlier
    · have type : rr.type = type := by rw [body]; rfl
      rw [mem_singleton.mp last, type]
      exact accepted

/-- A copied record is one that was stored before. -/
theorem copy (building : Building fqdn allowed start sb) (one : start.oneSoa = true) (rr : StoredRr)
    (next : StorageBuilder) (wide : rr.type = RrType.soa → minRrLen ≤ rr.rdata.length)
    (accepted : allowed rr.type) (copied : copyRr fqdn sb rr = .ok next) :
    Building fqdn allowed start next :=
  building.create one wide accepted copied

/-- Old records that are kept, or left out. -/
theorem merge (building : Building fqdn allowed start sb) (one : start.oneSoa = true)
    (newTypes : List UInt16) (append : Bool) (rrs : List StoredRr) (next : StorageBuilder)
    (wide : ∀ rr ∈ rrs, rr.type = RrType.soa → minRrLen ≤ rr.rdata.length)
    (accepted : ∀ rr ∈ rrs, allowed rr.type)
    (merged : rrs.foldlM (mergeOld fqdn newTypes append) sb = .ok next) :
    Building fqdn allowed start next := by
  refine foldlM_invariant _ (Building fqdn allowed start) sb next building ?_ merged
  intro state rr next member building turned
  have copies := building.copy one rr next (wide rr member) (accepted rr member)
  rw [mergeOld] at turned
  split at turned
  · exact copies turned
  · split at turned
    · exact copies turned
    · cases turned
      exact building

theorem copies (building : Building fqdn allowed start sb) (one : start.oneSoa = true)
    (rrs : List StoredRr) (next : StorageBuilder)
    (wide : ∀ rr ∈ rrs, rr.type = RrType.soa → minRrLen ≤ rr.rdata.length)
    (accepted : ∀ rr ∈ rrs, allowed rr.type)
    (copied : rrs.foldlM (copyRr fqdn) sb = .ok next) : Building fqdn allowed start next :=
  foldlM_invariant _ (Building fqdn allowed start) sb next building
    (fun _ rr next member building =>
      building.copy one rr next (wide rr member) (accepted rr member)) copied

/-- The finished entry. -/
theorem finish (building : Building fqdn allowed start sb) (sorts : start.sort = true)
    (plain : fqdn.getLast? ≠ some 0x2E) (sorter : Sorter indexLess) (zoneLen : Nat) (entry : Entry)
    (finished : { sb with zoneLen }.finish sorter = .ok entry) :
    Stored (toLower fqdn) entry ∧ entry.zoneLen = zoneLen ∧
      ∀ rr ∈ entry.rrs, allowed rr.type := by
  have sorts : sb.sort = true := by
    rw [building.header]
    exact sorts
  refine ⟨?_, ?_, ?_⟩
  · exact stored_finish { sb with zoneLen } entry fqdn plain
      building.ofName sorts finished
  · rw [finish_eq_ok finished]
  · intro rr member
    exact building.types rr
      ((finish_perm sorter entry finished).mem_iff.mp member)

end Building

section build

variable {zone : Entry} {sb : StorageBuilder}

theorem withZoneLen_eq_ok {next : StorageBuilder}
    (returned : withZoneLen zone sb = .ok next) :
    ∃ soa, zone.first = .ok soa ∧ next = { sb with zoneLen := soa.owner.length } := by
  simp only [withZoneLen, bind_eq_ok] at returned
  obtain ⟨soa, first, _, _, returned⟩ := returned
  rw [setZoneLen, bind_eq_ok] at returned
  obtain ⟨_, _, same⟩ := returned
  cases same
  exact ⟨soa, first, rfl⟩

/-- The length of the zone's name, as the header of an entry below the zone has it. -/
def HasZoneLen (zone : Entry) (zoneLen : Nat) : Prop :=
  ∃ soa, zone.first = .ok soa ∧ zoneLen = soa.owner.length

theorem newBuilder_eq_ok {existing : RrAndSoa}
    (returned : newBuilder existing zone = .ok sb) :
    sb.rrs = [] ∧ sb.oneSoa = true ∧ sb.sort = true ∧
      (existing.isSame = false → HasZoneLen zone sb.zoneLen) := by
  rw [newBuilder] at returned
  split at returned
  · rename_i same
    cases returned
    refine ⟨rfl, rfl, rfl, ?_⟩
    intro differs
    rw [same] at differs
    cases differs
  · obtain ⟨soa, first, rfl⟩ := withZoneLen_eq_ok returned
    exact ⟨rfl, rfl, rfl, fun _ => ⟨soa, first, rfl⟩⟩

/-- What `build` makes of a body. -/
theorem build_eq_ok {config : Config} {target : Name} {body : JsonBody}
    {entry : Entry} (empty : sb.rrs = []) (one : sb.oneSoa = true) (sorts : sb.sort = true)
    (plain : target.getLast? ≠ some 0x2E) (built : build config target sb body = .ok entry) :
    Stored (toLower target) entry ∧ entry.zoneLen = sb.zoneLen ∧
      ∀ rr ∈ entry.rrs, rr.type ∈ body.rrs.map (·.type) := by
  rw [build, bind_eq_ok] at built
  obtain ⟨filled, created, finished⟩ := built
  have building : Building target (· ∈ body.rrs.map (·.type)) sb filled := by
    refine foldlM_invariant _ (Building target _ sb) sb filled
      (Building.begin target _ empty) ?_ created
    intro state rr next member building created
    exact building.create one rr.wide (mem_map_of_mem member) created
  have header : filled.zoneLen = sb.zoneLen := by rw [building.header]
  have sameBuilder : filled = { filled with zoneLen := sb.zoneLen } := by rw [← header]
  rw [sameBuilder] at finished
  exact building.finish sorts plain config.index sb.zoneLen entry finished

end build

/-- The types in the body of a request. -/
def bodyTypes (method : Method JsonBody) : List UInt16 :=
  method.body.elim [] fun body => body.rrs.map (·.type)

/-- An entry below the zone, with records of types that were in the body or in the
old entry. -/
structure NewEntry (fqdn : Name) (zone : Entry) (request : Method JsonBody) (old : Option Entry)
    (entry : Entry) : Prop where
  stored : Stored fqdn entry
  zoneLen : HasZoneLen zone entry.zoneLen
  types : ∀ rr ∈ entry.rrs, rr.type ∈ bodyTypes request ∨ ∃ before ∈ old, before.hasType rr.type

namespace Method

variable {β γ : Type} {f : β → Run γ} {request : Method β} {method : Method γ}

/-- A request before and after its body was built. -/
inductive Mapped (f : β → Run γ) : Method β → Method γ → Prop
  | post {body : β} {built : γ} (done : f body = .ok built) : Mapped f (.post body) (.post built)
  | put {body : β} {built : γ} (done : f body = .ok built) : Mapped f (.put body) (.put built)
  | patch {body : β} {built : γ} (append : Bool) (done : f body = .ok built) :
      Mapped f (.patch body append) (.patch built append)
  | delete (filter : Option (List UInt16)) : Mapped f (.delete filter) (.delete filter)

theorem mapped (received : request.mapM f = .ok method) : Mapped f request method := by
  cases request with
  | delete filter =>
    cases received
    exact .delete filter
  | _ =>
    simp only [Method.mapM, bind_eq_ok] at received
    obtain ⟨built, done, same⟩ := received
    cases same
    constructor
    exact done

theorem Mapped.body (mapped : Mapped f request method) {built : γ} (isBody : built ∈ method.body) :
    ∃ body, request.body = some body ∧ f body = .ok built := by
  cases mapped with
  | delete filter => cases isBody
  | _ =>
    rename_i done
    cases isBody
    exact ⟨_, rfl, done⟩

end Method

section changeOf

variable {config : Config} {session : Session}

variable {entry : Entry} {change : Change}

/-- The end of a merge below the zone. -/
theorem closeMerged_below {existing : RrAndSoa} {zone : Entry} {merged : StorageBuilder}
    {fqdn : Name} {allowed : UInt16 → Prop} {tenantId : Option Uuid}
    (building : Building fqdn allowed { tenantId } merged) (below : existing.isSame = false)
    (plain : fqdn.getLast? ≠ some 0x2E)
    (closed : closeMerged config existing zone merged = .ok entry) :
    Stored (toLower fqdn) entry ∧ HasZoneLen zone entry.zoneLen ∧
      ∀ rr ∈ entry.rrs, allowed rr.type := by
  rw [closeMerged, below, if_neg Bool.false_ne_true, bind_eq_ok] at closed
  obtain ⟨sb, measured, finished⟩ := closed
  obtain ⟨soa, first, rfl⟩ := withZoneLen_eq_ok measured
  obtain ⟨stored, zoneLen, types⟩ :=
    building.finish rfl plain config.index soa.owner.length entry finished
  exact ⟨stored, ⟨soa, first, zoneLen⟩, types⟩

variable {request : Method JsonBody} {method : Method Entry} {target fqdn : Name}
  {existing : RrAndSoa} {zone : Entry} {sb : StorageBuilder}

/-- A body of the request that was built. -/
theorem received_eq_ok (sbNew : newBuilder existing zone = .ok sb)
    (received : request.mapM (build config target sb) = .ok method)
    (plain : target.getLast? ≠ some 0x2E) (isBody : entry ∈ method.body) :
    Stored (toLower target) entry ∧ entry.zoneLen = sb.zoneLen ∧
      ∀ rr ∈ entry.rrs, rr.type ∈ bodyTypes request := by
  obtain ⟨empty, one, sorts, _⟩ := newBuilder_eq_ok sbNew
  obtain ⟨body, inRequest, built⟩ := (Method.mapped received).body isBody
  rw [bodyTypes, inRequest]
  exact build_eq_ok empty one sorts plain built

/-- The body replaces the entry of the name: it is put there, or patched where there is none. -/
def Puts (existing : RrAndSoa) (entry : Entry) (method : Method Entry) : Prop :=
  method = .put entry ∨ ∃ append, method = .patch entry append ∧ existing.rr = none

theorem Puts.body (puts : Puts existing entry method) : entry ∈ method.body := by
  rcases puts with rfl | ⟨_, rfl, _⟩ <;> rfl

/-- The ways in which a request changes the entry of its name. -/
inductive Switched (config : Config) (fqdn : Name) (existing : RrAndSoa) (zone : Entry) :
    Method Entry → Change → Prop
  | created (entry : Entry) : Switched config fqdn existing zone (.post entry)
      { data := some entry, isNew := true, needVersionIncrement := true }
  | replaced {method : Method Entry} {entry : Entry} (puts : Puts existing entry method)
      (below : existing.isSame = false) : Switched config fqdn existing zone method
        { data := some entry, needVersionIncrement := true }
  | raised {method : Method Entry} {entry raised : Entry} (puts : Puts existing entry method)
      (same : existing.isSame = true) (incremented : entry.incrementSoaVersion zone = .ok raised) :
      Switched config fqdn existing zone method
        { data := some raised, newSoa := raised.soa, needVersionIncrement := false }
  | merged {entry old result : Entry} {append : Bool} {copied both : StorageBuilder}
      (found : existing.rr = some old)
      (copiedNew : entry.rrs.foldlM (copyRr fqdn) { tenantId := old.tenantId } = .ok copied)
      (mergedOld : old.rrs.foldlM (mergeOld fqdn (entry.rrs.map (·.type)) append) copied = .ok both)
      (closed : closeMerged config existing zone both = .ok result) :
      Switched config fqdn existing zone (.patch entry append)
        { data := some result, needVersionIncrement := !existing.isSame }
  | removed {old : Entry} (found : existing.rr = some old) :
      Switched config fqdn existing zone (.delete none) { data := none, needVersionIncrement := true }
  | filtered {old result : Entry} {types : List UInt16} {copied : StorageBuilder}
      (found : existing.rr = some old)
      (copiedOld : (old.rrs.filter fun rr => rr.type ∉ types).foldlM (copyRr fqdn)
        { tenantId := old.tenantId } = .ok copied)
      (closed : closeMerged config existing zone copied = .ok result) :
      Switched config fqdn existing zone (.delete (some types))
        (if result.rrs = [] then { data := none, needVersionIncrement := true }
          else { data := some result, needVersionIncrement := !existing.isSame })

theorem switched_of_put (puts : Puts existing entry method)
    (returned : put session fqdn existing zone entry = .ok change) :
    Switched config fqdn existing zone method change := by
  rw [put, bind_eq_ok] at returned
  obtain ⟨_, _, returned⟩ := returned
  split at returned
  · rename_i same
    rw [bind_eq_ok] at returned
    obtain ⟨raised, incremented, done⟩ := returned
    cases done
    exact .raised puts same incremented
  · rename_i below
    cases returned
    exact .replaced puts (by simpa using below)

/-- What the switch over the methods returns. -/
theorem switched_of_changeOf
    (changed : changeOf config session fqdn existing zone method = .ok change) :
    Switched config fqdn existing zone method change := by
  cases method with
  | post entry =>
    simp only [changeOf, post, bind_eq_ok] at changed
    obtain ⟨_, _, _, _, same⟩ := changed
    cases same
    exact .created entry
  | put entry => exact switched_of_put (.inl rfl) changed
  | patch entry append =>
    rw [changeOf, patch] at changed
    split at changed
    · rename_i absent
      exact switched_of_put (.inr ⟨append, rfl, absent⟩) changed
    · rename_i old found
      simp only [bind_eq_ok] at changed
      obtain ⟨_, _, copied, copiedNew, both, mergedOld, result, closed, same⟩ := changed
      cases same
      exact .merged found copiedNew mergedOld closed
  | delete filter =>
    rw [changeOf] at changed
    unfold delete at changed
    rw [bind_eq_ok] at changed
    obtain ⟨_, _, changed⟩ := changed
    split at changed
    · cases changed
    · rename_i old found
      cases changed
      exact .removed found
    · rename_i old types found
      simp only [bind_eq_ok] at changed
      obtain ⟨copied, copiedOld, result, closed, same⟩ := changed
      cases same
      exact .filtered found copiedOld closed

/-- What a request below the zone does to the entry of its name. -/
theorem changeOf_below (sbNew : newBuilder existing zone = .ok sb)
    (received : request.mapM (build config target sb) = .ok method)
    (plain : target.getLast? ≠ some 0x2E) (plainFqdn : fqdn.getLast? ≠ some 0x2E)
    (lower : fqdn = toLower target) (below : existing.isSame = false)
    (oldStored : ∀ old ∈ existing.rr, Stored fqdn old)
    (changed : changeOf config session fqdn existing zone method = .ok change) :
    change.needVersionIncrement = true ∧
      ∀ entry ∈ change.data, NewEntry fqdn zone request existing.rr entry := by
  obtain ⟨_, _, _, measured⟩ := newBuilder_eq_ok sbNew
  have sameLower : toLower fqdn = fqdn := by rw [lower, toLower_toLower]
  -- the entry built from the body
  have fromBody (entry : Entry) (isBody : entry ∈ method.body) :
      NewEntry fqdn zone request existing.rr entry := by
    obtain ⟨stored, zoneLen, types⟩ := received_eq_ok sbNew received plain isBody
    exact ⟨lower ▸ stored, zoneLen ▸ measured below, fun rr member => Or.inl (types rr member)⟩
  -- the entries merged from the old one
  have merged (entry : Entry) (sb : StorageBuilder) (tenantId : Option Uuid)
      (building : Building fqdn (fun type => type ∈ bodyTypes request ∨
        ∃ before ∈ existing.rr, before.hasType type) { tenantId } sb)
      (closed : closeMerged config existing zone sb = .ok entry) :
      NewEntry fqdn zone request existing.rr entry := by
    obtain ⟨stored, zoneLen, types⟩ := closeMerged_below building below plainFqdn closed
    rw [sameLower] at stored
    exact ⟨stored, zoneLen, types⟩
  have ofOld {old : Entry} (found : existing.rr = some old) {rr : StoredRr} (member : rr ∈ old.rrs) :
      ∃ before ∈ existing.rr, before.hasType rr.type :=
    ⟨old, found, (old.hasType_iff rr.type).mpr ⟨rr, member, rfl⟩⟩
  cases switched_of_changeOf changed with
  | created entry =>
    refine ⟨rfl, ?_⟩
    rintro _ ⟨⟩
    exact fromBody entry rfl
  | replaced puts =>
    refine ⟨rfl, ?_⟩
    rintro _ ⟨⟩
    exact fromBody _ puts.body
  | raised _ same => cases same.symm.trans below
  | @merged entry old result append copied both found copiedNew mergedOld closed =>
    rw [below]
    refine ⟨rfl, ?_⟩
    rintro _ ⟨⟩
    apply merged result both old.tenantId _ closed
    have newStored := fromBody entry rfl
    -- first the new records, then the old ones that are kept
    refine Building.merge ?_ rfl _ append old.rrs both (oldStored old found).ofName.wide
      (fun rr member => Or.inr (ofOld found member)) mergedOld
    exact (Building.begin fqdn _ rfl).copies rfl entry.rrs copied
      newStored.stored.ofName.wide newStored.types copiedNew
  | removed => exact ⟨rfl, nofun⟩
  | @filtered old result types copied found copiedOld closed =>
    have kept : NewEntry fqdn zone request existing.rr result := by
      apply merged result copied old.tenantId _ closed
      exact (Building.begin fqdn _ rfl).copies rfl _ copied
        (fun rr member => (oldStored old found).ofName.wide rr (mem_of_mem_filter member))
        (fun rr member => Or.inr (ofOld found (mem_of_mem_filter member))) copiedOld
    split
    · exact ⟨rfl, nofun⟩
    · rw [below]
      refine ⟨rfl, ?_⟩
      rintro _ ⟨⟩
      exact kept

/-- What a request for the zone itself does to its entry. Only one that replaces the
entry knows the new SOA. -/
theorem changeOf_same (sbNew : newBuilder existing zone = .ok sb)
    (received : request.mapM (build config target sb) = .ok method)
    (plain : target.getLast? ≠ some 0x2E) (lower : fqdn = toLower target)
    (same : existing.isSame = true) (authorized : method.createsOrDeletes = false)
    (changed : changeOf config session fqdn existing zone method = .ok change) :
    change.needVersionIncrement = false ∧
      ∀ newSoa, change.newSoa = some newSoa →
        ∃ entry raised, Stored fqdn entry ∧ entry.incrementSoaVersion zone = .ok raised ∧
          change.data = some raised ∧ raised.soa = some newSoa := by
  cases switched_of_changeOf changed with
  | created entry => cases authorized
  | replaced _ below => cases same.symm.trans below
  | @raised _ entry raised puts _ incremented =>
    obtain ⟨stored, _, _⟩ := received_eq_ok sbNew received plain puts.body
    exact ⟨rfl, fun newSoa isNew => ⟨entry, raised, lower ▸ stored, incremented, rfl, isNew⟩⟩
  | merged =>
    rw [same]
    exact ⟨rfl, nofun⟩
  | removed => cases authorized
  | filtered => cases authorized

end changeOf

theorem mapM_createsOrDeletes {β γ : Type} {f : β → Run γ} {request : Method β}
    {method : Method γ} (mapped : request.mapM f = .ok method) :
    method.createsOrDeletes = request.createsOrDeletes := by
  cases Method.mapped mapped <;> rfl

section raisedZone

/-- The next serial, which is a number of 32 bits. -/
def nextSerial (serial : Nat) : Nat := (serial + 1) % 4294967296

/-- An entry with the serial behind that of the zone. -/
structure Raised (name : Name) (zone raised : Entry) : Prop where
  stored : Stored name raised
  serial : ∃ soa serial, soasOf raised.rrs = [soa] ∧ zone.serial = .ok serial ∧
    soaSerial soa.toBody = .ok (nextSerial serial)

variable {name zoneName : Name} {entry raised zone : Entry}

/-- The serial that `incrementSoaVersion` looks for is that of the zone. -/
theorem serial_of_find (stored : Stored name zone) {old : StoredRr}
    (found : zone.rrs.find? (fun rr => rr.type == RrType.soa) = some old) :
    zone.serial = soaSerial old.toBody := by
  rw [find_soa_eq_head, head?_eq_some_iff] at found
  obtain ⟨rest, split⟩ := found
  have single := stored.ofName.single
  rw [split, length_cons] at single
  have alone : rest = [] := length_eq_zero_iff.mp (by omega)
  rw [alone] at split
  have member : old ∈ soasOf zone.rrs := by
    rw [split]
    exact mem_singleton_self old
  have isZone : zone.hasType RrType.soa = true :=
    (zone.hasType_iff _).mpr ⟨old, (mem_soasOf _ _).mp member⟩
  obtain ⟨soa, others, rrs, isSoa⟩ := stored.soaFirst ((zone.hasType_iff _).mp isZone)
  have head : soa = old := by
    rw [soasOf, rrs, filter_cons_of_pos (by rw [beq_iff_eq]; exact isSoa),
      List.cons.injEq] at split
    exact split.1
  rw [Entry.serial, Entry.getSoa, isZone, Entry.first, rrs, head]
  rfl

/-- A replaced entry of a zone. -/
theorem raised_put (stored : Stored name entry) (zoneStored : Stored zoneName zone)
    (incremented : entry.incrementSoaVersion zone = .ok raised) : Raised name zone raised := by
  refine ⟨stored.increment zone raised incremented, ?_⟩
  rw [Entry.incrementSoaVersion, bind_eq_ok] at incremented
  obtain ⟨rrs, incremented, same⟩ := incremented
  cases same
  obtain ⟨old, serial, _, _, _, _, found, read, _⟩ := incrementedRrs_eq_ok incremented
  obtain ⟨soa, only, next⟩ := stored.ofName.incremented_serial found read incremented
  refine ⟨soa, serial, only, ?_, next⟩
  rw [serial_of_find zoneStored found, read]

variable {rrs : List StoredRr}

/-- Raising the serial is no change to the other records. -/
theorem plainFacts_incremented {result : List StoredRr}
    (incremented : incrementedRrs rrs entry = .ok result) : plainFacts result = plainFacts rrs := by
  obtain ⟨_, _, before, soa, raised, after, _, _, rfl, rfl, _, isSoa, _, shape⟩ :=
    incrementedRrs_eq_ok incremented
  have raisedSoa : raised.type = RrType.soa := by
    rw [shape]
    exact isSoa
  rw [plainFacts_append, plainFacts_append, plainFacts_cons, plainFacts_cons, if_pos isSoa,
    if_pos raisedSoa]

/-- Copying the records of a name says the same about it. -/
theorem copies_eq_ok {fqdn : Name} (plain : fqdn.getLast? ≠ some 0x2E) {start : StorageBuilder}
    (one : start.oneSoa = true) {sb next : StorageBuilder}
    (building : Building fqdn (fun _ => True) start sb)
    (wide : ∀ rr ∈ rrs, rr.type = RrType.soa → minRrLen ≤ rr.rdata.length)
    (owners : ∀ rr ∈ rrs, rr.key = toLower fqdn) (copied : rrs.foldlM (copyRr fqdn) sb = .ok next) :
    Building fqdn (fun _ => True) start next ∧
      plainFacts next.rrs = plainFacts sb.rrs ++ plainFacts rrs := by
  induction rrs generalizing sb with
  | nil =>
    cases copied
    exact ⟨building, (append_nil _).symm⟩
  | cons rr rest ih =>
    rw [foldlM_cons, bind_eq_ok] at copied
    obtain ⟨middle, first, later⟩ := copied
    have oneSoa : sb.oneSoa = true := by
      rw [building.header]
      exact one
    have wideHere := wide rr mem_cons_self
    obtain ⟨copy, added, _, owner, body⟩ := createRr_ofName first oneSoa wideHere
        building.ofName
    obtain ⟨built, facts⟩ := ih
      (building.copy one rr middle wideHere trivial first)
      (fun other member => wide other (mem_cons_of_mem rr member))
      (fun other member => owners other (mem_cons_of_mem rr member)) later
    refine ⟨built, ?_⟩
    have type : copy.type = rr.type := by rw [body]; rfl
    rw [facts, added, adding, plainFacts_append, append_assoc,
      plainFacts_cons copy, plainFacts_cons rr, type]
    by_cases isSoa : rr.type = RrType.soa
    · rw [if_pos isSoa, if_pos isSoa]
      rfl
    · obtain ⟨inClass, accepted⟩ := rr.sane.resolve_left isSoa
      have sameBody : copy.toBody = rr.toBody :=
        body.trans (sanitized_of_sane inClass accepted)
      have sameFact : copy.fact = rr.fact := by
        rw [StoredRr.fact, StoredRr.fact, owners rr mem_cons_self, Record.key, owner,
          withoutDot_of_plain plain, sameBody]
      rw [if_neg isSoa, if_neg isSoa, sameFact]
      rfl

/-- The entry of the zone that is written beside the entry of the name. -/
theorem raisedZone_eq_ok {config : Config} (plain : zoneName.getLast? ≠ some 0x2E)
    (lower : toLower zoneName = zoneName) (stored : Stored zoneName zone)
    (returned : raisedZone config zoneName zone = .ok raised) :
    Raised zoneName zone raised ∧ (plainFacts raised.rrs).Perm (plainFacts zone.rrs) := by
  simp only [raisedZone, bind_eq_ok] at returned
  obtain ⟨sb, copied, next, incremented, finished⟩ := returned
  obtain ⟨building, facts⟩ := copies_eq_ok plain rfl (Building.begin zoneName _ rfl)
    stored.ofName.wide
    (fun rr member => (stored.owners rr member).trans lower.symm) copied
  rw [incrementSoaVersion, bind_eq_ok] at incremented
  obtain ⟨rrs, incremented, same⟩ := incremented
  cases same
  have sorts : sb.sort = true := by rw [building.header]
  have perm := finish_perm config.index raised finished
  obtain ⟨old, serial, _, _, _, _, found, read, _⟩ := incrementedRrs_eq_ok incremented
  obtain ⟨soa, only, next⟩ := building.ofName.incremented_serial found read incremented
  refine ⟨⟨?_, soa, serial, ?_, ?_, next⟩, ?_⟩
  · rw [← lower]
    exact stored_finish { sb with rrs } raised zoneName plain
      (building.ofName.increment zone incremented) sorts finished
  · have filtered : (soasOf raised.rrs).Perm [soa] := by
      rw [← only]
      exact perm.filter _
    exact perm_singleton.mp filtered
  · rw [serial_of_find stored found, read]
  · have sameFacts := plainFacts_incremented incremented
    have copiedFacts : plainFacts sb.rrs = plainFacts zone.rrs := facts
    rw [← copiedFacts, ← sameFacts]
    exact (perm.map _).filter _

end raisedZone

end RestApi

end Nsblast
