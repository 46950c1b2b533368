import Mathlib.Algebra.Order.Group.Multiset
import Nsblast.Rest.Requests

/-!
# The differences as a history of the zone

A zone is the multiset of what its records say, without the SOA. Each request that
changes the zone raises the serial by one and stores a difference under the new
serial. The differences behind any earlier serial, applied one after the other to
the zone as it was then, give the zone as it is now.

Two records say the same when their owners are equal up to the case of letters and
their bodies are equal. An entry belongs to the zone whose length its header has, an
entry with a SOA is the entry of a zone itself.
-/

namespace Nsblast.RestApi

open RealKey (ofName)
open List OrderedMap

/-- What records say, without their order. -/
abbrev Facts := Multiset (Name × Body)

/-- The zone of an entry. -/
def zoneOf (fqdn : Name) (entry : Entry) : Name :=
  if entry.hasType RrType.soa then fqdn else fqdn.drop (fqdn.length - entry.zoneLen)

/-- What an entry contributes to a zone. -/
def factsIn (zone : Name) (key : Key) (entry : Entry) : Facts :=
  if zoneOf (nameOf key) entry = zone then (plainFacts entry.rrs : Facts) else 0

/-- What the records of a zone say, apart from its SOA. -/
def zoneRecords (db : Db Entry) (zone : Name) : Facts :=
  total (factsIn zone) (db.families .entry)

variable {diff entry : Entry} {difference : Difference}

section applyDiff

/-- Reading a stored difference: a SOA, what is deleted, a SOA, what is added. -/
def readDifference (diff : Entry) : Option Difference :=
  match diff.rrs with
  | [] => none
  | old :: rest =>
      if old.type = RrType.soa then
        match rest.dropWhile fun rr => rr.type ≠ RrType.soa with
        | [] => none
        | new :: added =>
            if ∀ rr ∈ added, rr.type ≠ RrType.soa then
              some ⟨old, rest.takeWhile fun rr => rr.type ≠ RrType.soa, new, added⟩
            else none
      else none

/-- Applying a difference: everything it deletes must be there. -/
def applyDiff (facts : Facts) (diff : Entry) : Option Facts := do
  let difference ← readDifference diff
  let deleted : Facts := difference.deleted.map StoredRr.fact
  if deleted ≤ facts then some (facts - deleted + (difference.added.map StoredRr.fact : Facts))
  else none

/-- Applying the differences behind a serial, as many as are asked for. -/
def replayDiffs (content : Address → Option Entry) (zone : Name) : Nat → Nat → Facts → Option Facts
  | _, 0, facts => some facts
  | serial, count + 1, facts => do
      let diff ← content (diffAt zone (serial + 1))
      let next ← applyDiff facts diff
      replayDiffs content zone (serial + 1) count next

theorem readDifference_eq {old new : Nat} (rrs : diff.rrs = difference.rrs)
    (proper : difference.Proper old new) :
    readDifference diff = some difference := by
  have plain : ∀ rr ∈ difference.deleted, decide (rr.type ≠ RrType.soa) = true :=
    fun rr member => decide_eq_true (proper.deleted rr member)
  have stops : ¬ decide (difference.new.type ≠ RrType.soa) = true := by
    rw [decide_eq_true_eq, not_not]
    exact proper.newSoa
  rw [readDifference, rrs, Difference.rrs, cons_append]
  dsimp only
  rw [if_pos proper.oldSoa, dropWhile_append_of_pos plain, takeWhile_append_of_pos plain,
    dropWhile_cons, if_neg stops, takeWhile_cons, if_neg stops, append_nil]
  dsimp only
  rw [if_pos proper.added]

/-- A difference of which the unchanged records are known. -/
theorem applyDiff_eq {facts next rest kept : Facts} (read : readDifference diff = some difference)
    (before : facts = (difference.deleted.map StoredRr.fact : Facts) + kept + rest)
    (after : next = (difference.added.map StoredRr.fact : Facts) + kept + rest) :
    applyDiff facts diff = some next := by
  rw [applyDiff, read, Option.bind_eq_bind, Option.bind_some, before, add_assoc]
  rw [if_pos (Multiset.le_add_right _ _), add_tsub_cancel_left, after]
  congr 1
  rw [add_comm, add_assoc]

end applyDiff

/-- A request for a name of the zone. If the name has an entry, that is one of the
zone, and a SOA is sent for the name of the zone only. -/
structure OfZone (zone : Name) (server : Server) (call : Call) : Prop where
  plain : call.Plain
  existing : ∀ entry, server.db.content (entryAt (Name.toLower call.request.target)) = some entry →
    zoneOf (Name.toLower call.request.target) entry = zone
  apexOnly : RrType.soa ∈ bodyTypes call.request.method → Name.toLower call.request.target = zone

/-- Requests for names of a zone, one after the other, all of which succeed. -/
inductive Changes (config : Config) (zone : Name) : Server → List Call → Server → Prop where
  | nil (server : Server) : Changes config zone server [] server
  | cons (server next final : Server) (call : Call) (calls : List Call)
      (ofZone : OfZone zone server call)
      (performed : server.perform (call.program config) = .ok (zone, next))
      (rest : Changes config zone next calls final) :
      Changes config zone server (call :: calls) final

section step

variable {config : Config} {zone : Name} {server next : Server} {call : Call}

theorem worth_eq {name : Name} {content : Option Entry}
    (ofZone : ∀ entry ∈ content, zoneOf name entry = zone) :
    worth (factsIn zone) (ofName name) content =
      (plainFacts (recordsOf content) : Facts) := by
  cases content with
  | none => rfl
  | some entry =>
    rw [worth, Option.elim_some, factsIn, nameOf_ofName, if_pos (ofZone entry rfl)]
    rfl

theorem worth_zone (isZone : entry.hasType RrType.soa = true) :
    worth (factsIn zone) (ofName zone) (some entry) =
      (plainFacts entry.rrs : Facts) := by
  apply worth_eq
  intro other same
  cases same
  exact if_pos isZone

theorem coe_eq_add {facts first second : List (Name × Body)} (perm : facts.Perm (first ++ second)) :
    (facts : Facts) = (first : Facts) + (second : Facts) := by
  exact Multiset.coe_eq_coe.mpr perm

/-- What the builder is handed is a patch: the SOAs, and behind each a list without SOAs, the
first of which can be taken from what the old entry says so that the second makes it what the
new one says. -/
def Patches (sorter : Sorter itemLess) (oldSoa newSoa : StoredRr) (old new : Entry)
    (sb : StorageBuilder) : Prop :=
  ∃ deleted added : List StoredRr, createDiffSequence sorter oldSoa newSoa (some old) (some new) sb =
      (oldSoa :: deleted ++ newSoa :: added).foldlM (fun sb rr => sb.addRr rr.toRecord) sb ∧
    (∀ rr ∈ deleted ++ added, rr.type ≠ RrType.soa) ∧
    (deleted.map StoredRr.fact : Facts) ≤ (plainFacts old.rrs : Facts) ∧
    (plainFacts old.rrs : Facts) - (deleted.map StoredRr.fact : Facts) +
      (added.map StoredRr.fact : Facts) = (plainFacts new.rrs : Facts)

/-- For two entries of one name, whatever their records and their headers are. -/
theorem createDiffSequence_patches (sorter : Sorter itemLess) {name : Name} {old new : Entry}
    (oldWritten : NamesWritten name (some old)) (newWritten : NamesWritten name (some new))
    (oldSoa newSoa : StoredRr) (sb : StorageBuilder) : Patches sorter oldSoa newSoa old new sb := by
  obtain ⟨kept, oldPerm, newPerm⟩ := missingIn_pairs sorter name oldWritten newWritten
  have oldSum : (plainFacts old.rrs : Facts) = _ := coe_eq_add oldPerm
  have newSum : (plainFacts new.rrs : Facts) = _ := coe_eq_add newPerm
  have facts (rrs : List StoredRr) :
      (rrs.filter fun rr => rr.type ≠ RrType.soa).map StoredRr.fact = plainFacts rrs := by
    rw [plainFacts, filter_map]
    rfl
  refine ⟨(missingIn sorter (some old) (some new)).filter fun rr => rr.type ≠ RrType.soa,
    (missingIn sorter (some new) (some old)).filter fun rr => rr.type ≠ RrType.soa, ?_, ?_, ?_, ?_⟩
  · simp only [createDiffSequence, addRrs_eq_foldlM, cons_append, foldlM_cons, foldlM_append]
  · intro rr member
    rw [← filter_append] at member
    exact of_decide_eq_true (mem_filter.mp member).2
  · rw [facts, oldSum]
    exact Multiset.le_add_right _ _
  · rw [facts, facts, oldSum, newSum, add_tsub_cancel_left, add_comm]

/-- The zone `z` gets an address and loses its tenant. -/
theorem apexOfZ_patches : Patches insertionItems (soaOfZ 1) (soaOfZ 2) apexOfZ
    ⟨none, 0, [soaOfZ 2, StorageBuilder.newRr [0x7A] true RrType.a 300 [10, 0, 0, 1]]⟩ diffBuilder := by
  have old : NamesWritten [0x7A] (some apexOfZ) := by
    unfold NamesWritten
    decide +kernel
  apply createDiffSequence_patches _ old
  unfold NamesWritten
  decide +kernel

/-- An entry that was built below the zone belongs to it. -/
theorem zoneOf_newEntry {fqdn : Name} {request : Method JsonBody} {apex : Entry}
    {old : Option Entry} (stored : Stored zone apex) (isZone : apex.hasType RrType.soa = true)
    (suffix : zone <:+ fqdn) (below : fqdn ≠ zone)
    (apexOnly : RrType.soa ∈ bodyTypes request → fqdn = zone)
    (plainOld : ∀ entry ∈ old, entry.hasType RrType.soa = false)
    (built : NewEntry fqdn apex request old entry) : zoneOf fqdn entry = zone := by
  have noSoa : entry.hasType RrType.soa = false := by
    rw [Bool.eq_false_iff]
    intro hasSoa
    obtain ⟨rr, member, isSoa⟩ := (entry.hasType_iff _).mp hasSoa
    rcases built.types rr member with inBody | ⟨before, isOld, inOld⟩
    · rw [isSoa] at inBody
      exact below (apexOnly inBody)
    · rw [isSoa, plainOld before isOld] at inOld
      cases inOld
  obtain ⟨soa, first, zoneLen⟩ := built.zoneLen
  obtain ⟨found, others, rrs, _, firstIs, _, _, _⟩ := stored.soa_found isZone
  cases firstIs.symm.trans first
  have owner : Name.toLower soa.owner = zone :=
    stored.owners soa (by rw [rrs]; exact mem_cons_self)
  have length : zone.length = entry.zoneLen := by
    rw [zoneLen, ← owner, Name.toLower, length_map]
  obtain ⟨front, rfl⟩ := suffix
  rw [zoneOf, noSoa, if_neg Bool.false_ne_true, ← length, length_append,
    Nat.add_sub_cancel, drop_left]

/-- What one request does to the zone. -/
structure Changed (zone : Name) (server next : Server) (serial : Nat) (diff : Entry) : Prop where
  before : zoneSerial server.db.content zone = some serial
  after : zoneSerial next.db.content zone = some (serial + 1)
  fits : serial + 1 < 4294967296
  tidy : Tidy next.db.content
  stored : next.db.content (diffAt zone (serial + 1)) = some diff
  others : ∀ key, key ≠ diffAt zone (serial + 1) → key.1 = .diff →
    next.db.content key = server.db.content key
  shape : ∃ difference, readDifference diff = some difference ∧ difference.Proper serial (serial + 1)
  applied : applyDiff (zoneRecords server.db zone) diff = some (zoneRecords next.db zone)

/-- Step: a request that succeeds changes the zone so. -/
theorem changed_of_perform (ixfr : config.dnsEnableIxfr = true) (tidy : Tidy server.db.content)
    (ofZone : OfZone zone server call)
    (performed : server.perform (call.program config) = .ok (zone, next)) :
    ∃ serial diff, Changed zone server next serial diff := by
  obtain ⟨ops, runs, answered, content⟩ := server.perform_eq_ok _ _ next performed
  obtain ⟨effect⟩ := onResourceRecord_effect runs
    ixfr ofZone.plain (readsStored_of_answered tidy answered)
  obtain ⟨ofZonePlain, existing, apexOnly⟩ := ofZone
  have plainFqdn := Name.toLower_plain ofZonePlain
  generalize Name.toLower call.request.target = fqdn at effect existing apexOnly plainFqdn
  have apexFound := effect.apex_of_answered answered
  have oldFound := effect.old_of_answered answered
  have apexStored := tidy zone effect.apex apexFound
    (Name.suffix_plain effect.named.1 effect.named.2 plainFqdn)
  have after (key : Address) := (congrFun content key).trans (effect.after server.db.content key)
  have raisedFound : next.db.content (entryAt zone) = some effect.raised := by
    rw [content]
    exact effect.after_zone _
  have read := readDifference_eq effect.diffRrs effect.proper
  obtain ⟨kept, oldFacts, newFacts⟩ := effect.kept
  refine ⟨effect.serial, effect.diff, {
    before := zoneSerial_eq apexFound effect.oldSerial
    after := zoneSerial_eq raisedFound effect.newSerial
    fits := effect.fits
    tidy := ?_
    stored := ?_
    others := ?_
    shape := ⟨effect.difference, read, effect.proper⟩
    applied := ?_ }⟩
  · rw [content]
    exact effect.tidy _ tidy
  · rw [content]
    exact effect.after_diff _
  · rintro ⟨_, key⟩ differs rfl
    rw [after, if_neg differs, if_neg fun same => Category.noConfusion (congrArg Prod.fst same),
      if_neg fun same => Category.noConfusion (congrArg Prod.fst same)]
  · have unchanged (key : Key) (notZone : key ≠ ofName zone)
        (notName : key ≠ ofName fqdn) :
        (server.db.families .entry)[key]? = (next.db.families .entry)[key]? := by
      have found := after (.entry, key)
      rw [if_neg fun same => Category.noConfusion (congrArg Prod.fst same),
        if_neg fun same => notZone (congrArg Prod.snd same),
        if_neg fun same => notName (congrArg Prod.snd same)] at found
      exact found.symm
    rcases effect.place with ⟨_, rfl, old, new, _⟩ | ⟨⟨rest, lookups⟩, plainOld, _, built, sameFacts⟩
    · -- the entry of the zone is replaced
      obtain ⟨rest, before, behind⟩ := total_agree (factsIn fqdn)
        (server.db.families .entry) (next.db.families .entry) (ofName fqdn)
        fun key differs => unchanged key differs differs
      rw [old] at oldFacts
      rw [new] at newFacts
      have foundBefore : (server.db.families .entry)[ofName fqdn]? = some effect.apex :=
        apexFound
      have foundBehind : (next.db.families .entry)[ofName fqdn]? = some effect.raised :=
        raisedFound
      rw [foundBefore, worth_zone effect.isZone] at before
      rw [foundBehind, worth_zone effect.raisedZone] at behind
      replace before := before.trans (congrArg (· + rest) (coe_eq_add oldFacts))
      replace behind := behind.trans (congrArg (· + rest) (coe_eq_add newFacts))
      exact applyDiff_eq read before behind
    · -- the entry of the name is replaced, that of the zone says the same
      have below : fqdn ≠ zone := by
        intro sameName
        have sameAt : entryAt fqdn = entryAt zone := congrArg entryAt sameName
        rw [sameAt, apexFound] at oldFound
        have noZone := plainOld effect.apex oldFound.symm
        rw [effect.isZone] at noZone
        cases noZone
      have keysDiffer : ofName fqdn ≠ ofName zone :=
        fun same => below (RealKey.ofName_injective same)
      obtain ⟨rest, before, behind⟩ := total_agree_two (factsIn zone) keysDiffer
        fun key notName notZone => unchanged key notZone notName
      have newFound : next.db.content (entryAt fqdn) = effect.new := by
        rw [after, if_neg (entryAt_ne_diffAt _ _ _),
          if_neg fun same => below (entryAt_injective same), if_pos rfl]
      have oldWorth := worth_eq fun entry isOld =>
        existing entry (oldFound.trans isOld)
      have newWorth := worth_eq fun entry isNew =>
        zoneOf_newEntry apexStored effect.isZone effect.named.1
          below apexOnly plainOld (built entry isNew)
      have sameWorth : (plainFacts effect.raised.rrs : Facts) = (plainFacts effect.apex.rrs : Facts) :=
        Multiset.coe_eq_coe.mpr sameFacts
      have apexBefore : (server.db.families .entry)[ofName zone]? = some effect.apex :=
        apexFound
      have apexBehind : (next.db.families .entry)[ofName zone]? = some effect.raised :=
        raisedFound
      have nameBefore : (server.db.families .entry)[ofName fqdn]? = effect.old := oldFound
      have nameBehind : (next.db.families .entry)[ofName fqdn]? = effect.new := newFound
      rw [nameBefore, oldWorth, coe_eq_add oldFacts, apexBefore, worth_zone effect.isZone] at before
      rw [nameBehind, newWorth, coe_eq_add newFacts, apexBehind,
        worth_zone effect.raisedZone, sameWorth] at behind
      exact applyDiff_eq read before behind

end step

section run

variable {config : Config} {zone : Name} {server final : Server} {calls : List Call}

/-- What requests one after the other do to the zone. -/
structure Replays (zone : Name) (server final : Server) (serial count : Nat) : Prop where
  before : zoneSerial server.db.content zone = some serial
  after : zoneSerial final.db.content zone = some (serial + count)
  tidy : Tidy final.db.content
  kept : ∀ version ≤ serial,
    final.db.content (diffAt zone version) = server.db.content (diffAt zone version)
  shape : ∀ version, serial ≤ version → version < serial + count →
    ∃ diff difference, final.db.content (diffAt zone (version + 1)) = some diff ∧
      readDifference diff = some difference ∧ difference.Proper version (version + 1)
  replayed : replayDiffs final.db.content zone serial count (zoneRecords server.db zone) =
    some (zoneRecords final.db zone)

theorem replays_of_changes (ixfr : config.dnsEnableIxfr = true)
    (changes : Changes config zone server calls final) {serial : Nat}
    (tidy : Tidy server.db.content) (hosted : zoneSerial server.db.content zone = some serial) :
    Replays zone server final serial calls.length := by
  induction changes generalizing serial with
  | nil server =>
    refine ⟨hosted, hosted, tidy, fun _ _ => rfl, ?_, rfl⟩
    intro version above below
    exact absurd below (Nat.not_lt.mpr above)
  | cons server next final call calls ofZone performed _ ih =>
    obtain ⟨first, diff, changed⟩ := changed_of_perform ixfr tidy ofZone performed
    cases hosted.symm.trans changed.before
    have later := ih changed.tidy changed.after
    have length : serial + (call :: calls).length = serial + 1 + calls.length := by
      rw [length_cons]
      omega
    have firstStored : final.db.content (diffAt zone (serial + 1)) = some diff := by
      rw [later.kept (serial + 1) (Nat.le_refl _)]
      exact changed.stored
    refine ⟨hosted, by rw [length]; exact later.after, later.tidy, ?_, ?_, ?_⟩
    · intro version below
      have fits := changed.fits
      have differs : diffAt zone version ≠ diffAt zone (serial + 1) := by
        intro same
        have := diffAt_injective (by omega) fits same
        omega
      rw [later.kept version (by omega), changed.others _ differs rfl]
    · intro version above below
      rw [length] at below
      rcases Nat.eq_or_lt_of_le above with rfl | larger
      · obtain ⟨difference, read, proper⟩ := changed.shape
        exact ⟨diff, difference, firstStored, read, proper⟩
      · exact later.shape version larger below
    · rw [length_cons, replayDiffs, firstStored, Option.bind_eq_bind, Option.bind_some,
        changed.applied, Option.bind_eq_bind, Option.bind_some]
      exact later.replayed

/-- The differences behind any earlier serial of a zone are there, one for each serial
since then, and replay what has happened to the zone. -/
theorem differences_replay_history (config : Config) (ixfr : config.dnsEnableIxfr = true)
    (zone : Name) (start middle final : Server) (earlier later : List Call) (serial : Nat)
    (tidy : Tidy start.db.content) (hosted : zoneSerial start.db.content zone = some serial)
    (before : Changes config zone start earlier middle)
    (behind : Changes config zone middle later final) :
    zoneSerial middle.db.content zone = some (serial + earlier.length) ∧
      zoneSerial final.db.content zone = some (serial + earlier.length + later.length) ∧
      (∀ version, serial + earlier.length ≤ version →
        version < serial + earlier.length + later.length →
        ∃ diff difference, final.db.content (diffAt zone (version + 1)) = some diff ∧
          readDifference diff = some difference ∧ difference.Proper version (version + 1)) ∧
      replayDiffs final.db.content zone (serial + earlier.length) later.length
        (zoneRecords middle.db zone) = some (zoneRecords final.db zone) := by
  have past := replays_of_changes ixfr before tidy hosted
  have present := replays_of_changes ixfr behind past.tidy past.after
  exact ⟨past.after, present.after, present.shape, present.replayed⟩

/-- Creating an address in a zone with nothing else. -/
theorem posted_address_replayed :
    ∃ final, Changes sampleConfig [0x7A] serverOfZ [postAddress 0x61] final ∧
      zoneSerial final.db.content [0x7A] = some 2 ∧
      replayDiffs final.db.content [0x7A] 1 1 (zoneRecords serverOfZ.db [0x7A]) =
        some (zoneRecords final.db [0x7A]) := by
  have ofZone : OfZone [0x7A] serverOfZ (postAddress 0x61) :=
    ⟨fun dotted => absurd dotted (by decide), fun _ found =>
      (nomatch postAddress_absent.symm.trans found), fun isSoa => absurd isSoa (by decide)⟩
  have changes := Changes.cons serverOfZ _ _ (postAddress 0x61) [] ofZone
    (Server.perform_of_exec _ _ _ _ postAddress_ran) (.nil _)
  obtain ⟨_, serial, _, replayed⟩ := differences_replay_history sampleConfig rfl [0x7A] serverOfZ
    serverOfZ _ [] [postAddress 0x61] 1 tidy_serverOfZ (by decide +kernel) (.nil _) changes
  exact ⟨_, changes, serial, replayed⟩

/-- Addresses 10.0.0.x. -/
def addressBody (addresses : List UInt8) : JsonBody :=
  ⟨none, addresses.map fun last => ⟨RrType.a, [10, 0, 0, last], nofun⟩⟩

/-- A request to replace the addresses of `a.z`. -/
def putAddresses (addresses : List UInt8) : Call where
  session := ⟨1, fun _ _ => true⟩
  fuel := 3
  request := ⟨[0x61, 0x2E, 0x7A], .put (addressBody addresses)⟩

/-- The builder of the difference, with the entries of `a.z` and the SOAs the second
of two such requests has. -/
def addressDifference (old new : List UInt8) : Run StorageBuilder := do
  let oldEntry ← build sampleConfig [0x61, 0x2E, 0x7A] { zoneLen := 1 } (addressBody old)
  let newEntry ← build sampleConfig [0x61, 0x2E, 0x7A] { zoneLen := 1 } (addressBody new)
  createDiffSequence insertionItems (soaOfZ 2) (soaOfZ 3) (some oldEntry) (some newEntry) diffBuilder

/-- Replacing 64 addresses by 63 others makes a difference of 129 records in a small
buffer. Its index does not fit into one block of the deque, and `finish` reads beyond
the block. -/
theorem large_difference_leaves_index :
    let old := (range 64).map UInt8.ofNat
    let new := (range 63).map fun last => UInt8.ofNat (64 + last)
    (∃ middle, serverOfZ.perform ((putAddresses old).program sampleConfig) = .ok ([0x7A], middle) ∧
      middle.perform ((putAddresses new).program sampleConfig) = .outOfBounds) ∧
    ∃ sb, addressDifference old new = .ok sb ∧ sb.rrs.length = 129 ∧ sb.size < 65536 := by
  intro old new
  have ran : ((putAddresses old).program sampleConfig).exec serverOfZ.db.content =
      .ok ([0x7A], operations ((putAddresses old).program sampleConfig) serverOfZ.db.content) := by
    decide +kernel
  have fails : ((putAddresses new).program sampleConfig).exec (serverOfZ.commit (operations
      ((putAddresses old).program sampleConfig) serverOfZ.db.content)).db.content = .outOfBounds := by
    decide +kernel
  refine ⟨⟨_, Server.perform_of_exec _ _ _ _ ran, ?_⟩, ?_⟩
  · rw [Server.perform, fails]
    rfl
  · have sizes : (addressDifference old new >>= fun sb =>
        .ok (decide (sb.rrs.length = 129 ∧ sb.size < 65536))) = .ok true := by decide +kernel
    rw [Run.bind_eq_ok] at sizes
    obtain ⟨sb, created, small⟩ := sizes
    exact ⟨sb, created, of_decide_eq_true (Run.ok.inj small)⟩

end run

end Nsblast.RestApi
