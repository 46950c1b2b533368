import Nsblast.Rest.Building

/-!
# What a request does

A request that succeeds looks up the entry of its name and, behind it, the entry of
the zone; it then writes the entry of the name, the entry of the zone unless that
was the same, and one difference. `Effect` lists these operations and what is known
about the entries written. It leaves open how the reads are answered, and asks only
that the entries read are as the interface stores them.
-/

namespace Nsblast

open Program (runs_bind runs_done runs_done_bind runs_pure runs_write)
open List Name Replay Op

namespace Stored

variable {name : Name} {entry : Entry}

/-- The SOA of the entry of a zone, however it is looked for. -/
theorem soa_found (stored : Stored name entry) (isZone : entry.hasType RrType.soa = true) :
    ∃ soa others, entry.rrs = soa :: others ∧ soa.type = RrType.soa ∧ entry.first = .ok soa ∧
      entry.getSoa = .ok soa ∧ entry.soa = some soa ∧ soasOf entry.rrs = [soa] := by
  obtain ⟨soa, others, rrs, isSoa⟩ := stored.soaFirst ((entry.hasType_iff _).mp isZone)
  have first : entry.first = .ok soa := by rw [Entry.first, rrs]
  have getSoa : entry.getSoa = .ok soa := by
    rw [Entry.getSoa, isZone, first]
    rfl
  have found : entry.soa = some soa := by rw [Entry.soa, rrs, find_soa_first others isSoa]
  have member : soa ∈ soasOf entry.rrs := by
    rw [mem_soasOf, rrs]
    exact ⟨mem_cons_self, isSoa⟩
  obtain ⟨only, alone⟩ := length_eq_one_iff.mp
    (Nat.le_antisymm stored.ofName.single (length_pos_of_mem member))
  rw [alone, mem_singleton] at member
  exact ⟨soa, others, rrs, isSoa, first, getSoa, found, by rw [alone, member]⟩

theorem soa_owner (stored : Stored name entry) (isZone : entry.hasType RrType.soa = true)
    {soa : StoredRr} (getSoa : entry.getSoa = .ok soa) :
    toLower soa.owner = name ∧ toLower name = name := by
  obtain ⟨first, others, rrs, _, _, gotSoa, _, _⟩ := stored.soa_found isZone
  cases getSoa.symm.trans gotSoa
  have owner : toLower soa.owner = name := stored.owners soa (by rw [rrs]; exact mem_cons_self)
  exact ⟨owner, by rw [← owner, toLower_toLower]⟩

theorem serial_eq (stored : Stored name entry) {soa : StoredRr} (only : soasOf entry.rrs = [soa]) :
    entry.hasType RrType.soa = true ∧ entry.soa = some soa ∧ soa.type = RrType.soa ∧
      entry.serial = soaSerial soa.toBody := by
  have member : soa ∈ soasOf entry.rrs := by
    rw [only]
    exact mem_singleton_self soa
  rw [mem_soasOf] at member
  have isZone : entry.hasType RrType.soa = true := (entry.hasType_iff _).mpr ⟨soa, member⟩
  obtain ⟨other, _, _, _, _, getSoa, found, alone⟩ := stored.soa_found isZone
  rw [alone, List.cons.injEq] at only
  rw [only.1] at found getSoa
  refine ⟨isZone, found, member.2, ?_⟩
  rw [Entry.serial, getSoa, Run.bind_ok]

end Stored

namespace RestApi

/-- Reads of a lookup that has to go on: none has shown a zone. -/
def Passing (ops : List (Op Address Entry)) : Prop :=
  ∀ op ∈ ops, ∃ name answer, op = .read (entryAt name) answer ∧
    ∀ entry ∈ answer, entry.hasType RrType.soa = false

variable {ops : List (Op Address Entry)} {value : Unit}

theorem Passing.reading (passing : Passing ops) :
    Op.Reading ops := by
  intro op member
  obtain ⟨name, answer, same, _⟩ := passing op member
  exact ⟨entryAt name, answer, same⟩

theorem Passing.cons (passing : Passing ops) (name : Name) (answer : Option Entry)
    (plain : ∀ entry ∈ answer, entry.hasType RrType.soa = false) :
    Passing (.read (entryAt name) answer :: ops) := by
  intro op member
  rcases mem_cons.mp member with rfl | later
  · exact ⟨name, answer, rfl, plain⟩
  · exact passing op later

section lookup

theorem behindDot_suffix (key : Name) : behindDot key <:+ key :=
  (List.drop_suffix 1 _).trans (List.dropWhile_suffix _)

/-- The zone of a name: the first entry with a SOA on the way that
`lookupEntryAndSoa` takes. -/
def apexFrom (content : Address → Option Entry) : Nat → Name → Option Name
  | 0, _ => none
  | fuel + 1, key =>
      if key = [] then none
      else match content (entryAt key) with
        | some entry =>
            if entry.hasType RrType.soa then some key
            else if 0 < entry.zoneLen ∧ entry.zoneLen ≤ key.length then
              apexFrom content fuel (key.drop (key.length - entry.zoneLen))
            else none
        | none => if 0x2E ∈ key then apexFrom content fuel (behindDot key) else none

variable {fuel : Nat} {rr : Option Entry} {key : Name} {ops : List (Op Address Entry)}
    {found : RrAndSoa}

/-- One turn of the loop: it ends without a zone, or at the entry it reads, or it goes on with a
shorter name. -/
theorem lookupFrom_turn {first : Bool}
    (runs : (lookupFrom (fuel + 1) first rr key).Runs ops found) :
    found = ⟨none, none⟩ ∨ key ≠ [] ∧ ∃ answer rest, ops = .read (entryAt key) answer :: rest ∧
      ((∃ apex, answer = some apex ∧ apex.hasType RrType.soa = true ∧ rest = [] ∧
          found = if first then ⟨some apex, none⟩ else ⟨rr, some apex⟩) ∨
        ((∀ entry ∈ answer, entry.hasType RrType.soa = false) ∧ ∃ shorter, shorter <:+ key ∧
          (∀ content, content (entryAt key) = answer →
            apexFrom content (fuel + 1) key = apexFrom content fuel shorter) ∧
          (lookupFrom fuel false (if first then answer.or rr else rr) shorter).Runs rest found)) := by
  rw [lookupFrom] at runs
  split at runs
  · exact .inl (Run.ok.inj ((runs_done _ _ _).mp runs).1).symm
  · rename_i named
    cases runs with
    | get _ _ answer rest _ runs =>
      cases answer with
      | none =>
        dsimp only at runs
        split at runs
        · rename_i dotted
          refine .inr ⟨named, none, rest, rfl, .inr
            ⟨nofun, _, behindDot_suffix key, ?_, by simpa using runs⟩⟩
          intro content absent
          simp [apexFrom, named, absent, dotted]
        · exact .inl (Run.ok.inj ((runs_done _ _ _).mp runs).1).symm
      | some entry =>
        dsimp only at runs
        refine .inr ⟨named, some entry, rest, rfl, ?_⟩
        split at runs
        · rename_i isZone
          obtain ⟨same, rfl⟩ := (runs_done _ _ _).mp runs
          exact .inl ⟨entry, rfl, isZone, rfl, (Run.ok.inj same).symm⟩
        · rename_i plain
          split at runs
          · rename_i measured
            refine .inr ⟨by simpa using plain, _, List.drop_suffix _ key, ?_, by simpa using runs⟩
            intro content present
            simp [apexFrom, named, present, plain, measured]
          · cases ((runs_done _ _ _).mp runs).1

/-- The loop, after its first turn: it ends without a zone, or with the entry it has
read last. -/
theorem lookupFrom_runs (runs : (lookupFrom fuel false rr key).Runs ops found) :
    found = ⟨none, none⟩ ∨
      ∃ zone apex before, found = ⟨rr, some apex⟩ ∧
        ops = before ++ [.read (entryAt zone) (some apex)] ∧ Passing before ∧
        apex.hasType RrType.soa = true ∧ zone <:+ key ∧ zone ≠ [] := by
  induction fuel generalizing key ops with
  | zero => cases ((runs_done _ _ _).mp runs).1
  | succ fuel ih =>
    rcases lookupFrom_turn runs with none | ⟨named, answer, rest, rfl, turn⟩
    · exact .inl none
    rcases turn with ⟨entry, rfl, isZone, rfl, rfl⟩ | ⟨plain, shorter, within, _, runs⟩
    · exact .inr ⟨key, entry, [], rfl, rfl, nofun, isZone, suffix_rfl, named⟩
    · rcases ih runs with none | ⟨zone, apex, before, same, rfl, passing, isZone, suffix, named⟩
      · exact .inl none
      · exact .inr ⟨zone, apex, .read (entryAt key) answer :: before, same, rfl,
          passing.cons key answer plain, isZone, suffix.trans within, named⟩

/-- What `lookupEntryAndSoa` has found: the entry of the name is that of the zone, or
it is what the first read has shown, and no zone. -/
theorem lookupEntryAndSoa_runs {fqdn : Name} {existing : RrAndSoa} {apex : Entry}
    (runs : (lookupEntryAndSoa fuel fqdn).Runs ops existing) (hosted : existing.soa = some apex) :
    ∃ zone before, ops = before ++ [.read (entryAt zone) (some apex)] ∧ Passing before ∧
      apex.hasType RrType.soa = true ∧ zone <:+ fqdn ∧ zone ≠ [] ∧
      ((existing.isSame = true ∧ existing.rr = some apex ∧ zone = fqdn ∧ before = []) ∨
        (existing.isSame = false ∧ (∀ old ∈ existing.rr, old.hasType RrType.soa = false) ∧
          ∃ rest, before = .read (entryAt fqdn) existing.rr :: rest)) := by
  rw [lookupEntryAndSoa] at runs
  cases fuel with
  | zero => cases ((runs_done _ _ _).mp runs).1
  | succ fuel =>
    rcases lookupFrom_turn runs with rfl | ⟨named, answer, rest, rfl, turn⟩
    · cases hosted
    rcases turn with ⟨entry, rfl, isZone, rfl, rfl⟩ | ⟨plain, shorter, within, _, runs⟩
    · cases hosted
      exact ⟨fqdn, [], rfl, nofun, isZone, suffix_rfl, named, .inl ⟨rfl, rfl, rfl, rfl⟩⟩
    · rw [if_pos rfl, Option.or_none] at runs
      rcases lookupFrom_runs runs with rfl | ⟨zone, found, before,
        rfl, rfl, passing, isZone, suffix, named⟩
      · cases hosted
      · cases hosted
        exact ⟨zone, .read (entryAt fqdn) answer :: before, rfl, passing.cons fqdn answer plain,
          isZone, suffix.trans within, named, .inr ⟨rfl, plain, before, rfl⟩⟩

end lookup

/-- The check of SRV targets only reads. -/
theorem checkSrv_reading {config : Config} {received : Option Entry}
    (runs : (checkSrv config received).Runs ops value) : Op.Reading ops := by
  have targets (names : List Name) (ops : List (Op Address Entry)) (value : Unit)
      (runs : (checkTargets names).Runs ops value) : Op.Reading ops := by
    induction names generalizing ops with
    | nil =>
      rw [((runs_done _ _ _).mp runs).2]
      exact nofun
    | cons target rest ih =>
      cases runs with
      | get _ _ answer tail _ runs =>
        dsimp only at runs
        split at runs
        · intro op member
          rcases mem_cons.mp member with rfl | later
          · exact ⟨_, _, rfl⟩
          · exact ih tail runs op later
        · cases ((runs_done _ _ _).mp runs).1
  have nothing (ops : List (Op Address Entry))
      (runs : (Program.done (.ok ()) : Trx Unit).Runs ops value) : Op.Reading ops := by
    rw [((runs_done _ _ _).mp runs).2]
    exact nofun
  cases received with
  | none => exact nothing ops runs
  | some entry =>
    rw [checkSrv] at runs
    split at runs
    · rw [runs_done_bind] at runs
      obtain ⟨names, _, runs⟩ := runs
      exact targets names.toList ops value runs
    · exact nothing ops runs

/-- The entry of the name is written last, after at most one read. -/
theorem store_runs {fqdn : Name} {change : Change} (runs : (store fqdn change).Runs ops value) :
    ∃ reads, Op.Reading reads ∧ ops = reads ++ [.write (entryAt fqdn) change.data] := by
  rw [store] at runs
  split at runs
  · cases runs with
    | get _ _ answer tail _ runs =>
      cases answer with
      | some entry => cases ((runs_done _ _ _).mp runs).1
      | none =>
        rw [runs_write] at runs
        subst runs
        exact ⟨[.read (entryAt fqdn) none], reading_single _ _, rfl⟩
  · rw [runs_write] at runs
    subst runs
    exact ⟨[], nofun, rfl⟩

/-- Where the entry of the name stands: it is that of the zone, or below it, and then the entry
of the zone is written behind it. -/
def Placed (request : Method JsonBody) (fqdn zone : Name) (lookups raising : List (Op Address Entry))
    (apex raised : Entry) (old new : Option Entry) : Prop :=
  (lookups = [] ∧ fqdn = zone ∧ old = some apex ∧ new = some raised ∧ raising = []) ∨
    ((∃ rest, lookups = .read (entryAt fqdn) old :: rest) ∧
      (∀ entry ∈ old, entry.hasType RrType.soa = false) ∧
      raising = [.write (entryAt zone) (some raised)] ∧
      (∀ entry ∈ new, NewEntry fqdn apex request old entry) ∧
      (plainFacts raised.rrs).Perm (plainFacts apex.rrs))

/-- What a successful request has read and written: the entry of the zone behind its
lookups, the new entry of the name, the entry of the zone with the next serial, and
the difference of the old and the new entry of the name. -/
structure Effect (request : Method JsonBody) (fqdn zone : Name)
    (ops : List (Op Address Entry)) where
  lookups : List (Op Address Entry)
  apex : Entry
  reads : List (Op Address Entry)
  old : Option Entry
  new : Option Entry
  raised : Entry
  raising : List (Op Address Entry)
  serial : Nat
  previous : Option Entry
  diff : Entry
  difference : Difference
  looking : Passing lookups
  reading : Op.Reading reads
  steps : ops = lookups ++ .read (entryAt zone) (some apex) ::
    (reads ++ .write (entryAt fqdn) new :: (raising ++ [.read (diffAt zone (serial + 1)) previous,
        .write (diffAt zone (serial + 1)) (some diff)]))
  isZone : apex.hasType RrType.soa = true
  named : zone <:+ fqdn ∧ zone ≠ []
  oldSerial : apex.serial = .ok serial
  newSerial : raised.serial = .ok (serial + 1)
  fits : serial + 1 < 4294967296
  newStored : ∀ entry ∈ new, Stored fqdn entry
  raisedStored : Stored zone raised
  raisedZone : raised.hasType RrType.soa = true
  diffRrs : diff.rrs = difference.rrs
  proper : difference.Proper serial (serial + 1)
  kept : ∃ kept, (plainFacts (recordsOf old)).Perm (difference.deleted.map StoredRr.fact ++ kept) ∧
    (plainFacts (recordsOf new)).Perm (difference.added.map StoredRr.fact ++ kept)
  place : Placed request fqdn zone lookups raising apex raised old new

/-- The serial behind a serial, when it is larger. -/
theorem nextSerial_of_lt {serial : Nat} (larger : serial < nextSerial serial) :
    nextSerial serial = serial + 1 ∧ serial + 1 < 4294967296 := by
  rw [nextSerial] at larger ⊢
  omega

/-- The entries that were read before anything was written are as the interface
stores them. -/
def ReadsStored (ops : List (Op Address Entry)) : Prop :=
  ∀ reads rest, ops = reads ++ rest → Op.Reading reads → ∀ name entry,
    .read (entryAt name) (some entry) ∈ reads → name.getLast? ≠ some 0x2E → Stored name entry

section effect

variable (config : Config) (session : Session) {fuel : Nat} (request : RrRequest)

variable {config} {session} {request}

/-- What a request has computed and done behind its lookups. -/
structure Turn (config : Config) (session : Session) (request : RrRequest) (existing : RrAndSoa)
    (ops : List (Op Address Entry)) where
  apex : Entry
  sb : StorageBuilder
  method : Method Entry
  soa : StoredRr
  change : Change
  newSoa : Option StoredRr
  reads : List (Op Address Entry)
  raising : List (Op Address Entry)
  logging : List (Op Address Entry)
  hosted : existing.soa = some apex
  authorized : existing.isSame = true → request.method.createsOrDeletes = false
  sbNew : newBuilder existing apex = .ok sb
  received : request.method.mapM (build config request.target sb) = .ok method
  getSoa : apex.getSoa = .ok soa
  changed : changeOf config session (toLower request.target) existing apex method = .ok change
  reading : Op.Reading reads
  raiseRuns : (raise config (toLower soa.owner) apex change).Runs raising newSoa
  logRuns : (logChange config (toLower soa.owner) soa newSoa existing.rr change.data).Runs logging ()
  steps : ops = reads ++ .write (entryAt (toLower request.target)) change.data ::
    (raising ++ logging)

theorem behind_lookups {ρ : Type} (result : Name → StorageBuilder → Method Entry → Change → ρ)
    (existing : RrAndSoa) (ops : List (Op Address Entry)) (value : ρ)
    (runs : (behindLookups config session request result existing).Runs ops value) :
    ∃ turn : Turn config session request existing ops,
      value = result (toLower turn.soa.owner) turn.sb turn.method turn.change := by
  rw [behindLookups, runs_done_bind] at runs
  obtain ⟨apex, authorized, runs⟩ := runs
  rw [runs_done_bind] at runs
  obtain ⟨sb, sbNew, runs⟩ := runs
  rw [runs_done_bind] at runs
  obtain ⟨method, received, runs⟩ := runs
  rw [runs_bind] at runs
  obtain ⟨checked, runs₁, _, rfl, checkRuns, runs⟩ := runs
  rw [runs_done_bind] at runs
  obtain ⟨oldSoa, getSoa, runs⟩ := runs
  rw [runs_done_bind] at runs
  obtain ⟨change, changed, runs⟩ := runs
  rw [runs_bind] at runs
  obtain ⟨stored, runs₂, _, rfl, storeRuns, runs⟩ := runs
  rw [runs_bind] at runs
  obtain ⟨raising, runs₃, newSoa, rfl, raiseRuns, runs⟩ := runs
  rw [runs_bind] at runs
  obtain ⟨logging, last, _, rfl, logRuns, returned⟩ := runs
  rw [runs_pure] at returned
  obtain ⟨rfl, rfl⟩ := returned
  obtain ⟨reads, reading, rfl⟩ := store_runs storeRuns
  have hosted : existing.soa = some apex ∧
      (existing.isSame = true → request.method.createsOrDeletes = false) := by
    rw [authorize] at authorized
    split at authorized
    · cases authorized
    · rename_i zone found
      split at authorized
      · cases authorized
      · split at authorized
        · cases authorized
        · split at authorized
          · cases authorized
          · rename_i accepted
            cases authorized
            refine ⟨found, ?_⟩
            intro same
            rw [same, Bool.true_and] at accepted
            exact Bool.eq_false_iff.mpr accepted
  refine ⟨⟨apex, sb, method, oldSoa, change, newSoa, checked ++ reads, raising, logging, hosted.1,
    hosted.2, sbNew, received, getSoa, changed, (checkSrv_reading checkRuns).append reading,
    raiseRuns, logRuns, ?_⟩, rfl⟩
  rw [append_nil, append_assoc, append_assoc, singleton_append]

variable {existing : RrAndSoa} {rest : List (Op Address Entry)}

/-- What the difference says, once the new entries are known. -/
theorem Turn.effect (turn : Turn config session request existing rest) {zone : Name}
    {lookups : List (Op Address Entry)} (looking : Passing lookups)
    (isZone : turn.apex.hasType RrType.soa = true) (suffix : zone <:+ toLower request.target)
    (filled : zone ≠ []) (apexStored : Stored zone turn.apex) {raised : Entry} {newSoa : StoredRr}
    (isRaised : Raised zone turn.apex raised) (found : raised.soa = some newSoa)
    (oldStored : ∀ entry ∈ existing.rr, Stored (toLower request.target) entry)
    (newStored : ∀ entry ∈ turn.change.data, Stored (toLower request.target) entry)
    (logRuns : (addDiff config.items config.index zone turn.soa newSoa existing.rr
      turn.change.data).Runs turn.logging ())
    (place : Placed request.method (toLower request.target) zone lookups turn.raising turn.apex
      raised existing.rr turn.change.data) :
    Nonempty (Effect request.method (toLower request.target) zone
      (lookups ++ [.read (entryAt zone) (some turn.apex)] ++ rest)) := by
  obtain ⟨soa, others, rrs, isSoa, _, gotSoa, _, _⟩ := apexStored.soa_found isZone
  cases turn.getSoa.symm.trans gotSoa
  obtain ⟨raisedSoa, serial, only, apexSerial, read⟩ := isRaised.serial
  obtain ⟨raisedZone, sameSoa, raisedType, raisedSerial⟩ := isRaised.stored.serial_eq only
  cases found.symm.trans sameSoa
  have soaPlain : turn.soa.owner.getLast? ≠ some 0x2E :=
    writeName_plain (apexStored.writable turn.soa (by rw [rrs]; exact mem_cons_self))
  have newPlain : newSoa.owner.getLast? ≠ some 0x2E := by
    have member : newSoa ∈ soasOf raised.rrs := by
      rw [only]
      exact mem_singleton_self newSoa
    exact writeName_plain (isRaised.stored.writable newSoa ((mem_soasOf _ _).mp member).1)
  obtain ⟨oldSerial, newSerial, previous, diff, difference, readOld, readNew, larger, isLogging,
    diffRrs, proper, kept⟩ := addDiff_runs logRuns isSoa
      raisedType soaPlain newPlain oldStored newStored
  have oldRead : turn.apex.serial = soaSerial turn.soa.toBody := by
    rw [Entry.serial, gotSoa, Run.bind_ok]
  rw [oldRead, readOld] at apexSerial
  cases apexSerial
  rw [readNew] at read
  cases read
  obtain ⟨next, fits⟩ := nextSerial_of_lt larger
  rw [next] at proper readNew isLogging
  refine ⟨{
    lookups, apex := turn.apex, reads := turn.reads, old := existing.rr, new := turn.change.data,
    raised, raising := turn.raising, serial, previous, diff, difference, looking
    reading := turn.reading
    steps := ?_
    isZone, named := ⟨suffix, filled⟩
    oldSerial := oldRead.trans readOld
    newSerial := raisedSerial.trans readNew
    fits, newStored, raisedStored := isRaised.stored, raisedZone, diffRrs, proper, kept, place }⟩
  rw [append_assoc, singleton_append, ← isLogging]
  exact congrArg (lookups ++ _ :: ·) turn.steps

/-- Every successful request has an effect. -/
theorem onResourceRecord_effect {ops : List (Op Address Entry)} {zoneName : Name}
    (runs : (onResourceRecord config session fuel request).Runs ops zoneName)
    (ixfr : config.dnsEnableIxfr = true) (plain : request.target.getLast? ≠ some 0x2E)
    (stored : ReadsStored ops) :
    Nonempty (Effect request.method (toLower request.target) zoneName ops) := by
  rw [onResourceRecord, runs_bind] at runs
  obtain ⟨looked, rest, existing, rfl, lookupRuns, runs⟩ := runs
  obtain ⟨turn, rfl⟩ := behind_lookups _ existing rest zoneName runs
  obtain ⟨zone, lookups, rfl, looking, isZone, suffix, filled, place⟩ :=
    lookupEntryAndSoa_runs lookupRuns turn.hosted
  have plainFqdn := toLower_plain plain
  have plainZone := suffix_plain suffix filled plainFqdn
  have readStored := stored (lookups ++ [.read (entryAt zone) (some turn.apex)]) _ rfl
    (looking.reading.append (reading_single _ _))
  have apexStored : Stored zone turn.apex := by
    apply readStored zone turn.apex _ plainZone
    simp
  obtain ⟨zoneName, lower⟩ := apexStored.soa_owner isZone turn.getSoa
  have raiseRuns := turn.raiseRuns
  have logRuns := turn.logRuns
  rw [zoneName] at raiseRuns logRuns ⊢
  rw [logChange.eq_def, ixfr, if_pos rfl] at logRuns
  rcases place with ⟨same, found, sameName, rfl⟩ | ⟨below, plainOld, rest, rfl⟩
  · obtain ⟨notNeeded, known⟩ := changeOf_same turn.sbNew turn.received plain rfl same
      (by rw [mapM_createsOrDeletes turn.received]; exact turn.authorized same) turn.changed
    rw [raise, notNeeded, if_neg Bool.false_ne_true, runs_pure] at raiseRuns
    obtain ⟨isNew, noRaising⟩ := raiseRuns
    cases newFound : turn.newSoa with
    | none =>
      rw [newFound] at logRuns
      cases ((runs_done _ _ _).mp logRuns).1
    | some newSoa =>
      rw [newFound] at logRuns isNew
      obtain ⟨entry, raised, entryStored, incremented, data, raisedSoa⟩ := known newSoa isNew
      rw [sameName] at apexStored
      have isRaised := raised_put entryStored apexStored incremented
      refine turn.effect looking isZone suffix filled (sameName ▸ apexStored) (sameName ▸ isRaised)
        raisedSoa ?_ ?_ logRuns (.inl ⟨rfl, sameName.symm, found, data, noRaising⟩)
      · intro other isOld
        rw [found] at isOld
        cases isOld
        exact apexStored
      · intro other isData
        rw [data] at isData
        cases isData
        exact isRaised.stored
  · have oldStored : ∀ old ∈ existing.rr, Stored (toLower request.target) old := by
      intro old isOld
      apply readStored _ old _ plainFqdn
      rw [isOld]
      simp
    obtain ⟨needed, newEntries⟩ := changeOf_below turn.sbNew turn.received plain
      plainFqdn rfl below oldStored turn.changed
    rw [raise, needed, if_pos rfl, runs_done_bind] at raiseRuns
    obtain ⟨raised, returned, raiseRuns⟩ := raiseRuns
    rw [runs_bind] at raiseRuns
    obtain ⟨written, last, _, isRaising, writeRuns, returnRuns⟩ := raiseRuns
    rw [runs_write] at writeRuns
    rw [runs_pure] at returnRuns
    obtain ⟨isNew, rfl⟩ := returnRuns
    subst writeRuns
    obtain ⟨isRaised, sameFacts⟩ := raisedZone_eq_ok plainZone lower apexStored returned
    cases newFound : turn.newSoa with
    | none =>
      rw [newFound] at logRuns
      cases ((runs_done _ _ _).mp logRuns).1
    | some newSoa =>
      rw [newFound] at logRuns isNew
      exact turn.effect looking isZone suffix filled apexStored isRaised isNew oldStored
        (fun entry isData => (newEntries entry isData).stored) logRuns
        (.inr ⟨⟨rest, rfl⟩, plainOld, isRaising, newEntries, sameFacts⟩)

end effect

section content

theorem entryAt_injective {first second : Name} (same : entryAt first = entryAt second) :
    first = second :=
  RealKey.ofName_injective (congrArg Prod.snd same)

theorem entryAt_ne_diffAt (name zone : Name) (serial : Nat) : entryAt name ≠ diffAt zone serial :=
  fun same => Category.noConfusion (congrArg Prod.fst same)

theorem diffAt_injective {zone : Name} {first second : Nat} (firstFits : first < 4294967296)
    (secondFits : second < 4294967296) (same : diffAt zone first = diffAt zone second) :
    first = second := by
  have keys := congrArg Prod.snd same
  simp only [diffAt, RealKey.init, cons_append, List.cons.injEq, append_cancel_left_eq,
    true_and] at keys
  exact bigEndian_injective firstFits secondFits keys

/-- Every entry is as the interface stores it. An entry whose key ends in a dot can
only be reached by a name with a final dot. -/
def Tidy (content : Address → Option Entry) : Prop :=
  ∀ name entry, content (entryAt name) = some entry → name.getLast? ≠ some 0x2E →
    Stored name entry

variable {content : Address → Option Entry}

/-- A request that runs alone reads what is stored. -/
theorem readsStored_of_answered {ops : List (Op Address Entry)} (tidy : Tidy content)
    (answered : Op.Answered content ops) : ReadsStored ops := by
  rintro reads rest rfl reading name entry member plain
  rw [answered_append] at answered
  exact tidy name entry (answered.1.reading reading _ _ member) plain

namespace Effect

variable {request : Method JsonBody} {fqdn zone : Name} {ops : List (Op Address Entry)}
  (effect : Effect request fqdn zone ops)

/-- Before its first write a request that runs alone sees the zone as it is stored. -/
theorem apex_of_answered
    (answered : Op.Answered content ops) : content (entryAt zone) = some effect.apex := by
  have steps := effect.steps
  rw [append_cons] at steps
  rw [steps, answered_append] at answered
  apply answered.1.reading (effect.looking.reading.append (reading_single _ _))
  simp

/-- It also sees the entry of its name. -/
theorem old_of_answered
    (answered : Op.Answered content ops) : content (entryAt fqdn) = effect.old := by
  rcases effect.place with ⟨_, sameName, old, _⟩ | ⟨⟨rest, lookups⟩, _⟩
  · have sameAt : entryAt fqdn = entryAt zone := congrArg entryAt sameName
    rw [old, sameAt]
    exact effect.apex_of_answered answered
  · have steps := effect.steps
    rw [steps, answered_append] at answered
    apply answered.1.reading effect.looking.reading
    rw [lookups]
    exact mem_cons_self

/-- The content behind a request. -/
theorem after (content : Address → Option Entry) (key : Address) :
    Replay.apply content (writes ops) key =
      if key = diffAt zone (effect.serial + 1) then some effect.diff
      else if key = entryAt zone then some effect.raised
      else if key = entryAt fqdn then effect.new
      else content key := by
  have written : writes ops = (entryAt fqdn, effect.new) :: (writes effect.raising ++
      [(diffAt zone (effect.serial + 1), some effect.diff)]) := by
    refine (congrArg writes effect.steps).trans ?_
    rw [writes_append, effect.looking.reading.writes, writes_read, writes_append,
      effect.reading.writes, writes_write, writes_append]
    rfl
  rw [written, apply_cons, apply_append, apply_cons, apply_nil, Function.update_apply]
  split
  · rfl
  · rcases effect.place with ⟨_, sameName, _, new, raising⟩ | ⟨_, _, raising, _⟩
    · have sameAt : entryAt fqdn = entryAt zone := congrArg entryAt sameName
      rw [raising, writes_nil, apply_nil, Function.update_apply, ← sameAt, new]
      by_cases here : key = entryAt fqdn
      · rw [if_pos here, if_pos here]
      · rw [if_neg here, if_neg here]
    · rw [raising, writes_write, writes_nil, apply_cons, apply_nil,
        Function.update_apply, Function.update_apply]

theorem after_zone (content : Address → Option Entry) :
    Replay.apply content (writes ops) (entryAt zone) = some effect.raised := by
  rw [effect.after, if_neg (entryAt_ne_diffAt _ _ _), if_pos rfl]

theorem after_diff (content : Address → Option Entry) :
    Replay.apply content (writes ops) (diffAt zone (effect.serial + 1)) = some effect.diff := by
  rw [effect.after, if_pos rfl]

theorem wrote_diff : .write (diffAt zone (effect.serial + 1)) (some effect.diff) ∈ ops := by
  have same := congrArg
    (write (diffAt zone (effect.serial + 1)) (some effect.diff) ∈ ·) effect.steps
  exact same.mpr (by simp)

include effect in
/-- A request leaves the store as the interface stores it. -/
theorem tidy (content : Address → Option Entry) (before : Tidy content) :
    Tidy (Replay.apply content (writes ops)) := by
  intro name entry found plain
  rw [effect.after, if_neg (entryAt_ne_diffAt _ _ _)] at found
  split at found
  · rename_i same
    cases found
    rw [entryAt_injective same]
    exact effect.raisedStored
  · split at found
    · rename_i same
      rw [entryAt_injective same]
      exact effect.newStored entry found
    · exact before name entry found plain

end Effect

/-- The serial of a zone in a store. -/
def zoneSerial (content : Address → Option Entry) (zone : Name) : Option Nat :=
  match content (entryAt zone) with
  | none => none
  | some entry =>
      match entry.serial with
      | .ok serial => some serial
      | _ => none

theorem zoneSerial_eq {content : Address → Option Entry} {zone : Name} {entry : Entry}
    {serial : Nat} (found : content (entryAt zone) = some entry)
    (read : entry.serial = .ok serial) : zoneSerial content zone = some serial := by
  rw [zoneSerial, found]
  dsimp only
  rw [read]

end content

end RestApi

end Nsblast
