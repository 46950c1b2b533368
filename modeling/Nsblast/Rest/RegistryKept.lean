import Nsblast.Rest.Registry

/-!
# Which requests keep the registry

The requests do not keep the registry of zones. The index of names is written under the
first bytes of a name instead of its zone, a zone that is deleted stays in it, and the
tenant of the entry and of the index may differ. `KeepsRegistry` says which requests do:
zones are created by the tenant they are for and never deleted, a SOA is stored in zones
only, and the zone of a name is also what the name begins with.
-/

namespace Nsblast.RestApi

open AuthMgr Name Std.ExtTreeMap

section kept

variable {parseUuid : Bytes → Run Uuid} {db next : Db Value}

/-- The registry agrees with the entries, and the entries with each other. -/
structure InOrder (parseUuid : Bytes → Run Uuid) (db : Db Value) : Prop where
  registered : Registered parseUuid db
  housed : Housed db

theorem zoneOf_soa (name : Name) {entry : Entry} (soa : entry.hasType RrType.soa = true) :
    zoneOf name entry = name := if_pos soa

theorem zoneOf_suffix (name : Name) (entry : Entry) : zoneOf name entry <:+ name := by
  rw [zoneOf]
  split
  · exact List.suffix_refl name
  · exact List.drop_suffix _ name

end kept

variable {found : Entry}

section creating

variable {env : ZoneEnv} {db next : Db Value} {session : Login} {target : Name} {body : ZoneBody}
  {id : Bytes} {entry : Entry}

/-- A body with a SOA makes an entry with a SOA. -/
theorem build_hasType_soa {config : Config} {target : Name} {sb : StorageBuilder} {body : JsonBody}
    {entry : Entry} (empty : sb.rrs = []) (one : sb.oneSoa = true)
    (soa : RrType.soa ∈ body.rrs.map (·.type)) (built : build config target sb body = .ok entry) :
    entry.hasType RrType.soa = true := by
  obtain ⟨facts, _⟩ := build_facts empty one built
  obtain ⟨rr, isRr, isSoa⟩ := List.mem_map.mp soa
  have inBody := List.mem_map_of_mem (f := fun rr : NewRr =>
    (toLower (StorageBuilder.withoutDot target),
      (⟨rr.type, classIn, sanitizeTtl (body.ttl.getD config.defaultTtl), rr.rdata⟩ : Body))) isRr
  obtain ⟨own, isOwn, same⟩ := List.mem_map.mp (facts.mem_iff.mpr inBody)
  refine (entry.hasType_iff _).mpr ⟨own, isOwn, ?_⟩
  have types := congrArg (fun fact => fact.2.type) same
  exact types.trans isSoa

namespace Creating

variable (creating : Creating env db next session target body id entry)
include creating

theorem hasSoa : entry.hasType RrType.soa = true :=
  build_hasType_soa rfl rfl creating.soa creating.built

theorem was_none {name : Name} (isFound : entryOf db name = some found) :
    name ≠ toLower target := by
  rintro rfl
  cases creating.fresh.symm.trans isFound

theorem isZone_iff (name : Name) (found : Entry) : IsZone next name found ↔
      (name = toLower target ∧ found = entry) ∨ IsZone db name found := by
  rw [IsZone, creating.entries]
  by_cases same : name = toLower target
  · have wasNone : ¬ IsZone db name found := fun isZone => creating.was_none isZone.1 same
    simp only [same, if_true, Option.some.injEq, true_and] at wasNone ⊢
    simp only [wasNone, or_false]
    exact ⟨fun both => both.1.symm, fun isEntry => ⟨isEntry.symm, isEntry ▸ creating.hasSoa⟩⟩
  · simp [same, IsZone]

/-- The keys of the zones, behind the creation of one. -/
theorem account_zoneKey {key : Key} (ofClass : OfClass .zone key) : account next key =
      if key = zoneKey (toLower target) then some (.zone ⟨id, session.tenant⟩)
      else account db key := by
  have notIndex : key ≠ zrrKey (toLower target) (toLower target) :=
    ne_of_class ((ofClass_zrrKey _ _ _).mpr rfl) ofClass (by decide)
  have notTenant : key ≠ tzoneKey session.tenant (toLower target) :=
    ne_of_class ((ofClass_tzoneKey _ _ _).mpr rfl) ofClass (by decide)
  rw [creating.accounts, if_neg notIndex, if_neg notTenant]

theorem zone_created :
    account next (zoneKey (toLower target)) = some (.zone ⟨id, session.tenant⟩) := by
  rw [creating.account_zoneKey (by simp), if_pos rfl]

theorem zone_else {name : Name} (isFound : entryOf db name = some found) :
    account next (zoneKey name) = account db (zoneKey name) := by
  have differs := creating.was_none isFound
  rw [creating.account_zoneKey (by simp), if_neg fun same => differs (zoneKey_injective same)]

/-- Creating a zone keeps the registry. -/
theorem registered (before : Registered env.parseUuid db)
    (own : env.parseUuid session.tenant = .ok session.tenantId) :
    Registered env.parseUuid next where
  zones := by
    intro key ofClass
    rw [creating.account_zoneKey ofClass]
    split
    · rename_i same
      exact ⟨fun _ => ⟨_, entry, (creating.isZone_iff _ _).mpr (Or.inl ⟨rfl, rfl⟩), same⟩, fun _ => rfl⟩
    · rename_i differs
      rw [before.zones key ofClass]
      constructor
      · rintro ⟨name, found, isFound, same⟩
        exact ⟨name, found, (creating.isZone_iff _ _).mpr (Or.inr isFound), same⟩
      · rintro ⟨name, found, isFound, same⟩
        rcases (creating.isZone_iff _ _).mp isFound with ⟨rfl, _⟩ | isFound
        · exact absurd same differs
        · exact ⟨name, found, isFound, same⟩
  owners := by
    intro name found isFound
    rcases (creating.isZone_iff _ _).mp isFound with ⟨rfl, rfl⟩ | isFound
    · have isTenant := build_tenantId rfl rfl creating.built
      exact ⟨session.tenantId, _, isTenant, creating.zone_created, own⟩
    · obtain ⟨tenantId, zone, isId, isZone, parsed⟩ := before.owners name found isFound
      exact ⟨tenantId, zone, isId, (creating.zone_else isFound.1).trans isZone, parsed⟩
  tenants := by
    intro key ofClass
    have notIndex : key ≠ zrrKey (toLower target) (toLower target) :=
      ne_of_class ((ofClass_zrrKey _ _ _).mpr rfl) ofClass (by decide)
    have notZone : key ≠ zoneKey (toLower target) :=
      ne_of_class ((ofClass_zoneKey _ _).mpr rfl) ofClass (by decide)
    rw [creating.accounts, if_neg notIndex, if_neg notZone]
    split
    · rename_i same
      exact ⟨fun _ => ⟨_, entry, _, (creating.isZone_iff _ _).mpr (Or.inl ⟨rfl, rfl⟩),
        creating.zone_created, same⟩, fun _ => rfl⟩
    · rename_i differs
      rw [before.tenants key ofClass]
      constructor
      · rintro ⟨name, found, zone, isFound, isZone, same⟩
        exact ⟨name, found, zone, (creating.isZone_iff _ _).mpr (Or.inr isFound),
          (creating.zone_else isFound.1).trans isZone, same⟩
      · rintro ⟨name, found, zone, isFound, isZone, same⟩
        rcases (creating.isZone_iff _ _).mp isFound with ⟨rfl, _⟩ | isFound
        · cases creating.zone_created.symm.trans isZone
          exact absurd same differs
        · exact ⟨name, found, zone, isFound, (creating.zone_else isFound.1).symm.trans isZone, same⟩
  names := by
    intro key ofClass
    have notTenant : key ≠ tzoneKey session.tenant (toLower target) :=
      ne_of_class ((ofClass_tzoneKey _ _ _).mpr rfl) ofClass (by decide)
    have notZone : key ≠ zoneKey (toLower target) :=
      ne_of_class ((ofClass_zoneKey _ _).mpr rfl) ofClass (by decide)
    rw [creating.accounts, if_neg notTenant, if_neg notZone]
    split
    · rename_i same
      refine ⟨fun _ => ⟨toLower target, entry, by simp [creating.entries], ?_⟩, fun _ => rfl⟩
      rw [zoneOf_soa _ creating.hasSoa]
      exact same
    · rename_i differs
      rw [before.names key ofClass]
      constructor
      · rintro ⟨name, found, isFound, same⟩
        have notNew := creating.was_none isFound
        exact ⟨name, found, by rw [creating.entries, if_neg notNew, isFound], same⟩
      · rintro ⟨name, found, isFound, same⟩
        rw [creating.entries] at isFound
        split at isFound
        · rename_i isName
          cases isFound
          rw [isName, zoneOf_soa _ creating.hasSoa] at same
          exact absurd same differs
        · exact ⟨name, found, isFound, same⟩

theorem filed (before : Filed db) (plain : PlainName (toLower target)) : Filed next where
  stored := by
    intro name found isFound
    rw [creating.entries] at isFound
    split at isFound
    · rename_i isName
      cases isFound
      have targetPlain : target.getLast? ≠ some 0x2E := fun dotted =>
        plain.noDot (toLower_dotted dotted)
      exact isName ▸ (build_eq_ok rfl rfl rfl targetPlain creating.built).1
    · exact before.stored name found isFound
  plain := by
    intro name found isFound
    rw [creating.entries] at isFound
    split at isFound
    · rename_i isName
      exact isName ▸ plain
    · exact before.plain name found isFound

/-- An entry without a SOA is not the new one. -/
theorem entryOf_plain (name : Name) (found : Entry) (isFound : entryOf next name = some found)
    (noSoa : found.hasType RrType.soa = false) : entryOf db name = some found := by
  rw [creating.entries] at isFound
  split at isFound
  · cases isFound
    cases creating.hasSoa.symm.trans noSoa
  · exact isFound

theorem housed (before : Housed db) (plain : PlainName (toLower target)) : Housed next where
  toFiled := creating.filed before.toFiled plain
  zone := by
    intro name found isFound noSoa
    obtain ⟨positive, inside, apex, isApex⟩ :=
      before.zone name found (creating.entryOf_plain name found isFound noSoa) noSoa
    exact ⟨positive, inside, apex, (creating.isZone_iff _ _).mpr (Or.inr isApex)⟩

end Creating

end creating

section recording

variable {parseUuid : Bytes → Run Uuid} {fuel : Nat} {db next : Db Value} {request : RrRequest}
  {zone : Name} {apex raised : Entry} {new : Option Entry}

/-- The zone of a stored name is where its entry says. -/
theorem Housed.apexFrom_eq {db : Db Value} (housed : Housed db) {fuel : Nat} {fqdn zone : Name}
    {entry : Entry} (found : entryOf db fqdn = some entry)
    (isApex : apexFrom db.entryContent fuel fqdn = some zone) : zoneOf fqdn entry = zone := by
  cases fuel with
  | zero => cases isApex
  | succ fuel =>
    rw [entryOf] at found
    rw [apexFrom] at isApex
    split at isApex
    · cases isApex
    · rw [found] at isApex
      dsimp only at isApex
      split at isApex
      · rename_i isZone
        rw [zoneOf, if_pos isZone]
        exact Option.some.inj isApex
      · rename_i notZone
        have plain : entry.hasType RrType.soa = false := Bool.eq_false_iff.mpr notZone
        obtain ⟨positive, inside, apex, apexFound, apexSoa⟩ := housed.zone fqdn entry found plain
        have isZone : zoneOf fqdn entry = fqdn.drop (fqdn.length - entry.zoneLen) := if_neg notZone
        rw [if_pos ⟨positive, inside⟩, ← isZone] at isApex
        cases fuel with
        | zero => cases isApex
        | succ fuel =>
          rw [entryOf] at apexFound
          rw [apexFrom, apexFound] at isApex
          dsimp only at isApex
          split at isApex
          · cases isApex
          · exact Option.some.inj isApex

/-- What a request must meet to keep the registry, when its name is in the zone. -/
structure KeepsPlace (zone : Name) (request : RrRequest) : Prop where
  front : (toLower request.target).take zone.length = zone
  apexOnly : RrType.soa ∈ bodyTypes request.method → zone = toLower request.target

namespace Recording

variable (recording : Recording fuel db next request zone apex raised new)
include recording

section apexOnly

variable (apexOnly : RrType.soa ∈ bodyTypes request.method → zone = toLower request.target)
include apexOnly

/-- A new entry below its zone has no SOA, and knows its zone. -/
theorem new_below (stored : Stored zone apex) (below : zone ≠ toLower request.target)
    {entry : Entry} (isNew : new = some entry) :
    Stored (toLower request.target) entry ∧ entry.hasType RrType.soa = false ∧
      entry.zoneLen = zone.length ∧ zoneOf (toLower request.target) entry = zone := by
  obtain ⟨same, _⟩ | ⟨_, olds, news, _, _⟩ := recording.place
  · exact absurd same below
  · have isNewEntry := news entry isNew
    have noSoa : entry.hasType RrType.soa = false := by
      rw [Bool.eq_false_iff]
      intro soa
      obtain ⟨rr, member, isSoa⟩ := (entry.hasType_iff _).mp soa
      rcases isNewEntry.types rr member with inBody | ⟨old, isOld, hadSoa⟩
      · exact below (apexOnly (isSoa ▸ inBody))
      · rw [isSoa, olds old isOld] at hadSoa
        cases hadSoa
    have length := (apex_length stored recording.isZone.2).2 _ isNewEntry.zoneLen
    refine ⟨isNewEntry.stored, noSoa, length, ?_⟩
    rw [zoneOf, if_neg (by simp [noSoa]), length]
    exact (List.suffix_iff_eq_drop.mp recording.suffix).symm

theorem isZone_iff (stored : Stored zone apex) (name : Name) (found : Entry) :
    IsZone next name found ↔
      (name = zone ∧ found = raised) ∨ (name ≠ zone ∧ IsZone db name found) := by
  rw [IsZone, recording.entries]
  by_cases isZone : name = zone
  · simp only [isZone, if_true, Option.some.injEq, true_and, ne_eq, not_true_eq_false, false_and,
      or_false]
    exact ⟨fun both => both.1.symm, fun same => ⟨same.symm, same ▸ recording.keeps.soa⟩⟩
  · simp only [isZone, if_false, false_and, ne_eq, not_false_eq_true, true_and, false_or]
    split
    · rename_i here
      subst here
      have below : zone ≠ toLower request.target := fun same => isZone same.symm
      obtain ⟨same, _⟩ | ⟨_, olds, _, _, _⟩ := recording.place
      · exact absurd same below
      · constructor
        · rintro ⟨isNew, soa⟩
          obtain ⟨_, noSoa, _⟩ := recording.new_below apexOnly stored below isNew
          cases soa.symm.trans noSoa
        · rintro ⟨isOld, soa⟩
          cases soa.symm.trans (olds found isOld)
    · exact Iff.rfl

/-- A zone stays a zone. -/
theorem zone_stays (before : Filed db) (name : Name) (found : Entry)
    (isFound : IsZone db name found) : ∃ entry, IsZone next name entry := by
  have iff := recording.isZone_iff apexOnly (before.stored _ _ recording.isZone.1) name
  by_cases isZone : name = zone
  · exact ⟨raised, (iff _).mpr (Or.inl ⟨isZone, rfl⟩)⟩
  · exact ⟨found, (iff _).mpr (Or.inr ⟨isZone, isFound⟩)⟩

/-- A zone was one before the request, of the same tenant. -/
theorem zone_was (before : Filed db) (name : Name) (found : Entry)
    (isFound : IsZone next name found) :
    ∃ entry, IsZone db name entry ∧ found.tenantId = entry.tenantId := by
  have iff := recording.isZone_iff apexOnly (before.stored _ _ recording.isZone.1) name
  rcases (iff _).mp isFound with ⟨rfl, rfl⟩ | ⟨_, isFound⟩
  · exact ⟨apex, recording.isZone, recording.keeps.tenantId⟩
  · exact ⟨found, isFound, rfl⟩

/-- An entry without a SOA is the new one, which knows its zone, or was there before. -/
theorem entryOf_plain (before : Filed db) (name : Name) (found : Entry)
    (isFound : entryOf next name = some found) (noSoa : found.hasType RrType.soa = false) :
    (name = toLower request.target ∧ name ≠ zone ∧ found.zoneLen = zone.length ∧
        zoneOf name found = zone) ∨
      entryOf db name = some found := by
  rw [recording.entries] at isFound
  split at isFound
  · cases isFound
    cases recording.keeps.soa.symm.trans noSoa
  · rename_i notZone
    split at isFound
    · rename_i isTarget
      subst isTarget
      obtain ⟨_, _, place⟩ := recording.new_below apexOnly (before.stored _ _ recording.isZone.1)
        (Ne.symm notZone) isFound
      exact Or.inl ⟨rfl, notZone, place⟩
    · exact Or.inr isFound

end apexOnly

/-- The zone of the name, as its entry says, before the request and behind it. -/
theorem zoneOf_target (keeps : KeepsPlace zone request) (before : Housed db)
    (isFound : entryOf db (toLower request.target) = some found ∨
      entryOf next (toLower request.target) = some found) :
    zoneOf (toLower request.target) found = zone := by
  by_cases below : zone = toLower request.target
  · rw [recording.entries, if_pos below.symm] at isFound
    rcases isFound with isFound | isFound
    · rw [← below] at isFound ⊢
      cases recording.isZone.1.symm.trans isFound
      exact zoneOf_soa zone recording.isZone.2
    · cases isFound
      rw [zoneOf_soa _ recording.keeps.soa, ← below]
  · rw [recording.entries, if_neg fun same => below same.symm, if_pos rfl] at isFound
    rcases isFound with isFound | isFound
    · exact before.apexFrom_eq isFound recording.isApex
    · have stored := before.stored _ _ recording.isZone.1
      exact (recording.new_below keeps.apexOnly stored below isFound).2.2.2

theorem entryOf_zone : entryOf next zone = some raised := by
  rw [recording.entries, if_pos rfl]

theorem entryOf_else {name : Name} (notZone : name ≠ zone)
    (notTarget : name ≠ toLower request.target) : entryOf next name = entryOf db name := by
  rw [recording.entries, if_neg notZone, if_neg notTarget]

theorem plains (before : Filed db) (plain : PlainName (toLower request.target)) (name : Name)
    (found : Entry) (isFound : entryOf next name = some found) : PlainName name := by
  by_cases isZone : name = zone
  · exact isZone ▸ before.plain zone apex recording.isZone.1
  · by_cases isTarget : name = toLower request.target
    · exact isTarget ▸ plain
    · exact before.plain name found ((recording.entryOf_else isZone isTarget).symm.trans isFound)

/-- Of the index, a request for a name only changes the names of zones. -/
theorem account_else (kclass : RealKey.Class) (key : Key) (ofClass : OfClass kclass key)
    (differs : RealKey.Class.zrr.toByte ≠ kclass.toByte) : account next key = account db key :=
  recording.others key (ne_of_class ((ofClass_zrrKey _ _ _).mpr rfl) ofClass differs)

/-- The index of names, at the name of the request. -/
theorem indexed_iff (keeps : KeepsPlace zone request) (before : InOrder parseUuid db) :
    (account next (zrrKey zone (toLower request.target))).isSome = true ↔
      entryOf next (toLower request.target) ≠ none := by
  rw [recording.entries]
  obtain ⟨isZone, indexed⟩ | ⟨below, _, _, removed, added⟩ := recording.place
  · simp [← isZone, indexed]
  · rw [keeps.front] at removed added
    rw [if_neg below.symm, if_pos rfl]
    by_cases absent : new = none
    · simp [absent, removed absent]
    · rcases added absent with indexed | ⟨present, kept⟩
      · simp [indexed, absent]
      · obtain ⟨old, isOld⟩ := Option.ne_none_iff_exists'.mp present
        have wasIndexed := (before.registered.names (zrrKey zone (toLower request.target))
          (by simp)).mpr ⟨_, old, isOld,
            by rw [recording.zoneOf_target keeps before.housed (Or.inl isOld)]⟩
        simp [kept, wasIndexed, absent]

/-- Recording at a name keeps the registry. -/
theorem registered (keeps : KeepsPlace zone request) (before : InOrder parseUuid db)
    (plain : PlainName (toLower request.target)) : Registered parseUuid next where
  zones := by
    intro key ofClass
    rw [recording.account_else _ key ofClass (by decide), before.registered.zones key ofClass]
    constructor
    · rintro ⟨name, found, isFound, same⟩
      obtain ⟨entry, isZone⟩ := recording.zone_stays keeps.apexOnly before.housed.toFiled _ _ isFound
      exact ⟨name, entry, isZone, same⟩
    · rintro ⟨name, found, isFound, same⟩
      obtain ⟨entry, isZone, _⟩ := recording.zone_was keeps.apexOnly before.housed.toFiled _ _ isFound
      exact ⟨name, entry, isZone, same⟩
  owners := by
    intro name found isFound
    obtain ⟨entry, isZone, same⟩ := recording.zone_was keeps.apexOnly before.housed.toFiled _ _ isFound
    rw [recording.account_else .zone (zoneKey name) (by simp) (by decide), same]
    exact before.registered.owners name entry isZone
  tenants := by
    intro key ofClass
    have zones (name : Name) : account next (zoneKey name) = account db (zoneKey name) :=
      recording.account_else .zone (zoneKey name) (by simp) (by decide)
    rw [recording.account_else _ key ofClass (by decide), before.registered.tenants key ofClass]
    simp only [zones]
    constructor
    · rintro ⟨name, found, owner, isFound, same⟩
      obtain ⟨entry, isZone⟩ := recording.zone_stays keeps.apexOnly before.housed.toFiled _ _ isFound
      exact ⟨name, entry, owner, isZone, same⟩
    · rintro ⟨name, found, owner, isFound, same⟩
      obtain ⟨entry, isZone, _⟩ := recording.zone_was keeps.apexOnly before.housed.toFiled _ _ isFound
      exact ⟨name, entry, owner, isZone, same⟩
  names := by
    have slashless (name : Name) (found : Entry) (isPlain : PlainName name) : 0x2F ∉ zoneOf name found :=
      fun member => isPlain.noSlash ((zoneOf_suffix name found).subset member)
    intro key ofClass
    by_cases here : key = zrrKey zone (toLower request.target)
    · rw [here, recording.indexed_iff keeps before]
      constructor
      · intro present
        obtain ⟨found, isFound⟩ := Option.ne_none_iff_exists'.mp present
        exact ⟨_, found, isFound, by rw [recording.zoneOf_target keeps before.housed (Or.inr isFound)]⟩
      · rintro ⟨name, found, isFound, same⟩
        have zonePlain := (before.housed.plain _ _ recording.isZone.1).noSlash
        have namePlain := recording.plains before.housed.toFiled plain name found isFound
        obtain ⟨_, rfl⟩ :=
          zrrKey_injective zonePlain (slashless name found namePlain) same
        simp [isFound]
    · have others : account next key = account db key :=
        recording.others key (by rw [keeps.front]; exact here)
      rw [others, before.registered.names key ofClass]
      constructor
      · rintro ⟨name, found, isFound, rfl⟩
        have notTarget : name ≠ toLower request.target := by
          rintro rfl
          exact here (by rw [recording.zoneOf_target keeps before.housed (Or.inl isFound)])
        by_cases isZone : name = zone
        · subst isZone
          cases recording.isZone.1.symm.trans isFound
          refine ⟨name, raised, recording.entryOf_zone, ?_⟩
          rw [zoneOf_soa _ recording.isZone.2, zoneOf_soa _ recording.keeps.soa]
        · exact ⟨name, found, (recording.entryOf_else isZone notTarget).trans isFound, rfl⟩
      · rintro ⟨name, found, isFound, rfl⟩
        have notTarget : name ≠ toLower request.target := by
          rintro rfl
          exact here (by rw [recording.zoneOf_target keeps before.housed (Or.inr isFound)])
        by_cases isZone : name = zone
        · subst isZone
          cases recording.entryOf_zone.symm.trans isFound
          refine ⟨name, apex, recording.isZone.1, ?_⟩
          rw [zoneOf_soa _ recording.isZone.2, zoneOf_soa _ recording.keeps.soa]
        · exact ⟨name, found, (recording.entryOf_else isZone notTarget).symm.trans isFound, rfl⟩

theorem filed (apexOnly : RrType.soa ∈ bodyTypes request.method → zone = toLower request.target)
    (before : Filed db) (plain : PlainName (toLower request.target)) : Filed next where
  stored := by
    have stored := before.stored _ _ recording.isZone.1
    intro name found isFound
    rw [recording.entries] at isFound
    split at isFound
    · rename_i isZone
      cases isFound
      exact isZone ▸ recording.keeps.stored
    · rename_i notZone
      split at isFound
      · rename_i isTarget
        subst isTarget
        exact (recording.new_below apexOnly stored (Ne.symm notZone) isFound).1
      · exact before.stored name found isFound
  plain := recording.plains before plain

theorem housed (keeps : KeepsPlace zone request) (before : Housed db)
    (plain : PlainName (toLower request.target)) : Housed next where
  toFiled := recording.filed keeps.apexOnly before.toFiled plain
  zone := by
    have zoneKept := recording.zone_stays keeps.apexOnly before.toFiled
    intro name found isFound noSoa
    rcases recording.entryOf_plain keeps.apexOnly before.toFiled name found isFound noSoa with
      ⟨rfl, _, length, isZone⟩ | isFound
    · rw [isZone, length]
      exact ⟨List.length_pos_iff.mpr recording.filled, recording.suffix.length_le,
        zoneKept zone apex recording.isZone⟩
    · obtain ⟨positive, inside, below, isBelow⟩ := before.zone name found isFound noSoa
      exact ⟨positive, inside, zoneKept _ below isBelow⟩

end Recording

end recording

section runs

/-- The requests that keep the registry. -/
def KeepsRegistry (env : ZoneEnv) (accounts : Accounts) : SiteRequest → Prop
  | .zone ⟨login, argument, target, .post _ _⟩ => PlainName (toLower target) ∧
      ∀ session tenant all,
        getSessionAndTenant env accounts.db login argument false = .ok (session, tenant, all) →
        env.parseUuid session.tenant = .ok session.tenantId
  | .zone ⟨_, _, _, .delete⟩ => False
  | .record ⟨login, argument, request⟩ => PlainName (toLower request.target) ∧
      ∀ session tenant all indexing ops,
        getSessionAndTenant env accounts.db login argument false = .ok (session, tenant, all) →
        (indexedRecord env.config session.toSession env.fuel request).exec accounts.db.entryContent =
          .ok (indexing, ops) → KeepsPlace indexing.zoneName request

/-- A store that may have tenants, but no names. -/
structure NoNames (db : Db Value) : Prop where
  entries : ∀ name, entryOf db name = none
  keys : ∀ kclass ∈ [RealKey.Class.zone, .tzone, .zrr], ∀ key, OfClass kclass key →
    account db key = none

theorem NoNames.inOrder {db : Db Value} (noNames : NoNames db) (parseUuid : Bytes → Run Uuid) :
    InOrder parseUuid db := by
  have noEntry (name : Name) (entry : Entry) (found : entryOf db name = some entry) : False := by
    cases (noNames.entries name).symm.trans found
  have noZone (name : Name) (entry : Entry) (isZone : IsZone db name entry) : False :=
    noEntry name entry isZone.1
  refine ⟨⟨?_, ?_, ?_, ?_⟩, ⟨⟨?_, ?_⟩, ?_⟩⟩
  · intro key ofClass
    rw [noNames.keys .zone (by decide) key ofClass]
    exact ⟨nofun, fun ⟨name, entry, isZone, _⟩ => (noZone name entry isZone).elim⟩
  · exact fun name entry isZone => (noZone name entry isZone).elim
  · intro key ofClass
    rw [noNames.keys .tzone (by decide) key ofClass]
    exact ⟨nofun, fun ⟨name, entry, _, isZone, _⟩ => (noZone name entry isZone).elim⟩
  · intro key ofClass
    rw [noNames.keys .zrr (by decide) key ofClass]
    exact ⟨nofun, fun ⟨name, entry, found, _⟩ => (noEntry name entry found).elim⟩
  · exact fun name entry found => (noEntry name entry found).elim
  · exact fun name entry found => (noEntry name entry found).elim
  · exact fun name entry found => (noEntry name entry found).elim

/-- One request. -/
theorem InOrder.serve (env : ZoneEnv) (accounts next : Accounts) (request : SiteRequest)
    (before : InOrder env.parseUuid accounts.db) (keeps : KeepsRegistry env accounts request)
    (served : RestApi.serve env accounts request = .ok next) : InOrder env.parseUuid next.db := by
  match request with
  | .zone ⟨login, argument, target, .post body id⟩ =>
    obtain ⟨plain, own⟩ := keeps
    obtain ⟨session, tenant, all, entry, isSession, creating⟩ := onZone_post_eq_ok served
    exact ⟨creating.registered before.registered (own session tenant all isSession),
      creating.housed before.housed plain⟩
  | .zone ⟨_, _, _, .delete⟩ => exact keeps.elim
  | .record ⟨login, argument, request⟩ =>
    obtain ⟨plain, places⟩ := keeps
    obtain ⟨session, tenant, all, indexing, ops, apex, raised, new, isSession, ran, recording⟩ :=
      onRecord_eq_ok before.housed.toFiled plain served
    have place := places session tenant all indexing ops isSession ran
    exact ⟨recording.registered place before plain, recording.housed place before.housed plain⟩

/-- Requests that keep the registry, from a store without names. A request that fails
changes nothing. -/
theorem zones_registered (env : ZoneEnv) (start final : Accounts) (noNames : NoNames start.db)
    (reached : Relation.ReflTransGen (fun before after =>
      ∃ request, KeepsRegistry env before request ∧ serve env before request = .ok after) start final) :
    Registered env.parseUuid final.db := by
  have kept : InOrder env.parseUuid final.db := by
    induction reached with
    | refl => exact noNames.inOrder env.parseUuid
    | tail _ step ih =>
      obtain ⟨request, keeps, served⟩ := step
      exact InOrder.serve env _ _ request ih keeps served
  exact kept.registered

/-- A store with two tenants. -/
def twoTenants : Accounts where
  db :=
    { families := fun
        | .account => ((∅ : ColumnFamily Value).insert (tenantKey firstId)
            (.tenant (tenantWithUser [0x61])))
            |>.insert (tenantKey secondId) (.tenant (tenantWithUser [0x62]))
        | _ => ∅
      trxlog := ∅ }
  trxId := 0

theorem noNames_twoTenants : NoNames twoTenants.db where
  entries := fun name => by
    rfl
  keys := by
    intro kclass isClass key ofClass
    have notTenant (id : Bytes) : tenantKey id ≠ key := by
      rintro rfl
      revert ofClass isClass
      cases kclass <;> simp [OfClass, tenantKey, RealKey.init, RealKey.Class.toByte]
    change (((∅ : ColumnFamily Value).insert (tenantKey firstId) _).insert (tenantKey secondId) _)[key]? =
      none
    rw [getElem?_insert, if_neg (by simpa using notTenant _),
      getElem?_insert, if_neg (by simpa using notTenant _)]
    exact getElem?_empty

/-- The requests of the samples: a tenant is known by the first digit of its id. -/
def sampleSite : ZoneEnv := ⟨sampleConfig, fun text => .ok (text.headD 0).toNat, 5⟩

/-- A user of a tenant, with all permissions. -/
def loginOf (tenant : UInt8) : Login := ⟨⟨tenant.toNat, fun _ _ => true⟩, uuidOf tenant, true, false⟩

/-- The request of a tenant to create a zone. -/
def postZone (tenant : UInt8) (name : Name) : SiteRequest :=
  .zone ⟨loginOf tenant, none, name, .post ⟨⟨none, [⟨RrType.soa, (soaOfZ 1).rdata, by decide⟩,
    ⟨RrType.ns, [1, 0x61, 0], nofun⟩, ⟨RrType.ns, [1, 0x62, 0], nofun⟩]⟩, true⟩ []⟩

/-- The request of a tenant to create an address at a name. -/
def postName (tenant : UInt8) (name : Name) : SiteRequest :=
  .record ⟨loginOf tenant, none, name, .post ⟨none, [sampleAddress]⟩⟩

/-- Without the argument, a request is for the tenant that has logged in. -/
theorem getSessionAndTenant_own {env : ZoneEnv} {db : Db Value} {login session : Login}
    {allowAll all : Bool} {tenant : Pb.Tenant}
    (found : getSessionAndTenant env db login none allowAll = .ok (session, tenant, all)) :
    session = login := by
  simp only [getSessionAndTenant, Run.bind_eq_ok] at found
  obtain ⟨_, same, found⟩ := found
  cases same
  split at found
  · cases found
  · cases found
    rfl

/-- The zone `z` and the name `z.z` in it are registered. -/
theorem first_zone_registered :
    ∃ middle final, serve sampleSite twoTenants (postZone 0x31 [0x7A]) = .ok middle ∧
      serve sampleSite middle (postName 0x31 [0x7A, 0x2E, 0x7A]) = .ok final ∧
      account final.db (zrrKey [0x7A] [0x7A, 0x2E, 0x7A]) = some (.text []) ∧
      Registered sampleSite.parseUuid final.db := by
  have ran : (serve sampleSite twoTenants (postZone 0x31 [0x7A]) >>= fun middle =>
      (indexedRecord sampleConfig (loginOf 0x31).toSession 5
        ⟨[0x7A, 0x2E, 0x7A], .post ⟨none, [sampleAddress]⟩⟩).exec
          middle.db.entryContent >>= fun indexing =>
      serve sampleSite middle (postName 0x31 [0x7A, 0x2E, 0x7A]) >>= fun final =>
        .ok (decide (account final.db (zrrKey [0x7A] [0x7A, 0x2E, 0x7A]) = some (.text []) ∧
          indexing.1.zoneName = [0x7A]))) = .ok true := by
    decide +kernel
  simp only [Run.bind_eq_ok] at ran
  obtain ⟨middle, created, ⟨indexing, ops⟩, ran, final, recorded, checked⟩ := ran
  obtain ⟨indexed, isZone⟩ := of_decide_eq_true (Run.ok.inj checked)
  have keepsFirst : KeepsRegistry sampleSite twoTenants (postZone 0x31 [0x7A]) := by
    refine ⟨⟨by decide, by decide⟩, ?_⟩
    intro session tenant all found
    rw [getSessionAndTenant_own found]
    rfl
  have keepsSecond : KeepsRegistry sampleSite middle (postName 0x31 [0x7A, 0x2E, 0x7A]) := by
    refine ⟨⟨by decide, by decide⟩, ?_⟩
    intro session tenant all other otherOps found otherRan
    rw [getSessionAndTenant_own found] at otherRan
    cases ran.symm.trans otherRan
    exact ⟨by rw [isZone]; decide, fun inBody => absurd inBody (by decide)⟩
  exact ⟨middle, final, created, recorded, indexed, zones_registered sampleSite twoTenants final
    noNames_twoTenants (.tail (.single ⟨_, keepsFirst, created⟩) ⟨_, keepsSecond, recorded⟩)⟩

/-- The name `a.z` in the zone `z` is registered in a zone `a`. -/
theorem name_registered_by_its_front :
    ∃ middle final, serve sampleSite twoTenants (postZone 0x31 [0x7A]) = .ok middle ∧
      serve sampleSite middle (postName 0x31 [0x61, 0x2E, 0x7A]) = .ok final ∧
      account final.db (zrrKey [0x61] [0x61, 0x2E, 0x7A]) = some (.text []) ∧
      account final.db (zrrKey [0x7A] [0x61, 0x2E, 0x7A]) = none ∧
      ¬ Registered sampleSite.parseUuid final.db := by
  have ran : (serve sampleSite twoTenants (postZone 0x31 [0x7A]) >>= fun middle =>
      serve sampleSite middle (postName 0x31 [0x61, 0x2E, 0x7A]) >>= fun final =>
        .ok (decide (account final.db (zrrKey [0x61] [0x61, 0x2E, 0x7A]) = some (.text []) ∧
          account final.db (zrrKey [0x7A] [0x61, 0x2E, 0x7A]) = none ∧
          ∃ entry ∈ entryOf final.db [0x61, 0x2E, 0x7A],
            zoneOf [0x61, 0x2E, 0x7A] entry = [0x7A]))) = .ok true := by
    decide +kernel
  simp only [Run.bind_eq_ok] at ran
  obtain ⟨middle, created, final, recorded, checked⟩ := ran
  obtain ⟨front, missing, entry, isEntry, isZone⟩ := of_decide_eq_true (Run.ok.inj checked)
  refine ⟨middle, final, created, recorded, front, missing, ?_⟩
  intro registered
  have indexed := (registered.names (zrrKey [0x7A] [0x61, 0x2E, 0x7A]) (by simp)).mpr
    ⟨[0x61, 0x2E, 0x7A], entry, isEntry, by rw [isZone]⟩
  rw [missing] at indexed
  cases indexed

end runs

end Nsblast.RestApi
