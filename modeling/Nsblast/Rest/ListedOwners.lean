import Nsblast.Rest.ListZone
import Nsblast.Rest.RegistryKept

/-!
# Whose names a listing shows

A listing checks the owner of the zone it is asked for, and not of the names it finds
below. They have the same owner as long as zones lie only below zones of the same
tenant, and the requests do not see to this: a zone may be created above a zone of
another tenant, and after a deletion also below one. `KeepsOwners` says which requests
keep the tenants apart.
-/

namespace Nsblast.RestApi

open AuthMgr List Name RealKey

section enclosing

/-- A name encloses itself and the names that end in a dot and this name. -/
def Encloses (zone name : Name) : Prop := name = zone ∨ ∃ front, name = front ++ 0x2E :: zone

namespace Encloses

theorem refl (name : Name) : Encloses name name := Or.inl rfl

theorem trans {outer zone name : Name} (first : Encloses outer zone) (second : Encloses zone name) :
    Encloses outer name := by
  rcases second with rfl | ⟨front, rfl⟩
  · exact first
  · rcases first with rfl | ⟨between, rfl⟩
    · exact Or.inr ⟨front, rfl⟩
    · exact Or.inr ⟨front ++ 0x2E :: between, by simp⟩

/-- Two names that enclose a third enclose one another. -/
theorem comparable {first second name : Name} (isFirst : Encloses first name)
    (isSecond : Encloses second name) : Encloses first second ∨ Encloses second first := by
  have shorter (own other left right : Name) (same : left ++ 0x2E :: own = right ++ 0x2E :: other)
      (rest : Name) (longer : left = right ++ rest) : Encloses own other := by
    rw [longer, append_assoc, append_cancel_left_eq] at same
    cases rest with
    | nil =>
      simp only [nil_append, List.cons.injEq, true_and] at same
      exact Or.inl same.symm
    | cons dot between =>
      simp only [cons_append, List.cons.injEq] at same
      exact Or.inr ⟨between, same.2.symm⟩
  rcases isFirst with rfl | ⟨left, rfl⟩
  · exact Or.inr isSecond
  · rcases isSecond with rfl | ⟨right, same⟩
    · exact Or.inl (Or.inr ⟨left, rfl⟩)
    · rcases append_eq_append_iff.mp same with ⟨rest, longer, _⟩ | ⟨rest, longer, _⟩
      · exact Or.inr (shorter second first right left same.symm rest longer)
      · exact Or.inl (shorter first second left right same rest longer)

theorem behindDot_split {key : Name} (dotted : 0x2E ∈ key) :
    ∃ front, key = front ++ 0x2E :: behindDot key := by
  induction key with
  | nil => cases dotted
  | cons ch rest ih =>
    by_cases dot : ch = 0x2E
    · exact ⟨[], by simp [behindDot, dot]⟩
    · obtain ⟨front, isRest⟩ := ih ((mem_cons.mp dotted).resolve_left (Ne.symm dot))
      have same : behindDot (ch :: rest) = behindDot rest := by simp [behindDot, dot]
      exact ⟨ch :: front, by rw [same, cons_append, ← isRest]⟩

/-- Lower case does not move the dots. -/
theorem lower {zone name : Name} (encloses : Encloses zone name)
    (isLower : toLower zone = zone) : Encloses zone (toLower name) := by
  rcases encloses with rfl | ⟨front, rfl⟩
  · exact Or.inl isLower
  · refine Or.inr ⟨toLower front, ?_⟩
    have dot : lowerByte 0x2E = 0x2E := by decide
    simp only [toLower] at isLower ⊢
    rw [map_append, map_cons, isLower, dot]

end Encloses

/-- What is behind the dots of a name. -/
def ancestors : Name → List Name
  | [] => []
  | ch :: rest => if ch = 0x2E then rest :: ancestors rest else ancestors rest

variable {db : Db Value} {apex : Entry} (zone name : Name)

theorem mem_ancestors :
    zone ∈ ancestors name ↔ ∃ front, name = front ++ 0x2E :: zone := by
  induction name with
  | nil => simp [ancestors]
  | cons ch rest ih =>
    rw [ancestors]
    constructor
    · intro member
      split at member
      · rename_i dot
        rcases mem_cons.mp member with rfl | later
        · exact ⟨[], by rw [dot, nil_append]⟩
        · obtain ⟨front, isRest⟩ := ih.mp later
          exact ⟨ch :: front, by rw [cons_append, ← isRest]⟩
      · obtain ⟨front, isRest⟩ := ih.mp member
        exact ⟨ch :: front, by rw [cons_append, ← isRest]⟩
    · rintro ⟨front, same⟩
      cases front with
      | nil =>
        simp only [nil_append, List.cons.injEq] at same
        rw [if_pos same.1, same.2]
        exact mem_cons_self
      | cons first front =>
        simp only [cons_append, List.cons.injEq] at same
        have later := ih.mpr ⟨front, same.2⟩
        split
        · exact mem_cons_of_mem rest later
        · exact later

/-- The entry of the nearest zone that encloses a name. -/
def nearestZone (db : Db Value) (name : Name) : Option Entry :=
  (name :: ancestors name).findSome? fun zone =>
    (entryOf db zone).filter fun entry => entry.hasType RrType.soa

/-- The name belongs to a zone of the tenant. -/
def Owned (db : Db Value) (id : Uuid) (name : Name) : Prop :=
  ∃ apex ∈ nearestZone db (toLower name), apex.tenantId = some id

theorem mem_enclosing : zone ∈ name :: ancestors name ↔ Encloses zone name := by
  rw [mem_cons, mem_ancestors, Encloses, eq_comm]

theorem nearestZone_isZone {name : Name} (nearest : nearestZone db name = some apex) :
    ∃ zone, Encloses zone name ∧ IsZone db zone apex := by
  obtain ⟨zone, member, found⟩ := exists_of_findSome?_eq_some nearest
  rw [Option.filter_eq_some_iff] at found
  exact ⟨zone, (mem_enclosing zone name).mp member, found⟩

theorem exists_nearestZone {name zone : Name} (encloses : Encloses zone name)
    (isZone : IsZone db zone apex) :
    ∃ nearest, nearestZone db name = some nearest := by
  rw [← Option.isSome_iff_exists, nearestZone, findSome?_isSome_iff]
  refine ⟨zone, (mem_enclosing zone name).mpr encloses, ?_⟩
  rw [isZone.1, Option.filter_some, if_pos isZone.2]
  rfl

end enclosing

section apart

/-- An entry that is no zone is in a zone whose name encloses its own. -/
def Dotted (db : Db Value) : Prop := ∀ name entry, entryOf db name = some entry →
  entry.hasType RrType.soa = false → Encloses (zoneOf name entry) name

/-- Zones have tenants, and the same one when they lie below each other. -/
structure OneOwner (db : Db Value) : Prop where
  owned : ∀ zone entry, IsZone db zone entry → entry.tenantId ≠ none
  same : ∀ outer inner first second, IsZone db outer first → IsZone db inner second →
    Encloses outer inner → first.tenantId = second.tenantId

/-- The zones of the tenants are apart. -/
structure Apart (db : Db Value) : Prop extends Filed db where
  dotted : Dotted db
  owners : OneOwner db

variable {db : Db Value} {fuel : Nat} {fqdn name zone : Name} {ops : List (Op Address Entry)}
    {apex : Entry}

/-- What holds of a name and its zone, if every turn of the lookup keeps it. -/
theorem apexFrom_induct {P : Name → Name → Prop}
    (self : ∀ name entry, IsZone db name entry → P name name)
    (jump : ∀ name entry zone, entryOf db name = some entry → entry.hasType RrType.soa = false →
      P (zoneOf name entry) zone → P name zone)
    (up : ∀ name zone, entryOf db name = none → 0x2E ∈ name → P (behindDot name) zone → P name zone)
    (fuel : Nat) (name zone : Name) (isApex : apexFrom db.entryContent fuel name = some zone) :
    P name zone := by
  induction fuel generalizing name with
  | zero => cases isApex
  | succ fuel ih =>
    rw [apexFrom] at isApex
    split at isApex
    · cases isApex
    · split at isApex
      · rename_i entry found
        split at isApex
        · rename_i isZone
          cases isApex
          exact self zone entry ⟨found, isZone⟩
        · rename_i notZone
          split at isApex
          · have isZone : zoneOf name entry = name.drop (name.length - entry.zoneLen) := if_neg notZone
            rw [← isZone] at isApex
            exact jump name entry zone found (Bool.eq_false_iff.mpr notZone) (ih _ isApex)
          · cases isApex
      · rename_i absent
        split at isApex
        · rename_i hasDot
          exact up name zone absent hasDot (ih _ isApex)
        · cases isApex

/-- The zone of a name encloses it. -/
theorem apexFrom_encloses (dotted : Dotted db)
    (isApex : apexFrom db.entryContent fuel name = some zone) : Encloses zone name := by
  refine apexFrom_induct (P := fun name zone => Encloses zone name) ?_ ?_ ?_ fuel name zone isApex
  · exact fun name _ _ => Encloses.refl name
  · exact fun name entry zone found plain above => above.trans (dotted name entry found plain)
  · exact fun name zone _ hasDot above => above.trans (Or.inr (Encloses.behindDot_split hasDot))

/-- What `lookupEntryAndSoa` finds is a zone that encloses the name. -/
theorem lookup_encloses (dotted : Dotted db) {found : RrAndSoa}
    (runs : (lookupEntryAndSoa fuel fqdn).Runs ops found)
    (answered : Op.Answered db.entryContent ops) (hosted : found.soa = some apex) :
    ∃ zone, IsZone db zone apex ∧ Encloses zone fqdn := by
  obtain ⟨zone, isApex, last⟩ :=
    apexFrom_of_lookup db.entryContent fuel true none fqdn ops found apex runs answered hosted
  obtain ⟨read, before, rfl, passing, isZone, _⟩ := lookupEntryAndSoa_runs runs hosted
  have same : read = zone := by
    simp only [getLast?_append, getLast?_singleton, Option.some_or, Option.some.injEq,
      Op.read.injEq, and_true] at last
    exact entryAt_injective last
  subst same
  have reading := passing.reading.append (Op.reading_single (entryAt read) (some apex))
  exact ⟨read, ⟨answered.reading reading _ _ (by simp), isZone⟩, apexFrom_encloses dotted isApex⟩

/-- A session that is allowed something on a name has found a zone of its tenant. -/
theorem isAllowed_encloses (dotted : Dotted db) {session : Login} (auth : session.hasAuth = true)
    (allowed : (isAllowed fuel session .readZone fqdn true).exec db.entryContent = .ok (true, ops)) :
    ∃ zone apex, IsZone db zone apex ∧ Encloses zone fqdn ∧
      ∀ id, apex.tenantId = some id → id = session.tenantId := by
  obtain ⟨runs, answered⟩ := (Program.exec_eq_ok _ _ _ _).mp allowed
  simp only [isAllowed, auth, Bool.not_true, Bool.false_eq_true, if_false, if_true,
    AuthMgr.Session.checkZone, Program.runs_bind, Program.runs_pure] at runs
  obtain ⟨_, _, check, rfl, ⟨looked, _, found, rfl, lookup, isCheck, rfl⟩, passes, rfl⟩ := runs
  simp only [append_nil] at answered
  have passed : check = .passed := by
    simp only [Bool.and_eq_true, beq_iff_eq] at passes
    exact passes.1
  cases hosted : found.soa with
  | none =>
    rw [hosted, passed] at isCheck
    cases isCheck
  | some apex =>
    obtain ⟨zone, isZone, encloses⟩ := lookup_encloses dotted lookup answered hosted
    refine ⟨zone, apex, isZone, encloses, ?_⟩
    intro id isId
    simp only [hosted, isId, passed, ne_eq, ite_not] at isCheck
    split at isCheck
    · assumption
    · cases isCheck

/-- Below a zone of the tenant, every name belongs to the tenant. -/
theorem Apart.owned_below (apart : Apart db) {id : Uuid} (isZone : IsZone db zone apex)
    (own : ∀ other, apex.tenantId = some other → other = id)
    (encloses : Encloses zone (toLower name)) : Owned db id name := by
  obtain ⟨nearest, isNearest⟩ := exists_nearestZone encloses isZone
  obtain ⟨inner, innerEncloses, innerZone⟩ := nearestZone_isZone isNearest
  obtain ⟨other, isOther⟩ := Option.ne_none_iff_exists'.mp (apart.owners.owned zone apex isZone)
  refine ⟨nearest, isNearest, ?_⟩
  rw [← own other isOther, ← isOther]
  rcases encloses.comparable innerEncloses with outer | outer
  · exact (apart.owners.same zone inner apex nearest isZone innerZone outer).symm
  · exact apart.owners.same inner zone nearest apex innerZone isZone outer

end apart

variable {key : Key} {login : Login} {argument : Option Bytes}

section listing

theorem isInZone_encloses {zone : Name} (inZone : isInZone key zone = true) :
    Encloses zone (nameOf key) := by
  simp only [isInZone, Bool.and_eq_true, List.isPrefixOf_iff_prefix] at inZone
  obtain ⟨⟨rest, isRest⟩, next⟩ := inZone
  have isTail : key.tail = zone.reverse ++ rest := by rw [isRest, drop_one]
  rw [← isRest, drop_left' (length_reverse)] at next
  rw [nameOf, isTail, reverse_append, reverse_reverse]
  cases rest with
  | nil => exact Or.inl rfl
  | cons dot front =>
    simp only [head?_cons, Option.all_some, beq_iff_eq] at next
    exact Or.inr ⟨front.reverse, by simp [next]⟩

/-- A key of the class of the entries is the key of a name. -/
theorem eq_ofName_of_sameKeyClass {name : Name}
    (sameClass : isSameKeyClass (ofName name) key = true) :
    key = ofName (nameOf key) := by
  cases key with
  | nil => simp [isSameKeyClass, ofName_eq] at sameClass
  | cons first rest =>
    simp only [isSameKeyClass, ofName_eq, beq_iff_eq] at sameClass
    simp [ofName_eq, nameOf, ← sameClass]

/-- The loop stays in the zone. -/
theorem mem_visit {zone : Name} {pageSize count : Nat} {items : List (Key × Value)}
    {item : Key × Value} (member : item ∈ (visit key zone pageSize count items).1) :
    item ∈ items ∧ isSameKeyClass key item.1 = true ∧ isInZone item.1 zone = true := by
  induction items generalizing count with
  | nil => cases member
  | cons first rest ih =>
    rw [visit] at member
    split at member
    · cases member
    · rename_i sameClass
      split at member
      · cases member
      · rename_i inZone
        split at member
        · cases member
        · rcases mem_cons.mp member with rfl | later
          · exact ⟨mem_cons_self, by simpa using sameClass, by simpa using inZone⟩
          · obtain ⟨visited, both⟩ := ih later
            exact ⟨mem_cons_of_mem first visited, both⟩

/-- What a listing shows lies below the name it was asked for. -/
theorem listZone_encloses {env : ListEnv} {db : Db Value} {target : Name} {query : ListQuery}
    {page : Page} (filed : Filed db)
    (returned : listZone env db login argument target query = .ok page) :
    ∃ session tenant all ops,
      getSessionAndTenant env.toZoneEnv db login argument true = .ok (session, tenant, all) ∧
      (isAllowed env.fuel session .readZone (toLower target) true).exec db.entryContent =
        .ok (true, ops) ∧
      ∀ shown ∈ page.value, Encloses (toLower target) (toLower shown.fqdn) := by
  simp only [listZone, Run.bind_eq_ok] at returned
  obtain ⟨⟨session, tenant, all⟩, isSession, kind, _, ⟨allowed, ops⟩, isAllowed, _, granted, pageSize, _,
    ⟨start, skipKey, forward⟩, _, list, isList, same⟩ := returned
  cases same
  have isTrue : allowed = true := by
    cases allowed with
    | true => rfl
    | false => cases granted
  subst isTrue
  refine ⟨session, tenant, all, ops, isSession, isAllowed, ?_⟩
  intro shown member
  have lower : toLower (toLower target) = toLower target := toLower_toLower target
  obtain ⟨⟨key, value⟩, visited, isShown⟩ :=
    Run.mapM_mem isList ((env.names.mem_sort list shown).mp member)
  obtain ⟨isItem, sameClass, inZone⟩ := mem_visit visited
  have encloses := isInZone_encloses inZone
  rw [listed] at isShown
  split at isShown
  · dsimp only at isShown
    split at isShown
    · rename_i entry
      split at isShown
      · cases isShown
        exact encloses.lower lower
      · rename_i first rest rrs
        rw [Run.bind_eq_ok] at isShown
        obtain ⟨_, _, same⟩ := isShown
        cases same
        have stored := OrderedMap.mem_of_mem_fromPrev _ isItem
        have isKey := eq_ofName_of_sameKeyClass sameClass
        have found : entryOf db (nameOf key) = some entry := by
          rw [entryOf, Db.entryContent, entryAt, ← isKey, stored]
          rfl
        have owner : toLower first.owner = nameOf key :=
          (filed.stored _ _ found).owners first (by rw [rrs]; exact mem_cons_self)
        rw [Listed.fqdn, owner]
        exact encloses
    · cases isShown
  · cases isShown
    exact encloses.lower lower

end listing

section steps

variable {db next : Db Value}

/-- Entries that are removed leave the tenants apart. -/
theorem Apart.removed (before : Apart db)
    (removes : ∀ name, entryOf next name = none ∨ entryOf next name = entryOf db name) :
    Apart next := by
  have was (name : Name) (entry : Entry) (found : entryOf next name = some entry) :
      entryOf db name = some entry := by
    rcases removes name with removed | kept
    · cases removed.symm.trans found
    · exact kept.symm.trans found
  have wasZone (zone : Name) (entry : Entry) (isZone : IsZone next zone entry) : IsZone db zone entry :=
    ⟨was zone entry isZone.1, isZone.2⟩
  exact {
    stored := fun name entry found => before.stored name entry (was name entry found)
    plain := fun name entry found => before.plain name entry (was name entry found)
    dotted := fun name entry found => before.dotted name entry (was name entry found)
    owners := {
      owned := fun zone entry isZone => before.owners.owned zone entry (wasZone zone entry isZone)
      same := fun outer inner first second isOuter isInner => before.owners.same outer inner first
        second (wasZone outer first isOuter) (wasZone inner second isInner) } }

variable {env : ZoneEnv} {target : Name} {session : Login} {body : ZoneBody} {id : Bytes}
    {entry : Entry}

/-- Deleting a zone removes entries. -/
theorem onZone_delete_eq_ok {accounts next : Accounts}
    (deleted : onZone env accounts ⟨login, argument, target, .delete⟩ = .ok next) (name : Name) :
    entryOf next.db name = none ∨ entryOf next.db name = entryOf accounts.db name := by
  simp only [onZone, Run.bind_eq_ok] at deleted
  obtain ⟨⟨session, tenant, all⟩, _, ⟨allowed, _⟩, _, _, _, _, _, trx, unregistered, same⟩ := deleted
  cases same
  have sameEntries (key : Key) : trx.get accounts.db .entry key =
      (Transaction.remove accounts.db {} (ofName (toLower target)) true .entry).get
        accounts.db .entry key := by
    rw [deleteZone] at unregistered
    split at unregistered
    · have indexed := (updateZoneRrIx_eq_ok unregistered (fun _ => rfl) .entry key).2
      simp only [reduceCtorEq, false_and, if_false, Transaction.get_remove] at indexed
      exact indexed
    · cases unregistered
      rfl
  rw [entryOf, entryContent_commit, entryAt]
  rw [sameEntries, Transaction.remove, if_pos rfl, Transaction.get_removeFrom]
  split
  · exact Or.inl rfl
  · exact Or.inr rfl

/-- The zones above and below a new one belong to the tenant it is created for. -/
def OwnsAround (db : Db Value) (id : Uuid) (name : Name) : Prop :=
  ∀ zone entry, IsZone db zone entry → Encloses zone name ∨ Encloses name zone →
    entry.tenantId = some id

theorem Creating.dotted (creating : Creating env db next session target body id entry)
    (before : Dotted db) : Dotted next :=
  fun name found isFound noSoa =>
    before name found (creating.entryOf_plain name found isFound noSoa) noSoa

theorem Creating.apart (creating : Creating env db next session target body id entry)
    (before : Apart db) (plain : PlainName (toLower target))
    (around : OwnsAround db session.tenantId (toLower target)) : Apart next := by
  have isTenant : entry.tenantId = some session.tenantId := build_tenantId rfl rfl creating.built
  refine ⟨creating.filed before.toFiled plain, creating.dotted before.dotted, ?_, ?_⟩
  · intro zone found isZone
    rcases (creating.isZone_iff _ _).mp isZone with ⟨_, rfl⟩ | isZone
    · simp [isTenant]
    · exact before.owners.owned zone found isZone
  · intro outer inner first second isOuter isInner encloses
    rcases (creating.isZone_iff _ _).mp isOuter with ⟨rfl, rfl⟩ | isOuter
    · rcases (creating.isZone_iff _ _).mp isInner with ⟨_, rfl⟩ | isInner
      · rfl
      · rw [isTenant, around inner second isInner (Or.inr encloses)]
    · rcases (creating.isZone_iff _ _).mp isInner with ⟨rfl, rfl⟩ | isInner
      · rw [isTenant, around outer first isOuter (Or.inl encloses)]
      · exact before.owners.same outer inner first second isOuter isInner encloses

section recording

variable {fuel : Nat} {request : RrRequest} {zone : Name} {apex raised : Entry} {new : Option Entry}
  (recording : Recording fuel db next request zone apex raised new)
  (apexOnly : RrType.soa ∈ bodyTypes request.method → zone = toLower request.target)
include recording apexOnly

theorem Recording.dotted (before : Filed db) (dotted : Dotted db) : Dotted next := by
  intro name found isFound noSoa
  rcases recording.entryOf_plain apexOnly before name found isFound noSoa with
    ⟨rfl, _, _, isZone⟩ | isFound
  · rw [isZone]
    exact apexFrom_encloses dotted recording.isApex
  · exact dotted name found isFound noSoa

theorem Recording.apart (before : Apart db) (plain : PlainName (toLower request.target)) :
    Apart next := by
  have was := recording.zone_was apexOnly before.toFiled
  refine ⟨recording.filed apexOnly before.toFiled plain,
    recording.dotted apexOnly before.toFiled before.dotted, ?_, ?_⟩
  · intro name found isZone
    obtain ⟨old, wasZone, same⟩ := was name found isZone
    rw [same]
    exact before.owners.owned name old wasZone
  · intro outer inner first second isOuter isInner encloses
    obtain ⟨oldFirst, wasOuter, sameFirst⟩ := was outer first isOuter
    obtain ⟨oldSecond, wasInner, sameSecond⟩ := was inner second isInner
    rw [sameFirst, sameSecond]
    exact before.owners.same outer inner oldFirst oldSecond wasOuter wasInner encloses

end recording

end steps

section runs

/-- The requests that keep the tenants apart. -/
def KeepsOwners (env : ZoneEnv) (accounts : Accounts) : SiteRequest → Prop
  | .zone ⟨login, argument, target, .post _ _⟩ => PlainName (toLower target) ∧
      ∀ session tenant all,
        getSessionAndTenant env accounts.db login argument false = .ok (session, tenant, all) →
        OwnsAround accounts.db session.tenantId (toLower target)
  | .zone ⟨_, _, _, .delete⟩ => True
  | .record ⟨login, argument, request⟩ => PlainName (toLower request.target) ∧
      ∀ session tenant all indexing ops,
        getSessionAndTenant env accounts.db login argument false = .ok (session, tenant, all) →
        (indexedRecord env.config session.toSession env.fuel request).exec accounts.db.entryContent =
          .ok (indexing, ops) →
        RrType.soa ∈ bodyTypes request.method → indexing.zoneName = toLower request.target

/-- One request. -/
theorem Apart.serve {env : ZoneEnv} {accounts next : Accounts} {request : SiteRequest}
    (before : Apart accounts.db) (keeps : KeepsOwners env accounts request)
    (served : RestApi.serve env accounts request = .ok next) : Apart next.db := by
  match request with
  | .zone ⟨login, argument, target, .post body id⟩ =>
    obtain ⟨plain, around⟩ := keeps
    obtain ⟨session, tenant, all, entry, isSession, creating⟩ := onZone_post_eq_ok served
    exact creating.apart before plain (around session tenant all isSession)
  | .zone ⟨login, argument, target, .delete⟩ =>
    exact before.removed (onZone_delete_eq_ok served)
  | .record ⟨login, argument, request⟩ =>
    obtain ⟨plain, apexOnly⟩ := keeps
    obtain ⟨session, tenant, all, indexing, ops, apex, raised, new, isSession, ran, recording⟩ :=
      onRecord_eq_ok before.toFiled plain served
    exact recording.apart (apexOnly session tenant all indexing ops isSession ran) before plain

/-- Requests that keep the tenants apart, from a store without names. Then a page shows
names of the tenant of the session only. -/
theorem listed_names_owned (env : ListEnv) (start final : Accounts) (noNames : NoNames start.db)
    (reached : Relation.ReflTransGen (fun before after => ∃ request,
      KeepsOwners env.toZoneEnv before request ∧ serve env.toZoneEnv before request = .ok after)
      start final) (login session : Login) (argument : Option Bytes) (tenant : Pb.Tenant)
    (all : Bool) (isSession : getSessionAndTenant env.toZoneEnv final.db login argument true =
      .ok (session, tenant, all)) (auth : session.hasAuth = true) (target : Name)
    (query : ListQuery) (page : Page)
    (returned : listZone env final.db login argument target query = .ok page) :
    ∀ shown ∈ page.value, Owned final.db session.tenantId shown.fqdn := by
  have apart : Apart final.db := by
    clear isSession returned
    induction reached with
    | refl =>
      have noEntry (name : Name) (entry : Entry) (found : entryOf start.db name = some entry) :
          False := by
        cases (noNames.entries name).symm.trans found
      exact ⟨⟨fun name entry found => (noEntry name entry found).elim,
          fun name entry found => (noEntry name entry found).elim⟩,
        fun name entry found => (noEntry name entry found).elim,
        fun zone entry isZone => (noEntry zone entry isZone.1).elim,
        fun outer _ first _ isOuter => (noEntry outer first isOuter.1).elim⟩
    | tail _ step ih =>
      obtain ⟨request, keeps, served⟩ := step
      exact Apart.serve ih keeps served
  intro shown member
  obtain ⟨_, _, _, ops, sameSession, allowed, encloses⟩ := listZone_encloses apart.toFiled returned
  cases isSession.symm.trans sameSession
  obtain ⟨zone, apex, isZone, above, own⟩ := isAllowed_encloses apart.dotted auth allowed
  exact apart.owned_below isZone own (above.trans (encloses shown member))

/-- Pages of the default size. -/
def sampleList : ListEnv :=
  { sampleSite with
    restMaxPageSize := 1000
    restDefaultPageSize := 100
    stoi := fun _ => .thrown "stoi"
    names := Sorter.byKey compare Listed.fqdn }

/-- A request for the first page. -/
def firstPage : ListQuery := ⟨none, none, [], none⟩

/-- A tenant creates the zone `z` with a name `a.z`, and both are listed. -/
theorem own_zone_listed :
    ∃ middle final page, serve sampleSite twoTenants (postZone 0x31 [0x7A]) = .ok middle ∧
      serve sampleSite middle (postName 0x31 [0x61, 0x2E, 0x7A]) = .ok final ∧
      listZone sampleList final.db (loginOf 0x31) none [0x7A] firstPage = .ok page ∧
      page.value = [.name [0x61, 0x2E, 0x7A], .name [0x7A]] ∧
      ∀ shown ∈ page.value, Owned final.db (loginOf 0x31).tenantId shown.fqdn := by
  have ran : (serve sampleSite twoTenants (postZone 0x31 [0x7A]) >>= fun middle =>
      serve sampleSite middle (postName 0x31 [0x61, 0x2E, 0x7A]) >>= fun final =>
      getSessionAndTenant sampleSite final.db (loginOf 0x31) none true >>= fun session =>
      listZone sampleList final.db (loginOf 0x31) none [0x7A] firstPage >>= fun page =>
        .ok (decide (page.value = [.name [0x61, 0x2E, 0x7A], .name [0x7A]]))) = .ok true := by
    decide +kernel
  simp only [Run.bind_eq_ok] at ran
  obtain ⟨middle, created, final, recorded, ⟨session, tenant, all⟩, isSession, page, listed, checked⟩ :=
    ran
  have isLogin := getSessionAndTenant_own isSession
  subst isLogin
  have keepsFirst : KeepsOwners sampleSite twoTenants (postZone 0x31 [0x7A]) := by
    refine ⟨⟨by decide, by decide⟩, ?_⟩
    intro _ _ _ _ zone entry isZone
    cases (noNames_twoTenants.entries zone).symm.trans isZone.1
  have keepsSecond : KeepsOwners sampleSite middle (postName 0x31 [0x61, 0x2E, 0x7A]) :=
    ⟨⟨by decide, by decide⟩, fun _ _ _ _ _ _ _ inBody => absurd inBody (by decide)⟩
  exact ⟨middle, final, page, created, recorded, listed, of_decide_eq_true (Run.ok.inj checked),
    listed_names_owned sampleList twoTenants final noNames_twoTenants
      (.tail (.single ⟨_, keepsFirst, created⟩) ⟨_, keepsSecond, recorded⟩) (loginOf 0x31)
      (loginOf 0x31) none tenant all isSession rfl [0x7A] firstPage page listed⟩

/-- A tenant creates the zone `b.z`, then another one the zone `z` above it. The
listing of `z` shows `b.z`. -/
theorem zone_of_other_tenant_listed :
    ∃ middle final page, serve sampleSite twoTenants (postZone 0x32 [0x62, 0x2E, 0x7A]) = .ok middle ∧
      serve sampleSite middle (postZone 0x31 [0x7A]) = .ok final ∧
      listZone sampleList final.db (loginOf 0x31) none [0x7A] firstPage = .ok page ∧
      .name [0x62, 0x2E, 0x7A] ∈ page.value ∧
      ¬ Owned final.db (loginOf 0x31).tenantId [0x62, 0x2E, 0x7A] := by
  have ran : (serve sampleSite twoTenants (postZone 0x32 [0x62, 0x2E, 0x7A]) >>= fun middle =>
      serve sampleSite middle (postZone 0x31 [0x7A]) >>= fun final =>
      listZone sampleList final.db (loginOf 0x31) none [0x7A] firstPage >>= fun page =>
        .ok (decide (.name [0x62, 0x2E, 0x7A] ∈ page.value ∧
          (nearestZone final.db [0x62, 0x2E, 0x7A]).map (·.tenantId) = some (some 0x32)))) =
        .ok true := by
    decide +kernel
  simp only [Run.bind_eq_ok] at ran
  obtain ⟨middle, createdFirst, final, createdSecond, page, listed, checked⟩ := ran
  obtain ⟨shown, nearest⟩ := of_decide_eq_true (Run.ok.inj checked)
  refine ⟨middle, final, page, createdFirst, createdSecond, listed, shown, ?_⟩
  rintro ⟨apex, isApex, own⟩
  have lower : toLower [0x62, 0x2E, 0x7A] = [0x62, 0x2E, 0x7A] := by decide
  rw [lower] at isApex
  rw [isApex, Option.map_some, own] at nearest
  exact absurd nearest (by decide)

end runs

end Nsblast.RestApi
