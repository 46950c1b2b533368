import Nsblast.Accounts.Changes
import Nsblast.Rest.DiffHistory
import Nsblast.Rest.Frame
import Nsblast.Rest.Zone

/-!
# The registry of zones

Beside the entries, the store keeps the zones with their tenants, the zones of each
tenant and the names of each zone. `Registered` says that these agree with the entries.

`Creating` and `Recording` say what a request that succeeds changes in both, for the
requests that create a zone and for those that change a name.
-/

namespace Nsblast

open Name Transaction StorageBuilder List Replay RealKey Run

section content

variable (db : Db Value) (ops : List (Op Address Entry)) (trx : Transaction Value) (key : Address)

/-- What a transaction sees of the entries, behind operations on them. -/
theorem readEntry_performEntry :
    readEntry ((ops.foldl performEntry trx).get db key.1 key.2) =
      apply (fun key => readEntry (trx.get db key.1 key.2)) (Op.writes ops) key := by
  induction ops generalizing trx with
  | nil => rfl
  | cons op rest ih =>
    cases op with
    | read read answer => exact ih trx
    | write written value =>
      rw [foldl_cons, ih, Op.writes_write, apply_cons]
      congr 1
      funext other
      have changed : (trx.performEntry (.write written value)).get db other.1 other.2 =
          (trx.change written.1 written.2 (value.map .entry)).get db other.1 other.2 := rfl
      rw [changed, get_change, Function.update_apply]
      by_cases same : other = written
      · subst same
        cases value <;> simp [readEntry]
      · rw [if_neg same, if_neg fun both => same (Prod.ext both.1.symm both.2.symm)]

/-- Operations on entries leave what they do not write. -/
theorem get_performEntry (unwritten : key ∉ Replay.keys (Op.writes ops)) :
    (ops.foldl performEntry trx).get db key.1 key.2 = trx.get db key.1 key.2 := by
  induction ops generalizing trx with
  | nil => rfl
  | cons op rest ih =>
    cases op with
    | read read answer => exact ih trx unwritten
    | write written value =>
      simp only [Op.writes_write, Replay.keys, map_cons, mem_cons, not_or] at unwritten
      have changed : (trx.performEntry (.write written value)).get db key.1 key.2 =
          (trx.change written.1 written.2 (value.map .entry)).get db key.1 key.2 := rfl
      rw [foldl_cons, ih _ unwritten.2, changed, get_change,
        if_neg fun both => unwritten.1 (Prod.ext both.1.symm both.2.symm)]

theorem entryContent_commit (accounts : AuthMgr.Accounts) (trx : Transaction Value)
    (key : Address) :
    (accounts.commit trx).db.entryContent key = readEntry (trx.get accounts.db key.1 key.2) := by
  exact congrArg readEntry (commit_get accounts.db accounts.trxId trx key.1 key.2)

end content

namespace RestApi

open AuthMgr

section registered

/-- The entry of a name. -/
def entryOf (db : Db Value) (name : Name) : Option Entry := db.entryContent (entryAt name)

/-- The name has an entry with a SOA. -/
def IsZone (db : Db Value) (name : Name) (entry : Entry) : Prop :=
  entryOf db name = some entry ∧ entry.hasType RrType.soa = true

/-- A key of the class. -/
def OfClass (kclass : RealKey.Class) (key : Key) : Prop := key.head? = some kclass.toByte

/-- The registry agrees with the entries. -/
structure Registered (parseUuid : Bytes → Run Uuid) (db : Db Value) : Prop where
  zones : ∀ key, OfClass .zone key →
    ((account db key).isSome = true ↔ ∃ name entry, IsZone db name entry ∧ key = zoneKey name)
  owners : ∀ name entry, IsZone db name entry → ∃ id zone, entry.tenantId = some id ∧
    account db (zoneKey name) = some (.zone zone) ∧ parseUuid zone.tenantId = .ok id
  tenants : ∀ key, OfClass .tzone key → ((account db key).isSome = true ↔
    ∃ name entry zone, IsZone db name entry ∧ account db (zoneKey name) = some (.zone zone) ∧
      key = tzoneKey zone.tenantId name)
  names : ∀ key, OfClass .zrr key → ((account db key).isSome = true ↔
    ∃ name entry, entryOf db name = some entry ∧ key = zrrKey (zoneOf name entry) name)

/-- A name as it comes out of a path, without a final dot. -/
structure PlainName (name : Name) : Prop where
  noDot : name.getLast? ≠ some 0x2E
  noSlash : 0x2F ∉ name

/-- Every entry belongs to the name it is found under. -/
structure Filed (db : Db Value) : Prop where
  stored : ∀ name entry, entryOf db name = some entry → Stored name entry
  plain : ∀ name entry, entryOf db name = some entry → PlainName name

/-- What the entries have in common as long as zones are not deleted. -/
structure Housed (db : Db Value) : Prop extends Filed db where
  zone : ∀ name entry, entryOf db name = some entry → entry.hasType RrType.soa = false →
    0 < entry.zoneLen ∧ entry.zoneLen ≤ name.length ∧ ∃ apex, IsZone db (zoneOf name entry) apex

end registered

section keys

variable {first second : Name} (kclass : RealKey.Class)

@[simp] theorem ofClass_zoneKey (name : Name) :
    OfClass kclass (zoneKey name) ↔ kclass = .zone := by
  cases kclass <;> simp [OfClass, zoneKey, RealKey.init, RealKey.Class.toByte]

@[simp] theorem ofClass_tzoneKey (tenant : Bytes) (name : Name) :
    OfClass kclass (tzoneKey tenant name) ↔ kclass = .tzone := by
  cases kclass <;> simp [OfClass, tzoneKey, RealKey.init, RealKey.Class.toByte]

@[simp] theorem ofClass_zrrKey (zone name : Name) :
    OfClass kclass (zrrKey zone name) ↔ kclass = .zrr := by
  cases kclass <;> simp [OfClass, zrrKey, RealKey.init, RealKey.Class.toByte]

theorem zoneKey_injective (same : zoneKey first = zoneKey second) :
    first = second := by
  simpa [zoneKey, RealKey.init, isReversed] using same

/-- Names without a slash can be read back from the index. -/
theorem zrrKey_injective {firstZone secondZone : Name} (firstPlain : 0x2F ∉ firstZone)
    (secondPlain : 0x2F ∉ secondZone) (same : zrrKey firstZone first = zrrKey secondZone second) :
    firstZone = secondZone ∧ first = second := by
  simp only [zrrKey, RealKey.init, isReversed, Bool.false_eq_true, if_false, append_nil,
    List.cons.injEq, true_and] at same
  induction firstZone generalizing secondZone with
  | nil =>
    cases secondZone with
    | nil => simpa using same
    | cons byte rest =>
      simp only [nil_append, cons_append, List.cons.injEq] at same
      exact absurd (same.1 ▸ mem_cons_self) secondPlain
  | cons own others ih =>
    cases secondZone with
    | nil =>
      simp only [nil_append, cons_append, List.cons.injEq] at same
      exact absurd (same.1 ▸ mem_cons_self) firstPlain
    | cons byte rest =>
      simp only [cons_append, List.cons.injEq] at same
      obtain ⟨zones, names⟩ := ih (fun member => firstPlain (mem_cons_of_mem _ member))
        (fun member => secondPlain (mem_cons_of_mem _ member)) same.2
      exact ⟨by rw [same.1, zones], names⟩

theorem ne_of_class {first second : RealKey.Class} {key other : Key} (ofFirst : OfClass first key)
    (ofSecond : OfClass second other) (differs : first.toByte ≠ second.toByte) : other ≠ key := by
  rintro rfl
  exact differs (Option.some.inj (ofFirst.symm.trans ofSecond))

end keys

section creating

/-- What the update of the index of names changes. -/
theorem updateZoneRrIx_eq_ok {db : Db Value} {fqdn : Name} {zoneLen : Nat} {update : Bool}
    {trx next : Transaction Value} (updated : updateZoneRrIx db fqdn zoneLen update trx = .ok next)
    (adds : zoneLen = 0 → update = true) (category : Category) (key : Key) :
    zoneLen < fqdn.length ∧ next.get db category key =
      if category = .account ∧
        key = zrrKey (fqdn.take (if zoneLen = 0 then fqdn.length else zoneLen)) fqdn
      then if update then some (.text []) else none
      else trx.get db category key := by
  rw [updateZoneRrIx, bind_eq_ok] at updated
  obtain ⟨_, inside, updated⟩ := updated
  have shorter : zoneLen < fqdn.length := by
    by_contra longer
    simp [assert, longer] at inside
  refine ⟨shorter, ?_⟩
  cases update with
  | true =>
    simp only [if_true] at updated
    rw [get_write updated]
    simp [eq_comm]
  | false =>
    have filled : zoneLen ≠ 0 := fun empty => Bool.false_ne_true (adds empty)
    simp only [Bool.false_eq_true, if_false, filled] at updated
    cases updated
    rw [get_remove]
    simp [eq_comm, filled]

/-- What creating a zone changes. -/
structure Creating (env : ZoneEnv) (db next : Db Value) (session : Login) (target : Name)
    (body : ZoneBody) (id : Bytes) (entry : Entry) : Prop where
  fresh : entryOf db (toLower target) = none
  soa : RrType.soa ∈ body.rrs.map (·.type)
  built : build env.config target { tenantId := some session.tenantId } body.toJsonBody = .ok entry
  entries : ∀ name, entryOf next name =
    if name = toLower target then some entry else entryOf db name
  accounts : ∀ key, account next key =
    if key = zrrKey (toLower target) (toLower target) then some (.text [])
    else if key = tzoneKey session.tenant (toLower target) then
      some (.text (toLower target))
    else if key = zoneKey (toLower target) then some (.zone ⟨id, session.tenant⟩)
    else account db key

theorem onZone_post_eq_ok {env : ZoneEnv} {accounts next : Accounts} {login : Login}
    {argument : Option Bytes} {target : Name} {body : ZoneBody} {id : Bytes}
    (created : onZone env accounts ⟨login, argument, target, .post body id⟩ = .ok next) :
    ∃ session tenant all entry,
      getSessionAndTenant env accounts.db login argument false = .ok (session, tenant, all) ∧
      Creating env accounts.db next.db session target body id entry := by
  simp only [onZone, bind_eq_ok, validateZone, addZone] at created
  obtain ⟨⟨session, tenant, all⟩, isSession, ⟨allowed, _⟩, _, _, _, _, _, _, ⟨_, hasSoa, _⟩, entry, built,
    _, absent, first, entered, third, ⟨_, _, second, zoned, middle, owned, indexed⟩, same⟩ := created
  cases same
  have fresh : (accounts.db.families .entry)[ofName (toLower target)]? = none := by
    cases found : (accounts.db.families .entry)[ofName (toLower target)]? with
    | none => rfl
    | some value =>
      have exists_ : keyExists accounts.db {} (ofName (toLower target)) =
          true := by
        change ((accounts.db.families .entry)[ofName (toLower target)]?).isSome = true
        rw [found]
        rfl
      rw [exists_] at absent
      cases absent
  have soa : RrType.soa ∈ body.rrs.map (·.type) := by
    by_contra missing
    simp [throwIf, missing] at hasSoa
  have afterFirst := get_write entered
  have afterSecond := get_write zoned
  have afterMiddle := get_write owned
  have afterThird (category : Category) (key : Key) :=
    (updateZoneRrIx_eq_ok indexed (fun _ => rfl) category key).2
  have start (category : Category) (key : Key) :
      ({} : Transaction Value).get accounts.db category key = (accounts.db.families category)[key]? :=
    rfl
  refine ⟨session, tenant, all, entry, isSession, ⟨?_, soa, built, ?_, ?_⟩⟩
  · rw [entryOf, Db.entryContent, entryAt, fresh]
    rfl
  · intro name
    rw [entryOf, entryContent_commit]
    simp only [entryAt, afterThird, afterMiddle, afterSecond, afterFirst, start, reduceCtorEq,
      false_and, if_false, true_and]
    by_cases same : name = toLower target
    · simp [same, readEntry]
    · have differs : ofName (toLower target) ≠ ofName name := fun keys =>
        same (ofName_injective keys).symm
      simp only [same, differs, if_false]
      rfl
  · intro key
    rw [account_commit]
    simp only [afterThird, afterMiddle, afterSecond, afterFirst, start, reduceCtorEq, false_and,
      if_false, true_and, if_true, take_length, @eq_comm Key _ key]
    rfl

end creating

section apex

/-- The entry of a zone, as a request leaves it that has found another. -/
structure KeepsApex (fqdn : Name) (old new : Entry) : Prop where
  stored : Stored fqdn new
  soa : new.hasType RrType.soa = true
  tenantId : new.tenantId = old.tenantId

variable {entry zone : Entry} {sb : StorageBuilder} {config : Config} {target : Name}

/-- The entry of a zone says how long the name of the zone is. -/
theorem apex_length {name : Name} (stored : Stored name entry)
    (isZone : entry.hasType RrType.soa = true) :
    toLower name = name ∧ ∀ zoneLen, HasZoneLen entry zoneLen → zoneLen = name.length := by
  obtain ⟨soa, others, rrs, _, first, _, _, _⟩ := stored.soa_found isZone
  have owner : toLower soa.owner = name :=
    stored.owners soa (by rw [rrs]; exact mem_cons_self)
  refine ⟨by rw [← owner, toLower_toLower], ?_⟩
  rintro zoneLen ⟨own, isFirst, length⟩
  cases first.symm.trans isFirst
  rw [length, ← owner, toLower, length_map]

theorem hasType_soa_of_incremented {rrs result : List StoredRr}
    (incremented : incrementedRrs rrs zone = .ok result) : ∃ rr ∈ result, rr.type = RrType.soa := by
  obtain ⟨_, _, before, soa, raised, after, _, _, _, rfl, _, isSoa, _, shape⟩ :=
    incrementedRrs_eq_ok incremented
  exact ⟨raised, by simp, by rw [shape]; exact isSoa⟩

/-- The end of an entry whose serial is raised. -/
theorem Building.incremented {fqdn : Name} {allowed : UInt16 → Prop} {start next : StorageBuilder}
    (building : Building fqdn allowed start sb) (sorts : start.sort = true)
    (plain : fqdn.getLast? ≠ some 0x2E) {sorter : Sorter indexLess}
    (incremented : sb.incrementSoaVersion zone = .ok next)
    (finished : next.finish sorter = .ok entry) :
    Stored (toLower fqdn) entry ∧ entry.hasType RrType.soa = true ∧
      entry.tenantId = start.tenantId := by
  rw [incrementSoaVersion, bind_eq_ok] at incremented
  obtain ⟨rrs, incremented, same⟩ := incremented
  cases same
  have sbSorts : sb.sort = true := by rw [building.header, sorts]
  have perm := finish_perm sorter entry finished
  refine ⟨?_, ?_, ?_⟩
  · exact stored_finish { sb with rrs } entry fqdn plain
      (building.ofName.increment zone incremented) sbSorts finished
  · obtain ⟨rr, member, isSoa⟩ := hasType_soa_of_incremented incremented
    exact (entry.hasType_iff _).mpr ⟨rr, perm.mem_iff.mpr member, isSoa⟩
  · have header : sb.tenantId = start.tenantId := by rw [building.header]
    rw [finish_eq_ok finished]
    exact header

/-- The entry that `raise` writes. -/
theorem raisedZone_keepsApex {zoneName : Name} {raised : Entry}
    (plain : zoneName.getLast? ≠ some 0x2E) (lower : toLower zoneName = zoneName)
    (stored : Stored zoneName zone) (returned : raisedZone config zoneName zone = .ok raised) :
    KeepsApex zoneName zone raised := by
  simp only [raisedZone, bind_eq_ok] at returned
  obtain ⟨sb, copied, next, incremented, finished⟩ := returned
  obtain ⟨building, _⟩ := copies_eq_ok plain rfl (Building.begin zoneName _ rfl) stored.ofName.wide
    (fun rr member => (stored.owners rr member).trans lower.symm) copied
  obtain ⟨raisedStored, soa, tenantId⟩ := building.incremented rfl plain incremented finished
  exact ⟨lower ▸ raisedStored, soa, tenantId⟩

theorem build_tenantId {body : JsonBody} (empty : sb.rrs = []) (one : sb.oneSoa = true)
    (built : build config target sb body = .ok entry) : entry.tenantId = sb.tenantId := by
  rw [build, bind_eq_ok] at built
  obtain ⟨filled, created, finished⟩ := built
  have building : Building target (fun _ => True) sb filled := by
    refine foldlM_invariant _ (Building target _ sb) sb filled
      (Building.begin target _ empty) ?_ created
    intro state rr next member building created
    exact building.create one rr.wide trivial created
  have header : filled.tenantId = sb.tenantId := by rw [building.header]
  rw [finish_eq_ok finished]
  exact header

/-- What a request for a zone itself writes. -/
theorem changeOf_apex {session : Session} {request : Method JsonBody} {method : Method Entry}
    {existing : RrAndSoa} {change : Change} (sbNew : newBuilder existing zone = .ok sb)
    (received : request.mapM (build config target sb) = .ok method)
    (plain : target.getLast? ≠ some 0x2E) (same : existing.isSame = true)
    (found : existing.rr = some zone) (stored : Stored (toLower target) zone)
    (authorized : request.createsOrDeletes = false)
    (changed : changeOf config session (toLower target) existing zone method = .ok change) :
    change.needVersionIncrement = false ∧ needToUpdateZrr method change = some true ∧
      ∃ entry, change.data = some entry ∧ KeepsApex (toLower target) zone entry := by
  obtain ⟨empty, one, _, _⟩ := newBuilder_eq_ok sbNew
  have isSb : sb.tenantId = zone.tenantId := by
    rw [newBuilder, if_pos same] at sbNew
    cases sbNew
    rw [found]
    rfl
  cases switched_of_changeOf changed with
  | created entry =>
    cases Method.mapped received
    cases authorized
  | replaced _ below => cases same.symm.trans below
  | @raised _ entry raised puts _ incremented =>
    obtain ⟨entryStored, _, _⟩ := received_eq_ok sbNew received plain puts.body
    obtain ⟨body, _, built⟩ := (Method.mapped received).body puts.body
    have isUpdate : needToUpdateZrr method
        { data := some raised, newSoa := raised.soa, needVersionIncrement := false } = some true := by
      rcases puts with rfl | ⟨_, rfl, _⟩ <;> rfl
    have raisedStored := entryStored.increment zone raised incremented
    rw [Entry.incrementSoaVersion, bind_eq_ok] at incremented
    obtain ⟨rrs, incremented, isRaised⟩ := incremented
    cases isRaised
    exact ⟨rfl, isUpdate, _, rfl, raisedStored,
      (Entry.hasType_iff _ _).mpr (hasType_soa_of_incremented incremented),
      (build_tenantId empty one built).trans isSb⟩
  | @merged entry old result append copied both isOld copiedNew mergedOld closed =>
    cases isOld.symm.trans found
    obtain ⟨entryStored, _, _⟩ := received_eq_ok sbNew received plain rfl
    simp only [closeMerged, same, if_true, bind_eq_ok] at closed
    obtain ⟨closed, incremented, finished⟩ := closed
    -- first the new records, then the old ones that are kept
    have copying := (Building.begin (toLower target) (fun _ => True)
      rfl).copies rfl entry.rrs copied entryStored.ofName.wide (fun _ _ => trivial) copiedNew
    have building := copying.merge rfl _ append zone.rrs both stored.ofName.wide (fun _ _ => trivial)
      mergedOld
    obtain ⟨resultStored, soa, tenantId⟩ := building.incremented rfl
      (toLower_plain plain) incremented finished
    exact ⟨by rw [same]; rfl, rfl, result, rfl, toLower_toLower target ▸ resultStored, soa, tenantId⟩
  | removed =>
    cases Method.mapped received
    cases authorized
  | filtered =>
    cases Method.mapped received
    cases authorized

end apex

section recording

/-- A request with a body leaves an entry, and one that leaves none removes the name from
the index. -/
theorem needToUpdateZrr_cases {config : Config} {session : Session} {fqdn : Name}
    {existing : RrAndSoa} {zone : Entry} {method : Method Entry} {change : Change}
    (changed : changeOf config session fqdn existing zone method = .ok change) :
    (needToUpdateZrr method change = some true ∧ change.data ≠ none) ∨
      (needToUpdateZrr method change = some false ∧ change.data = none) ∨
      (needToUpdateZrr method change = none ∧ change.data ≠ none ∧ existing.rr ≠ none) := by
  have ofPut {entry : Entry} (puts : Puts existing entry method) :
      needToUpdateZrr method change = some true := by
    rcases puts with rfl | ⟨_, rfl, _⟩ <;> rfl
  cases switched_of_changeOf changed with
  | created entry => exact Or.inl ⟨rfl, by simp⟩
  | replaced puts => exact Or.inl ⟨ofPut puts, by simp⟩
  | raised puts => exact Or.inl ⟨ofPut puts, by simp⟩
  | merged => exact Or.inl ⟨rfl, by simp⟩
  | removed => exact Or.inr (Or.inl ⟨rfl, rfl⟩)
  | filtered found =>
    split
    · exact Or.inr (Or.inl ⟨rfl, rfl⟩)
    · exact Or.inr (Or.inr ⟨rfl, by simp, by simp [found]⟩)

/-- What a request for a name changes. In the index of names, the name is under its zone
only if it begins with it. -/
structure Recording (fuel : Nat) (db next : Db Value) (request : RrRequest) (zone : Name)
    (apex raised : Entry) (new : Option Entry) : Prop where
  isApex : apexFrom db.entryContent fuel (toLower request.target) = some zone
  isZone : IsZone db zone apex
  suffix : zone <:+ toLower request.target
  filled : zone ≠ []
  keeps : KeepsApex zone apex raised
  entries : ∀ name, entryOf next name =
    if name = zone then some raised
    else if name = toLower request.target then new
    else entryOf db name
  others : ∀ key, key ≠ zrrKey ((toLower request.target).take zone.length)
    (toLower request.target) → account next key = account db key
  place : (zone = toLower request.target ∧ account next (zrrKey zone zone) = some (.text [])) ∨
    (zone ≠ toLower request.target ∧
      (∀ entry ∈ entryOf db (toLower request.target), entry.hasType RrType.soa = false) ∧
      (∀ entry ∈ new, NewEntry (toLower request.target) apex request.method
        (entryOf db (toLower request.target)) entry) ∧
      (new = none → account next (zrrKey ((toLower request.target).take zone.length)
        (toLower request.target)) = none) ∧
      (new ≠ none → account next (zrrKey ((toLower request.target).take zone.length)
          (toLower request.target)) = some (.text []) ∨
        (entryOf db (toLower request.target) ≠ none ∧
          account next (zrrKey ((toLower request.target).take zone.length)
            (toLower request.target)) =
          account db (zrrKey ((toLower request.target).take zone.length)
            (toLower request.target)))))

/-- What the end of a request changes in the index of names. -/
theorem updateIndex_eq_ok (db : Db Value) (fqdn : Name) (indexing : Indexing)
    (trx next : Transaction Value) (updated : updateIndex db fqdn indexing trx = .ok next)
    (adds : indexing.zoneLen = 0 → indexing.update ≠ some false) (place : Name)
    (isPlace : place = fqdn.take (if indexing.zoneLen = 0 then fqdn.length else indexing.zoneLen)) :
    (∀ category key, ¬ (category = .account ∧ key = zrrKey place fqdn) →
      next.get db category key = trx.get db category key) ∧
    next.get db .account (zrrKey place fqdn) =
      match indexing.update with
      | none => trx.get db .account (zrrKey place fqdn)
      | some true => some (.text [])
      | some false => none := by
  subst isPlace
  rw [updateIndex] at updated
  cases isUpdate : indexing.update with
  | none =>
    rw [isUpdate] at updated
    cases updated
    exact ⟨fun _ _ _ => rfl, rfl⟩
  | some update =>
    rw [isUpdate] at updated adds
    have adding : indexing.zoneLen = 0 → update = true := fun empty =>
      Bool.eq_true_of_not_eq_false fun removes => adds empty (by rw [removes])
    have spec (category : Category) (key : Key) :=
      (updateZoneRrIx_eq_ok updated adding category key).2
    refine ⟨fun category key other => ?_, ?_⟩
    · rw [spec, if_neg other]
    · rw [spec, if_pos ⟨rfl, rfl⟩]
      cases update <;> rfl

/-- The store behind the operations of a request and the update of the index. -/
theorem committed_record {accounts : Accounts} {ops : List (Op Address Entry)}
    {trx : Transaction Value} {fqdn : Name} {data : Option Entry}
    {raising logged : Replay.Writes Address Entry} {place : Key}
    (writes : Op.writes ops = (entryAt fqdn, data) :: raising ++ logged)
    (unlogged : ∀ key : Address, key.1 ≠ .diff → key ∉ Replay.keys logged)
    (ofEntries : ∀ key ∈ Replay.keys raising, key.1 = .entry)
    (kept : ∀ category key, ¬ (category = .account ∧ key = place) → trx.get accounts.db category key =
      (ops.foldl performEntry {}).get accounts.db category key) :
    (∀ name, entryOf (accounts.commit trx).db name =
      apply accounts.db.entryContent ((entryAt fqdn, data) :: raising) (entryAt name)) ∧
    (∀ key, (ops.foldl performEntry {}).get accounts.db .account key = account accounts.db key) ∧
    ∀ key, key ≠ place → account (accounts.commit trx).db key = account accounts.db key := by
  have accountsKept (key : Key) : (ops.foldl performEntry {}).get accounts.db .account
      key = account accounts.db key := by
    refine get_performEntry accounts.db ops {} (.account, key) ?_
    rw [writes, Replay.keys, map_append, map_cons, mem_append, mem_cons, not_or, not_or]
    refine ⟨⟨by simp [entryAt], fun raised => ?_⟩, unlogged _ (by simp)⟩
    cases ofEntries _ raised
  refine ⟨fun name => ?_, accountsKept, fun key differs => ?_⟩
  · rw [entryOf, entryContent_commit, kept _ _ (by simp [entryAt]), readEntry_performEntry, writes,
      apply_append]
    exact apply_unwritten _ (unlogged _ (by simp [entryAt]))
  · rw [account_commit, kept _ _ (by simp [differs]), accountsKept]

@[simp] theorem entryAt_inj (first second : Name) :
    entryAt first = entryAt second ↔ first = second :=
  ⟨entryAt_injective, congrArg entryAt⟩

section alone

variable {env : ZoneEnv} {accounts : Accounts} {session : Session} {request : RrRequest}
  {ops : List (Op Address Entry)} {trx : Transaction Value}
  (alone : Alone env.config session env.fuel request accounts.db.entryContent ops)
  (filed : Filed accounts.db) (plain : PlainName (toLower request.target))
  (updated : updateIndex accounts.db (toLower request.target)
    ⟨alone.apex, alone.sb.zoneLen, needToUpdateZrr alone.method alone.change⟩
    (ops.foldl performEntry {}) = .ok trx)
include filed plain updated

/-- A request for the name of a zone. -/
theorem Alone.recording_same (same : alone.existing.isSame = true) :
    ∃ raised new, Recording env.fuel accounts.db (accounts.commit trx).db request alone.apex alone.old
      raised new := by
  obtain ⟨apex, old, sb, method, change, raising, _, existing, isApex, suffix, filled, oldFound, isZone,
    name, isSame, _, sbNew, received, changed, raises, writes, unlogged⟩ := alone
  dsimp only at same updated ⊢
  obtain ⟨isOld, rfl, authorized⟩ := isSame same
  obtain ⟨needless, isUpdate, entry, data, keeps⟩ := changeOf_apex sbNew received
    (fun dotted => plain.noDot (toLower_dotted dotted)) same isOld (filed.stored _ old oldFound)
    authorized changed
  have noRaise : raising = [] := by
    rcases raises with ⟨_, none⟩ | ⟨needed, _⟩
    · exact none
    · cases needless.symm.trans needed
  have noLen : sb.zoneLen = 0 := by
    rw [newBuilder, if_pos same] at sbNew
    cases sbNew
    rfl
  obtain ⟨kept, indexed⟩ := updateIndex_eq_ok accounts.db _ _ _ trx updated (by simp [isUpdate])
    (toLower request.target) (by simp [noLen])
  rw [isUpdate] at indexed
  obtain ⟨entries, _, others⟩ := committed_record writes unlogged
    (by simp [noRaise, Replay.keys]) kept
  refine ⟨entry, some entry, isApex, ⟨oldFound, isZone⟩, suffix, filled, keeps, ?_,
    by simpa using others, Or.inl ⟨rfl, (account_commit _ _ _).trans indexed⟩⟩
  intro name
  rw [entries, noRaise, apply_cons, apply_nil, Function.update_apply, data]
  simp only [entryAt_inj]
  by_cases here : name = toLower request.target
  · simp [here]
  · simp only [here, if_false]
    rfl

/-- A request for a name below its zone. -/
theorem Alone.recording_below (same : alone.existing.isSame = false) :
    ∃ raised new, Recording env.fuel accounts.db (accounts.commit trx).db request alone.apex alone.old
      raised new := by
  obtain ⟨apex, old, sb, method, change, raising, _, existing, isApex, suffix, filled, oldFound, isZone,
    name, _, isBelow, sbNew, received, changed, raises, writes, unlogged⟩ := alone
  dsimp only at same updated ⊢
  have below := isBelow same
  have plainZone := (filed.plain apex old oldFound).noDot
  rw [withoutDot_of_plain plainZone] at raises
  have storedOld := filed.stored apex old oldFound
  obtain ⟨needed, newEntries⟩ := changeOf_below sbNew received
    (fun dotted => plain.noDot (toLower_dotted dotted)) plain.noDot rfl same
    (fun entry isOld => filed.stored _ entry (name.trans isOld)) changed
  obtain ⟨raised, returned, isRaising⟩ : ∃ raised, raisedZone env.config apex old = .ok raised ∧
      raising = [(entryAt apex, some raised)] := by
    rcases raises with ⟨needless, _⟩ | ⟨_, raised, returned, isRaising⟩
    · cases needless.symm.trans needed
    · exact ⟨raised, returned, isRaising⟩
  obtain ⟨lower, isLen⟩ := apex_length storedOld isZone
  have keeps := raisedZone_keepsApex plainZone lower storedOld returned
  have sbLen : sb.zoneLen = apex.length := by
    obtain ⟨_, _, _, measured⟩ := newBuilder_eq_ok sbNew
    exact isLen _ (measured same)
  have positive : sb.zoneLen ≠ 0 := by
    rw [sbLen]
    simpa using filled
  have notApex : apex ≠ toLower request.target := by
    rintro rfl
    cases (below old (name.symm.trans oldFound)).symm.trans isZone
  have sameOld : entryOf accounts.db (toLower request.target) = existing.rr := name
  obtain ⟨kept, indexed⟩ := updateIndex_eq_ok accounts.db _ _ _ trx updated
    (fun empty => absurd empty positive) ((toLower request.target).take apex.length)
    (by rw [if_neg positive, sbLen])
  obtain ⟨entries, accountsKept, others⟩ := committed_record
    writes unlogged (by simp [isRaising, Replay.keys, entryAt]) kept
  rw [accountsKept] at indexed
  have atPlace := (account_commit accounts trx _).trans indexed
  refine ⟨raised, change.data, isApex, ⟨oldFound, isZone⟩, suffix, filled, keeps, ?_, others,
    Or.inr ⟨notApex, sameOld ▸ below, sameOld ▸ newEntries, ?_, ?_⟩⟩
  · intro name
    rw [entries, isRaising, apply_cons, apply_cons, apply_nil,
      Function.update_apply, Function.update_apply]
    simp only [entryAt_inj]
    rfl
  all_goals
    intro isData
    rw [atPlace]
    rcases needToUpdateZrr_cases changed with
      ⟨isUpdate, present⟩ | ⟨isUpdate, absent⟩ | ⟨isUpdate, present, wasPresent⟩
  · exact absurd isData present
  · rw [isUpdate]
  · exact absurd isData present
  · exact Or.inl (by rw [isUpdate])
  · exact absurd absent isData
  · exact Or.inr ⟨sameOld ▸ wasPresent, by rw [isUpdate]⟩

end alone

theorem onRecord_eq_ok {env : ZoneEnv} {accounts next : Accounts} {login : Login}
    {argument : Option Bytes} {request : RrRequest} (filed : Filed accounts.db)
    (plain : PlainName (toLower request.target))
    (recorded : onRecord env accounts ⟨login, argument, request⟩ = .ok next) :
    ∃ session tenant all indexing ops apex raised new,
      getSessionAndTenant env accounts.db login argument false = .ok (session, tenant, all) ∧
      (indexedRecord env.config session.toSession env.fuel request).exec accounts.db.entryContent =
        .ok (indexing, ops) ∧
      Recording env.fuel accounts.db next.db request indexing.zoneName apex raised new := by
  simp only [onRecord, bind_eq_ok] at recorded
  obtain ⟨⟨session, tenant, all⟩, isSession, ⟨indexing, ops⟩, ran, trx, updated, same⟩ := recorded
  cases same
  obtain ⟨runs, answered⟩ := (Program.exec_eq_ok _ _ _ _).mp ran
  obtain ⟨alone, isIndexing⟩ := record_runs runs answered (by
    intro name entry found
    rw [withoutDot_of_plain (filed.plain name entry found).noDot]
    exact filed.stored name entry found)
  rw [withoutDot_of_plain (filed.plain alone.apex alone.old alone.oldFound).noDot] at isIndexing
  subst isIndexing
  obtain ⟨raised, new, recording⟩ : ∃ raised new, Recording env.fuel accounts.db
      (accounts.commit trx).db request alone.apex alone.old raised new := by
    cases same : alone.existing.isSame with
    | true => exact alone.recording_same filed plain updated same
    | false => exact alone.recording_below filed plain updated same
  exact ⟨session, tenant, all, _, ops, alone.old, raised, new, isSession, ran, recording⟩

end recording

end RestApi

end Nsblast
