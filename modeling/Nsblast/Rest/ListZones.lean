import Nsblast.Library.Paging
import Nsblast.Rest.ListedOwners
import Nsblast.Store.Iteration

/-!
# Listing the zones of a tenant

`RestApi::listZones` walks over the keys of the account category that name the zones of a
tenant, or over those of all zones if the request is for all tenants, one page at a time.
A page names its first and its last zone, and the next page is asked for by the last one.
The keys of a tenant begin with its id and a slash, so they lie together, and the cursor of
the first page, which is the key of an empty name, stands in front of them.

So a client that goes on as long as there is more gets all zones, each once. The answers
are sorted by name within each page only. What the session may do is given.
-/

namespace Nsblast

open List RealKey OrderedMap Run

/-- `RealKey::getFirstAndSecondStr`. -/
def RealKey.getFirstAndSecondStr (key : Key) : List UInt8 × List UInt8 :=
  let bytes := key.drop 1
  if 0x2F ∈ bytes then
    (bytes.takeWhile (· != 0x2F), (bytes.dropWhile (· != 0x2F)).drop 1)
  else ([], [])

namespace RestApi

open AuthMgr

/-- An element of the list: the name of a zone, with its tenant if all are listed. -/
inductive ListedZone where
  | zone (fqdn : Name)
  | owned (fqdn : Name) (tenant : Bytes)
  deriving DecidableEq

def ListedZone.fqdn : ListedZone → Name
  | zone fqdn => fqdn
  | owned fqdn _ => fqdn

/-- The comparison of `sort_json`. -/
abbrev zoneLess (first second : ListedZone) : Bool := compare first.fqdn second.fqdn == .lt

structure ZonesEnv extends ListEnv where
  zones : Sorter zoneLess

/-- A session, and what `isAllowed` without a name answers for the list of zones. -/
structure Lister extends Login where
  mayListZones : Bool

/-- The reply. -/
structure ZonePage where
  more : Bool
  limit : Nat
  kfirst : Name
  klast : Name
  value : List ListedZone

/-- What the iteration collects. -/
structure ZoneListing where
  list : List ListedZone := []
  count : Nat := 0
  more : Bool := false

/-- The function that `listZones` passes to the iteration. -/
def onZoneKey (all : Bool) (tenantId : Bytes) (pageSize : Nat) (key : Key) (value : Value)
    (listing : ZoneListing) : Run (Bool × ZoneListing) := do
  let (zone, ztenant) ←
    if all then
      match value with
      | .zone zone => .ok (nameOf key, zone.tenantId)
      | _ => refuse 500 "Internal Server Error - failed to deserialize object"
    else
      let (ztenant, zone) := getFirstAndSecondStr key
      .ok (zone, ztenant)
  if !all && !compareCaseInsensitive tenantId ztenant then .ok (false, listing)
  else
    let count := listing.count + 1
    if count > pageSize then .ok (false, { listing with count, more := true })
    else
      .ok (true, { listing with
        count
        list := listing.list ++ [if all then .owned zone ztenant else .zone zone] })

/-- The key from which the iteration begins. -/
def zonesFrom (all : Bool) (tenantId : Bytes) (start : Name) : Key :=
  if all then zoneKey start else tzoneKey tenantId start

/-- The direction, which is only asked for if the list does not begin at its start. -/
def getZonesDirection (query : ListQuery) : Run Bool :=
  if query.start = [] then .ok true
  else do
    let forward ← getDirection query.direction
    throwIf (!validateFqdn query.start) "400 Invalid fqdn in 'from' argument"
    .ok forward

/-- `RestApi::listZones`. -/
def listZones (env : ZonesEnv) (db : Db Value) (lister : Lister) (argument : Option Bytes)
    (query : ListQuery) : Run ZonePage := do
  let (_, tenant, all) ← getSessionAndTenant env.toZoneEnv db lister.toLogin argument true
  let tenantId := tenant.id.getD []
  throwIf (!lister.mayListZones) "403 Access Denied"
  let pageSize ← getPageSize env.toListEnv query.limit
  let forward ← getZonesDirection query
  let listing ← iterateFromPrevT (db.families .account) (zonesFrom all tenantId query.start)
    (onZoneKey all tenantId pageSize) true forward {}
  let (kfirst, klast) := getKeys (listing.list.map fun zone => .name zone.fqdn) forward
  .ok ⟨listing.more, pageSize, kfirst, klast, env.zones.sort listing.list⟩

variable {item : Key × Value}

section keys

/-- The key is one of the tenant, if there is one. -/
def isOwn (all : Bool) (tenantId : Bytes) (key : Key) : Bool :=
  all || compareCaseInsensitive tenantId (getFirstAndSecondStr key).1

/-- What is shown of a key. -/
def shownZone (all : Bool) (item : Key × Value) : ListedZone :=
  if all then
    .owned (nameOf item.1) (match item.2 with
      | .zone zone => zone.tenantId
      | _ => [])
  else .zone (getFirstAndSecondStr item.1).2

/-- The keys of zones in the account category. Their names are valid, and a tenant has no
slash in its id. -/
structure ZoneKeys (account : ColumnFamily Value) : Prop where
  zones : ∀ key value, account[key]? = some value → isSameKeyClass (zoneKey []) key = true →
    ∃ fqdn zone, validateFqdn fqdn = true ∧ key = zoneKey fqdn ∧ value = .zone zone
  tzones : ∀ key value, account[key]? = some value →
    isSameKeyClass (tzoneKey [] []) key = true →
    ∃ tenant fqdn, 0x2F ∉ tenant ∧ validateFqdn fqdn = true ∧ key = tzoneKey tenant fqdn

/-- The id of a tenant whose zones are listed is in lower case and has no slash. -/
def PlainId (all : Bool) (tenantId : Bytes) : Prop :=
  all = false → Name.toLower tenantId = tenantId ∧ 0x2F ∉ tenantId

theorem zoneKey_eq (fqdn : Name) : zoneKey fqdn = 5 :: fqdn.reverse := by
  simp [zoneKey, RealKey.init, isReversed, RealKey.Class.toByte]

theorem tzoneKey_eq (tenant : Bytes) (fqdn : Name) :
    tzoneKey tenant fqdn = 6 :: (tenant ++ 0x2F :: fqdn) := by
  simp [tzoneKey, RealKey.init, isReversed, RealKey.Class.toByte]

theorem nameOf_zoneKey (fqdn : Name) : nameOf (zoneKey fqdn) = fqdn := by
  rw [zoneKey_eq, nameOf, tail_cons, reverse_reverse]

theorem getFirstAndSecondStr_tzoneKey {tenant : Bytes} (fqdn : Name) (noSlash : 0x2F ∉ tenant) :
    getFirstAndSecondStr (tzoneKey tenant fqdn) = (tenant, fqdn) := by
  have passes : ∀ byte ∈ tenant, (byte != 0x2F) = true := by
    intro byte member
    rw [bne_iff_ne]
    rintro rfl
    exact noSlash member
  have stops : ¬ ((0x2F : UInt8) != 0x2F) = true := by decide
  have first : (tenant ++ 0x2F :: fqdn).takeWhile (· != 0x2F) = tenant := by
    rw [takeWhile_append_of_pos passes, takeWhile_cons_of_neg (by exact stops),
      append_nil]
  have second : (tenant ++ 0x2F :: fqdn).dropWhile (· != 0x2F) = 0x2F :: fqdn := by
    rw [dropWhile_append_of_pos passes, dropWhile_cons_of_neg (by exact stops)]
  rw [getFirstAndSecondStr, tzoneKey_eq, drop_one, tail_cons,
    if_pos (mem_append_right _ mem_cons_self), first, second, drop_one, tail_cons]

theorem isSameKeyClass_zonesFrom (all : Bool) (tenantId : Bytes) (start : Name) (key : Key) :
    isSameKeyClass (zonesFrom all tenantId start) key =
      isSameKeyClass (zonesFrom all [] []) key := by
  cases all with
  | true =>
    rw [zonesFrom, zonesFrom, if_pos rfl, if_pos rfl, zoneKey_eq, zoneKey_eq]
    cases key <;> rfl
  | false =>
    rw [zonesFrom, zonesFrom, if_neg Bool.false_ne_true, if_neg Bool.false_ne_true, tzoneKey_eq,
      tzoneKey_eq]
    cases key <;> rfl

/-- A letter comes before its lower case. -/
theorem lowerByte_cases (byte : UInt8) :
    Name.lowerByte byte = byte ∨ compare byte (Name.lowerByte byte) = .lt := by
  rw [Name.lowerByte]
  split
  · rename_i upper
    right
    rw [Std.compare_eq_lt, UInt8.lt_iff_toNat_lt, UInt8.toNat_add]
    simp only [UInt8.le_iff_toNat_le, UInt8.reduceToNat] at upper ⊢
    omega
  · exact .inl rfl

/-- What has an id in another case comes before all that has it in lower case. -/
theorem compare_other_case {own lower : Bytes} (left right : List UInt8)
    (isLower : Name.toLower own = lower) (differs : own ≠ lower) :
    compare (own ++ left) (lower ++ right) = .lt := by
  induction own generalizing lower with
  | nil => exact absurd isLower differs
  | cons byte rest ih =>
    subst isLower
    have self : compare byte byte = .eq := Std.ReflCmp.compare_self
    rw [Name.toLower, List.map_cons, List.cons_append, List.cons_append, List.compare_cons_cons]
    rcases lowerByte_cases byte with same | less
    · rw [same, self, Ordering.eq_then]
      refine ih rfl fun sameRest => differs ?_
      rw [Name.toLower, List.map_cons, same]
      exact congrArg (byte :: ·) sameRest
    · rw [less, Ordering.lt_then]

variable {account : ColumnFamily Value} (zoneKeys : ZoneKeys account) {tenantId : Bytes}
include zoneKeys

/-- A key of the tenant behind the cursor has the id as it is in the cursor. -/
theorem tzone_of_isOwn (isLower : Name.toLower tenantId = tenantId) {start : Name}
    (behind : item ∈ OrderedMap.above account (tzoneKey tenantId start))
    (sameClass : isSameKeyClass (tzoneKey [] []) item.1 = true)
    (own : isOwn false tenantId item.1 = true) :
    ∃ fqdn, validateFqdn fqdn = true ∧ item.1 = tzoneKey tenantId fqdn ∧
      (getFirstAndSecondStr item.1).2 = fqdn := by
  obtain ⟨stored, above⟩ := (mem_above _ _ _).mp behind
  obtain ⟨tenant, fqdn, plain, valid, isKey⟩ := zoneKeys.tzones item.1 item.2 stored sameClass
  have parts := getFirstAndSecondStr_tzoneKey fqdn plain
  rw [isOwn, Bool.false_or, isKey, parts, compareCaseInsensitive_iff, isLower] at own
  have same : tenant = tenantId := by
    by_contra differs
    have less := compare_other_case (0x2F :: fqdn) (0x2F :: start) own.symm differs
    have self : compare (6 : UInt8) 6 = .eq := Std.ReflCmp.compare_self
    rw [isKey, tzoneKey_eq, tzoneKey_eq, List.compare_cons_cons, self, Ordering.eq_then,
      Std.OrientedCmp.gt_of_lt less] at above
    cases above
  subst same
  exact ⟨fqdn, valid, isKey, by rw [isKey, parts]⟩

/-- The keys that are listed come first behind the cursor. -/
theorem listed_first {all : Bool} (plain : PlainId all tenantId) (start : Name) :
    (OrderedMap.above account (zonesFrom all tenantId start)).Pairwise fun earlier later =>
      (isSameKeyClass (zonesFrom all tenantId start) later.1 && isOwn all tenantId later.1) = true →
      (isSameKeyClass (zonesFrom all tenantId start) earlier.1 &&
        isOwn all tenantId earlier.1) = true := by
  have classFirst := above_class_first account (zonesFrom all tenantId start)
  cases all with
  | true => simpa [isOwn] using classFirst
  | false =>
    obtain ⟨isLower, noSlash⟩ := plain rfl
    have sorted : (OrderedMap.above account (zonesFrom false tenantId start)).Pairwise
        (OrderedMap.Before compare) := (before_sorted account).filter _
    apply List.Pairwise.imp_of_mem _ (classFirst.and sorted)
    rintro earlier later isEarlier isLater ⟨sameClass, before⟩ passes
    rw [Bool.and_eq_true] at passes
    have ofEarlier := sameClass passes.1
    have classes := isSameKeyClass_zonesFrom false tenantId start
    obtain ⟨fqdn, _, isKey, _⟩ := tzone_of_isOwn zoneKeys isLower isLater
      (by rw [← passes.1, classes]; rfl) passes.2
    have above := ((mem_above _ _ _).mp isEarlier).2
    -- What lies between two keys with the id and a slash in front has them too.
    have prefixed : ∀ fqdn : Name, 6 :: (tenantId ++ [0x2F]) <+: tzoneKey tenantId fqdn := by
      intro fqdn
      rw [tzoneKey_eq]
      exact ⟨fqdn, by simp⟩
    have atCursor : (compare (6 :: (tenantId ++ [0x2F])) earlier.1).isLE :=
      Std.TransCmp.isLE_trans (Lexicographic.le_of_prefix _ _ (prefixed start))
        (isLE_of_lt above)
    have between := Lexicographic.prefix_of_between
      (by rw [isKey]; exact prefixed fqdn) atCursor (isLE_of_lt before)
    obtain ⟨rest, isRest⟩ := between
    have isOwnKey : earlier.1 = tzoneKey tenantId rest := by
      rw [← isRest, tzoneKey_eq]
      simp
    rw [Bool.and_eq_true, isOwn, Bool.false_or, isOwnKey,
      getFirstAndSecondStr_tzoneKey rest noSlash, compareCaseInsensitive_iff, ← isOwnKey]
    exact ⟨ofEarlier, rfl⟩

end keys

section pages

variable (all : Bool) (tenantId : Bytes)

/-- One call for a key whose value can be read. -/
theorem onZoneKey_eq (pageSize : Nat) (listing : ZoneListing)
    (readable : all = true → ∃ zone, item.2 = .zone zone) :
    onZoneKey all tenantId pageSize item.1 item.2 listing =
      if !isOwn all tenantId item.1 then .ok (false, listing)
      else if listing.count + 1 > pageSize then
        .ok (false, { listing with count := listing.count + 1, more := true })
      else .ok (true, { listing with
        count := listing.count + 1
        list := listing.list ++ [shownZone all item] }) := by
  cases all with
  | true =>
    obtain ⟨zone, isZone⟩ := readable rfl
    simp [onZoneKey, isZone, isOwn, shownZone]
  | false => simp [onZoneKey, isOwn, shownZone]

/-- The whole iteration: the keys of the tenant are listed up to the size of the page, and if
there is one more, that is noted. -/
theorem iterateWhile_zones (pageSize : Nat) (cursor : Key) (items : List (Key × Value))
    (same : ∀ item ∈ items, isSameKeyClass cursor item.1 = true)
    (readable : all = true → ∀ item ∈ items, ∃ zone, item.2 = .zone zone)
    (listing : ZoneListing) (room : listing.count ≤ pageSize) (noMore : listing.more = false) :
    ∃ count, iterateWhile cursor (onZoneKey all tenantId pageSize) items listing =
      .ok ⟨listing.list ++ ((items.takeWhile fun item => isOwn all tenantId item.1).take
          (pageSize - listing.count)).map (shownZone all), count,
        decide (pageSize - listing.count <
          (items.takeWhile fun item => isOwn all tenantId item.1).length)⟩ := by
  induction items generalizing listing with
  | nil =>
    refine ⟨listing.count, ?_⟩
    simp [iterateWhile, ← noMore]
  | cons item rest ih =>
    rw [iterateWhile, if_pos (same item mem_cons_self),
      onZoneKey_eq all tenantId pageSize listing fun isAll => readable isAll item mem_cons_self]
    by_cases own : isOwn all tenantId item.1 = true
    · rw [takeWhile_cons_of_pos (by exact own)]
      by_cases full : listing.count + 1 > pageSize
      · have none : pageSize - listing.count = 0 := by omega
        refine ⟨listing.count + 1, ?_⟩
        simp [own, full, none]
      · obtain ⟨count, later⟩ := ih (fun other member => same other (mem_cons_of_mem _ member))
          (fun isAll other member => readable isAll other (mem_cons_of_mem _ member))
          { listing with count := listing.count + 1, list := listing.list ++ [shownZone all item] }
          (by simp only; omega) noMore
        have one : pageSize - listing.count = pageSize - (listing.count + 1) + 1 := by omega
        refine ⟨count, ?_⟩
        simp [own, full, later, one]
    · refine ⟨listing.count, ?_⟩
      rw [takeWhile_cons_of_neg (by exact own)]
      simp [own, ← noMore]

end pages

section exact

variable {env : ZonesEnv} {db : Db Value} {lister : Lister} {argument : Option Bytes}
  {query : ListQuery} {session : Login} {tenant : Pb.Tenant} {all : Bool} {pageSize : Nat}

/-- A request that is answered, page by page in forward direction. -/
structure Answers (env : ZonesEnv) (db : Db Value) (lister : Lister) (argument : Option Bytes)
    (query : ListQuery) (session : Login) (tenant : Pb.Tenant) (all : Bool) (pageSize : Nat) :
    Prop where
  session : getSessionAndTenant env.toZoneEnv db lister.toLogin argument true = .ok (session, tenant, all)
  allowed : lister.mayListZones = true
  limit : getPageSize env.toListEnv query.limit = .ok pageSize
  forward : getDirection query.direction = .ok true

/-- The keys that are listed from a name on. -/
def listedFrom (db : Db Value) (all : Bool) (tenantId : Bytes) (start : Name) :
    List (Key × Value) :=
  (OrderedMap.above (db.families .account) (zonesFrom all tenantId start)).filter fun item =>
    isSameKeyClass (zonesFrom all tenantId start) item.1 && isOwn all tenantId item.1

/-- One page. -/
theorem listZones_eq (answers : Answers env db lister argument query session tenant all pageSize)
    (zoneKeys : ZoneKeys (db.families .account)) (plain : PlainId all (tenant.id.getD []))
    {start : Name} (valid : start = [] ∨ validateFqdn start = true) :
    let list := ((listedFrom db all (tenant.id.getD []) start).take pageSize).map (shownZone all)
    listZones env db lister argument { query with start } = .ok ⟨
      decide (pageSize < (listedFrom db all (tenant.id.getD []) start).length), pageSize,
      (getKeys (list.map fun zone => .name zone.fqdn) true).1,
      (getKeys (list.map fun zone => .name zone.fqdn) true).2, env.zones.sort list⟩ := by
  intro list
  have direction : getZonesDirection { query with start } = .ok true := by
    rw [getZonesDirection]
    split
    · rfl
    · rename_i given
      rw [answers.forward, bind_ok, valid.resolve_left given]
      rfl
  have readable : all = true → ∀ item ∈ (OrderedMap.above (db.families .account)
      (zonesFrom all (tenant.id.getD []) start)).takeWhile (fun item =>
        isSameKeyClass (zonesFrom all (tenant.id.getD []) start) item.1),
      ∃ zone, item.2 = .zone zone := by
    rintro rfl item member
    have sameClass := mem_takeWhile_imp
      (p := fun item : Key × Value =>
        isSameKeyClass (zonesFrom true (tenant.id.getD []) start) item.1) member
    have stored := ((mem_above _ _ _).mp ((List.takeWhile_prefix _).subset member)).1
    rw [isSameKeyClass_zonesFrom] at sameClass
    obtain ⟨_, zone, _, _, isZone⟩ := zoneKeys.zones item.1 item.2 stored sameClass
    exact ⟨zone, isZone⟩
  obtain ⟨count, iterated⟩ := iterateWhile_zones all (tenant.id.getD []) pageSize
    (zonesFrom all (tenant.id.getD []) start) _
    (fun item member => mem_takeWhile_imp (p := fun item : Key × Value =>
      isSameKeyClass (zonesFrom all (tenant.id.getD []) start) item.1) member) readable {}
    (Nat.zero_le _) rfl
  have filtered := takeWhile_eq_filter _ (listed_first zoneKeys plain start)
  have both : ((OrderedMap.above (db.families .account) (zonesFrom all (tenant.id.getD []) start)).takeWhile
      fun item => isSameKeyClass (zonesFrom all (tenant.id.getD []) start) item.1).takeWhile
        (fun item => isOwn all (tenant.id.getD []) item.1) =
      listedFrom db all (tenant.id.getD []) start := by
    rw [listedFrom, ← filtered, takeWhile_takeWhile]
    congr 1
    funext item
    rw [Bool.decide_and, Bool.decide_eq_true, Bool.decide_eq_true, Bool.and_comm]
  rw [iterateWhile_takeWhile, both] at iterated
  rw [listZones, answers.session, bind_ok]
  simp only [answers.allowed, Bool.not_true, throwIf, Bool.false_eq_true, if_false, bind_ok,
    answers.limit, direction, iterateFromPrevT, fromPrev_forward]
  rw [iterated, bind_ok]
  rfl

/-- A zone that is to be listed. -/
def IsListed (db : Db Value) (all : Bool) (tenantId : Bytes) : ListedZone → Prop
  | .zone fqdn => all = false ∧ tzoneKey tenantId fqdn ∈ db.families .account
  | .owned fqdn owner => all = true ∧ ∃ zone : Pb.Zone,
      (db.families .account)[zoneKey fqdn]? = some (.zone zone) ∧ zone.tenantId = owner

theorem validateFqdn_nil : validateFqdn [] = false := by decide

/-- The first cursor stands in front of all names. -/
theorem zonesFrom_nil_lt (all : Bool) (tenantId : Bytes) {fqdn : Name} (filled : fqdn ≠ []) :
    compare (zonesFrom all tenantId []) (zonesFrom all tenantId fqdn) = .lt := by
  have shorter : zonesFrom all tenantId [] <+: zonesFrom all tenantId fqdn := by
    cases all with
    | true => simp [zonesFrom, zoneKey_eq]
    | false => simp [zonesFrom, tzoneKey_eq, prefix_append_right_inj]
  have atMost := Lexicographic.le_of_prefix _ _ shorter
  cases order : compare (zonesFrom all tenantId []) (zonesFrom all tenantId fqdn) with
  | lt => rfl
  | gt =>
    rw [order] at atMost
    cases atMost
  | eq =>
    have same := Std.LawfulEqCmp.eq_of_compare order
    cases all with
    | true =>
      simp only [zonesFrom, if_true, zoneKey_eq, reverse_nil, List.cons.injEq, true_and,
        nil_eq, reverse_eq_nil_iff] at same
      exact absurd same filled
    | false =>
      simp only [zonesFrom, Bool.false_eq_true, if_false, tzoneKey_eq, List.cons.injEq, true_and,
        append_cancel_left_eq, nil_eq] at same
      exact absurd same filled

variable (zoneKeys : ZoneKeys (db.families .account)) {tenantId : Bytes}
  (plain : PlainId all tenantId)
include zoneKeys plain

/-- What is listed is a stored zone, and its key is found again from its name. -/
theorem mem_listedFrom {start : Name} {item : Key × Value}
    (member : item ∈ listedFrom db all tenantId start) :
    validateFqdn (shownZone all item).fqdn = true ∧
      item.1 = zonesFrom all tenantId (shownZone all item).fqdn ∧
      IsListed db all tenantId (shownZone all item) := by
  rw [listedFrom, mem_filter, Bool.and_eq_true, isSameKeyClass_zonesFrom] at member
  obtain ⟨behind, sameClass, own⟩ := member
  have stored := ((mem_above _ _ _).mp behind).1
  cases all with
  | true =>
    obtain ⟨fqdn, zone, valid, isKey, isZone⟩ := zoneKeys.zones item.1 item.2 stored sameClass
    have shown : shownZone true item = .owned fqdn zone.tenantId := by
      rw [shownZone, if_pos rfl, isKey, nameOf_zoneKey, isZone]
    rw [isKey, isZone] at stored
    rw [shown]
    exact ⟨valid, isKey, rfl, zone, stored, rfl⟩
  | false =>
    obtain ⟨fqdn, valid, isKey, isSecond⟩ := tzone_of_isOwn zoneKeys (plain rfl).1 behind
      sameClass own
    have shown : shownZone false item = .zone fqdn := by
      rw [shownZone, if_neg Bool.false_ne_true, isSecond]
    rw [isKey] at stored
    rw [shown]
    refine ⟨valid, isKey, rfl, ?_⟩
    rw [← Std.ExtTreeMap.isSome_getElem?_iff_mem, stored]
    rfl

/-- From the beginning, every zone is listed. -/
theorem exists_listed {zone : ListedZone} (isListed : IsListed db all tenantId zone) :
    ∃ item ∈ listedFrom db all tenantId [], shownZone all item = zone := by
  have behind : ∀ key value, (db.families .account)[key]? = some value →
      ∀ fqdn, validateFqdn fqdn = true → key = zonesFrom all tenantId fqdn →
      isOwn all tenantId key = true → (key, value) ∈ listedFrom db all tenantId [] := by
    intro key value stored fqdn valid isKey own
    have filled : fqdn ≠ [] := by
      rintro rfl
      cases valid
    rw [listedFrom, mem_filter, mem_above, Bool.and_eq_true]
    refine ⟨⟨stored, ?_⟩, ?_, own⟩
    · rw [isKey]
      exact zonesFrom_nil_lt all tenantId filled
    · rw [isKey, isSameKeyClass_zonesFrom, isSameKeyClass_comm, isSameKeyClass_zonesFrom]
      cases all <;> rfl
  cases zone with
  | zone fqdn =>
    obtain ⟨rfl, present⟩ := isListed
    obtain ⟨value, stored⟩ :=
      Option.isSome_iff_exists.mp (Std.ExtTreeMap.isSome_getElem?_iff_mem.mpr present)
    obtain ⟨tenant, other, noSlash, valid, isKey⟩ := zoneKeys.tzones _ value stored (by
      rw [tzoneKey_eq, tzoneKey_eq]
      rfl)
    have parts := getFirstAndSecondStr_tzoneKey fqdn (plain rfl).2
    have sameParts := parts
    rw [isKey, getFirstAndSecondStr_tzoneKey other noSlash] at sameParts
    cases sameParts
    refine ⟨_, behind _ value stored fqdn valid rfl ?_, ?_⟩
    · rw [isOwn, Bool.false_or, parts, compareCaseInsensitive_iff]
    · rw [shownZone, if_neg Bool.false_ne_true, parts]
  | owned fqdn owner =>
    obtain ⟨rfl, zone, stored, rfl⟩ := isListed
    obtain ⟨other, _, valid, isKey, _⟩ := zoneKeys.zones _ _ stored (by
      rw [zoneKey_eq, zoneKey_eq]
      rfl)
    have same := congrArg nameOf isKey
    rw [nameOf_zoneKey, nameOf_zoneKey] at same
    subst same
    refine ⟨_, behind _ _ stored fqdn valid rfl rfl, ?_⟩
    rw [shownZone, if_pos rfl, nameOf_zoneKey]

/-- No name is listed twice. -/
theorem listed_nodup (start : Name) :
    ((listedFrom db all tenantId start).map fun item => (shownZone all item).fqdn).Nodup := by
  have sorted : (listedFrom db all tenantId start).Pairwise (OrderedMap.Before compare) :=
    ((before_sorted _).filter _).filter _
  rw [List.Nodup, pairwise_map]
  apply List.Pairwise.imp_of_mem _ sorted
  intro first second isFirst isSecond before same
  have sameKey : first.1 = second.1 := by
    rw [(mem_listedFrom zoneKeys plain isFirst).2.1,
      (mem_listedFrom zoneKeys plain isSecond).2.1, same]
  rw [OrderedMap.Before, sameKey, Std.ReflOrd.compare_self] at before
  cases before

/-- Behind the last zone of a page, the rest is listed. -/
theorem listedFrom_behind {start : Name} {before after : List (Key × Value)}
    (parts : listedFrom db all tenantId start = before ++ item :: after) :
    listedFrom db all tenantId (shownZone all item).fqdn = after := by
  have member : item ∈ listedFrom db all tenantId start := by
    rw [parts]
    simp
  obtain ⟨_, isKey, _⟩ := mem_listedFrom zoneKeys plain member
  have behind := above_filter_behind _ parts
  simp only [isSameKeyClass_zonesFrom all tenantId start] at behind
  rw [listedFrom]
  simp only [isSameKeyClass_zonesFrom all tenantId (shownZone all item).fqdn]
  rw [← isKey]
  exact behind

end exact

/-- Fetching the list of zones from its beginning, and then from the last zone of each page as
long as there is more, comes to an end and shows every zone of the tenant, or of all tenants,
exactly once and nothing else; all pages but the last are full, and only the last says that
there is no more. -/
theorem listZones_pages_exact (env : ZonesEnv) (db : Db Value) (lister : Lister)
    (argument : Option Bytes) (query : ListQuery) (session : Login) (tenant : Pb.Tenant)
    (all : Bool) (pageSize : Nat)
    (answers : Answers env db lister argument query session tenant all pageSize)
    (zoneKeys : ZoneKeys (db.families .account)) (plain : PlainId all (tenant.id.getD []))
    (positive : 0 < pageSize) :
    ∃ pages zones,
      Paging.Fetched (fun start => listZones env db lister argument { query with start })
        ZonePage.more ZonePage.klast [] pages ∧
      (∀ zone, zone ∈ zones ↔ IsListed db all (tenant.id.getD []) zone) ∧
      (zones.map ListedZone.fqdn).Nodup ∧
      Paging.Complete ZonePage.value zones pageSize pages ∧
      ∃ front last, pages = front ++ [last] ∧ last.more = false ∧ ∀ page ∈ front, page.more = true := by
  have advances : ∀ (start : Name) (left : List ListedZone),
      ((start = [] ∨ validateFqdn start = true) ∧
        left = (listedFrom db all (tenant.id.getD []) start).map (shownZone all)) →
      ∃ page, Paging.Advances (fun start => listZones env db lister argument { query with start })
        ZonePage.more ZonePage.klast ZonePage.value pageSize
        (fun start left => (start = [] ∨ validateFqdn start = true) ∧
          left = (listedFrom db all (tenant.id.getD []) start).map (shownZone all)) start left page := by
    rintro start left ⟨valid, rfl⟩
    refine ⟨_, listZones_eq answers zoneKeys plain valid, ?_, ?_, ?_⟩
    · rw [← map_take]
      exact env.zones.perm _
    · simp
    · intro goesOn
      rw [length_map] at goesOn
      -- The last zone of the page is the one in front of what is left.
      obtain ⟨before, item, after, parts, count⟩ : ∃ before item after,
          listedFrom db all (tenant.id.getD []) start = before ++ item :: after ∧
          before.length + 1 = pageSize := by
        refine ⟨(listedFrom db all (tenant.id.getD []) start).take (pageSize - 1),
          (listedFrom db all (tenant.id.getD []) start)[pageSize - 1],
          (listedFrom db all (tenant.id.getD []) start).drop pageSize, ?_, ?_⟩
        · conv_lhs => rw [← take_append_drop (pageSize - 1)
            (listedFrom db all (tenant.id.getD []) start)]
          rw [drop_eq_getElem_cons (by omega), Nat.sub_add_cancel positive]
        · rw [length_take]
          omega
      have page : (before ++ item :: after).take pageSize = before ++ [item] := by
        rw [← count, take_append, take_of_length_le (by omega)]
        simp
      have rest : (before ++ item :: after).drop pageSize = after := by
        rw [← count, drop_append, drop_of_length_le (by omega)]
        simp
      have behind := listedFrom_behind zoneKeys plain parts
      have member : item ∈ listedFrom db all (tenant.id.getD []) start := by
        rw [parts]
        simp
      have isLast : (getKeys ((((listedFrom db all (tenant.id.getD []) start).take pageSize).map
          (shownZone all)).map fun zone => .name zone.fqdn) true).2 = (shownZone all item).fqdn := by
        rw [parts, page, getKeys, map_append, map_append]
        simp only [List.map_cons, map_nil, getLast?_concat]
        cases before <;> rfl
      rw [← map_drop, isLast, behind, parts, rest]
      exact ⟨.inr (mem_listedFrom zoneKeys plain member).1, rfl⟩
  obtain ⟨pages, fetched, complete⟩ := Paging.fetched_complete positive advances ⟨.inl rfl, rfl⟩
  refine ⟨pages, _, fetched, ?_, ?_, complete, fetched.flags⟩
  · intro zone
    rw [mem_map]
    constructor
    · rintro ⟨item, member, rfl⟩
      exact (mem_listedFrom zoneKeys plain member).2.2
    · intro isListed
      exact exists_listed zoneKeys plain isListed
  · rw [map_map]
    exact listed_nodup zoneKeys plain []

/-- A store in which a tenant has the zones `b` and `c.d`. -/
def twoZones : Db Value where
  families := fun
    | .account => (((∅ : ColumnFamily Value).insert (tenantKey firstId)
          (.tenant ⟨some firstId, none, none, none, [], [], []⟩))
        |>.insert (tzoneKey firstId [0x62]) (.text []))
        |>.insert (tzoneKey firstId [0x63, 0x2E, 0x64]) (.text [])
    | _ => ∅
  trxlog := ∅

theorem zoneKeys_twoZones : ZoneKeys (twoZones.families .account) := by
  have stored : ∀ key value, (twoZones.families .account)[key]? = some value →
      key = tenantKey firstId ∨ key = tzoneKey firstId [0x62] ∨
        key = tzoneKey firstId [0x63, 0x2E, 0x64] := by
    intro key value found
    simp only [twoZones, Std.ExtTreeMap.getElem?_insert, Std.ExtTreeMap.getElem?_empty,
      Std.LawfulEqCmp.compare_eq_iff_eq] at found
    grind
  constructor
  · intro key value found ofClass
    rcases stored key value found with rfl | rfl | rfl <;> exact absurd ofClass (by decide)
  · intro key value found ofClass
    rcases stored key value found with rfl | rfl | rfl
    · exact absurd ofClass (by decide)
    · exact ⟨firstId, [0x62], by decide, by decide, rfl⟩
    · exact ⟨firstId, [0x63, 0x2E, 0x64], by decide, by decide, rfl⟩

/-- Requests for pages of one zone. -/
def onePerPage : ZonesEnv :=
  { sampleList with
    restDefaultPageSize := 1
    zones := Sorter.byKey compare ListedZone.fqdn }

/-- The two zones are listed on two pages. -/
theorem twoZones_listed :
    ∃ pages zones,
      Paging.Fetched (fun start => listZones onePerPage twoZones ⟨loginOf 0x31, true⟩ none
        { firstPage with start }) ZonePage.more ZonePage.klast [] pages ∧
      (∀ zone, zone ∈ zones ↔ IsListed twoZones false firstId zone) ∧
      (zones.map ListedZone.fqdn).Nodup ∧
      Paging.Complete ZonePage.value zones 1 pages ∧
      ∃ front last, pages = front ++ [last] ∧ last.more = false ∧ ∀ page ∈ front, page.more = true :=
  listZones_pages_exact onePerPage twoZones ⟨loginOf 0x31, true⟩ none firstPage (loginOf 0x31)
    ⟨some firstId, none, none, none, [], [], []⟩ false 1 ⟨rfl, rfl, rfl, rfl⟩ zoneKeys_twoZones
    (fun _ => ⟨by decide, by decide⟩) (by decide)

end RestApi

end Nsblast
