import Nsblast.Rest.Difference

/-!
# Changing the records of a name

`RestApi::onResourceRecord` looks up the entry of a name and the entry of its zone,
computes the new entry, writes it, writes the entry of the zone with the next
serial, and stores the difference. Everything the request reads and writes goes
through one transaction; a request that is refused, or that fails, commits nothing.

A body is modelled by the records its handlers create, in the order they create
them. Reading the body, the tenant's index of names and the notification of slave
servers are left out, as is `GET`, which changes nothing. The target of an SRV
record is read by a function that is given.
-/

namespace Nsblast.RestApi

/-- The permissions a request is checked for. -/
inductive Permission where
  | createRr
  | updateRr
  | deleteRr
  | createZone
  | deleteZone
  | readZone
  deriving DecidableEq, Repr

structure Session where
  tenantId : Uuid
  isAllowed : Permission → Name → Bool

/-- The options a request reads, and what the code takes from elsewhere. -/
structure Config where
  dnsEnableIxfr : Bool
  dnsValidateSrvTargetsLocally : Bool
  defaultTtl : UInt32
  srvTarget : Entry → StoredRr → Run Name
  index : Sorter indexLess
  items : Sorter itemLess

/-- A record of a body, as it is passed to `createRr`. The data of a SOA has two
names and five numbers. -/
structure NewRr where
  type : UInt16
  rdata : List UInt8
  wide : type = RrType.soa → minRrLen ≤ rdata.length

structure JsonBody where
  ttl : Option UInt32
  rrs : List NewRr

/-- The request, with its body in one of its forms: as it was received, or built.
A deletion may be restricted to some types. -/
inductive Method (β : Type) where
  | post (body : β)
  | put (body : β)
  | patch (body : β) (append : Bool)
  | delete (filter : Option (List UInt16))

namespace Method

variable {β γ : Type}

def body : Method β → Option β
  | post body => some body
  | put body => some body
  | patch body _ => some body
  | delete _ => none

/-- Building the body of a request that has one. -/
def mapM (f : β → Run γ) : Method β → Run (Method γ)
  | post body => do
      let built ← f body
      .ok (post built)
  | put body => do
      let built ← f body
      .ok (put built)
  | patch body append => do
      let built ← f body
      .ok (patch built append)
  | delete filter => .ok (delete filter)

/-- Requests that are not meant for the entry of a zone. -/
def createsOrDeletes : Method β → Bool
  | post _ => true
  | delete _ => true
  | _ => false

end Method

structure RrRequest where
  target : Name
  method : Method JsonBody

/-- An error reply. The transaction is given up. -/
def refuse {α : Type} (code : Nat) (message : String) : Run α :=
  .thrown (toString code ++ " " ++ message)

/-- `RrAndSoa`. -/
structure RrAndSoa where
  rr : Option Entry
  zone : Option Entry

namespace RrAndSoa

/-- `soa()`. -/
def soa (found : RrAndSoa) : Option Entry :=
  match found.zone with
  | none => found.rr
  | some entry => some entry

def isSame (found : RrAndSoa) : Bool := found.zone.isNone && found.rr.isSome

def hasRr (found : RrAndSoa) : Bool := found.rr.isSome

end RrAndSoa

section lookup

/-- What follows the first dot. -/
def behindDot (key : Name) : Name := (key.dropWhile fun ch => ch != 0x2E).drop 1

/-- The loop of `lookupEntryAndSoa`. -/
def lookupFrom : Nat → Bool → Option Entry → Name → Trx RrAndSoa
  | 0, _, _, _ => .done .outOfFuel
  | fuel + 1, first, rr, key =>
      if key = [] then .done (.ok ⟨none, none⟩)
      else .get (entryAt key) fun
        | some entry =>
            if entry.hasType RrType.soa then
              .done (.ok (if first then ⟨some entry, none⟩ else ⟨rr, some entry⟩))
            else if 0 < entry.zoneLen ∧ entry.zoneLen ≤ key.length then
              lookupFrom fuel false (if first then some entry else rr)
                (key.drop (key.length - entry.zoneLen))
            else .done .aborted
        | none =>
            if 0x2E ∈ key then lookupFrom fuel false rr (behindDot key)
            else .done (.ok ⟨none, none⟩)

/-- `lookupEntryAndSoa`. -/
def lookupEntryAndSoa (fuel : Nat) (fqdn : Name) : Trx RrAndSoa := lookupFrom fuel true none fqdn

end lookup

section checkSrv

/-- The names the SRV records of an entry point to, as `checkSrv` collects them in
a set. -/
def srvTargets (config : Config) (entry : Entry) : Run (Std.ExtTreeSet Name) :=
  entry.rrs.foldlM (fun targets rr =>
    if rr.type = RrType.srv then do
      let target ← config.srvTarget entry rr
      .ok (targets.insert (Name.toLower target))
    else .ok targets) ∅

def checkTargets : List Name → Trx Unit
  | [] => .done (.ok ())
  | target :: rest =>
      .get (entryAt target) fun found =>
        if found.any fun entry => entry.hasType RrType.a || entry.hasType RrType.aaaa then
          checkTargets rest
        else .done (refuse 400
          "SRV records' targets must point to an existing fqdn with address record(s)")

/-- `checkSrv`, for the body of a request that has one. -/
def checkSrv (config : Config) (received : Option Entry) : Trx Unit :=
  match received with
  | none => .done (.ok ())
  | some entry =>
      if config.dnsValidateSrvTargetsLocally then do
        let targets ← .done (srvTargets config entry)
        checkTargets targets.toList
      else .done (.ok ())

end checkSrv

section change

variable (config : Config) (session : Session)

/-- The checks before the body is read. They return the entry of the zone. -/
def authorize {β : Type} (method : Method β) (existing : RrAndSoa) : Run Entry :=
  match existing.soa with
  | none => refuse 404 "Not authorative for zone"
  | some zone =>
      match zone.tenantId with
      | none => refuse 500 "Unable to establish what tenant who owns this zone"
      | some id =>
          if id ≠ session.tenantId then refuse 403 "Not your zone!"
          else if existing.isSame && method.createsOrDeletes then
            refuse 400
              "Please use the 'zone' rather than the 'rr' endpoint to create or delete zones."
          else .ok zone

/-- Setting the length of the zone's name, which is taken from its SOA. -/
def withZoneLen (zone : Entry) (sb : StorageBuilder) : Run StorageBuilder := do
  let soa ← zone.first
  Run.assert (soa.type = RrType.soa)
  sb.setZoneLen soa.owner.length

/-- The builder of the new entry, before the body is read. -/
def newBuilder (existing : RrAndSoa) (zone : Entry) : Run StorageBuilder :=
  let sb : StorageBuilder := { tenantId := existing.rr.bind (·.tenantId) }
  if existing.isSame then .ok sb else withZoneLen zone sb

/-- `RestApi::build`. -/
def build (target : Name) (sb : StorageBuilder) (body : JsonBody) : Run Entry := do
  let sb ← body.rrs.foldlM (fun sb rr =>
    sb.createRr target rr.type (body.ttl.getD config.defaultTtl) rr.rdata true) sb
  sb.finish config.index

/-- A copy of a record under the name of the builder. -/
def copyRr (fqdn : Name) (sb : StorageBuilder) (rr : StoredRr) : Run StorageBuilder :=
  sb.createRr fqdn rr.type rr.ttl rr.rdata true

/-- The types to which `append` applies. -/
def appendable (type : UInt16) : Bool :=
  type == RrType.a || type == RrType.aaaa || type == RrType.txt || type == RrType.mx ||
    type == RrType.ns || type == RrType.srv || type == RrType.ptr

/-- What `PATCH` does with an old record. -/
def mergeOld (fqdn : Name) (newTypes : List UInt16) (append : Bool) (sb : StorageBuilder)
    (rr : StoredRr) : Run StorageBuilder :=
  if rr.type ∉ newTypes then copyRr fqdn sb rr
  else if append && appendable rr.type && !sb.existsRr rr.toRecord then copyRr fqdn sb rr
  else .ok sb

/-- The end of a merge: the serial of a zone is raised, any other entry gets the
length of the zone's name. -/
def closeMerged (existing : RrAndSoa) (zone : Entry) (merged : StorageBuilder) : Run Entry := do
  let closed ← if existing.isSame then merged.incrementSoaVersion zone else withZoneLen zone merged
  closed.finish config.index

/-- What the request does to the entry of its name. Without data the entry is
removed. -/
structure Change where
  data : Option Entry
  isNew : Bool := false
  newSoa : Option StoredRr := none
  needVersionIncrement : Bool

def post (fqdn : Name) (existing : RrAndSoa) (sb : Entry) : Run Change := do
  Run.throwIf (!session.isAllowed .createRr fqdn) "403 Access Denied"
  Run.throwIf existing.hasRr "409 The rr already exists"
  .ok { data := some sb, isNew := true, needVersionIncrement := true }

def put (fqdn : Name) (existing : RrAndSoa) (zone sb : Entry) : Run Change := do
  Run.throwIf (!session.isAllowed (if existing.hasRr then .updateRr else .createRr) fqdn)
    "403 Access Denied"
  if existing.isSame then do
    let raised ← sb.incrementSoaVersion zone
    .ok { data := some raised, newSoa := raised.soa, needVersionIncrement := false }
  else .ok { data := some sb, needVersionIncrement := true }

def patch (fqdn : Name) (existing : RrAndSoa) (zone sb : Entry) (append : Bool) : Run Change :=
  match existing.rr with
  | none => put session fqdn existing zone sb
  | some old => do
      Run.throwIf (!session.isAllowed .updateRr fqdn) "403 Access Denied"
      let merged ← sb.rrs.foldlM (copyRr fqdn) { tenantId := old.tenantId }
      let merged ← old.rrs.foldlM (mergeOld fqdn (sb.rrs.map (·.type)) append) merged
      let entry ← closeMerged config existing zone merged
      .ok { data := some entry, needVersionIncrement := !existing.isSame }

def delete (fqdn : Name) (existing : RrAndSoa) (zone : Entry) (filter : Option (List UInt16)) :
    Run Change := do
  Run.throwIf (!session.isAllowed .deleteRr fqdn) "403 Access Denied"
  match existing.rr, filter with
  | none, _ => refuse 404 "The rr don't exist"
  | some _, none => .ok { data := none, needVersionIncrement := true }
  | some old, some types => do
      let merged ← (old.rrs.filter fun rr => rr.type ∉ types).foldlM (copyRr fqdn)
        { tenantId := old.tenantId }
      let entry ← closeMerged config existing zone merged
      .ok (if entry.rrs = [] then { data := none, needVersionIncrement := true }
        else { data := some entry, needVersionIncrement := !existing.isSame })

/-- The switch over the methods. -/
def changeOf (fqdn : Name) (existing : RrAndSoa) (zone : Entry) : Method Entry → Run Change
  | .post sb => post session fqdn existing sb
  | .put sb => put session fqdn existing zone sb
  | .patch sb append => patch config session fqdn existing zone sb append
  | .delete filter => delete config session fqdn existing zone filter

/-- Writing the entry of the name. A new entry is looked up first. -/
def store (fqdn : Name) (change : Change) : Trx Unit :=
  if change.isNew then
    .get (entryAt fqdn) fun
      | some _ => .done (refuse 409 "The rr already exists")
      | none => .write (entryAt fqdn) change.data
  else .write (entryAt fqdn) change.data

/-- The entry of a zone with the next serial. -/
def raisedZone (zoneName : Name) (zone : Entry) : Run Entry := do
  let sb ← zone.rrs.foldlM (copyRr zoneName) { tenantId := zone.tenantId }
  let sb ← sb.incrementSoaVersion zone
  sb.finish config.index

/-- Writing the entry of the zone, unless that was the entry of the name. -/
def raise (zoneName : Name) (zone : Entry) (change : Change) : Trx (Option StoredRr) :=
  if change.needVersionIncrement then do
    let raised ← .done (raisedZone config zoneName zone)
    .write (entryAt zoneName) (some raised)
    return raised.soa
  else return change.newSoa

/-- The difference of the change. -/
def logChange (zoneName : Name) (oldSoa : StoredRr) (newSoa : Option StoredRr)
    (oldData newData : Option Entry) : Trx Unit :=
  if config.dnsEnableIxfr then
    match newSoa with
    | none => .done .aborted
    | some newSoa => addDiff config.items config.index zoneName oldSoa newSoa oldData newData
  else .done (.ok ())

end change

/-- The part of `onResourceRecord` behind its lookups, whatever it returns. -/
def behindLookups {ρ : Type} (config : Config) (session : Session) (request : RrRequest)
    (result : Name → StorageBuilder → Method Entry → Change → ρ) (existing : RrAndSoa) : Trx ρ := do
  let fqdn := Name.toLower request.target
  let zone ← .done (authorize session request.method existing)
  let sb ← .done (newBuilder existing zone)
  let method ← .done (request.method.mapM (build config request.target sb))
  checkSrv config method.body
  let oldSoa ← .done zone.getSoa
  let zoneName := Name.toLower oldSoa.owner
  let change ← .done (changeOf config session fqdn existing zone method)
  store fqdn change
  let newSoa ← raise config zoneName zone change
  logChange config zoneName oldSoa newSoa existing.rr change.data
  return result zoneName sb method change

/-- `RestApi::onResourceRecord`. A request that succeeds returns the name of the
zone it has changed. -/
def onResourceRecord (config : Config) (session : Session) (fuel : Nat) (request : RrRequest) :
    Trx Name := do
  let existing ← lookupEntryAndSoa fuel (Name.toLower request.target)
  behindLookups config session request (fun zoneName _ _ _ => zoneName) existing

end Nsblast.RestApi
