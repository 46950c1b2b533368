import Nsblast.Accounts.Session

/-!
# Creating and deleting zones

`RestApi::onZone` writes the entry of a new zone together with three kinds of index
keys in the account category: the zone with the tenant it belongs to, the zone among
those of the tenant, and the names of the zone. `onResourceRecord` keeps the last one
when it changes a name. All of it is one transaction.

The zone of an entry belongs to the tenant the session acts for, which an administrator
may change for one request; the keys are written for the tenant the session has logged
in for. `updateZoneRrIx` takes the zone from the front of the name.

A body is modelled by the records its handlers create, and by whether the primary name
server of the SOA is among the name servers. The status of a zone is left out, nothing
reads it. What a session is allowed to do is a function that is given; the check of the
owner of the zone is not.
-/

namespace Nsblast

open Transaction Run

/-- An entry that is read. -/
def readEntry (value : Option Value) : Option Entry :=
  match value with
  | some (.entry entry) => some entry
  | _ => none

/-- The entries of a database that also holds accounts. -/
def Db.entryContent (db : Db Value) : Address → Option Entry := fun key =>
  readEntry ((db.families key.1)[key.2]?)

/-- An operation on entries, on the transaction of a request. -/
def Transaction.performEntry (trx : Transaction Value) : Op Address Entry → Transaction Value
  | .read _ _ => trx
  | .write key value =>
      (trx.change key.1 key.2 (value.map .entry)).addPart key.1 key.2 (value.map .entry)

namespace AuthMgr

section zones

variable (db : Db Value)

def zoneKey (fqdn : Name) : Key := RealKey.init fqdn .zone none

def tzoneKey (tenant : Bytes) (fqdn : Name) :
    Key := RealKey.init (tenant ++ 0x2F :: fqdn) .tzone none

def zrrKey (zone fqdn : Name) : Key := RealKey.init (zone ++ 0x2F :: fqdn) .zrr none

/-- `updateZoneRrIx`. The zone is the front of the name. -/
def updateZoneRrIx (fqdn : Name) (zoneLen : Nat) (update : Bool) (trx : Transaction Value) :
    Run (Transaction Value) := do
  assert (zoneLen < fqdn.length)
  let zone := fqdn.take (if zoneLen = 0 then fqdn.length else zoneLen)
  if update then trx.write db (zrrKey zone fqdn) (.text []) false .account
  else if zoneLen = 0 then .ok (trx.remove db (RealKey.init zone .zrr none) true .account)
  else .ok (trx.remove db (zrrKey zone fqdn) false .account)

/-- `addZone`, with the id of the zone. -/
def addZone (id : Bytes) (fqdn : Name) (tenant : Bytes) (trx : Transaction Value) :
    Run (Transaction Value) := do
  assert (fqdn = Name.toLower fqdn)
  let trx ← trx.write db (zoneKey fqdn) (.zone ⟨id, tenant⟩) true .account
  let trx ← trx.write db (tzoneKey tenant fqdn) (.text fqdn) true .account
  updateZoneRrIx db fqdn 0 true trx

/-- `deleteZone`, which ends by adding the name of the zone to the index of names. -/
def deleteZone (fqdn : Name) (tenant : Bytes) (trx : Transaction Value) : Run (Transaction Value) :=
  match trx.get db .account (zoneKey fqdn) with
  | some (.zone _) =>
      updateZoneRrIx db fqdn 0 true
        ((trx.remove db (zoneKey fqdn) false .account).remove db (tzoneKey tenant fqdn) false .account)
  | _ => .ok trx

end zones

end AuthMgr

namespace RestApi

open AuthMgr

/-- The session of a request: what it was given when the user logged in, and the tenant
it acts for. -/
structure Login extends Session where
  tenant : Bytes
  hasAuth : Bool
  mayImpersonate : Bool

/-- What comes from outside. -/
structure ZoneEnv where
  config : Config
  parseUuid : Bytes → Run Uuid
  fuel : Nat

/-- `getSessionAndTenant`, with the argument `tenant` of the request. The flag is set
when the request is for all tenants. -/
def getSessionAndTenant (env : ZoneEnv) (db : Db Value) (login : Login) (argument : Option Bytes)
    (allowAll : Bool) : Run (Login × Pb.Tenant × Bool) := do
  let (tenantId, session, all) ← match argument with
    | none => .ok (login.tenant, login, false)
    | some impersonate =>
        if !login.mayImpersonate then
          refuse 403 "You are not allowed to impersonate another tenant!"
        else if allowAll && impersonate == [0x2A] then .ok (login.tenant, login, true)
        else do
          let tenantId := Name.toLower impersonate
          let uuid ← env.parseUuid tenantId
          .ok (tenantId, { login with tenantId := uuid }, false)
  match getTenant db tenantId with
  | none => refuse 404 "Tenant not found"
  | some tenant => .ok (session, tenant, all)

/-- `isAllowed` on a name, as it is called here: without an exception. -/
def isAllowed (fuel : Nat) (session : Login) (perm : Permission) (fqdn : Name)
    (validateZone : Bool) : Trx Bool :=
  if !session.hasAuth then return true
  else do
    let check ← if validateZone then
        AuthMgr.Session.checkZone fuel session.tenantId (perm == .createZone) fqdn
      else pure .passed
    return check == .passed && session.isAllowed perm fqdn

/-- The body of a new zone. -/
structure ZoneBody extends JsonBody where
  mnameIsNs : Bool

/-- `validateZone`. -/
def validateZone (body : ZoneBody) : Run Unit := do
  let types := body.rrs.map (·.type)
  throwIf (RrType.soa ∉ types) "out of range"
  throwIf (RrType.ns ∉ types) "400 Missing Json element ns"
  throwIf (types.count RrType.ns < 2) "400 RFC1036 require at least two nameservers (ns records)"
  throwIf (!body.mnameIsNs) "400 soa.mname must be one of the ns entries"

inductive ZoneMethod where
  | post (body : ZoneBody) (id : Bytes)
  | delete

/-- A request for a zone. -/
structure ZoneRequest where
  login : Login
  argument : Option Bytes
  target : Name
  method : ZoneMethod

/-- `zoneExists`. -/
def zoneExists (db : Db Value) (fqdn : Name) : Bool :=
  (db.entryContent (entryAt fqdn)).any fun entry => entry.hasType RrType.soa

/-- `RestApi::onZone`. -/
def onZone (env : ZoneEnv) (accounts : Accounts) (request : ZoneRequest) : Run Accounts := do
  let db := accounts.db
  let (session, _, _) ← getSessionAndTenant env db request.login request.argument false
  let fqdn := Name.toLower request.target
  match request.method with
  | .post body id => do
      let (allowed, _) ← (isAllowed env.fuel session .createZone fqdn (fqdn ≠ [])).exec db.entryContent
      throwIf (!allowed) "403 Access Denied"
      throwIf (zoneExists db fqdn) "409 The zone already exists"
      validateZone body
      let entry ← build env.config request.target { tenantId := some session.tenantId } body.toJsonBody
      throwIf (keyExists db {} (RealKey.ofName fqdn)) "409 The zone already exists"
      let trx ← write db {} (RealKey.ofName fqdn) (.entry entry) true .entry
      let trx ← addZone db id fqdn session.tenant trx
      .ok (accounts.commit trx)
  | .delete => do
      let (allowed, _) ← (isAllowed env.fuel session .deleteZone fqdn true).exec db.entryContent
      throwIf (!allowed) "403 Access Denied"
      throwIf (!zoneExists db fqdn) "404 The zone don't exist"
      let trx := remove db {} (RealKey.ofName fqdn) true .entry
      let trx ← deleteZone db fqdn session.tenant trx
      .ok (accounts.commit trx)

/-- What a change of a name tells the index of names: the length of the zone's name, and
whether the name is added or removed. -/
structure Indexing where
  zoneName : Name
  zoneLen : Nat
  update : Option Bool

/-- `need_to_update_zrr`. -/
def needToUpdateZrr {β : Type} (method : Method β) (change : Change) : Option Bool :=
  match method with
  | .delete _ => if change.data.isNone then some false else none
  | _ => some true

/-- `onResourceRecord` up to the index of names. -/
def indexedRecord (config : Config) (session : Session) (fuel : Nat) (request : RrRequest) :
    Trx Indexing := do
  let existing ← lookupEntryAndSoa fuel (Name.toLower request.target)
  behindLookups config session request
    (fun zoneName sb method change => ⟨zoneName, sb.zoneLen, needToUpdateZrr method change⟩) existing

/-- The update of the index of names, if one is due. -/
def updateIndex (db : Db Value) (fqdn : Name) (indexing : Indexing) (trx : Transaction Value) :
    Run (Transaction Value) :=
  match indexing.update with
  | some update => updateZoneRrIx db fqdn indexing.zoneLen update trx
  | none => .ok trx

/-- A request for a name, with its session. -/
structure RecordRequest where
  login : Login
  argument : Option Bytes
  request : RrRequest

/-- `RestApi::onResourceRecord`, with the index of names. -/
def onRecord (env : ZoneEnv) (accounts : Accounts) (request : RecordRequest) : Run Accounts := do
  let db := accounts.db
  let (session, _, _) ← getSessionAndTenant env db request.login request.argument false
  let (indexing, ops) ←
    (indexedRecord env.config session.toSession env.fuel request.request).exec db.entryContent
  let trx := ops.foldl performEntry {}
  let trx ← updateIndex db (Name.toLower request.request.target) indexing trx
  .ok (accounts.commit trx)

/-- A request that changes zones or names. -/
inductive SiteRequest where
  | zone (request : ZoneRequest)
  | record (request : RecordRequest)

/-- A request that succeeds. One that fails changes nothing. -/
def serve (env : ZoneEnv) (accounts : Accounts) : SiteRequest → Run Accounts
  | .zone request => onZone env accounts request
  | .record request => onRecord env accounts request

end RestApi

end Nsblast
