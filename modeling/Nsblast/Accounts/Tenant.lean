import Nsblast.Storage.Builder
import Nsblast.Store.Transaction

/-!
# Tenants and their indexes

A tenant is stored with its roles and users. Two indexes lead from the login name of
a user and from the name of a tenant to the tenant's id. `createTenant`,
`upsertTenant` and `deleteTenant` keep them together with the tenant in one
transaction.

Protobuf messages are records; a field that is not set is `none`. What comes from
outside is given: random ids and seeds, the hash of a password, the check of a uuid,
and the folding of UTF-8, which may throw. Properties of tenants and users are left
out, nothing reads them.
-/

namespace Nsblast

open Run Name

/-- The bytes of a string. -/
abbrev Bytes := List UInt8

/-- `compareCaseInsensitive`, over the full length. -/
def compareCaseInsensitive (start full : Bytes) : Bool := toLower start == toLower full

theorem compareCaseInsensitive_iff (start full : Bytes) :
    compareCaseInsensitive start full = true ↔ toLower start = toLower full := by
  simp [compareCaseInsensitive]

/-- `pb::Permission`. -/
inductive Permission where
  | useApi
  | readZone | listZones | createZone | updateZone | deleteZone
  | readVzone | listVzones | createVzone | updateVzone | deleteVzone
  | readRr | listRrs | createRr | updateRr | deleteRr
  | createApikey | listApikeys | getApikey | deleteApikey
  | getSelfUser | deleteSelfUser
  | createUser | listUsers | getUser | updateUser | deleteUser
  | createRole | listRoles | getRole | updateRole | deleteRole
  | getSelfTenant | updateSelfTenant | deleteSelfTenant
  | createTenant | listTenants | getTenant | updateTenant | deleteTenant | impersonateTenant
  | configSlave
  | createBackup | listBackups | restoreBackup | verifyBackup | deleteBackup
  | metrics
  deriving DecidableEq, Repr

namespace Pb

structure ZoneFilter where
  fqdn : Option Bytes
  recursive : Option Bool
  regex : Option Bytes
  deriving DecidableEq, Repr

structure Role where
  name : Option Bytes
  permissions : List Permission
  filter : Option ZoneFilter
  deriving DecidableEq, Repr

structure UserAuth where
  hash : Option Bytes
  seed : Option Bytes
  password : Option Bytes
  deriving DecidableEq, Repr

structure User where
  id : Option Bytes
  name : Option Bytes
  active : Option Bool
  roles : List Bytes
  auth : Option UserAuth
  deriving DecidableEq, Repr

structure Tenant where
  id : Option Bytes
  name : Option Bytes
  active : Option Bool
  root : Option Bytes
  allowedPermissions : List Permission := []
  roles : List Role
  users : List User
  deriving DecidableEq, Repr

structure Zone where
  id : Bytes
  tenantId : Bytes
  deriving DecidableEq, Repr

/-- `MergeFrom`: fields that are set replace those there, lists are appended. -/
def Tenant.mergeFrom (existing tenant : Tenant) : Tenant where
  id := tenant.id.or existing.id
  name := tenant.name.or existing.name
  active := tenant.active.or existing.active
  root := tenant.root.or existing.root
  allowedPermissions := existing.allowedPermissions ++ tenant.allowedPermissions
  roles := existing.roles ++ tenant.roles
  users := existing.users ++ tenant.users

end Pb

open Pb

/-- A value of the database. -/
inductive Value where
  | entry (entry : Entry)
  | tenant (tenant : Tenant)
  | zone (zone : Zone)
  | text (bytes : Bytes)
  deriving DecidableEq

/-- `getFromList`. -/
def getFromList {α : Type} (nameOf : α → Option Bytes) (list : List α) (name : Bytes) : Option α :=
  list.find? fun item => (nameOf item).any fun own => compareCaseInsensitive own name

namespace AuthMgr

/-- What a call takes from outside. The random strings are numbered by the position
of the user they are made for. -/
structure Env where
  newUuid : Nat → Bytes
  getSeed : Nat → Bytes
  createHash : Bytes → Bytes → Bytes
  isValidUuid : Bytes → Bool
  utf8FoldCase : Bytes → Run Bytes
  toText : Bytes → String
  toPrintable : Bytes → String

/-- `newUuidStr`. -/
def newUuidStr (env : Env) (position : Nat) : Bytes := toLower (env.newUuid position)

section processUsers

variable (env : Env) (roles : List Role) (existingTenant : Option Tenant)

/-- The id of a user: its own, that of the user with this name, or a new one. -/
def userId (position : Nat) (user : User) : Bytes :=
  match user.id with
  | some id => id
  | none =>
      match existingTenant.bind fun tenant =>
        getFromList User.name tenant.users (user.name.getD []) with
      | some existing => existing.id.getD []
      | none => newUuidStr env position

/-- The check of the roles of a user. -/
def checkRoles (name : Bytes) : List Bytes → Run Unit
  | [] => .ok ()
  | role :: rest => do
      throwIf ((getFromList Role.name roles role).isNone = true)
        ("Role " ++ env.toPrintable role ++ " for user " ++ env.toText name ++ " is undefined.")
      checkRoles name rest

/-- The end of the loop: a password is replaced by its hash. -/
def hashPassword (position : Nat) (auth : UserAuth) : UserAuth :=
  let seed := auth.seed.getD (env.getSeed position)
  match auth.password with
  | some password => ⟨some (env.createHash seed password), some seed, none⟩
  | none => { auth with seed := some seed }

/-- One turn of the loop over the users, with the ids of those before. -/
def processUser (position : Nat) (existingIds : List Bytes) (user : User) : Run User := do
  let name := user.name.getD []
  throwIf (64 < name.length) "Name is too long (> 64 characters)"
  throwIf (64 < (user.id.getD []).length) "id is too long (> 64 characters)"
  let id := userId env existingTenant position user
  throwIf (id ∈ existingIds)
    ("user " ++ env.toPrintable name ++ " has an ID that is already in use by another user!")
  match user.auth with
  | none => .thrown ("Missing auth section in user " ++ env.toText name)
  | some auth => do
      throwIf (∃ hash ∈ auth.hash, 128 < hash.length) "auth.hash is too long (> 128 characters)"
      throwIf (∃ seed ∈ auth.seed, 128 < seed.length) "auth.seed is too long (> 128 characters)"
      throwIf (∃ password ∈ auth.password, 512 < password.length)
        "auth.password is too long (> 512 characters)"
      checkRoles env roles name user.roles
      let auth := hashPassword env position auth
      throwIf (auth.hash = none) ("Must have password or hash in user " ++ env.toText name)
      .ok { user with id := some id, auth := some auth }

/-- `processUsers`, from a position on. -/
def processUsers : Nat → List Bytes → List User → Run (List User)
  | _, _, [] => .ok []
  | position, existingIds, user :: rest => do
      let done ← processUser env roles existingTenant position existingIds user
      let others ← processUsers (position + 1) (done.id.getD [] :: existingIds) rest
      .ok (done :: others)

end processUsers

section keys

def tenantKey (id : Bytes) : Key := RealKey.init id .tenant none

def userKey (name : Bytes) : Key := RealKey.init (toLower name) .user none

def tenantNameKey (name : Bytes) : Key := RealKey.init name .tenantName none

end keys

/-- A string that is read. Keys of its class hold nothing else. -/
def readText (value : Option Value) : Option Bytes :=
  match value with
  | some (.text bytes) => some bytes
  | _ => none

/-- `getTenant`, in a transaction of its own. -/
def getTenant (db : Db Value) (tenantId : Bytes) : Option Tenant :=
  match (db.families .account)[tenantKey tenantId]? with
  | some (.tenant tenant) => some tenant
  | _ => none

section indexes

variable (env : Env) (db : Db Value)

/-- The first loop of `upsertUserIndexes`. -/
def removeUserNames (id : Bytes) : List User → Transaction Value → Transaction Value
  | [], trx => trx
  | user :: rest, trx =>
      let key := userKey (user.name.getD [])
      match readText (trx.get db .account key) with
      | some owner =>
          if compareCaseInsensitive owner id then
            removeUserNames id rest (trx.remove db key false .account)
          else removeUserNames id rest trx
      | none => removeUserNames id rest trx

/-- The second loop of `upsertUserIndexes`. -/
def writeUserNames (id : Bytes) : List User → Transaction Value → Run (Transaction Value)
  | [], trx => .ok trx
  | user :: rest, trx => do
      let key := userKey (user.name.getD [])
      throwIf (∃ owner ∈ readText (trx.get db .account key),
          compareCaseInsensitive owner id = false)
        ("Name " ++ env.toText (user.name.getD []) ++ " is already in use")
      let next ← trx.write db key (.text (toLower id)) false .account
      writeUserNames id rest next

def upsertUserIndexes (tenant : Tenant) (existingTenant : Option Tenant) (trx : Transaction Value) :
    Run (Transaction Value) :=
  let id := tenant.id.getD []
  let cleared := match existingTenant with
    | some existing => removeUserNames db id existing.users trx
    | none => trx
  writeUserNames env db id tenant.users cleared

def upsertTenantIndexes (tenant : Tenant) (existingTenant : Option Tenant)
    (trx : Transaction Value) : Run (Transaction Value) :=
  let name := tenant.name.getD []
  let write (trx : Transaction Value) :=
    trx.write db (tenantNameKey name) (.text (tenant.id.getD [])) true .account
  match existingTenant with
  | some existing =>
      if existing.name.getD [] = name then .ok trx
      else write (trx.remove db (tenantNameKey (existing.name.getD [])) false .account)
  | none => write trx

def deleteUserIndexes (id : Bytes) : List User → Transaction Value → Transaction Value
  | [], trx => trx
  | user :: rest, trx =>
      let key := userKey (user.name.getD [])
      match readText (trx.get db .account key) with
      | some owner =>
          if toLower owner ≠ toLower id then deleteUserIndexes id rest trx
          else deleteUserIndexes id rest (trx.remove db key false .account)
      | none => deleteUserIndexes id rest (trx.remove db key false .account)

def deleteTenantIndexes (tenant : Tenant) (trx : Transaction Value) : Transaction Value :=
  trx.remove db (tenantNameKey (tenant.name.getD [])) false .account

end indexes

/-- The database and the last transaction id. -/
structure Accounts where
  db : Db Value
  trxId : Nat

/-- Committing. Nothing in the account category is logged. -/
def Accounts.commit (accounts : Accounts) (trx : Transaction Value) : Accounts :=
  let numbered := trx.handleTrxLog accounts.trxId
  ⟨numbered.2.commit accounts.db, numbered.1⟩

/-- The id of a new tenant: the one it asks for, or a random one. -/
def createdId (env : Env) (tenant : Tenant) : Bytes :=
  match tenant.id with
  | some id => toLower id
  | none => newUuidStr env tenant.users.length

/-- `createTenant`. -/
def createTenant (env : Env) (accounts : Accounts) (tenant : Tenant) : Run Accounts := do
  let db := accounts.db
  let id := createdId env tenant
  let tenant := { tenant with id := some id, active := some (tenant.active.getD true) }
  throwIf (((db.families .account)[tenantKey id]?).isSome = true) "Tenant id already exist"
  throwIf (((db.families .account)[tenantNameKey id]?).isSome = true)
    "Tenant name already exist"
  let users ← processUsers env tenant.roles none 0 [] tenant.users
  let tenant := { tenant with users }
  let trx ← Transaction.write db {} (tenantKey id) (.tenant tenant) true .account
  let trx ← upsertUserIndexes env db tenant none trx
  let trx ← upsertTenantIndexes db tenant none trx
  .ok (accounts.commit trx)

/-- `upsertTenant`. A merge into a stored tenant takes the short way. -/
def upsertTenant (env : Env) (accounts : Accounts) (tenantId : Bytes) (tenant : Tenant)
    (merge : Bool) : Run Accounts := do
  let db := accounts.db
  assert (tenantId ≠ [])
  assert (env.isValidUuid tenantId = true)
  throwIf (∃ id ∈ tenant.id, id ≠ tenantId) "id is immutable"
  let id := toLower (tenant.id.getD [])
  assert (env.isValidUuid id = true)
  let _ ← env.utf8FoldCase (tenant.name.getD [])
  match merge, getTenant db id with
  | true, some existing => do
      let merged := existing.mergeFrom tenant
      let trx ← Transaction.write db {} (tenantKey id) (.tenant merged) false .account
      -- the stored tenant has been overwritten by the merge when the names are compared
      let trx ← upsertTenantIndexes db tenant (some merged) trx
      .ok (accounts.commit trx)
  | _, existing => do
      let users ← processUsers env tenant.roles existing 0 [] tenant.users
      let tenant := { tenant with users }
      let trx ← Transaction.write db {} (tenantKey id) (.tenant tenant) false .account
      let trx ← upsertUserIndexes env db tenant existing trx
      let trx ← upsertTenantIndexes db tenant existing trx
      .ok (accounts.commit trx)

/-- `deleteTenant`. -/
def deleteTenant (accounts : Accounts) (tenantId : Bytes) : Run Accounts := do
  let db := accounts.db
  let key := tenantKey (toLower tenantId)
  throwIf (((db.families .account)[key]?).isNone = true) "Tenant not found"
  let trx := match getTenant db tenantId with
    | some tenant =>
        deleteTenantIndexes db tenant (deleteUserIndexes db (tenant.id.getD []) tenant.users {})
    | none => {}
  .ok (accounts.commit (trx.remove db key true .account))

end AuthMgr

end Nsblast
