import Nsblast.Accounts.Changes
import Nsblast.Rest.Zone

/-!
# Requests that change tenants, roles and users

`onTenant` creates, replaces, merges into and removes tenants. `onRole` and `onUser`
read the tenant the request is for, change the list of its roles or users, and store
the tenant again with `upsertTenant`. A request that fails changes nothing.

Reading requests, the parsing of the body and the replies are left out. So are the
names of the errors that `upsertTenant` throws: `onTenant` turns them into replies.
-/

namespace Nsblast

open Pb AuthMgr Run

/-- `removeFromList`. -/
def removeFromList {α : Type} (nameOf : α → Option Bytes) (list : List α) (name : Bytes) : List α :=
  list.eraseP fun item => (nameOf item).any fun own => compareCaseInsensitive own name

namespace RestApi

structure AccountEnv where
  auth : AuthMgr.Env
  sessions : AuthMgr.Session.Env
  site : ZoneEnv

/-- The permission in `nsblast.proto`. -/
def Permission.toPb : Permission → Nsblast.Permission
  | createRr => .createRr
  | updateRr => .updateRr
  | deleteRr => .deleteRr
  | createZone => .createZone
  | deleteZone => .deleteZone
  | readZone => .readZone

/-- The session as `getSessionAndTenant` takes it. -/
def loginFor (env : AccountEnv) (session : AuthMgr.Session) : Login where
  tenantId := session.tenantId
  isAllowed perm := session.grants perm.toPb
  tenant := session.tenant
  hasAuth := env.sessions.hasAuth
  mayImpersonate := session.isAllowedAnywhere env.sessions .impersonateTenant

/-- The tenant a request for roles or users is for. -/
def tenantFor (env : AccountEnv) (db : Db Value) (session : AuthMgr.Session)
    (argument : Option Bytes) : Run Tenant := do
  let (_, tenant, _) ← getSessionAndTenant env.site db (loginFor env session) argument false
  .ok tenant

/-- The session lacks the permission. -/
def demand (env : AccountEnv) (session : AuthMgr.Session) (perm : Nsblast.Permission) : Run Unit :=
  throwIf (!session.isAllowedAnywhere env.sessions perm) "403 Access Denied"

/-- The tenant is stored again. -/
def storeTenant (env : AccountEnv) (accounts : Accounts) (tenant : Tenant) : Run Accounts :=
  upsertTenant env.auth accounts (Name.toLower (tenant.id.getD [])) tenant false

inductive TenantMethod where
  | post (tenant : Tenant)
  | put (tenant : Tenant)
  | patch (tenant : Tenant)
  | delete

structure TenantRequest where
  session : AuthMgr.Session
  target : Bytes
  method : TenantMethod

/-- The checks of the body of a PUT or PATCH, and the tenant with its id. -/
def targetTenant (env : AccountEnv) (target : Bytes) (tenant : Tenant) : Run Tenant := do
  throwIf (target = []) "400 Tenant-id must be in the target"
  throwIf (∃ id ∈ tenant.id, Name.toLower id ≠ Name.toLower target)
    "400 Tenant-id in the tenant object is not the same as tenant-d in the target"
  let tenant := { tenant with id := some (tenant.id.getD (Name.toLower target)) }
  throwIf (!env.auth.isValidUuid (tenant.id.getD [])) "400 id must be a valid UUID"
  .ok tenant

/-- `RestApi::onTenant`. -/
def onTenant (env : AccountEnv) (accounts : Accounts) (request : TenantRequest) : Run Accounts := do
  let session := request.session
  let key := Name.toLower request.target
  match request.method with
  | .post tenant => do
      throwIf (request.target ≠ []) "400 POST Tenant cannot specify tenant-id in target"
      throwIf (∃ id ∈ tenant.id, env.auth.isValidUuid id = false) "400 id must be a valid UUID"
      demand env session .createTenant
      createTenant env.auth accounts tenant
  | .put tenant => do
      let tenant ← targetTenant env request.target tenant
      demand env session .updateTenant
      upsertTenant env.auth accounts key tenant false
  | .patch tenant => do
      let tenant ← targetTenant env request.target tenant
      demand env session .updateTenant
      upsertTenant env.auth accounts key tenant true
  | .delete => do
      let own := key == session.tenant && session.isAllowedAnywhere env.sessions .deleteSelfTenant
      throwIf (!session.isAllowedAnywhere env.sessions .deleteTenant && !own) "403 Access Denied"
      deleteTenant accounts key

inductive RoleMethod where
  | post (role : Pb.Role)
  | put (role : Pb.Role)
  | delete

structure RoleRequest where
  session : AuthMgr.Session
  argument : Option Bytes
  target : Bytes
  method : RoleMethod

/-- `RestApi::onRole`. -/
def onRole (env : AccountEnv) (accounts : Accounts) (request : RoleRequest) : Run Accounts := do
  let session := request.session
  let tenant ← tenantFor env accounts.db session request.argument
  match request.method with
  | .post role => do
      throwIf role.name.isNone "400 The Role must have a name"
      demand env session .createRole
      throwIf (getFromList Role.name tenant.roles (role.name.getD [])).isSome
        "409 Role already exists"
      storeTenant env accounts { tenant with roles := tenant.roles ++ [role] }
  | .put role => do
      throwIf (request.target = []) "400 Target must contain the role-name"
      match getFromList Role.name tenant.roles request.target with
      | some _ => demand env session .updateRole
      | none => demand env session .createRole
      throwIf (!compareCaseInsensitive (role.name.getD []) request.target)
        "400 Rename of roles are not currently implemented."
      assert role.name.isSome
      -- without a role of this name nothing is removed
      storeTenant env accounts
        { tenant with roles := removeFromList Role.name tenant.roles request.target ++ [role] }
  | .delete => do
      demand env session .deleteRole
      let name := Name.toLower request.target
      throwIf (getFromList Role.name tenant.roles name).isNone "404 Role not found"
      storeTenant env accounts
        { tenant with
          roles := removeFromList Role.name tenant.roles name
          users := tenant.users.map fun user => { user with roles := user.roles.erase name } }

inductive UserMethod where
  | post (user : User)
  | put (user : User)
  | delete

structure UserRequest where
  session : AuthMgr.Session
  argument : Option Bytes
  target : Bytes
  method : UserMethod

/-- The user of a body: its name in lower case, and an id. -/
def bodyUser (env : AccountEnv) (tenant : Tenant) (user : User) : User :=
  { user with
    name := user.name.map Name.toLower
    id := some (user.id.getD (newUuidStr env.auth (tenant.users.length + 1))) }

/-- `RestApi::onUser`. -/
def onUser (env : AccountEnv) (accounts : Accounts) (request : UserRequest) : Run Accounts := do
  let session := request.session
  let tenant ← tenantFor env accounts.db session request.argument
  let target := Name.toLower request.target
  match request.method with
  | .post user => do
      throwIf user.name.isNone "400 The user must have a name"
      let user := bodyUser env tenant user
      demand env session .createUser
      throwIf (getFromList User.name tenant.users (user.name.getD [])).isSome
        "409 user already exists"
      storeTenant env accounts { tenant with users := tenant.users ++ [user] }
  | .put user => do
      throwIf (request.target = []) "400 Target must contain the user-name"
      let user := bodyUser env tenant user
      match getFromList User.name tenant.users target with
      | some _ => do
          demand env session .updateUser
          assert user.name.isSome
          storeTenant env accounts
            { tenant with users := removeFromList User.name tenant.users target ++ [user] }
      | none => do
          demand env session .createUser
          throwIf (∃ name ∈ user.name, name ≠ target)
            "400 When you create a user, the name must be blank or the same as the target"
          storeTenant env accounts
            { tenant with users := tenant.users ++ [{ user with name := some target }] }
  | .delete => do
      demand env session .deleteUser
      throwIf (getFromList User.name tenant.users target).isNone "404 User not found"
      storeTenant env accounts { tenant with users := removeFromList User.name tenant.users target }

inductive AccountRequest where
  | tenant (request : TenantRequest)
  | role (request : RoleRequest)
  | user (request : UserRequest)

/-- A request that succeeds. -/
def serveAccount (env : AccountEnv) (accounts : Accounts) : AccountRequest → Run Accounts
  | .tenant request => onTenant env accounts request
  | .role request => onRole env accounts request
  | .user request => onUser env accounts request

theorem tenantFor_eq_ok {env : AccountEnv} {db : Db Value} {session : AuthMgr.Session}
    {argument : Option Bytes} {tenant : Tenant}
    (found : tenantFor env db session argument = .ok tenant) : ∃ id, StoredTenant db id tenant := by
  rw [tenantFor, bind_eq_ok] at found
  obtain ⟨⟨_, other, _⟩, looked, same⟩ := found
  cases same
  simp only [getSessionAndTenant, bind_ok] at looked
  split at looked
  case' h_2 =>
    split at looked
    · cases looked
    split at looked
    case' isFalse =>
      rw [bind_eq_ok] at looked
      obtain ⟨_, _, looked⟩ := looked
  -- whichever tenant is asked for, the last step reads it from the store
  all_goals
    split at looked
    · cases looked
    · rename_i isStored
      cases looked
      exact ⟨_, (getTenant_eq_some db _ _).mp isStored⟩

end RestApi

end Nsblast
