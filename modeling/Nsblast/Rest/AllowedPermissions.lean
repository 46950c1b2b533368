import Nsblast.Accounts.RoleUnion
import Nsblast.Rest.AccountRequests
import Nsblast.Rest.Requests

/-!
# The permissions a tenant may give to its roles

A tenant has a list of the permissions that can be assigned to its roles. No request
looks at it: `onRole` stores any role, and a session takes the permissions of the roles
as they are. An administrator of roles and users can therefore give itself any
permission.

As long as each request that stores roles stays within the list of the tenant, so do
all sessions. The invariant is about the roles of every stored tenant.
-/

namespace Nsblast.RestApi

open Pb AuthMgr AuthMgr.Session Detail Run List Program

/-- One of the two `isAllowed` of the session returns true for the permission. -/
def Permits (env : AuthMgr.Session.Env) (session : AuthMgr.Session) (perm : Nsblast.Permission) :
    Prop :=
  session.isAllowedAnywhere env perm = true ∨
    ∃ fuel fqdn opts content ops,
      (session.isAllowed env fuel perm fqdn opts).exec content = .ok (true, ops)

/-- No session of a user of a tenant with a list of allowed permissions has another. -/
def Confined (env : AuthMgr.Session.Env) (db : Db Value) : Prop :=
  ∀ id tenant, StoredTenant db id tenant → tenant.allowedPermissions ≠ [] →
    ∀ user ∈ tenant.users, ∀ session, make env tenant user.roles = .ok session →
      ∀ perm, Permits env session perm → perm ∈ tenant.allowedPermissions

/-- The permissions are allowed, if the tenant has a list at all. -/
def Allows (tenant : Tenant) (perms : List Nsblast.Permission) : Prop :=
  tenant.allowedPermissions ≠ [] → perms ⊆ tenant.allowedPermissions

/-- The roles of the tenant have allowed permissions only. -/
def Confining (tenant : Tenant) : Prop := ∀ role ∈ tenant.roles, Allows tenant role.permissions

/-- The request stores no role with a permission that is not allowed. -/
def Modest (env : AccountEnv) (accounts : Accounts) : AccountRequest → Prop
  | .tenant request =>
      match request.method with
      | .post tenant | .put tenant => Confining tenant
      | .patch tenant =>
          match getTenant accounts.db (Name.toLower request.target) with
          | some existing => Confining (existing.mergeFrom tenant)
          | none => Confining tenant
      | .delete => True
  | .role request =>
      match request.method with
      | .post role | .put role => ∀ tenant,
          tenantFor env accounts.db request.session request.argument = .ok tenant →
            Allows tenant role.permissions
      | .delete => True
  | .user _ => True

/-- Any number of requests that succeed and meet a condition. -/
abbrev Serves (env : AccountEnv) (condition : Accounts → AccountRequest → Prop) :
    Accounts → Accounts → Prop :=
  Relation.ReflTransGen fun before after =>
    ∃ request, condition before request ∧ serveAccount env before request = .ok after

/-- The roles of all stored tenants. -/
def AllConfining (db : Db Value) : Prop := ∀ id tenant, StoredTenant db id tenant → Confining tenant

section sessions

variable {env : AuthMgr.Session.Env}

variable {tenant : Tenant} {names : List Bytes} {session : AuthMgr.Session}
  (made : make env tenant names = .ok session) {perm : Nsblast.Permission}
include made

/-- What a session has on a name comes from a role of the tenant. -/
theorem role_of_grants {fqdn : Bytes} (granted : session.grants perm fqdn = true) :
    ∃ role ∈ tenant.roles, perm ∈ role.permissions := by
  rw [grants_of_make made, any_eq_true] at granted
  obtain ⟨role, member, granted⟩ := granted
  refine ⟨role, (mem_filter.mp member).1, ?_⟩
  have isPerm : hasBit (populated role).permissions perm = true := by
    rw [grantsAt, grantsEverywhere, AuthMgr.Session.everywhere, atName, Bool.or_eq_true] at granted
    rcases granted with has | has <;> split at has
    · exact has
    · rw [hasBit_and, Bool.and_eq_true] at has
      exact has.1
    · exact has
    · rw [hasBit_zero] at has
      cases has
  rwa [populated, hasBit_getPerms, contains_iff_mem] at isPerm

omit made in
/-- With authentication, `isAllowed` on a name returns true only if it is granted. -/
theorem grants_of_isAllowed (auth : env.hasAuth = true) {fuel : Nat} {fqdn : Bytes}
    {opts : AuthMgr.Session.Options} {content : Address → Option Entry}
    {ops : List (Op Address Entry)}
    (allowed : (session.isAllowed env fuel perm fqdn opts).exec content = .ok (true, ops)) :
    session.grants perm fqdn = true := by
  have runs := ((exec_eq_ok content _ true ops).mp allowed).1
  rw [AuthMgr.Session.isAllowed] at runs
  simp only [auth, Bool.not_true, Bool.false_eq_true, ↓reduceIte] at runs
  have notFailed (after : List (Op Address Entry))
      (failed : Program.Runs (if opts.throwOnFailure = true then
        .done (.thrown ("Access denied for permission " ++ env.permissionName perm ++ " on zone " ++
          env.toText fqdn))
        else (return false : Trx Bool)) after true) : session.grants perm fqdn = true := by
    split at failed
    · cases ((runs_done _ _ _).mp failed).1
    · cases ((runs_pure _ _ _).mp failed).1
  split at runs
  · rw [runs_bind] at runs
    obtain ⟨_, after, check, _, _, ended⟩ := runs
    cases check with
    | foreign => cases ((runs_pure _ _ _).mp ended).1
    | unknown => exact notFailed after ended
    | passed =>
      dsimp only at ended
      split at ended
      · assumption
      · exact notFailed after ended
  · rw [runs_bind] at runs
    obtain ⟨_, after, check, _, passed, ended⟩ := runs
    obtain ⟨rfl, _⟩ := (runs_pure _ _ _).mp passed
    dsimp only at ended
    split at ended
    · assumption
    · exact notFailed after ended

theorem role_of_permits (auth : env.hasAuth = true) (permits : Permits env session perm) :
    ∃ role ∈ tenant.roles, perm ∈ role.permissions := by
  rcases permits with anywhere | ⟨fuel, fqdn, opts, content, ops, allowed⟩
  · simp only [isAllowedAnywhere, auth, Bool.not_true, Bool.false_or] at anywhere
    have granted : session.grants perm [] = true := by rw [grants_eq, anywhere, Bool.true_or]
    exact role_of_grants made granted
  · exact role_of_grants made (grants_of_isAllowed auth allowed)

end sessions

/-- When all roles stay within the lists, so do the sessions. -/
theorem AllConfining.confined {env : AuthMgr.Session.Env} (auth : env.hasAuth = true)
    {db : Db Value} (confining : AllConfining db) : Confined env db := by
  intro id tenant stored listed user _ session made perm permits
  obtain ⟨role, member, granted⟩ := role_of_permits made auth permits
  exact confining id tenant stored role member listed granted

section requests

/-- A tenant that is put under its id. -/
theorem AllConfining.stored {db next : Db Value} (confining : AllConfining db) (id : Bytes)
    (tenant : Tenant) (own : Confining tenant) (tenants : ∀ other, account next (tenantKey other) =
      if other = id then some (.tenant tenant) else account db (tenantKey other)) :
    AllConfining next := by
  intro other found isFound
  rcases (storedTenant_iff tenants other found).mp isFound with ⟨_, rfl⟩ | ⟨_, before⟩
  · exact own
  · exact confining other found before

theorem confining_createTenant {env : AuthMgr.Env} {accounts next : Accounts} {tenant : Tenant}
    (confining : AllConfining accounts.db) (own : Confining tenant)
    (created : createTenant env accounts tenant = .ok next) : AllConfining next.db := by
  obtain ⟨id, users, _, _, _, storing⟩ := createTenant_eq_ok created
  exact confining.stored id
    { tenant with id := some id, active := some (tenant.active.getD true), users } own storing.tenants

theorem confining_upsertTenant {env : AuthMgr.Env} (accounts next : Accounts) (tenantId : Bytes)
    (tenant : Tenant) (merge : Bool) (confining : AllConfining accounts.db)
    (merged : merge = true → ∀ existing,
      StoredTenant accounts.db (Name.toLower (tenant.id.getD [])) existing →
        Confining (existing.mergeFrom tenant))
    (own : (merge = true → getTenant accounts.db (Name.toLower (tenant.id.getD [])) = none) →
      Confining tenant) (upserted : upsertTenant env accounts tenantId tenant merge = .ok next) :
    AllConfining next.db := by
  rcases upsertTenant_eq_ok upserted with
    ⟨isMerge, existing, merging⟩ | ⟨noMerge, users, _, storing⟩
  · exact confining.stored _ _ (merged isMerge existing merging.stored) merging.tenants
  · exact confining.stored _ { tenant with users } (own noMerge) storing.tenants

theorem confining_storeTenant {env : AccountEnv} (accounts next : Accounts) (tenant : Tenant)
    (confining : AllConfining accounts.db) (own : Confining tenant)
    (stored : storeTenant env accounts tenant = .ok next) : AllConfining next.db :=
  confining_upsertTenant accounts next _ tenant false confining nofun (fun _ => own) stored

/-- A removal leaves nothing new. -/
theorem confining_deleteTenant {accounts next : Accounts} {tenantId : Bytes}
    (confining : AllConfining accounts.db) (deleted : deleteTenant accounts tenantId = .ok next) :
    AllConfining next.db := by
  rw [deleteTenant, bind_eq_ok] at deleted
  obtain ⟨_, _, same⟩ := deleted
  cases same
  intro id tenant stored
  apply confining id tenant
  rw [StoredTenant, account_commit] at stored
  have left := Transaction.get_of_remove_recursive stored
  cases found : getTenant accounts.db tenantId with
  | none =>
    rw [found] at left
    exact left
  | some existing =>
    rw [found] at left
    dsimp only at left
    rw [deleteTenantIndexes, Transaction.get_remove, get_deleteUserIndexes] at left
    split at left
    · cases left
    · split at left
      · cases left
      · exact left

/-- Roles that are kept, and one that is allowed. -/
theorem confining_concat (tenant : Tenant) (own : Confining tenant) (kept : List Pb.Role)
    (subset : kept ⊆ tenant.roles) (role : Pb.Role) (allows : Allows tenant role.permissions) :
    Confining { tenant with roles := kept ++ [role] } := by
  intro other member
  rcases mem_append.mp member with before | added
  · exact own other (subset before)
  · rw [mem_singleton.mp added]
    exact allows

variable {env : AccountEnv} {accounts next : Accounts} (confining : AllConfining accounts.db)
include confining

theorem confining_onTenant {request : TenantRequest}
    (modest : Modest env accounts (.tenant request))
    (served : onTenant env accounts request = .ok next) : AllConfining next.db := by
  obtain ⟨session, target, method⟩ := request
  have targeted (tenant named : Tenant) (isNamed : targetTenant env target tenant = .ok named) :
      Name.toLower (named.id.getD []) = Name.toLower target ∧
        named = { tenant with id := named.id } := by
    simp only [targetTenant, bind_eq_ok] at isNamed
    obtain ⟨_, _, _, sameId, _, _, same⟩ := isNamed
    cases same
    refine ⟨?_, rfl⟩
    cases own : tenant.id with
    | none => simp [Name.toLower_toLower]
    | some id =>
      by_contra differs
      rw [throwIf_of ⟨id, own, by simpa using differs⟩] at sameId
      cases sameId
  cases method with
  | post tenant =>
    simp only [onTenant, bind_eq_ok] at served
    obtain ⟨_, _, _, _, _, _, created⟩ := served
    exact confining_createTenant confining modest created
  | put tenant =>
    simp only [onTenant, bind_eq_ok] at served
    obtain ⟨named, isNamed, _, _, upserted⟩ := served
    have own : Confining named := (targeted tenant named isNamed).2 ▸ modest
    exact confining_upsertTenant accounts next _ named false confining nofun
      (fun _ => own) upserted
  | patch tenant =>
    simp only [onTenant, bind_eq_ok] at served
    obtain ⟨named, isNamed, _, _, upserted⟩ := served
    obtain ⟨isTarget, onlyId⟩ := targeted tenant named isNamed
    refine confining_upsertTenant accounts next _ named true confining ?_ ?_ upserted
    · intro _ existing stored
      rw [isTarget] at stored
      simp only [Modest, (getTenant_eq_some _ _ _).mpr stored] at modest
      rw [onlyId]
      exact modest
    · intro missing
      rw [isTarget] at missing
      simp only [Modest, missing rfl] at modest
      rw [onlyId]
      exact modest
  | delete =>
    simp only [onTenant, bind_eq_ok] at served
    obtain ⟨_, _, deleted⟩ := served
    exact confining_deleteTenant confining deleted

theorem confining_onRole {request : RoleRequest} (modest : Modest env accounts (.role request))
    (served : onRole env accounts request = .ok next) : AllConfining next.db := by
  obtain ⟨session, argument, target, method⟩ := request
  simp only [onRole, bind_eq_ok] at served
  obtain ⟨tenant, found, served⟩ := served
  obtain ⟨id, stored⟩ := tenantFor_eq_ok found
  have own := confining id tenant stored
  cases method with
  | post role =>
    simp only [bind_eq_ok] at served
    obtain ⟨_, _, _, _, _, _, served⟩ := served
    exact confining_storeTenant accounts next _ confining
      (confining_concat tenant own tenant.roles (List.Subset.refl _) role
        (modest tenant found)) served
  | put role =>
    simp only [bind_eq_ok] at served
    obtain ⟨_, _, served⟩ := served
    have added := confining_concat tenant own (removeFromList Role.name tenant.roles target)
      eraseP_subset role (modest tenant found)
    split at served
    · simp only [bind_eq_ok] at served
      obtain ⟨_, _, _, _, _, _, served⟩ := served
      exact confining_storeTenant accounts next _ confining added served
    · simp only [bind_eq_ok] at served
      obtain ⟨_, _, _, _, _, _, served⟩ := served
      exact confining_storeTenant accounts next _ confining added served
  | delete =>
    simp only [bind_eq_ok] at served
    obtain ⟨_, _, _, _, served⟩ := served
    refine confining_storeTenant accounts next _ confining ?_ served
    intro role member
    exact own role (eraseP_subset member)

theorem confining_onUser {request : UserRequest} (served : onUser env accounts request = .ok next) :
    AllConfining next.db := by
  obtain ⟨session, argument, target, method⟩ := request
  simp only [onUser, bind_eq_ok] at served
  obtain ⟨tenant, found, served⟩ := served
  obtain ⟨id, stored⟩ := tenantFor_eq_ok found
  -- only the users differ, whatever the request does to them
  have same (users : List User)
      (storing : storeTenant env accounts { tenant with users } = .ok next) :
      AllConfining next.db :=
    confining_storeTenant accounts next { tenant with users } confining
      (confining id tenant stored) storing
  cases method with
  | post user =>
    simp only [bind_eq_ok] at served
    obtain ⟨_, _, _, _, _, _, served⟩ := served
    exact same _ served
  | put user =>
    simp only [bind_eq_ok] at served
    obtain ⟨_, _, served⟩ := served
    split at served
    · simp only [bind_eq_ok] at served
      obtain ⟨_, _, _, _, served⟩ := served
      exact same _ served
    · simp only [bind_eq_ok] at served
      obtain ⟨_, _, _, _, served⟩ := served
      exact same _ served
  | delete =>
    simp only [bind_eq_ok] at served
    obtain ⟨_, _, _, _, served⟩ := served
    exact same _ served

/-- One request keeps the roles within the lists. -/
theorem confining_serveAccount {request : AccountRequest} (modest : Modest env accounts request)
    (served : serveAccount env accounts request = .ok next) : AllConfining next.db := by
  cases request with
  | tenant request => exact confining_onTenant confining modest served
  | role request => exact confining_onRole confining modest served
  | user request => exact confining_onUser confining served

end requests

/-- With authentication, a tenant whose roles were within its list keeps to the list in
every state that requests reach which store no other roles. -/
theorem modest_requests_keep_confined (env : AccountEnv) (auth : env.sessions.hasAuth = true)
    (start reached : Accounts) (begun : AllConfining start.db)
    (serves : Serves env (Modest env) start reached) : Confined env.sessions reached.db := by
  apply AllConfining.confined auth
  induction serves with
  | refl => exact begun
  | tail _ step ih =>
    obtain ⟨request, modest, served⟩ := step
    exact confining_serveAccount ih modest served

section samples

def sampleAccountEnv : AccountEnv where
  auth := AuthMgr.sampleEnv
  sessions :=
    { hasAuth := true
      regex := fun _ => none
      parseUuid := fun _ => .ok 1
      permissionName := fun _ => ""
      toText := fun _ => "" }
  site := ⟨sampleConfig, fun _ => .ok 1, 5⟩

/-- The password of the user of the sample is stored as a hash. -/
def adminUser (roles : List Bytes) : User :=
  ⟨some secondId, some [0x61], none, roles, some ⟨some [0x68], some [0x73], none⟩⟩

/-- A tenant whose user `a` may create roles and change users, and no more. -/
def adminTenant : Tenant where
  id := some firstId
  name := some [0x6E]
  active := none
  root := none
  allowedPermissions := [.useApi, .createRole, .updateUser]
  roles := [⟨some [0x72], [.useApi, .createRole, .updateUser], none⟩]
  users := [adminUser [[0x72]]]

def adminAccounts : Accounts where
  db :=
    { families := fun category =>
        if category = .account then (∅ : ColumnFamily Value).insert (tenantKey firstId)
          (.tenant adminTenant)
        else ∅
      trxlog := ∅ }
  trxId := 0

/-- The session of the user. -/
def adminSession : AuthMgr.Session where
  nonZonePerms := getPerms [.useApi, .createRole, .updateUser]
  roles := [⟨[0x72], getPerms [.useApi, .createRole, .updateUser], none⟩]
  tenant := firstId
  tenantId := 1

/-- The user creates a role `x` with a permission. -/
def createsRole (perm : Nsblast.Permission) : AccountRequest :=
  .role ⟨adminSession, none, [], .post ⟨some [0x78], [perm], none⟩⟩

/-- The user takes the role. -/
def takesRole : AccountRequest :=
  .user ⟨adminSession, none, [0x61], .put (adminUser [[0x72], [0x78]])⟩

theorem adminSession_made :
    make sampleAccountEnv.sessions adminTenant [[0x72]] = .ok adminSession := rfl

theorem adminAccounts_confining : AllConfining adminAccounts.db := by
  intro id tenant stored
  rw [StoredTenant, account] at stored
  simp only [adminAccounts, ↓reduceIte, Std.ExtTreeMap.getElem?_insert] at stored
  split at stored
  · cases stored
    intro role member _
    rw [mem_singleton.mp member]
    exact List.Subset.refl _
  · simp at stored

theorem allowed_role_keeps_confined :
    ∃ final, Serves sampleAccountEnv (Modest sampleAccountEnv) adminAccounts final ∧
      sampleAccountEnv.sessions.hasAuth = true ∧ AllConfining adminAccounts.db ∧
      Confined sampleAccountEnv.sessions final.db := by
  have ran : (serveAccount sampleAccountEnv adminAccounts (createsRole .useApi)).isOk = true := by
    decide +kernel
  obtain ⟨final, served⟩ := (isOk_iff _).mp ran
  have found : tenantFor sampleAccountEnv adminAccounts.db adminSession none = .ok adminTenant := by
    decide +kernel
  have modest : Modest sampleAccountEnv adminAccounts (createsRole .useApi) := by
    intro tenant other
    cases found.symm.trans other
    intro _ perm member
    rw [mem_singleton.mp member]
    decide
  have serves : Serves sampleAccountEnv (Modest sampleAccountEnv) adminAccounts final :=
    .single ⟨_, modest, served⟩
  exact ⟨final, serves, rfl, adminAccounts_confining, modest_requests_keep_confined
    sampleAccountEnv rfl adminAccounts final adminAccounts_confining serves⟩

/-- A user of the tenant has a permission that is not in its list. -/
def exceeds (env : AuthMgr.Session.Env) (db : Db Value) (id : Bytes) (perm : Nsblast.Permission) :
    Bool :=
  match getTenant db id with
  | none => false
  | some tenant =>
      !tenant.allowedPermissions.isEmpty && !tenant.allowedPermissions.contains perm &&
        tenant.users.any fun user =>
          match make env tenant user.roles with
          | .ok session => session.isAllowedAnywhere env perm
          | _ => false

theorem not_confined_of_exceeds {env : AuthMgr.Session.Env} {db : Db Value} {id : Bytes}
    {perm : Nsblast.Permission} (exceeded : exceeds env db id perm = true) : ¬ Confined env db := by
  intro confined
  rw [exceeds] at exceeded
  split at exceeded
  · cases exceeded
  · rename_i tenant found
    simp only [Bool.and_eq_true, Bool.not_eq_true', any_eq_true] at exceeded
    obtain ⟨⟨listed, unlisted⟩, user, isUser, permits⟩ := exceeded
    split at permits
    · rename_i session made
      have allowed := confined id tenant ((getTenant_eq_some db id tenant).mp found)
        (by simpa using listed) user isUser session made perm (.inl permits)
      rw [← contains_iff_mem, unlisted] at allowed
      cases allowed
    · cases permits

/-- An administrator of roles and users gives itself the right to impersonate other
tenants, which its tenant does not have. -/
theorem administrator_gets_impersonation :
    AllConfining adminAccounts.db ∧ StoredTenant adminAccounts.db firstId adminTenant ∧
      make sampleAccountEnv.sessions adminTenant [[0x72]] = .ok adminSession ∧
      ∃ final, Serves sampleAccountEnv
          (fun _ request => request = createsRole .impersonateTenant ∨ request = takesRole)
          adminAccounts final ∧
        ¬ Confined sampleAccountEnv.sessions final.db := by
  have ran : (serveAccount sampleAccountEnv adminAccounts (createsRole .impersonateTenant) >>=
      fun middle => serveAccount sampleAccountEnv middle takesRole >>= fun final =>
        .ok (exceeds sampleAccountEnv.sessions final.db firstId .impersonateTenant)) = .ok true := by
    decide +kernel
  simp only [bind_eq_ok] at ran
  obtain ⟨middle, first, final, second, exceeded⟩ := ran
  have stored : getTenant adminAccounts.db firstId = some adminTenant := by decide +kernel
  refine ⟨adminAccounts_confining, (getTenant_eq_some _ _ _).mp stored, adminSession_made, final, ?_,
    not_confined_of_exceeds (ok.inj exceeded)⟩
  exact .tail (.single ⟨_, .inl rfl, first⟩) ⟨_, .inr rfl, second⟩

end samples

end Nsblast.RestApi
