import Mathlib.Data.Nat.Bitwise
import Nsblast.Accounts.Tenant
import Nsblast.Rest.ResourceRecord

/-!
# Sessions and their roles

A session holds the roles of the user who has logged in. A role grants its permissions
everywhere, or on the names its filter matches: those at or below the name of the
filter, and those that match a regular expression that `Session::init` makes from the
filter and the root of the tenant.

`std::regex` is given as a function that compiles a pattern to a full match, or rejects
it. So are the parser of uuids and the texts of an error. Permissions are bits of a
number, as in the source; there are less than 64 of them.
-/

namespace Nsblast

open Pb

namespace Permission

/-- The number of a permission in `nsblast.proto`, which lists them in this order. -/
def toNat (perm : Permission) : Nat := perm.ctorIdx

theorem toNat_injective {first second : Permission} (same : first.toNat = second.toNat) :
    first = second := by
  cases first <;> cases second <;> first | rfl | cases same

end Permission

namespace Detail

/-- `detail::getBit`. -/
def getBit (perm : Permission) : Nat := 1 <<< perm.toNat

/-- `detail::getPerms`. -/
def getPerms (perms : List Permission) :
    Nat := perms.foldl (fun bits perm => bits ||| getBit perm) 0

/-- The bit of a permission is set. -/
def hasBit (bits : Nat) (perm : Permission) : Bool := bits &&& getBit perm == getBit perm

theorem hasBit_eq (bits : Nat) (perm : Permission) :
    hasBit bits perm = bits.testBit perm.toNat := by
  rw [hasBit, getBit, Nat.one_shiftLeft, Nat.and_comm, Nat.two_pow_and]
  cases bits.testBit perm.toNat with
  | true => simp
  | false => simp [(Nat.two_pow_pos perm.toNat).ne]

theorem hasBit_getBit (own perm : Permission) : hasBit (getBit own) perm = (own == perm) := by
  rw [hasBit_eq, getBit, Nat.one_shiftLeft, Nat.testBit_two_pow, Bool.eq_iff_iff, decide_eq_true_iff,
    beq_iff_eq]
  constructor
  · exact Permission.toNat_injective
  · exact congrArg Permission.toNat

variable (first second : Nat) (perm : Permission)

@[simp] theorem hasBit_or :
    hasBit (first ||| second) perm = (hasBit first perm || hasBit second perm) := by
  simp [hasBit_eq]

@[simp] theorem hasBit_and :
    hasBit (first &&& second) perm = (hasBit first perm && hasBit second perm) := by
  simp [hasBit_eq]

@[simp] theorem hasBit_zero : hasBit 0 perm = false := by
  simp [hasBit_eq]

/-- The bits that a loop collects are those of its elements. -/
theorem hasBit_foldl {α : Type} (bitsOf : α → Nat) (elements : List α) (bits : Nat) :
    hasBit (elements.foldl (fun bits element => bits ||| bitsOf element) bits) perm =
      (hasBit bits perm || elements.any fun element => hasBit (bitsOf element) perm) := by
  induction elements generalizing bits with
  | nil => simp
  | cons element rest ih => rw [List.foldl_cons, ih, hasBit_or, List.any_cons, Bool.or_assoc]

@[simp] theorem hasBit_getPerms (perms : List Permission) (perm : Permission) :
    hasBit (getPerms perms) perm = perms.contains perm := by
  rw [getPerms, hasBit_foldl, hasBit_zero, Bool.false_or, List.contains_eq_any_beq]
  simp only [hasBit_getBit, BEq.comm]

/-- `detail::ZoneFilter`. -/
structure ZoneFilter where
  fqdn : Bytes
  recursive : Bool
  regex : Bytes
  matcher : Option (Bytes → Bool) := none

/-- A filter with its defaults. -/
def ZoneFilter.ofPb (filter : Pb.ZoneFilter) : ZoneFilter where
  fqdn := filter.fqdn.getD []
  recursive := filter.recursive.getD true
  regex := filter.regex.getD []

/-- `detail::Role`. -/
structure Role where
  name : Bytes
  permissions : Nat
  filters : Option ZoneFilter

end Detail

/-- `isSameZone`. -/
def isSameZone (zone fqdn : Bytes) : Bool :=
  if fqdn.length < zone.length then false
  else
    let start := fqdn.length - zone.length
    compareCaseInsensitive zone (fqdn.drop start) &&
      (zone.length == fqdn.length || fqdn[start - 1]? == some 0x2E)

/-- The first part of `matchesFqdn`: the name of the filter as it was given. -/
def Detail.ZoneFilter.matchesName (filter : Detail.ZoneFilter) (fqdn : Bytes) : Bool :=
  !filter.fqdn.isEmpty && if filter.recursive then isSameZone filter.fqdn fqdn else filter.fqdn == fqdn

namespace Detail.Role

def appliesToAll (role : Role) : Bool :=
  match role.filters with
  | none => true
  | some filter => filter.fqdn.isEmpty && filter.regex.isEmpty

def matchesFqdn (role : Role) (fqdn : Bytes) : Bool :=
  match role.filters with
  | none => false
  | some filter => filter.matchesName fqdn || filter.matcher.any fun accepts => accepts fqdn

end Detail.Role

namespace AuthMgr

/-- A session, for the user of a tenant. -/
structure Session where
  nonZonePerms : Nat
  roles : List Detail.Role
  tenant : Bytes
  tenantId : Uuid

namespace Session

structure Env where
  hasAuth : Bool
  regex : Bytes → Option (Bytes → Bool)
  parseUuid : Bytes → Run Uuid
  permissionName : Permission → String
  toText : Bytes → String

/-- The roles of the tenant that the user has. -/
def rolesOf (tenant : Tenant) (roles : List Bytes) : List Pb.Role :=
  tenant.roles.filter fun role => roles.any fun name => compareCaseInsensitive name (role.name.getD [])

/-- A role as the session holds it before its pattern is compiled. -/
def populated (role : Pb.Role) : Detail.Role where
  name := Name.toLower (role.name.getD [])
  permissions := Detail.getPerms role.permissions
  filters := role.filter.map Detail.ZoneFilter.ofPb

/-- `populate`. -/
def populate (tenant : Tenant) (roles : List Bytes) : List Detail.Role :=
  (rolesOf tenant roles).map populated

/-- The permissions that have no relation to a name. -/
def nameIndependent : List Permission :=
  [.useApi, .getRole, .getUser, .getSelfTenant, .listTenants, .listUsers, .listRoles, .listApikeys,
    .createApikey, .createRole, .createUser, .createTenant, .deleteRole, .deleteSelfUser,
    .deleteSelfTenant, .deleteApikey, .updateRole, .updateUser, .updateSelfTenant, .metrics]

section pattern

/-- A character of `is_valid_hostname`. -/
def hostnameByte (ch : UInt8) : Bool :=
  ch == 0x5F || (0x61 ≤ ch && ch ≤ 0x7A) || (0x41 ≤ ch && ch ≤ 0x5A) || (0x30 ≤ ch && ch ≤ 0x39) ||
    ch == 0x2E || ch == 0x2D

/-- The name, with a dot at its end. -/
def withDot (fqdn : Bytes) : Bytes := if fqdn.getLast? = some 0x2E then fqdn else fqdn ++ [0x2E]

/-- `boost::replace_all(pattern, ".", "\\.")`. -/
def escapeDots (pattern : Bytes) : Bytes :=
  pattern.flatMap fun ch => if ch = 0x2E then [0x5C, 0x2E] else [ch]

/-- The name of the filter and the root, or nothing if the filter is not valid. -/
def filterName (root : Bytes) (filter : Detail.ZoneFilter) : Option Bytes :=
  if filter.fqdn = [] then
    if filter.recursive then some root else none
  else if filter.fqdn.all hostnameByte then some (withDot filter.fqdn ++ root) else none

/-- The pattern `^(name)$`. -/
def exactPattern (name : Bytes) : Bytes := [0x5E, 0x28] ++ escapeDots name ++ [0x29, 0x24]

/-- The pattern `^(.*\.)*(name)$`. -/
def belowPattern (name : Bytes) : Bytes :=
  [0x5E, 0x28, 0x2E, 0x2A, 0x5C, 0x2E, 0x29, 0x2A, 0x28] ++ escapeDots name ++ [0x29, 0x24]

/-- The pattern `^(regex)(name)$`. -/
def regexPattern (regex name : Bytes) : Bytes :=
  [0x5E, 0x28] ++ regex ++ [0x29, 0x28] ++ escapeDots name ++ [0x29, 0x24]

/-- The pattern of a filter. -/
def filterPattern (root : Bytes) (filter : Detail.ZoneFilter) : Option Bytes := do
  let name ← filterName root filter
  if 0x5C ∈ name then none
  else if filter.regex ≠ [] then some (regexPattern filter.regex name)
  else if filter.recursive then some (belowPattern name)
  else some (exactPattern name)

end pattern

/-- The part of the loop of `init` that compiles the pattern. -/
def initRole (env : Env) (root : Bytes) (role : Detail.Role) : Detail.Role :=
  { role with filters := role.filters.map fun filter =>
      { filter with
        matcher := (filterPattern root filter).bind fun pattern => env.regex (Name.toLower pattern) } }

/-- The permissions a role adds to those that apply everywhere. -/
def everywhere (role : Detail.Role) : Nat :=
  if role.appliesToAll then role.permissions
  else role.permissions &&& Detail.getPerms nameIndependent

/-- The constructor, with `populate` and `init`. -/
def make (env : Env) (tenant : Tenant) (roles : List Bytes) : Run Session := do
  let own := populate tenant roles
  Run.assert tenant.id.isSome
  let tenantId ← env.parseUuid (tenant.id.getD [])
  .ok {
    nonZonePerms := own.foldl (fun perms role => perms ||| everywhere role) 0
    roles := own.map (initRole env (tenant.root.getD []))
    tenant := tenant.id.getD []
    tenantId }

/-- The roles that apply to a name, and those that apply everywhere, grant the
permission. -/
def grants (session : Session) (perm : Permission) (fqdn : Bytes) : Bool :=
  Detail.hasBit (session.roles.foldl (fun perms role =>
    if !role.appliesToAll && role.matchesFqdn fqdn then perms ||| role.permissions else perms)
    session.nonZonePerms) perm

/-- `isAllowed` without a name, as callers that give no options see it. -/
def isAllowedAnywhere (env : Env) (session : Session) (perm : Permission) : Bool :=
  !env.hasAuth || Detail.hasBit session.nonZonePerms perm

/-- What the validation of the zone finds. -/
inductive ZoneCheck where
  | passed
  | unknown
  | foreign
  deriving DecidableEq, Repr

/-- The validation of the zone of a name. -/
def checkZone (fuel : Nat) (tenantId : Uuid) (creates : Bool) (fqdn : Bytes) : Trx ZoneCheck := do
  let found ← RestApi.lookupEntryAndSoa fuel fqdn
  return match found.soa with
    | none => if creates then .passed else .unknown
    | some zone =>
        match zone.tenantId with
        | some id => if id ≠ tenantId then .foreign else .passed
        | none => .passed

structure Options where
  validateZone : Bool := false
  throwOnFailure : Bool := false

/-- `isAllowed` on a name. A foreign zone is not reported by an exception. -/
def isAllowed (env : Env) (fuel : Nat) (session : Session) (perm : Permission) (fqdn : Bytes)
    (opts : Options) : Trx Bool :=
  let failed : Trx Bool :=
    if opts.throwOnFailure then
      .done (.thrown ("Access denied for permission " ++ env.permissionName perm ++ " on zone " ++
        env.toText fqdn))
    else return false
  if !env.hasAuth then return true
  else do
    let check ← if opts.validateZone then checkZone fuel session.tenantId (perm == .createZone) fqdn
      else pure .passed
    match check with
    | .foreign => return false
    | .unknown => failed
    | .passed => if session.grants perm fqdn then return true else failed

end Session

end AuthMgr

end Nsblast
