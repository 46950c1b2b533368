import Nsblast.Accounts.RoleFilter

/-!
# The rights of several roles

A session collects the permissions that apply everywhere in one number and keeps the roles with
filters for later. Both are unions: a session is allowed what one of its roles grants, and what a
role grants does not depend on the others. A filter that is not valid, or whose pattern does not
compile, leaves the role without a matcher and has no effect on the roles behind it.

So the session of two sets of roles is allowed what one of the two sessions is.
-/

namespace Nsblast.AuthMgr.Session

open Pb Detail List

/-- `isAllowed` without a name. -/
def isAllowedWithoutName (env : Env) (session : Session) (perm : Permission) (opts : Options) :
    Run Bool := do
  Run.assert (!env.hasAuth || !opts.validateZone)
  let result := session.isAllowedAnywhere env perm
  Run.throwIf (!result && opts.throwOnFailure)
    ("Access denied for " ++ env.permissionName perm ++ ".")
  .ok result

section roles

variable (env : Env) (root : Bytes)

/-- The permissions a role adds for a name. -/
def atName (fqdn : Bytes) (role : Detail.Role) : Nat :=
  if !role.appliesToAll && role.matchesFqdn fqdn then role.permissions else 0

/-- A session is allowed what one of its roles grants at the name, or everywhere. -/
theorem grants_eq (session : Session) (perm : Permission) (fqdn : Bytes) :
    session.grants perm fqdn = (hasBit session.nonZonePerms perm ||
      session.roles.any fun role => hasBit (atName fqdn role) perm) := by
  have step : (fun (perms : Nat) (role : Detail.Role) =>
      if !role.appliesToAll && role.matchesFqdn fqdn then perms ||| role.permissions else perms) =
      fun perms role => perms ||| atName fqdn role := by
    funext perms role
    rw [atName]
    split
    · rfl
    · rw [Nat.or_zero]
  rw [grants, step, hasBit_foldl]

/-- What one role of the tenant grants everywhere. -/
def grantsEverywhere (perm : Permission) (role : Pb.Role) : Bool :=
  hasBit (everywhere (populated role)) perm

/-- What one role of the tenant grants at a name. -/
def grantsAt (perm : Permission) (fqdn : Bytes) (role : Pb.Role) : Bool :=
  grantsEverywhere perm role || hasBit (atName fqdn (initRole env root (populated role))) perm

variable {env root}

variable {session : Session}

variable {tenant : Tenant} {first roles second union : List Bytes}

/-- What a session that is made of roles is allowed everywhere. -/
theorem hasBit_of_make (made : make env tenant roles = .ok session) (perm : Permission) :
    hasBit session.nonZonePerms perm = (rolesOf tenant roles).any (grantsEverywhere perm) := by
  simp only [make, Run.bind_eq_ok] at made
  obtain ⟨_, _, tenantId, _, isSession⟩ := made
  cases isSession
  rw [hasBit_foldl, hasBit_zero, Bool.false_or, populate, any_map]
  rfl

/-- What a session that is made of roles is allowed at a name. -/
theorem grants_of_make (made : make env tenant roles = .ok session) (perm : Permission)
    (fqdn : Bytes) :
    session.grants perm fqdn =
      (rolesOf tenant roles).any (grantsAt env (tenant.root.getD []) perm fqdn) := by
  rw [grants_eq, hasBit_of_make made]
  simp only [make, Run.bind_eq_ok] at made
  obtain ⟨_, _, tenantId, _, isSession⟩ := made
  cases isSession
  rw [populate, any_map, any_map, Bool.eq_iff_iff, Bool.or_eq_true, any_eq_true,
    any_eq_true, any_eq_true]
  constructor
  · rintro (⟨role, member, granted⟩ | ⟨role, member, granted⟩)
    · exact ⟨role, member, by rw [grantsAt, granted, Bool.true_or]⟩
    · exact ⟨role, member, by rw [grantsAt, Bool.or_eq_true]; exact .inr granted⟩
  · rintro ⟨role, member, granted⟩
    rw [grantsAt, Bool.or_eq_true] at granted
    rcases granted with everywhere | atName
    · exact .inl ⟨role, member, everywhere⟩
    · exact .inr ⟨role, member, atName⟩

/-- The roles of a union of names are those of the one and those of the other. -/
theorem mem_rolesOf_union (tenant : Tenant)
    (isUnion : ∀ name, name ∈ union ↔ name ∈ first ∨ name ∈ second) (role : Pb.Role) :
    role ∈ rolesOf tenant union ↔ role ∈ rolesOf tenant first ∨ role ∈ rolesOf tenant second := by
  simp only [rolesOf, mem_filter, any_eq_true, isUnion]
  constructor
  · rintro ⟨member, name, inFirst | inSecond, same⟩
    · exact .inl ⟨member, name, inFirst, same⟩
    · exact .inr ⟨member, name, inSecond, same⟩
  · rintro (⟨member, name, inFirst, same⟩ | ⟨member, name, inSecond, same⟩)
    · exact ⟨member, name, .inl inFirst, same⟩
    · exact ⟨member, name, .inr inSecond, same⟩

theorem any_rolesOf_union (tenant : Tenant)
    (isUnion : ∀ name, name ∈ union ↔ name ∈ first ∨ name ∈ second) (test : Pb.Role → Bool) :
    (rolesOf tenant union).any test =
      ((rolesOf tenant first).any test || (rolesOf tenant second).any test) := by
  rw [Bool.eq_iff_iff, Bool.or_eq_true, any_eq_true, any_eq_true, any_eq_true]
  simp only [mem_rolesOf_union tenant isUnion, or_and_right, exists_or]

/-- Whether a session can be made depends on the tenant only. -/
theorem make_of_make (others : List Bytes) (made : make env tenant roles = .ok session) :
    ∃ other, make env tenant others = .ok other := by
  simp only [make, Run.bind_eq_ok] at made ⊢
  obtain ⟨_, hasId, tenantId, parsed, _⟩ := made
  exact ⟨_, _, hasId, tenantId, parsed, rfl⟩

end roles

/-- `isAllowed` without a name and without the validation of the zone. -/
theorem isAllowedWithoutName_iff (env : Env) (session : Session) (perm : Permission)
    (throwOnFailure : Bool) :
    session.isAllowedWithoutName env perm ⟨false, throwOnFailure⟩ = .ok true ↔
      session.isAllowedAnywhere env perm = true := by
  cases result : session.isAllowedAnywhere env perm <;> cases throwOnFailure <;>
    simp [isAllowedWithoutName, result, Run.assert, Run.throwIf]

/-- `isAllowed` on a name without the validation of the zone. -/
theorem isAllowed_iff (env : Env) (fuel : Nat) (session : Session) (perm : Permission)
    (fqdn : Bytes) (throwOnFailure : Bool) :
    session.isAllowed env fuel perm fqdn ⟨false, throwOnFailure⟩ = .done (.ok true) ↔
      env.hasAuth = false ∨ session.grants perm fqdn = true := by
  cases auth : env.hasAuth with
  | false =>
    simp only [isAllowed, auth]
    exact ⟨fun _ => .inl trivial, fun _ => rfl⟩
  | true => rw [isAllowed_unvalidated env auth, Bool.true_eq_false, false_or]

/-- The session of the roles in `first` or `second` is allowed, on a name or without one, what
the session of `first` or that of `second` is. -/
theorem allowed_of_union_iff (env : Env) (tenant : Tenant) (first second union : List Bytes)
    (isUnion : ∀ name, name ∈ union ↔ name ∈ first ∨ name ∈ second) (united : Session)
    (made : make env tenant union = .ok united) :
    ∃ one other, make env tenant first = .ok one ∧ make env tenant second = .ok other ∧
      ∀ perm throwOnFailure,
        (united.isAllowedWithoutName env perm ⟨false, throwOnFailure⟩ = .ok true ↔
          one.isAllowedWithoutName env perm ⟨false, throwOnFailure⟩ = .ok true ∨
          other.isAllowedWithoutName env perm ⟨false, throwOnFailure⟩ = .ok true) ∧
        ∀ fuel fqdn,
          (united.isAllowed env fuel perm fqdn ⟨false, throwOnFailure⟩ = .done (.ok true) ↔
            one.isAllowed env fuel perm fqdn ⟨false, throwOnFailure⟩ = .done (.ok true) ∨
            other.isAllowed env fuel perm fqdn ⟨false, throwOnFailure⟩ = .done (.ok true)) := by
  obtain ⟨one, isOne⟩ := make_of_make first made
  obtain ⟨other, isOther⟩ := make_of_make second made
  refine ⟨one, other, isOne, isOther, fun perm throwOnFailure => ⟨?_, fun fuel fqdn => ?_⟩⟩
  · rw [isAllowedWithoutName_iff, isAllowedWithoutName_iff, isAllowedWithoutName_iff,
      isAllowedAnywhere, isAllowedAnywhere, isAllowedAnywhere, Bool.or_eq_true, Bool.or_eq_true,
      Bool.or_eq_true, hasBit_of_make made, hasBit_of_make isOne, hasBit_of_make isOther,
      any_rolesOf_union tenant isUnion, Bool.or_eq_true]
    exact or_or_distrib_left
  · rw [isAllowed_iff, isAllowed_iff, isAllowed_iff, grants_of_make made,
      grants_of_make isOne, grants_of_make isOther,
      any_rolesOf_union tenant isUnion, Bool.or_eq_true]
    exact or_or_distrib_left

/-- A role whose filter is not valid: it has a blank in its name. -/
def brokenRole : Pb.Role where
  name := some [0x62]
  permissions := [.createRr]
  filter := some ⟨some [0x20], some true, none⟩

/-- The tenant with the role `r`, and the broken role before it. -/
def tenantWithBroken : Tenant := { tenantWithRoot [] with roles := [brokenRole, sampleRole] }

/-- With the broken role or without it, the role `r` grants the same. -/
theorem broken_role_united :
    ∃ united one other, make sampleEnv tenantWithBroken [[0x72], [0x62]] = .ok united ∧
      make sampleEnv tenantWithBroken [[0x72]] = .ok one ∧
      make sampleEnv tenantWithBroken [[0x62]] = .ok other ∧
      (united.isAllowed sampleEnv 0 .createRr [0x61, 0x2E, 0x6F] {} = .done (.ok true) ↔
        one.isAllowed sampleEnv 0 .createRr [0x61, 0x2E, 0x6F] {} = .done (.ok true) ∨
        other.isAllowed sampleEnv 0 .createRr [0x61, 0x2E, 0x6F] {} = .done (.ok true)) := by
  obtain ⟨one, other, isOne, isOther, laws⟩ := allowed_of_union_iff sampleEnv tenantWithBroken
    [[0x72]] [[0x62]] [[0x72], [0x62]] (by simp) _ rfl
  exact ⟨_, one, other, rfl, isOne, isOther, (laws .createRr false).2 0 _⟩

end Nsblast.AuthMgr.Session
