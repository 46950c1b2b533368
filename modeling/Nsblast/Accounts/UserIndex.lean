import Nsblast.Accounts.Changes

/-!
# The users of the tenants

The stored tenants have users with distinct ids, with a seed and a hash in place of a
password, and with roles of their tenant. The index of login names leads to exactly
the tenants that have a user of that name.

`processUsers` and the index are passed over by a merge into a stored tenant, which
appends the users it is given as they are. A removal that is given an id in capital
letters does not find the tenant whose index it has to clear, and the recursive
removal of a tenant may meet the keys of others.
-/

namespace Nsblast.AuthMgr

open Pb List Run

section sound

/-- A user that can log in, with roles of its tenant and no password to read. -/
structure SoundUser (roles : List Role) (user : User) : Prop where
  auth : ∃ hash seed, user.auth = some ⟨some hash, some seed, none⟩
  roles : ∀ role ∈ user.roles, (getFromList Role.name roles role).isSome = true

/-- The users of a tenant. -/
structure SoundTenant (tenant : Tenant) : Prop where
  ids : (tenant.users.map User.id).Nodup
  users : ∀ user ∈ tenant.users, user.id.isSome = true ∧ SoundUser tenant.roles user

variable {env : Env} {roles : List Role} {existing : Option Tenant} {position : Nat}
    {ids : List Bytes}

theorem checkRoles_eq_ok {name : Bytes} {userRoles : List Bytes}
    (checked : checkRoles env roles name userRoles = .ok ()) :
    ∀ role ∈ userRoles, (getFromList Role.name roles role).isSome = true := by
  induction userRoles with
  | nil => exact nofun
  | cons role rest ih =>
    rw [checkRoles, bind_eq_ok] at checked
    obtain ⟨_, defined, later⟩ := checked
    intro other member
    rcases mem_cons.mp member with rfl | member
    · by_contra missing
      rw [Bool.not_eq_true, Option.isSome_eq_false_iff] at missing
      rw [throwIf_of missing] at defined
      cases defined
    · exact ih later other member

/-- What a turn of the loop over the users has made of a user. -/
theorem processUser_eq_ok {user done : User}
    (processed : processUser env roles existing position ids user = .ok done) :
    done.name = user.name ∧ SoundUser roles done ∧ ∃ id, done.id = some id ∧ id ∉ ids := by
  simp only [processUser, bind_eq_ok] at processed
  obtain ⟨_, _, _, _, _, fresh, processed⟩ := processed
  split at processed
  · cases processed
  · rename_i auth _
    simp only [bind_eq_ok] at processed
    obtain ⟨_, _, _, _, _, _, _, checked, _, hashed, processed⟩ := processed
    cases processed
    refine ⟨rfl, ⟨?_, checkRoles_eq_ok checked⟩, _, rfl, ?_⟩
    · rw [hashPassword] at hashed ⊢
      cases password : auth.password with
      | some password => exact ⟨_, _, rfl⟩
      | none =>
        rw [password] at hashed
        cases isHash : auth.hash with
        | some hash => exact ⟨hash, _, rfl⟩
        | none =>
          rw [throwIf_of isHash] at hashed
          cases hashed
    · intro used
      rw [throwIf_of used] at fresh
      cases fresh

/-- What `processUsers` has made of the users. -/
theorem processUsers_eq_ok {users done : List User}
    (processed : processUsers env roles existing position ids users = .ok done) :
    done.map User.name = users.map User.name ∧ (done.map User.id).Nodup ∧
      ∀ user ∈ done, SoundUser roles user ∧ ∃ id, user.id = some id ∧ id ∉ ids := by
  induction users generalizing position ids done with
  | nil =>
    cases processed
    exact ⟨rfl, nodup_nil, nofun⟩
  | cons user rest ih =>
    rw [processUsers, bind_eq_ok] at processed
    obtain ⟨first, firstDone, processed⟩ := processed
    rw [bind_eq_ok] at processed
    obtain ⟨others, othersDone, same⟩ := processed
    cases same
    obtain ⟨name, sound, id, isId, fresh⟩ := processUser_eq_ok firstDone
    obtain ⟨names, distinct, others'⟩ := ih othersDone
    rw [isId, Option.getD_some] at others'
    refine ⟨?_, ?_, ?_⟩
    · rw [map_cons, map_cons, name, names]
    · rw [map_cons, nodup_cons]
      refine ⟨?_, distinct⟩
      intro member
      obtain ⟨other, isOther, sameId⟩ := mem_map.mp member
      obtain ⟨_, otherId, otherIs, differs⟩ := others' other isOther
      rw [isId, otherIs, Option.some.injEq] at sameId
      exact differs (sameId ▸ mem_cons_self)
    · intro other member
      rcases mem_cons.mp member with rfl | member
      · exact ⟨sound, id, isId, fresh⟩
      · obtain ⟨otherSound, otherId, otherIs, differs⟩ := others' other member
        exact ⟨otherSound, otherId, otherIs, fun used => differs (mem_cons_of_mem _ used)⟩

/-- A tenant whose users have been processed. -/
theorem soundTenant_of_processed (env : Env) (existing : Option Tenant) (tenant : Tenant)
    (users : List User)
    (processed : processUsers env tenant.roles existing 0 [] tenant.users = .ok users) :
    SoundTenant { tenant with users } ∧ ∀ name, HasUser { tenant with users } name ↔
      HasUser tenant name := by
  obtain ⟨names, distinct, sound⟩ :=
    processUsers_eq_ok processed
  refine ⟨⟨distinct, ?_⟩, ?_⟩
  · intro user member
    obtain ⟨isSound, id, isId, _⟩ := sound user member
    exact ⟨by rw [isId]; rfl, isSound⟩
  · intro name
    have named (list : List User) : (∃ user ∈ list, Name.toLower (user.name.getD []) =
        Name.toLower name) ↔ ∃ own ∈ list.map User.name, Name.toLower (own.getD []) =
          Name.toLower name := by
      simp
    rw [HasUser, HasUser, named, named, names]

end sound

/-- The users are as they should be, and the index leads to the tenants that have a
user of the name. -/
structure Consistent (db : Db Value) : Prop where
  sound : ∀ id tenant, StoredTenant db id tenant → SoundTenant tenant
  index : ∀ name id, account db (userKey name) = some (.text id) ↔
    ∃ tenant, StoredTenant db id tenant ∧ HasUser tenant name

/-- The invariant of the account store. -/
structure UsersInOrder (db : Db Value) : Prop where
  consistent : Consistent db
  byId : TenantsById db

section steps

variable {db next : Db Value} {id : Bytes} {tenant : Tenant}

/-- Storing a tenant whose users are sound keeps everything in order. -/
theorem Storing.usersInOrder (inOrder : UsersInOrder db)
    (storing : Storing db next id tenant (getTenant db id)) (sound : SoundTenant tenant) :
    UsersInOrder next := by
  obtain ⟨consistent, byId⟩ := inOrder
  have lower : Name.toLower id = id := by rw [← storing.isId, Name.toLower_toLower]
  have storedNext := storedTenant_iff storing.tenants
  -- a name that leads to a tenant in the old index
  have indexed (name other : Bytes) : account db (userKey name) = some (.text other) ↔
      ∃ tenant, StoredTenant db other tenant ∧ HasUser tenant name := consistent.index name other
  have ownedIff (name other : Bytes) (found : account db (userKey name) = some (.text other)) :
      Owned id (account db (userKey name)) ↔ other = id := by
    obtain ⟨old, stored, _⟩ := (indexed name other).mp found
    rw [found, Owned]
    simp only [readText, Option.mem_some_iff, exists_eq_left', lower]
    rw [byId.lower other old stored]
  have clearedIs (name other : Bytes) (differs : other ≠ id)
      (found : account db (userKey name) = some (.text other)) :
      cleared db id (getTenant db id) name = some (.text other) := by
    rw [cleared, if_neg fun both => differs ((ownedIff name other found).mp both.2), found]
  refine ⟨⟨?_, ?_⟩, byId.of_stored storing.isId storing.tenants⟩
  · intro other found stored
    rcases (storedNext other found).mp stored with ⟨_, rfl⟩ | ⟨_, before⟩
    · exact sound
    · exact consistent.sound other found before
  · intro name other
    rw [storing.users]
    constructor
    · intro found
      split at found
      · rename_i has
        cases found
        exact ⟨tenant, (storedNext id tenant).mpr (Or.inl ⟨rfl, rfl⟩), has⟩
      · rw [cleared] at found
        split at found
        · cases found
        · rename_i kept
          obtain ⟨old, stored, has⟩ := (indexed name other).mp found
          have differs : other ≠ id := by
            rintro rfl
            apply kept
            exact ⟨⟨old, (getTenant_eq_some db other old).mpr stored, has⟩,
              (ownedIff name other found).mpr rfl⟩
          exact ⟨old, (storedNext other old).mpr (Or.inr ⟨differs, stored⟩), has⟩
    · rintro ⟨found, stored, has⟩
      rcases (storedNext other found).mp stored with ⟨rfl, rfl⟩ | ⟨differs, before⟩
      · rw [if_pos has]
      · have old := clearedIs name other differs ((indexed name other).mpr ⟨found, before, has⟩)
        rw [if_neg, old]
        intro hasNew
        apply storing.free name hasNew
        rw [old]
        refine ⟨other, rfl, ?_⟩
        rw [byId.lower other found before, lower]
        exact differs

/-- A merge that brings no users. -/
theorem Merging.usersInOrder {existing : Tenant} (inOrder : UsersInOrder db)
    (merging : Merging db next id tenant existing) (noUsers : tenant.users = []) :
    UsersInOrder next := by
  obtain ⟨consistent, byId⟩ := inOrder
  have stored := merging.stored
  have mergedUsers : (existing.mergeFrom tenant).users = existing.users := by
    simp [Tenant.mergeFrom, noUsers]
  have sound := consistent.sound id existing stored
  refine ⟨⟨?_, ?_⟩, merging.tenantsById byId⟩
  · intro other found isFound
    rw [StoredTenant, merging.tenants] at isFound
    split at isFound
    · cases isFound
      refine ⟨mergedUsers ▸ sound.ids, ?_⟩
      intro user member
      rw [mergedUsers] at member
      obtain ⟨hasId, isSound⟩ := sound.users user member
      refine ⟨hasId, isSound.auth, ?_⟩
      intro role isRole
      have defined := isSound.roles role isRole
      rw [getFromList] at defined ⊢
      rw [Tenant.mergeFrom, find?_append]
      simp [defined]
    · exact consistent.sound other found isFound
  · intro name other
    have sameUsers : HasUser (existing.mergeFrom tenant) name ↔ HasUser existing name := by
      rw [HasUser, HasUser, mergedUsers]
    rw [merging.users, consistent.index]
    simp only [StoredTenant, merging.tenants]
    by_cases same : other = id
    · subst same
      rw [StoredTenant] at stored
      simp [stored, sameUsers]
    · simp [same]

/-- Removing a tenant. -/
theorem Removing.usersInOrder {tenantId : Bytes} (inOrder : UsersInOrder db)
    (removing : Removing db next tenantId tenant) :
    UsersInOrder next := by
  obtain ⟨consistent, byId⟩ := inOrder
  have lower := byId.lower tenantId tenant removing.stored
  refine ⟨⟨?_, ?_⟩, removing.tenantsById byId⟩
  · intro id found isFound
    rw [StoredTenant, removing.tenants] at isFound
    split at isFound
    · cases isFound
    · exact consistent.sound id found isFound
  · intro name id
    rw [removing.users]
    constructor
    · intro found
      split at found
      · cases found
      · rename_i kept
        obtain ⟨owner, isOwner, has⟩ := (consistent.index name id).mp found
        refine ⟨owner, ?_, has⟩
        rw [StoredTenant, removing.tenants, if_neg]
        · exact isOwner
        · rintro rfl
          cases removing.stored.symm.trans isOwner
          apply kept
          refine ⟨has, ?_⟩
          rintro ⟨other, isOther, differs⟩
          rw [found, readText, Option.mem_some_iff] at isOther
          subst isOther
          exact differs rfl
    · rintro ⟨owner, isOwner, has⟩
      rw [StoredTenant, removing.tenants] at isOwner
      split at isOwner
      · cases isOwner
      · rename_i differs
        have found := (consistent.index name id).mpr ⟨owner, isOwner, has⟩
        rw [if_neg]
        · exact found
        · rintro ⟨_, own⟩
          apply own
          rw [found]
          refine ⟨id, rfl, ?_⟩
          rw [byId.lower id owner isOwner, lower]
          exact differs

end steps

section runs

/-- The calls that keep the index: a merge into a stored tenant brings no users, a
tenant is removed by its id in lower case, and no other key ends like its key. -/
def KeepsUsers (accounts : Accounts) : Call → Prop
  | .create _ _ => True
  | .upsert _ _ tenant merge => merge = true →
      getTenant accounts.db (Name.toLower (tenant.id.getD [])) ≠ none → tenant.users = []
  | .delete tenantId => Name.toLower tenantId = tenantId ∧ RemovesOnly accounts.db tenantId

theorem usersInOrder_of_perform {accounts next : Accounts} {call : Call}
    (keeps : KeepsUsers accounts call) (performed : perform accounts call = .ok next)
    (inOrder : UsersInOrder accounts.db) : UsersInOrder next.db := by
  cases call with
  | create env tenant =>
    obtain ⟨id, users, _, processed, absent, storing⟩ := createTenant_eq_ok performed
    have missing : getTenant accounts.db id = none := by
      rw [account] at absent
      simp [getTenant, absent]
    rw [← missing] at storing
    exact Storing.usersInOrder inOrder storing (soundTenant_of_processed env none { tenant with
        id := some id, active := some (tenant.active.getD true) } users processed).1
  | upsert env tenantId tenant merge =>
    rcases upsertTenant_eq_ok performed with
      ⟨isMerge, existing, merging⟩ | ⟨_, users, processed, storing⟩
    · have found := (getTenant_eq_some _ _ _).mpr merging.stored
      exact Merging.usersInOrder inOrder merging (keeps isMerge (by simp [found]))
    · exact Storing.usersInOrder inOrder storing
        (soundTenant_of_processed env _ tenant users processed).1
  | delete tenantId =>
    obtain ⟨tenant, removing⟩ := deleteTenant_eq_ok _ inOrder.byId keeps.1 keeps.2 performed
    exact Removing.usersInOrder inOrder removing

theorem usersInOrder_of_empty {accounts : Accounts} (empty : NoAccounts accounts) :
    UsersInOrder accounts.db := by
  refine ⟨⟨?_, ?_⟩, ?_⟩
  · intro id tenant stored
    cases (empty _).symm.trans stored
  · intro name id
    rw [empty]
    constructor
    · exact nofun
    · rintro ⟨tenant, stored, _⟩
      cases (empty _).symm.trans stored
  · intro id value found
    cases (empty _).symm.trans found

/-- In every state reached by such calls, the users are in order and the index leads
to exactly the tenants that have them. -/
theorem users_consistent (start final : Accounts) (empty : NoAccounts start)
    (reaches : Reaches KeepsUsers start final) : Consistent final.db := by
  have kept : UsersInOrder final.db := by
    induction reaches with
    | refl => exact usersInOrder_of_empty empty
    | tail _ step ih =>
      obtain ⟨call, keeps, performed⟩ := step
      exact usersInOrder_of_perform keeps performed ih
  exact kept.consistent

theorem two_tenants_consistent :
    ∃ middle final, perform emptyAccounts (.create sampleEnv (tenantWithUser [0x61])) = .ok middle ∧
      perform middle (.create sampleEnv otherTenant) = .ok final ∧
      account final.db (userKey [0x61]) = some (.text firstId) ∧
      account final.db (userKey [0x62]) = some (.text secondId) ∧ Consistent final.db := by
  have ran : (perform emptyAccounts (.create sampleEnv (tenantWithUser [0x61])) >>= fun middle =>
      perform middle (.create sampleEnv otherTenant) >>= fun final =>
        .ok (decide (account final.db (userKey [0x61]) = some (.text firstId) ∧
          account final.db (userKey [0x62]) = some (.text secondId)))) = .ok true := by
    decide +kernel
  simp only [bind_eq_ok] at ran
  obtain ⟨middle, created, final, performed, indexed⟩ := ran
  obtain ⟨first, second⟩ := of_decide_eq_true (ok.inj indexed)
  exact ⟨middle, final, created, performed, first, second,
    users_consistent emptyAccounts final noAccounts_emptyAccounts
      (.tail (.single ⟨.create sampleEnv (tenantWithUser [0x61]), trivial, created⟩)
        ⟨.create sampleEnv otherTenant, trivial, performed⟩)⟩

/-- A merge stores the password of a new user, and no index leads to it. -/
theorem merged_user_keeps_password :
    ∃ middle final,
      perform emptyAccounts (.create sampleEnv (tenantWithUser [0x61])) = .ok middle ∧
      perform middle (.upsert sampleEnv firstId (tenantWithUser [0x62]) true) = .ok final ∧
      account final.db (userKey [0x62]) = none ∧
      (∃ tenant user, StoredTenant final.db firstId tenant ∧ user ∈ tenant.users ∧
        user.name = some [0x62] ∧ user.auth = some ⟨none, none, some [0x70]⟩) ∧
      ¬ Consistent final.db := by
  have ran : (perform emptyAccounts (.create sampleEnv (tenantWithUser [0x61])) >>= fun middle =>
      perform middle (.upsert sampleEnv firstId (tenantWithUser [0x62]) true) >>= fun final =>
        .ok (decide (account final.db (userKey [0x62]) = none ∧
          ∃ tenant ∈ getTenant final.db firstId, ∃ user ∈ tenant.users,
            user.name = some [0x62] ∧ user.auth = some ⟨none, none, some [0x70]⟩))) = .ok true := by
    decide +kernel
  simp only [bind_eq_ok] at ran
  obtain ⟨middle, created, final, merged, checked⟩ := ran
  obtain ⟨noIndex, tenant, isTenant, user, member, named, plain⟩ :=
    of_decide_eq_true (ok.inj checked)
  have stored := (getTenant_eq_some _ firstId tenant).mp isTenant
  refine ⟨middle, final, created, merged, noIndex, ⟨tenant, user, stored, member, named, plain⟩, ?_⟩
  intro consistent
  obtain ⟨hash, seed, auth⟩ := ((consistent.sound _ _ stored).users user member).2.auth
  cases plain.symm.trans auth

end runs

end Nsblast.AuthMgr
