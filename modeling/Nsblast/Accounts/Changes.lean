import Nsblast.Accounts.Tenant

/-!
# What a call changes in the account store

Each call that succeeds stores a tenant with its users, merges into a stored tenant,
or removes one. For each of the three, this says what is under the keys of the
tenants, of the login names and of the tenant names afterwards.
-/

namespace Nsblast.AuthMgr

open Pb Name Run
open Transaction (get_remove get_write write)

/-- One call to the account manager. -/
inductive Call where
  | create (env : Env) (tenant : Tenant)
  | upsert (env : Env) (tenantId : Bytes) (tenant : Tenant) (merge : Bool)
  | delete (tenantId : Bytes)

/-- A call that succeeds. One that fails changes nothing. -/
def perform (accounts : Accounts) : Call → Run Accounts
  | .create env tenant => createTenant env accounts tenant
  | .upsert env tenantId tenant merge => upsertTenant env accounts tenantId tenant merge
  | .delete tenantId => deleteTenant accounts tenantId

/-- A value of the account category. -/
def account (db : Db Value) (key : Key) : Option Value := (db.families .account)[key]?

/-- The tenant with this id. -/
def StoredTenant (db : Db Value) (id : Bytes) (tenant : Tenant) : Prop :=
  account db (tenantKey id) = some (.tenant tenant)

section keys

theorem tenantKey_injective {first second : Bytes} (same : tenantKey first = tenantKey second) :
    first = second := by
  simpa [tenantKey, RealKey.init, RealKey.isReversed] using same

theorem tenantNameKey_injective {first second : Bytes}
    (same : tenantNameKey first = tenantNameKey second) : first = second := by
  simpa [tenantNameKey, RealKey.init, RealKey.isReversed] using same

theorem userKey_eq_iff (first second : Bytes) :
    userKey first = userKey second ↔ toLower first = toLower second := by
  simp [userKey, RealKey.init, RealKey.isReversed]

theorem userKey_ne_tenantKey (name id : Bytes) : userKey name ≠ tenantKey id := by
  simp [userKey, tenantKey, RealKey.init, RealKey.Class.toByte]

theorem tenantNameKey_ne_tenantKey (name id : Bytes) : tenantNameKey name ≠ tenantKey id := by
  simp [tenantNameKey, tenantKey, RealKey.init, RealKey.Class.toByte]

theorem tenantNameKey_ne_userKey (tenantName name : Bytes) :
    tenantNameKey tenantName ≠ userKey name := by
  simp [tenantNameKey, userKey, RealKey.init, RealKey.Class.toByte]

end keys

/-- The name is the login name of a user of the tenant. -/
def HasUser (tenant : Tenant) (name : Bytes) : Prop :=
  ∃ user ∈ tenant.users, toLower (user.name.getD []) = toLower name

instance (tenant : Tenant) (name : Bytes) : Decidable (HasUser tenant name) :=
  inferInstanceAs (Decidable (∃ user ∈ tenant.users, _))

/-- Tenants are stored under their ids in lower case. -/
def TenantsById (db : Db Value) : Prop :=
  ∀ id value, account db (tenantKey id) = some value →
    ∃ tenant, value = .tenant tenant ∧ toLower (tenant.id.getD []) = id

theorem TenantsById.lower {db : Db Value} (byId : TenantsById db) (id : Bytes) (tenant : Tenant)
    (stored : StoredTenant db id tenant) : toLower id = id := by
  obtain ⟨_, _, isId⟩ := byId id _ stored
  rw [← isId, toLower_toLower]

theorem getTenant_eq_some (db : Db Value) (id : Bytes) (tenant : Tenant) :
    getTenant db id = some tenant ↔ StoredTenant db id tenant := by
  rw [getTenant, StoredTenant, account]
  constructor
  · intro found
    split at found
    · rename_i stored isStored
      cases found
      exact isStored
    · cases found
  · intro stored
    simp [stored]

section loops

variable (env : Env) (db : Db Value) (id : Bytes)

/-- The name of one of the users leads to the key. -/
def IsUserKey (users : List User) (key : Key) : Prop :=
  ∃ user ∈ users, key = userKey (user.name.getD [])

instance (users : List User) (key : Key) : Decidable (IsUserKey users key) :=
  inferInstanceAs (Decidable (∃ user ∈ users, _))

theorem isUserKey_cons (user : User) (rest : List User) (key : Key) :
    IsUserKey (user :: rest) key ↔ key = userKey (user.name.getD []) ∨ IsUserKey rest key := by
  simp [IsUserKey]

theorem isUserKey_userKey (tenant : Tenant) (name : Bytes) :
    IsUserKey tenant.users (userKey name) ↔ HasUser tenant name := by
  simp only [IsUserKey, HasUser, userKey_eq_iff, eq_comm]

/-- The key leads to the tenant. -/
def Owned (content : Option Value) : Prop :=
  ∃ owner ∈ readText content, toLower owner = toLower id

instance (content : Option Value) : Decidable (Owned id content) :=
  inferInstanceAs (Decidable (∃ owner ∈ readText content, _))

/-- The key leads to another tenant. -/
def Foreign (content : Option Value) : Prop :=
  ∃ owner ∈ readText content, toLower owner ≠ toLower id

instance (content : Option Value) : Decidable (Foreign id content) :=
  inferInstanceAs (Decidable (∃ owner ∈ readText content, _))

/-- A loop over users that removes the keys with a certain content. -/
theorem get_of_clearing (p : Option Value → Prop) [DecidablePred p]
    (loop : List User → Transaction Value → Transaction Value) (nil : ∀ trx, loop [] trx = trx)
    (cons : ∀ user rest trx, loop (user :: rest) trx =
      if p (trx.get db .account (userKey (user.name.getD []))) then
        loop rest (trx.remove db (userKey (user.name.getD [])) false .account)
      else loop rest trx) (users : List User) (trx : Transaction Value) (key : Key) :
    (loop users trx).get db .account key =
      if IsUserKey users key ∧ p (trx.get db .account key) then none
      else trx.get db .account key := by
  induction users generalizing trx with
  | nil => simp [nil, IsUserKey]
  | cons user rest ih =>
    rw [cons]
    split
    · rename_i holds
      rw [ih, get_remove]
      by_cases here : userKey (user.name.getD []) = key
      · subst here
        simp [isUserKey_cons, holds]
      · simp [isUserKey_cons, here, Ne.symm here]
    · rename_i fails
      rw [ih]
      congr 1
      rw [isUserKey_cons, eq_iff_iff]
      constructor
      · rintro ⟨named, holds⟩
        exact ⟨Or.inr named, holds⟩
      · rintro ⟨rfl | named, holds⟩
        · exact absurd holds fails
        · exact ⟨named, holds⟩

variable {next : Transaction Value} {tenant : Tenant} (users : List User)

/-- The first loop clears the names that lead to the tenant. -/
theorem get_removeUserNames (trx : Transaction Value) (key : Key) :
    (removeUserNames db id users trx).get db .account key =
      if IsUserKey users key ∧ Owned id (trx.get db .account key) then none
      else trx.get db .account key := by
  refine get_of_clearing db (Owned id) (removeUserNames db id) (fun _ => rfl) (fun user rest trx => ?_)
    users trx key
  rw [removeUserNames]
  cases found : readText (trx.get db .account (userKey (user.name.getD []))) with
  | none => simp [Owned, found]
  | some owner => simp [Owned, found, compareCaseInsensitive_iff]

/-- The second loop finds no name of another tenant, and leads all names to the
tenant. -/
theorem writeUserNames_eq_ok {users : List User} {trx : Transaction Value}
    (written : writeUserNames env db id users trx = .ok next) :
    (∀ key, IsUserKey users key → ¬ Foreign id (trx.get db .account key)) ∧
      ∀ key, next.get db .account key =
        if IsUserKey users key then some (.text (toLower id)) else trx.get db .account key := by
  induction users generalizing trx with
  | nil =>
    cases written
    exact ⟨by simp [IsUserKey], by simp [IsUserKey]⟩
  | cons user rest ih =>
    simp only [writeUserNames, bind_eq_ok] at written
    obtain ⟨_, free, middle, first, later⟩ := written
    obtain ⟨othersFree, content⟩ := ih later
    have after := get_write first .account
    constructor
    · intro key named foreign
      by_cases here : key = userKey (user.name.getD [])
      · subst here
        obtain ⟨owner, found, differs⟩ := foreign
        have taken : ∃ owner ∈ readText (trx.get db .account (userKey (user.name.getD []))),
            compareCaseInsensitive owner id = false := by
          refine ⟨owner, found, ?_⟩
          rw [Bool.eq_false_iff]
          exact fun same => differs ((compareCaseInsensitive_iff _ _).mp same)
        rw [throwIf_of taken] at free
        cases free
      · have namedRest := ((isUserKey_cons user rest key).mp named).resolve_left here
        apply othersFree key namedRest
        rw [after, if_neg fun both => here both.2.symm]
        exact foreign
    · intro key
      rw [content, after]
      by_cases here : userKey (user.name.getD []) = key
      · simp [isUserKey_cons, here]
      · simp [isUserKey_cons, here, Ne.symm here]

/-- The loop of a removal. -/
theorem get_deleteUserIndexes (trx : Transaction Value) (key : Key) :
    (deleteUserIndexes db id users trx).get db .account key =
      if IsUserKey users key ∧ ¬ Foreign id (trx.get db .account key) then none
      else trx.get db .account key := by
  refine get_of_clearing db (fun content => ¬ Foreign id content) (deleteUserIndexes db id)
    (fun _ => rfl) (fun user rest trx => ?_) users trx key
  rw [deleteUserIndexes]
  cases found : readText (trx.get db .account (userKey (user.name.getD []))) with
  | none => simp [Foreign, found]
  | some owner => simp [Foreign, found]

variable {existing : Option Tenant} {trx : Transaction Value}

/-- What `upsertTenantIndexes` changes: the old name leads nowhere, and the new one to the tenant. -/
theorem get_of_upsertTenantIndexes (written : upsertTenantIndexes db tenant existing trx = .ok next)
    (key : Key) : next.get db .account key =
      if ∃ old ∈ existing, old.name.getD [] = tenant.name.getD [] then trx.get db .account key
      else if tenantNameKey (tenant.name.getD []) = key then some (.text (tenant.id.getD []))
      else if ∃ old ∈ existing, tenantNameKey (old.name.getD []) = key then none
      else trx.get db .account key := by
  cases existing with
  | none => simp [get_write written]
  | some existing =>
    rw [upsertTenantIndexes] at written
    split at written
    · rename_i same
      cases written
      simp [same]
    · rename_i differs
      simp [get_write written, differs, get_remove]

/-- The index of tenant names is apart from the others. -/
theorem upsertTenantIndexes_frame (written : upsertTenantIndexes db tenant existing trx = .ok next)
    {key : Key} (other : ∀ name, tenantNameKey name ≠ key) :
    next.get db .account key = trx.get db .account key := by
  simp [get_of_upsertTenantIndexes db written, other]

/-- The index of tenant names, when a tenant takes the place of another. -/
def renamed (tenant : Tenant) (existing : Option Tenant) (name : Bytes) (content : Option Value) :
    Option Value :=
  if ∃ old ∈ existing, old.name.getD [] = tenant.name.getD [] then content
  else if name = tenant.name.getD [] then some (.text (tenant.id.getD []))
  else if ∃ old ∈ existing, old.name.getD [] = name then none
  else content

theorem get_upsertTenantIndexes (written : upsertTenantIndexes db tenant existing trx = .ok next)
    (name : Bytes) : next.get db .account (tenantNameKey name) =
      renamed tenant existing name (trx.get db .account (tenantNameKey name)) := by
  have sameKey (own : Bytes) : tenantNameKey own = tenantNameKey name ↔ own = name :=
    ⟨tenantNameKey_injective, fun same => by rw [same]⟩
  simp only [get_of_upsertTenantIndexes db written, sameKey, renamed, eq_comm]

end loops

/-- What is stored after a commit. -/
theorem account_commit (accounts : Accounts) (trx : Transaction Value) (key : Key) :
    account (accounts.commit trx).db key = trx.get accounts.db .account key :=
  Transaction.commit_get accounts.db accounts.trxId trx .account key

section storing

/-- The index at a name, after the names of the existing tenant are cleared. -/
def cleared (db : Db Value) (id : Bytes) (existing : Option Tenant) (name : Bytes) : Option Value :=
  if (∃ tenant ∈ existing, HasUser tenant name) ∧ Owned id (account db (userKey name)) then none
  else account db (userKey name)

/-- What storing a tenant with its users changes. -/
structure Storing (db next : Db Value) (id : Bytes) (tenant : Tenant) (existing : Option Tenant) :
    Prop where
  isId : toLower (tenant.id.getD []) = id
  tenants : ∀ other, account next (tenantKey other) =
    if other = id then some (.tenant tenant) else account db (tenantKey other)
  users : ∀ name, account next (userKey name) =
    if HasUser tenant name then some (.text id) else cleared db id existing name
  free : ∀ name, HasUser tenant name → ¬ Foreign id (cleared db id existing name)
  names : ∀ name, account next (tenantNameKey name) =
    renamed tenant existing name (account db (tenantNameKey name))

variable {id : Bytes} {tenant : Tenant} {isNew : Bool}

/-- What the first write of a transaction shows. -/
theorem get_of_first_write {db : Db Value} {first : Transaction Value}
    (written : write db {} (tenantKey id) (.tenant tenant) isNew .account = .ok first) :
    (∀ other, first.get db .account (tenantKey other) =
        if other = id then some (.tenant tenant) else account db (tenantKey other)) ∧
      (∀ name, first.get db .account (userKey name) = account db (userKey name)) ∧
      ∀ name, first.get db .account (tenantNameKey name) = account db (tenantNameKey name) := by
  have after (key : Key) := get_write written .account key
  refine ⟨fun other => ?_, fun name => ?_, fun name => ?_⟩
  · rw [after]
    by_cases same : other = id
    · simp [same]
    · rw [if_neg same, if_neg fun both => same (tenantKey_injective both.2).symm]
      rfl
  · rw [after, if_neg fun both => userKey_ne_tenantKey name id both.2.symm]
    rfl
  · rw [after, if_neg fun both => tenantNameKey_ne_tenantKey name id both.2.symm]
    rfl

theorem storing_of_writes {env : Env} {accounts : Accounts} {existing : Option Tenant}
    {first second third : Transaction Value} (isId : toLower (tenant.id.getD []) = id)
    (written : write accounts.db {} (tenantKey id) (.tenant tenant) isNew .account = .ok first)
    (indexed : upsertUserIndexes env accounts.db tenant existing first = .ok second)
    (named : upsertTenantIndexes accounts.db tenant existing second = .ok third) :
    Storing accounts.db (accounts.commit third).db id tenant existing := by
  obtain ⟨tenantFirst, userFirst, nameFirst⟩ := get_of_first_write written
  have lower : toLower id = id := by rw [← isId, toLower_toLower]
  have sameOwned (content : Option Value) : Owned (tenant.id.getD []) content ↔ Owned id content := by
    rw [Owned, Owned, isId, lower]
  have sameForeign (content : Option Value) :
      Foreign (tenant.id.getD []) content ↔ Foreign id content := by
    rw [Foreign, Foreign, isId, lower]
  -- the loop over the existing users
  obtain ⟨middle, isMiddle, loop⟩ : ∃ middle,
      (∀ key, middle.get accounts.db .account key = if (∃ old ∈ existing, IsUserKey old.users key) ∧
          Owned (tenant.id.getD []) (first.get accounts.db .account key) then none
        else first.get accounts.db .account key) ∧
      writeUserNames env accounts.db (tenant.id.getD []) tenant.users middle = .ok second := by
    cases existing with
    | none => exact ⟨first, by simp, indexed⟩
    | some old => exact ⟨_, by simp [get_removeUserNames], indexed⟩
  obtain ⟨free, content⟩ := writeUserNames_eq_ok env accounts.db _ loop
  have userMiddle (name : Bytes) : middle.get accounts.db .account (userKey name) =
      cleared accounts.db id existing name := by
    rw [isMiddle, userFirst, cleared]
    simp only [isUserKey_userKey, sameOwned]
  have notName (name : Bytes) (users : List User) : ¬ IsUserKey users (tenantNameKey name) := by
    rintro ⟨user, _, same⟩
    exact tenantNameKey_ne_userKey _ _ same
  have notIndex (id : Bytes) (users : List User) : ¬ IsUserKey users (tenantKey id) := by
    rintro ⟨user, _, same⟩
    exact userKey_ne_tenantKey _ _ same.symm
  refine ⟨isId, ?_, ?_, ?_, ?_⟩
  · intro other
    rw [account_commit, upsertTenantIndexes_frame _ named
      fun name => tenantNameKey_ne_tenantKey name other, content, if_neg (notIndex other _), isMiddle,
      if_neg fun both => both.1.elim fun old has => notIndex other _ has.2, tenantFirst]
  · intro name
    rw [account_commit, upsertTenantIndexes_frame _ named
      fun other => tenantNameKey_ne_userKey other name, content, userMiddle]
    simp only [isUserKey_userKey, isId]
  · intro name has
    have notForeign := free (userKey name) ((isUserKey_userKey tenant name).mpr has)
    rw [userMiddle, sameForeign] at notForeign
    exact notForeign
  · intro name
    rw [account_commit, get_upsertTenantIndexes _ named, content, if_neg (notName name _),
      isMiddle, if_neg fun both => both.1.elim fun old has => notName name _ has.2, nameFirst]

/-- Creating a tenant stores it under an id that is free. -/
theorem createTenant_eq_ok {env : Env} {accounts next : Accounts}
    (created : createTenant env accounts tenant = .ok next) :
    ∃ id users, id = createdId env tenant ∧
      processUsers env tenant.roles none 0 [] tenant.users = .ok users ∧
      account accounts.db (tenantKey id) = none ∧
      Storing accounts.db next.db id
        { tenant with id := some id, active := some (tenant.active.getD true), users } none := by
  have lower : toLower (createdId env tenant) = createdId env tenant := by
    rw [createdId]
    cases tenant.id with
    | some own => exact toLower_toLower own
    | none => exact toLower_toLower _
  rw [createTenant] at created
  generalize createdId env tenant = id at created lower ⊢
  simp only [bind_eq_ok] at created
  obtain ⟨_, absent, _, _, users, processed, first, written, second, indexed, third, named, same⟩ :=
    created
  cases same
  refine ⟨id, users, rfl, processed, ?_, storing_of_writes lower written indexed named⟩
  by_contra found
  rw [account] at found
  rw [throwIf_of (Option.isSome_iff_ne_none.mpr found)] at absent
  cases absent

end storing

section merging

/-- What a merge into a stored tenant changes. -/
structure Merging (db next : Db Value) (id : Bytes) (tenant existing : Tenant) : Prop where
  isId : toLower (tenant.id.getD []) = id
  stored : StoredTenant db id existing
  tenants : ∀ other, account next (tenantKey other) =
    if other = id then some (.tenant (existing.mergeFrom tenant)) else account db (tenantKey other)
  users : ∀ name, account next (userKey name) = account db (userKey name)
  names : ∀ name, account next (tenantNameKey name) =
    renamed tenant (some (existing.mergeFrom tenant)) name (account db (tenantNameKey name))

theorem merging_of_writes {accounts : Accounts} {tenant existing : Tenant} {id : Bytes}
    (isId : toLower (tenant.id.getD []) = id) (stored : StoredTenant accounts.db id existing)
    {first second : Transaction Value}
    (written : write accounts.db {} (tenantKey id) (.tenant (existing.mergeFrom tenant))
      false .account = .ok first)
    (named : upsertTenantIndexes accounts.db tenant (some (existing.mergeFrom tenant)) first =
      .ok second) : Merging accounts.db (accounts.commit second).db id tenant existing := by
  obtain ⟨tenantFirst, userFirst, nameFirst⟩ := get_of_first_write written
  refine ⟨isId, stored, ?_, ?_, ?_⟩
  · intro other
    rw [account_commit, upsertTenantIndexes_frame _ named
      fun name => tenantNameKey_ne_tenantKey name other, tenantFirst]
  · intro name
    rw [account_commit, upsertTenantIndexes_frame _ named
      fun other => tenantNameKey_ne_userKey other name, userFirst]
  · intro name
    rw [account_commit, get_upsertTenantIndexes _ named, nameFirst]

/-- An update of a tenant merges into the stored one, or stores the new one in its
place. -/
theorem upsertTenant_eq_ok {env : Env} {accounts next : Accounts} {tenantId : Bytes}
    {tenant : Tenant} {merge : Bool}
    (upserted : upsertTenant env accounts tenantId tenant merge = .ok next) :
    let id := toLower (tenant.id.getD [])
    (merge = true ∧ ∃ existing, Merging accounts.db next.db id tenant existing) ∨
      (merge = true → getTenant accounts.db id = none) ∧
      ∃ users, processUsers env tenant.roles (getTenant accounts.db id) 0 [] tenant.users = .ok users ∧
        Storing accounts.db next.db id { tenant with users } (getTenant accounts.db id) := by
  intro id
  rw [upsertTenant] at upserted
  simp only [bind_eq_ok] at upserted
  obtain ⟨_, _, _, _, _, _, _, _, _, _, upserted⟩ := upserted
  split at upserted
  · rename_i existing found
    simp only [bind_eq_ok] at upserted
    obtain ⟨first, written, second, named, same⟩ := upserted
    cases same
    exact Or.inl ⟨rfl, existing, merging_of_writes rfl
      ((getTenant_eq_some _ _ _).mp found) written named⟩
  · rename_i noMerge
    simp only [bind_eq_ok] at upserted
    obtain ⟨users, processed, first, written, second, indexed, third, named, same⟩ := upserted
    cases same
    refine Or.inr ⟨?_, users, processed, storing_of_writes rfl written indexed named⟩
    rintro rfl
    cases found : getTenant accounts.db id with
    | none => rfl
    | some existing => exact (noMerge existing rfl found).elim

end merging

section removing

/-- The recursive removal of a tenant finds no key of another. -/
def RemovesOnly (db : Db Value) (tenantId : Bytes) : Prop :=
  ∀ key, (account db key).isSome = true → Transaction.isWithin (tenantKey tenantId) key = true →
    key = tenantKey tenantId

/-- What the removal of a tenant changes. -/
structure Removing (db next : Db Value) (tenantId : Bytes) (tenant : Tenant) : Prop where
  stored : StoredTenant db tenantId tenant
  tenants : ∀ id, account next (tenantKey id) =
    if id = tenantId then none else account db (tenantKey id)
  users : ∀ name, account next (userKey name) =
    if HasUser tenant name ∧ ¬ Foreign tenantId (account db (userKey name)) then none
    else account db (userKey name)
  names : ∀ name, account next (tenantNameKey name) =
    if name = tenant.name.getD [] then none else account db (tenantNameKey name)

variable {accounts : Accounts} (next : Accounts) {tenantId : Bytes}

/-- What a removal leaves. -/
theorem account_deleteTenant {tenant : Tenant} (lower : toLower tenantId = tenantId)
    (stored : StoredTenant accounts.db tenantId tenant) (only : RemovesOnly accounts.db tenantId)
    (deleted : deleteTenant accounts tenantId = .ok next) (key : Key) :
    account next.db key =
      if key = tenantKey tenantId ∨ key = tenantNameKey (tenant.name.getD []) ∨
        (IsUserKey tenant.users key ∧ ¬ Foreign (tenant.id.getD []) (account accounts.db key))
      then none else account accounts.db key := by
  rw [deleteTenant, bind_eq_ok] at deleted
  obtain ⟨_, _, same⟩ := deleted
  cases same
  rw [(getTenant_eq_some _ tenantId tenant).mpr stored, lower, account_commit]
  have indexes (key : Key) : (deleteTenantIndexes accounts.db tenant (deleteUserIndexes accounts.db
      (tenant.id.getD []) tenant.users {})).get accounts.db .account key =
      if key = tenantNameKey (tenant.name.getD []) ∨
        (IsUserKey tenant.users key ∧ ¬ Foreign (tenant.id.getD []) (account accounts.db key))
      then none else account accounts.db key := by
    rw [deleteTenantIndexes, get_remove, get_deleteUserIndexes]
    have start : ({} : Transaction Value).get accounts.db .account key = account accounts.db key := rfl
    rw [start]
    by_cases isName : key = tenantNameKey (tenant.name.getD [])
    · simp [isName]
    · simp [isName, Ne.symm isName]
  rw [Transaction.get_remove_recursive, indexes]
  · by_cases isTenant : key = tenantKey tenantId
    · simp [isTenant]
    · simp [isTenant, Ne.symm isTenant]
  · intro ck present within
    rw [indexes] at present
    split at present
    · cases present
    · exact only ck present within

theorem deleteTenant_eq_ok (byId : TenantsById accounts.db)
    (lower : toLower tenantId = tenantId) (only : RemovesOnly accounts.db tenantId)
    (deleted : deleteTenant accounts tenantId = .ok next) :
    ∃ tenant, Removing accounts.db next.db tenantId tenant := by
  obtain ⟨tenant, stored⟩ : ∃ tenant, StoredTenant accounts.db tenantId tenant := by
    rw [deleteTenant, bind_eq_ok] at deleted
    obtain ⟨_, present, _⟩ := deleted
    cases found : account accounts.db (tenantKey tenantId) with
    | none =>
      rw [account] at found
      rw [lower, throwIf_of (by rw [found]; rfl)] at present
      cases present
    | some value =>
      obtain ⟨tenant, rfl, _⟩ := byId tenantId value found
      exact ⟨tenant, found⟩
  have content := account_deleteTenant next lower stored only deleted
  obtain ⟨_, isTenant, ownId⟩ := byId tenantId _ stored
  cases isTenant
  refine ⟨tenant, stored, ?_, ?_, ?_⟩
  · intro id
    rw [content]
    have noUser : ¬ IsUserKey tenant.users (tenantKey id) := by
      rintro ⟨user, _, same⟩
      exact userKey_ne_tenantKey _ _ same.symm
    have noName := tenantNameKey_ne_tenantKey (tenant.name.getD []) id
    by_cases same : id = tenantId
    · simp [same]
    · have differs : tenantKey id ≠ tenantKey tenantId := fun keys => same (tenantKey_injective keys)
      simp [same, differs, noUser, Ne.symm noName]
  · intro name
    rw [content]
    have noTenant := userKey_ne_tenantKey name tenantId
    have noName := tenantNameKey_ne_userKey (tenant.name.getD []) name
    simp [noTenant, Ne.symm noName, isUserKey_userKey, Foreign, ownId, lower]
  · intro name
    rw [content]
    have noTenant := tenantNameKey_ne_tenantKey name tenantId
    have noUser : ¬ IsUserKey tenant.users (tenantNameKey name) := by
      rintro ⟨user, _, same⟩
      exact tenantNameKey_ne_userKey _ _ same
    by_cases same : name = tenant.name.getD []
    · simp [same]
    · have differs : tenantNameKey name ≠ tenantNameKey (tenant.name.getD []) :=
        fun keys => same (tenantNameKey_injective keys)
      simp [noTenant, noUser, same, differs]

end removing

section runs

variable {db next : Db Value} {id : Bytes} {tenant : Tenant}

/-- What is stored after a tenant is put under its id. -/
theorem storedTenant_iff (tenants : ∀ other, account next (tenantKey other) =
      if other = id then some (.tenant tenant) else account db (tenantKey other)) (other : Bytes)
    (found : Tenant) :
    StoredTenant next other found ↔
      (other = id ∧ found = tenant) ∨ (other ≠ id ∧ StoredTenant db other found) := by
  rw [StoredTenant, tenants]
  by_cases same : other = id
  · simp [same, eq_comm]
  · simp [same, StoredTenant]

/-- Storing a tenant under its id. -/
theorem TenantsById.of_stored (byId : TenantsById db) (isId : toLower (tenant.id.getD []) = id)
    (tenants : ∀ other, account next (tenantKey other) =
      if other = id then some (.tenant tenant) else account db (tenantKey other)) :
    TenantsById next := by
  intro other value found
  rw [tenants] at found
  split at found
  · rename_i same
    cases found
    exact ⟨tenant, rfl, same ▸ isId⟩
  · exact byId other value found

theorem Merging.tenantsById {existing : Tenant} (merging : Merging db next id tenant existing)
    (byId : TenantsById db) : TenantsById next := by
  obtain ⟨_, isTenant, oldId⟩ := byId id _ merging.stored
  cases isTenant
  refine byId.of_stored ?_ merging.tenants
  have isId := merging.isId
  cases own : tenant.id with
  | some own => simpa [Tenant.mergeFrom, own] using isId
  | none => simpa [Tenant.mergeFrom, own] using oldId

theorem Removing.tenantsById (removing : Removing db next id tenant) (byId : TenantsById db) :
    TenantsById next := by
  intro other value found
  rw [removing.tenants] at found
  split at found
  · cases found
  · exact byId other value found

/-- Any number of calls that succeed and meet a condition. -/
abbrev Reaches (condition : Accounts → Call → Prop) : Accounts → Accounts → Prop :=
  Relation.ReflTransGen fun before after =>
    ∃ call, condition before call ∧ perform before call = .ok after

/-- A store without accounts. -/
def NoAccounts (accounts : Accounts) : Prop := ∀ key, account accounts.db key = none

/-- Hexadecimal digits in groups of 8, 4, 4, 4 and 12, with dashes between them. -/
def isUuidText (text : Bytes) : Bool :=
  (text.splitOn 0x2D).map List.length == [8, 4, 4, 4, 12] && text.all fun ch =>
    ch == 0x2D || (0x30 ≤ ch && ch ≤ 0x39) || (0x41 ≤ ch && ch ≤ 0x46) || (0x61 ≤ ch && ch ≤ 0x66)

/-- A uuid with one digit. -/
def uuidOf (digit : UInt8) : Bytes :=
  [0x2D].intercalate ([8, 4, 4, 4, 12].map fun count => List.replicate count digit)

abbrev firstId : Bytes := uuidOf 0x31
abbrev secondId : Bytes := uuidOf 0x32

/-- Hashing and uuids for the samples below. -/
def sampleEnv : Env where
  newUuid _ := uuidOf 0x33
  getSeed _ := [0x73]
  createHash seed password := seed ++ password
  isValidUuid := isUuidText
  utf8FoldCase := .ok
  toText _ := ""
  toPrintable _ := ""

/-- A store without content. -/
def emptyAccounts : Accounts := ⟨⟨fun _ => ∅, ∅⟩, 0⟩

theorem noAccounts_emptyAccounts : NoAccounts emptyAccounts := fun _ =>
  Std.ExtTreeMap.getElem?_empty

/-- A tenant named `n` with one user, who has a password. -/
def tenantWithUser (name : Bytes) : Tenant where
  id := some firstId
  name := some [0x6E]
  active := none
  root := none
  roles := [⟨some [0x72], [.useApi], none⟩]
  users := [⟨none, some name, none, [[0x72]], some ⟨none, none, some [0x70]⟩⟩]

/-- Another tenant, named `m`. -/
def otherTenant : Tenant := { tenantWithUser [0x62] with id := some secondId, name := some [0x6D] }

end runs

end Nsblast.AuthMgr
