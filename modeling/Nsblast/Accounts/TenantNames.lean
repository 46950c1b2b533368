import Nsblast.Accounts.Changes

/-!
# The names of the tenants

The index of tenant names leads from the name of each stored tenant to its id, and
from no other name.

Nothing in the code keeps two tenants from taking the same name. `createTenant` looks
for the id among the names, and the write that is to fail on an existing key looks for
it among the zone entries. A merge compares the name it brings with the name it has
just stored, so that the index does not follow a new name. With calls that bring a
name no other tenant has, and merges that bring no new name, the index is exact.
-/

namespace Nsblast.AuthMgr

open Pb

/-- The name of a tenant, empty if it has none. -/
def tenantName (tenant : Tenant) : Bytes := tenant.name.getD []

/-- Names are unique, and the index leads from them to the ids, up to letter case. -/
structure NamesIndexed (db : Db Value) : Prop where
  unique : ∀ first second firstTenant secondTenant, StoredTenant db first firstTenant →
    StoredTenant db second secondTenant → tenantName firstTenant = tenantName secondTenant →
    first = second
  indexed : ∀ id tenant, StoredTenant db id tenant →
    ∃ text, account db (tenantNameKey (tenantName tenant)) = some (.text text) ∧
      Name.toLower text = id
  complete : ∀ name value, account db (tenantNameKey name) = some value →
    ∃ id tenant, StoredTenant db id tenant ∧ tenantName tenant = name

/-- No tenant but the one with this id has the name. -/
def NameIsFree (db : Db Value) (id name : Bytes) : Prop :=
  ∀ other tenant, StoredTenant db other tenant → tenantName tenant = name → other = id

section steps

variable {next : Db Value} {id : Bytes}

variable {db : Db Value} {tenant : Tenant} {existing : Option Tenant}

/-- Names stay unique when a tenant takes a free one. -/
theorem unique_of_stored (before : NamesIndexed db) (free : NameIsFree db id (tenantName tenant))
    (tenants : ∀ other, account next (tenantKey other) =
      if other = id then some (.tenant tenant) else account db (tenantKey other))
    (first second : Bytes) (firstTenant secondTenant : Tenant)
    (isFirst : StoredTenant next first firstTenant)
    (isSecond : StoredTenant next second secondTenant)
    (same : tenantName firstTenant = tenantName secondTenant) : first = second := by
  rcases (storedTenant_iff tenants _ _).mp isFirst with ⟨rfl, rfl⟩ | ⟨_, firstBefore⟩
  · rcases (storedTenant_iff tenants _ _).mp isSecond with ⟨rfl, _⟩ | ⟨_, secondBefore⟩
    · rfl
    · exact (free second secondTenant secondBefore same.symm).symm
  · rcases (storedTenant_iff tenants _ _).mp isSecond with ⟨rfl, rfl⟩ | ⟨_, secondBefore⟩
    · exact free first firstTenant firstBefore same
    · exact before.unique _ _ _ _ firstBefore secondBefore same

/-- A tenant that keeps its name keeps the index. -/
theorem namesIndexed_of_same_name {old : Tenant} (before : NamesIndexed db)
    (stored : StoredTenant db id old) (sameName : tenantName old = tenantName tenant)
    (tenants : ∀ other, account next (tenantKey other) =
      if other = id then some (.tenant tenant) else account db (tenantKey other))
    (names : ∀ name, account next (tenantNameKey name) = account db (tenantNameKey name)) :
    NamesIndexed next := by
  have free : NameIsFree db id (tenantName tenant) := fun other found isFound same =>
    before.unique other id found old isFound stored (same.trans sameName.symm)
  constructor
  · exact unique_of_stored before free tenants
  · intro other found isFound
    rw [names]
    rcases (storedTenant_iff tenants _ _).mp isFound with ⟨rfl, rfl⟩ | ⟨_, isBefore⟩
    · simpa [sameName] using before.indexed other old stored
    · exact before.indexed other found isBefore
  · intro name value found
    rw [names] at found
    obtain ⟨other, owner, isOwner, named⟩ := before.complete name value found
    by_cases same : other = id
    · subst same
      cases stored.symm.trans isOwner
      exact ⟨other, tenant, (storedTenant_iff tenants _ _).mpr (Or.inl ⟨rfl, rfl⟩),
        sameName.symm.trans named⟩
    · exact ⟨other, owner, (storedTenant_iff tenants _ _).mpr (Or.inr ⟨same, isOwner⟩), named⟩

/-- A tenant that is new, or has another name than before. -/
theorem namesIndexed_of_new_name (before : NamesIndexed db)
    (isExisting : ∀ old, old ∈ existing ↔ StoredTenant db id old)
    (free : NameIsFree db id (tenantName tenant)) (storing : Storing db next id tenant existing)
    (newName : ∀ old ∈ existing, tenantName old ≠ tenantName tenant) : NamesIndexed next := by
  have tenants := storing.tenants
  have names (name : Bytes) : account next (tenantNameKey name) =
      if name = tenantName tenant then some (.text (tenant.id.getD []))
      else if ∃ old ∈ existing, tenantName old = name then none
      else account db (tenantNameKey name) := by
    rw [storing.names, renamed, if_neg]
    · rfl
    · rintro ⟨old, isOld, same⟩
      exact newName old isOld same
  constructor
  · exact unique_of_stored before free tenants
  · intro other found isFound
    rcases (storedTenant_iff tenants _ _).mp isFound with ⟨rfl, rfl⟩ | ⟨differs, isBefore⟩
    · exact ⟨found.id.getD [], by simp [names], storing.isId⟩
    · have notNew : tenantName found ≠ tenantName tenant := fun same =>
        differs (free other found isBefore same)
      have notOld : ¬ ∃ old ∈ existing, tenantName old = tenantName found := by
        rintro ⟨old, isOld, same⟩
        exact differs (before.unique other id found old isBefore ((isExisting old).mp isOld) same.symm)
      rw [names, if_neg notNew, if_neg notOld]
      exact before.indexed other found isBefore
  · intro name value found
    rw [names] at found
    split at found
    · rename_i isName
      exact ⟨id, tenant, (storedTenant_iff tenants _ _).mpr (Or.inl ⟨rfl, rfl⟩), isName.symm⟩
    · split at found
      · cases found
      · rename_i notOld
        obtain ⟨other, owner, isOwner, named⟩ := before.complete name value found
        refine ⟨other, owner, (storedTenant_iff tenants _ _).mpr (Or.inr ⟨?_, isOwner⟩), named⟩
        rintro rfl
        exact notOld ⟨owner, (isExisting owner).mpr isOwner, named⟩

/-- Storing a tenant under a free name. -/
theorem Storing.namesIndexed (storing : Storing db next id tenant existing)
    (before : NamesIndexed db) (isExisting : ∀ old, old ∈ existing ↔ StoredTenant db id old)
    (free : NameIsFree db id (tenantName tenant)) : NamesIndexed next := by
  by_cases sameName : ∃ old ∈ existing, tenantName old = tenantName tenant
  · obtain ⟨old, isOld, same⟩ := sameName
    refine namesIndexed_of_same_name before ((isExisting old).mp isOld) same storing.tenants ?_
    intro name
    rw [storing.names, renamed, if_pos ⟨old, isOld, same⟩]
  · refine namesIndexed_of_new_name before isExisting free storing ?_
    intro old isOld same
    exact sameName ⟨old, isOld, same⟩

/-- Merging into a tenant without a new name. -/
theorem Merging.namesIndexed {existing : Tenant} (merging : Merging db next id tenant existing)
    (before : NamesIndexed db) (sameName : tenantName tenant = tenantName existing) :
    NamesIndexed next := by
  have merged : tenantName (existing.mergeFrom tenant) = tenantName tenant := by
    rw [tenantName, tenantName, Tenant.mergeFrom]
    cases own : tenant.name with
    | some name => simp
    | none => simpa [tenantName, own] using sameName.symm
  refine namesIndexed_of_same_name before merging.stored (sameName.symm.trans merged.symm)
    merging.tenants ?_
  intro name
  rw [merging.names, renamed, if_pos ⟨_, rfl, merged⟩]

/-- Removing a tenant. -/
theorem Removing.namesIndexed {tenantId : Bytes} (removing : Removing db next tenantId tenant)
    (before : NamesIndexed db) :
    NamesIndexed next := by
  have storedNext (id : Bytes) (found : Tenant) :
      StoredTenant next id found ↔ id ≠ tenantId ∧ StoredTenant db id found := by
    rw [StoredTenant, removing.tenants]
    by_cases same : id = tenantId
    · simp [same]
    · simp [same, StoredTenant]
  constructor
  · intro first second firstTenant secondTenant isFirst isSecond
    exact before.unique _ _ _ _ ((storedNext _ _).mp isFirst).2 ((storedNext _ _).mp isSecond).2
  · intro id found isFound
    obtain ⟨differs, isBefore⟩ := (storedNext id found).mp isFound
    rw [removing.names, if_neg]
    · exact before.indexed id found isBefore
    · intro same
      exact differs (before.unique id tenantId found tenant isBefore removing.stored same)
  · intro name value found
    rw [removing.names] at found
    split at found
    · cases found
    · rename_i differs
      obtain ⟨id, owner, isOwner, named⟩ := before.complete name value found
      refine ⟨id, owner, (storedNext id owner).mpr ⟨?_, isOwner⟩, named⟩
      rintro rfl
      cases removing.stored.symm.trans isOwner
      exact differs named.symm

end steps

section runs

/-- The calls that keep the names: no other tenant has the name of a tenant that is
created or replaced, a merge into a stored tenant brings its name, a tenant is removed
by its id in lower case, and no other key ends like its key. -/
def KeepsNames (accounts : Accounts) : Call → Prop
  | .create _ tenant =>
      ∀ id other, StoredTenant accounts.db id other → tenantName other ≠ tenantName tenant
  | .upsert _ _ tenant merge =>
      let id := Name.toLower (tenant.id.getD [])
      NameIsFree accounts.db id (tenantName tenant) ∧
        (merge = true → ∀ existing, StoredTenant accounts.db id existing →
          tenantName tenant = tenantName existing)
  | .delete tenantId => Name.toLower tenantId = tenantId ∧ RemovesOnly accounts.db tenantId

theorem namesIndexed_of_perform {accounts next : Accounts} {call : Call}
    (keeps : KeepsNames accounts call) (performed : perform accounts call = .ok next)
    (before : NamesIndexed accounts.db ∧ TenantsById accounts.db) :
    NamesIndexed next.db ∧ TenantsById next.db := by
  obtain ⟨names, byId⟩ := before
  cases call with
  | create env tenant =>
    obtain ⟨id, users, _, _, absent, storing⟩ := createTenant_eq_ok performed
    refine ⟨storing.namesIndexed names ?_ ?_, byId.of_stored storing.isId storing.tenants⟩
    · intro old
      simp [StoredTenant, absent]
    · intro other found isFound same
      exact (keeps other found isFound same).elim
  | upsert env tenantId tenant merge =>
    rcases upsertTenant_eq_ok performed with
      ⟨isMerge, existing, merging⟩ | ⟨_, users, _, storing⟩
    · exact ⟨merging.namesIndexed names (keeps.2 isMerge existing merging.stored),
        merging.tenantsById byId⟩
    · exact ⟨storing.namesIndexed names (getTenant_eq_some _ _) keeps.1,
        byId.of_stored storing.isId storing.tenants⟩
  | delete tenantId =>
    obtain ⟨tenant, removing⟩ := deleteTenant_eq_ok _ byId keeps.1 keeps.2 performed
    exact ⟨removing.namesIndexed names, removing.tenantsById byId⟩

/-- In every state reached by such calls, no two tenants share a name and the index is
exact. -/
theorem tenant_names_indexed (start final : Accounts) (empty : NoAccounts start)
    (reaches : Reaches KeepsNames start final) : NamesIndexed final.db := by
  have kept : NamesIndexed final.db ∧ TenantsById final.db := by
    induction reaches with
    | refl =>
      have noTenant (id : Bytes) (tenant : Tenant) : ¬ StoredTenant start.db id tenant := by
        simp [StoredTenant, empty _]
      refine ⟨⟨?_, ?_, ?_⟩, ?_⟩
      · exact fun first _ firstTenant _ isFirst => (noTenant first firstTenant isFirst).elim
      · exact fun id tenant stored => (noTenant id tenant stored).elim
      · intro name value found
        cases (empty _).symm.trans found
      · intro id value found
        cases (empty _).symm.trans found
    | tail _ step ih =>
      obtain ⟨call, keeps, performed⟩ := step
      exact namesIndexed_of_perform keeps performed ih
  exact kept.1

theorem two_tenant_names_indexed :
    ∃ middle final, perform emptyAccounts (.create sampleEnv (tenantWithUser [0x61])) = .ok middle ∧
      perform middle (.create sampleEnv otherTenant) = .ok final ∧
      account final.db (tenantNameKey [0x6E]) = some (.text firstId) ∧
      account final.db (tenantNameKey [0x6D]) = some (.text secondId) ∧ NamesIndexed final.db := by
  have ran : (perform emptyAccounts (.create sampleEnv (tenantWithUser [0x61])) >>= fun middle =>
      perform middle (.create sampleEnv otherTenant) >>= fun final =>
        .ok (decide (account middle.db (tenantNameKey [0x6D]) = none ∧
          account final.db (tenantNameKey [0x6E]) = some (.text firstId) ∧
          account final.db (tenantNameKey [0x6D]) = some (.text secondId)))) = .ok true := by
    decide +kernel
  simp only [Run.bind_eq_ok] at ran
  obtain ⟨middle, created, final, performed, indexed⟩ := ran
  obtain ⟨free, first, second⟩ := of_decide_eq_true (Run.ok.inj indexed)
  have keepsFirst : KeepsNames emptyAccounts (.create sampleEnv (tenantWithUser [0x61])) := by
    intro id other stored
    cases (noAccounts_emptyAccounts _).symm.trans stored
  have begun : Reaches KeepsNames emptyAccounts middle := .single ⟨_, keepsFirst, created⟩
  have keepsSecond : KeepsNames middle (.create sampleEnv otherTenant) := by
    intro id other stored same
    obtain ⟨_, found, _⟩ :=
      (tenant_names_indexed _ _ noAccounts_emptyAccounts begun).indexed id other stored
    rw [same] at found
    cases free.symm.trans found
  exact ⟨middle, final, created, performed, first, second,
    tenant_names_indexed emptyAccounts final noAccounts_emptyAccounts
      (begun.tail ⟨_, keepsSecond, performed⟩)⟩

/-- A tenant named `n` with another id and no users. -/
def secondTenant : Tenant where
  id := some secondId
  name := some [0x6E]
  active := none
  root := none
  roles := []
  users := []

/-- Two tenants are created with one name, and the index leads to the second. -/
theorem second_tenant_takes_name :
    ∃ middle final first second,
      perform emptyAccounts (.create sampleEnv (tenantWithUser [0x61])) = .ok middle ∧
      perform middle (.create sampleEnv secondTenant) = .ok final ∧
      StoredTenant final.db firstId first ∧ StoredTenant final.db secondId second ∧
      tenantName first = tenantName second ∧
      account final.db (tenantNameKey [0x6E]) = some (.text secondId) ∧ ¬ NamesIndexed final.db := by
  have ran : (perform emptyAccounts (.create sampleEnv (tenantWithUser [0x61])) >>= fun middle =>
      perform middle (.create sampleEnv secondTenant) >>= fun final =>
        .ok (decide (account final.db (tenantNameKey [0x6E]) = some (.text secondId) ∧
          ∃ first ∈ getTenant final.db firstId, ∃ second ∈ getTenant final.db secondId,
            tenantName first = tenantName second))) = .ok true := by
    decide +kernel
  simp only [Run.bind_eq_ok] at ran
  obtain ⟨middle, createdFirst, final, createdSecond, checked⟩ := ran
  obtain ⟨index, first, isFirst, second, isSecond, same⟩ := of_decide_eq_true (Run.ok.inj checked)
  have storedFirst := (getTenant_eq_some _ _ first).mp isFirst
  have storedSecond := (getTenant_eq_some _ _ second).mp isSecond
  refine ⟨middle, final, first, second, createdFirst, createdSecond, storedFirst, storedSecond, same,
    index, ?_⟩
  intro names
  exact absurd (names.unique _ _ _ _ storedFirst storedSecond same) (by decide)

end runs

end Nsblast.AuthMgr
