import Nsblast.Accounts.SessionCache

/-!
# Sessions after a change of a tenant

A change commits and then clears the cache, so a session that is in the cache when the
call returns has been put there after the clearing. It may still come from an older
tenant: a login that has read the tenant before the commit puts its session in
afterwards. A call that creates a tenant clears nothing. A session of a tenant that
was there before can then still be in the cache, because the call that removed the
tenant has not come to its own clearing.

Without these two orders every login that begins after a call has returned gets a
session made from the tenant as committed by that call or a later one. The invariant
says so of what is in the cache and of what a login is about to put there.
-/

namespace Nsblast.AuthMgr.Manager

open Pb List

variable {env : Session.Env}

/-- A call that returns finds no login about to put in a session of a tenant it
concerns that is older than its commit. If it clears nothing, no other call that
concerns its tenant is between its commit and its return. -/
def Orderly (manager : Manager env) : Action → Prop
  | .finish change =>
      (∀ login header since opened, manager.logins login = .built header since opened →
        Concerns manager.stores change opened.tenantId →
          Current manager.stores opened change.version) ∧
      (change.clears = false → ∀ other ∈ manager.pending, other ≠ change →
        ¬ Concerns manager.stores other change.target)
  | _ => True

/-- A session that no call that has returned should have ended. -/
structure Fresh (stores : List (Db Value)) (returned : List Change) (opened : Opened env) :
    Prop where
  seen : Current stores opened 0
  current : ∀ change ∈ returned, Concerns stores change opened.tenantId →
    Current stores opened change.version

/-- What holds of one login. -/
def Steady (stores : List (Db Value)) (returned : List Change) : Login env → Prop
  | .idle => True
  | .started _ since | .missed _ since | .found _ since _ => since ⊆ returned
  | .built _ since opened => since ⊆ returned ∧ Fresh stores returned opened
  | .answered since opened => since ⊆ returned ∧ ∀ session ∈ opened, ∀ change ∈ since,
      Concerns stores change session.tenantId → Current stores session change.version

variable {stores : List (Db Value)} {manager : Manager env} {credentials : Credentials}
    {header tenantId : Bytes} {call : Call}

/-- A login that was denied has no session. -/
theorem steady_denied {returned since : List Change} (earlier : since ⊆ returned) :
    Steady stores returned (.answered since none : Login env) := by
  refine ⟨earlier, ?_⟩
  intro session isSession
  cases isSession

structure Sound (manager : Manager env) : Prop where
  last : manager.stores.getLast? = some manager.accounts.db
  versions : ∀ change ∈ manager.pending ++ manager.returned,
    0 < change.version ∧ change.version < manager.stores.length
  accounted : ∀ version, 0 < version → version < manager.stores.length →
    ∃ change ∈ manager.pending ++ manager.returned, change.version = version
  created : ∀ change ∈ manager.pending, change.clears = false →
    tenantAt manager.stores (change.version - 1) change.target = none ∧
      ∀ id, id ≠ change.target →
        tenantAt manager.stores (change.version - 1) id = tenantAt manager.stores change.version id
  cached : ∀ item ∈ manager.keys.items, Fresh manager.stores manager.returned item.2
  logins : ∀ login, Steady manager.stores manager.returned (manager.logins login)

variable {opened : Opened env} {change : Change} {version : Nat}

section stores

variable (stores : List (Db Value)) (db : Db Value)

theorem tenantAt_append (id : Bytes) (inside : version < stores.length) :
    tenantAt (stores ++ [db]) version id = tenantAt stores version id := by
  rw [tenantAt, tenantAt, getElem?_append_left inside]

theorem tenantAt_length (id : Bytes) :
    tenantAt (stores ++ [db]) stores.length id = getTenant db id := by
  simp [tenantAt]

theorem tenantAt_last (id : Bytes) (last : stores.getLast? = some db) :
    tenantAt stores (stores.length - 1) id = getTenant db id := by
  rw [getLast?_eq_getElem?] at last
  rw [tenantAt, last, Option.bind_some]

theorem Current.append {stores : List (Db Value)} (current : Current stores opened version)
    (db : Db Value) : Current (stores ++ [db]) opened version := by
  obtain ⟨later, after, stored⟩ := current
  have inside : later < stores.length := by
    by_contra outside
    rw [tenantAt, getElem?_eq_none (Nat.le_of_not_lt outside)] at stored
    cases stored
  exact ⟨later, after, by rw [tenantAt_append stores db _ inside, stored]⟩

theorem concerns_append (id : Bytes) (inside : change.version < stores.length) :
    Concerns (stores ++ [db]) change id ↔ Concerns stores change id := by
  rw [Concerns, Concerns, tenantAt_append stores db id inside,
    tenantAt_append stores db id (Nat.lt_of_le_of_lt (Nat.sub_le _ _) inside)]

variable {stores} {returned : List Change}
  (inside : ∀ change ∈ returned, change.version < stores.length)
include inside

theorem Fresh.append (fresh : Fresh stores returned opened) :
    Fresh (stores ++ [db]) returned opened := by
  refine ⟨fresh.seen.append db, ?_⟩
  intro change member concerned
  rw [concerns_append stores db _ (inside change member)] at concerned
  exact (fresh.current change member concerned).append db

theorem Steady.append {login : Login env} (steady : Steady stores returned login) :
    Steady (stores ++ [db]) returned login := by
  cases login with
  | built header since opened => exact ⟨steady.1, steady.2.append db inside⟩
  | answered since opened =>
    refine ⟨steady.1, ?_⟩
    intro session isSession change member concerned
    rw [concerns_append stores db _ (inside change (steady.1 member))] at concerned
    exact (steady.2 session isSession change member concerned).append db
  | _ => exact steady

end stores

/-- What is made from the present tenant is fresh. -/
theorem Sound.fresh_of_read (sound : Sound manager)
    (read : getTenant manager.accounts.db opened.tenantId = some opened.tenant) :
    Fresh manager.stores manager.returned opened := by
  have now : tenantAt manager.stores (manager.stores.length - 1) opened.tenantId =
      some opened.tenant := by
    rw [tenantAt_last _ _ _ sound.last, read]
  refine ⟨⟨_, Nat.zero_le _, now⟩, ?_⟩
  intro change member _
  have bounds := sound.versions change (mem_append_right _ member)
  exact ⟨_, by omega, now⟩

theorem Sound.set (sound : Sound manager) (login : Nat) (phase : Login env)
    (steady : Steady manager.stores manager.returned phase) : Sound (manager.set login phase) := by
  refine ⟨sound.last, sound.versions, sound.accounted, sound.created, sound.cached, ?_⟩
  intro other
  simp only [Manager.set]
  by_cases same : other = login
  · subst same
    rw [Function.update_self]
    exact steady
  · rw [Function.update_of_ne same]
    exact sound.logins other

theorem Sound.withKeys (sound : Sound manager) (keys : Lru (Opened env))
    (cached : ∀ item ∈ keys.items, Fresh manager.stores manager.returned item.2) :
    Sound { manager with keys } :=
  ⟨sound.last, sound.versions, sound.accounted, sound.created, cached, sound.logins⟩

theorem openSession_eq_some {tenant : Tenant}
    (isOpened : openSession credentials header tenantId tenant = some opened) :
    opened.tenantId = tenantId ∧ opened.tenant = tenant := by
  rw [openSession] at isOpened
  split at isOpened
  · cases isOpened
  · split at isOpened
    · cases isOpened
    · split at isOpened
      · split at isOpened
        · cases isOpened
          exact ⟨rfl, rfl⟩
        · cases isOpened
      · cases isOpened

theorem readTenant_eq_some {db : Db Value}
    (read : readTenant credentials db header tenantId = some opened) :
    getTenant db opened.tenantId = some opened.tenant := by
  rw [readTenant, Option.bind_eq_some_iff] at read
  obtain ⟨tenant, found, isOpened⟩ := read
  obtain ⟨sameId, sameTenant⟩ := openSession_eq_some isOpened
  rw [sameId, sameTenant, found]

/-- A call that clears nothing has created its tenant and left the others. -/
theorem perform_creates {accounts next : Accounts} (performed : perform accounts call = .ok next)
    (creates : call.clears accounts.db = false) :
    getTenant accounts.db call.target = none ∧
      ∀ id, id ≠ call.target → getTenant accounts.db id = getTenant next.db id := by
  have others (id : Bytes) (tenant : Tenant) (tenants : ∀ other, account next.db (tenantKey other) =
        if other = id then some (.tenant tenant) else account accounts.db (tenantKey other))
      (other : Bytes) (differs : other ≠ id) :
      getTenant accounts.db other = getTenant next.db other := by
    have same := tenants other
    rw [if_neg differs, account, account] at same
    rw [getTenant, getTenant, same]
  cases call with
  | create creating tenant =>
    obtain ⟨id, users, rfl, _, absent, storing⟩ := createTenant_eq_ok performed
    refine ⟨?_, others _ _ storing.tenants⟩
    rw [account] at absent
    simp [getTenant, Call.target, absent]
  | upsert changing tenantId tenant merge =>
    have missing : getTenant accounts.db (Name.toLower (tenant.id.getD [])) = none := by
      simpa [Call.clears] using creates
    refine ⟨missing, ?_⟩
    rcases upsertTenant_eq_ok performed with
      ⟨_, existing, merging⟩ | ⟨_, users, _, storing⟩
    · exact others _ _ merging.tenants
    · exact others _ _ storing.tenants
  | delete tenantId => cases creates

/-- A tenant that was stored once and is missing just before a version has been changed
in between. If each such change is known to leave the session current, the session is
current at the version. -/
theorem current_of_missing (seen : Current stores opened 0)
    (missing : tenantAt stores (version - 1) opened.tenantId = none)
    (changed : ∀ earlier, 0 < earlier → earlier < version →
      tenantAt stores (earlier - 1) opened.tenantId ≠ tenantAt stores earlier opened.tenantId →
        Current stores opened earlier) : Current stores opened version := by
  have upTo (bound : Nat) (below : bound ≤ version) : Current stores opened bound := by
    induction bound with
    | zero => exact seen
    | succ bound ih =>
      obtain ⟨later, after, stored⟩ := ih (Nat.le_of_succ_le below)
      by_cases beyond : bound + 1 ≤ later
      · exact ⟨later, beyond, stored⟩
      · have same : later = bound := by omega
        subst same
        have early : later + 1 < version := by
          by_contra late
          have isLast : version - 1 = later := by omega
          rw [isLast, stored] at missing
          cases missing
        by_cases kept : tenantAt stores later opened.tenantId =
            tenantAt stores (later + 1) opened.tenantId
        · exact ⟨later + 1, Nat.le_refl _, by rw [← kept, stored]⟩
        · exact changed (later + 1) (Nat.succ_pos later) early kept
  exact upTo version (Nat.le_refl version)

/-- What is in the cache when a call that clears nothing returns. -/
theorem Sound.current_of_created (sound : Sound manager) (member : change ∈ manager.pending)
    (orderly : Orderly manager (.finish change)) (keeps : change.clears = false)
    (fresh : Fresh manager.stores manager.returned opened)
    (concerned : Concerns manager.stores change opened.tenantId) :
    Current manager.stores opened change.version := by
  obtain ⟨missing, others⟩ := sound.created change member keeps
  have isTarget : opened.tenantId = change.target := by
    by_contra differs
    rcases concerned with same | changed
    · exact differs same
    · exact changed (others opened.tenantId differs)
  have bounds := sound.versions change (mem_append_left _ member)
  refine current_of_missing fresh.seen (by rw [isTarget, missing]) ?_
  intro earlier positive before changed
  obtain ⟨other, known, rfl⟩ := sound.accounted earlier positive (by omega)
  rcases mem_append.mp known with waiting | returned
  · have differs : other ≠ change := by
      rintro rfl
      exact Nat.lt_irrefl _ before
    exact absurd (.inr (isTarget ▸ changed)) (orderly.2 keeps other waiting differs)
  · exact fresh.current other returned (.inr changed)

/-- A returning call leaves a session fresh that is not older than its commit. -/
theorem Fresh.cons {returned : List Change} (fresh : Fresh stores returned opened) (change : Change)
    (current : Concerns stores change opened.tenantId → Current stores opened change.version) :
    Fresh stores (change :: returned) opened :=
  ⟨fresh.seen, forall_mem_cons.mpr ⟨current, fresh.current⟩⟩

/-- Step: a call returns. -/
theorem sound_finish (sound : Sound manager) (member : change ∈ manager.pending)
    (orderly : Orderly manager (.finish change)) :
    Sound { manager with
      keys := if change.clears then manager.keys.clear else manager.keys
      pending := manager.pending.erase change
      returned := change :: manager.returned } := by
  have same (other : Change) :
      other ∈ manager.pending.erase change ++ change :: manager.returned ↔
        other ∈ manager.pending ++ manager.returned := by
    have moved := (perm_cons_erase member).mem_iff (a := other)
    simp only [mem_append, mem_cons] at moved ⊢
    rw [moved]
    tauto
  refine ⟨sound.last, ?_, ?_, ?_, ?_, ?_⟩
  · intro other known
    exact sound.versions other ((same other).mp known)
  · intro version positive inside
    obtain ⟨other, known, isVersion⟩ := sound.accounted version positive inside
    exact ⟨other, (same other).mpr known, isVersion⟩
  · intro other waiting
    exact sound.created other (mem_of_mem_erase waiting)
  · intro item cached
    cases clears : change.clears with
    | true => simp [clears, Lru.clear] at cached
    | false =>
      have fresh := sound.cached item (by simpa [clears] using cached)
      exact fresh.cons change (sound.current_of_created member orderly clears fresh)
  · intro login
    have steady := sound.logins login
    cases phase : manager.logins login with
    | idle => trivial
    | started header since | missed header since | found header since tenantId =>
      rw [phase] at steady
      exact subset_cons_of_subset change steady
    | built header since opened =>
      rw [phase] at steady
      exact ⟨subset_cons_of_subset change steady.1,
        steady.2.cons change (orderly.1 login header since opened phase)⟩
    | answered since opened =>
      rw [phase] at steady
      exact ⟨subset_cons_of_subset change steady.1, steady.2⟩

/-- Step: a call commits. -/
theorem sound_commit (sound : Sound manager) {next : Accounts}
    (performed : perform manager.accounts call = .ok next) : Sound { manager with
      accounts := next
      stores := manager.stores ++ [next.db]
      pending := ⟨manager.stores.length, call.target, call.clears manager.accounts.db⟩ ::
        manager.pending } := by
  have filled : 0 < manager.stores.length := by
    rw [length_pos_iff]
    intro empty
    have last := sound.last
    simp [empty] at last
  have inside (change : Change) (member : change ∈ manager.pending ++ manager.returned) :
      change.version < manager.stores.length := (sound.versions change member).2
  have insideReturned (change : Change) (member : change ∈ manager.returned) :
      change.version < manager.stores.length := inside change (mem_append_right _ member)
  refine ⟨by simp, ?_, ?_, ?_, ?_, ?_⟩
  · intro change member
    rw [length_append, length_singleton]
    rcases mem_cons.mp member with rfl | old
    · exact ⟨filled, Nat.lt_succ_self _⟩
    · have bounds := sound.versions change old
      exact ⟨bounds.1, Nat.lt_succ_of_lt bounds.2⟩
  · intro version positive below
    rw [length_append, length_singleton] at below
    by_cases old : version < manager.stores.length
    · obtain ⟨change, member, isVersion⟩ := sound.accounted version positive old
      exact ⟨change, mem_cons_of_mem _ member, isVersion⟩
    · exact ⟨_, mem_cons_self, by dsimp only; omega⟩
  · intro change member keeps
    rcases mem_cons.mp member with rfl | old
    · obtain ⟨missing, others⟩ := perform_creates performed keeps
      have before (id : Bytes) : tenantAt (manager.stores ++ [next.db])
          (manager.stores.length - 1) id = getTenant manager.accounts.db id := by
        rw [tenantAt_append _ _ id (by omega), tenantAt_last _ _ id sound.last]
      refine ⟨by rw [before, missing], ?_⟩
      intro id differs
      rw [before, tenantAt_length, others id differs]
    · have below := inside change (mem_append_left _ old)
      have earlier : change.version - 1 < manager.stores.length := by omega
      simpa only [tenantAt_append _ _ _ below, tenantAt_append _ _ _ earlier] using
        sound.created change old keeps
  · intro item member
    exact (sound.cached item member).append next.db insideReturned
  · intro login
    exact (sound.logins login).append next.db insideReturned

section actions

variable {credentials : Credentials} {manager next : Manager env} (sound : Sound manager)
include sound

variable {login : Nat}

theorem sound_start {header : Bytes}
    (acted : act credentials manager (.start login header) = some next) : Sound next := by
  have begins : Sound (manager.set login (.started header manager.returned)) :=
    sound.set login (.started header manager.returned) (List.Subset.refl _)
  simp only [act] at acted
  split at acted
  · cases acted
    exact begins
  · cases acted
    exact begins
  · cases acted

theorem sound_lookup
    (acted : act credentials manager (.lookup login) = some next) : Sound next := by
  have steady := sound.logins login
  simp only [act] at acted
  split at acted
  · rename_i header since phase
    rw [phase] at steady
    split at acted
    · rename_i opened found
      cases acted
      have kept := sound.withKeys (manager.keys.get (credentials.sha256 header)).2 fun item member =>
        sound.cached item (Lru.mem_of_get member)
      obtain ⟨item, member, isOpened⟩ := Lru.get_found found
      have fresh : Fresh manager.stores manager.returned opened :=
        isOpened ▸ sound.cached item member
      refine kept.set login (.answered since (some opened)) ⟨steady, ?_⟩
      intro session isSession change inSince
      cases isSession
      exact fresh.current change (steady inSince)
    · cases acted
      exact sound.set login (.missed header since) steady
  · cases acted

theorem sound_readUser
    (acted : act credentials manager (.readUser login) = some next) : Sound next := by
  have steady := sound.logins login
  simp only [act] at acted
  split at acted
  · rename_i header since phase
    rw [phase] at steady
    split at acted
    · rename_i tenantId _
      cases acted
      exact sound.set login (.found header since tenantId) steady
    · cases acted
      exact sound.set login (.answered since none) (steady_denied steady)
  · cases acted

theorem sound_readTenant
    (acted : act credentials manager (.readTenant login) = some next) : Sound next := by
  have steady := sound.logins login
  simp only [act] at acted
  split at acted
  · rename_i header since tenantId phase
    rw [phase] at steady
    split at acted
    · rename_i opened read
      cases acted
      have fresh := sound.fresh_of_read (readTenant_eq_some read)
      exact sound.set login (.built header since opened) ⟨steady, fresh⟩
    · cases acted
      exact sound.set login (.answered since none) (steady_denied steady)
  · cases acted

theorem sound_insert
    (acted : act credentials manager (.insert login) = some next) : Sound next := by
  have steady := sound.logins login
  simp only [act] at acted
  split at acted
  · rename_i header since opened phase
    rw [phase] at steady
    split at acted
    · rename_i keys emplaced
      cases acted
      have kept := sound.withKeys keys fun item member => by
        rcases Lru.mem_of_emplace emplaced member with rfl | old
        · exact steady.2
        · exact sound.cached item old
      refine kept.set login (.answered since (some opened)) ⟨steady.1, ?_⟩
      intro session isSession change inSince
      cases isSession
      exact steady.2.current change (steady.1 inSince)
    · cases acted
  · cases acted

/-- One action keeps the invariant. -/
theorem sound_act {action : Action} (orderly : Orderly manager action)
    (acted : act credentials manager action = some next) : Sound next := by
  cases action with
  | start login header => exact sound_start sound acted
  | lookup login => exact sound_lookup sound acted
  | readUser login => exact sound_readUser sound acted
  | readTenant login => exact sound_readTenant sound acted
  | insert login => exact sound_insert sound acted
  | commit call =>
    simp only [act] at acted
    split at acted
    · rename_i accounts performed
      cases acted
      exact sound_commit sound performed
    · cases acted
  | finish change =>
    simp only [act] at acted
    split at acted
    · rename_i member
      cases acted
      exact sound_finish sound member orderly
    · cases acted

end actions

theorem Begun.sound (begun : Begun manager) : Sound manager := by
  obtain ⟨stores, keys, logins, pending, returned⟩ := begun
  refine ⟨by simp [stores], by simp [pending, returned], ?_, by simp [pending], by simp [keys], ?_⟩
  · intro version positive inside
    rw [stores, length_singleton] at inside
    omega
  · intro login
    rw [logins]
    trivial

theorem sound_acts {start reached : Manager env} (begun : Begun start)
    (acts : Acts credentials Orderly start reached) : Sound reached := by
  induction acts with
  | refl => exact begun.sound
  | tail _ step ih =>
    obtain ⟨action, orderly, acted⟩ := step
    exact sound_act ih orderly acted

/-- When calls return in an orderly way, a login that begins afterwards gets no session
made from an older tenant. -/
theorem orderly_changes_take_effect (credentials : Credentials) (start reached : Manager env)
    (begun : Begun start) (acts : Acts credentials Orderly start reached) : Revoked reached := by
  intro login since opened phase change member concerned
  have steady := (sound_acts begun acts).logins login
  rw [phase] at steady
  exact steady.2 opened rfl change member concerned

section samples

/-- Sessions need no regular expression here. -/
def plainSessions : Session.Env where
  hasAuth := true
  regex _ := none
  parseUuid _ := .ok 1
  permissionName _ := ""
  toText _ := ""

/-- The header is the name of the user, the password is `p`. -/
def plainCredentials : Credentials where
  sha256 header := header
  decode header := some (header, [0x70])
  createHash seed password := seed ++ password

/-- A tenant with the user `a`. -/
def oldTenant : Tenant where
  id := some firstId
  name := some [0x6E]
  active := none
  root := none
  roles := [⟨some [0x72], [.useApi], none⟩]
  users := [⟨some secondId, some [0x61], none, [[0x72]], some ⟨some [0x73, 0x70], some [0x73], none⟩⟩]

/-- The tenant after the user is removed. -/
def newTenant : Tenant := { oldTenant with users := [] }

/-- A store with the tenant. -/
def oldAccounts : Accounts where
  db :=
    { families := fun category =>
        if category = .account then
          (((∅ : ColumnFamily Value).insert (tenantKey firstId) (.tenant oldTenant)).insert
            (userKey [0x61]) (.text firstId)).insert (tenantNameKey [0x6E]) (.text firstId)
        else ∅
      trxlog := ∅ }
  trxId := 0

def oldManager : Manager plainSessions where
  accounts := oldAccounts
  stores := [oldAccounts.db]
  keys := { capacity := 10 }

theorem oldManager_begun : Begun oldManager := ⟨rfl, rfl, fun _ => rfl, rfl, rfl⟩

/-- The removal of the user. -/
def removeUser : Call := .upsert sampleEnv firstId newTenant false

/-- A change of the role of the user. -/
def changeRole : Call :=
  .upsert sampleEnv firstId { oldTenant with roles := [⟨some [0x72], [.readZone], none⟩] } false

/-- A login that has got as far as its session. -/
def reading (login : Nat) : List Action :=
  [.start login [0x61], .lookup login, .readUser login, .readTenant login]

/-- The user is removed while a login is between its read and its insertion. -/
def lateInsertion : List Action :=
  reading 0 ++ [.commit removeUser, .finish ⟨1, firstId, true⟩, .insert 0, .start 1 [0x61], .lookup 1]

/-- The tenant is created anew before its removal has cleared the cache. -/
def lateClearing : List Action :=
  reading 0 ++ [.insert 0, .commit (.delete firstId), .commit removeUser,
    .finish ⟨2, firstId, false⟩, .start 1 [0x61], .lookup 1]

theorem acts_of_foldlM {credentials : Credentials} (condition : Manager env → Action → Prop)
    {actions : List Action} (meets : ∀ action ∈ actions, ∀ manager, condition manager action)
    {start reached : Manager env} (acted : actions.foldlM (act credentials) start = some reached) :
    Acts credentials condition start reached := by
  induction actions generalizing start with
  | nil =>
    cases acted
    exact .refl
  | cons action rest ih =>
    rw [foldlM_cons] at acted
    obtain ⟨next, first, later⟩ := Option.bind_eq_some_iff.mp acted
    obtain ⟨meetsFirst, meetsRest⟩ := forall_mem_cons.mp meets
    exact .head ⟨action, meetsFirst start, first⟩ (ih meetsRest later)

/-- Login 1 began after the change had returned and has got a session of the old
tenant, which the last store no longer has. -/
def gotOld (change : Change) (manager : Manager plainSessions) : Bool :=
  match manager.logins 1 with
  | .answered since (some opened) =>
      decide (change ∈ since) && decide (opened.tenantId = change.target) &&
        decide (opened.tenant = oldTenant) &&
        decide (manager.stores.length = change.version + 1) &&
        decide (tenantAt manager.stores change.version change.target ≠ some oldTenant)
  | _ => false

theorem not_revoked_of_gotOld {manager : Manager plainSessions}
    (got : gotOld change manager = true) : ¬ Revoked manager := by
  intro revoked
  rw [gotOld] at got
  split at got
  · rename_i since opened phase
    simp only [Bool.and_eq_true, decide_eq_true_iff] at got
    obtain ⟨⟨⟨⟨member, isTarget⟩, isOld⟩, ends⟩, gone⟩ := got
    obtain ⟨later, after, stored⟩ := revoked 1 since opened phase change member (.inl isTarget)
    rw [isTarget, isOld] at stored
    have inside : later < manager.stores.length := by
      by_contra outside
      rw [tenantAt, getElem?_eq_none (Nat.le_of_not_lt outside)] at stored
      cases stored
    have isLast : later = change.version := by omega
    exact gone (isLast ▸ stored)
  · cases got

/-- Login 1 has got a session. -/
def loggedIn (manager : Manager plainSessions) : Bool :=
  match manager.logins 1 with
  | .answered _ (some _) => true
  | _ => false

/-- A login from its start to its end. -/
def wholeLogin : List Action := reading 1 ++ [.insert 1]

theorem late_login_takes_effect :
    ∃ reached since opened, Begun oldManager ∧ Acts plainCredentials Orderly oldManager reached ∧
      reached.logins 1 = .answered since (some opened) ∧ Revoked reached := by
  have ran : ((act plainCredentials oldManager (.commit changeRole)).bind fun committed =>
      (act plainCredentials committed (.finish ⟨1, firstId, true⟩)).bind fun finished =>
        (wholeLogin.foldlM (act plainCredentials) finished).map loggedIn) = some true := by
    decide +kernel
  obtain ⟨committed, first, rest⟩ := Option.bind_eq_some_iff.mp ran
  obtain ⟨finished, second, rest⟩ := Option.bind_eq_some_iff.mp rest
  obtain ⟨reached, third, answered⟩ := Option.map_eq_some_iff.mp rest
  have idle (login : Nat) : committed.logins login = .idle := by
    simp only [act] at first
    split at first
    · cases first
      rfl
    · cases first
  have orderly : Orderly committed (.finish ⟨1, firstId, true⟩) := by
    refine ⟨?_, nofun⟩
    intro login header since opened phase
    rw [idle login] at phase
    cases phase
  have begins : Orderly oldManager (.commit changeRole) := trivial
  have login : Acts plainCredentials Orderly finished reached :=
    acts_of_foldlM Orderly (by simp [wholeLogin, reading, Orderly]) third
  have acts : Acts plainCredentials Orderly oldManager reached :=
    .head ⟨_, begins, first⟩ (.head ⟨_, orderly, second⟩ login)
  rw [loggedIn] at answered
  split at answered
  · rename_i since opened phase
    exact ⟨reached, since, opened, oldManager_begun, acts, phase,
      orderly_changes_take_effect plainCredentials oldManager reached oldManager_begun acts⟩
  · cases answered

/-- A login puts in the session of a user who has been removed meanwhile. And the session
of a removed tenant outlives its creation anew, as the removal has not cleared it yet. -/
theorem removed_user_logs_in :
    Begun oldManager ∧
      (∃ reached, Acts plainCredentials (fun _ _ => True) oldManager reached ∧
        (⟨1, firstId, true⟩ : Change) ∈ reached.returned ∧ ¬ Revoked reached) ∧
      ∃ reached, Acts plainCredentials (fun _ _ => True) oldManager reached ∧
        (⟨2, firstId, false⟩ : Change) ∈ reached.returned ∧ ¬ Revoked reached := by
  have outcome (actions : List Action) (change : Change)
      (ran : (actions.foldlM (act plainCredentials) oldManager).map (fun reached =>
        decide (change ∈ reached.returned) && gotOld change reached) = some true) :
      ∃ reached, Acts plainCredentials (fun _ _ => True) oldManager reached ∧
        change ∈ reached.returned ∧ ¬ Revoked reached := by
    obtain ⟨reached, acted, got⟩ := Option.map_eq_some_iff.mp ran
    simp only [Bool.and_eq_true, decide_eq_true_iff] at got
    exact ⟨reached, acts_of_foldlM _ (fun _ _ _ => trivial) acted, got.1,
      not_revoked_of_gotOld got.2⟩
  exact ⟨oldManager_begun, outcome lateInsertion _ (by decide +kernel),
    outcome lateClearing _ (by decide +kernel)⟩

end samples

end Nsblast.AuthMgr.Manager
