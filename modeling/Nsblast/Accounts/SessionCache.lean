import Nsblast.Accounts.Changes
import Nsblast.Accounts.Session

/-!
# Logins and the session cache

`authorize` looks for a session under the hash of the authorization header. If there
is none, `basicAuth` reads the id of the tenant from the index of login names, reads
the tenant, checks the password, makes a session and puts it into the cache. A change
of a tenant commits and then clears the cache, unless it has created the tenant.

Each of these is an action of its own, and the actions of any number of logins and
changes come in any order. The manager keeps the store after every commit, and for
each login the changes that had returned when it began. The hash and the decoding of
the header are given. Assertions are compiled in.
-/

namespace Nsblast.AuthMgr

open Pb List

/-- `Lru`, with the item used last in front. -/
structure Lru (A : Type) where
  capacity : Nat
  items : List (Bytes × A) := []

namespace Lru

variable {A : Type}

def get (lru : Lru A) (key : Bytes) : Option A × Lru A :=
  match lru.items.find? fun item => item.1 == key with
  | some item =>
      (some item.2, { lru with items := item :: lru.items.filter fun other => other.1 != key })
  | none => (none, lru)

/-- `emplace`. When the key is there the item of the map is replaced but stays in the
list, and the assertion that both have the same size fails. -/
def emplace (lru : Lru A) (key : Bytes) (data : A) : Run (Lru A) := do
  Run.assert (!lru.items.any fun item => item.1 == key)
  let items := (key, data) :: lru.items
  .ok { lru with items := if lru.capacity < items.length then items.dropLast else items }

def clear (lru : Lru A) : Lru A := { lru with items := [] }

variable {lru : Lru A} {key : Bytes}

theorem get_found {data : A} (found : (lru.get key).1 = some data) :
    ∃ item ∈ lru.items, item.2 = data := by
  rw [get] at found
  split at found
  · rename_i item isItem
    cases found
    exact ⟨item, mem_of_find?_eq_some isItem, rfl⟩
  · cases found

theorem mem_of_get {item : Bytes × A}
    (member : item ∈ (lru.get key).2.items) : item ∈ lru.items := by
  rw [get] at member
  split at member
  · rename_i first isFirst
    rcases mem_cons.mp member with rfl | later
    · exact mem_of_find?_eq_some isFirst
    · exact (mem_filter.mp later).1
  · exact member

theorem mem_of_emplace {next : Lru A} {data : A} (emplaced : lru.emplace key data = .ok next)
    {item : Bytes × A} (member : item ∈ next.items) : item = (key, data) ∨ item ∈ lru.items := by
  rw [emplace, Run.bind_eq_ok] at emplaced
  obtain ⟨_, _, same⟩ := emplaced
  cases same
  split at member
  · exact mem_cons.mp (dropLast_subset _ member)
  · exact mem_cons.mp member

end Lru

/-- A session with the tenant it is made from, which was read under `tenantId`. -/
structure Opened (env : Session.Env) where
  tenantId : Bytes
  tenant : Tenant
  user : User
  session : Session
  isUser : user ∈ tenant.users
  made : Session.make env tenant user.roles = .ok session

/-- A call that has committed: the position of its store, the tenant it is about, and
whether it clears the cache. -/
structure Change where
  version : Nat
  target : Bytes
  clears : Bool
  deriving DecidableEq, Repr

/-- How far a login has come. `since` lists the calls that had returned before. -/
inductive Login (env : Session.Env) where
  | idle
  | started (header : Bytes) (since : List Change)
  | missed (header : Bytes) (since : List Change)
  | found (header : Bytes) (since : List Change) (tenantId : Bytes)
  | built (header : Bytes) (since : List Change) (opened : Opened env)
  | answered (since : List Change) (opened : Option (Opened env))

/-- What logins take from outside: `sha256`, the user name and the password in a
header, and the hash of a password. -/
structure Credentials where
  sha256 : Bytes → Bytes
  decode : Bytes → Option (Bytes × Bytes)
  createHash : Bytes → Bytes → Bytes

/-- The tenant a call is about. -/
def Call.target : Call → Bytes
  | .create env tenant => createdId env tenant
  | .upsert _ _ tenant _ => Name.toLower (tenant.id.getD [])
  | .delete tenantId => Name.toLower tenantId

/-- Whether the call ends with `resetTokensForTenant`. -/
def Call.clears (db : Db Value) : Call → Bool
  | .create _ _ => false
  | .upsert _ _ tenant _ => (getTenant db (Name.toLower (tenant.id.getD []))).isSome
  | .delete _ => true

/-- The account manager with its logins and calls. `stores` begins with the first
store and ends with the present one. -/
structure Manager (env : Session.Env) where
  accounts : Accounts
  stores : List (Db Value)
  keys : Lru (Opened env)
  logins : Nat → Login env := fun _ => .idle
  pending : List Change := []
  returned : List Change := []

inductive Action where
  | start (login : Nat) (header : Bytes)
  | lookup (login : Nat)
  | readUser (login : Nat)
  | readTenant (login : Nat)
  | insert (login : Nat)
  | commit (call : Call)
  | finish (change : Change)

namespace Manager

variable {env : Session.Env}

def set (manager : Manager env) (login : Nat) (phase : Login env) : Manager env :=
  { manager with logins := Function.update manager.logins login phase }

/-- The end of `basicAuth`, for a tenant that was found. -/
def openSession (credentials : Credentials) (header tenantId : Bytes) (tenant : Tenant) :
    Option (Opened env) :=
  match credentials.decode header with
  | none => none
  | some (userName, pass) =>
      match found : tenant.users.find? fun user =>
          Name.toLower (user.name.getD []) == Name.toLower userName with
      | none => none
      | some user =>
          if user.auth.any fun auth =>
              credentials.createHash (auth.seed.getD []) pass == auth.hash.getD [] then
            match made : Session.make env tenant user.roles with
            | .ok session =>
                some ⟨tenantId, tenant, user, session, mem_of_find?_eq_some found, made⟩
            | _ => none
          else none

/-- The first read of `basicAuth`. -/
def readUser (credentials : Credentials) (db : Db Value) (header : Bytes) : Option Bytes :=
  (credentials.decode header).bind fun login => readText (account db (userKey login.1))

/-- The second one, with the check of the password. -/
def readTenant (credentials : Credentials) (db : Db Value) (header tenantId : Bytes) :
    Option (Opened env) :=
  (getTenant db tenantId).bind (openSession credentials header tenantId)

/-- One action, or `none` if it cannot come now. -/
def act (credentials : Credentials) (manager : Manager env) : Action → Option (Manager env)
  | .start login header =>
      match manager.logins login with
      | .idle | .answered _ _ => some (manager.set login (.started header manager.returned))
      | _ => none
  | .lookup login =>
      match manager.logins login with
      | .started header since =>
          let (found, keys) := manager.keys.get (credentials.sha256 header)
          match found with
          | some opened => some ({ manager with keys }.set login (.answered since (some opened)))
          | none => some (manager.set login (.missed header since))
      | _ => none
  | .readUser login =>
      match manager.logins login with
      | .missed header since =>
          match readUser credentials manager.accounts.db header with
          | some tenantId => some (manager.set login (.found header since tenantId))
          | none => some (manager.set login (.answered since none))
      | _ => none
  | .readTenant login =>
      match manager.logins login with
      | .found header since tenantId =>
          match readTenant credentials manager.accounts.db header tenantId with
          | some opened => some (manager.set login (.built header since opened))
          | none => some (manager.set login (.answered since none))
      | _ => none
  | .insert login =>
      match manager.logins login with
      | .built header since opened =>
          match manager.keys.emplace (credentials.sha256 header) opened with
          | .ok keys => some ({ manager with keys }.set login (.answered since (some opened)))
          | _ => none
      | _ => none
  | .commit call =>
      match perform manager.accounts call with
      | .ok next => some { manager with
          accounts := next
          stores := manager.stores ++ [next.db]
          pending := ⟨manager.stores.length, call.target, call.clears manager.accounts.db⟩ ::
            manager.pending }
      | _ => none
  | .finish change =>
      if change ∈ manager.pending then
        some { manager with
          keys := if change.clears then manager.keys.clear else manager.keys
          pending := manager.pending.erase change
          returned := change :: manager.returned }
      else none

/-- Any number of actions that meet a condition. -/
abbrev Acts (credentials : Credentials) (condition : Manager env → Action → Prop) :
    Manager env → Manager env → Prop :=
  Relation.ReflTransGen fun before after =>
    ∃ action, condition before action ∧ act credentials before action = some after

/-- A manager at its start. -/
structure Begun (manager : Manager env) : Prop where
  stores : manager.stores = [manager.accounts.db]
  keys : manager.keys.items = []
  logins : ∀ login, manager.logins login = .idle
  pending : manager.pending = []
  returned : manager.returned = []

/-- The tenant in one of the stores. -/
def tenantAt (stores : List (Db Value)) (version : Nat) (id : Bytes) : Option Tenant :=
  stores[version]?.bind fun db => getTenant db id

/-- The call is about the tenant or has changed it. -/
def Concerns (stores : List (Db Value)) (change : Change) (id : Bytes) : Prop :=
  id = change.target ∨ tenantAt stores (change.version - 1) id ≠ tenantAt stores change.version id

/-- The session is made from the tenant as it was stored at a version or later. -/
def Current (stores : List (Db Value)) (opened : Opened env) (version : Nat) : Prop :=
  ∃ later, version ≤ later ∧ tenantAt stores later opened.tenantId = some opened.tenant

/-- Every session a login has got is made from its tenant as committed by each call
that had returned when the login began, or from a later one. -/
def Revoked (manager : Manager env) : Prop :=
  ∀ login since opened, manager.logins login = .answered since (some opened) →
    ∀ change ∈ since, Concerns manager.stores change opened.tenantId →
      Current manager.stores opened change.version

end Manager

end Nsblast.AuthMgr
