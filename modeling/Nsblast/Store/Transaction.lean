import Mathlib.Data.List.TakeWhile
import Nsblast.Library.OrderedMap
import Nsblast.Store.RealKey

/-!
# A database transaction and its log

`RocksDbResource::Transaction` collects writes and deletions and, for the entry
category only, a list of parts for the transaction log. The database keeps one
ordered map for each category; the log keeps the transactions by their id.

Of the database engine this uses that a transaction reads its own writes over
the committed content, that an iterator visits keys in bytewise order, and that
a commit takes effect at once. Values are opaque here. In a log record only what
the replay reads is kept: the id and the parts.
-/

namespace Nsblast

open List

variable {V : Type}

/-- `ResourceIf::Category`. -/
inductive Category where
  | default
  | masterZone
  | entry
  | diff
  | account
  | trxlog
  deriving DecidableEq, Repr

namespace Category

def toInt : Category → Int
  | default => 0
  | masterZone => 1
  | entry => 2
  | diff => 3
  | account => 4
  | trxlog => 5

/-- `ResourceIf::toCatecory`, with `none` for the exception. -/
def toCatecory (ix : Int) : Option Category :=
  if ix < 0 ∨ ix > toInt trxlog then none
  else match ix.toNat with
    | 0 => some default
    | 1 => some masterZone
    | 2 => some entry
    | 3 => some diff
    | 4 => some account
    | _ => some trxlog

@[simp] theorem toCatecory_toInt (category : Category) :
    toCatecory (toInt category) = category := by
  cases category <;> rfl

end Category

/-- One column family. -/
abbrev ColumnFamily (V : Type) := Std.ExtTreeMap Key V

abbrev Families (V : Type) := Category → ColumnFamily V

/-- `Put` and `Delete` of one key. -/
structure Mutation (V : Type) where
  category : Category
  key : Key
  value : Option V
  deriving DecidableEq, Repr

/-- The effect of one change on the column families. -/
def Mutation.run (families : Families V) (mutation : Mutation V) : Families V :=
  Function.update families mutation.category
    (match mutation.value with
      | some value => (families mutation.category).insert mutation.key value
      | none => (families mutation.category).erase mutation.key)

/-- A part of a `pb::Transaction`. A part without a value is a deletion. -/
structure Part (V : Type) where
  key : Key
  columnFamilyIx : Int
  value : Option V
  deriving DecidableEq, Repr

/-- A `pb::Transaction` as it is stored in the log. -/
structure TrxRecord (V : Type) where
  id : Nat
  parts : List (Part V)
  deriving DecidableEq, Repr

/-- The committed content: the column families, and the log by transaction id. -/
structure Db (V : Type) where
  families : Families V
  trxlog : Std.ExtTreeMap Nat (TrxRecord V)

/-- A database in which nothing has been stored yet. -/
def emptyDb {V : Type} : Db V := ⟨fun _ => ∅, ∅⟩

/-- An open transaction. `record` is the entry for the log, once `handleTrxLog`
has written it to the transaction. -/
structure Transaction (V : Type) where
  batch : List (Mutation V) := []
  disableTrxlog : Bool := false
  trxlog : Option (List (Part V)) := none
  record : Option (TrxRecord V) := none

namespace Transaction

/-- What the transaction sees: the committed content under its own changes. -/
def view (db : Db V) (trx : Transaction V) : Families V := trx.batch.foldl Mutation.run db.families

def get (db : Db V) (trx : Transaction V) (category : Category) (key : Key) : Option V :=
  (view db trx category)[key]?

def change (trx : Transaction V) (category : Category) (key : Key) (value : Option V) :
    Transaction V :=
  { trx with batch := trx.batch ++ [⟨category, key, value⟩] }

/-- The part added to the log by `write` and by `addDeletedToTrxlog`, with
`db_log_transactions` on. -/
def addPart (trx : Transaction V) (category : Category) (key : Key) (value : Option V) :
    Transaction V :=
  let logs := !trx.disableTrxlog && category == .entry
  let parts := trx.trxlog.getD [] ++ [⟨key, category.toInt, value⟩]
  { trx with trxlog := if logs then some parts else trx.trxlog }

/-- `keyExists`, which looks into the entry category unless told otherwise. -/
def keyExists (db : Db V) (trx : Transaction V) (key : Key) : Bool :=
  (get db trx .entry key).isSome

/-- `Transaction::write`. A new key is looked up in the default category. -/
def write (db : Db V) (trx : Transaction V) (key : Key) (data : V) (isNew : Bool)
    (category : Category) : Run (Transaction V) :=
  if isNew && keyExists db trx key then .thrown "Key exists"
  else .ok ((trx.change category key (some data)).addPart category key (some data))

/-- Deleting `deleted` while `key` is being removed: the log gets the key that was
asked for. -/
def delete (trx : Transaction V) (category : Category) (deleted key : Key) : Transaction V :=
  (trx.change category deleted none).addPart category key none

/-- The tests in the loop of a recursive removal, all of which must pass for the
loop to go on. -/
def isWithin (key ck : Key) : Bool :=
  key.length ≤ ck.length &&
    (let extraLen := ck.length - key.length
    (extraLen == 0 ||
      (ck[extraLen - 1]? == some 0x2E && (extraLen == 1 || ck[extraLen - 2]? != some 0x5C))) &&
      ck.drop extraLen == key)

/-- The keys an iterator of the transaction visits from `key` on. -/
def keysFrom (db : Db V) (trx : Transaction V) (category : Category) (key : Key) : List Key :=
  (OrderedMap.seek (view db trx category) key).map Prod.fst

/-- The loop of a recursive removal over the keys still to be visited. -/
def removeFrom (category : Category) (key : Key) : List Key → Transaction V → Transaction V
  | [], trx => trx
  | ck :: rest, trx =>
      if isWithin key ck then removeFrom category key rest (trx.delete category ck key) else trx

/-- `Transaction::remove`. -/
def remove (db : Db V) (trx : Transaction V) (key : Key) (recursive : Bool)
    (category : Category) : Transaction V :=
  if recursive then removeFrom category key (keysFrom db trx category key) trx
  else trx.delete category key key

/-- `handleTrxLog`, with the last id given out: a transaction with parts gets the
next one and its record, one without parts gets none. -/
def handleTrxLog (trxId : Nat) (trx : Transaction V) : Nat × Transaction V :=
  match trx.trxlog with
  | some (part :: parts) =>
      (trxId + 1, { trx with record := some ⟨trxId + 1, part :: parts⟩ })
  | _ => (trxId, { trx with trxlog := none })

variable {isNew : Bool} (db : Db V) (trxId : Nat) (trx : Transaction V) (category other : Category)
    (key read : Key)

theorem handleTrxLog_cases :
    trx.trxlog.getD [] = [] ∧ trx.handleTrxLog trxId = (trxId, { trx with trxlog := none }) ∨
      trx.trxlog.getD [] ≠ [] ∧ trx.handleTrxLog trxId =
        (trxId + 1, { trx with record := some ⟨trxId + 1, trx.trxlog.getD []⟩ }) := by
  rcases log : trx.trxlog with _ | _ | ⟨part, parts⟩ <;> simp [handleTrxLog, log]

@[simp]
theorem handleTrxLog_batch :
    (trx.handleTrxLog trxId).2.batch = trx.batch := by
  rcases trx.handleTrxLog_cases trxId with ⟨_, same⟩ | ⟨_, same⟩ <;> rw [same]

/-- The content after the commit. -/
def commit (db : Db V) (trx : Transaction V) : Db V where
  families := view db trx
  trxlog := match trx.record with
    | some record => db.trxlog.insert record.id record
    | none => db.trxlog

theorem get_change (value : Option V) :
    get db (trx.change category key value) other read =
      if category = other ∧ key = read then value else get db trx other read := by
  simp only [get, view, change, foldl_append, foldl_cons, foldl_nil, Mutation.run]
  by_cases same : category = other
  · subst same
    cases value with
    | some value => simp [Std.ExtTreeMap.getElem?_insert]
    | none => simp [Std.ExtTreeMap.getElem?_erase]
  · rw [Function.update_of_ne (Ne.symm same), if_neg fun both => same both.1]

theorem get_delete (deleted key read : Key) :
    get db (trx.delete category deleted key) other read =
      if category = other ∧ deleted = read then none else get db trx other read :=
  get_change db trx category other deleted read none

/-- The loop of a recursive removal deletes the keys up to the first that fails
its tests. -/
theorem get_removeFrom (keys : List Key) :
    get db (removeFrom category key keys trx) category read =
      if read ∈ keys.takeWhile (isWithin key) then none else get db trx category read := by
  induction keys generalizing trx with
  | nil => simp [removeFrom]
  | cons ck rest ih =>
    rw [removeFrom, takeWhile_cons]
    by_cases within : isWithin key ck = true
    · rw [if_pos within, if_pos within, ih, get_delete]
      by_cases same : ck = read
      · simp [same]
      · simp [same, Ne.symm same]
    · rw [if_neg within, if_neg within]
      simp

/-- What a write that succeeds has added. -/
theorem write_eq_ok {db : Db V} {trx next : Transaction V} {key : Key} {data : V}
    {category : Category} (written : trx.write db key data isNew category = .ok next) :
    next = (trx.change category key (some data)).addPart category key (some data) := by
  rw [write] at written
  split at written
  · cases written
  · exact (Run.ok.inj written).symm

theorem get_write {db : Db V} {trx next : Transaction V} {key : Key} {data : V}
    {category : Category} (written : trx.write db key data isNew category = .ok next)
    (other : Category) (read : Key) :
    next.get db other read =
      if category = other ∧ key = read then some data else trx.get db other read := by
  rw [write_eq_ok written]
  exact get_change db trx category other key read (some data)

theorem get_remove (category other : Category) (read : Key) :
    (trx.remove db key false category).get db other read =
      if category = other ∧ key = read then none else trx.get db other read :=
  get_delete db trx category other key key read

theorem isWithin_self : isWithin key key = true := by
  simp [isWithin]

/-- A recursive removal leaves nothing new. -/
theorem get_of_remove_recursive {db : Db V} {trx : Transaction V} {key read : Key}
    {category : Category} {value : V}
    (left : (trx.remove db key true category).get db category read = some value) :
    trx.get db category read = some value := by
  rw [remove, if_pos rfl, get_removeFrom] at left
  split at left
  · cases left
  · exact left

/-- A recursive removal that meets no other key. -/
theorem get_remove_recursive (category : Category)
    (alone : ∀ ck, (trx.get db category ck).isSome = true → isWithin key ck = true → ck = key)
    (read : Key) :
    (trx.remove db key true category).get db category read =
      if key = read then none else trx.get db category read := by
  rw [remove, if_pos rfl, get_removeFrom]
  have found (ck : Key) (member : ck ∈ (keysFrom db trx category key).takeWhile (isWithin key)) :
      ck = key := by
    have listed := (List.takeWhile_prefix _).subset member
    obtain ⟨⟨_, value⟩, entry, same⟩ := mem_map.mp listed
    have stored := ((OrderedMap.mem_seek _ _ _).mp entry).1
    have present : (trx.get db category ck).isSome = true := by
      rw [get, ← same, stored]
      rfl
    exact alone ck present (mem_takeWhile_imp member)
  split
  · rename_i member
    rw [if_pos (found read member).symm]
  · rename_i outside
    split
    · rename_i same
      subst same
      cases value : trx.get db category key with
      | none => rfl
      | some stored =>
        have first := OrderedMap.seek_present (view db trx category) value
        rw [keysFrom, first, map_cons, takeWhile_cons, isWithin_self, if_pos rfl] at outside
        exact absurd mem_cons_self outside
    · rfl

/-- Committing shows what the transaction has seen. -/
theorem commit_get :
    ((commit db (handleTrxLog trxId trx).2).families category)[key]? = get db trx category key := by
  rw [commit, get, view, view, handleTrxLog_batch]

/-- A `Put` or `Delete` locks its key until the transaction ends. -/
def Holds (trx : Transaction V) (category : Category) (key : Key) : Prop :=
  ∃ mutation ∈ trx.batch, mutation.category = category ∧ mutation.key = key

end Transaction

end Nsblast
