import Nsblast.Store.Branch
import Nsblast.Store.LogReplay

/-!
# Calls of the database engine that fail

`Put` and `Delete` of a database transaction return a status. One that is not ok has had
no effect, as after a timeout for a lock. `write` throws then and adds no part to the log.
`remove` does not look at the status: it adds the part, and the commit writes a log that
deletes a key the primary still has.

The statuses are given for each call by its number, in any pattern. A caller may go on
after an exception. What it has requested are the operations that returned.
-/

namespace Nsblast.Transaction

open RealKey

variable {V : Type}

/-- The calls that return a status. -/
inductive Call where
  | put
  | delete
  deriving DecidableEq, Repr

/-- The status of each call: nothing, or the text of one that is not ok. -/
abbrev Statuses := Call → Nat → Option String

/-- What is asked of a transaction. -/
inductive Operation (V : Type) where
  | write (key : Key) (data : V) (isNew : Bool) (category : Category)
  | remove (key : Key) (recursive : Bool) (category : Category)

/-- An operation when all calls succeed. -/
def Operation.apply (db : Db V) (trx : Transaction V) : Operation V → Transaction V
  | .write key data isNew category =>
      match trx.write db key data isNew category with
      | .ok written => written
      | _ => trx
  | .remove key recursive category => trx.remove db key recursive category

section isNew

/-- A write of a new key is refused exactly if the key is where the value goes, and a refusal
changes nothing in any category. -/
def CreatesAbsent (db : Db V) (trx : Transaction V) (key : Key) (data : V) (category : Category) :
    Prop :=
  (trx.write db key data true category = .thrown "Key exists" ↔
    (trx.get db category key).isSome = true) ∧
  (trx.write db key data true category = .thrown "Key exists" → ∀ other read,
    ((Operation.write key data true category).apply db trx).get db other read =
      trx.get db other read)

theorem write_new_eq_thrown (db : Db V) (trx : Transaction V) (key : Key) (data : V)
    (category : Category) : trx.write db key data true category = .thrown "Key exists" ↔
      (trx.get db .entry key).isSome = true := by
  simp [write, keyExists, Option.isSome_iff_ne_none]

/-- In every state that calls and commits can lead to, creating a key does what it is for
exactly if the key is both in the category and among the entries, or in neither. -/
theorem createsAbsent_iff (db : Db V) (trx : Transaction V) (key : Key) (data : V)
    (category : Category) : CreatesAbsent db trx key data category ↔
      ((trx.get db .entry key).isSome = true ↔ (trx.get db category key).isSome = true) := by
  rw [CreatesAbsent, write_new_eq_thrown]
  refine and_iff_left fun refused other read => ?_
  rw [Operation.apply, (write_new_eq_thrown db trx key data category).mpr refused]

/-- In an empty database, the second creation of a key of an account is not refused. -/
theorem account_created_twice : ∃ trx : Transaction Unit,
    write ⟨fun _ => ∅, ∅⟩ {} [0] () true .account = .ok trx ∧
      ¬ CreatesAbsent ⟨fun _ => ∅, ∅⟩ trx [0] () .account := by
  refine ⟨_, rfl, ?_⟩
  intro creates
  have again := creates.1.mpr ?_
  · cases again
  · rfl

end isNew

/-- A transaction, and how many calls it has made. -/
structure Attempt (V : Type) where
  trx : Transaction V := {}
  calls : Nat := 0

namespace Attempt

variable (status : Statuses)

/-- `Transaction::write`, and the text of the exception that leaves it. -/
def write (db : Db V) (attempt : Attempt V) (key : Key) (data : V) (isNew : Bool)
    (category : Category) : Attempt V × Option String :=
  if isNew && keyExists db attempt.trx key then (attempt, some "Key exists")
  else match status .put attempt.calls with
    | some text => ({ attempt with calls := attempt.calls + 1 }, some ("Rocksdb write failed: " ++ text))
    | none =>
        (⟨(attempt.trx.change category key (some data)).addPart category key (some data),
          attempt.calls + 1⟩, none)

/-- A call of `Delete`, whose status is not looked at, and `addDeletedToTrxlog`. -/
def delete (attempt : Attempt V) (category : Category) (deleted key : Key) : Attempt V where
  trx := (if (status .delete attempt.calls).isNone then attempt.trx.change category deleted none
    else attempt.trx).addPart category key none
  calls := attempt.calls + 1

/-- The loop of a recursive removal. -/
def removeFrom (category : Category) (key : Key) : List Key → Attempt V → Attempt V
  | [], attempt => attempt
  | ck :: rest, attempt =>
      if isWithin key ck then removeFrom category key rest (attempt.delete status category ck key)
      else attempt

/-- `Transaction::remove`. -/
def remove (db : Db V) (attempt : Attempt V) (key : Key) (recursive : Bool) (category : Category) :
    Attempt V :=
  if recursive then removeFrom status category key (keysFrom db attempt.trx category key) attempt
  else attempt.delete status category key key

/-- One operation, and whether it returned. -/
def perform (db : Db V) (attempt : Attempt V) : Operation V → Attempt V × Bool
  | .write key data isNew category =>
      let (next, thrown) := attempt.write status db key data isNew category
      (next, thrown.isNone)
  | .remove key recursive category => (attempt.remove status db key recursive category, true)

/-- Operations one after the other, and those that returned. -/
def performAll (db : Db V) : List (Operation V) → Attempt V → Attempt V × List (Operation V)
  | [], attempt => (attempt, [])
  | operation :: rest, attempt =>
      let (next, returned) := attempt.perform status db operation
      let (final, requested) := performAll db rest next
      (final, if returned then operation :: requested else requested)

/-- `commit`, with the last id given out: the record is written with a `Put` as well, and
the status of the engine's own commit is looked at. -/
def commit (committed : Option String) (db : Db V) (trxId : Nat) (attempt : Attempt V) :
    Run (Db V) :=
  let (_, trx) := handleTrxLog trxId attempt.trx
  match (if trx.record.isSome then status .put attempt.calls else none), committed with
  | some text, _ => .thrown ("Rocksdb write failed: " ++ text)
  | none, some _ => .thrown "Failed to commit transaction"
  | none, none => .ok (trx.commit db)

end Attempt

/-- The keys of entries that an operation addresses are those of names. -/
def Operation.Named : Operation V → Prop
  | .write key _ _ category => category = .entry → ∃ name, (0 : UInt8) ∉ name ∧ key = ofName name
  | .remove key _ category => category = .entry → ∃ name, (0 : UInt8) ∉ name ∧ key = ofName name

variable (category : Category) (key : Key) (keys : List Key)

section requested

variable {status : Statuses}

variable (db : Db V) (operations : List (Operation V)) (attempt : Attempt V)

theorem Attempt.delete_trx (attempt : Attempt V) (category : Category) (deleted key : Key)
    (deletes : ∀ call, status .delete call = none) :
    (attempt.delete status category deleted key).trx = attempt.trx.delete category deleted key := by
  rw [Attempt.delete, deletes]
  rfl

theorem Attempt.removeFrom_trx (attempt : Attempt V)
    (deletes : ∀ call, status .delete call = none) :
    (attempt.removeFrom status category key keys).trx =
      Transaction.removeFrom category key keys attempt.trx := by
  induction keys generalizing attempt with
  | nil => rfl
  | cons ck rest ih =>
    rw [Attempt.removeFrom, Transaction.removeFrom]
    split
    · rw [ih, attempt.delete_trx category ck key deletes]
    · rfl

/-- If no deletion fails, an operation that returns has done what it is for, and one that
throws has done nothing. -/
theorem Attempt.perform_trx (operation : Operation V)
    (deletes : ∀ call, status .delete call = none) :
    (attempt.perform status db operation).1.trx =
      if (attempt.perform status db operation).2 = true then operation.apply db attempt.trx
      else attempt.trx := by
  cases operation with
  | write key data isNew category =>
    simp only [perform, Attempt.write, Operation.apply, Transaction.write]
    split
    · simp
    · split <;> simp
  | remove key recursive category =>
    simp only [perform, Attempt.remove, Operation.apply, Transaction.remove, if_true]
    split
    · exact removeFrom_trx category key _ attempt deletes
    · exact attempt.delete_trx category key key deletes

/-- The transaction is the one of the requested operations. -/
theorem Attempt.performAll_trx (deletes : ∀ call, status .delete call = none) :
    (attempt.performAll status db operations).1.trx =
      (attempt.performAll status db operations).2.foldl (Operation.apply db) attempt.trx := by
  induction operations generalizing attempt with
  | nil => rfl
  | cons operation rest ih =>
    have step := attempt.perform_trx db operation deletes
    rw [performAll]
    simp only
    rw [ih, step]
    split
    · rfl
    · rfl

/-- What is requested is part of what is asked for. -/
theorem Attempt.requested_sublist (status : Statuses) (db : Db V) (operations : List (Operation V))
    (attempt : Attempt V) : (attempt.performAll status db operations).2.Sublist operations := by
  induction operations generalizing attempt with
  | nil => exact .slnil
  | cons operation rest ih =>
    rw [performAll]
    simp only
    split
    · exact (ih _).cons_cons operation
    · exact (ih _).cons operation

/-- A commit that returns has taken the transaction to the database. -/
theorem Attempt.commit_eq_ok {committed : Option String} {db final : Db V} {trxId : Nat}
    {attempt : Attempt V} (returned : attempt.commit status committed db trxId = .ok final) :
    final = (handleTrxLog trxId attempt.trx).2.commit db := by
  rw [Attempt.commit] at returned
  simp only at returned
  split at returned
  · cases returned
  · cases returned
  · exact (Run.ok.inj returned).symm

end requested

section logged

/-- The log of a transaction has the writes of its batch. -/
structure Logged (db : Db V) (trx : Transaction V) : Prop where
  enabled : trx.disableTrxlog = false
  same : partWrites (trx.trxlog.getD []) = entryWrites trx.batch
  named : NamedEntries db trx
  unnumbered : trx.record = none

variable {db : Db V} {trx : Transaction V}

/-- A change that is logged with its own key. -/
theorem Logged.changed (logged : Logged db trx) {category : Category} {key part : Key}
    (value : Option V)
    (isEntry : category = .entry → key = part ∧ ∃ name, (0 : UInt8) ∉ name ∧ key = ofName name) :
    Logged db ((trx.change category key value).addPart category part value) := by
  have same := logged.same
  simp only [partWrites, entryWrites] at same
  refine ⟨logged.enabled, ?same, ?named, logged.unnumbered⟩
  case same =>
    by_cases entry : category = .entry
    · obtain ⟨rfl, _⟩ := isEntry entry
      simp [addPart, change, logged.enabled, entry, partWrites, entryWrites, same]
    · simp [addPart, change, entry, partWrites, entryWrites, same]
  case named =>
    intro read stored
    have isRead : get db ((trx.change category key value).addPart category part value) .entry read =
        if category = .entry ∧ key = read then value else trx.get db .entry read :=
      get_change db trx category .entry key read value
    rw [isRead] at stored
    split at stored
    · rename_i here
      rw [← here.2]
      exact (isEntry here.1).2
    · exact logged.named read stored

/-- The loop of a removal in another category is not logged. -/
theorem Logged.removeFrom (other : category ≠ .entry) (logged : Logged db trx) :
    Logged db (trx.removeFrom category key keys) := by
  induction keys generalizing trx with
  | nil => exact logged
  | cons ck rest ih =>
    rw [Transaction.removeFrom]
    split
    · exact ih (logged.changed none fun entry => absurd entry other)
    · exact logged

/-- Every operation keeps the log. -/
theorem Logged.apply (logged : Logged db trx) (operation : Operation V) (named : operation.Named) :
    Logged db (operation.apply db trx) := by
  cases operation with
  | write key data isNew category =>
    simp only [Operation.apply, write]
    split
    · rename_i written isWritten
      split at isWritten
      · cases isWritten
      · cases isWritten
        exact logged.changed (some data) fun entry => ⟨rfl, named entry⟩
    · exact logged
  | remove key recursive category =>
    have single : Logged db (trx.delete category key key) :=
      logged.changed none fun entry => ⟨rfl, named entry⟩
    cases recursive with
    | false => exact single
    | true =>
      by_cases entry : category = .entry
      · subst entry
        obtain ⟨name, _, rfl⟩ := named rfl
        rw [Operation.apply, remove_recursive_eq name logged.named]
        split
        · exact single
        · exact logged
      · exact logged.removeFrom category key _ entry

theorem Logged.applyAll {operations : List (Operation V)}
    (named : ∀ operation ∈ operations, operation.Named) (logged : Logged db trx) :
    Logged db (operations.foldl (Operation.apply db) trx) := by
  induction operations generalizing trx with
  | nil => exact logged
  | cons operation rest ih =>
    exact ih (fun other later => named other (List.mem_cons_of_mem _ later))
      (logged.apply operation (named operation List.mem_cons_self))

/-- The record that a commit writes, and that there is none without parts. -/
theorem commit_record (db : Db V) (trxId : Nat) {trx : Transaction V}
    (unnumbered : trx.record = none) :
    (trx.trxlog.getD [] = [] ∧ ((handleTrxLog trxId trx).2.commit db).trxlog = db.trxlog) ∨
      ((handleTrxLog trxId trx).2.commit db).trxlog =
        db.trxlog.insert (trxId + 1) ⟨trxId + 1, trx.trxlog.getD []⟩ := by
  rcases trx.handleTrxLog_cases trxId with ⟨nothing, same⟩ | ⟨_, same⟩
  · exact .inl ⟨nothing, by simp only [same, commit, unnumbered]⟩
  · exact .inr (by rw [same, commit])

/-- If no deletion fails, a commit that returns leaves the result of all operations that
returned, and its record says what was changed. -/
theorem committed_as_requested (status : Statuses) (deletes : ∀ call, status .delete call = none)
    (committed : Option String) (db final : Db V) (trxId : Nat) (operations : List (Operation V))
    (returned : (({} : Attempt V).performAll status db operations).1.commit status committed db trxId =
      .ok final) :
    final.families =
        view db ((({} : Attempt V).performAll status db operations).2.foldl (Operation.apply db) {}) ∧
      ((∀ operation ∈ operations, operation.Named) → NamedEntries db ({} : Transaction V) →
        ∃ parts, (parts = [] ∧ final.trxlog = db.trxlog ∨
            final.trxlog = db.trxlog.insert (trxId + 1) ⟨trxId + 1, parts⟩) ∧
          final.entries = Replay.apply db.entries (partWrites parts)) := by
  have isTrx := Attempt.performAll_trx db operations {} deletes
  have asked := Attempt.requested_sublist status db operations {}
  have isFinal := Attempt.commit_eq_ok returned
  rw [isTrx] at isFinal
  constructor
  · rw [isFinal, commit, view, view, handleTrxLog_batch]
  · intro named entries
    have fresh : Logged db ({} : Transaction V) := ⟨rfl, rfl, entries, rfl⟩
    have logged := fresh.applyAll fun operation member => named operation (asked.subset member)
    have record := commit_record db trxId logged.unnumbered
    rw [← isFinal] at record
    exact ⟨_, record, by rw [isFinal, commit_entries, handleTrxLog_batch, logged.same]⟩

/-- A write that fails for a lock, the same write again, and a removal of the branch `z`. -/
def sampleOperations : List (Operation Nat) :=
  [.write (ofName [0x62]) 5 false .entry, .write (ofName [0x62]) 5 false .entry,
    .remove (ofName [0x7A]) true .entry]

/-- The first call fails. -/
def firstBusy : Statuses := fun call number => if call = .put ∧ number = 0 then some "Busy" else none

/-- What is committed are the operations that returned. -/
theorem busy_write_committed : ∃ final,
    (({} : Attempt Nat).performAll firstBusy aloneDb sampleOperations).1.commit firstBusy none aloneDb 7 =
        .ok final ∧
      final.families = view aloneDb ((({} : Attempt Nat).performAll firstBusy aloneDb
        sampleOperations).2.foldl (Operation.apply aloneDb) {}) ∧
      ∃ parts, (parts = [] ∧ final.trxlog = aloneDb.trxlog ∨
          final.trxlog = aloneDb.trxlog.insert 8 ⟨8, parts⟩) ∧
        final.entries = Replay.apply aloneDb.entries (partWrites parts) := by
  obtain ⟨content, logged⟩ := committed_as_requested firstBusy (fun _ => rfl) none aloneDb _ 7
    sampleOperations rfl
  refine ⟨_, rfl, content, logged ?_ aloneDb_namedEntries⟩
  intro operation member
  simp only [sampleOperations, List.mem_cons, List.not_mem_nil, or_false] at member
  rcases member with rfl | rfl | rfl
  all_goals exact fun _ => ⟨_, by decide, rfl⟩

/-- A deletion that fails. -/
def deletesBusy : Statuses := fun call _ => if call = .delete then some "Busy" else none

/-- The commit returns, the entry is still there, and the log has its deletion. -/
theorem failed_delete_logged : ∃ final : Db Nat,
    (({} : Attempt Nat).performAll deletesBusy aloneDb [.remove (ofName [0x7A]) false .entry]).1.commit
        deletesBusy none aloneDb 7 = .ok final ∧
      (({} : Attempt Nat).performAll deletesBusy aloneDb [.remove (ofName [0x7A]) false .entry]).2 =
        [.remove (ofName [0x7A]) false .entry] ∧
      final.entries (ofName [0x7A]) = some 1 ∧
      (view aloneDb ((Operation.remove (ofName [0x7A]) false .entry).apply aloneDb {})
        .entry)[ofName [0x7A]]? =
        none ∧
      final.trxlog[8]? = some ⟨8, [deletedPart [0x7A]]⟩ := by
  refine ⟨_, rfl, rfl, by decide +kernel, by decide +kernel, by decide +kernel⟩

end logged

end Nsblast.Transaction
