import Nsblast.Library.Replay
import Nsblast.Store.Primary

/-!
# Replaying the transaction log on a follower

The follower applies the records of the log in the order of their ids. Ids are
given out before the commit, so two transactions may commit in the opposite
order. They then have no entry in common: a transaction is numbered while it
holds the locks of all its keys, and keeps them until it has committed. The
entries after the replay are therefore those of the primary.

The invariant says, for a transaction that is numbered but not committed, that no
later record in the log writes one of its keys. The order of the ids is that of the natural
numbers, so that the results are about runs with fewer than `2 ^ 64` ids.
-/

namespace Nsblast

open List Replay RealKey OrderedMap

variable {V : Type}

namespace Follower

/-- `FollowerReplication::Agent::onTrx`: the parts of a record are put together
to a transaction again, whose own log is off, and the record is logged. A part
with an unknown category is skipped. -/
def addPart (db : Db V) (trx : Transaction V) (part : Part V) : Transaction V :=
  match Category.toCatecory part.columnFamilyIx with
  | none => trx
  | some category =>
      match part.value with
      | some value =>
          match trx.write db part.key value false category with
          | .ok written => written
          | _ => trx
      | none => trx.remove db part.key false category

def onTrx (db : Db V) (record : TrxRecord V) : Db V :=
  let trx := record.parts.foldl (addPart db) { disableTrxlog := true }
  { trx with record := some record }.commit db

/-- The records with an id above `base`, by ascending id. -/
def recordsAfter (base : Nat) (trxlog : Std.ExtTreeMap Nat (TrxRecord V)) : List (TrxRecord V) :=
  (trxlog.toList.filter fun entry => base < entry.1).map Prod.snd

/-- The follower applies one record after the other. -/
def replay (db : Db V) (records : List (TrxRecord V)) : Db V := records.foldl onTrx db

end Follower

/-- The entries of a database. -/
def Db.entries (db : Db V) : Key → Option V := fun key => (db.families .entry)[key]?

variable {ck key : Key} {replaced : Option (Session V)} (db : Db V)

namespace Transaction

/-- The writes of a batch that concern entries. -/
def entryWrites (batch : List (Mutation V)) : Replay.Writes Key V :=
  batch.filterMap fun mutation =>
    if mutation.category = .entry then some (mutation.key, mutation.value) else none

/-- The parts that log those writes. -/
def entryParts (batch : List (Mutation V)) : List (Part V) :=
  batch.filterMap fun mutation =>
    if mutation.category = .entry then
      some ⟨mutation.key, Category.entry.toInt, mutation.value⟩
    else none

/-- The writes that the parts of a record ask for. -/
def partWrites (parts : List (Part V)) : Replay.Writes Key V :=
  parts.filterMap fun part =>
    if Category.toCatecory part.columnFamilyIx = some .entry then some (part.key, part.value)
    else none

variable (batch : List (Mutation V)) (families : Families V)

theorem partWrites_entryParts :
    partWrites (entryParts batch) = entryWrites batch := by
  rw [partWrites, entryParts, entryWrites, filterMap_filterMap]
  apply filterMap_congr
  intro mutation _
  by_cases entry : mutation.category = .entry
  · simp [entry]
  · simp [entry]

theorem mem_entryWrites {batch : List (Mutation V)} (written : key ∈ keys (entryWrites batch)) :
    ∃ mutation ∈ batch, mutation.category = .entry ∧ mutation.key = key := by
  obtain ⟨write, listed, rfl⟩ := mem_map.mp written
  obtain ⟨mutation, inBatch, taken⟩ := mem_filterMap.mp listed
  by_cases entry : mutation.category = .entry
  · rw [if_pos entry] at taken
    cases taken
    exact ⟨mutation, inBatch, entry, rfl⟩
  · rw [if_neg entry] at taken
    cases taken

/-- A change of one key, seen from the entries. -/
theorem run_entry (mutation : Mutation V) :
    (fun key => (mutation.run families .entry)[key]?) =
      Replay.apply (fun key => (families .entry)[key]?) (entryWrites [mutation]) := by
  obtain ⟨category, changed, value⟩ := mutation
  funext key
  by_cases entry : category = .entry
  · subst entry
    simp only [Mutation.run, Function.update_self, entryWrites, filterMap_cons, ↓reduceIte,
      filterMap_nil, apply_cons, apply_nil]
    by_cases here : key = changed
    · subst here
      cases value with
      | none => simp
      | some data => simp
    · have apart : compare changed key ≠ .eq := by
        intro same
        exact here (Std.LawfulEqCmp.eq_of_compare same).symm
      rw [Function.update_of_ne here]
      cases value with
      | none => simp [Std.ExtTreeMap.getElem?_erase, apart]
      | some data => simp [Std.ExtTreeMap.getElem?_insert, apart]
  · have other : Category.entry ≠ category := fun same => entry same.symm
    simp [Mutation.run, Function.update_of_ne other, entryWrites, entry]

theorem foldl_run_entry :
    (fun key => (batch.foldl Mutation.run families .entry)[key]?) =
      Replay.apply (fun key => (families .entry)[key]?) (entryWrites batch) := by
  induction batch generalizing families with
  | nil => rfl
  | cons mutation rest ih =>
    have split : entryWrites (mutation :: rest) = entryWrites [mutation] ++ entryWrites rest := by
      rw [entryWrites, entryWrites, entryWrites, ← filterMap_append, singleton_append]
    rw [foldl_cons, ih, run_entry, split, apply_append]

/-- The entries after a commit are those before it under the batch. -/
theorem commit_entries (trx : Transaction V) :
    (trx.commit db).entries = Replay.apply db.entries (entryWrites trx.batch) :=
  foldl_run_entry trx.batch db.families

end Transaction

namespace Follower

open Transaction

/-- The follower's transaction gets exactly the writes the parts ask for. -/
theorem addPart_batch (trx : Transaction V) (part : Part V) :
    entryWrites (addPart db trx part).batch = entryWrites trx.batch ++ partWrites [part] := by
  have changed : ∀ category value, entryWrites
      ((trx.change category part.key value).addPart category part.key value).batch =
        entryWrites trx.batch ++
          if category = .entry then [(part.key, value)] else [] := by
    intro category value
    rw [entryWrites, Transaction.addPart, change, filterMap_append]
    by_cases entry : category = .entry
    · simp [entry, entryWrites]
    · simp [entry, entryWrites]
  unfold addPart
  cases known : Category.toCatecory part.columnFamilyIx with
  | none => simp [partWrites, known]
  | some category =>
    cases stored : part.value with
    | none =>
      simp only [Transaction.remove, Bool.false_eq_true, ↓reduceIte, Transaction.delete, changed]
      by_cases entry : category = .entry <;> simp [partWrites, known, entry, stored]
    | some value =>
      simp only [Transaction.write, Bool.false_and, Bool.false_eq_true, ↓reduceIte, changed]
      by_cases entry : category = .entry <;> simp [partWrites, known, entry, stored]

theorem foldl_addPart_batch (parts : List (Part V)) (trx : Transaction V) :
    entryWrites (parts.foldl (addPart db) trx).batch = entryWrites trx.batch ++ partWrites parts := by
  induction parts generalizing trx with
  | nil => simp [partWrites]
  | cons part rest ih =>
    have split : partWrites (part :: rest) = partWrites [part] ++ partWrites rest := by
      rw [partWrites, partWrites, partWrites, ← filterMap_append, singleton_append]
    rw [foldl_cons, ih, addPart_batch, split, append_assoc]

/-- One record changes the entries of the follower as its parts say. -/
theorem onTrx_entries (record : TrxRecord V) :
    (onTrx db record).entries = Replay.apply db.entries (partWrites record.parts) := by
  rw [onTrx, commit_entries]
  have collected := foldl_addPart_batch db record.parts { disableTrxlog := true }
  rw [collected]
  rfl

/-- The follower's entries after the replay. -/
theorem replay_entries (records : List (TrxRecord V)) : (replay db records).entries =
      Replay.replay db.entries (records.map fun record => partWrites record.parts) := by
  induction records generalizing db with
  | nil => rfl
  | cons record rest ih =>
    rw [map_cons, replay_cons, ← onTrx_entries]
    exact ih (onTrx db record)

end Follower

namespace Primary

open Transaction Follower

/-- A numbered transaction that has not committed: its id is new to the log, and
no later record writes one of its entries. -/
structure Pending (base trxId : Nat) (trxlog : Std.ExtTreeMap Nat (TrxRecord V))
    (batch : List (Mutation V)) (record : TrxRecord V) : Prop where
  new : base < record.id
  given : record.id ≤ trxId
  parts : record.parts = entryParts batch
  absent : trxlog[record.id]? = none
  later : ∀ id other, trxlog[id]? = some other → record.id < id →
    ∀ key ∈ keys (entryWrites batch), key ∉ keys (partWrites other.parts)

/-- What holds of one session. -/
structure SessionInv (base trxId : Nat) (trxlog : Std.ExtTreeMap Nat (TrxRecord V))
    (session : Session V) : Prop where
  enabled : session.trx.disableTrxlog = false
  logged : session.trx.trxlog.getD [] = entryParts session.trx.batch
  named : ∀ mutation ∈ session.trx.batch, Named mutation.category mutation.key
  placed : ∀ cursor, session.cursor = some cursor → session.numbered = false ∧
    Named cursor.category cursor.key ∧ ∀ ck ∈ cursor.rest, Named cursor.category ck
  unnumbered : session.numbered = false → session.trx.record = none
  silent : session.numbered = true → session.trx.record = none → entryParts session.trx.batch = []
  pending : ∀ record, session.trx.record = some record →
    Pending base trxId trxlog session.trx.batch record

/-- Two transactions have no lock and no id in common. -/
structure Unrelated (trx rival : Transaction V) : Prop where
  locks : ∀ category key, trx.Holds category key → ¬ rival.Holds category key
  ids : ∀ record foreign, trx.record = some record → rival.record = some foreign → record.id ≠ foreign.id

/-- The transaction has no lock and no id of another session than `t`. -/
def Apart (primary : Primary V) (t : Nat) (trx : Transaction V) : Prop :=
  ∀ other rival, other ≠ t → primary.sessions other = some rival → Unrelated trx rival.trx

/-- No two sessions have a lock on the same key, and no two the same id. -/
def Separate (primary : Primary V) : Prop :=
  ∀ t session, primary.sessions t = some session → primary.Apart t session.trx

/-- What holds in every reachable state, for a follower that has the entries
`initial` and receives the records above `base`. -/
structure Inv (base : Nat) (initial : Key → Option V) (primary : Primary V) : Prop where
  counter : base ≤ primary.trxId
  replayed : primary.db.entries = Replay.replay initial
    ((recordsAfter base primary.db.trxlog).map fun record => partWrites record.parts)
  stored : ∀ id record, primary.db.trxlog[id]? = some record → id ≤ primary.trxId
  printable : ∀ key, (primary.db.entries key).isSome → RealKey.PrintableKey key
  sessions : ∀ t session, primary.sessions t = some session →
    SessionInv base primary.trxId primary.db.trxlog session
  separate : primary.Separate

theorem set_cases {primary : Primary V} {t other : Nat} {session : Session V}
    (opened : (primary.set t replaced).sessions other = some session) :
    (other = t ∧ replaced = some session) ∨ (other ≠ t ∧ primary.sessions other = some session) := by
  by_cases same : other = t
  · subst same
    rw [set_sessions, Function.update_self] at opened
    exact Or.inl ⟨rfl, opened⟩
  · rw [set_sessions, Function.update_of_ne same] at opened
    exact Or.inr ⟨same, opened⟩

theorem Unrelated.symm {trx rival : Transaction V} (unrelated : Unrelated trx rival) :
    Unrelated rival trx where
  locks := fun category key rivalHeld held => unrelated.locks category key held rivalHeld
  ids := fun foreign record rivalHas has => (unrelated.ids record foreign has rivalHas).symm

theorem Separate.set {primary : Primary V} (separate : primary.Separate) (t : Nat)
    (replaced : Option (Session V))
    (apart : ∀ session, replaced = some session → primary.Apart t session.trx) :
    (primary.set t replaced).Separate := by
  intro first session opened second rival different rivalOpened
  rcases set_cases opened with ⟨rfl, new⟩ | ⟨away, old⟩
  · rcases set_cases rivalOpened with ⟨same, _⟩ | ⟨_, rivalOld⟩
    · exact absurd same different
    · exact apart session new second rival different rivalOld
  · rcases set_cases rivalOpened with ⟨rfl, rivalNew⟩ | ⟨_, rivalOld⟩
    · exact (apart rival rivalNew first session away old).symm
    · exact separate first session old second rival different rivalOld

variable {category : Category}

/-- The locks after one more change. -/
theorem holds_change {trx : Transaction V} {changed : Category} {value : Option V}
    (held : (trx.change changed ck value).Holds category key) :
    trx.Holds category key ∨ (category = changed ∧ key = ck) := by
  obtain ⟨mutation, member, rfl, rfl⟩ := held
  simp only [change, mem_append, mem_singleton] at member
  rcases member with earlier | rfl
  · exact Or.inl ⟨mutation, earlier, rfl, rfl⟩
  · exact Or.inr ⟨rfl, rfl⟩

section
variable {primary : Primary V} {t : Nat} {trx : Transaction V}

theorem apart_empty : primary.Apart t {} := by
  intro other rival different opened
  constructor
  · rintro category key ⟨mutation, member, _⟩
    cases member
  · intro record foreign has
    cases has

/-- A transaction without an id may change a key that nobody else has locked. -/
theorem Apart.change (apart : primary.Apart t trx) (unnumbered : trx.record = none)
    (category : Category) (key part : Key) (value : Option V)
    (unlocked : primary.Unlocked t category key) :
    primary.Apart t ((trx.change category key value).addPart category part value) := by
  intro other rival different opened
  constructor
  · intro lockedCategory lockedKey held
    rcases holds_change held with earlier | ⟨rfl, rfl⟩
    · exact (apart other rival different opened).locks lockedCategory lockedKey earlier
    · exact unlocked other rival different opened
  · intro record foreign has
    cases unnumbered.symm.trans has

/-- A transaction may get an id above those of the others. -/
theorem Apart.number (apart : primary.Apart t trx) (record : TrxRecord V)
    (above : ∀ other rival, primary.sessions other = some rival → ∀ foreign,
      rival.trx.record = some foreign → foreign.id < record.id) :
    primary.Apart t { trx with record := some record } := by
  intro other rival different opened
  refine ⟨(apart other rival different opened).locks, ?_⟩
  rintro _ foreign ⟨⟩ rivalHas
  exact (above other rival opened foreign rivalHas).ne'

end

section
variable {base : Nat} {initial : Key → Option V} {primary : Primary V}

/-- Replacing one session keeps the invariant if the new one satisfies its own
part and is apart from the others. -/
theorem inv_set (inv : Inv base initial primary) {t : Nat}
    (own : ∀ session, replaced = some session →
      SessionInv base primary.trxId primary.db.trxlog session)
    (apart : ∀ session, replaced = some session → primary.Apart t session.trx) :
    Inv base initial (primary.set t replaced) where
  counter := inv.counter
  replayed := inv.replayed
  stored := inv.stored
  printable := inv.printable
  sessions := by
    intro other session opened
    rcases set_cases opened with ⟨_, new⟩ | ⟨_, old⟩
    · exact own session new
    · exact inv.sessions other session old
  separate := inv.separate.set t replaced apart

/-- Ending a session keeps the invariant. -/
theorem inv_close (inv : Inv base initial primary) (t : Nat) :
    Inv base initial (primary.set t none) := inv_set inv nofun nofun

/-- A change of one key with its part in the log keeps the account of both. -/
theorem logged_change {trx : Transaction V} (category : Category) (key : Key) (value : Option V)
    (enabled : trx.disableTrxlog = false) (logged : trx.trxlog.getD [] = entryParts trx.batch) :
    ((trx.change category key value).addPart category key value).trxlog.getD [] =
      entryParts ((trx.change category key value).addPart category key value).batch := by
  rw [entryParts] at logged
  simp only [Transaction.addPart, change, enabled, Bool.not_false, Bool.true_and, beq_iff_eq,
    entryParts, filterMap_append, filterMap_cons, filterMap_nil]
  by_cases entry : category = .entry
  · simp [entry, logged]
  · simp [entry, logged]

/-- Among printable names the deleted key is the logged key. -/
theorem delete_within (trx : Transaction V) (named : Named category key) (found : Named category ck)
    (within : isWithin key ck = true) :
    trx.delete category ck key = (trx.change category ck none).addPart category ck none := by
  by_cases entry : category = .entry
  · rw [isWithin_printable (named entry) (found entry) within]
    rfl
  · simp [delete, Transaction.addPart, beq_eq_false_iff_ne.mpr entry]

/-- A written entry is locked. -/
theorem holds_of_entryWrites {trx : Transaction V} (written : key ∈ keys (entryWrites trx.batch)) :
    trx.Holds .entry key := by
  obtain ⟨mutation, inBatch, entry, same⟩ := mem_entryWrites written
  exact ⟨mutation, inBatch, entry, same⟩

/-- Giving out an id. -/
theorem inv_trxId (inv : Inv base initial primary) (trxId : Nat) (more : primary.trxId ≤ trxId) :
    Inv base initial { primary with trxId := trxId } where
  counter := Nat.le_trans inv.counter more
  replayed := inv.replayed
  stored := fun id record stored => Nat.le_trans (inv.stored id record stored) more
  printable := inv.printable
  sessions := by
    intro t session opened
    have own := inv.sessions t session opened
    refine { own with pending := ?_ }
    intro record has
    have pending := own.pending record has
    exact { pending with given := Nat.le_trans pending.given more }
  separate := inv.separate

/-- The records of the log after a new one has been stored. -/
theorem recordsAfter_insert {trxlog : Std.ExtTreeMap Nat (TrxRecord V)} {record : TrxRecord V}
    (new : base < record.id) (absent : trxlog[record.id]? = none) :
    ∃ before after, recordsAfter base trxlog = before ++ after ∧
      recordsAfter base (trxlog.insert record.id record) = before ++ record :: after ∧
      ∀ other ∈ after, ∃ id, trxlog[id]? = some other ∧ record.id < id := by
  refine ⟨((below trxlog record.id).filter fun entry => base < entry.1).map Prod.snd,
    ((OrderedMap.above trxlog record.id).filter fun entry => base < entry.1).map Prod.snd, ?_, ?_, ?_⟩
  · rw [recordsAfter, toList_absent trxlog absent, filter_append, map_append]
  · rw [recordsAfter, toList_insert, filter_append, map_append,
      filter_cons_of_pos (by simpa using new), map_cons]
  · intro other member
    obtain ⟨entry, listed, rfl⟩ := mem_map.mp member
    obtain ⟨stored, more⟩ := (mem_above trxlog record.id entry).mp
      (mem_of_mem_filter listed)
    exact ⟨entry.1, stored, Nat.compare_eq_lt.mp more⟩

section
variable (inv : Inv base initial primary) {t : Nat} {session : Session V}
  (opened : primary.sessions t = some session)
include inv opened

/-- A logged change of one key that nobody else has locked. -/
theorem inv_change (early : session.numbered = false) (value : Option V)
    (named : Named category key) (unlocked : primary.Unlocked t category key)
    {cursor : Option Cursor} (placed : ∀ next, cursor = some next → Named next.category next.key ∧
      ∀ ck ∈ next.rest, Named next.category ck) :
    Inv base initial (primary.set t (some { session with
      trx := (session.trx.change category key value).addPart category key value
      cursor := cursor })) := by
  have own := inv.sessions t session opened
  have noRecord := own.unnumbered early
  apply inv_set inv
  · rintro _ ⟨⟩
    exact {
      enabled := own.enabled
      logged := logged_change category key value own.enabled own.logged
      named := by
        intro mutation member
        simp only [Transaction.addPart, change, mem_append, mem_singleton] at member
        rcases member with earlier | rfl
        · exact own.named mutation earlier
        · exact named
      placed := fun next here => ⟨early, placed next here⟩
      unnumbered := fun _ => noRecord
      silent := fun numbered => Bool.noConfusion (early.symm.trans numbered)
      pending := by
        intro record has
        cases noRecord.symm.trans has }
  · rintro _ ⟨⟩
    exact (inv.separate t session opened).change noRecord category key key value unlocked

/-- A change of the cursor alone. -/
theorem inv_cursor (cursor : Option Cursor)
    (placed : ∀ next, cursor = some next → session.numbered = false ∧
      Named next.category next.key ∧ ∀ ck ∈ next.rest, Named next.category ck) :
    Inv base initial (primary.set t (some { session with cursor := cursor })) := by
  have own := inv.sessions t session opened
  apply inv_set inv
  · rintro _ ⟨⟩
    exact { own with placed := placed }
  · rintro _ ⟨⟩
    exact inv.separate t session opened

/-- Every key an iterator of a session finds among the entries is printable. -/
theorem keysFrom_named :
    ∀ ck ∈ session.trx.keysFrom primary.db category key, Named category ck := by
  intro ck member entry
  subst entry
  obtain ⟨found, listed, rfl⟩ := mem_map.mp member
  have stored := ((mem_seek _ key found).mp listed).1
  have seen : Replay.apply primary.db.entries (entryWrites session.trx.batch) found.1 =
      some found.2 :=
    (congrFun (foldl_run_entry session.trx.batch primary.db.families) found.1).symm.trans stored
  by_cases written : found.1 ∈ keys (entryWrites session.trx.batch)
  · obtain ⟨mutation, inBatch, isEntry, same⟩ := mem_entryWrites written
    exact same ▸ (inv.sessions t session opened).named mutation inBatch isEntry
  · rw [apply_unwritten primary.db.entries written] at seen
    exact inv.printable found.1 (by rw [seen]; rfl)

/-- Numbering a transaction: no record in the log is later yet. -/
theorem inv_handleTrxLog (idle : session.Idle) :
    Inv base initial { primary.set t (some { session with
        trx := (session.trx.handleTrxLog primary.trxId).2
        numbered := true }) with
      trxId := (session.trx.handleTrxLog primary.trxId).1 } := by
  have own := inv.sessions t session opened
  have noRecord := own.unnumbered idle.2
  rcases session.trx.handleTrxLog_cases primary.trxId with ⟨nothing, silent⟩ | ⟨_, numbered⟩
  · have parts : entryParts session.trx.batch = [] := own.logged ▸ nothing
    rw [silent]
    apply inv_set inv
    · rintro _ ⟨⟩
      exact {
        enabled := own.enabled
        logged := parts.symm
        named := own.named
        placed := fun cursor here => by cases idle.1.symm.trans here
        unnumbered := fun early => by cases early
        silent := fun _ _ => parts
        pending := fun record has => by cases noRecord.symm.trans has }
    · rintro _ ⟨⟩ other rival different rivalOpened
      exact { inv.separate t session opened other rival different rivalOpened with }
  · rw [numbered]
    have later := inv_trxId inv (primary.trxId + 1) (by omega)
    apply inv_set later
    · rintro _ ⟨⟩
      exact {
        enabled := own.enabled
        logged := own.logged
        named := own.named
        placed := fun cursor here => by cases idle.1.symm.trans here
        unnumbered := fun early => by cases early
        silent := fun _ missing => by cases missing
        pending := by
          rintro record ⟨⟩
          exact {
            new := Nat.lt_succ_of_le inv.counter
            given := Nat.le_refl _
            parts := own.logged
            absent := by
              cases found : primary.db.trxlog[primary.trxId + 1]? with
              | none => rfl
              | some record =>
                have bound := inv.stored _ record found
                omega
            later := by
              intro id other stored more
              have bound := inv.stored id other stored
              simp only at more
              omega } }
    · rintro _ ⟨⟩
      apply (inv.separate t session opened).number
      intro other rival rivalOpened foreign rivalHas
      exact Nat.lt_succ_of_le ((inv.sessions other rival rivalOpened).pending foreign rivalHas).given

/-- After a commit the entries are those of printable names. -/
theorem commit_printable (key : Key)
    (present : ((session.trx.commit primary.db).entries key).isSome) :
    RealKey.PrintableKey key := by
  rw [commit_entries] at present
  by_cases written : key ∈ keys (entryWrites session.trx.batch)
  · obtain ⟨mutation, inBatch, entry, same⟩ := mem_entryWrites written
    exact same ▸ (inv.sessions t session opened).named mutation inBatch entry
  · rw [apply_unwritten _ written] at present
    exact inv.printable key present

/-- The commit of a transaction without entries leaves them and the log alone. -/
theorem inv_commit_silent (ready : session.numbered = true) (noRecord : session.trx.record = none) :
    Inv base initial { primary.set t none with db := session.trx.commit primary.db } := by
  have own := inv.sessions t session opened
  have closed := inv_close inv t
  have none : entryWrites session.trx.batch = [] := by
    rw [← partWrites_entryParts, own.silent ready noRecord]
    rfl
  have sameLog : (session.trx.commit primary.db).trxlog = primary.db.trxlog := by
    rw [Transaction.commit, noRecord]
  have sameEntries : (session.trx.commit primary.db).entries = primary.db.entries := by
    rw [commit_entries, none, apply_nil]
  exact {
    counter := inv.counter
    replayed := by
      rw [sameLog, sameEntries]
      exact inv.replayed
    stored := by
      rw [sameLog]
      exact inv.stored
    printable := commit_printable inv opened
    sessions := by
      rw [sameLog]
      exact closed.sessions
    separate := closed.separate }

/-- The commit of a numbered transaction: its record enters the log before the
later ones, none of which writes its entries. -/
theorem inv_commit_logged {record : TrxRecord V} (has : session.trx.record = some record) :
    Inv base initial { primary.set t none with db := session.trx.commit primary.db } := by
  have own := inv.sessions t session opened
  have pending := own.pending record has
  have closed := inv_close inv t
  have newLog : (session.trx.commit primary.db).trxlog =
      primary.db.trxlog.insert record.id record := by
    rw [Transaction.commit, has]
  have writes : partWrites record.parts = entryWrites session.trx.batch := by
    rw [pending.parts, partWrites_entryParts]
  exact {
    counter := inv.counter
    replayed := by
      obtain ⟨before, after, old, new, behind⟩ := recordsAfter_insert pending.new pending.absent
      rw [newLog, new, commit_entries, inv.replayed, old, map_append, map_append, map_cons, writes]
      symm
      apply replay_insert
      intro later member key written
      obtain ⟨other, listed, rfl⟩ := mem_map.mp member
      obtain ⟨id, stored, more⟩ := behind other listed
      exact pending.later id other stored more key written
    stored := by
      intro id other stored
      simp only [newLog, Std.ExtTreeMap.getElem?_insert] at stored
      split at stored
      · rename_i same
        have here := Std.LawfulEqCmp.eq_of_compare same
        exact here ▸ pending.given
      · exact inv.stored id other stored
    printable := commit_printable inv opened
    sessions := by
      intro other rival rivalOpened
      have rivalInv := closed.sessions other rival rivalOpened
      rcases set_cases rivalOpened with ⟨_, impossible⟩ | ⟨apart, old⟩
      · cases impossible
      refine { rivalInv with pending := ?_ }
      intro foreign rivalHas
      have rivalPending := rivalInv.pending foreign rivalHas
      have unrelated := inv.separate t session opened other rival apart old
      exact {
        new := rivalPending.new
        given := rivalPending.given
        parts := rivalPending.parts
        absent := by
          rw [newLog, Std.ExtTreeMap.getElem?_insert, if_neg]
          · exact rivalPending.absent
          · exact fun same => unrelated.ids record foreign has rivalHas (Std.LawfulEqCmp.eq_of_compare same)
        later := by
          intro id stored found more key written
          simp only [newLog, Std.ExtTreeMap.getElem?_insert] at found
          split at found
          · cases found
            rw [writes]
            intro alsoWritten
            exact unrelated.locks .entry key (holds_of_entryWrites alsoWritten)
              (holds_of_entryWrites written)
          · exact rivalPending.later id stored found more key written }
    separate := closed.separate }

end

/-- Every step keeps the invariant. -/
theorem inv_step (inv : Inv base initial primary) {next : Primary V}
    (step : Step Named primary next) : Inv base initial next := by
  cases step with
  | start t free =>
    apply inv_set inv
    · rintro _ ⟨⟩
      exact {
        enabled := rfl
        logged := rfl
        named := fun mutation member => by cases member
        placed := fun cursor here => by cases here
        unnumbered := fun _ => rfl
        silent := fun _ _ => rfl
        pending := fun record has => by cases has }
    · rintro _ ⟨⟩
      exact apart_empty
  | write t session key data isNew category seen trx opened idle named unlocked written =>
    rw [Transaction.write_eq_ok written]
    exact inv_change inv opened idle.2 (some data) named unlocked fun cursor here => by
      cases idle.1.symm.trans here
  | remove t session key category opened idle named unlocked =>
    exact inv_change inv opened idle.2 none named unlocked fun cursor here => by
      cases idle.1.symm.trans here
  | seek t session key category opened idle named =>
    apply inv_cursor inv opened
    rintro _ ⟨⟩
    exact ⟨idle.2, named, keysFrom_named inv opened⟩
  | visit t session category key ck rest opened placed within unlocked =>
    obtain ⟨early, named, found⟩ := (inv.sessions t session opened).placed _ placed
    rw [delete_within session.trx named (found ck mem_cons_self) within]
    apply inv_change inv opened early none (found ck mem_cons_self) unlocked
    rintro _ ⟨⟩
    exact ⟨named, fun later member => found later (mem_cons_of_mem ck member)⟩
  | leave t session cursor opened placed ends =>
    apply inv_cursor inv opened
    rintro _ ⟨⟩
  | handleTrxLog t session opened idle => exact inv_handleTrxLog inv opened idle
  | commit t session opened ready =>
    cases has : session.trx.record with
    | none => exact inv_commit_silent inv opened ready has
    | some record => exact inv_commit_logged inv opened has
  | rollback t session opened => exact inv_close inv t

theorem inv_steps (inv : Inv base initial primary) {last : Primary V}
    (steps : Steps Named primary last) : Inv base initial last := by
  induction steps with
  | refl => exact inv
  | tail _ step ih => exact inv_step ih step

end

/-- A primary with printable entries and no open session. -/
structure Quiet (primary : Primary V) : Prop where
  closed : ∀ t, primary.sessions t = none
  numbered : ∀ id record, primary.db.trxlog[id]? = some record → id ≤ primary.trxId
  printable : ∀ key, (primary.db.entries key).isSome → RealKey.PrintableKey key

theorem quiet_inv {primary : Primary V} (quiet : Quiet primary) :
    Inv primary.trxId primary.db.entries primary where
  counter := Nat.le_refl _
  replayed := by
    have none : recordsAfter primary.trxId primary.db.trxlog = [] := by
      rw [recordsAfter, map_eq_nil_iff, filter_eq_nil_iff]
      rintro ⟨id, record⟩ member
      have stored := Std.ExtTreeMap.mem_toList_iff_getElem?_eq_some.mp member
      have bound := quiet.numbered id record stored
      simpa using bound
    rw [none]
    rfl
  stored := quiet.numbered
  printable := quiet.printable
  sessions := by
    intro t session opened
    rw [quiet.closed t] at opened
    cases opened
  separate := by
    intro t session opened
    rw [quiet.closed t] at opened
    cases opened

/-- Replaying the log reproduces the primary: whatever transactions were
interleaved since the follower had the same entries, applying the records that
were logged meanwhile, in the order of their ids, gives it the primary's entries
again. -/
theorem replay_reproduces_entries (start last : Primary V) (quiet : Quiet start)
    (steps : Steps Named start last) (follower : Db V)
    (same : follower.families .entry = start.db.families .entry) :
    (Follower.replay follower (recordsAfter start.trxId last.db.trxlog)).families .entry =
      last.db.families .entry := by
  have inv := inv_steps (quiet_inv quiet) steps
  have begun : follower.entries = start.db.entries := by
    funext key
    rw [Db.entries, Db.entries, same]
  apply Std.ExtTreeMap.ext_getElem?
  intro key
  have replayed := congrFun (replay_entries follower (recordsAfter start.trxId last.db.trxlog)) key
  have reached := congrFun inv.replayed key
  rw [begun] at replayed
  exact replayed.trans reached.symm

/-- A primary on which nothing has happened yet. -/
def fresh : Primary Nat where
  db := ⟨fun _ => ∅, ∅⟩
  trxId := 0
  sessions := fun _ => none

/-- Writing one entry into a new session. -/
def wrote (name : List UInt8) (data : Nat) : Session Nat where
  trx := (({} : Transaction Nat).change .entry (ofName name) (some data)).addPart .entry
    (ofName name) (some data)

/-- The first session has written `a`, the second `b`. -/
def bothWrote : Primary Nat :=
  (fresh.set 0 (some (wrote [0x61] 7))).set 1 (some (wrote [0x62] 8))

theorem printable_letter {byte : UInt8} (letter : byte = 0x61 ∨ byte = 0x62) :
    Named .entry (ofName [byte]) := by
  intro _
  refine ⟨[byte], ?_, rfl⟩
  intro other member
  rw [mem_singleton] at member
  subst member
  rcases letter with rfl | rfl <;> decide

/-- One session writes `a`. -/
theorem fresh_wrote : Steps Named fresh (fresh.set 0 (some (wrote [0x61] 7))) := by
  have began : Steps Named fresh (fresh.set 0 (some {})) := .single (.start 0 rfl)
  have unlocked : (fresh.set 0 (some {})).Unlocked 0 .entry (ofName [0x61]) := by
    intro other session apart opened
    rw [set_sessions, Function.update_of_ne apart] at opened
    cases opened
  have written : Step Named (fresh.set 0 (some {})) _ :=
    .write 0 {} (ofName [0x61]) 7 false .entry fresh.db (wrote [0x61] 7).trx rfl
      ⟨rfl, rfl⟩ (printable_letter (Or.inl rfl)) unlocked rfl
  rw [set_set] at written
  exact began.tail written

theorem fresh_bothWrote : Steps Named fresh bothWrote := by
  have began : Steps Named fresh ((fresh.set 0 (some (wrote [0x61] 7))).set 1 (some {})) :=
    fresh_wrote.tail (.start 1 rfl)
  have unlocked : ((fresh.set 0 (some (wrote [0x61] 7))).set 1 (some {})).Unlocked 1 .entry
      (ofName [0x62]) := by
    intro other session apart opened
    rw [set_sessions, Function.update_of_ne apart] at opened
    rcases set_cases opened with ⟨_, here⟩ | ⟨_, missing⟩
    · cases here
      rintro ⟨mutation, member, _, same⟩
      rw [mem_singleton.mp member] at same
      exact absurd (ofName_injective same) (by decide)
    · cases missing
  have written : Step Named ((fresh.set 0 (some (wrote [0x61] 7))).set 1 (some {})) _ :=
    .write 1 {} (ofName [0x62]) 8 false .entry fresh.db (wrote [0x62] 8).trx rfl
      ⟨rfl, rfl⟩ (printable_letter (Or.inr rfl)) unlocked rfl
  rw [set_set] at written
  exact began.tail written

/-- Two transactions that commit in the opposite order of their ids. -/
theorem swapped_commits_reproduced :
    ∃ last, Steps Named fresh last ∧ last.db.trxlog.toList.map Prod.fst = [1, 2] ∧
      last.db.entries (ofName [0x61]) = some 7 ∧
      (Follower.replay fresh.db (recordsAfter fresh.trxId last.db.trxlog)).families .entry =
        last.db.families .entry := by
  have quiet : Quiet fresh := ⟨fun _ => rfl, by simp [fresh], by simp [fresh, Db.entries]⟩
  have numbered := (fresh_bothWrote.tail (.handleTrxLog 0 (wrote [0x61] 7) rfl ⟨rfl, rfl⟩)).tail
    (.handleTrxLog 1 (wrote [0x62] 8) rfl ⟨rfl, rfl⟩)
  have committed := (numbered.tail (.commit 1 _ rfl rfl)).tail (.commit 0 _ rfl rfl)
  exact ⟨_, committed, by decide, by decide,
    replay_reproduces_entries fresh _ quiet committed fresh.db rfl⟩

end Primary

end Nsblast
