import Nsblast.Store.LogReplay

/-!
# The ids of transactions

A transaction that has written entries gets the next id when it is about to commit, and its
record is stored in the log under that id. The counter is not stored; when the server starts it
is read from the last key of the log. An id is lost when a commit fails, and after a restart it
may be given out again, but never one that is in the log: the keys are ordered as the ids are,
so the last key has the highest id.

Two transactions that have changed the same entry have ids in the order in which they took
effect, because a transaction gets its id while it has the locks of its keys, and keeps them
until it has committed.

The counter is a 64-bit number. Runs that give out all of these numbers are left out.
-/

namespace Nsblast

open Std.ExtTreeMap Lexicographic

variable {V : Type}

/-- The id in a key of the log, as `getValueAt` reads it. -/
def RealKey.getTrxId (key : Key) : Nat := readBigEndian ((key.drop 1).take 8)

theorem RealKey.getTrxId_ofTrxId {id : Nat} (fits : id < 2 ^ 64) : getTrxId (ofTrxId id) = id := by
  have bytes : (bigEndian 8 id).take 8 = bigEndian 8 id :=
    List.take_of_length_le (Nat.le_of_eq (length_bigEndian))
  rw [getTrxId, ofTrxId, List.drop_one, List.tail_cons, bytes, readBigEndian_bigEndian]
  exact Nat.mod_eq_of_lt fits

namespace Db

/-- The log as a column family. -/
def trxlogFamily (db : Db V) : Std.ExtTreeMap Key (TrxRecord V) :=
  .ofList (db.trxlog.toList.map fun entry => (RealKey.ofTrxId entry.1, entry.2))

/-- `RocksDbResource::getLastCommittedTransactionId`. -/
def getLastCommittedTransactionId (db : Db V) : Nat :=
  match db.trxlogFamily.maxKey? with
  | some key => RealKey.getTrxId key
  | none => 0

theorem mem_trxlogFamily (db : Db V) (key : Key) :
    key ∈ db.trxlogFamily ↔ ∃ id ∈ db.trxlog, key = RealKey.ofTrxId id := by
  rw [trxlogFamily, mem_ofList, List.contains_iff_mem, List.map_map, List.mem_map]
  constructor
  · rintro ⟨⟨id, record⟩, member, rfl⟩
    rw [mem_toList_iff_getElem?_eq_some] at member
    refine ⟨id, ?_, rfl⟩
    rw [← isSome_getElem?_iff_mem, member]
    rfl
  · rintro ⟨id, present, rfl⟩
    rw [← isSome_getElem?_iff_mem] at present
    obtain ⟨record, stored⟩ := Option.isSome_iff_exists.mp present
    exact ⟨(id, record), mem_toList_iff_getElem?_eq_some.mpr stored, rfl⟩

/-- The last key of the log has the highest id. -/
theorem maxKey?_trxlogFamily (db : Db V) (fits : ∀ id ∈ db.trxlog, id < 2 ^ 64) (key : Key)
    (isLast : db.trxlogFamily.maxKey? = some key) :
    RealKey.getTrxId key ∈ db.trxlog ∧ ∀ id ∈ db.trxlog, id ≤ RealKey.getTrxId key := by
  obtain ⟨member, highest⟩ := maxKey?_eq_some_iff_mem_and_forall.mp isLast
  obtain ⟨last, present, rfl⟩ := (mem_trxlogFamily db key).mp member
  rw [RealKey.getTrxId_ofTrxId (fits last present)]
  refine ⟨present, fun id stored => ?_⟩
  have atMost := highest (RealKey.ofTrxId id) ((mem_trxlogFamily db _).mpr ⟨id, stored, rfl⟩)
  rw [RealKey.compare_ofTrxId (fits id stored) (fits last present)] at atMost
  exact Nat.isLE_compare.mp atMost

/-- The counter that is read at the start is at least every id in the log. -/
theorem le_getLastCommittedTransactionId (db : Db V) (fits : ∀ id ∈ db.trxlog, id < 2 ^ 64) :
    db.getLastCommittedTransactionId < 2 ^ 64 ∧
      ∀ id ∈ db.trxlog, id ≤ db.getLastCommittedTransactionId := by
  rw [getLastCommittedTransactionId]
  cases isLast : db.trxlogFamily.maxKey? with
  | some key =>
    obtain ⟨member, highest⟩ := maxKey?_trxlogFamily db fits key isLast
    exact ⟨fits _ member, highest⟩
  | none =>
    refine ⟨by simp, fun id present => ?_⟩
    have some := isSome_maxKey?_of_mem ((mem_trxlogFamily db _).mpr ⟨id, present, rfl⟩)
    rw [isLast] at some
    cases some

end Db

/-- A primary, and the transactions that it has committed so far, in the order in which they
took effect. -/
structure Life (V : Type) where
  primary : Primary V
  history : List (Transaction V) := []

namespace Life

open Transaction Primary

/-- A step of a session, a commit, or a restart. A step that is no commit leaves the store as it
is. A failed commit is the end of a session that has an id. -/
inductive Step (allowed : Category → Key → Prop) (life : Life V) : Life V → Prop where
  | work (next : Primary V) (step : Primary.Step allowed life.primary next)
      (same : next.db = life.primary.db) (fits : next.trxId < 2 ^ 64) :
      Step allowed life ⟨next, life.history⟩
  | commit (t : Nat) (session : Session V) (opened : life.primary.sessions t = some session)
      (ready : session.numbered = true) :
      Step allowed life
        ⟨{ life.primary.set t none with db := session.trx.commit life.primary.db },
          life.history ++ [session.trx]⟩
  | restart :
      Step allowed life ⟨⟨life.primary.db, life.primary.db.getLastCommittedTransactionId, fun _ => none⟩,
        life.history⟩

abbrev Steps (allowed : Category → Key → Prop) : Life V → Life V → Prop :=
  Relation.ReflTransGen (Step allowed)

/-- A server that has just been started. -/
structure Started (life : Life V) : Prop where
  fits : ∀ id ∈ life.primary.db.trxlog, id < 2 ^ 64
  loaded : life.primary.trxId = life.primary.db.getLastCommittedTransactionId
  closed : ∀ t, life.primary.sessions t = none
  empty : life.history = []

/-- The first of two transactions has the lower id if they changed the same entry. -/
def InOrder (earlier later : Transaction V) : Prop :=
  ∀ key, earlier.Holds .entry key → later.Holds .entry key →
    ∃ first second, earlier.record = some first ∧ later.record = some second ∧ first.id < second.id

/-- The ids that transactions have got. -/
def ids (history : List (Transaction V)) : List Nat :=
  history.filterMap fun trx => trx.record.map (·.id)

/-- What holds of one session. -/
structure SessionInv (life : Life V) (session : Session V) : Prop where
  enabled : session.trx.disableTrxlog = false
  placed : session.cursor ≠ none → session.numbered = false
  noted : session.numbered = false → session.trx.trxlog.getD [] = [] →
    ∀ key, ¬ session.trx.Holds .entry key
  unnumbered : session.numbered = false → session.trx.record = none
  silent : session.numbered = true → session.trx.record = none → ∀ key, ¬ session.trx.Holds .entry key
  given : ∀ record, session.trx.record = some record → record.id ≤ life.primary.trxId
  absent : ∀ record, session.trx.record = some record → record.id ∉ life.primary.db.trxlog
  later : session.numbered = true → ∀ trx ∈ life.history, InOrder trx session.trx

/-- What holds in every reachable state. -/
structure Inv (start : Db V) (life : Life V) : Prop where
  fits : life.primary.trxId < 2 ^ 64
  stored : ∀ id ∈ life.primary.db.trxlog, id ≤ life.primary.trxId
  logged : ∀ id record, life.primary.db.trxlog[id]? = some record ↔ start.trxlog[id]? = some record ∨
    ∃ trx ∈ life.history, trx.record = some record ∧ record.id = id
  once : (ids life.history).Nodup
  new : ∀ id ∈ ids life.history, id ∉ start.trxlog
  recorded : ∀ trx ∈ life.history, ∀ key, trx.Holds .entry key → trx.record ≠ none
  ordered : life.history.Pairwise InOrder
  sessions : ∀ t session, life.primary.sessions t = some session → SessionInv life session
  separate : life.primary.Separate

section
variable {start : Db V} {life : Life V}

/-- Replacing one session keeps the invariant if the new one satisfies its own part and is apart
from the others. -/
theorem Inv.set (inv : Inv start life) (t : Nat) (replaced : Option (Session V))
    (own : ∀ session, replaced = some session → SessionInv life session)
    (apart : ∀ session, replaced = some session → life.primary.Apart t session.trx) :
    Inv start ⟨life.primary.set t replaced, life.history⟩ where
  fits := inv.fits
  stored := inv.stored
  logged := inv.logged
  once := inv.once
  new := inv.new
  recorded := inv.recorded
  ordered := inv.ordered
  sessions := by
    intro other session opened
    rcases set_cases opened with ⟨_, new⟩ | ⟨_, old⟩
    · exact { own session new with }
    · exact { inv.sessions other session old with }
  separate := inv.separate.set t replaced apart

theorem Inv.close (inv : Inv start life) (t : Nat) :
    Inv start ⟨life.primary.set t none, life.history⟩ := inv.set t none nofun nofun

/-- Giving out an id. -/
theorem Inv.raise (inv : Inv start life) {trxId : Nat} (more : life.primary.trxId ≤ trxId)
    (fits : trxId < 2 ^ 64) : Inv start ⟨{ life.primary with trxId }, life.history⟩ where
  fits := fits
  stored := fun id present => Nat.le_trans (inv.stored id present) more
  logged := inv.logged
  once := inv.once
  new := inv.new
  recorded := inv.recorded
  ordered := inv.ordered
  sessions := by
    intro t session opened
    have own := inv.sessions t session opened
    exact { own with given := fun record has => Nat.le_trans (own.given record has) more }
  separate := inv.separate

/-- A transaction that has been committed is in the log. -/
theorem Inv.mem_trxlog (inv : Inv start life) {trx : Transaction V} (member : trx ∈ life.history)
    {record : TrxRecord V} (has : trx.record = some record) :
    record.id ∈ life.primary.db.trxlog := by
  have stored := (inv.logged record.id record).mpr (.inr ⟨trx, member, has, rfl⟩)
  rw [← isSome_getElem?_iff_mem, stored]
  rfl

/-- The log after a commit. -/
theorem getElem?_commit {db : Db V} {trx : Transaction V}
    (absent : ∀ record, trx.record = some record → record.id ∉ db.trxlog) (id : Nat)
    (record : TrxRecord V) :
    (trx.commit db).trxlog[id]? = some record ↔
      db.trxlog[id]? = some record ∨ trx.record = some record ∧ record.id = id := by
  cases has : trx.record with
  | none => simp [Transaction.commit, has]
  | some own =>
    have new := getElem?_eq_none (absent own has)
    simp only [Transaction.commit, has, getElem?_insert, Option.some.injEq,
      Std.LawfulEqCmp.compare_eq_iff_eq]
    by_cases same : own.id = id
    · subst same
      simp only [if_true, new, Option.some.injEq]
      constructor
      · rintro rfl
        exact .inr ⟨rfl, rfl⟩
      · rintro (impossible | ⟨rfl, _⟩)
        · cases impossible
        · rfl
    · rw [if_neg same]
      constructor
      · exact .inl
      · rintro (old | ⟨rfl, here⟩)
        · exact old
        · exact absurd here same

section
variable {trx : Transaction V}

theorem mem_trxlog_commit {db : Db V}
    (absent : ∀ record, trx.record = some record → record.id ∉ db.trxlog) {id : Nat}
    (member : id ∈ (trx.commit db).trxlog) :
    id ∈ db.trxlog ∨ ∃ record, trx.record = some record ∧ record.id = id := by
  rw [← isSome_getElem?_iff_mem] at member
  obtain ⟨record, isRecord⟩ := Option.isSome_iff_exists.mp member
  rcases (getElem?_commit absent id record).mp isRecord with old | new
  · left
    rw [← isSome_getElem?_iff_mem, old]
    rfl
  · exact .inr ⟨record, new⟩

/-- One more transaction takes effect: its id is new. -/
theorem Inv.ids_commit (inv : Inv start life)
    (absent : ∀ record, trx.record = some record → record.id ∉ life.primary.db.trxlog) :
    (ids (life.history ++ [trx])).Nodup ∧ ∀ id ∈ ids (life.history ++ [trx]), id ∉ start.trxlog := by
  cases has : trx.record with
  | none =>
    have same : ids (life.history ++ [trx]) = ids life.history := by simp [ids, has]
    rw [same]
    exact ⟨inv.once, inv.new⟩
  | some record =>
    have isNew := absent record has
    have isIds : ids (life.history ++ [trx]) = ids life.history ++ [record.id] := by simp [ids, has]
    rw [isIds]
    refine ⟨List.nodup_append.mpr ⟨inv.once, List.nodup_singleton _, ?_⟩,
      List.forall_mem_append.mpr ⟨inv.new, List.forall_mem_singleton.mpr ?_⟩⟩
    · rintro id earlier _ isOwn rfl
      obtain ⟨before, member, isId⟩ := List.mem_filterMap.mp earlier
      obtain ⟨old, hasOld, rfl⟩ := Option.map_eq_some_iff.mp isId
      rw [List.mem_singleton] at isOwn
      exact isNew (isOwn ▸ inv.mem_trxlog member hasOld)
    · intro atStart
      rw [← isSome_getElem?_iff_mem] at atStart
      obtain ⟨first, isFirst⟩ := Option.isSome_iff_exists.mp atStart
      apply isNew
      rw [← isSome_getElem?_iff_mem, (inv.logged _ first).mpr (.inl isFirst)]
      rfl

/-- What holds of a session when another transaction is committed. -/
theorem SessionInv.commit {rival : Session V} (rivalInv : SessionInv life rival)
    (absent : ∀ record, trx.record = some record → record.id ∉ life.primary.db.trxlog)
    (unrelated : Unrelated trx rival.trx) (t : Nat) :
    SessionInv ⟨{ life.primary.set t none with db := trx.commit life.primary.db },
      life.history ++ [trx]⟩ rival := by
  refine { rivalInv with absent := ?_, later := ?_ }
  · intro foreign rivalHas member
    rcases mem_trxlog_commit absent member with stored | ⟨record, has, same⟩
    · exact rivalInv.absent foreign rivalHas stored
    · exact unrelated.ids record foreign has rivalHas same
  · intro numbered
    refine List.forall_mem_append.mpr ⟨rivalInv.later numbered, List.forall_mem_singleton.mpr ?_⟩
    intro key held rivalHeld
    exact absurd rivalHeld (unrelated.locks .entry key held)

end

section
variable (inv : Inv start life) (t : Nat) (session : Session V)
  (opened : life.primary.sessions t = some session)
include inv opened

/-- A session that has no id yet may change a key that nobody else has locked. -/
theorem Inv.change (early : session.numbered = false) (category : Category) (key part : Key)
    (value : Option V) (unlocked : life.primary.Unlocked t category key) (cursor : Option Cursor) :
    Inv start ⟨life.primary.set t (some { session with
      trx := (session.trx.change category key value).addPart category part value
      cursor }), life.history⟩ := by
  have own := inv.sessions t session opened
  have noRecord := own.unnumbered early
  apply inv.set t
  · rintro _ ⟨⟩
    exact {
      enabled := own.enabled
      placed := fun _ => early
      noted := by
        intro _ nothing other held
        have enabled := own.enabled
        simp only [Transaction.addPart, Transaction.change, enabled] at nothing
        rcases holds_change held with earlier | ⟨rfl, _⟩
        · by_cases entry : category = .entry
          · simp [entry] at nothing
          · simp [entry] at nothing
            exact own.noted early (by simpa using nothing) other earlier
        · simp at nothing
      unnumbered := fun _ => noRecord
      silent := fun numbered => by cases early.symm.trans numbered
      given := fun record has => by cases noRecord.symm.trans has
      absent := fun record has => by cases noRecord.symm.trans has
      later := fun numbered => by cases early.symm.trans numbered }
  · rintro _ ⟨⟩
    exact (inv.separate t session opened).change noRecord category key part value unlocked

/-- Moving the cursor of a removal keeps the invariant. -/
theorem Inv.cursor {cursor : Option Cursor} (placed : cursor ≠ none → session.numbered = false) :
    Inv start ⟨life.primary.set t (some { session with cursor }), life.history⟩ := by
  have own := inv.sessions t session opened
  apply inv.set t
  · rintro _ ⟨⟩
    exact { own with placed := placed }
  · rintro _ ⟨⟩
    exact inv.separate t session opened

/-- Numbering a transaction: all ids in the log are lower. -/
theorem Inv.number (idle : session.Idle)
    (fits : (session.trx.handleTrxLog life.primary.trxId).1 < 2 ^ 64) :
    Inv start ⟨{ life.primary.set t (some { session with
        trx := (session.trx.handleTrxLog life.primary.trxId).2
        numbered := true }) with
      trxId := (session.trx.handleTrxLog life.primary.trxId).1 }, life.history⟩ := by
  have own := inv.sessions t session opened
  have noRecord := own.unnumbered idle.2
  rcases session.trx.handleTrxLog_cases life.primary.trxId with ⟨nothing, silent⟩ | ⟨_, numbered⟩
  · have free := own.noted idle.2 nothing
    rw [silent]
    apply inv.set t
    · rintro _ ⟨⟩
      exact {
        enabled := own.enabled
        placed := fun placed => absurd idle.1 placed
        noted := fun early => by cases early
        unnumbered := fun early => by cases early
        silent := fun _ _ => free
        given := fun record has => by cases noRecord.symm.trans has
        absent := fun record has => by cases noRecord.symm.trans has
        later := fun _ trx _ key _ held => absurd held (free key) }
    · rintro _ ⟨⟩ other rival different rivalOpened
      exact { inv.separate t session opened other rival different rivalOpened with }
  · rw [numbered] at fits ⊢
    have raised := inv.raise (Nat.le_succ _) fits
    apply raised.set t
    · rintro _ ⟨⟩
      exact {
        enabled := own.enabled
        placed := fun placed => absurd idle.1 placed
        noted := fun early => by cases early
        unnumbered := fun early => by cases early
        silent := fun _ missing => by cases missing
        given := by
          rintro _ ⟨⟩
          exact Nat.le_refl _
        absent := by
          rintro _ ⟨⟩ present
          exact absurd (inv.stored _ present) (Nat.not_succ_le_self _)
        later := by
          intro _ trx member key held _
          obtain ⟨first, has⟩ := Option.ne_none_iff_exists'.mp (inv.recorded trx member key held)
          have bound := inv.stored _ (inv.mem_trxlog member has)
          exact ⟨first, _, has, rfl, Nat.lt_succ_of_le bound⟩ }
    · rintro _ ⟨⟩
      apply (inv.separate t session opened).number
      intro other rival rivalOpened foreign rivalHas
      exact Nat.lt_succ_of_le ((inv.sessions other rival rivalOpened).given foreign rivalHas)

/-- A commit: the record is new to the log, and the transactions that have an id but have not
committed have no key in common with it. -/
theorem Inv.commit (ready : session.numbered = true) :
    Inv start ⟨{ life.primary.set t none with db := session.trx.commit life.primary.db },
      life.history ++ [session.trx]⟩ := by
  have own := inv.sessions t session opened
  have closed := inv.close t
  obtain ⟨once, new⟩ := inv.ids_commit own.absent
  exact {
    fits := inv.fits
    stored := by
      intro id member
      rcases mem_trxlog_commit own.absent member with old | ⟨record, has, rfl⟩
      · exact inv.stored id old
      · exact own.given record has
    logged := by
      intro id record
      simp only [getElem?_commit own.absent, inv.logged, List.mem_append, List.mem_singleton]
      constructor
      · rintro ((old | ⟨trx, member, has⟩) | new)
        · exact .inl old
        · exact .inr ⟨trx, .inl member, has⟩
        · exact .inr ⟨session.trx, .inr rfl, new⟩
      · rintro (old | ⟨trx, member | rfl, has⟩)
        · exact .inl (.inl old)
        · exact .inl (.inr ⟨trx, member, has⟩)
        · exact .inr has
    once := once
    new := new
    recorded := List.forall_mem_append.mpr ⟨inv.recorded, List.forall_mem_singleton.mpr
      fun key held missing => own.silent ready missing key held⟩
    ordered := by
      refine List.pairwise_append.mpr ⟨inv.ordered, List.pairwise_singleton _ _, ?_⟩
      intro earlier member later new
      rw [List.mem_singleton.mp new]
      exact own.later ready earlier member
    sessions := by
      intro other rival rivalOpened
      rcases set_cases rivalOpened with ⟨_, impossible⟩ | ⟨apart, old⟩
      · cases impossible
      · exact (inv.sessions other rival old).commit own.absent
          (inv.separate t session opened other rival apart old) t
    separate := closed.separate }

end

/-- A restart: the sessions are gone, and the counter is that of the last key. -/
theorem Inv.restart (inv : Inv start life) :
    Inv start ⟨⟨life.primary.db, life.primary.db.getLastCommittedTransactionId, fun _ => none⟩,
      life.history⟩ := by
  obtain ⟨fits, highest⟩ := life.primary.db.le_getLastCommittedTransactionId fun id present =>
    Nat.lt_of_le_of_lt (inv.stored id present) inv.fits
  exact {
    fits := fits
    stored := highest
    logged := inv.logged
    once := inv.once
    new := inv.new
    recorded := inv.recorded
    ordered := inv.ordered
    sessions := by
      intro t session opened
      cases opened
    separate := by
      intro t session opened
      cases opened }

end

section
variable {allowed : Category → Key → Prop} {start : Db V} {life : Life V}

/-- A step of a session that is no commit. -/
theorem Inv.work (inv : Inv start life) (next : Primary V)
    (step : Primary.Step allowed life.primary next) (same : next.db = life.primary.db)
    (fits : next.trxId < 2 ^ 64) : Inv start ⟨next, life.history⟩ := by
  cases step with
  | start t free =>
    apply inv.set t
    · rintro _ ⟨⟩
      exact {
        enabled := rfl
        placed := fun _ => rfl
        noted := fun _ _ key ⟨_, member, _⟩ => by cases member
        unnumbered := fun _ => rfl
        silent := fun numbered => by cases numbered
        given := fun record has => by cases has
        absent := fun record has => by cases has
        later := fun numbered => by cases numbered }
    · rintro _ ⟨⟩
      exact apart_empty
  | write t session key data isNew category seen trx opened idle named unlocked written =>
    rw [Transaction.write_eq_ok written]
    exact inv.change t session opened idle.2 category key key (some data) unlocked session.cursor
  | remove t session key category opened idle named unlocked =>
    exact inv.change t session opened idle.2 category key key none unlocked session.cursor
  | seek t session key category opened idle named =>
    exact inv.cursor t session opened fun _ => idle.2
  | visit t session category key ck rest opened placed within unlocked =>
    have early := (inv.sessions t session opened).placed (by rw [placed]; exact Option.some_ne_none _)
    exact inv.change t session opened early category ck key none unlocked _
  | leave t session cursor opened placed ends =>
    exact inv.cursor t session opened fun given => absurd rfl given
  | handleTrxLog t session opened idle => exact inv.number t session opened idle fits
  | commit t session opened ready =>
    -- A commit that leaves the store as it was only ends the session.
    have unchanged : session.trx.commit life.primary.db = life.primary.db := same
    rw [unchanged]
    exact inv.close t
  | rollback t session opened => exact inv.close t

theorem Inv.step (inv : Inv start life) (next : Life V) (step : Step allowed life next) :
    Inv start next := by
  cases step with
  | work next step same fits => exact inv.work next step same fits
  | commit t session opened ready => exact inv.commit t session opened ready
  | restart => exact inv.restart

theorem Inv.steps (inv : Inv start life) (last : Life V) (steps : Steps allowed life last) :
    Inv start last := by
  induction steps with
  | refl => exact inv
  | tail _ step ih => exact ih.step _ step

theorem Started.inv (started : Started life) : Inv life.primary.db life := by
  obtain ⟨fits, highest⟩ := life.primary.db.le_getLastCommittedTransactionId started.fits
  have none (t : Nat) (session : Session V) : life.primary.sessions t ≠ some session := by
    rw [started.closed t]
    exact Option.some_ne_none session |>.symm
  exact {
    fits := by rw [started.loaded]; exact fits
    stored := by rw [started.loaded]; exact highest
    logged := by simp [started.empty]
    once := by simp [started.empty, ids]
    new := by simp [started.empty, ids]
    recorded := by simp [started.empty]
    ordered := by simp [started.empty]
    sessions := fun t session opened => absurd opened (none t session)
    separate := fun t session opened => absurd opened (none t session) }

end

/-- In every run, with any sessions side by side, failed commits, rollbacks and restarts: the
log holds what it held at the start and the records of the committed transactions, which all have
different ids; the last key of the log has the highest id; and of two transactions that changed
the same entry, the one that took effect later has the higher id. -/
theorem ids_never_reused (allowed : Category → Key → Prop) (start last : Life V)
    (started : Started start) (steps : Steps allowed start last) :
    (∀ id record, last.primary.db.trxlog[id]? = some record ↔
      start.primary.db.trxlog[id]? = some record ∨
        ∃ trx ∈ last.history, trx.record = some record ∧ record.id = id) ∧
    (ids last.history).Nodup ∧ (∀ id ∈ ids last.history, id ∉ start.primary.db.trxlog) ∧
    (∀ key, last.primary.db.trxlogFamily.maxKey? = some key →
      RealKey.getTrxId key ∈ last.primary.db.trxlog ∧
        ∀ id ∈ last.primary.db.trxlog, id ≤ RealKey.getTrxId key) ∧
    last.history.Pairwise InOrder := by
  have inv := started.inv.steps last steps
  refine ⟨inv.logged, inv.once, inv.new, ?_, inv.ordered⟩
  exact last.primary.db.maxKey?_trxlogFamily fun id present =>
    Nat.lt_of_le_of_lt (inv.stored id present) inv.fits

/-- A session writes an entry and gets an id, but its commit fails; after a restart another
session writes the entry and commits with the same id. -/
theorem lost_id_given_again :
    ∃ last : Life Nat, Steps (fun _ _ => True) ⟨fresh, []⟩ last ∧ ids last.history = [1] ∧
      (ids last.history).Nodup ∧ last.history.Pairwise InOrder := by
  have loaded : fresh.db.getLastCommittedTransactionId = 0 := by
    rw [Db.getLastCommittedTransactionId]
    cases isLast : fresh.db.trxlogFamily.maxKey? with
    | none => rfl
    | some key =>
      obtain ⟨id, present, _⟩ :=
        (Db.mem_trxlogFamily fresh.db key).mp (maxKey?_mem isLast)
      exact absurd present not_mem_empty
  have started : Started (⟨fresh, []⟩ : Life Nat) :=
    ⟨fun id present => absurd present not_mem_empty, loaded.symm, fun _ => rfl, rfl⟩
  have unlocked : (fresh.set 0 (some {})).Unlocked 0 .entry (RealKey.ofName [0x61]) := by
    intro other session apart opened
    rcases set_cases opened with ⟨same, _⟩ | ⟨_, missing⟩
    · exact absurd same apart
    · cases missing
  have written : Primary.Step (fun _ _ => True) (fresh.set 0 (some {})) _ :=
    .write 0 {} (RealKey.ofName [0x61]) 7 false .entry fresh.db (wrote [0x61] 7).trx rfl ⟨rfl, rfl⟩
      trivial unlocked rfl
  rw [set_set] at written
  have began : Steps (fun _ _ => True) (⟨fresh, []⟩ : Life Nat) ⟨fresh.set 0 (some {}), []⟩ :=
    .single (.work _ (.start 0 rfl) rfl (by decide))
  have numbered := (began.tail (.work _ written rfl (by decide))).tail
    (.work _ (.handleTrxLog 0 (wrote [0x61] 7) rfl ⟨rfl, rfl⟩) rfl (by decide))
  have restarted : Steps (fun _ _ => True) (⟨fresh, []⟩ : Life Nat)
      ⟨⟨fresh.db, fresh.db.getLastCommittedTransactionId, fun _ => none⟩, []⟩ := numbered.tail .restart
  rw [loaded] at restarted
  have committed := (restarted.trans numbered).tail (.commit 0 _ rfl rfl)
  obtain ⟨_, once, _, _, ordered⟩ := ids_never_reused _ _ _ started committed
  exact ⟨_, committed, rfl, once, ordered⟩

end Life

end Nsblast
