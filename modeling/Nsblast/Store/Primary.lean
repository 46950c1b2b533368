import Nsblast.Store.Transaction

/-!
# Interleaved transactions on the primary

Any number of sessions run transactions against one database. Every database
operation is a step of its own: a write, a deletion, the creation of the
iterator of a recursive removal, each turn of its loop, the numbering of the
transaction in `handleTrxLog`, and the commit. A session that needs a locked key
has no step until the lock is gone. A rollback stands for a failed commit as
well.

The keys that are addressed may be restricted. With entries addressed by names
made of printable characters, the tests in the loop of a recursive removal accept
only the key itself, so that what is deleted is what is logged.

The ids of transactions are natural numbers here: the counter has 64 bits, and the runs are those
in which it does not wrap around, as in `TrxIds`.
-/

namespace Nsblast

variable {V : Type}

namespace Transaction

/-- A key behind the removed one never ends in it: that would need a second
class byte in the name. -/
theorem isWithin_clean {keyRest ckRest : List UInt8} (noZero : (0 : UInt8) ∉ ckRest)
    (within : isWithin (0 :: keyRest) (0 :: ckRest) = true) : ckRest = keyRest := by
  simp only [isWithin, List.length_cons, Bool.and_eq_true, beq_iff_eq, decide_eq_true_eq] at within
  obtain ⟨_, _, same⟩ := within
  generalize ckRest.length + 1 - (keyRest.length + 1) = extraLen at same
  cases extraLen with
  | zero => exact (List.cons.inj same).2
  | succ extraLen =>
    rw [List.drop_succ_cons] at same
    have zero : (0 : UInt8) ∈ ckRest.drop extraLen := by
      rw [same]
      exact List.mem_cons_self
    exact absurd (List.mem_of_mem_drop zero) noZero

theorem isWithin_printable {key ck : Key} (named : RealKey.PrintableKey key)
    (found : RealKey.PrintableKey ck) (within : isWithin key ck = true) : ck = key := by
  obtain ⟨keyRest, rfl, _⟩ := RealKey.printableKey_tail named
  obtain ⟨ckRest, rfl, noZero⟩ := RealKey.printableKey_tail found
  rw [isWithin_clean noZero within]

end Transaction

/-- The loop of a recursive removal, between two turns. -/
structure Cursor where
  category : Category
  key : Key
  rest : List Key

/-- A session: its transaction, the removal it is in the middle of, and whether
`handleTrxLog` has run. -/
structure Session (V : Type) where
  trx : Transaction V := {}
  cursor : Option Cursor := none
  numbered : Bool := false

/-- The session can begin its next operation. -/
def Session.Idle (session : Session V) : Prop :=
  session.cursor = none ∧ session.numbered = false

/-- The primary: the committed content, the last id given out, and the sessions. -/
structure Primary (V : Type) where
  db : Db V
  trxId : Nat
  sessions : Nat → Option (Session V)

namespace Primary

def set (primary : Primary V) (t : Nat) (session : Option (Session V)) : Primary V :=
  { primary with sessions := Function.update primary.sessions t session }

variable (primary : Primary V) (t : Nat) (session : Option (Session V))

@[simp] theorem set_db :
    (primary.set t session).db = primary.db := rfl

@[simp] theorem set_trxId :
    (primary.set t session).trxId = primary.trxId := rfl

@[simp] theorem set_sessions :
    (primary.set t session).sessions = Function.update primary.sessions t session := rfl

@[simp] theorem set_set (first second : Option (Session V)) :
    (primary.set t first).set t second = primary.set t second := by
  simp [set]

/-- No other session has a lock on the key. -/
def Unlocked (primary : Primary V) (t : Nat) (category : Category) (key : Key) : Prop :=
  ∀ other session, other ≠ t → primary.sessions other = some session →
    ¬ session.trx.Holds category key

/-- Entries are addressed by names made of printable characters. -/
def Named (category : Category) (key : Key) : Prop :=
  category = .entry → RealKey.PrintableKey key

/-- One step of one session, addressing allowed keys only. The content in which a
write looks for an existing key may be an older one, as the lookup takes no lock. -/
inductive Step (allowed : Category → Key → Prop) (primary : Primary V) : Primary V → Prop where
  | start (t : Nat) (free : primary.sessions t = none) : Step allowed primary (primary.set t (some {}))
  | write (t : Nat) (session : Session V) (key : Key) (data : V) (isNew : Bool)
      (category : Category) (seen : Db V) (trx : Transaction V)
      (opened : primary.sessions t = some session) (idle : session.Idle)
      (named : allowed category key) (unlocked : primary.Unlocked t category key)
      (written : session.trx.write seen key data isNew category = .ok trx) :
      Step allowed primary (primary.set t (some { session with trx := trx }))
  | remove (t : Nat) (session : Session V) (key : Key) (category : Category)
      (opened : primary.sessions t = some session) (idle : session.Idle)
      (named : allowed category key) (unlocked : primary.Unlocked t category key) :
      Step allowed primary (primary.set t
        (some { session with trx := session.trx.remove primary.db key false category }))
  | seek (t : Nat) (session : Session V) (key : Key) (category : Category)
      (opened : primary.sessions t = some session) (idle : session.Idle)
      (named : allowed category key) :
      Step allowed primary (primary.set t (some { session with
        cursor := some ⟨category, key, session.trx.keysFrom primary.db category key⟩ }))
  | visit (t : Nat) (session : Session V) (category : Category) (key ck : Key) (rest : List Key)
      (opened : primary.sessions t = some session)
      (placed : session.cursor = some ⟨category, key, ck :: rest⟩)
      (within : Transaction.isWithin key ck = true) (unlocked : primary.Unlocked t category ck) :
      Step allowed primary (primary.set t (some { session with
        trx := session.trx.delete category ck key
        cursor := some ⟨category, key, rest⟩ }))
  | leave (t : Nat) (session : Session V) (cursor : Cursor)
      (opened : primary.sessions t = some session) (placed : session.cursor = some cursor)
      (ends : ∀ ck ∈ cursor.rest.head?, Transaction.isWithin cursor.key ck = false) :
      Step allowed primary (primary.set t (some { session with cursor := none }))
  | handleTrxLog (t : Nat) (session : Session V) (opened : primary.sessions t = some session)
      (idle : session.Idle) :
      Step allowed primary { primary.set t (some { session with
          trx := (session.trx.handleTrxLog primary.trxId).2
          numbered := true }) with
        trxId := (session.trx.handleTrxLog primary.trxId).1 }
  | commit (t : Nat) (session : Session V) (opened : primary.sessions t = some session)
      (ready : session.numbered = true) :
      Step allowed primary { primary.set t none with db := session.trx.commit primary.db }
  | rollback (t : Nat) (session : Session V) (opened : primary.sessions t = some session) :
      Step allowed primary (primary.set t none)

/-- Any number of steps. -/
abbrev Steps (allowed : Category → Key → Prop) : Primary V → Primary V → Prop :=
  Relation.ReflTransGen (Step allowed)

end Primary

end Nsblast
