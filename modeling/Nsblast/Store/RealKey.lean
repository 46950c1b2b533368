import Mathlib.Data.List.Basic
import Nsblast.Library.Lexicographic

/-!
# Keys of the store

A key is a class byte followed by a name or a number. Names of entries,
differences and zones are stored with their bytes reversed, so that the names of
a zone share the first bytes of their keys. A version is appended behind a zero
byte, in network order.
-/

namespace Nsblast

/-- The bytes of a key. The store compares them as unsigned numbers, a shorter
key before its continuations. -/
abbrev Key := List UInt8

namespace RealKey

/-- `RealKey::Class`. -/
inductive Class where
  | entry
  | diff
  | tenant
  | user
  | role
  | zone
  | tzone
  | trxid
  | zrr
  | tenantName
  deriving DecidableEq, Repr

def Class.toByte : Class → UInt8
  | .entry => 0
  | .diff => 1
  | .tenant => 2
  | .user => 3
  | .role => 4
  | .zone => 5
  | .tzone => 6
  | .trxid => 7
  | .zrr => 8
  | .tenantName => 9

def isReversed : Class → Bool
  | .entry | .diff | .zone => true
  | _ => false

/-- `RealKey::init`. -/
def init (key : List UInt8) (kclass : Class) (version : Option Nat) : Key :=
  kclass.toByte :: (if isReversed kclass then key.reverse else key) ++
    match version with
    | none => []
    | some number => 0 :: be32 number

def isSameKeyClass (key other : Key) : Bool :=
  match key, other with
  | first :: _, second :: _ => first == second
  | _, _ => false

/-- The key under which the entry of a name is stored. -/
def ofName (name : List UInt8) : Key := init name .entry none

theorem ofName_eq (name : List UInt8) : ofName name = 0 :: name.reverse := by
  simp [ofName, init, isReversed, Class.toByte]

theorem ofName_injective {first second : List UInt8} (same : ofName first = ofName second) :
    first = second := by
  rw [ofName_eq, ofName_eq, List.cons.injEq, List.reverse_inj] at same
  exact same.2

/-- The key of a transaction in the log: `RealKey::init` for a `uint64_t`. -/
def ofTrxId (id : Nat) : Key := Class.trxid.toByte :: bigEndian 8 id

/-- The keys of the log are ordered as the ids are. -/
theorem compare_ofTrxId {first second : Nat} (isFirst : first < 2 ^ 64)
    (isSecond : second < 2 ^ 64) :
    compare (ofTrxId first) (ofTrxId second) = compare first second := by
  have self : compare Class.trxid.toByte Class.trxid.toByte = .eq := Std.ReflCmp.compare_self
  have eight : 256 ^ 8 = 2 ^ 64 := by decide
  rw [ofTrxId, ofTrxId, List.compare_cons_cons, self, Ordering.eq_then,
    Lexicographic.compare_bigEndian, eight, Nat.mod_eq_of_lt isFirst, Nat.mod_eq_of_lt isSecond]

theorem isSameKeyClass_ofTrxId (first second : Nat) :
    isSameKeyClass (ofTrxId first) (ofTrxId second) = true := rfl

/-- A name made of printable characters. -/
def Printable (name : List UInt8) : Prop := ∀ byte ∈ name, 0x20 ≤ byte.toNat ∧ byte.toNat ≤ 0x7E

/-- A key of the entry of such a name. -/
def PrintableKey (key : Key) : Prop := ∃ name, Printable name ∧ key = ofName name

/-- Behind the class byte, such a key has no zero byte. -/
theorem printableKey_tail {key : Key} (printable : PrintableKey key) :
    ∃ rest, key = 0 :: rest ∧ (0 : UInt8) ∉ rest := by
  obtain ⟨name, chars, rfl⟩ := printable
  refine ⟨name.reverse, ofName_eq name, ?_⟩
  intro member
  have shown := (chars 0 (List.mem_reverse.mp member)).1
  exact absurd shown (by decide)

end RealKey

end Nsblast
