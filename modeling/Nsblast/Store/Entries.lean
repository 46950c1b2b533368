import Nsblast.Storage.Soa
import Nsblast.Store.Transaction

/-!
# The entries by their names

The entry category maps names to entries. `WellFormed` is what every entry the
program stores has in common: its name passed `writeName`, which rejects zero
bytes, it is not empty, its records are sorted by type and belong to the name.
-/

namespace Nsblast

open RealKey

/-- The lookup of an entry through a transaction. -/
def lookup (db : Db Entry) (trx : Transaction Entry) (fqdn : Name) : Option Entry :=
  trx.get db .entry (ofName fqdn)

/-- The entry of a name. -/
def storedAt (db : Db Entry) (name : Name) : Option Entry :=
  (db.families .entry)[ofName name]?

/-- The name of a key. -/
def nameOf (key : Key) : Name := key.tail.reverse

@[simp] theorem nameOf_ofName (name : Name) : nameOf (ofName name) = name := by
  rw [nameOf, ofName_eq, List.tail_cons, List.reverse_reverse]

/-- The stored entries, in the order of their keys. -/
def entries (db : Db Entry) : List (Key × Entry) := (db.families .entry).toList

theorem mem_entries (db : Db Entry) (key : Key) (entry : Entry) :
    (key, entry) ∈ entries db ↔ (db.families .entry)[key]? = some entry :=
  Std.ExtTreeMap.mem_toList_iff_getElem?_eq_some

/-- A key of a name without zero bytes. -/
def CleanKey (key : Key) : Prop := ∃ tail, key = 0 :: tail ∧ (0 : UInt8) ∉ tail

theorem CleanKey.eq_ofName {key : Key} (clean : CleanKey key) : key = ofName (nameOf key) := by
  obtain ⟨tail, rfl, _⟩ := clean
  rw [ofName_eq, nameOf, List.tail_cons, List.reverse_reverse]

/-- The entry category as the program fills it. -/
structure WellFormed (db : Db Entry) : Prop where
  clean : ∀ key entry, (key, entry) ∈ entries db → CleanKey key
  filled : ∀ key entry, (key, entry) ∈ entries db → entry.rrs ≠ []
  sorted : ∀ key entry, (key, entry) ∈ entries db →
    entry.rrs.Pairwise fun first second => indexLess second first = false
  owners : ∀ key entry, (key, entry) ∈ entries db → ∀ rr ∈ entry.rrs, rr.key = nameOf key

/-- The SOA is first in the index. -/
theorem WellFormed.soa_first {db : Db Entry} (wellFormed : WellFormed db) {key : Key}
    {entry : Entry} (stored : (key, entry) ∈ entries db)
    (hasSoa : entry.hasType RrType.soa = true) :
    ∃ soa others, entry.rrs = soa :: others ∧ soa.type = RrType.soa :=
  soa_first_of_sorted (wellFormed.sorted key entry stored)
    ((entry.hasType_iff RrType.soa).mp hasSoa)

end Nsblast
