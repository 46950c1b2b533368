import Nsblast.Library.Outcome
import Nsblast.Store.RealKey

/-!
# Resource records

A record as `Rr` shows it: the owner name in its dotted form and, behind the
labels, the type, the class, the time to live and the data. Two records are
compared by the bytes behind their labels. A record in the store also remembers
whether its owner name was written out or as a pointer to the first name.

Names inside the data are taken as the bytes that were received.
-/

namespace Nsblast

open List RealKey

/-- A domain name in its dotted form, without the final dot. -/
abbrev Name := List UInt8

/-- The labels of a name, the root included. -/
def labelsOf (name : Name) : List (List UInt8) :=
  if name = [] then [[]] else name.splitOn 0x2E ++ [[]]

variable {name zone : Name} {first second : Body}

namespace Name

def lowerByte (ch : UInt8) : UInt8 := if 0x41 ≤ ch ∧ ch ≤ 0x5A then ch + 0x20 else ch

/-- `toLower`. -/
def toLower (name : Name) : Name := name.map lowerByte

theorem lowerByte_lowerByte (ch : UInt8) : lowerByte (lowerByte ch) = lowerByte ch := by
  by_cases upper : 0x41 ≤ ch ∧ ch ≤ 0x5A
  · have lowered : ¬ (0x41 ≤ ch + 0x20 ∧ ch + 0x20 ≤ 0x5A) := by
      simp only [UInt8.le_iff_toNat_le, UInt8.toNat_add, UInt8.reduceToNat] at upper ⊢
      omega
    rw [lowerByte, lowerByte, if_pos upper, if_neg lowered]
  · rw [lowerByte, lowerByte, if_neg upper, if_neg upper]

@[simp] theorem toLower_toLower (name : Name) : toLower (toLower name) = toLower name := by
  rw [toLower, toLower, map_map]
  apply map_congr_left
  intro ch _
  exact lowerByte_lowerByte ch

theorem lowerByte_eq_dot {ch : UInt8} (dot : lowerByte ch = 0x2E) : ch = 0x2E := by
  rw [lowerByte] at dot
  split at dot
  · rename_i upper
    simp only [UInt8.le_iff_toNat_le, UInt8.reduceToNat] at upper
    have value := congrArg UInt8.toNat dot
    simp only [UInt8.toNat_add, UInt8.reduceToNat] at value
    omega
  · exact dot

/-- Lower case does not add a final dot. -/
theorem toLower_plain (plain : name.getLast? ≠ some 0x2E) :
    (toLower name).getLast? ≠ some 0x2E := by
  rw [toLower, getLast?_map]
  intro dotted
  obtain ⟨ch, last, dot⟩ := Option.map_eq_some_iff.mp dotted
  rw [lowerByte_eq_dot dot] at last
  exact plain last

/-- Lower case keeps a final dot. -/
theorem toLower_dotted (dotted : name.getLast? = some 0x2E) :
    (toLower name).getLast? = some 0x2E := by
  rw [toLower, getLast?_map, dotted]
  rfl

/-- A name at the end of a name ends like it. -/
theorem suffix_getLast (suffix : zone <:+ name) (filled : zone ≠ []) :
    zone.getLast? = name.getLast? := by
  obtain ⟨front, rfl⟩ := suffix
  rw [getLast?_append, getLast?_eq_some_getLast filled, Option.some_or]

theorem suffix_plain (suffix : zone <:+ name) (filled : zone ≠ [])
    (plain : name.getLast? ≠ some 0x2E) : zone.getLast? ≠ some 0x2E := by
  rw [suffix_getLast suffix filled]
  exact plain

/-- The name is strictly below the zone. -/
def Below (zone name : Name) : Prop := (zone = [] ∧ name ≠ []) ∨ (0x2E :: zone) <:+ name

/-- The name is the zone or below it. -/
def Within (zone name : Name) : Prop := name = zone ∨ Below zone name

instance (zone name : Name) : Decidable (Below zone name) := by unfold Below; infer_instance

instance (zone name : Name) : Decidable (Within zone name) := by unfold Within; infer_instance

end Name

namespace RrType

def a : UInt16 := 1
def ns : UInt16 := 2
def cname : UInt16 := 5
def soa : UInt16 := 6
def ptr : UInt16 := 11
def mx : UInt16 := 15
def txt : UInt16 := 16
def aaaa : UInt16 := 28
def srv : UInt16 := 33

end RrType

/-- `Message::CLASS_IN`. -/
def classIn : UInt16 := 1

/-- `TTL_MAX`. -/
def ttlMax : UInt32 := 2147483647

/-- `sanitizeTtl`. -/
def sanitizeTtl (ttl : UInt32) : UInt32 := if ttl > ttlMax then ttlMax else ttl

/-- What a record says about its owner. -/
structure Body where
  type : UInt16
  clas : UInt16
  ttl : UInt32
  rdata : List UInt8
  deriving DecidableEq, Repr

namespace Body

/-- `dataSpanAfterLabel`. -/
def dataSpanAfterLabel (body : Body) : List UInt8 :=
  be16 body.type.toNat ++ be16 body.clas.toNat ++ be32 body.ttl.toNat ++
    be16 body.rdata.length ++ body.rdata

theorem dataSpanAfterLabel_injective (same : first.dataSpanAfterLabel = second.dataSpanAfterLabel) :
    first = second := by
  obtain ⟨typeBytes, rest⟩ := append_inj same (by simp)
  obtain ⟨typeBytes, _⟩ := append_inj typeBytes (by simp)
  obtain ⟨typeBytes, ttlBytes⟩ := append_inj typeBytes (by simp)
  obtain ⟨typeBytes, clasBytes⟩ := append_inj typeBytes (by simp)
  have types := bigEndian_injective first.type.toNat_lt second.type.toNat_lt typeBytes
  have classes := bigEndian_injective first.clas.toNat_lt second.clas.toNat_lt clasBytes
  have ttls := bigEndian_injective first.ttl.toNat_lt second.ttl.toNat_lt ttlBytes
  obtain ⟨type, clas, ttl, rdata⟩ := first
  rw [UInt16.toNat_inj] at types classes
  rw [UInt32.toNat_inj] at ttls
  simp_all

/-- `ZoneMerge`'s `Compare`: `memcmp` over the common length, then the length. -/
def less (first second : Body) : Bool :=
  compare first.dataSpanAfterLabel second.dataSpanAfterLabel == .lt

/-- Bodies that compare as equal are equal. -/
theorem eq_of_not_less (notBefore : less first second = false)
    (notBehind : less second first = false) : first = second := by
  apply dataSpanAfterLabel_injective
  rw [less, beq_eq_false_iff_ne] at notBefore notBehind
  cases order : compare first.dataSpanAfterLabel second.dataSpanAfterLabel with
  | lt => exact absurd order notBefore
  | eq => exact Std.LawfulEqCmp.eq_of_compare order
  | gt => exact absurd (Std.OrientedCmp.lt_of_gt order) notBehind

end Body

/-- A record and its owner. -/
structure Record extends Body where
  owner : Name
  deriving DecidableEq, Repr

namespace Record

/-- The name under which the record is stored. -/
def key (record : Record) : Name := Name.toLower record.owner

end Record

/-- `RrSoa::minRrLen`. -/
def minRrLen : Nat := 22

/-- `RrSoa::serial`. -/
def soaSerial (body : Body) : Run Nat := do
  Run.assert (minRrLen ≤ body.rdata.length)
  .ok (readBigEndian ((body.rdata.drop (body.rdata.length - 20)).take 4))

/-- A record of the store. Everything the builder writes has the class `IN` and a
time to live it accepts; only a replaced SOA is copied as it was received. -/
structure StoredRr extends Record where
  pointer : Bool
  sane : type = RrType.soa ∨ (clas = classIn ∧ ttl ≤ ttlMax)
  deriving DecidableEq, Repr

namespace StoredRr

/-- The bytes the owner name takes. -/
def labelLen (rr : StoredRr) : Nat :=
  if rr.pointer then 2 else if rr.owner = [] then 1 else rr.owner.length + 2

/-- The bytes the record takes, as `calculateLen` counts them. -/
def size (rr : StoredRr) : Nat := rr.labelLen + 2 + 2 + 4 + 2 + rr.rdata.length

end StoredRr

end Nsblast
