import Nsblast.Storage.Record

/-!
# Names inside the data of a record

The data of some types contains names, and in a message a name may end with a pointer to a place
of the message where it goes on. What such a record says is its data with the names written out.
`StorageBuilder::addRr` copies the bytes as they are; without the message, a pointer in them
leads nowhere.
-/

namespace Nsblast

open List

namespace Rdata

/-- The name at the front of the bytes, written out, and the bytes behind it. A name of 255 octets
has at most 127 labels, with a pointer behind each. -/
def nameAt (message : List UInt8) : Nat → List UInt8 → Option (List UInt8 × List UInt8)
  | 0, _ => none
  | _ + 1, [] => none
  | fuel + 1, size :: bytes =>
      if size = 0 then some ([0], bytes)
      else if size < 64 then
        if bytes.length < size.toNat then none
        else (nameAt message fuel (bytes.drop size.toNat)).map fun found =>
          (size :: bytes.take size.toNat ++ found.1, found.2)
      else if size < 192 then none
      else bytes.head?.bind fun low =>
        (nameAt message fuel (message.drop ((size.toNat - 192) * 256 + low.toNat))).map
          fun found => (found.1, bytes.tail)

/-- The given number of names, written out, and what is behind them. -/
def namesAt (message : List UInt8) : Nat → List UInt8 → Option (List UInt8)
  | 0, bytes => some bytes
  | count + 1, bytes => (nameAt message 256 bytes).bind fun found =>
      (namesAt message count found.2).map (found.1 ++ ·)

/-- The octets before the names of a type, and how many names it has. -/
def layout (type : UInt16) : Nat × Nat :=
  match type.toNat with
  | 2 | 3 | 4 | 5 | 7 | 8 | 9 | 12 => (0, 1)
  | 6 | 14 | 17 => (0, 2)
  | 15 | 18 | 21 | 36 => (2, 1)
  | 26 => (2, 2)
  | 33 => (6, 1)
  | _ => (0, 0)

/-- The data of a record in a message, with its names written out. -/
def expand (message : List UInt8) (type : UInt16) (rdata : List UInt8) : Option (List UInt8) :=
  if rdata.length < (layout type).1 then none
  else (namesAt message (layout type).2 (rdata.drop (layout type).1)).map
    (rdata.take (layout type).1 ++ ·)

/-- The data contains no pointer: it says what it says without any message. -/
def Written (type : UInt16) (rdata : List UInt8) : Prop := expand [] type rdata = some rdata

instance (type : UInt16) (rdata : List UInt8) : Decidable (Written type rdata) := by
  unfold Written
  infer_instance

variable {message bytes rdata meant : List UInt8} {found : List UInt8 × List UInt8}
    {fuel count : Nat} {type : UInt16}

/-- A name that was written out reads the same in any message, in as many steps at most. -/
theorem nameAt_written (read : nameAt message fuel bytes = some found) {steps : Nat}
    (enough : fuel ≤ steps) (other behind : List UInt8) :
    nameAt other steps (found.1 ++ behind) = some (found.1, behind) := by
  induction fuel generalizing bytes found steps with
  | zero => simp [nameAt] at read
  | succ fuel ih =>
    obtain ⟨steps, rfl⟩ := Nat.exists_eq_add_one.mpr (Nat.lt_of_lt_of_le fuel.succ_pos enough)
    have fewer := Nat.le_of_succ_le_succ enough
    cases bytes with
    | nil => simp [nameAt] at read
    | cons size bytes =>
      rw [nameAt] at read
      split at read
      · cases read
        simp [nameAt]
      · rename_i filled
        split at read
        · rename_i label
          split at read
          · cases read
          · rename_i whole
            obtain ⟨rest, later, rfl⟩ := Option.map_eq_some_iff.mp read
            have taken : (bytes.take size.toNat).length = size.toNat :=
              length_take_of_le (Nat.le_of_not_lt whole)
            have long : ¬ (bytes.take size.toNat ++ (rest.1 ++ behind)).length < size.toNat := by
              rw [length_append, taken]
              exact Nat.not_lt.mpr (Nat.le_add_right _ _)
            rw [cons_append, cons_append, append_assoc, nameAt, if_neg filled,
              if_pos label, if_neg long, drop_left' taken, take_left' taken,
              ih later fewer, Option.map_some, cons_append]
        · split at read
          · cases read
          · -- the name goes on at another place, which is read in one step less
            obtain ⟨low, _, read⟩ := Option.bind_eq_some_iff.mp read
            obtain ⟨rest, later, rfl⟩ := Option.map_eq_some_iff.mp read
            have written : nameAt other (steps + 1) (rest.1 ++ behind) = some (rest.1, behind) :=
              ih later (Nat.le_succ_of_le fewer)
            exact written

theorem namesAt_written (read : namesAt message count bytes = some meant) (other : List UInt8) :
    namesAt other count meant = some meant := by
  induction count generalizing bytes meant with
  | zero => rfl
  | succ count ih =>
    obtain ⟨name, first, read⟩ := Option.bind_eq_some_iff.mp read
    obtain ⟨rest, later, rfl⟩ := Option.map_eq_some_iff.mp read
    rw [namesAt, nameAt_written first (Nat.le_refl _), Option.bind_some, ih later, Option.map_some]

/-- Data whose names were written out says the same in any message. -/
theorem expand_written (read : expand message type rdata = some meant) (other : List UInt8) :
    expand other type meant = some meant := by
  rw [expand] at read
  split at read
  · cases read
  · rename_i long
    obtain ⟨rest, names, rfl⟩ := Option.map_eq_some_iff.mp read
    have taken : (rdata.take (layout type).1).length = (layout type).1 :=
      length_take_of_le (Nat.le_of_not_lt long)
    have still : ¬ (rdata.take (layout type).1 ++ rest).length < (layout type).1 := by
      rw [length_append, taken]
      exact Nat.not_lt.mpr (Nat.le_add_right _ _)
    rw [expand, if_neg still, drop_left' taken, take_left' taken, namesAt_written names,
      Option.map_some]

end Rdata

/-- What the record says contains no pointer. -/
def Body.Written (body : Body) : Prop := Rdata.Written body.type body.rdata

instance (body : Body) : Decidable body.Written := by
  unfold Body.Written
  infer_instance

namespace Record

/-- The record, as it stands in some message, means the other: the same record with the names in
its data written out. -/
def Means (rr meant : Record) : Prop :=
  meant = { rr with rdata := meant.rdata } ∧
    ∃ message, Rdata.expand message rr.type rr.rdata = some meant.rdata

variable {rr meant : Record}

theorem Means.key_eq (means : rr.Means meant) : meant.key = rr.key := by
  rw [means.1]
  rfl

theorem Means.type_eq (means : rr.Means meant) : meant.type = rr.type := by
  rw [means.1]

/-- What is meant contains no pointer. -/
theorem Means.written (means : rr.Means meant) : meant.Written := by
  obtain ⟨message, read⟩ := means.2
  rw [Body.Written, means.type_eq]
  exact Rdata.expand_written read []

/-- A record without pointers means itself, and no other one does. -/
theorem Means.eq_iff (means : rr.Means meant) : meant = rr ↔ rr.Written := by
  constructor
  · rintro rfl
    exact means.written
  · intro written
    obtain ⟨same, message, read⟩ := means
    have data : rr.rdata = meant.rdata :=
      Option.some.inj ((Rdata.expand_written written message).symm.trans read)
    rw [same, ← data]

/-- A record without pointers means itself. -/
theorem means_self (written : rr.Written) : rr.Means rr := ⟨rfl, [], written⟩

end Record

end Nsblast
