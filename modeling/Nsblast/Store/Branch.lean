import Nsblast.Store.Primary

/-!
# The branch of a name

A recursive removal is meant for a name and everything below it. A key has the name
backwards behind its class byte, so a name below another one continues its key. The loop
of `remove` compares the end of a key with the key that is removed, class byte included,
as if the names were stored forwards. No key but the removed one passes that test, since
no name has a zero byte in it: what is removed is the name alone.

The transaction may already have changes. Its log is on.
-/

namespace Nsblast.Transaction

open RealKey List

variable {V : Type}

/-- The name is the given one or ends in a dot and it. -/
def InBranch (zone name : List UInt8) : Prop := name = zone ∨ 0x2E :: zone <:+ name

instance (zone name : List UInt8) : Decidable (InBranch zone name) := by
  unfold InBranch
  infer_instance

/-- The part of the log that deletes a name. -/
def deletedPart (name : List UInt8) : Part V := ⟨ofName name, Category.entry.toInt, none⟩

/-- The branch of a name is gone, and nothing else; the log has a part for each deleted
key. -/
structure RemovesBranch (db : Db V) (trx next : Transaction V) (zone : List UInt8) : Prop where
  gone : ∀ name, InBranch zone name → next.get db .entry (ofName name) = none
  kept : ∀ category key, (∀ name, category = .entry → key = ofName name → ¬ InBranch zone name) →
    next.get db category key = trx.get db category key
  logged : ∃ deleted : List (List UInt8), deleted.Nodup ∧
    (∀ name, name ∈ deleted ↔
      InBranch zone name ∧ (trx.get db .entry (ofName name)).isSome = true) ∧
    next.trxlog.getD [] = trx.trxlog.getD [] ++ deleted.map deletedPart

/-- The keys of the entries are those of names. -/
def NamedEntries (db : Db V) (trx : Transaction V) : Prop :=
  ∀ key, (trx.get db .entry key).isSome = true → ∃ name, (0 : UInt8) ∉ name ∧ key = ofName name

variable {name zone : List UInt8} {db : Db V} {trx : Transaction V}

theorem isWithin_ofName (noZero : (0 : UInt8) ∉ name)
    (within : isWithin (ofName zone) (ofName name) = true) : name = zone := by
  rw [ofName_eq, ofName_eq] at within
  exact reverse_inj.mp (isWithin_clean (by simpa using noZero) within)

theorem removeFrom_takeWhile (category : Category) (key : Key) (keys : List Key)
    (trx : Transaction V) :
    removeFrom category key keys trx =
      (keys.takeWhile (isWithin key)).foldl (fun trx ck => trx.delete category ck key) trx := by
  induction keys generalizing trx with
  | nil => rfl
  | cons ck rest ih =>
    rw [removeFrom, takeWhile_cons]
    by_cases within : isWithin key ck = true
    · rw [if_pos within, if_pos within, foldl_cons, ih]
    · rw [if_neg within, if_neg within, foldl_nil]

/-- A key that is not the removed one stops the loop. -/
theorem takeWhile_isWithin {keys : List Key}
    (named : ∀ key ∈ keys, ∃ name, (0 : UInt8) ∉ name ∧ key = ofName name)
    (absent : ofName zone ∉ keys) : keys.takeWhile (isWithin (ofName zone)) = [] := by
  cases keys with
  | nil => rfl
  | cons first rest =>
    obtain ⟨name, noZero, isName⟩ := named first mem_cons_self
    rw [takeWhile_cons, if_neg]
    intro within
    rw [isName] at within
    rw [isName, isWithin_ofName noZero within] at absent
    exact absent mem_cons_self

/-- The loop deletes the removed key, if it is there. -/
theorem removed_keys (zone : List UInt8) (named : NamedEntries db trx) :
    (keysFrom db trx .entry (ofName zone)).takeWhile (isWithin (ofName zone)) =
      if (trx.get db .entry (ofName zone)).isSome = true then [ofName zone] else [] := by
  have isNamed : ∀ key ∈ keysFrom db trx .entry (ofName zone),
      ∃ name, (0 : UInt8) ∉ name ∧ key = ofName name := by
    intro key visited
    obtain ⟨entry, found, rfl⟩ := mem_map.mp visited
    obtain ⟨stored, _⟩ := (OrderedMap.mem_seek _ _ _).mp found
    exact named entry.1 (by rw [get, stored]; rfl)
  cases found : trx.get db .entry (ofName zone) with
  | none =>
    refine takeWhile_isWithin isNamed fun visited => ?_
    obtain ⟨entry, isFound, isZone⟩ := mem_map.mp visited
    obtain ⟨stored, _⟩ := (OrderedMap.mem_seek _ _ _).mp isFound
    rw [get, ← isZone, stored] at found
    cases found
  | some value =>
    have visited := OrderedMap.seek_present (view db trx .entry) found
    rw [keysFrom, visited, map_cons] at isNamed ⊢
    rw [takeWhile_cons, isWithin_self, if_pos rfl]
    refine congrArg (ofName zone :: ·) (takeWhile_isWithin
      (fun key later => isNamed key (mem_cons_of_mem _ later)) fun later => ?_)
    obtain ⟨entry, behind, isZone⟩ := mem_map.mp later
    have less := ((OrderedMap.mem_above _ _ _).mp behind).2
    have self : compare (ofName zone) (ofName zone) = .eq := Std.ReflCmp.compare_self
    rw [isZone, self] at less
    cases less

/-- What a recursive removal does. -/
theorem remove_recursive_eq (zone : List UInt8) (named : NamedEntries db trx) :
    trx.remove db (ofName zone) true .entry =
      if (trx.get db .entry (ofName zone)).isSome = true then
        trx.delete .entry (ofName zone) (ofName zone)
      else trx := by
  rw [remove, if_pos rfl, removeFrom_takeWhile, removed_keys zone named]
  split <;> rfl

theorem get_removed (zone : List UInt8) (named : NamedEntries db trx) (category : Category)
    (key : Key) :
    (trx.remove db (ofName zone) true .entry).get db category key =
      if .entry = category ∧ ofName zone = key then none else trx.get db category key := by
  rw [remove_recursive_eq zone named]
  split
  · exact get_delete db trx .entry category (ofName zone) (ofName zone) key
  · rename_i absent
    split
    · rename_i isZone
      rw [← isZone.1, ← isZone.2]
      simpa using absent
    · rfl

/-- A name below another one is another one. -/
theorem ne_of_below (below : 0x2E :: zone <:+ name) : name ≠ zone := by
  rintro rfl
  have longer := below.length_le
  rw [length_cons] at longer
  omega

/-- A recursive removal removes the branch of a name, exactly if it has no names below
it. -/
theorem remove_recursive_iff (db : Db V) (trx : Transaction V) (zone : List UInt8)
    (logs : trx.disableTrxlog = false) (named : NamedEntries db trx) :
    RemovesBranch db trx (trx.remove db (ofName zone) true .entry) zone ↔
      ∀ name, (trx.get db .entry (ofName name)).isSome = true → ¬ 0x2E :: zone <:+ name := by
  constructor
  · intro removes name stored below
    have gone := removes.gone name (.inr below)
    have other : ofName zone ≠ ofName name := fun same =>
      ne_of_below below (ofName_injective same).symm
    rw [get_removed zone named, if_neg fun both => other both.2] at gone
    rw [gone] at stored
    cases stored
  · intro alone
    have absent : ∀ name, 0x2E :: zone <:+ name → trx.get db .entry (ofName name) = none := by
      intro name below
      cases found : trx.get db .entry (ofName name) with
      | none => rfl
      | some value => exact absurd below (alone name (by rw [found]; rfl))
    refine ⟨?gone, ?kept, ?logged⟩
    case gone =>
      rintro name (rfl | below)
      · rw [get_removed name named, if_pos ⟨rfl, rfl⟩]
      · rw [get_removed zone named, absent name below, ite_self]
    case kept =>
      intro category key outside
      rw [get_removed zone named, if_neg]
      rintro ⟨isEntry, isZone⟩
      exact outside zone isEntry.symm isZone.symm (.inl rfl)
    case logged =>
      rw [remove_recursive_eq zone named]
      refine ⟨if (trx.get db .entry (ofName zone)).isSome = true then [zone] else [], ?_, ?_, ?_⟩
      · split <;> simp
      · intro name
        constructor
        · intro member
          split at member
          · rename_i stored
            rw [mem_singleton.mp member]
            exact ⟨.inl rfl, stored⟩
          · cases member
        · rintro ⟨rfl | below, stored⟩
          · rw [if_pos stored]
            exact mem_singleton_self name
          · rw [absent name below] at stored
            cases stored
      · split
        · simp [delete, addPart, change, logs, deletedPart]
        · simp

/-- The zone `z`, and the name `x-z`, which only looks alike. -/
def aloneDb : Db Nat where
  families category := if category = .entry then
    ((∅ : ColumnFamily Nat).insert (ofName [0x7A]) 1).insert (ofName [0x78, 0x2D, 0x7A]) 2 else ∅
  trxlog := ∅

theorem aloneDb_named {key : Key} (stored : (get aloneDb {} .entry key).isSome = true) :
    ∃ name, (name = [0x7A] ∨ name = [0x78, 0x2D, 0x7A]) ∧ key = ofName name := by
  simp only [get, view, aloneDb, foldl_nil, if_true, Std.ExtTreeMap.getElem?_insert] at stored
  split at stored
  · rename_i same
    exact ⟨_, .inr rfl, (Std.LawfulEqCmp.eq_of_compare same).symm⟩
  · split at stored
    · rename_i same
      exact ⟨_, .inl rfl, (Std.LawfulEqCmp.eq_of_compare same).symm⟩
    · simp at stored

theorem aloneDb_namedEntries : NamedEntries aloneDb {} := by
  intro key stored
  obtain ⟨name, rfl | rfl, isKey⟩ := aloneDb_named stored
  · exact ⟨_, by decide, isKey⟩
  · exact ⟨_, by decide, isKey⟩

/-- A zone without names below it is removed, and its neighbour is kept. -/
theorem alone_removed :
    RemovesBranch aloneDb {} (remove aloneDb {} (ofName [0x7A]) true .entry) [0x7A] := by
  refine (remove_recursive_iff aloneDb {} [0x7A] rfl aloneDb_namedEntries).mpr fun name stored => ?_
  obtain ⟨other, isOther, same⟩ := aloneDb_named stored
  rw [ofName_injective same]
  rcases isOther with rfl | rfl
  · decide
  · decide

/-- The zone `z`, with the name `a.z` below it. -/
def branchDb : Db Nat where
  families category := if category = .entry then
    ((∅ : ColumnFamily Nat).insert (ofName [0x7A]) 1).insert (ofName [0x61, 0x2E, 0x7A]) 2 else ∅
  trxlog := ∅

/-- The name below the zone is not removed with it, and the log has one part only. -/
theorem branch_left_behind :
    ¬ RemovesBranch branchDb {} (remove branchDb {} (ofName [0x7A]) true .entry) [0x7A] ∧
      (remove branchDb {} (ofName [0x7A]) true .entry).get branchDb .entry (ofName [0x61, 0x2E, 0x7A]) =
        some 2 ∧
      (remove branchDb {} (ofName [0x7A]) true .entry).trxlog = some [deletedPart [0x7A]] := by
  have left : (remove branchDb {} (ofName [0x7A]) true .entry).get branchDb .entry
      (ofName [0x61, 0x2E, 0x7A]) = some 2 := by decide +kernel
  refine ⟨fun removes => ?_, left, by decide +kernel⟩
  have gone := removes.gone [0x61, 0x2E, 0x7A] (.inr (by decide))
  rw [left] at gone
  cases gone

end Nsblast.Transaction
