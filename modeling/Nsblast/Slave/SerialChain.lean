import Nsblast.Slave.IxfrSequential
import Nsblast.Slave.Sync

/-!
# Which differences a slave applies

An answer with differences names the version each of them was made for: the SOA
in front of the deletions has the old serial, the SOA in front of the additions
the new one. `handleIxfrPayloads` checks that the new serial is above the old one
and that neither is above the serial of the answer. It compares neither the first
old serial with its own, nor an old serial with the new one before it, nor the
last new serial with the one the answer ends with. Whether the differences follow
each other is therefore a property of the serials the master sends.
-/

namespace Nsblast.Slave

variable (recordSorter : Sorter recordLess) (indexSorter : Sorter indexLess)
variable (db : Db Entry) (zone : Name)

/-- The SOA records that opened a sequence of deletions or of additions, by the
stage they led to and with their serials. -/
def opened : Control → List Record → List (Stage × Nat)
  | _, [] => []
  | control, rr :: rest =>
      match judge zone control rr with
      | .ok (next, _) =>
          if rr.type = RrType.soa ∧
              (next.stage = .haveIxfrDelSoa ∨ next.stage = .haveIxfrAddSoa) then
            (next.stage, next.prevSerial) :: opened next rest
          else opened next rest
      | _ => []

/-- Deletions and additions alternate; the first deletions are for `version`, each
later ones for the version the additions before them have made, and the last
additions make `final`. -/
def Chained (final : Nat) : Nat → List (Stage × Nat) → Prop
  | version, [] => version = final
  | version, (.haveIxfrDelSoa, old) :: (.haveIxfrAddSoa, new) :: rest =>
      old = version ∧ Chained final new rest
  | _, _ => False

/-- The serials of the SOA records. -/
def serialsOf (records : List Record) : List Nat :=
  records.filterMap fun rr =>
    if rr.type = RrType.soa then
      match soaSerial rr.toBody with
      | .ok serial => some serial
      | _ => none
    else none

/-- The numbers come in equal pairs. -/
def Paired : List Nat → Prop
  | [] => True
  | [_] => False
  | first :: second :: rest => first = second ∧ Paired rest

variable {rr : Record} {control last : Control} {records : List Record} {events : List Event}
    (rest : List Record)

theorem serialsOf_soa {serial : Nat} (isSoa : rr.type = RrType.soa)
    (read : soaSerial rr.toBody = .ok serial) :
    serialsOf (rr :: rest) = serial :: serialsOf rest := by
  simp [serialsOf, isSoa, read]

theorem serialsOf_plain (isPlain : rr.type ≠ RrType.soa) :
    serialsOf (rr :: rest) = serialsOf rest := by
  simp only [serialsOf, List.filterMap_cons, if_neg isPlain]

/-- A sequence of deletions fits when its serial is the version, whatever follows. -/
theorem chained_deletions (final version old : Nat) (rest : List (Stage × Nat)) :
    Chained final version ((.haveIxfrDelSoa, old) :: rest) ↔
      old = version ∧ Chained final old ((.haveIxfrDelSoa, old) :: rest) := by
  rcases rest with _ | ⟨⟨stage, new⟩, rest⟩
  · simp [Chained]
  · cases stage <;> simp [Chained]

/-- Once the whole zone is sent, no differences follow. -/
theorem judgeAll_whole (whole : control.isIxfr = false)
    (judged : judgeAll zone control records = .ok (last, events)) : last.isIxfr = false := by
  induction records generalizing control events with
  | nil =>
    cases judged
    exact whole
  | cons rr rest ih =>
    obtain ⟨next, action, later, one, others, _⟩ := judgeAll_cons_eq_ok judged
    refine ih ?_ others
    cases judge_eq_ok zone one with
    | plain stage isPlain =>
      rw [judgePlain]
      split <;> first | exact whole | rfl
    | _ => exact whole

/-- The chain of the opened sequences, read off the serials: between differences,
where `version` is the one in force, and behind deletions. -/
theorem chained_iff_paired (judged : judgeAll zone control records = .ok (last, events))
    (final : last.stage = .haveFinalSoa) (incremental : last.isIxfr = true) :
    (control.stage = .haveFirstSoa ∨ control.stage = .haveIxfrAddSoa → ∀ version,
      (Chained control.currentSerial version (opened zone control records) ↔
        Paired (version :: serialsOf records))) ∧
    (control.stage = .haveIxfrDelSoa → ∀ version, (Chained control.currentSerial version
          ((.haveIxfrDelSoa, version) :: opened zone control records) ↔
        Paired (serialsOf records))) := by
  induction records generalizing control events with
  | nil =>
    cases judged
    constructor
    · rintro (stage | stage) <;> cases final.symm.trans stage
    · intro stage
      cases final.symm.trans stage
  | cons rr rest ih =>
    obtain ⟨next, action, later, one, others, _⟩ := judgeAll_cons_eq_ok judged
    have isIxfr : next.isIxfr = true := by
      by_contra whole
      rw [Bool.not_eq_true] at whole
      cases incremental.symm.trans (judgeAll_whole zone whole others)
    obtain ⟨between, behind⟩ := ih others
    cases judge_eq_ok zone one with
    | first serial stage isSoa owner read =>
      constructor
      · rintro (other | other) <;> cases stage.symm.trans other
      · intro other
        cases stage.symm.trans other
    | currentAdditions stage ixfr isSoa owner read =>
      constructor
      · rintro (other | other) <;> cases stage.symm.trans other
      · intro _ version
        rw [serialsOf_soa rest isSoa read, ← between (Or.inr rfl)]
        simp [opened, one, isSoa, Chained]
    | additions serial stage ixfr isSoa owner read older rises =>
      constructor
      · rintro (other | other) <;> cases stage.symm.trans other
      · intro _ version
        rw [serialsOf_soa rest isSoa read, ← between (Or.inr rfl)]
        simp [opened, one, isSoa, Chained]
    | deletions serial stage ixfr isSoa owner read older =>
      constructor
      · intro _ version
        rw [serialsOf_soa rest isSoa read, Paired, ← behind rfl serial]
        simp only [opened, one, isSoa, true_and, true_or, if_true]
        rw [chained_deletions, eq_comm]
      · intro other
        rcases stage with stage | stage <;> cases stage.symm.trans other
    | final stage ends isSoa owner read =>
      have nothing := judgeAll_final rfl others
      subst nothing
      constructor
      · intro _ version
        rw [serialsOf_soa [] isSoa read]
        simp [opened, one, isSoa, Chained, Paired, serialsOf]
      · intro other
        cases control
        cases other
        exact absurd rfl (ends isIxfr)
    | plain stage isPlain =>
      rw [serialsOf_plain rest isPlain]
      simp only [opened, one, isPlain, false_and, if_false]
      constructor
      · rintro (begun | adding) version
        · rw [judgePlain, begun] at isIxfr
          cases isIxfr
        · have kept : (judgePlain control).1 = control := by rw [judgePlain, adding]
          rw [kept] at between ⊢
          exact between (Or.inr adding) version
      · intro deleting version
        have kept : (judgePlain control).1 = control := by rw [judgePlain, deleting]
        rw [kept] at behind ⊢
        exact behind deleting version

/-- The differences of an answer that comes to its commit follow each other, from
the local serial to the one the answer begins with, exactly when the serials of
the SOA records behind the first one, with the local serial in front, come in
equal pairs. -/
theorem ixfr_chained_iff_serials_paired (trx : Transaction Entry) (mySerial : Nat)
    (positive : 0 < mySerial) (incoming : List Incoming) (obsolete : Bool) (prepared : Prepared)
    (commits : prepare recordSorter indexSorter db zone trx mySerial incoming obsolete =
      .ok prepared) (incremental : prepared.control.isIxfr = true) :
    ∃ (read : List (List Record)) (first : Record) (rest : List Record),
      incoming = read.map .reply ++ prepared.unread ∧
      read.flatten = first :: rest ∧
      soaSerial first.toBody = .ok prepared.control.currentSerial ∧
      (Chained prepared.control.currentSerial mySerial
          (opened zone { isIxfr := true } read.flatten) ↔
        Paired (mySerial :: serialsOf rest)) := by
  obtain ⟨_, _, read, events, _, split, _, judged, complete, _, final, _⟩ :=
    prepare_eq_ok commits
  obtain ⟨first, rest, begins, isSoa, owner, leading⟩ := complete.begins
  have isIxfr : (mySerial != 0) = true := bne_iff_ne.mpr (by omega)
  rw [begins, isIxfr] at judged
  obtain ⟨next, action, later, one, others, _⟩ := judgeAll_cons_eq_ok judged
  refine ⟨read, first, rest, split, begins, leading, ?_⟩
  cases judge_eq_ok zone one with
  | first serial stage _ _ read' =>
    have same : serial = prepared.control.currentSerial := by
      rw [read'] at leading
      exact Run.ok.inj leading
    rw [begins, ← same]
    simp only [opened, one, isSoa, true_and]
    rw [if_neg (by simp)]
    exact (chained_iff_paired zone others final incremental).1
      (Or.inl rfl) mySerial
  | currentAdditions stage => cases stage
  | final stage => exact absurd rfl stage.1
  | deletions _ stage => rcases stage with stage | stage <;> cases stage
  | additions _ stage => cases stage
  | plain stage => exact absurd rfl stage.1

/-- The differences from serial 1 to serial 2 for a slave at serial 1. -/
theorem difference_from_one_chained :
    ∃ prepared, prepare insertionRecords insertionIndex slaveOfA [0x61] {} 1
        [.reply [soaOfA 2, soaOfA 1], .reply [soaOfA 2, addressOfB 2, soaOfA 2]] false =
        .ok prepared ∧
      ∃ (read : List (List Record)) (first : Record) (rest : List Record),
        [.reply [soaOfA 2, soaOfA 1], .reply [soaOfA 2, addressOfB 2, soaOfA 2]] =
          read.map .reply ++ prepared.unread ∧
        read.flatten = first :: rest ∧
        soaSerial first.toBody = .ok prepared.control.currentSerial ∧
        (Chained prepared.control.currentSerial 1 (opened [0x61] { isIxfr := true } read.flatten) ↔
          Paired (1 :: serialsOf rest)) := by
  have ran : (prepare insertionRecords insertionIndex slaveOfA [0x61] {} 1
      [.reply [soaOfA 2, soaOfA 1], .reply [soaOfA 2, addressOfB 2, soaOfA 2]] false >>=
        fun prepared => .ok prepared.control.isIxfr) = .ok true := by decide +kernel
  rw [Run.bind_eq_ok] at ran
  obtain ⟨prepared, commits, incremental⟩ := ran
  exact ⟨prepared, commits, ixfr_chained_iff_serials_paired insertionRecords insertionIndex slaveOfA
    [0x61] {} 1 (by decide) _ false prepared commits (Run.ok.inj incremental)⟩

/-- A slave at serial 1 applies a difference from serial 2 to serial 4, and is then
at serial 4. -/
theorem difference_for_other_version_applied :
    ∃ prepared, prepareSync insertionRecords insertionIndex slaveOfA [0x61] .ixfr
        [.reply [soaOfA 4, soaOfA 2, soaOfA 4, addressOfB 2, soaOfA 4]] false = .ok prepared ∧
      (storedAt slaveOfA [0x61]).map Entry.serial = some (.ok 1) ∧
      prepared.control.isIxfr = true ∧ prepared.unread = [] ∧
      ¬ Chained prepared.control.currentSerial 1 (opened [0x61] { isIxfr := true }
        [soaOfA 4, soaOfA 2, soaOfA 4, addressOfB 2, soaOfA 4]) := by
  have ran : (prepareSync insertionRecords insertionIndex slaveOfA [0x61] .ixfr
      [.reply [soaOfA 4, soaOfA 2, soaOfA 4, addressOfB 2, soaOfA 4]] false >>=
        fun prepared => .ok (prepared.control.isIxfr && prepared.unread.isEmpty)) = .ok true := by
    decide +kernel
  rw [Run.bind_eq_ok] at ran
  obtain ⟨prepared, commits, same⟩ := ran
  rw [Run.ok.injEq, Bool.and_eq_true, List.isEmpty_iff] at same
  have sequences : opened [0x61] { isIxfr := true }
      [soaOfA 4, soaOfA 2, soaOfA 4, addressOfB 2, soaOfA 4] =
        [(.haveIxfrDelSoa, 2), (.haveIxfrAddSoa, 4)] := by decide
  refine ⟨prepared, commits, by decide +kernel, same.1, same.2, ?_⟩
  rw [sequences, Chained]
  simp

end Nsblast.Slave
