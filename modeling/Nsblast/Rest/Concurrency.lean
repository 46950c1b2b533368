import Nsblast.Library.Interleaving
import Nsblast.Rest.Requests

/-!
# Two requests at the same time

Two requests for names of one zone each read the entry of the zone, and write it
back with the next serial. Reading takes no lock. When both succeed, the one that
commits last has read the entry of the zone before the other one's commit, or after
it. In the first case it writes the same serial and the same difference key as the
other one; in the second case it goes on from the other one's serial.

The store is taken as the database documents it: a read shows the committed content
under the reader's own writes, a write locks its key until the writer commits.
-/

namespace Nsblast.RestApi

open Interleaving List

/-- The steps of a request that succeeds and has changed the zone. -/
def Succeeds (config : Config) (call : Call) (zone : Name) (steps : List (Event Address Entry)) :
    Prop :=
  ∃ ops, (call.program config).Runs ops zone ∧ steps = ops.map .op ++ [.commit]

/-- The steps before the first commit. -/
def beforeCommit (history : History Address Entry) : History Address Entry :=
  history.takeWhile fun step => step.2 ≠ .commit

/-- Who commits first. -/
def firstToCommit (history : History Address Entry) : Option Bool :=
  (history.dropWhile fun step => step.2 ≠ .commit).head?.map Prod.fst

/-- No change is lost: the serial has grown by two, and the difference each request
has written is there, under a serial of its own. -/
def KeepsBoth (content final : Address → Option Entry) (zone : Name)
    (history : History Address Entry) : Prop :=
  (∃ serial, zoneSerial content zone = some serial ∧ zoneSerial final zone = some (serial + 2)) ∧
    ∃ serials : Bool → Nat, ∃ diffs : Bool → Entry, serials false ≠ serials true ∧
      ∀ who, (who, .op (.write (diffAt zone (serials who)) (some (diffs who)))) ∈ history ∧
        final (diffAt zone (serials who)) = some (diffs who)

/-- The request that does not commit first has not read the entry of the zone by
then. -/
def ReadsZoneLate (zone : Name) (history : History Address Entry) : Prop :=
  ∀ first ∈ firstToCommit history, ∀ answer,
    (!first, .op (.read (entryAt zone) answer)) ∉ beforeCommit history

section split

variable {content final : Address → Option Entry} {history before after : History Address Entry}
  {ops : Bool → List (Op Address Entry)} {first : Bool} {seen later : List (Op Address Entry)}

theorem beforeCommit_eq
    (committed : Committed content history ops final first before after seen later) :
    beforeCommit history = before ∧ firstToCommit history = some first := by
  have running : ∀ step ∈ before, decide (step.2 ≠ Event.commit) = true := by
    rintro ⟨who, event⟩ member
    apply decide_eq_true
    rintro rfl
    exact committed.unfinished who member
  have taken : beforeCommit history = before := by
    rw [beforeCommit, committed.order, takeWhile_append_of_pos running,
      takeWhile_cons_of_neg (by simp), append_nil]
  refine ⟨taken, ?_⟩
  rw [firstToCommit, committed.order, dropWhile_append_of_pos running,
    dropWhile_cons_of_neg (by simp)]
  rfl

/-- What the condition says about the operations before the first commit. -/
theorem readsZoneLate_iff
    (committed : Committed content history ops final first before after seen later) (zone : Name) :
    ReadsZoneLate zone history ↔ ∀ answer, .read (entryAt zone) answer ∉ seen := by
  obtain ⟨taken, firstIs⟩ := beforeCommit_eq committed
  rw [ReadsZoneLate, taken, firstIs]
  have same (answer : Option Entry) :
      (!first, Event.op (.read (entryAt zone) answer)) ∈ before ↔
        .read (entryAt zone) answer ∈ seen := by
    rw [← mem_part, committed.earlier, mem_map]
    constructor
    · rintro ⟨op, member, same⟩
      cases same
      exact member
    · exact fun member => ⟨_, member, rfl⟩
  constructor
  · intro late answer member
    exact late first rfl answer ((same answer).mpr member)
  · rintro unseen other isFirst answer member
    cases isFirst
    exact unseen answer ((same answer).mp member)

end split

section effects

variable {request : Method JsonBody} {fqdn zone : Name} {ops : List (Op Address Entry)}

/-- A request that is overtaken by a commit has found the zone before it or after
it, and not both. -/
theorem Effect.apex_of_overtaken (effect : Effect request fqdn zone ops)
    {content next : Address → Option Entry} {zoneBefore : Entry}
    (hosted : content (entryAt zone) = some zoneBefore)
    (isZone : zoneBefore.hasType RrType.soa = true) {seen later : List (Op Address Entry)}
    (split : ops = seen ++ later) (old : Op.Answered content seen)
    (new : Op.Answered (Replay.apply next (Op.writes seen)) later) :
    (content (entryAt zone) = some effect.apex ∧ .read (entryAt zone) (some effect.apex) ∈ seen) ∨
      (next (entryAt zone) = some effect.apex ∧ ∀ answer, .read (entryAt zone) answer ∉ seen) := by
  have found : effect.lookups ++ .read (entryAt zone) (some effect.apex) :: (effect.reads ++ _) =
      seen ++ later := effect.steps.symm.trans split
  rw [append_cons, append_eq_append_iff] at found
  rcases found with ⟨more, rfl, _⟩ | ⟨rest, seenIn, rfl⟩
  · left
    rw [Op.answered_append] at old
    refine ⟨?_, by simp⟩
    exact old.1.reading (effect.looking.reading.append (Op.reading_single _ _)) _ _ (by simp)
  · -- the commit came before the end of the lookup, or just behind it
    rcases eq_nil_or_concat rest with rfl | ⟨front, last, rfl⟩
    · left
      rw [append_nil] at seenIn
      rw [← seenIn] at old ⊢
      refine ⟨?_, by simp⟩
      exact old.reading (effect.looking.reading.append (Op.reading_single _ _)) _ _ (by simp)
    · right
      rw [concat_eq_append, ← append_assoc] at seenIn
      obtain ⟨lookups, lastRead⟩ := append_inj' seenIn rfl
      rw [cons.injEq] at lastRead
      have passing : Passing seen := by
        intro op member
        apply effect.looking op
        rw [lookups]
        exact mem_append_left front member
      have passingFront : Passing front := by
        intro op member
        apply effect.looking op
        rw [lookups]
        exact mem_append_right seen member
      refine ⟨?_, ?_⟩
      · rw [passing.reading.writes, Replay.apply_nil, concat_eq_append, ← lastRead.1,
          Op.answered_append] at new
        apply new.1.reading (passingFront.reading.append (Op.reading_single _ _))
        simp
      · intro answer member
        have shown := old.reading passing.reading _ _ member
        obtain ⟨name, other, same, plain⟩ := passing _ member
        rw [Op.read.injEq] at same
        rw [plain zoneBefore (same.2.symm.trans (shown.symm.trans hosted))] at isZone
        cases isZone

end effects

/-- A request that is overtaken by a commit still reads entries as they are stored. -/
theorem readsStored_of_overtaken {content next : Address → Option Entry}
    {seen later : List (Op Address Entry)} (tidy : Tidy content) (tidyNext : Tidy next)
    (old : Op.Answered content seen)
    (new : Op.Answered (Replay.apply next (Op.writes seen)) later) :
    ReadsStored (seen ++ later) := by
  intro reads rest split reading name entry member plain
  rcases append_eq_append_iff.mp split with ⟨more, rfl, rfl⟩ | ⟨more, rfl, rfl⟩
  · have readingSeen : Op.Reading seen :=
      fun op member => reading op (mem_append_left more member)
    have readingMore : Op.Reading more :=
      fun op member => reading op (mem_append_right seen member)
    rw [readingSeen.writes, Replay.apply_nil, Op.answered_append] at new
    rcases mem_append.mp member with earlier | afterwards
    · exact tidy name entry (old.reading readingSeen _ _ earlier) plain
    · exact tidyNext name entry (new.1.reading readingMore _ _ afterwards) plain
  · rw [Op.answered_append] at old
    exact tidy name entry (old.1.reading reading _ _ member) plain

/-- Two requests for names of one zone that both succeed lose no change exactly when
the one that commits last reads the entry of the zone after the other one's commit. -/
theorem keepsBoth_iff_readsZoneLate (config : Config) (ixfr : config.dnsEnableIxfr = true)
    (calls : Bool → Call) (plain : ∀ who, (calls who).Plain) (zone : Name)
    (content : Address → Option Entry) (tidy : Tidy content) (history : History Address Entry)
    (final : World Address Entry) (ran : World.run ⟨content, fun _ => []⟩ history = some final)
    (succeed : ∀ who, Succeeds config (calls who) zone (part who history)) :
    KeepsBoth content final.content zone history ↔ ReadsZoneLate zone history := by
  choose ops runs parts using succeed
  obtain ⟨first, before, after, seen, later, committed⟩ := Interleaving.committed ran ops parts
  rw [readsZoneLate_iff committed]
  -- the request that commits first has run alone
  obtain ⟨one⟩ := onResourceRecord_effect (runs first) ixfr
    (plain first) (readsStored_of_answered tidy committed.alone)
  have zoneBefore := one.apex_of_answered committed.alone
  have zoneBetween := one.after_zone content
  have diffBetween := one.after_diff content
  -- the other one has been overtaken by that commit
  have stored := readsStored_of_overtaken tidy (one.tidy content tidy) committed.old committed.new
  rw [← committed.split] at stored
  obtain ⟨two⟩ := onResourceRecord_effect (runs !first) ixfr (plain !first) stored
  have outcome := two.apex_of_overtaken zoneBefore one.isZone
    committed.split committed.old committed.new
  have serialBefore := zoneSerial_eq zoneBefore one.oldSerial
  have serialAfter : zoneSerial final.content zone = some (two.serial + 1) := by
    apply zoneSerial_eq _ two.newSerial
    rw [committed.result]
    exact two.after_zone _
  rcases outcome with ⟨early, member⟩ | ⟨late, unseen⟩
  · -- both have read the same serial
    have same : two.serial = one.serial := by
      have serials := two.oldSerial
      rw [Option.some.inj (early.symm.trans zoneBefore), one.oldSerial] at serials
      exact (Run.ok.inj serials).symm
    constructor
    · rintro ⟨⟨serial, isBefore, isAfter⟩, _⟩
      rw [serialBefore] at isBefore
      rw [serialAfter, same] at isAfter
      cases isBefore
      exact absurd (Option.some.inj isAfter) (by omega)
    · intro unseen
      exact absurd member (unseen _)
  · have next : two.serial = one.serial + 1 := by
      have serials := two.oldSerial
      rw [Option.some.inj (late.symm.trans zoneBetween), one.newSerial] at serials
      exact (Run.ok.inj serials).symm
    refine iff_of_true ⟨⟨one.serial, serialBefore, ?_⟩, ?_⟩ unseen
    · rw [serialAfter, next]
    · have differ : diffAt zone (one.serial + 1) ≠ diffAt zone (two.serial + 1) := by
        intro same
        have serials := diffAt_injective one.fits two.fits same
        omega
      have wrote (who : Bool) (address : Address) (diff : Entry)
          (member : .write address (some diff) ∈ ops who) :
          (who, Event.op (.write address (some diff))) ∈ history := by
        rw [← mem_part, parts who]
        exact mem_append_left _ (mem_map_of_mem member)
      have oneWrote := wrote first _ one.diff one.wrote_diff
      have twoWrote := wrote (!first) _ two.diff two.wrote_diff
      have oneKept : final.content (diffAt zone (one.serial + 1)) = some one.diff := by
        rw [committed.result, two.after, if_neg differ, if_neg (entryAt_ne_diffAt _ _ _).symm,
          if_neg (entryAt_ne_diffAt _ _ _).symm]
        exact diffBetween
      have twoKept : final.content (diffAt zone (two.serial + 1)) = some two.diff := by
        rw [committed.result]
        exact two.after_diff _
      refine ⟨fun who => if who = first then one.serial + 1 else two.serial + 1,
        fun who => if who = first then one.diff else two.diff, ?_, ?_⟩
      · cases first <;> simp <;> omega
      · intro who
        dsimp only
        by_cases isFirst : who = first
        · rw [if_pos isFirst, if_pos isFirst, isFirst]
          exact ⟨oneWrote, oneKept⟩
        · rw [if_neg isFirst, if_neg isFirst, Bool.eq_not.mpr isFirst]
          exact ⟨twoWrote, twoKept⟩

/-- A store with the zone `z` only. -/
def hostingZ : Address → Option Entry := fun key => if key = entryAt [0x7A] then some apexOfZ else none

/-- Addresses for `a.z` and `b.z`. -/
def twoPosts (who : Bool) : Call := postAddress (if who then 0x61 else 0x62)

/-- The operations of the two requests, on the given content. -/
def opsOn (content : Address → Option Entry) (who : Bool) : List (Op Address Entry) :=
  operations ((twoPosts who).program sampleConfig) content

/-- The content after the request for `a.z`. -/
def afterFirst : Address → Option Entry := Replay.apply hostingZ (Op.writes (opsOn hostingZ true))

/-- The second request begins when the first one is done. -/
def oneByOne : History Address Entry :=
  (opsOn hostingZ true).map (fun op => (true, .op op)) ++
    (true, .commit) :: (opsOn afterFirst false).map (fun op => (false, .op op)) ++
    [(false, .commit)]

/-- What the second request does when it reads the zone before the first one writes
it, and the place of its difference afterwards. -/
def overtakenOps : List (Op Address Entry) :=
  opsOn (Function.update hostingZ (diffAt [0x7A] 2) (afterFirst (diffAt [0x7A] 2))) false

/-- The second request looks up its name and the zone, then the first one runs. -/
def overtaken : History Address Entry :=
  (overtakenOps.take 2).map (fun op => (false, .op op)) ++
    (opsOn hostingZ true).map (fun op => (true, .op op)) ++
    (true, .commit) :: (overtakenOps.drop 2).map (fun op => (false, .op op)) ++
    [(false, .commit)]

theorem tidy_hostingZ : Tidy hostingZ := by
  intro name entry found _
  rw [hostingZ] at found
  split at found
  · rename_i same
    cases found
    rw [entryAt_injective same]
    exact stored_apexOfZ
  · cases found

theorem succeeds_of_exec (content : Address → Option Entry) {who : Bool}
    (ops : List (Op Address Entry))
    (returned : ((twoPosts who).program sampleConfig).exec content = .ok ([0x7A], ops))
    (steps : List (Event Address Entry)) (listed : steps = ops.map .op ++ [.commit]) :
    Succeeds sampleConfig (twoPosts who) [0x7A] steps :=
  ⟨ops, ((Program.exec_eq_ok _ _ _ _).mp returned).1, listed⟩

theorem plain_twoPosts (who : Bool) : (twoPosts who).Plain := by
  cases who <;> exact fun dotted => absurd dotted (by decide)

/-- One after the other, both changes are kept. -/
theorem oneByOne_keepsBoth :
    ∃ final, World.run ⟨hostingZ, fun _ => []⟩ oneByOne = some final ∧
      KeepsBoth hostingZ final.content [0x7A] oneByOne := by
  obtain ⟨final, ran⟩ := Option.isSome_iff_exists.mp
    (show (World.run ⟨hostingZ, fun _ => []⟩ oneByOne).isSome = true by decide +kernel)
  refine ⟨final, ran, (keepsBoth_iff_readsZoneLate sampleConfig rfl twoPosts plain_twoPosts [0x7A]
    hostingZ tidy_hostingZ oneByOne final ran ?_).mpr ?_⟩
  · intro who
    cases who with
    | true =>
      exact succeeds_of_exec hostingZ (opsOn hostingZ true) (by decide +kernel) _
        (by decide +kernel)
    | false =>
      exact succeeds_of_exec afterFirst (opsOn afterFirst false) (by decide +kernel) _
        (by decide +kernel)
  · intro first isFirst answer member
    have mine : ∀ step ∈ beforeCommit oneByOne, step.1 = true := by decide +kernel
    cases isFirst
    exact Bool.false_ne_true (mine _ member)

/-- A request that has looked up the zone before another one commits raises the
serial to the one the other has given out: two requests succeed, one serial and one
difference are gone. -/
theorem overtaken_loses_change :
    ∃ final, World.run ⟨hostingZ, fun _ => []⟩ overtaken = some final ∧
      (∀ who, Succeeds sampleConfig (twoPosts who) [0x7A] (part who overtaken)) ∧
      zoneSerial hostingZ [0x7A] = some 1 ∧ zoneSerial final.content [0x7A] = some 2 ∧
      ¬ KeepsBoth hostingZ final.content [0x7A] overtaken := by
  have serials : (World.run ⟨hostingZ, fun _ => []⟩ overtaken).map
      (fun final => zoneSerial final.content [0x7A]) = some (some 2) := by decide +kernel
  obtain ⟨final, ran, serial⟩ := Option.map_eq_some_iff.mp serials
  have before : zoneSerial hostingZ [0x7A] = some 1 := by decide +kernel
  refine ⟨final, ran, ?_, before, serial, ?_⟩
  · intro who
    cases who with
    | true =>
      exact succeeds_of_exec hostingZ (opsOn hostingZ true) (by decide +kernel) _
        (by decide +kernel)
    | false =>
      exact succeeds_of_exec
        (Function.update hostingZ (diffAt [0x7A] 2) (afterFirst (diffAt [0x7A] 2)))
        overtakenOps (by decide +kernel) _ (by decide +kernel)
  · rintro ⟨⟨one, isBefore, isAfter⟩, _⟩
    cases isBefore
    rw [serial] at isAfter
    cases isAfter

end Nsblast.RestApi
