import Nsblast.Library.Program

/-!
# Two interleaved transactions

Two transactions work on one store. A read shows the committed content under the
reader's own writes and takes no lock. A write locks its key until the writer
commits. A history lists the steps of both in the order they are taken, with the
answers of the reads; `run` accepts it when every answer is right and no write
meets a lock of the other transaction.

When both commit, the one that commits first has run as if it were alone. The
other one has read the old content before that commit and the new one after it.
-/

namespace Nsblast.Interleaving

open Function (update update_of_ne update_self)
open List

variable {K V : Type}

/-- One step of a transaction. -/
inductive Event (K V : Type) where
  | op (op : Op K V)
  | commit
  deriving DecidableEq, Repr

/-- The steps of both transactions. -/
abbrev History (K V : Type) := List (Bool × Event K V)

/-- The steps of one of them. -/
def part (who : Bool) (history : History K V) : List (Event K V) :=
  history.filterMap fun step => if step.1 = who then some step.2 else none

variable {ops : List (Op K V)} {after before : List (Event K V)} (who : Bool) (event : Event K V)
    (rest history : History K V)

@[simp] theorem part_append (first second : History K V) :
    part who (first ++ second) = part who first ++ part who second :=
  filterMap_append

theorem part_cons_self :
    part who ((who, event) :: rest) = event :: part who rest := by
  rw [part, filterMap_cons, if_pos rfl]
  rfl

theorem part_cons_other {who other : Bool} (differ : other ≠ who) :
    part who ((other, event) :: rest) = part who rest := by
  rw [part, filterMap_cons, if_neg differ]
  rfl

theorem mem_part :
    event ∈ part who history ↔ (who, event) ∈ history := by
  rw [part, mem_filterMap]
  constructor
  · rintro ⟨⟨other, found⟩, member, chosen⟩
    split at chosen
    · rename_i same
      cases chosen
      rw [← same]
      exact member
    · cases chosen
  · intro member
    exact ⟨(who, event), member, if_pos rfl⟩

/-- When one transaction has no steps, all are the other's. -/
theorem eq_map_part (none : part (!who) history = []) :
    history = (part who history).map (Prod.mk who) := by
  induction history with
  | nil => rfl
  | cons step rest ih =>
    obtain ⟨other, event⟩ := step
    by_cases mine : other = who
    · subst mine
      rw [part_cons_other _ _ (Bool.eq_not.mp (by rw [Bool.not_not]))] at none
      rw [part_cons_self, map_cons, ← ih none]
    · rw [Bool.eq_not.mpr mine, part_cons_self] at none
      cases none

/-- The operations before and after a moment without a commit. -/
theorem ops_before_moment (split : before ++ after = ops.map .op ++ [.commit])
    (none : .commit ∉ before) :
    ∃ seen later, ops = seen ++ later ∧ before = seen.map .op ∧
      after = later.map .op ++ [.commit] := by
  induction before generalizing ops with
  | nil => exact ⟨[], ops, rfl, rfl, split⟩
  | cons event before ih =>
    cases ops with
    | nil =>
      rw [map_nil, nil_append, cons_append, List.cons.injEq] at split
      rw [split.1] at none
      exact absurd mem_cons_self none
    | cons op rest =>
      rw [map_cons, cons_append, cons_append, List.cons.injEq] at split
      obtain ⟨seen, later, rfl, rfl, same⟩ :=
        ih split.2 fun member => none (mem_cons_of_mem _ member)
      rw [split.1]
      exact ⟨op :: seen, later, rfl, rfl, same⟩

/-- The operations before a commit, when there is only one. -/
theorem ops_before_commit (split : before ++ .commit :: after = ops.map .op ++ [.commit])
    (none : .commit ∉ before) :
    before = ops.map .op ∧ after = [] := by
  obtain ⟨seen, later, rfl, rfl, rest⟩ := ops_before_moment split none
  cases later with
  | nil =>
    cases rest
    exact ⟨by rw [append_nil], rfl⟩
  | cons op later => cases rest

/-- The first commit of a history with a commit of each transaction. -/
theorem first_commit_split {history : History K V}
    (commits : ∀ who, (who, Event.commit) ∈ history) :
    ∃ first before after, history = before ++ (first, .commit) :: after ∧
      ∀ who, (who, Event.commit) ∉ before := by
  obtain ⟨before, after, rfl, absent⟩ := eq_append_cons_of_mem (commits true)
  by_cases earlier : (false, Event.commit) ∈ before
  · obtain ⟨front, back, rfl, missing⟩ := eq_append_cons_of_mem earlier
    refine ⟨false, front, back ++ (true, .commit) :: after, by simp, ?_⟩
    intro who
    cases who with
    | false => exact missing
    | true => exact fun member => absent (mem_append_left _ member)
  · refine ⟨true, before, after, rfl, ?_⟩
    intro who
    cases who with
    | false => exact earlier
    | true => exact absent

/-- The committed content and what each transaction has written since. -/
structure World (K V : Type) where
  content : K → Option V
  own : Bool → Replay.Writes K V

variable [DecidableEq K]

namespace World

/-- What a transaction sees. -/
def view (world : World K V) (who : Bool) : K → Option V :=
  Replay.apply world.content (world.own who)

variable [DecidableEq V]

def step (world : World K V) (who : Bool) : Event K V → Option (World K V)
  | .op (.read key answer) => if world.view who key = answer then some world else none
  | .op (.write key value) =>
      if key ∈ Replay.keys (world.own !who) then none
      else some { world with
        own := update world.own who (world.own who ++ [(key, value)]) }
  | .commit => some ⟨world.view who, update world.own who []⟩

def run (world : World K V) : History K V → Option (World K V)
  | [] => some world
  | (who, event) :: rest => (world.step who event).bind fun next => next.run rest

theorem run_append (world : World K V) (first second : History K V) :
    world.run (first ++ second) = (world.run first).bind fun next => next.run second := by
  induction first generalizing world with
  | nil => rfl
  | cons step rest ih =>
    obtain ⟨who, event⟩ := step
    rw [cons_append, run, run]
    cases world.step who event with
    | none => rfl
    | some next => exact ih next

/-- Until the first commit both transactions run on the content as it is. -/
theorem run_without_commit {world next : World K V} {history : History K V}
    (ran : world.run history = some next) (ops : Bool → List (Op K V))
    (parts : ∀ who, part who history = (ops who).map .op) :
    next.content = world.content ∧
      ∀ who, next.own who = world.own who ++ Op.writes (ops who) ∧
        Op.Answered (world.view who) (ops who) := by
  induction history generalizing world ops with
  | nil =>
    cases ran
    refine ⟨rfl, ?_⟩
    intro who
    have empty : ops who = [] := map_eq_nil_iff.mp (parts who).symm
    rw [empty]
    exact ⟨(append_nil _).symm, trivial⟩
  | cons step rest ih =>
    obtain ⟨who, event⟩ := step
    rw [run, Option.bind_eq_some_iff] at ran
    obtain ⟨middle, stepped, ran⟩ := ran
    have mine := parts who
    rw [part_cons_self] at mine
    obtain ⟨op, tail, split, rfl, restMine⟩ := map_eq_cons_iff.mp mine.symm
    -- the remaining operations: one less for this transaction
    have restParts : ∀ other,
        part other rest = (update ops who tail other).map Event.op := by
      intro other
      by_cases same : other = who
      · rw [same, update_self, restMine]
      · rw [update_of_ne same, ← parts other, part_cons_other _ _ (Ne.symm same)]
    obtain ⟨sameContent, later⟩ := ih ran _ restParts
    cases op with
    | read key answer =>
      rw [World.step] at stepped
      split at stepped
      · rename_i right
        cases stepped
        refine ⟨sameContent, ?_⟩
        intro other
        have here := later other
        by_cases same : other = who
        · subst same
          rw [update_self] at here
          rw [split, Op.writes_read]
          exact ⟨here.1, right, here.2⟩
        · rw [update_of_ne same] at here
          exact here
      · cases stepped
    | write key value =>
      rw [World.step] at stepped
      split at stepped
      · cases stepped
      · cases stepped
        refine ⟨sameContent, ?_⟩
        intro other
        have here := later other
        simp only [view] at here
        by_cases same : other = who
        · subst same
          rw [update_self, update_self, Replay.apply_append, append_assoc]
            at here
          rw [split, Op.writes_write]
          exact here
        · rw [update_of_ne same, update_of_ne same] at here
          exact here

end World

/-- What two transactions that both commit have done to the content. -/
structure Committed (content : K → Option V) (history : History K V)
    (ops : Bool → List (Op K V)) (final : K → Option V) (first : Bool)
    (before after : History K V) (seen later : List (Op K V)) : Prop where
  order : history = before ++ (first, .commit) :: after
  unfinished : ∀ who, (who, Event.commit) ∉ before
  follows : (!first, Event.commit) ∈ after
  split : ops (!first) = seen ++ later
  earlier : part (!first) before = seen.map .op
  alone : Op.Answered content (ops first)
  old : Op.Answered content seen
  new : Op.Answered (Replay.apply (Replay.apply content (Op.writes (ops first)))
    (Op.writes seen)) later
  result : final = Replay.apply (Replay.apply content (Op.writes (ops first)))
    (Op.writes (ops (!first)))

/-- The transaction that commits first has run alone; the other one has seen its
writes from that commit on. -/
theorem committed [DecidableEq V] {content : K → Option V} {history : History K V}
    {world : World K V} (ran : World.run ⟨content, fun _ => []⟩ history = some world)
    (ops : Bool → List (Op K V))
    (parts : ∀ who, part who history = (ops who).map .op ++ [.commit]) :
    ∃ first before after seen later,
      Committed content history ops world.content first before after seen later := by
  have commits : ∀ who, (who, Event.commit) ∈ history := by
    intro who
    rw [← mem_part, parts who]
    exact mem_append_right _ (mem_singleton_self _)
  obtain ⟨first, before, after, rfl, absent⟩ := first_commit_split commits
  have absentPart : ∀ who, Event.commit ∉ part who before := by
    intro who member
    exact absent who ((mem_part who _ before).mp member)
  have firstParts := parts first
  rw [part_append, part_cons_self] at firstParts
  obtain ⟨firstBefore, firstAfter⟩ := ops_before_commit firstParts (absentPart first)
  have otherParts := parts (!first)
  rw [part_append, part_cons_other _ _ (Bool.eq_not.mp (by rw [Bool.not_not]))] at otherParts
  obtain ⟨seen, later, split, otherBefore, otherAfter⟩ :=
    ops_before_moment otherParts (absentPart !first)
  have tail : after = (later.map Event.op ++ [Event.commit]).map (Prod.mk !first) := by
    rw [← otherAfter]
    apply eq_map_part
    rw [Bool.not_not]
    exact firstAfter
  -- the steps before the first commit
  rw [World.run_append, Option.bind_eq_some_iff] at ran
  obtain ⟨middle, ranBefore, ran⟩ := ran
  obtain ⟨sameContent, both⟩ := World.run_without_commit ranBefore
    (update (fun _ => seen) first (ops first)) (by
      intro who
      by_cases same : who = first
      · rw [same, update_self, firstBefore]
      · rw [update_of_ne same, Bool.eq_not.mpr same, otherBefore])
  have ownFirst := both first
  have ownOther := both !first
  rw [update_self] at ownFirst
  rw [update_of_ne (by simp)] at ownOther
  simp only [World.view, Replay.apply_nil, nil_append] at ownFirst ownOther sameContent
  -- the first commit
  rw [World.run, World.step, Option.bind_some] at ran
  rw [tail, map_append, World.run_append, Option.bind_eq_some_iff] at ran
  obtain ⟨last, ranAfter, ran⟩ := ran
  obtain ⟨lastContent, lastBoth⟩ := World.run_without_commit ranAfter
    (update (fun _ => []) (!first) later) (by
      intro who
      rw [map_map]
      by_cases same : who = !first
      · rw [same, update_self, part, filterMap_map]
        exact filterMap_eq_map_iff_forall_eq_some.mpr fun op _ => if_pos rfl
      · rw [update_of_ne same, part, filterMap_map, map_nil, filterMap_eq_nil_iff]
        exact fun op _ => if_neg fun other => same other.symm)
  have lastOther := lastBoth !first
  rw [update_self] at lastOther
  simp only [World.view, sameContent, update_of_ne (show (!first) ≠ first by simp),
    ownFirst.1, ownOther.1] at lastOther lastContent
  -- the second commit
  rw [map_cons, map_nil, World.run, World.step, Option.bind_some, World.run,
    Option.some.injEq] at ran
  refine ⟨first, before, after, seen, later, rfl, absent, ?_, split, otherBefore, ownFirst.2,
    ownOther.2, lastOther.2, ?_⟩
  · rw [tail, map_append]
    exact mem_append_right _ (mem_singleton_self _)
  · rw [← ran]
    dsimp only [World.view]
    rw [lastContent, lastOther.1, split, Op.writes_append]

end Nsblast.Interleaving
