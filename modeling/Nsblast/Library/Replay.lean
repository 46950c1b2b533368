import Mathlib.Data.List.Basic

/-!
# Replaying batches of keyed writes

A batch is a list of writes, each setting or clearing one key. Replaying a log
applies its batches one after the other. A batch may be moved behind batches
that write none of its keys, so a log reproduces a store even when its order is
not the order in which the batches took effect, as long as batches in the wrong
order have no key in common. A log may also be replayed again on the store it led to.
-/

namespace Nsblast.Replay

open List

variable {K V : Type} [DecidableEq K]

/-- A write sets the value of a key, or clears it. -/
abbrev Writes (K V : Type) := List (K × Option V)

/-- The keys a batch writes. -/
def keys (writes : Writes K V) : List K := writes.map Prod.fst

/-- One batch, in the order of its writes. -/
def apply (content : K → Option V) (writes : Writes K V) : K → Option V :=
  writes.foldl (fun content write => Function.update content write.1 write.2) content

/-- A log of batches, the oldest first. -/
def replay (content : K → Option V) (log : List (Writes K V)) : K → Option V :=
  log.foldl apply content

variable {writes : Writes K V} {first second : K → Option V} {log : List (Writes K V)}
    (content : K → Option V)

@[simp] theorem apply_nil : apply content [] = content := rfl

@[simp] theorem apply_cons (write : K × Option V) (rest : Writes K V) :
    apply content (write :: rest) = apply (Function.update content write.1 write.2) rest := rfl

@[simp] theorem apply_append (first second : Writes K V) :
    apply content (first ++ second) = apply (apply content first) second :=
  foldl_append

@[simp] theorem replay_nil : replay content [] = content := rfl

@[simp] theorem replay_cons (batch : Writes K V) (rest : List (Writes K V)) :
    replay content (batch :: rest) = replay (apply content batch) rest :=
  rfl

@[simp] theorem replay_append (first second : List (Writes K V)) :
    replay content (first ++ second) = replay (replay content first) second :=
  foldl_append

variable {key : K}

/-- A batch leaves the keys it does not write. -/
theorem apply_unwritten (unwritten : key ∉ keys writes) :
    apply content writes key = content key := by
  induction writes generalizing content with
  | nil => rfl
  | cons write rest ih =>
    simp only [keys, map_cons, mem_cons, not_or] at unwritten
    rw [apply_cons, ih _ unwritten.2, Function.update_of_ne unwritten.1]

/-- What a batch leaves at a key depends only on what was there. -/
theorem apply_congr (writes : Writes K V) (same : first key = second key) :
    apply first writes key = apply second writes key := by
  induction writes generalizing first second with
  | nil => exact same
  | cons write rest ih =>
    rw [apply_cons, apply_cons]
    apply ih
    by_cases here : key = write.1
    · rw [here, Function.update_self, Function.update_self]
    · rw [Function.update_of_ne here, Function.update_of_ne here, same]

/-- At a key it writes, a batch forgets what was there. -/
theorem apply_written (first second : K → Option V) (written : key ∈ keys writes) :
    apply first writes key = apply second writes key := by
  induction writes generalizing first second with
  | nil => cases written
  | cons write rest ih =>
    by_cases later : key ∈ keys rest
    · exact ih _ _ later
    · have here : key = write.1 := by
        simp only [keys, map_cons, mem_cons] at written
        exact written.resolve_right later
      rw [apply_cons, apply_cons]
      apply apply_congr
      rw [here, Function.update_self, Function.update_self]

theorem replay_unwritten (unwritten : ∀ batch ∈ log, key ∉ keys batch) :
    replay content log key = content key := by
  induction log generalizing content with
  | nil => rfl
  | cons batch rest ih =>
    rw [replay_cons, ih _ fun later member => unwritten later (mem_cons_of_mem batch member)]
    exact apply_unwritten content (unwritten batch mem_cons_self)

theorem replay_congr (log : List (Writes K V)) (same : first key = second key) :
    replay first log key = replay second log key := by
  induction log generalizing first second with
  | nil => exact same
  | cons batch rest ih => exact ih (apply_congr batch same)

/-- At a key it writes, a log forgets what was there. -/
theorem replay_written (first second : K → Option V) {batch : Writes K V} (member : batch ∈ log)
    (written : key ∈ keys batch) :
    replay first log key = replay second log key := by
  induction log generalizing first second with
  | nil => cases member
  | cons head rest ih =>
    rw [replay_cons, replay_cons]
    rcases mem_cons.mp member with rfl | later
    · exact replay_congr rest (apply_written first second written)
    · exact ih _ _ later

/-- Replaying a log twice is replaying it once: a key has what its last write left there. -/
theorem replay_replay (log : List (Writes K V)) :
    replay (replay content log) log = replay content log := by
  funext key
  by_cases written : ∃ batch ∈ log, key ∈ keys batch
  · obtain ⟨batch, member, inBatch⟩ := written
    exact replay_written _ _ member inBatch
  · apply replay_unwritten
    exact fun batch member inBatch => written ⟨batch, member, inBatch⟩

/-- If the end of a log leads from some content to what the log leads to, so does more of it. -/
theorem replay_earlier (first : K → Option V) (front : List (Writes K V))
    {middle back : List (Writes K V)}
    (ends : replay content back = replay first (front ++ (middle ++ back))) :
    replay content (middle ++ back) = replay first (front ++ (middle ++ back)) := by
  funext key
  by_cases written : ∃ batch ∈ middle ++ back, key ∈ keys batch
  · obtain ⟨batch, member, inBatch⟩ := written
    rw [replay_append first]
    exact replay_written _ _ member inBatch
  · have unwritten : ∀ batch ∈ middle ++ back, key ∉ keys batch :=
      fun batch member inBatch => written ⟨batch, member, inBatch⟩
    rw [← ends, replay_unwritten content unwritten]
    exact (replay_unwritten content fun batch member =>
      unwritten batch (mem_append_right _ member)).symm

/-- A batch that shares no key with the later ones has the same effect at its
place in the log as behind all of them. -/
theorem replay_insert (before after : List (Writes K V)) (batch : Writes K V)
    (disjoint : ∀ later ∈ after, ∀ key ∈ keys batch, key ∉ keys later) :
    replay content (before ++ batch :: after) = apply (replay content (before ++ after)) batch := by
  funext key
  rw [replay_append, replay_cons, replay_append]
  by_cases written : key ∈ keys batch
  · rw [replay_unwritten _ fun later member => disjoint later member key written]
    exact apply_written _ _ written
  · rw [apply_unwritten _ written]
    exact replay_congr after (apply_unwritten _ written)

end Nsblast.Replay
