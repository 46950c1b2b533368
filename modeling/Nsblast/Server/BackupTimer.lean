import Mathlib.Data.List.Chain
import Nsblast.Library.Outcome

/-!
# The hours of the backups

`BackupMgr` makes a backup every so many hours. When one is made, `getNextHours` reads the
clock and gives the whole hour at which the next one is due, and `startTimer` waits for it.

The hour is put together from a time of day and a date. The time of day is that of the
moment some hours ahead, but the date is today's. In the last hours of a day the result is
an hour that has passed: the assertion fails, or the timer does not wait and backups follow
one upon the other.

Times are seconds from the beginning of a day, and durations have no limit.
-/

namespace Nsblast.BackupMgr

open Run

def hour : Nat := 3600

def day : Nat := 24 * hour

/-- `ptime`, from a date and a duration that may exceed a day. -/
def ptime (date duration : Nat) : Nat := date * day + duration

/-- The time that `getNextHours` computes. -/
def nextHours (numHours now : Nat) : Nat :=
  let ahead := ptime (now / day) (now % day + numHours * hour)
  let timeOfDay := ahead % day
  let timeOfDay := timeOfDay - timeOfDay % 60
  let timeOfDay := timeOfDay - timeOfDay / 60 % 60 * 60
  ptime (now / day) timeOfDay

/-- `getNextHours`. -/
def getNextHours (numHours now : Nat) : Run Nat := do
  assert (0 < numHours)
  assert (now < nextHours numHours now)
  .ok (nextHours numHours now)

/-- A time to wait for: a whole hour that is still to come, and not too far ahead. -/
def IsNext (numHours now next : Nat) : Prop :=
  next % hour = 0 ∧ now < next ∧ next ≤ now + numHours * hour

/-- The hour of the day some hours ahead is a later one than now. -/
def SameDay (numHours now : Nat) : Prop := now / hour % 24 < (now / hour % 24 + numHours) % 24

/-- The whole hour of today that has the time of day some hours ahead. -/
theorem nextHours_eq (numHours now : Nat) :
    nextHours numHours now = now / day * day + (now / hour % 24 + numHours) % 24 * hour := by
  simp only [nextHours, ptime, day, hour]
  omega

theorem isNext_iff (numHours now : Nat) :
    IsNext numHours now (nextHours numHours now) ↔ SameDay numHours now := by
  have ahead : (now / hour % 24 + numHours) % 24 ≤ now / hour % 24 + numHours := Nat.mod_le _ _
  rw [IsNext, SameDay, nextHours_eq]
  generalize (now / hour % 24 + numHours) % 24 = next at ahead
  simp only [day, hour] at ahead ⊢
  omega

theorem getNextHours_iff (numHours now : Nat) :
    (∃ next, getNextHours numHours now = .ok next ∧ IsNext numHours now next) ↔
      SameDay numHours now := by
  rw [← isNext_iff]
  constructor
  · rintro ⟨next, returned, isNext⟩
    simp only [getNextHours, bind_eq_ok] at returned
    obtain ⟨_, _, _, _, same⟩ := returned
    cases same
    exact isNext
  · intro isNext
    have some : 0 < numHours := by
      obtain ⟨_, later, near⟩ := isNext
      by_contra none
      simp only [Nat.eq_zero_of_not_pos none, Nat.zero_mul] at later near
      omega
    refine ⟨_, ?_, isNext⟩
    rw [getNextHours, assert_of some, bind_ok, assert_of isNext.2.1, bind_ok]

/-- A backup: when the timer fired, and when the clock was read after it. -/
structure Backup where
  fired : Nat
  asked : Nat
  inOrder : fired ≤ asked

/-- The timer of a backup was set when the one before was made. -/
def Follows (numHours : Nat) (first second : Backup) : Prop :=
  nextHours numHours first.asked ≤ second.fired

/-- The timer fired in an earlier hour. -/
def Earlier (first second : Backup) : Prop := first.fired / hour < second.fired / hour

instance : Trans Earlier Earlier Earlier := ⟨Nat.lt_trans⟩

theorem hours_pairwise {numHours : Nat} {backups : List Backup}
    (chain : backups.IsChain (Follows numHours))
    (sameDay : ∀ backup ∈ backups, SameDay numHours backup.asked) :
    backups.Pairwise Earlier := by
  have step : backups.IsChain Earlier := by
    refine chain.imp_of_mem_imp ?_
    intro first second member _ follows
    obtain ⟨whole, later, _⟩ := (isNext_iff _ _).mpr (sameDay first member)
    have inOrder := first.inOrder
    simp only [Earlier, Follows, hour] at follows whole later ⊢
    omega
  exact step.pairwise

/-- The time of the next backup is right exactly if it is one of the same day, and as long
as that is so, no two backups are made in one hour. -/
theorem next_backup_iff (numHours : Nat) :
    (∀ now, (∃ next, getNextHours numHours now = .ok next ∧ IsNext numHours now next) ↔
        SameDay numHours now) ∧
      ∀ backups : List Backup, backups.IsChain (Follows numHours) →
        (∀ backup ∈ backups, SameDay numHours backup.asked) →
        backups.Pairwise Earlier :=
  ⟨getNextHours_iff numHours, fun _ => hours_pairwise⟩

/-- At half past eleven in the evening, the next hour is the midnight before. -/
theorem late_backup_in_past : getNextHours 1 (23 * hour + 1800) = .aborted ∧
    nextHours 1 (23 * hour + 1800) = 0 := ⟨rfl, rfl⟩

end Nsblast.BackupMgr
