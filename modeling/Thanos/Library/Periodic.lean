import Mathlib.Algebra.Order.Group.Defs
import Mathlib.Data.List.Chain

/-!
# Periodic tasks

A periodic task keeps the time at which it was done last, and is done again when that is long
enough ago. `Timer` keeps the earlier times as well, so that what a program does over and over can
be stated of all its rounds.

* **Gaps** (`Gaps.fire`): a relation between the time at which a task was done last and the time at
  which it is done holds between any two of its rounds.
* **Rates** (`Gaps.nsmul_rounds_le`): a task whose rounds are at least a period apart has had no
  more rounds than the periods that have passed.
-/

namespace Thanos

/-- The times at which a task was done. -/
structure Timer (α : Type*) where
  /-- The last time, or the time at which the timer was set up. -/
  latest : α
  /-- The times before it, the last one first. -/
  earlier : List α

namespace Timer

variable {α β : Type*} {timer : Timer α} {r r' : α → α → Prop} {now : α}

/-- A timer that is set up. -/
def setUp (now : α) : Timer α :=
  ⟨now, []⟩

/-- The task is done. -/
def fire (timer : Timer α) (now : α) : Timer α :=
  ⟨now, timer.latest :: timer.earlier⟩

/-- How often the task was done. -/
def rounds (timer : Timer α) : ℕ :=
  timer.earlier.length

/-- The time at which the timer was set up. -/
def since (timer : Timer α) : α :=
  timer.earlier.getLastD timer.latest

@[simp]
theorem latest_fire : (timer.fire now).latest = now :=
  rfl

@[simp]
theorem rounds_fire : (timer.fire now).rounds = timer.rounds + 1 :=
  rfl

@[simp]
theorem since_fire : (timer.fire now).since = timer.since := by
  rcases timer with ⟨latest, _ | ⟨a, earlier⟩⟩
  · rfl
  · rw [since, fire, List.getLastD_cons]
    rfl

/-- A relation holds between any two times in a row. -/
def Gaps (r : α → α → Prop) (timer : Timer α) : Prop :=
  (timer.latest :: timer.earlier).IsChain fun later earlier => r earlier later

theorem gaps_setUp : Gaps r (setUp now) :=
  .singleton now

/-- **Gaps.** -/
theorem Gaps.fire (h : Gaps r timer) (hnow : r timer.latest now) : Gaps r (timer.fire now) :=
  .cons_cons hnow h

theorem Gaps.mono (h : Gaps r timer) (hle : ∀ a b, r a b → r' a b) : Gaps r' timer :=
  List.IsChain.imp (fun later earlier => hle earlier later) h

/-- **Rates**, for the times that a clock reads. -/
theorem Gaps.nsmul_rounds_le [AddCommGroup β] [PartialOrder β] [IsOrderedAddMonoid β]
    {reading : α → β} {period : β}
    (h : Gaps (fun a b => period ≤ reading b - reading a) timer) :
    timer.rounds • period ≤ reading timer.latest - reading timer.since := by
  rcases timer with ⟨latest, earlier⟩
  induction earlier generalizing latest with
  | nil => simp [rounds, since]
  | cons a earlier ih =>
    obtain ⟨hgap, hrest⟩ := List.isChain_cons_cons.mp h
    have hrounds : (⟨latest, a :: earlier⟩ : Timer α).rounds =
        (⟨a, earlier⟩ : Timer α).rounds + 1 := rfl
    have hsince : (⟨latest, a :: earlier⟩ : Timer α).since = (⟨a, earlier⟩ : Timer α).since :=
      @since_fire _ ⟨a, earlier⟩ latest
    calc (⟨latest, a :: earlier⟩ : Timer α).rounds • period
        = (⟨a, earlier⟩ : Timer α).rounds • period + period := by rw [hrounds, succ_nsmul]
      _ ≤ (reading a - reading (⟨a, earlier⟩ : Timer α).since) + (reading latest - reading a) :=
          add_le_add (ih a hrest) hgap
      _ = reading latest - reading (⟨latest, a :: earlier⟩ : Timer α).since := by
          rw [hsince, add_comm, sub_add_sub_cancel]

end Timer

end Thanos
