import Thanos.Library.Attempts
import Thanos.Library.Periodic
import Thanos.Strategies.ThreadMigrations

/-!
# The timers of the main loop

An iteration of the main loop does each of its tasks if the time since it was done last is more
than its period; the period of the thread migrations is changed by IMAR2. The time is set before
the task is done, and an exception ends the iteration but not the loop.

* **Spacing** (`kept_of_run`): the rounds of a task are more than a period apart, whatever throws,
  and whatever the clock shows.
* **Rate** (`totalMigrations_le_of_run`): so the threads are migrated at a bounded rate.
* **Punctuality** (`punctual_of_run`): if nothing throws, no task is put off.
-/

namespace Thanos

variable {R : Type} [RealT R]

/-- `utils::time::time_until`. The times are in nanoseconds. -/
def timeUntil (start stop : ℤ) : R :=
  RealT.ofRat (stop - start : ℤ) / RealT.ofRat 1000000000

/-- `sys_time_values`. -/
def sysTimeValues : List ℕ := [1, 2, 4]

/-- `thread::get_time_value`. -/
def getTimeValue (minTime : R) (currentTimeValue : ℕ) : R :=
  RealT.ofRat (sysTimeValues.getD currentTimeValue 0 : ℕ) * minTime

namespace Driver

/-- What the main loop does from time to time. -/
inductive Task
  | updateProc
  | updateMem
  | readSamples
  | exportInfo
  | balance
  | migrateThreads
  | migrateMemory
  deriving DecidableEq

/-- The order of an iteration. -/
def Task.all : List Task :=
  [.updateProc, .updateMem, .readSamples, .exportInfo, .balance, .migrateThreads, .migrateMemory]

/-- The periods, and what is switched off. -/
structure Options (R : Type) where
  secsUpdateProc : R
  secsUpdateMem : R
  updateMem : Bool
  secsBetweenSamples : R
  secsBetweenChartInfo : R
  secsBetweenBalance : R
  /-- `thread::min_time_between_migrations`. -/
  threadMinTime : R
  /-- `memory::min_time_between_migrations`. -/
  memoryMinTime : R

/-- The period of a task. -/
def Options.secs (options : Options R) (currentTimeValue : ℕ) : Task → R
  | .updateProc => options.secsUpdateProc
  | .updateMem => options.secsUpdateMem
  | .readSamples => options.secsBetweenSamples
  | .exportInfo => options.secsBetweenChartInfo
  | .balance => options.secsBetweenBalance
  | .migrateThreads => getTimeValue options.threadMinTime currentTimeValue
  | .migrateMemory => options.memoryMinTime

/-- The main loop may do the task at all. -/
def Options.enabled (options : Options R) (settings : Settings R) : Task → Bool
  | .updateMem => options.updateMem
  | .balance => decide (0 < settings.maxThreadMigrations)
  | _ => true

/-- What an attempt at a task comes to. -/
inductive Outcome
  | completes
  /-- An exception before the time is looked at, or before it is set. -/
  | throwsBefore
  /-- An exception after the time is set. -/
  | throwsFirst
  /-- An exception after the task is done. -/
  | throwsAfter
  deriving DecidableEq

/-- What a call of `balance` reads. -/
structure BalanceView (R : Type) where
  perfTable : PerfTable R
  fuel : ℕ
  /-- `all_children` of the child process. -/
  children : List Pid

/-- What an iteration reads. -/
structure Iteration (R : Type) where
  currentTime : ℤ
  outcome : Task → Outcome
  /-- What the update of the processes does to their places. -/
  ops : List (Op R)
  /-- Some processes are removed by it. -/
  removed : Bool
  onUpdate : BalanceView R
  onTime : BalanceView R
  inputs : Strategy.Inputs R

end Driver

/-- The timers, and what the strategy for threads keeps. -/
structure Driver (R : Type) where
  /-- `last_proc_update` .. `last_cpu_balance` and `last_mig_time` for threads and memory. -/
  timers : Driver.Task → Timer ℤ
  threads : Imar2.State R

namespace Driver

variable (T : Topology) (settings : Settings R) (undoThreshold : R) (strategy : Strategy)
  (options : Options R) (it : Iteration R) (d : Driver R) (task : Task)

/-- The time has come for a task. -/
def Due : Prop :=
  options.enabled settings task = true ∧
    options.secs d.threads.currentTimeValue task <
      timeUntil (d.timers task).latest it.currentTime

instance : Decidable (Due settings options it d task) :=
  inferInstanceAs (Decidable (_ ∧ _))

/-- The time is set. -/
def stamp : Driver R :=
  { d with timers := Function.update d.timers task ((d.timers task).fire it.currentTime) }

/-- The threads are at other places. -/
def place (s : System R) : Driver R :=
  { d with threads := { d.threads with migration := { d.threads.migration with system := s } } }

/-- `migration::balance`, which ignores idle threads. The result is `none` when the fuel of
a loop runs out. -/
def balance (view : BalanceView R) : Option (Driver R) :=
  (strategy.balance T settings view.perfTable view.fuel true view.children
    d.threads.migration.system).map fun r => place d r.1

/-- The processes are updated, and balanced again if some are gone. -/
def updateProc : Option (Driver R) :=
  let d := place d
    (run (System.perform T strategy.granularity) d.threads.migration.system it.ops)
  -- `balance` is called again for the places that the ended threads leave
  if 0 < settings.maxThreadMigrations ∧ it.removed = true then
    balance T settings strategy d it.onUpdate
  else some d

/-- `thread::perform_strategy`. -/
def performStrategy : Driver R :=
  if 0 < settings.maxThreadMigrations then
    { d with threads := strategy.migrate T settings undoThreshold it.inputs d.threads }
  else d

/-- What a task does to the places and the accounts of the threads. -/
def perform : Task → Option (Driver R)
  | .updateProc => updateProc T settings strategy it d
  | .balance => balance T settings strategy d it.onTime
  | .migrateThreads => some (performStrategy T settings undoThreshold strategy it d)
  | .updateMem | .readSamples | .exportInfo | .migrateMemory => some d

/-- An attempt at a task, and whether the iteration goes on. A loop of `balance` that does not end
is the end of it. -/
def attempt : Bool × Driver R :=
  -- an exception leaves the body of the loop, and so the tasks after this one
  match it.outcome task with
  | .throwsBefore => (false, d)
  | outcome =>
    if Due settings options it d task then
      -- the time is set first: a task that throws is not tried again before its period
      let d := stamp it d task
      if outcome = .throwsFirst then (false, d)
      else
        match perform T settings undoThreshold strategy it d task with
        | none => (false, d)
        | some d => (decide (outcome = .completes), d)
    else (true, d)

/-- An iteration, and whether nothing was thrown. -/
def iterate : Bool × Driver R :=
  attemptAll (attempt T settings undoThreshold strategy options it) d Task.all

/-- The main loop when it begins. -/
def start (since : Task → ℤ) (root : Pid) (infos : Pid → ProcInfo R) (kernel : Kernel) : Driver R :=
  ⟨fun task => .setUp (since task),
    ⟨⟨.boot T root infos kernel, [], 0, 0⟩, performanceInvalidValue, 0⟩⟩

/-- Two times that are more than a period of the task apart. -/
def Options.Apart (earlier later : ℤ) : Prop :=
  ∃ v < 3, options.secs v task < timeUntil earlier later

variable {T settings undoThreshold strategy options it d task} {d' : Driver R} {since : Task → ℤ}
  {root : Pid} {infos : Pid → ProcInfo R} {kernel : Kernel} {n : ℕ}

/-! ### Steps -/

omit [RealT R] in
@[simp]
theorem timers_stamp_self :
    (stamp it d task).timers task = (d.timers task).fire it.currentTime :=
  Function.update_self _ _ _

omit [RealT R] in
@[simp]
theorem timers_stamp_of_ne {task' : Task} (h : task' ≠ task) :
    (stamp it d task).timers task' = d.timers task' :=
  Function.update_of_ne h _ _

/-- An attempt fails before the time is set, or is not due, or the time is set. -/
theorem attempt_cases (it : Iteration R) (d : Driver R) (task : Task) :
    attempt T settings undoThreshold strategy options it d task = (false, d) ∨
      ¬ Due settings options it d task ∧
        attempt T settings undoThreshold strategy options it d task = (true, d) ∨
      Due settings options it d task ∧
        (attempt T settings undoThreshold strategy options it d task =
            (false, stamp it d task) ∨
          ∃ ok d', perform T settings undoThreshold strategy it (stamp it d task) task = some d' ∧
            attempt T settings undoThreshold strategy options it d task = (ok, d')) := by
  rw [attempt]
  split
  · exact .inl rfl
  · rename_i outcome hbefore
    split_ifs with hdue hfirst
    · exact .inr (.inr ⟨hdue, .inl rfl⟩)
    · dsimp only
      split
      · exact .inr (.inr ⟨hdue, .inl rfl⟩)
      · rename_i d' hd'
        exact .inr (.inr ⟨hdue, .inr ⟨_, d', hd', rfl⟩⟩)
    · exact .inr (.inl ⟨hdue, rfl⟩)

theorem balance_cases {view : BalanceView R} (h : balance T settings strategy d view = some d') :
    ∃ r, strategy.balance T settings view.perfTable view.fuel true view.children
      d.threads.migration.system = some r ∧ d' = place d r.1 := by
  obtain ⟨r, hr, rfl⟩ := Option.map_eq_some_iff.mp h
  exact ⟨r, hr, rfl⟩

/-- A task that is done leaves the timers alone, and all but the migration of threads leave its
period alone. -/
theorem perform_frame
    (h : perform T settings undoThreshold strategy it d task = some d') :
    d'.timers = d.timers ∧ (task ≠ .migrateThreads →
      d'.threads.currentTimeValue = d.threads.currentTimeValue) := by
  cases task with
  | updateProc =>
    rw [perform, updateProc] at h
    split_ifs at h with hagain
    · obtain ⟨r, -, rfl⟩ := balance_cases h
      exact ⟨rfl, fun _ => rfl⟩
    · obtain rfl := Option.some.inj h
      exact ⟨rfl, fun _ => rfl⟩
  | balance =>
    obtain ⟨r, -, rfl⟩ := balance_cases h
    exact ⟨rfl, fun _ => rfl⟩
  | migrateThreads =>
    obtain rfl := Option.some.inj h
    refine ⟨?_, fun hne => absurd rfl hne⟩
    rw [performStrategy]
    split_ifs <;> rfl
  | updateMem | readSamples | exportInfo | migrateMemory =>
    obtain rfl := Option.some.inj h
    exact ⟨rfl, fun _ => rfl⟩

/-- **Refinement.** A task calls `migrate` at most once, and only to migrate threads. -/
theorem reachable_perform
    (hn : Strategy.Reachable T settings undoThreshold strategy root infos kernel d.threads n)
    (h : perform T settings undoThreshold strategy it d task = some d') :
    ∃ m, Strategy.Reachable T settings undoThreshold strategy root infos kernel d'.threads m ∧
      m ≤ n + if task = .migrateThreads then 1 else 0 := by
  have hops : ∀ ops : List (Op R), Strategy.Reachable T settings undoThreshold strategy root infos
      kernel (place d (run (System.perform T strategy.granularity)
        d.threads.migration.system ops)).threads n := by
    intro ops
    -- an update of the processes is one step of the strategies for each of its operations
    induction ops using List.reverseRecOn with
    | nil => exact hn
    | append_singleton ops op ih =>
      rw [run_concat]
      exact .update op ih
  cases task with
  | updateProc =>
    rw [perform, updateProc] at h
    split_ifs at h with hagain
    · obtain ⟨r, hr, rfl⟩ := balance_cases h
      exact ⟨n, .balance (hops it.ops) hr, le_rfl⟩
    · obtain rfl := Option.some.inj h
      exact ⟨n, hops it.ops, le_rfl⟩
  | balance =>
    obtain ⟨r, hr, rfl⟩ := balance_cases h
    exact ⟨n, .balance hn hr, le_rfl⟩
  | migrateThreads =>
    obtain rfl := Option.some.inj h
    rw [if_pos rfl, performStrategy]
    split_ifs with hmax
    · exact ⟨n + 1, .migrate it.inputs hn, le_rfl⟩
    · exact ⟨n, hn, Nat.le_succ n⟩
  | updateMem | readSamples | exportInfo | migrateMemory =>
    obtain rfl := Option.some.inj h
    exact ⟨n, hn, le_rfl⟩

/-! ### Runs -/

/-- What the main loop keeps. -/
structure Kept (T : Topology) (settings : Settings R) (undoThreshold : R) (strategy : Strategy)
    (options : Options R) (since : Task → ℤ) (root : Pid) (infos : Pid → ProcInfo R)
    (kernel : Kernel) (d : Driver R) : Prop where
  /-- The strategy is called in rounds only. -/
  reachable : ∃ n, Strategy.Reachable T settings undoThreshold strategy root infos kernel
    d.threads n ∧ n ≤ (d.timers .migrateThreads).rounds
  spaced : ∀ task, (d.timers task).Gaps (options.Apart task)
  since_eq : ∀ task, (d.timers task).since = since task

theorem Kept.attempt (h : Kept T settings undoThreshold strategy options since root infos kernel d)
    (it : Iteration R) (task : Task) :
    Kept T settings undoThreshold strategy options since root infos kernel
      (attempt T settings undoThreshold strategy options it d task).2 := by
  obtain ⟨n, hn, hrounds⟩ := h.reachable
  obtain heq | ⟨-, heq⟩ | ⟨hdue, hcases⟩ := attempt_cases (T := T) it d task
  · rwa [heq]
  · rwa [heq]
  · -- the task is due: its period is that of an entry of `sys_time_values`
    have hv : d.threads.currentTimeValue < 3 :=
      Nat.lt_succ_of_le (Strategy.sound_of_reachable hn).period_le
    have hspaced : ∀ task', ((stamp it d task).timers task').Gaps (options.Apart task') := by
      intro task'
      by_cases htask : task' = task
      · subst htask
        rw [timers_stamp_self]
        exact (h.spaced task').fire ⟨_, hv, hdue.2⟩
      · rw [timers_stamp_of_ne htask]
        exact h.spaced task'
    have hsince : ∀ task', ((stamp it d task).timers task').since = since task' := by
      intro task'
      by_cases htask : task' = task
      · subst htask
        rw [timers_stamp_self, Timer.since_fire]
        exact h.since_eq task'
      · rw [timers_stamp_of_ne htask]
        exact h.since_eq task'
    have hfired : n + (if task = .migrateThreads then 1 else 0) ≤
        ((stamp it d task).timers .migrateThreads).rounds := by
      split_ifs with htask
      · subst htask
        rw [timers_stamp_self, Timer.rounds_fire]
        exact Nat.add_le_add_right hrounds 1
      · rw [timers_stamp_of_ne (Ne.symm htask)]
        exact hrounds
    obtain heq | ⟨ok, d', hd', heq⟩ := hcases
    · rw [heq]
      exact ⟨⟨n, hn, (Nat.le_add_right _ _).trans hfired⟩, hspaced, hsince⟩
    · have htimers := (perform_frame hd').1
      obtain ⟨m, hm, hle⟩ := reachable_perform (d := stamp it d task) hn hd'
      rw [heq]
      exact ⟨⟨m, hm, htimers ▸ hle.trans hfired⟩, htimers ▸ hspaced, htimers ▸ hsince⟩

/-- Also if an exception ends the iteration. -/
theorem Kept.iterate (h : Kept T settings undoThreshold strategy options since root infos kernel d)
    (it : Iteration R) :
    Kept T settings undoThreshold strategy options since root infos kernel
      (Driver.iterate T settings undoThreshold strategy options it d).2 :=
  attemptAll_invariant h fun _ task _ h => h.attempt it task

theorem kept_of_run (its : List (Iteration R)) :
    Kept T settings undoThreshold strategy options since root infos kernel
      (run (fun d it => (iterate T settings undoThreshold strategy options it d).2)
        (start T since root infos kernel) its) :=
  run_invariant ⟨⟨0, .start, le_rfl⟩, fun _ => Timer.gaps_setUp, fun _ => rfl⟩
    fun _ it h => h.iterate it

/-! ### Iterations in which nothing is thrown -/

/-- Only the migration of threads has a period that changes. -/
theorem secs_congr (htask : task ≠ .migrateThreads) {v v' : ℕ} :
    options.secs v task = options.secs v' task := by
  cases task <;> first | rfl | exact absurd rfl htask

/-- What the tasks done so far have changed, in an iteration that began in `d`. -/
structure Polled (settings : Settings R) (options : Options R) (it : Iteration R) (d : Driver R)
    (done : List Task) (d' : Driver R) : Prop where
  timers : ∀ task, d'.timers task =
    if task ∈ done ∧ Due settings options it d task then (d.timers task).fire it.currentTime
    else d.timers task
  period : .migrateThreads ∉ done ∨ ¬ Due settings options it d .migrateThreads →
    d'.threads.currentTimeValue = d.threads.currentTimeValue

/-- **Polling.** If nothing is thrown, exactly the tasks that are due are done. -/
theorem polled_iterate
    (h : (iterate T settings undoThreshold strategy options it d).1 = true) :
    Polled settings options it d Task.all
      (iterate T settings undoThreshold strategy options it d).2 := by
  refine attemptAll_processed ⟨fun task => (if_neg fun h => ?_).symm, fun _ => rfl⟩
    (fun done task rest t hall ht hok => ?_) h
  · exact List.not_mem_nil h.1
  · have hnotMem : task ∉ done := by
      have hnodup : (done ++ task :: rest).Nodup := hall ▸ by decide
      exact fun hmem => (List.nodup_append.mp hnodup).2.2 task hmem task List.mem_cons_self rfl
    have htimer : t.timers task = d.timers task := by
      rw [ht.timers, if_neg fun h => hnotMem h.1]
    -- the tasks before this one have not changed its timer, nor its period
    have hdue : Due settings options it t task ↔ Due settings options it d task := by
      rw [Due, Due, htimer]
      by_cases htask : task = .migrateThreads
      · rw [ht.period (.inl (htask ▸ hnotMem))]
      · rw [secs_congr htask]
    -- a task that is not this one, or not due, is where the tasks before it left it
    have hothers : ∀ task', (Due settings options it d task' → task' ≠ task) → t.timers task' =
        if task' ∈ done ++ [task] ∧ Due settings options it d task' then
          (d.timers task').fire it.currentTime
        else d.timers task' := by
      intro task' hne
      refine (ht.timers task').trans (if_congr (and_congr_left fun hdue' => ?_) rfl rfl)
      rw [List.mem_append, List.mem_singleton, or_iff_left (hne hdue')]
    have hbefore : .migrateThreads ∉ done ++ [task] ∨ ¬ Due settings options it d .migrateThreads →
        t.threads.currentTimeValue = d.threads.currentTimeValue := fun h =>
      ht.period (h.imp_left fun hnot hmem => hnot (List.mem_append_left _ hmem))
    obtain heq | ⟨hnot, heq⟩ | ⟨hnow, heq | ⟨ok, t', ht', heq⟩⟩ := attempt_cases (T := T) it t task
    · rw [heq] at hok
      cases hok
    · rw [heq]
      refine ⟨fun task' => hothers task' fun hdue' htask => hnot (hdue.mpr ?_), hbefore⟩
      exact htask ▸ hdue'
    · rw [heq] at hok
      cases hok
    · obtain ⟨htimers, hperiod⟩ := perform_frame ht'
      rw [heq]
      refine ⟨fun task' => ?_, fun h => ?_⟩
      · rw [htimers]
        by_cases htask : task' = task
        · subst htask
          rw [timers_stamp_self, htimer, if_pos ⟨List.mem_concat_self, hdue.mp hnow⟩]
        · rw [timers_stamp_of_ne htask]
          exact hothers task' fun _ => htask
      · refine (hperiod fun htask => ?_).trans (hbefore h)
        subst htask
        exact h.elim (fun hnot => hnot List.mem_concat_self) fun hnot => hnot (hdue.mp hnow)

/-! ### Exact times -/

section Exact

variable {settings : Settings ℚ} {undoThreshold : ℚ} {options : Options ℚ} {it : Iteration ℚ}
  {d : Driver ℚ} {infos : Pid → ProcInfo ℚ} {a b c : ℤ}

theorem timeUntil_eq :
    (timeUntil a b : ℚ) = (b : ℚ) / 1000000000 - (a : ℚ) / 1000000000 := by
  rw [← sub_div, ← Int.cast_sub]
  rfl

@[simp]
theorem timeUntil_self : (timeUntil a a : ℚ) = 0 := by
  rw [timeUntil_eq, sub_self]

theorem timeUntil_add : (timeUntil a b + timeUntil b c : ℚ) = timeUntil a c := by
  rw [timeUntil_eq, timeUntil_eq, timeUntil_eq, add_comm, sub_add_sub_cancel]

/-- No entry of `sys_time_values` makes the period shorter. -/
theorem le_getTimeValue {minTime : ℚ} (hmin : 0 ≤ minTime) {v : ℕ} (hv : v < 3) :
    minTime ≤ getTimeValue minTime v := by
  have hvalues : ∀ v < 3, 1 ≤ sysTimeValues.getD v 0 := by
    decide
  calc minTime = (1 : ℕ) * minTime := by rw [Nat.cast_one, one_mul]
    _ ≤ (sysTimeValues.getD v 0 : ℕ) * minTime :=
        mul_le_mul_of_nonneg_right (Nat.cast_le.mpr (hvalues v hv)) hmin

/-- **Rate.** The strategies that walk over threads do no more than `max_thread_migrations` for each
`min_time_between_migrations` that passes. -/
theorem totalMigrations_le_of_run (hwalks : strategy.Walks) (hmin : 0 ≤ options.threadMinTime)
    (its : List (Iteration ℚ)) (hd : d =
      run (fun d it => (iterate T settings undoThreshold strategy options it d).2)
        (.start T since root infos kernel) its) :
    d.threads.migration.totalMigrations * options.threadMinTime ≤
      settings.maxThreadMigrations *
        timeUntil (since .migrateThreads) (d.timers .migrateThreads).latest := by
  have hkept : Kept T settings undoThreshold strategy options since root infos kernel d :=
    hd ▸ kept_of_run its
  obtain ⟨n, hn, hrounds⟩ := hkept.reachable
  have htotal : d.threads.migration.totalMigrations ≤
      (d.timers .migrateThreads).rounds * settings.maxThreadMigrations :=
    ((Strategy.sound_of_reachable hn).total_le hwalks).trans (Nat.mul_le_mul_right _ hrounds)
  have hgaps : (d.timers .migrateThreads).Gaps fun a b : ℤ => options.threadMinTime ≤
      (b : ℚ) / 1000000000 - (a : ℚ) / 1000000000 :=
    (hkept.spaced .migrateThreads).mono fun a b ⟨v, hv, hlt⟩ =>
      timeUntil_eq ▸ (le_getTimeValue hmin hv).trans hlt.le
  -- the rounds are more than a period apart, and the period is at least the minimal time
  have hrate : (d.timers .migrateThreads).rounds * options.threadMinTime ≤
      timeUntil (since .migrateThreads) (d.timers .migrateThreads).latest := by
    rw [← nsmul_eq_mul, timeUntil_eq, ← hkept.since_eq]
    exact hgaps.nsmul_rounds_le
  calc d.threads.migration.totalMigrations * options.threadMinTime
      ≤ ((d.timers .migrateThreads).rounds * settings.maxThreadMigrations : ℕ) *
          options.threadMinTime := mul_le_mul_of_nonneg_right (Nat.cast_le.mpr htotal) hmin
    _ = settings.maxThreadMigrations *
          ((d.timers .migrateThreads).rounds * options.threadMinTime) := by
        rw [Nat.cast_mul, mul_right_comm, mul_comm]
    _ ≤ settings.maxThreadMigrations *
          timeUntil (since .migrateThreads) (d.timers .migrateThreads).latest :=
        mul_le_mul_of_nonneg_left hrate (Nat.cast_nonneg _)

/-- A thread strategy may be called every second, and the other tasks have their time, too. -/
def everySecond : Options ℚ :=
  ⟨1, 1, true, 1, 1, 1, 1, 1⟩

/-- An iteration in which nothing is thrown and no process is removed. -/
def quiet (currentTime : ℤ) : Iteration ℚ where
  currentTime := currentTime
  outcome := fun _ => .completes
  ops := []
  removed := false
  onUpdate := ⟨Strategy.foreignThread.perfTable, 1, []⟩
  onTime := ⟨Strategy.foreignThread.perfTable, 1, []⟩
  inputs := Strategy.foreignInputs

/-- The main loop with the thread of `foreignThread`, as in `beforeFirst`. -/
def foreignStart : Driver ℚ :=
  start Strategy.foreignThread.topology (fun _ => 0) 1
    (fun pid => ⟨none, decide (pid ≠ 1), false, ⟨'R', 0, 0, 1⟩⟩)
    ⟨fun _ => true, 0, fun _ => {0, 1}, {0, 1}⟩

/-- An iteration with LBMA. -/
def foreignIterate (d : Driver ℚ) (it : Iteration ℚ) : Bool × Driver ℚ :=
  iterate Strategy.foreignThread.topology Strategy.foreignThread.settings defaultUndoThreshold .lbma
    everySecond it d

/-- Two iterations. -/
def foreignRun : Driver ℚ :=
  run (fun d it => (foreignIterate d it).2) foreignStart [quiet 2000000000, quiet 3500000000]

/-- In each of them the thread is migrated. -/
theorem totalMigrations_le_of_run_foreignRun :
    foreignRun.threads.migration.totalMigrations = 2 ∧
      foreignRun.threads.migration.totalMigrations * everySecond.threadMinTime ≤
        Strategy.foreignThread.settings.maxThreadMigrations *
          timeUntil 0 (foreignRun.timers .migrateThreads).latest := by
  have htotal : foreignRun.threads.migration.totalMigrations = 2 := by
    decide +kernel
  have hmin : 0 ≤ everySecond.threadMinTime := by decide
  have hwalks : Strategy.lbma.Walks := trivial
  exact ⟨htotal, @totalMigrations_le_of_run _ _ (fun _ => 0) _ _ _ _ _ foreignRun _ hwalks hmin
    [quiet 2000000000, quiet 3500000000] rfl⟩

/-- No task that may be done is overdue. -/
def Fresh (settings : Settings ℚ) (options : Options ℚ) (now : ℤ) (d : Driver ℚ) : Prop :=
  ∀ task, options.enabled settings task = true →
    timeUntil (d.timers task).latest now ≤ options.secs d.threads.currentTimeValue task

/-- What an iteration that begins in `d` does to a task: either it does the task, when more than
the period in force has passed since the last round, but at most `slack` more, or it leaves the
task and its period alone, and the task is not overdue then. -/
def Punctual (settings : Settings ℚ) (options : Options ℚ) (slack : ℚ) (it : Iteration ℚ)
    (d d' : Driver ℚ) (task : Task) : Prop :=
  let waited := timeUntil (d.timers task).latest it.currentTime
  (d'.timers task = (d.timers task).fire it.currentTime ∧
      options.secs d.threads.currentTimeValue task < waited ∧
      waited ≤ options.secs d.threads.currentTimeValue task + slack) ∨
    d'.timers task = d.timers task ∧
      options.secs d'.threads.currentTimeValue task =
        options.secs d.threads.currentTimeValue task ∧
      (options.enabled settings task = true →
        waited ≤ options.secs d.threads.currentTimeValue task)

theorem Task.mem_all (task : Task) : task ∈ Task.all := by
  cases task <;> decide

/-- An iteration in which nothing is thrown leaves no task overdue, whatever it begins with. -/
theorem fresh_iterate (hpos : ∀ v task, 0 ≤ options.secs v task)
    (hok : (iterate T settings undoThreshold strategy options it d).1 = true) :
    Fresh settings options it.currentTime
      (Driver.iterate T settings undoThreshold strategy options it d).2 := by
  have hpolled := polled_iterate hok
  intro task henabled
  rw [hpolled.timers]
  by_cases hdue : Due settings options it d task
  · rw [if_pos ⟨task.mem_all, hdue⟩, Timer.latest_fire, timeUntil_self]
    exact hpos _ task
  · -- a task that is not due has waited for less than its period
    rw [if_neg fun h => hdue h.2]
    have hle := not_lt.mp fun hlt => hdue ⟨henabled, hlt⟩
    by_cases htask : task = .migrateThreads
    · subst htask
      rwa [hpolled.period (.inr hdue)]
    · rwa [secs_congr htask]

/-- If no task is overdue, each of them is done in time by an iteration a little later. -/
theorem Fresh.punctual {now : ℤ} {slack : ℚ} (h : Fresh settings options now d)
    (hslack : timeUntil now it.currentTime ≤ slack)
    (hok : (iterate T settings undoThreshold strategy options it d).1 = true) (task : Task) :
    Punctual settings options slack it d
      (iterate T settings undoThreshold strategy options it d).2 task := by
  have hpolled := polled_iterate hok
  have htimer := hpolled.timers task
  by_cases hdue : Due settings options it d task
  · rw [if_pos ⟨task.mem_all, hdue⟩] at htimer
    refine .inl ⟨htimer, hdue.2, ?_⟩
    -- it was not overdue in the iteration before, which was at most `slack` ago
    rw [← timeUntil_add (b := now)]
    exact add_le_add (h task hdue.1) hslack
  · rw [if_neg fun hdone => hdue hdone.2] at htimer
    refine .inr ⟨htimer, ?_, fun henabled => not_lt.mp fun hlt => hdue ⟨henabled, hlt⟩⟩
    by_cases htask : task = .migrateThreads
    · subst htask
      rw [hpolled.period (.inr hdue)]
    · exact secs_congr htask

/-- **Punctuality.** Iterations in which nothing is thrown and that are at most `slack` apart do
each task in time, from the second one on: the rounds of a task are more than the period in force
apart, but at most `slack` longer, and no task is overdue after any of the iterations. -/
theorem punctual_of_run {slack : ℚ} {first : Iteration ℚ} {its : List (Iteration ℚ)}
    (hpos : ∀ v task, 0 ≤ options.secs v task)
    (htimes : ((first :: its).map Iteration.currentTime).IsChain fun a b => timeUntil a b ≤ slack)
    (hok : StepsOfRun (fun d it => (iterate T settings undoThreshold strategy options it d).2)
      (fun d it => (iterate T settings undoThreshold strategy options it d).1 = true) d
      (first :: its)) :
    StepsOfRun (fun d it => (iterate T settings undoThreshold strategy options it d).2)
      (fun d it => ∀ task, Punctual settings options slack it d
        (iterate T settings undoThreshold strategy options it d).2 task)
      (iterate T settings undoThreshold strategy options first d).2 its := by
  induction its generalizing d first with
  | nil => exact stepsOfRun_nil
  | cons it its ih =>
    obtain ⟨hslack, hrest⟩ := List.isChain_cons_cons.mp htimes
    obtain ⟨hfirst, hoks⟩ := stepsOfRun_cons.mp hok
    have hfresh : Fresh settings options first.currentTime _ := fresh_iterate hpos hfirst
    exact stepsOfRun_cons.mpr ⟨hfresh.punctual hslack (stepsOfRun_cons.mp hoks).1, ih hrest hoks⟩

/-- The second iteration migrates the threads again, one and a half seconds after the first one,
which had waited for two seconds. -/
theorem punctual_of_run_foreignRun :
    (foreignRun.timers .migrateThreads).rounds = 2 ∧
      Punctual Strategy.foreignThread.settings everySecond (3 / 2) (quiet 3500000000)
        (foreignIterate foreignStart (quiet 2000000000)).2 foreignRun .migrateThreads := by
  have hpos : ∀ v task, 0 ≤ everySecond.secs v task := by
    intro v task
    cases task
    case migrateThreads => exact mul_nonneg (Nat.cast_nonneg _) zero_le_one
    all_goals exact zero_le_one
  have hok : (foreignIterate foreignStart (quiet 2000000000)).1 = true ∧
      (foreignIterate (foreignIterate foreignStart (quiet 2000000000)).2 (quiet 3500000000)).1 =
        true := by
    decide +kernel
  have hrounds : (foreignRun.timers .migrateThreads).rounds = 2 := by
    decide +kernel
  have htimes : ([quiet 2000000000, quiet 3500000000].map Iteration.currentTime).IsChain
      fun a b => (timeUntil a b : ℚ) ≤ 3 / 2 := by
    decide +kernel
  have hpunctual := punctual_of_run hpos htimes
    (stepsOfRun_cons.mpr ⟨hok.1, stepsOfRun_cons.mpr ⟨hok.2, stepsOfRun_nil⟩⟩)
  exact ⟨hrounds, (stepsOfRun_cons.mp hpunctual).1 .migrateThreads⟩

end Exact

end Driver

end Thanos
