import Thanos.Library.Levelling
import Thanos.Migration.Balance
import Thanos.SystemInfo.PlacementRuns

/-!
# Balancing CPUs terminates

* **Moves** (`cpuLoad_moved`): a move shifts one unit of load between two CPUs, and
  `cpuBody_cases` says everything an iteration can do.
* **Termination** (`balanceCpus_terminates_iff`): `balance_CPUs` and each of its loops
  terminate, and every successful migration changes `cpu_tid_map`, exactly when no iteration
  picks for a pinned thread the CPU on which the thread last ran. There `process::pin` reports
  success without moving the thread, and the loop repeats the iteration for ever.
-/

namespace Thanos

open Thanos.System

variable {R : Type} {T : Topology} {minTids src dst fuel : ℕ} {s : System R} {t tid : Pid}
  {c : Cpu} {ignoreIdle : Bool}

/-- Every listed thread is listed at its pinned CPU. -/
def ListedAtPinned (s : System R) : Prop :=
  ∀ t c, t ∈ s.cpuTidMap c → (s.proc t).pinnedProcessor = c

/-! ### One move -/

/-- A move keeps the threads listed at their pinned CPU. -/
theorem ListedAtPinned.movedToCpu (hs : ListedAtPinned s) :
    ListedAtPinned (movedToCpu T tid dst s) := by
  intro t c ht
  by_cases h : t = tid
  · subst h
    rw [movedToCpu_proc_self, Process.onCpu_pinnedProcessor]
    by_cases hold : (s.proc t).pinnedProcessor = dst
    · rw [mem_movedToCpu_of_eq hold] at ht
      exact hold.symm.trans (hs t c ht)
    · obtain rfl | ⟨ht, hne⟩ := (mem_movedToCpu_self hold).mp ht
      · rfl
      · exact absurd (hs t c ht).symm hne
  · rw [mem_movedToCpu_of_ne h] at ht
    rw [movedToCpu_proc_of_ne h]
    exact hs t c ht

variable [RealT R] {settings : Settings R} {perfTable : PerfTable R} {st u r : LoopState R}

theorem mem_tidsFromCpu :
    t ∈ s.tidsFromCpu ignoreIdle c ↔
      t ∈ s.cpuTidMap c ∧ (ignoreIdle = true → s.isIdle t = false) := by
  cases ignoreIdle with
  | false => simp [tidsFromCpu]
  | true => simp [tidsFromCpu, nonIdleTidsFromCpu]

theorem isIdle_movedToCpu : (movedToCpu T tid dst s).isIdle t = s.isIdle t := by
  by_cases h : t = tid
  · subst h
    simp [isIdle]
  · simp [isIdle, movedToCpu_proc_of_ne h]

/-- The members of the sets after a listed thread has moved. -/
theorem mem_tidsFromCpu_moved (hs : ListedAtPinned s) (htid : tid ∈ s.cpuTidMap src)
    (hne : dst ≠ src) :
    t ∈ (movedToCpu T tid dst s).tidsFromCpu ignoreIdle c ↔
      (t ≠ tid ∧ t ∈ s.tidsFromCpu ignoreIdle c) ∨
        (t = tid ∧ c = dst ∧ (ignoreIdle = true → s.isIdle t = false)) := by
  rw [mem_tidsFromCpu, mem_tidsFromCpu, isIdle_movedToCpu]
  by_cases h : t = tid
  · subst h
    have hold : (s.proc t).pinnedProcessor = src := hs t src htid
    rw [mem_movedToCpu_self (by rw [hold]; exact hne.symm)]
    have hnone : ¬ (t ∈ s.cpuTidMap c ∧ c ≠ (s.proc t).pinnedProcessor) :=
      fun h => h.2 (hs t c h.1).symm
    simp [hnone]
  · rw [mem_movedToCpu_of_ne h]
    simp [h]

/-- The number of threads on a CPU. -/
def cpuLoad (ignoreIdle : Bool) (s : System R) (c : Cpu) : ℕ :=
  (s.tidsFromCpu ignoreIdle c).size

/-- A move shifts one unit of load. -/
theorem cpuLoad_moved (hs : ListedAtPinned s) (htid : tid ∈ s.tidsFromCpu ignoreIdle src)
    (hne : dst ≠ src) :
    cpuLoad ignoreIdle (movedToCpu T tid dst s) =
      Levelling.shift (cpuLoad ignoreIdle s) src dst := by
  obtain ⟨hlist, hidle⟩ := mem_tidsFromCpu.mp htid
  have hmem : ∀ c t, t ∈ (movedToCpu T tid dst s).tidsFromCpu ignoreIdle c ↔ _ :=
    fun c t => mem_tidsFromCpu_moved hs hlist hne
  have honly : ∀ c, tid ∈ s.tidsFromCpu ignoreIdle c → c = src := fun c hc =>
    (hs tid c (mem_tidsFromCpu.mp hc).1).symm.trans (hs tid src hlist)
  funext c
  obtain rfl | hdst := eq_or_ne c dst
  · -- the destination gains the thread
    rw [Levelling.shift_dst, cpuLoad, cpuLoad,
      ← OrderedSet.size_insert fun h => hne (honly c h)]
    congr 1
    refine OrderedSet.ext_mem fun t => ?_
    rw [hmem, OrderedSet.mem_insert]
    constructor
    · rintro (⟨-, h⟩ | ⟨h, -⟩)
      · exact .inr h
      · exact .inl h
    · rintro (rfl | h)
      · exact .inr ⟨rfl, rfl, hidle⟩
      · exact .inl ⟨fun heq => hne (honly c (heq ▸ h)), h⟩
  · obtain rfl | hsrc := eq_or_ne c src
    · -- the source loses it
      rw [Levelling.shift_src hne, cpuLoad, cpuLoad, ← OrderedSet.size_erase htid]
      congr 1
      refine OrderedSet.ext_mem fun t => ?_
      rw [hmem, OrderedSet.mem_erase]
      simp [hdst]
    · rw [Levelling.shift_of_ne hsrc hdst, cpuLoad, cpuLoad]
      congr 1
      refine OrderedSet.ext_mem fun t => ?_
      rw [hmem]
      constructor
      · rintro (⟨-, h⟩ | ⟨-, h, -⟩)
        · exact h
        · exact absurd h hdst
      · exact fun h => .inl ⟨fun heq => hsrc (honly c (heq ▸ h)), h⟩

/-! ### One iteration -/

theorem balancingCell_migrate :
    (balancingCell settings perfTable (Level.ofCpus T ignoreIdle) s tid src dst).migrate T s =
      pinThreadToCpu T tid dst s := by
  rw [MigrationCell.migrate, balancingCell, forEach_cons]
  simp [SimpleMigrationCell.migrate, Level.ofCpus]

/-- An iteration picks for a pinned thread the CPU on which the thread last ran. -/
def PicksLastRun (T : Topology) (ignoreIdle : Bool) (minTids src : ℕ) (s : System R) : Prop :=
  ∃ tid dst, Chooses (Level.ofCpus T ignoreIdle) minTids src s tid dst ∧ tid ≠ 0 ∧
    dst = (s.proc tid).processor ∧ (s.proc tid).pinned = true

/-- What the search for a CPU picks is another CPU, and a pick in the sense of the greedy
rule. -/
theorem pick_of_chooses (hsrc : src ∈ T.cpus)
    (h : Chooses (Level.ofCpus T ignoreIdle) minTids src s tid dst) :
    tid ∈ s.tidsFromCpu ignoreIdle src ∧
      Levelling.Pick T.cpus.toFinset minTids (cpuLoad ignoreIdle s) src dst := by
  obtain ⟨htid, hdst⟩ := h
  have hmem : ∀ c, c ∈ T.cpusByDistance (T.cpuNodeMap src) ↔ c ∈ T.cpus.toFinset :=
    fun c => (T.mem_cpusByDistance (T.cpuNodeMap_mem src hsrc)).trans List.mem_toFinset.symm
  obtain ⟨hpick, hne, hrule⟩ := closestLessBusy_some hdst
  refine ⟨OrderedSet.mem_of_begin? htid, (hmem dst).mp hpick, hne, ?_⟩
  exact hrule.imp id fun ⟨hall, hlt⟩ => ⟨fun c hc => hall c ((hmem c).mpr hc), hlt⟩

theorem blocked_of_none (hsrc : src ∈ T.cpus)
    (h : (Level.ofCpus T ignoreIdle).closest s src minTids = none) :
    Levelling.Blocked T.cpus.toFinset minTids (cpuLoad ignoreIdle s) src := by
  intro c hc hne
  refine closestLessBusy_none h c ?_ hne
  exact (T.mem_cpusByDistance (T.cpuNodeMap_mem src hsrc)).mpr (List.mem_toFinset.mp hc)

/-- **One iteration for a CPU.** It picks nothing and leaves the loop; it picks the CPU on which
the thread last ran and goes on with nothing changed but the list of migrations; it moves the
thread; or the call fails and it leaves. -/
theorem cpuBody_cases (T : Topology) (settings : Settings R) (perfTable : PerfTable R)
    (hsrc : minTids < (s.tidsFromCpu ignoreIdle src).size)
    (migr : List (MigrationCell R)) :
    let body := moveBody T settings perfTable (Level.ofCpus T ignoreIdle) minTids src
    ((Level.ofCpus T ignoreIdle).closest s src minTids = none ∧ body (s, migr) = (false, s, migr)) ∨
    (PicksLastRun T ignoreIdle minTids src s ∧ ∃ migr', body (s, migr) = (true, s, migr')) ∨
    (¬ PicksLastRun T ignoreIdle minTids src s ∧ ∃ tid dst migr',
      Chooses (Level.ofCpus T ignoreIdle) minTids src s tid dst ∧
        body (s, migr) = (decide (minTids < cpuLoad ignoreIdle (movedToCpu T tid dst s) src),
          movedToCpu T tid dst s, migr')) ∨
    (∃ tid dst, Chooses (Level.ofCpus T ignoreIdle) minTids src s tid dst ∧
      (pinThreadToCpu T tid dst s).1 = false ∧ ¬ PicksLastRun T ignoreIdle minTids src s ∧
        ∃ s', (s' = s ∨ s' = s.refused) ∧ body (s, migr) = (false, s', migr)) := by
  intro body
  have habove : minTids < ((Level.ofCpus T ignoreIdle).tids (s, migr).1 src).size := hsrc
  obtain hnone | ⟨tid, dst, hchoose, hbody⟩ := moveBody_cases T settings perfTable habove
  · exact .inl hnone
  · refine .inr ?_
    simp only [balancingCell_migrate] at hbody
    -- the choice is unique, so that what is not so for it is not so at all
    have honly : ∀ h : PicksLastRun T ignoreIdle minTids src s,
        tid ≠ 0 ∧ dst = (s.proc tid).processor ∧ (s.proc tid).pinned = true := by
      rintro ⟨tid', dst', hchoose', h⟩
      obtain rfl : tid = tid' := Option.some.inj (hchoose.1.symm.trans hchoose'.1)
      obtain rfl : dst = dst' := Option.some.inj (hchoose.2.symm.trans hchoose'.2)
      exact h
    obtain ⟨htid, hdst, hpin, heq⟩ | ⟨htid, hshort, -, heq⟩ | ⟨htid, heq⟩ | ⟨-, hshort, -, heq⟩ :=
      pinThreadToCpu_cases T tid dst s
    · -- `pin` reports a success and the source stays above the threshold
      refine .inl ⟨⟨tid, dst, hchoose, htid, hdst, hpin⟩, ?_⟩
      rw [heq] at hbody
      obtain ⟨-, hbody⟩ | ⟨hfalse, -⟩ := hbody
      · have habove : minTids < ((Level.ofCpus T ignoreIdle).tids s src).size := hsrc
        simp only [habove, decide_true] at hbody
        exact ⟨_, hbody⟩
      · exact absurd hfalse (by simp)
    · refine .inr (.inl ⟨fun h => hshort (honly h).2, tid, dst, ?_⟩)
      rw [heq] at hbody
      obtain ⟨-, hbody⟩ | ⟨hfalse, -⟩ := hbody
      · exact ⟨_, hchoose, hbody⟩
      · exact absurd hfalse (by simp)
    · -- the thread 0 is never moved
      refine .inr (.inr ⟨tid, dst, hchoose, by rw [heq], fun h => (honly h).1 htid, s, .inl rfl,
        ?_⟩)
      rw [heq] at hbody
      obtain ⟨htrue, -⟩ | ⟨-, hbody⟩ := hbody
      · exact absurd htrue (by simp)
      · exact hbody
    · refine .inr (.inr ⟨tid, dst, hchoose, by rw [heq], fun h => hshort (honly h).2, s.refused,
        .inr rfl, ?_⟩)
      rw [heq] at hbody
      obtain ⟨htrue, -⟩ | ⟨-, hbody⟩ := hbody
      · exact absurd htrue (by simp)
      · exact hbody

/-- An iteration keeps the threads listed at their pinned CPU. -/
theorem ListedAtPinned.moveBody (hs : ListedAtPinned st.1)
    (hsrc : minTids < ((Level.ofCpus T ignoreIdle).tids st.1 src).size) :
    ListedAtPinned
      (moveBody T settings perfTable (Level.ofCpus T ignoreIdle) minTids src st).2.1 := by
  obtain ⟨-, heq⟩ | ⟨-, migr', heq⟩ | ⟨-, tid, dst, migr', -, heq⟩ |
      ⟨tid, dst, -, -, -, s', hs', heq⟩ := cpuBody_cases T settings perfTable hsrc st.2
  · rw [heq]
    exact hs
  · rw [heq]
    exact hs
  · rw [heq]
    exact hs.movedToCpu
  · rw [heq]
    obtain rfl | rfl := hs'
    · exact hs
    · exact hs

/-! ### Termination -/

/-- The threshold of `balance_CPUs`. -/
def minTidsPerCpu (T : Topology) (ignoreIdle : Bool) (s : System R) : ℕ :=
  max ((s.tids T ignoreIdle).size / T.numOfCpus) 1

/-- In the course of `balance_CPUs(ignore_idle)` an iteration of the loop for `src` starts in
`u`. -/
def CpuIteration (T : Topology) (settings : Settings R) (perfTable : PerfTable R)
    (ignoreIdle : Bool) (s : System R) (src : Cpu) (u : LoopState R) : Prop :=
  (s.tids T ignoreIdle).size ≠ 0 ∧
    Iteration T settings perfTable (Level.ofCpus T ignoreIdle) (minTidsPerCpu T ignoreIdle s)
      T.cpus (s, []) src u

/-- If the migration that an iteration attempts succeeds, it changes `cpu_tid_map`. -/
def ChangesMap (T : Topology) (settings : Settings R) (perfTable : PerfTable R)
    (ignoreIdle : Bool) (minTids src : ℕ) (s : System R) : Prop :=
  ∀ tid dst, Chooses (Level.ofCpus T ignoreIdle) minTids src s tid dst →
    let migration := balancingCell settings perfTable (Level.ofCpus T ignoreIdle) s tid src dst
    (migration.migrate T s).1 = true → (migration.migrate T s).2.cpuTidMap ≠ s.cpuTidMap

theorem balanceCpus_eq (htotal : (s.tids T ignoreIdle).size ≠ 0) :
    balanceCpus T settings perfTable fuel ignoreIdle s =
      sweep T settings perfTable (Level.ofCpus T ignoreIdle) (minTidsPerCpu T ignoreIdle s) fuel
        T.cpus (s, []) :=
  if_neg htotal

theorem cpuIteration_listed (hs : ListedAtPinned s)
    (h : CpuIteration T settings perfTable ignoreIdle s src u) : ListedAtPinned u.1 :=
  h.2.invariant (I := ListedAtPinned) hs fun _ _ _ hsrc hI => hI.moveBody hsrc

/-- An iteration that picks the CPU on which a pinned thread last ran is repeated for ever. -/
theorem not_terminates_of_picksLastRun
    (hsrc : minTids < (u.1.tidsFromCpu ignoreIdle src).size)
    (hpick : PicksLastRun T ignoreIdle minTids src u.1) :
    ¬ Terminates (moveBody T settings perfTable (Level.ofCpus T ignoreIdle) minTids src) u := by
  refine not_terminates_of_trap (fun t => t.1 = u.1) (fun t ht => ?_) rfl
  obtain ⟨s, migr⟩ := t
  obtain rfl : s = u.1 := ht
  obtain ⟨hnone, -⟩ | ⟨-, migr', heq⟩ | ⟨hno, -⟩ | ⟨tid, dst, -, -, hno, -⟩ :=
    cpuBody_cases T settings perfTable hsrc migr
  · obtain ⟨tid, dst, hchoose, -⟩ := hpick
    exact absurd hchoose.2 (by simp [hnone])
  · exact ⟨(u.1, migr'), heq, rfl⟩
  · exact absurd hpick hno
  · exact absurd hpick hno

/-- A loop that never picks the CPU on which a pinned thread last ran terminates: every
iteration that goes on has taken a thread from the source. -/
theorem terminates_of_not_picksLastRun (hs : ListedAtPinned u.1) (hsrc : src ∈ T.cpus)
    (habove : minTids < (u.1.tidsFromCpu ignoreIdle src).size)
    (hno : ∀ t,
      Reaches (moveBody T settings perfTable (Level.ofCpus T ignoreIdle) minTids src) u t →
        ¬ PicksLastRun T ignoreIdle minTids src t.1) :
    Terminates (moveBody T settings perfTable (Level.ofCpus T ignoreIdle) minTids src) u := by
  refine terminates_of_measure (fun t => cpuLoad ignoreIdle t.1 src) fun t v hut htv => ?_
  have ht : ListedAtPinned t.1 :=
    invariant_of_reaches hut hs habove fun _ hsrc hI => hI.moveBody hsrc
  have habove' : minTids < (t.1.tidsFromCpu ignoreIdle src).size := above_of_reaches hut habove
  have hcont : moveBody T settings perfTable (Level.ofCpus T ignoreIdle) minTids src (t.1, t.2) =
    (true, v) := htv
  obtain ⟨-, heq⟩ | ⟨hpick, -⟩ | ⟨-, tid, dst, migr', hchoose, heq⟩ |
      ⟨tid, dst, -, -, -, s', -, heq⟩ := cpuBody_cases T settings perfTable habove' t.2
  · simp [hcont] at heq
  · exact absurd hpick (hno t hut)
  · rw [hcont, Prod.mk.injEq] at heq
    obtain ⟨hmem, -, hne, -⟩ := pick_of_chooses hsrc hchoose
    have hload : 0 < cpuLoad ignoreIdle t.1 src := lt_of_le_of_lt (Nat.zero_le _) habove'
    change cpuLoad ignoreIdle v.1 src < cpuLoad ignoreIdle t.1 src
    rw [heq.2, cpuLoad_moved ht hmem hne, Levelling.shift_src hne]
    omega
  · simp [hcont] at heq

/-- A successful migration changes the map unless the thread last ran on the CPU picked. -/
theorem changesMap_of_not_picksLastRun (hs : ListedAtPinned s) (hsrc : src ∈ T.cpus)
    (hno : ¬ PicksLastRun T ignoreIdle minTids src s) :
    ChangesMap T settings perfTable ignoreIdle minTids src s := by
  intro tid dst hchoose migration hok heq
  obtain ⟨hmem, -, hne, -⟩ := pick_of_chooses hsrc hchoose
  rw [balancingCell_migrate] at hok heq
  obtain ⟨htid, hdst, hpin, -⟩ | ⟨-, -, -, hmoved⟩ | ⟨-, hfail⟩ | ⟨-, -, -, hfail⟩ :=
    pinThreadToCpu_cases T tid dst s
  · exact hno ⟨tid, dst, hchoose, htid, hdst, hpin⟩
  · -- the thread is gone from the set of the source
    obtain ⟨hlist, -⟩ := mem_tidsFromCpu.mp hmem
    have hold : (s.proc tid).pinnedProcessor ≠ dst := by
      rw [hs tid src hlist]
      exact hne.symm
    rw [hmoved] at heq
    rw [← heq] at hlist
    obtain h | ⟨-, h⟩ := (mem_movedToCpu_self hold).mp hlist
    · exact hne h.symm
    · exact h (by rw [heq] at hlist; exact (hs tid src hlist).symm)
  · simp [hfail] at hok
  · simp [hfail] at hok

/-- **Termination.** For threads listed at their pinned CPU, and whatever the affinity calls
answer: `balance_CPUs` and all its loops terminate and every successful migration changes
`cpu_tid_map` exactly when no iteration picks for a pinned thread the CPU on which the thread
last ran. -/
theorem balanceCpus_terminates_iff (T : Topology) (settings : Settings R)
    (perfTable : PerfTable R) (ignoreIdle : Bool) (s : System R) (hs : ListedAtPinned s) :
    ((∃ fuel r, balanceCpus T settings perfTable fuel ignoreIdle s = some r) ∧
      (∀ src u, CpuIteration T settings perfTable ignoreIdle s src u →
        Terminates (moveBody T settings perfTable (Level.ofCpus T ignoreIdle)
          (minTidsPerCpu T ignoreIdle s) src) u) ∧
      ∀ src u, CpuIteration T settings perfTable ignoreIdle s src u →
        ChangesMap T settings perfTable ignoreIdle (minTidsPerCpu T ignoreIdle s) src u.1) ↔
      ∀ src u, CpuIteration T settings perfTable ignoreIdle s src u →
        ¬ PicksLastRun T ignoreIdle (minTidsPerCpu T ignoreIdle s) src u.1 := by
  constructor
  · rintro ⟨-, hterm, -⟩ src u hu hpick
    exact not_terminates_of_picksLastRun hu.2.above.1 hpick (hterm src u hu)
  · intro hno
    have hterm : ∀ src u, CpuIteration T settings perfTable ignoreIdle s src u →
        Terminates (moveBody T settings perfTable (Level.ofCpus T ignoreIdle)
          (minTidsPerCpu T ignoreIdle s) src) u := by
      intro src u hu
      refine terminates_of_not_picksLastRun (cpuIteration_listed hs hu) hu.2.above.2 hu.2.above.1
        fun t hut => hno src t ⟨hu.1, ?_⟩
      obtain ⟨pre, post, fuel, st, hplaces, hst, hsrc, hreach⟩ := hu.2
      exact ⟨pre, post, fuel, st, hplaces, hst, hsrc, hreach.trans hut⟩
    refine ⟨?_, hterm, fun src u hu => ?_⟩
    · by_cases htotal : (s.tids T ignoreIdle).size = 0
      · exact ⟨0, (s, []), by simp [balanceCpus, htotal]⟩
      · obtain ⟨fuel, r, hr⟩ := sweep_terminates fun src u hu => hterm src u ⟨htotal, hu⟩
        exact ⟨fuel, r, (balanceCpus_eq htotal).trans hr⟩
    · exact changesMap_of_not_picksLastRun (cpuIteration_listed hs hu) hu.2.above.2 (hno src u hu)

/-- A node with two CPUs. -/
def twoCpus : Topology :=
  Topology.regular 1 2 Nat.one_pos Nat.two_pos

/-- Some threads have been bulk-pinned on CPU 0, on which they last ran. -/
def onCpuZero (pids : List Pid) : System ℚ :=
  run (perform twoCpus .cpu)
    (boot twoCpus 1 (fun _ => ⟨none, true, false, ⟨'R', 0, 0, 1⟩⟩)
      ⟨fun _ => true, 0, fun _ => {0, 1}, {0, 1}⟩) (pids.map .pinProcess)

theorem onCpuZero_coherent (pids : List Pid) (t : Pid) : CpuCoherent (onCpuZero pids) t :=
  cpuCoherent_run _ t

theorem onCpuZero_listed (pids : List Pid) : ListedAtPinned (onCpuZero pids) :=
  fun t c ht => ((onCpuZero_coherent pids t).listed c ht).2

/-- With two threads the only iteration is the first one: it moves thread 1 to CPU 1, after
which no CPU is above the threshold. -/
theorem iteration_onCpuZero_two {src : Cpu} {u : LoopState ℚ}
    (hu : CpuIteration twoCpus (Settings.default 1 64) emptyPerfTable true (onCpuZero [1, 2])
      src u) :
    u.1 = onCpuZero [1, 2] ∧
      ∀ tid dst, Chooses (Level.ofCpus twoCpus true) 1 src u.1 tid dst →
        src = 0 ∧ tid = 1 ∧ dst = 1 := by
  have hmin : minTidsPerCpu twoCpus true (onCpuZero [1, 2]) = 1 := by decide +kernel
  have hfirst : ∀ src ∈ twoCpus.cpus,
      1 < ((onCpuZero [1, 2]).tidsFromCpu true src).size → src = 0 := by decide +kernel
  have hsecond : ∀ src ∈ twoCpus.cpus, ¬
      1 < ((pinThreadToCpu twoCpus 1 1 (onCpuZero [1, 2])).2.tidsFromCpu true src).size := by
    decide +kernel
  have hchoose : ∀ tid dst, Chooses (Level.ofCpus twoCpus true) 1 0 (onCpuZero [1, 2]) tid dst →
      tid = 1 ∧ dst = 1 := by
    rintro tid dst ⟨htid, hdst⟩
    exact ⟨Option.some.inj (htid.symm.trans (by decide +kernel)),
      Option.some.inj (hdst.symm.trans (by decide +kernel))⟩
  obtain ⟨-, hu⟩ := hu
  rw [hmin] at hu
  have hstate : u.1 = onCpuZero [1, 2] ∨
      u.1 = (pinThreadToCpu twoCpus 1 1 (onCpuZero [1, 2])).2 := by
    refine hu.invariant (I := fun s => s = onCpuZero [1, 2] ∨
      s = (pinThreadToCpu twoCpus 1 1 (onCpuZero [1, 2])).2) (.inl rfl) ?_
    rintro src hsrc ⟨s, migr⟩ habove (rfl | rfl)
    · obtain rfl := hfirst src hsrc habove
      obtain ⟨-, heq⟩ | ⟨tid, dst, hch, hbody⟩ := moveBody_cases twoCpus
        (Settings.default 1 64) emptyPerfTable habove
      · exact .inl (by rw [heq])
      · obtain ⟨rfl, rfl⟩ := hchoose tid dst hch
        rw [balancingCell_migrate] at hbody
        obtain ⟨-, heq⟩ | ⟨-, heq⟩ := hbody
        · exact .inr (by rw [heq])
        · exact .inr (by rw [heq])
    · exact absurd habove (hsecond src hsrc)
  obtain ⟨habove, hsrc⟩ := hu.above
  obtain hs | hs := hstate
  · refine ⟨hs, fun tid dst hch => ?_⟩
    rw [hs] at habove hch
    obtain rfl := hfirst src hsrc habove
    exact ⟨rfl, hchoose tid dst hch⟩
  · rw [hs] at habove
    exact absurd habove (hsecond src hsrc)

/-- With two threads the loops are left. -/
theorem balanceCpus_terminates_iff_two :
    ∃ fuel r, balanceCpus twoCpus (Settings.default 1 64) emptyPerfTable fuel true
      (onCpuZero [1, 2]) = some r := by
  refine ((balanceCpus_terminates_iff twoCpus (Settings.default 1 64) emptyPerfTable true
    (onCpuZero [1, 2]) (onCpuZero_listed [1, 2])).mpr fun src u hu => ?_).1
  have hmin : minTidsPerCpu twoCpus true (onCpuZero [1, 2]) = 1 := by decide +kernel
  obtain ⟨hstate, hchoose⟩ := iteration_onCpuZero_two hu
  rw [hmin]
  rintro ⟨tid, dst, hch, -, hlast, -⟩
  obtain ⟨-, rfl, rfl⟩ := hchoose tid dst hch
  rw [hstate] at hlast
  exact absurd hlast (by decide +kernel)

/-- Three threads on CPU 0: two are moved to CPU 1, and there the loop keeps choosing CPU 0 for
the first of them. -/
theorem not_balanceCpus_terminates :
    ¬ ∀ (T : Topology) (settings : Settings ℚ) (perfTable : PerfTable ℚ) (ignoreIdle : Bool)
      (s : System ℚ), (∀ t, CpuCoherent s t) →
      ∃ fuel r, balanceCpus T settings perfTable fuel ignoreIdle s = some r := by
  intro h
  obtain ⟨fuel, r, hr⟩ := h twoCpus (Settings.default 1 64) emptyPerfTable true
    (onCpuZero [1, 2, 3]) (onCpuZero_coherent [1, 2, 3])
  have htotal : ((onCpuZero [1, 2, 3]).tids twoCpus true).size ≠ 0 := by decide +kernel
  have hmin : minTidsPerCpu twoCpus true (onCpuZero [1, 2, 3]) = 1 := by decide +kernel
  rw [balanceCpus_eq htotal, hmin] at hr
  have hzero : (sweep twoCpus (Settings.default 1 64) emptyPerfTable (Level.ofCpus twoCpus true)
      1 2 [0] (onCpuZero [1, 2, 3], [])).any (fun st =>
        decide (1 < (st.1.tidsFromCpu true 1).size ∧
          (st.1.tidsFromCpu true 1).begin? = some 1 ∧
          closestLessBusyCpu twoCpus st.1 1 1 true = some 0 ∧
          0 = (st.1.proc 1).processor ∧ (st.1.proc 1).pinned = true)) = true := by decide +kernel
  obtain ⟨st, hst, hat⟩ := (Option.any_eq_true _ _).mp hzero
  obtain ⟨habove, htid, hdst, hlast, hpin⟩ := of_decide_eq_true hat
  have hiter : Iteration twoCpus (Settings.default 1 64) emptyPerfTable
      (Level.ofCpus twoCpus true) 1 twoCpus.cpus (onCpuZero [1, 2, 3], []) 1 (st.1, []) :=
    ⟨[0], [], 2, st, rfl, hst, habove, .refl⟩
  have hpick : PicksLastRun twoCpus true 1 1 st.1 :=
    ⟨1, 0, ⟨htid, hdst⟩, one_ne_zero, hlast, hpin⟩
  exact not_terminates_of_picksLastRun (u := (st.1, [])) habove hpick (hiter.terminates hr)

end Thanos
