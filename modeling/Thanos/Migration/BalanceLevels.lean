import Thanos.Library.Levelling
import Thanos.Migration.BalanceCpus

/-!
# Balancing CPUs levels their loads

The loads of the CPUs in the course of `balance_CPUs` are those of a greedy levelling round:

* **Loop** (`drain_of_doWhile`): a loop of `move_to_less_busy_cpu` that is left, and all of whose
  attempts succeed, drains its CPU.
* **Round** (`round_of_sweep`): so the loop over the CPUs is a round.
* **Levelling** (`balanceCpus_levels`): every CPU ends with the floor or the ceiling of the
  average number of counted threads, and the threads listed are the same as before.

That the loops are left excludes the iterations that repeat for ever.
-/

namespace Thanos

open Thanos.System

variable {R : Type} [RealT R] {T : Topology} {settings : Settings R} {perfTable : PerfTable R}
  {minTids src dst fuel : ℕ} {s s₀ : System R} {st r : LoopState R} {t tid : Pid} {c : Cpu}
  {ignoreIdle : Bool} {places : List Cpu} {migr : List (MigrationCell R)}

/-! ### The number of threads -/

omit [RealT R] in
theorem mem_foldl_insertMany {f : Node → OrderedSet Pid} {nodes : List Node}
    {acc : OrderedSet Pid} :
    t ∈ nodes.foldl (fun acc node => acc.insertMany (f node).toList) acc ↔
      t ∈ acc ∨ ∃ n ∈ nodes, t ∈ f n := by
  induction nodes generalizing acc with
  | nil => simp
  | cons node nodes ih =>
    rw [List.foldl_cons, ih, OrderedSet.mem_insertMany]
    simp only [List.exists_mem_cons_iff, OrderedSet.mem_def]
    tauto

theorem mem_tids : t ∈ s.tids T ignoreIdle ↔ ∃ n ∈ T.nodes, t ∈ s.tidsFromNode ignoreIdle n := by
  rw [tids, mem_foldl_insertMany]
  simp

/-- The two maps list the same threads, as far as they are counted. -/
def MapsAgree (T : Topology) (ignoreIdle : Bool) (s : System R) : Prop :=
  ∀ t, (∃ n ∈ T.nodes, t ∈ s.tidsFromNode ignoreIdle n) ↔
    ∃ c ∈ T.cpus, t ∈ s.tidsFromCpu ignoreIdle c

/-- The loads of the CPUs add up to the number of threads. -/
theorem sum_cpuLoad (hs : ListedAtPinned s) (hmaps : MapsAgree T ignoreIdle s) :
    ∑ c ∈ T.cpus.toFinset, cpuLoad ignoreIdle s c = (s.tids T ignoreIdle).size := by
  refine OrderedSet.sum_size (fun t => ?_) fun t c c' hc hc' => ?_
  · simp only [List.mem_toFinset]
    exact mem_tids.trans (hmaps t)
  · exact (hs t c (mem_tidsFromCpu.mp hc).1).symm.trans (hs t c' (mem_tidsFromCpu.mp hc').1)

/-! ### A loop drains a CPU -/

/-- Whatever migration an iteration attempts, it succeeds. -/
def AttemptSucceeds (T : Topology) (settings : Settings R) (perfTable : PerfTable R)
    (ignoreIdle : Bool) (minTids src : ℕ) (s : System R) : Prop :=
  ∀ tid dst, Chooses (Level.ofCpus T ignoreIdle) minTids src s tid dst →
    ((balancingCell settings perfTable (Level.ofCpus T ignoreIdle) s tid src dst).migrate T s).1 =
      true

/-- A loop that is left, and all of whose attempts succeed and move their thread, drains its
CPU. -/
theorem drain_of_doWhile (hs : ListedAtPinned s) (hsrc : src ∈ T.cpus)
    (habove : minTids < cpuLoad ignoreIdle s src)
    (hgood : ∀ u, Reaches (moveBody T settings perfTable (Level.ofCpus T ignoreIdle) minTids src)
        (s, migr) u →
      ¬ PicksLastRun T ignoreIdle minTids src u.1 ∧
        AttemptSucceeds T settings perfTable ignoreIdle minTids src u.1)
    (h : doWhile (moveBody T settings perfTable (Level.ofCpus T ignoreIdle) minTids src) fuel
      (s, migr) = some r) :
    Levelling.Drain T.cpus.toFinset minTids src (cpuLoad ignoreIdle s)
      (cpuLoad ignoreIdle r.1) := by
  induction fuel generalizing s migr with
  | zero => simp [doWhile] at h
  | succ fuel ih =>
    obtain ⟨hno, hok⟩ := hgood (s, migr) .refl
    obtain ⟨hnone, hbody⟩ | ⟨hpick, -⟩ | ⟨-, tid, dst, migr', hchoose, hbody⟩ |
        ⟨tid, dst, hchoose, hfail, -⟩ :=
      cpuBody_cases T settings perfTable habove migr
    · rw [doWhile_succ_of_leaves hbody] at h
      obtain rfl := Option.some.inj h
      exact .stop (.inr (blocked_of_none hsrc hnone))
    · exact absurd hpick hno
    · -- one unit is shifted, and the loop goes on above the threshold
      obtain ⟨hmem, hrule⟩ := pick_of_chooses hsrc hchoose
      have hload := cpuLoad_moved (T := T) hs hmem hrule.2.1
      refine .move habove hrule ?_
      rw [← hload]
      by_cases hmore : minTids < cpuLoad ignoreIdle (movedToCpu T tid dst s) src
      · rw [decide_eq_true hmore] at hbody
        rw [doWhile_succ_of_continues hbody] at h
        exact ih hs.movedToCpu hmore (fun u hu => hgood u (.head hbody hu)) h
      · rw [decide_eq_false hmore] at hbody
        rw [doWhile_succ_of_leaves hbody] at h
        obtain rfl := Option.some.inj h
        exact .stop (.inl (not_lt.mp hmore))
    · have htrue := hok tid dst hchoose
      rw [balancingCell_migrate, hfail] at htrue
      exact absurd htrue (by simp)

/-- A sweep over some of the CPUs that returns, and all of whose attempts succeed, is a round
over them. -/
theorem round_of_sweep (hs : ListedAtPinned s) (hplaces : ∀ src ∈ places, src ∈ T.cpus)
    (hgood : ∀ src u, Iteration T settings perfTable (Level.ofCpus T ignoreIdle) minTids places
        (s, migr) src u →
      ¬ PicksLastRun T ignoreIdle minTids src u.1 ∧
        AttemptSucceeds T settings perfTable ignoreIdle minTids src u.1)
    (h : sweep T settings perfTable (Level.ofCpus T ignoreIdle) minTids fuel places (s, migr) =
      some r) :
    Levelling.Round T.cpus.toFinset minTids places (cpuLoad ignoreIdle s)
      (cpuLoad ignoreIdle r.1) := by
  induction places generalizing s migr with
  | nil =>
    obtain rfl := Option.some.inj h
    exact .nil
  | cons src places ih =>
    have hrest := fun src' h => hplaces src' (List.mem_cons_of_mem src h)
    rw [← List.singleton_append, sweep_append] at h
    obtain ⟨⟨s', migr'⟩, hfirst, htail⟩ := Option.bind_eq_some_iff.mp h
    have hs' : ListedAtPinned s' :=
      invariant_of_sweep hs (fun _ _ _ hsrc hI => hI.moveBody hsrc) hfirst
    have hround := ih hs' hrest
      (fun src' u hu => hgood src' u (Iteration.of_rest hfirst hu)) htail
    refine .cons ?_ hround
    simp only [sweep] at hfirst
    split_ifs at hfirst with hle
    · obtain ⟨rfl, -⟩ := Prod.mk.inj (Option.some.inj hfirst)
      exact .stop (.inl hle)
    · obtain ⟨v, hv, hv'⟩ := Option.bind_eq_some_iff.mp hfirst
      obtain ⟨rfl, -⟩ := Prod.mk.inj (Option.some.inj hv')
      refine drain_of_doWhile hs (hplaces src List.mem_cons_self) (not_le.mp hle)
        (fun u hu => hgood src u ?_) hv
      exact ⟨[], places, 0, (s, migr), rfl, rfl, not_le.mp hle, hu⟩

/-! ### The threads stay listed -/

/-- The threads listed at the CPUs are the same in two states. -/
def SameListed (T : Topology) (s s' : System R) : Prop :=
  ∀ t, (∃ c ∈ T.cpus, t ∈ s'.cpuTidMap c) ↔ ∃ c ∈ T.cpus, t ∈ s.cpuTidMap c

omit [RealT R] in
/-- A move between CPUs keeps the threads listed. -/
theorem sameListed_moved (hs : ListedAtPinned s) (hsrc : src ∈ T.cpus) (hdst : dst ∈ T.cpus)
    (htid : tid ∈ s.cpuTidMap src) (hne : dst ≠ src) :
    SameListed T s (movedToCpu T tid dst s) := by
  intro t
  by_cases h : t = tid
  · subst h
    have hold : (s.proc t).pinnedProcessor ≠ dst := by
      rw [hs t src htid]
      exact hne.symm
    exact iff_of_true ⟨dst, hdst, (mem_movedToCpu_self hold).mpr (.inl rfl)⟩ ⟨src, hsrc, htid⟩
  · simp only [mem_movedToCpu_of_ne h]

/-- An iteration keeps the threads listed. -/
theorem SameListed.moveBody (h : SameListed T s₀ st.1) (hs : ListedAtPinned st.1)
    (hsrc : src ∈ T.cpus) (habove : minTids < cpuLoad ignoreIdle st.1 src) :
    SameListed T s₀
      (moveBody T settings perfTable (Level.ofCpus T ignoreIdle) minTids src st).2.1 := by
  obtain ⟨-, hbody⟩ | ⟨-, migr, hbody⟩ | ⟨-, tid, dst, migr, hchoose, hbody⟩ |
      ⟨tid, dst, -, -, -, s', hs', hbody⟩ :=
    cpuBody_cases T settings perfTable habove st.2
  · rw [hbody]
    exact h
  · rw [hbody]
    exact h
  · obtain ⟨hmem, hdst, hne, -⟩ := pick_of_chooses hsrc hchoose
    have hlisted := (mem_tidsFromCpu.mp hmem).1
    have hmoved := sameListed_moved (T := T) hs hsrc (List.mem_toFinset.mp hdst) hlisted hne
    rw [hbody]
    exact fun t => (hmoved t).trans (h t)
  · rw [hbody]
    obtain rfl | rfl := hs'
    · exact h
    · exact h

/-! ### The result -/

/-- **Levelling.** For threads listed at their pinned CPU and maps that agree: a run of
`balance_CPUs` that returns, and in which every attempted migration succeeds, ends with the
floor or the ceiling of the average number of counted threads on every CPU. Nothing but
moves between CPUs has happened: the same threads are listed, each of them once. -/
theorem balanceCpus_levels (T : Topology) (settings : Settings R) (perfTable : PerfTable R)
    (ignoreIdle : Bool) (s : System R) (fuel : ℕ) (r : LoopState R) (hs : ListedAtPinned s)
    (hmaps : MapsAgree T ignoreIdle s) (htotal : 0 < (s.tids T ignoreIdle).size)
    (hrun : balanceCpus T settings perfTable fuel ignoreIdle s = some r)
    (hok : ∀ src u, CpuIteration T settings perfTable ignoreIdle s src u →
      AttemptSucceeds T settings perfTable ignoreIdle (minTidsPerCpu T ignoreIdle s) src u.1) :
    (∀ c ∈ T.cpus,
      (r.1.tidsFromCpu ignoreIdle c).size = (s.tids T ignoreIdle).size / T.numOfCpus ∨
        (r.1.tidsFromCpu ignoreIdle c).size = (s.tids T ignoreIdle).size ⌈/⌉ T.numOfCpus) ∧
      SameListed T s r.1 ∧
      ∀ t c c', t ∈ r.1.cpuTidMap c → t ∈ r.1.cpuTidMap c' → c = c' := by
  have hne : (s.tids T ignoreIdle).size ≠ 0 := htotal.ne'
  rw [balanceCpus_eq hne] at hrun
  have hcard : T.cpus.toFinset.card = T.numOfCpus := List.toFinset_card_of_nodup T.cpus_nodup
  have hinv : ListedAtPinned r.1 ∧ SameListed T s r.1 := by
    refine invariant_of_sweep (I := fun s' => ListedAtPinned s' ∧ SameListed T s s')
      ⟨hs, fun _ => Iff.rfl⟩ (fun src hsrc t habove ht => ?_) hrun
    exact ⟨ht.1.moveBody habove, ht.2.moveBody ht.1 hsrc habove⟩
  refine ⟨fun c hc => ?_, hinv.2, fun t c c' hc hc' => ?_⟩
  · have hround := round_of_sweep hs (fun _ h => h) (fun src u hu => ?_) hrun
    · rw [← hcard]
      refine hround.levelled (sum_cpuLoad hs hmaps) ?_ (fun c => List.mem_toFinset.symm)
        (List.mem_toFinset.mpr hc)
      rw [hcard, minTidsPerCpu]
    · exact ⟨fun hpick => not_terminates_of_picksLastRun hu.above.1 hpick (hu.terminates hrun),
        hok src u ⟨hne, hu⟩⟩
  · exact (hinv.1 t c hc).symm.trans (hinv.1 t c' hc')

/-- Two threads on CPU 0 end on one CPU each. -/
theorem balanceCpus_levels_two :
    ∃ r, balanceCpus twoCpus (Settings.default 1 64) emptyPerfTable 1 true (onCpuZero [1, 2]) =
      some r ∧ ∀ c ∈ twoCpus.cpus, (r.1.tidsFromCpu true c).size = 1 := by
  have hreturns : (balanceCpus twoCpus (Settings.default 1 64) emptyPerfTable 1 true
      (onCpuZero [1, 2])).isSome = true := by decide +kernel
  obtain ⟨r, hr⟩ := Option.isSome_iff_exists.mp hreturns
  have hmaps : MapsAgree twoCpus true (onCpuZero [1, 2]) := by
    have hnode : (onCpuZero [1, 2]).tidsFromNode true 0 =
        (onCpuZero [1, 2]).tidsFromCpu true 0 := by decide +kernel
    have hfree : (onCpuZero [1, 2]).tidsFromCpu true 1 = ∅ := by decide +kernel
    intro t
    simp [twoCpus, Topology.regular, List.range_succ, hnode, hfree]
  have hmin : minTidsPerCpu twoCpus true (onCpuZero [1, 2]) = 1 := by decide +kernel
  have hfloor : ((onCpuZero [1, 2]).tids twoCpus true).size / twoCpus.numOfCpus = 1 := by
    decide +kernel
  have hceil : ((onCpuZero [1, 2]).tids twoCpus true).size ⌈/⌉ twoCpus.numOfCpus = 1 := by
    decide +kernel
  obtain ⟨hlevel, -⟩ := balanceCpus_levels twoCpus (Settings.default 1 64) emptyPerfTable true
    (onCpuZero [1, 2]) 1 r (onCpuZero_listed [1, 2]) hmaps (by decide +kernel) hr
    fun src u hu => by
      obtain ⟨hstate, hchoose⟩ := iteration_onCpuZero_two hu
      rw [hmin]
      intro tid dst hch
      obtain ⟨rfl, rfl, rfl⟩ := hchoose tid dst hch
      rw [hstate, balancingCell_migrate]
      decide +kernel
  rw [hfloor, hceil] at hlevel
  exact ⟨r, hr, fun c hc => (or_self_iff).mp (hlevel c hc)⟩

end Thanos
