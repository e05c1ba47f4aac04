import Thanos.Strategies.ThreadMigrations
import Thanos.SystemInfo.Daemon

/-!
# The strategies in the main loop

A call of `migrate` or of `balance` is a run of operations of the daemon (`reachable_migrate`,
`reachable_balance`): the strategies move threads that have a row in the performance table or are
listed, and no others (`MovesTo`). These are threads of the tree, so what holds of the daemon holds
with every strategy.
-/

namespace Thanos.Daemon

variable {R : Type} [RealT R] {T : Topology} {g : Granularity} {self child : Pid}
  {fs : ProcFs} {infos : Pid → ProcInfo R} {kernel : Kernel} {d d' : Daemon R} {s : System R}
  {threads : Set Pid}

variable (T g self child) in
/-- The second state is reached from the first by operations that are allowed, of which each looks
up rows of some of these threads or moves one of them. -/
inductive MovesTo (threads : Set Pid) (d₀ : Daemon R) : Daemon R → Prop
  | refl : MovesTo threads d₀ d₀
  | addRows {d d' : Daemon R} {tids : List Pid} (h : MovesTo threads d₀ d)
    (htids : ∀ t ∈ tids, t ∈ threads) (hop : Allowed child d (.addRows tids))
    (hstep : step T g self child d (.addRows tids) = some d') : MovesTo threads d₀ d'
  | setTid {d d' : Daemon R} {fs : ProcFs} {tid : Pid} {dst : ℕ} (h : MovesTo threads d₀ d)
    (htid : tid ∈ threads) (hop : Allowed child d (.setTid fs tid dst))
    (hstep : step T g self child d (.setTid fs tid dst) = some d') : MovesTo threads d₀ d'

theorem Reachable.movesTo (hd : Reachable T g self child fs infos kernel d)
    (h : MovesTo T g self child threads d d') : Reachable T g self child fs infos kernel d' := by
  induction h with
  | refl => exact hd
  | addRows h htids hop hstep ih => exact .step ih hop hstep
  | setTid h htid hop hstep ih => exact .step ih hop hstep

/-- Threads that have rows are moved. -/
theorem MovesTo.setTids {d₀ : Daemon R} (hd₀ : Reachable T g self child fs infos kernel d₀)
    (h : MovesTo T g self child threads d₀ d) {ops : List (Op R)}
    (hops : ∀ op ∈ ops, System.Moves {t | t ∈ d.tids ∧ t ∈ threads} op) :
    MovesTo T g self child threads d₀
      { d with system := run (System.perform T g) d.system ops } := by
  induction ops generalizing d with
  | nil => exact h
  | cons op ops ih =>
    obtain ⟨dst, hrow, htid⟩ := hops op List.mem_cons_self
    rename_i tid
    have hstep : MovesTo T g self child threads d₀
        { d with system := (System.pinThread T g tid dst d.system).2 } := by
      by_cases hzero : tid = 0
      · -- nothing is done for the thread 0
        subst hzero
        have hsame : (System.pinThread T g 0 dst d.system).2 = d.system := by
          cases g <;> rfl
        rwa [hsame]
      · have hmem := (live_of_reachable (hd₀.movesTo h)).tids_mem tid hrow
        have hallowed : Allowed child d (.setTid fs tid dst) := .inl hrow
        refine .setTid h htid hallowed ?_
        rw [Daemon.step, if_neg hzero, ProcessTree.retrieve_of_isSome self fs hmem]
        rfl
    exact ih hstep fun op' hop' => hops op' (List.mem_cons_of_mem _ hop')

/-- **Refinement.** Moves of known threads are operations of the daemon. -/
theorem Reachable.moves (h : Reachable T g self child fs infos kernel d)
    (hknown : ∀ t ∈ threads, Known d t)
    (hruns : Runs (System.perform T g) (System.Moves threads) d.system s) :
    ∃ d', MovesTo T g self child threads d d' ∧ d'.system = s ∧ d'.tree = d.tree := by
  obtain ⟨ops, rfl, hops⟩ := hruns
  have hnamed : ∃ tids : List Pid, (∀ t ∈ tids, t ∈ threads) ∧
      ∀ op ∈ ops, System.Moves {t | t ∈ tids} op := by
    -- the operations name finitely many threads
    clear h
    induction ops with
    | nil =>
      exact ⟨[], fun t ht => absurd ht List.not_mem_nil, fun op hop => absurd hop List.not_mem_nil⟩
    | cons op ops ih =>
      obtain ⟨tids, htids, hrest⟩ := ih fun op' hop' => hops op' (List.mem_cons_of_mem op hop')
      obtain ⟨dst, htid⟩ := hops op List.mem_cons_self
      rename_i tid
      refine ⟨tid :: tids, List.forall_mem_cons.mpr ⟨htid, htids⟩,
        List.forall_mem_cons.mpr ⟨.migrate dst List.mem_cons_self, fun op' hop' => ?_⟩⟩
      obtain ⟨dst', htid'⟩ := hrest op' hop'
      exact .migrate dst' (List.mem_cons_of_mem tid htid')
  obtain ⟨tids, htids, hmoves⟩ := hnamed
  -- a look-up makes a row for a thread that has none, and then it may be moved
  have hallowed : Allowed child d (.addRows tids) := fun t ht => .inr (hknown t (htids t ht))
  have hrows : MovesTo T g self child threads d { d with tids := d.tids.insertMany tids } :=
    .addRows .refl htids hallowed rfl
  refine ⟨_, hrows.setTids h fun op hop => ?_, rfl, rfl⟩
  obtain ⟨dst, htid⟩ := hmoves op hop
  exact .migrate dst ⟨OrderedSet.mem_insertMany.mpr (.inl htid), htids _ htid⟩

variable {strategy : Strategy} {settings : Settings R} {undoThreshold : R}
  {inputs : Strategy.Inputs R} {st : Imar2.State R}

/-- A performance table with a row for the thread 15. -/
def elevenInputs : Strategy.Inputs ℚ :=
  ⟨⟨[(15, ⟨Rm3d.new (Settings.default 1 64), true⟩)], fun _ => 1, fun _ => 2, fun _ _ => 1⟩, 2,
    ⟨[0], fun _ => ⟨0, 0, fun _ => 0⟩, ⟨[], []⟩⟩⟩

/-- The threads that are known can be reached from the child process. -/
theorem known_descends (h : Reachable T g self child fs infos kernel d) {t : Pid}
    (ht : Known d t) : t = child ∨ d.tree.Descends child t := by
  have hlive := live_of_reachable h
  exact ProcessTree.below_iff_descends.mp (hlive.rooted t (hlive.isSome_of_known ht))

/-- **Strategies.** In every state that is reached, a call of `migrate` that reads rows of the
performance table only is a run of moves of known threads; with IMAR2, if the migrations that it
may undo are of threads that are still known. Afterwards a listed thread is still the child
process or one of its descendants. -/
theorem reachable_migrate
    (h : Reachable T strategy.granularity self child fs infos kernel d)
    (hsystem : st.migration.system = d.system)
    (htids : ∀ t ∈ inputs.perfTable.tids, t ∈ d.tids)
    (hlast : strategy = .imar2 →
      CellsMove strategy {t | Known d t} st.migration.lastMigrations) :
    (∃ d', Reachable T strategy.granularity self child fs infos kernel d' ∧
      MovesTo T strategy.granularity self child {t | Known d t} d d' ∧
        d'.system = (strategy.migrate T settings undoThreshold inputs st).migration.system ∧
          d'.tree = d.tree) ∧
    ∀ t, (strategy.migrate T settings undoThreshold inputs st).migration.system.Listed t →
      t = child ∨ d.tree.Descends child t := by
  have hknown : ∀ t, (⟨T, settings, inputs.perfTable, st.migration.system⟩ : Globals R).Knows t →
      t ∈ {t | Known d t} := fun t ht => by
    rw [Globals.Knows, hsystem] at ht
    exact ht.imp_left (htids t)
  have hruns := (Strategy.moves_migrate T settings undoThreshold inputs hlast hknown).1
  rw [hsystem] at hruns
  obtain ⟨d', hmoves, hsystem', htree⟩ := h.moves (fun t ht => ht) hruns
  refine ⟨⟨d', h.movesTo hmoves, hmoves, hsystem', htree⟩, fun t ht => ?_⟩
  rw [← htree]
  exact known_descends (h.movesTo hmoves) (.inr (hsystem' ▸ ht))

/-- LBMA is called when the first update is over. -/
theorem reachable_migrate_elevenEnded : ∃ d d' : Daemon ℚ, d.tids.toList = [10, 15] ∧
    Reachable (.regular 1 1 Nat.one_pos Nat.one_pos) .cpu 1 10
      ProcessTree.twoThreads.toProcFs runningInfo quietKernel d' ∧
    d'.system = (Strategy.lbma.migrate (.regular 1 1 Nat.one_pos Nat.one_pos)
      (Settings.default 1 64) defaultUndoThreshold elevenInputs
        ⟨⟨d.system, [], 0, 0⟩, 0, 0⟩).migration.system := by
  have htids : firstUpdate.map (fun d => d.tids.toList) = some [10, 15] := by
    decide
  obtain ⟨d, hd, htids⟩ := Option.map_eq_some_iff.mp htids
  have hrows : ∀ t ∈ elevenInputs.perfTable.tids, t ∈ d.tids := fun t ht => by
    obtain rfl := List.mem_singleton.mp ht
    rw [OrderedSet.mem_def, htids]
    decide
  have hrun := @reachable_migrate _ _ _ _ _ _ _ _ _ .lbma (Settings.default 1 64)
    defaultUndoThreshold elevenInputs ⟨⟨d.system, [], 0, 0⟩, 0, 0⟩
    (reachable_firstUpdate hd) rfl hrows fun _ => cellsMove_nil
  obtain ⟨d', hd', -, hsystem, -⟩ := hrun.1
  exact ⟨d, d', htids, hd', hsystem⟩

/-- **Balancing.** In every state that is reached, a call of `balance` that returns is a bulk pin
and then a run of moves of threads that are listed after it. -/
theorem reachable_balance {order : ChildOrder} {children : List Pid} {perfTable : PerfTable R}
    {fuel : ℕ} {ignoreIdle : Bool} {r : LoopState R}
    (h : Reachable T strategy.granularity self child fs infos kernel d)
    (hchildren : d.tree.allChildren order d.system.root = some children)
    (hr : strategy.balance T settings perfTable fuel ignoreIdle children d.system = some r) :
    (∃ d₁ d', step T strategy.granularity self child d (.pinThreads ignoreIdle order) = some d₁ ∧
      MovesTo T strategy.granularity self child {t | d₁.system.Listed t} d₁ d' ∧
        Reachable T strategy.granularity self child fs infos kernel d' ∧ d'.system = r.1 ∧
          d'.tree = d.tree) ∧
    ∀ t, r.1.Listed t → t = child ∨ d.tree.Descends child t := by
  -- `balance` begins with a bulk pin, and moves threads that are listed after it
  have hstep : step T strategy.granularity self child d (.pinThreads ignoreIdle order) =
      some { d with system :=
        (d.system.pinThreads T ignoreIdle children strategy.granularity).2 } := by
    rw [step, hchildren]
    rfl
  have hallowed : Allowed child d (.pinThreads ignoreIdle order) := trivial
  have hpinned : Reachable T strategy.granularity self child fs infos kernel _ :=
    .step h hallowed hstep
  obtain ⟨d', hmoves, hsystem', htree⟩ :=
    hpinned.moves (fun t ht => .inr ht) (Strategy.moves_balance hr)
  have hd' := hpinned.movesTo hmoves
  refine ⟨⟨_, d', hstep, hmoves, hd', hsystem', htree⟩, fun t ht => ?_⟩
  have hdescends := known_descends hd' (.inr (hsystem' ▸ ht))
  rwa [htree] at hdescends

/-- After the first update both threads are pinned to the only CPU. -/
theorem reachable_balance_elevenEnded : ∃ d r d', firstUpdate = some d ∧
    Strategy.lbma.balance (.regular 1 1 Nat.one_pos Nat.one_pos) (Settings.default 1 64)
      elevenInputs.perfTable 1 false [15] d.system = some r ∧
    Reachable (.regular 1 1 Nat.one_pos Nat.one_pos) .cpu 1 10
      ProcessTree.twoThreads.toProcFs runningInfo quietKernel d' ∧
    d'.system = r.1 ∧ (d'.system.cpuTidMap 0).toList = [10, 15] := by
  have hrun : (firstUpdate.bind fun d =>
      if d.tree.allChildren ProcessTree.ascending d.system.root = some [15] then
        (Strategy.lbma.balance (.regular 1 1 Nat.one_pos Nat.one_pos) (Settings.default 1 64)
          elevenInputs.perfTable 1 false [15] d.system).map fun r => (r.1.cpuTidMap 0).toList
      else none) = some [10, 15] := by
    decide +kernel
  obtain ⟨d, hd, hrun⟩ := Option.bind_eq_some_iff.mp hrun
  split_ifs at hrun with hchildren
  obtain ⟨r, hr, hcpu⟩ := Option.map_eq_some_iff.mp hrun
  have hbalance := @reachable_balance _ _ _ _ _ _ _ _ _ .lbma (Settings.default 1 64)
    ProcessTree.ascending [15] elevenInputs.perfTable 1 false r (reachable_firstUpdate hd)
    hchildren hr
  obtain ⟨d₁, d', -, -, hd', hsystem, -⟩ := hbalance.1
  exact ⟨d, r, d', hd, hr, hd', hsystem, hsystem ▸ hcpu⟩

end Thanos.Daemon
