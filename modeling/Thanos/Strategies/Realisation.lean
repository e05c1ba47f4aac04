import Thanos.Migration.Neighbours
import Thanos.Strategies.Annealing

/-!
# The cells of a schedule

`migrations` turns a schedule into cells. They realise the schedule if their moves are exactly
the moves of the schedule, each once. In the map of a schedule a thread that moves is already
listed at its destination (`Consistent`), and `migrations` asks this map for a free core there:
a thread that takes the last core finds none and is exchanged with a thread of its destination,
whether or not the schedule sends that thread anywhere.

* **Maps** (`Reached.consistent`): the map of a schedule reached in a search lists the threads
  by their destinations.
* **Moves** (`moves_migrations`): the moves of the cells are those of the steps of the loop.
* **Realisation** (`realises_iff`): the cells realise the schedule exactly when the exchanges of
  the loop are exchanges of the schedule.
-/

namespace Thanos.Mapping

variable {R : Type} [RealT R]

/-! ### Schedules that are reached -/

/-- The threads with which a search starts: every thread once, none idle, each on its node. -/
structure StartingThreads (g : Globals R) (threads : List (Thread R)) : Prop where
  nodup : (threads.map Thread.tid).Nodup
  nonIdle : ∀ thread ∈ threads, g.system.isIdle thread.tid = false
  atHome : ∀ thread ∈ threads, thread.srcNode = thread.dstNode

/-- `nodeTidMap` lists the threads by their destinations. -/
structure Consistent (g : Globals R) (schedule : Schedule R) : Prop where
  nodup : (schedule.threads.map Thread.tid).Nodup
  nonIdle : ∀ tid ∈ schedule.threads.map Thread.tid, g.system.isIdle tid = false
  mem_iff : ∀ node tid,
    tid ∈ (schedule.nodeTidMap node).getD ∅ ↔ Sent schedule.threads tid node

variable {g : Globals R} {schedule schedule' : Schedule R} {threads : List (Thread R)}
  {tid tid' : Pid} {node node' : Node} {nodeTidMap : Node → Option (OrderedSet Pid)}

namespace Consistent

/-- None of the threads is idle. -/
theorem nonIdle_of_mem (h : Consistent g schedule) {t1 : Thread R}
    (ht1 : t1 ∈ schedule.threads) : g.system.isIdle t1.tid = false :=
  h.nonIdle _ (List.mem_map_of_mem ht1)

theorem of_listed (h : Listed g schedule)
    (hnonIdle : ∀ tid ∈ schedule.threads.map Thread.tid, g.system.isIdle tid = false) :
    Consistent g schedule where
  nodup := h.nodup
  nonIdle := hnonIdle
  mem_iff node tid := by
    rw [h.mem_iff]
    refine and_iff_right_of_imp ?_
    rintro ⟨thread, hthread, rfl, -⟩
    exact hnonIdle _ (List.mem_map_of_mem hthread)

theorem listed (h : Consistent g schedule) : Listed g schedule where
  nodup := h.nodup
  mem_iff node tid := by
    rw [h.mem_iff]
    refine (and_iff_right_of_imp ?_).symm
    rintro ⟨thread, hthread, rfl, -⟩
    exact h.nonIdle_of_mem hthread

/-- A mutation gives threads other destinations only. -/
theorem mutation (h : Consistent g schedule) (hmut : Schedule.Mutation g schedule schedule') :
    Consistent g schedule' := by
  refine of_listed (h.listed.mutation hmut) ?_
  obtain ⟨dst, -, hthreads, -⟩ := h.listed.redirected hmut
  have hmap : schedule'.threads.map Thread.tid = schedule.threads.map Thread.tid := by
    rw [hthreads, List.map_map]
    rfl
  rw [hmap]
  exact h.nonIdle

end Consistent

/-- **Maps.** -/
theorem Reached.consistent (hstart : StartingThreads g threads) (h : Reached g threads schedule) :
    Consistent g schedule := by
  induction h with
  | new => exact .of_listed (.new hstart.nodup) (List.forall_mem_map.mpr hstart.nonIdle)
  | neighbour _ hneigh ih =>
    exact Schedule.neighbour_invariant
      (fun s s' _ _ hs hmut => hs.mutation (Schedule.mutation_of_mutate hmut)) ih hneigh
  | expectedTickets _ ih => exact ⟨ih.nodup, ih.nonIdle, ih.mem_iff⟩
  | expectedPerf _ ih => exact ⟨ih.nodup, ih.nonIdle, ih.mem_iff⟩

/-! ### The loop of `migrations` -/

/-- The moves of a list of cells: threads with their destinations. -/
def moves (cells : List (MigrationCell R)) : List (Pid × Node) :=
  (halves cells).map fun m => (m.tid, m.dest)

/-- The moves of a schedule. -/
def Schedule.moves (schedule : Schedule R) : List (Pid × Node) :=
  (schedule.threads.filter fun thread => thread.srcNode ≠ thread.dstNode).map fun thread =>
    (thread.tid, thread.dstNode)

/-- Cells realise a schedule if they make its moves, each once. -/
def Realises (cells : List (MigrationCell R)) (schedule : Schedule R) : Prop :=
  (moves cells).Perm schedule.moves

/-- The threads sent to a node leave no core of it free. -/
def Crowded (g : Globals R) (threads : List (Thread R)) (node : Node) : Prop :=
  g.topology.cpusPerNode ≤ threads.countP fun thread => thread.dstNode = node

instance (g : Globals R) (threads : List (Thread R)) (node : Node) :
    Decidable (Crowded g threads node) :=
  inferInstanceAs (Decidable (_ ≤ _))

/-- The thread of the destination with which `migrations` exchanges a thread, given the threads
that are in cells already. -/
def partner (g : Globals R) (threads : List (Thread R)) (migratedTids : OrderedSet Pid)
    (t1 : Thread R) : Option (Pid × Tickets R) :=
  (g.system.nonIdleTidsFromNode t1.dstNode).toList.foldl
    (Schedule.betterSwap g threads migratedTids t1) none

/-- The body of the loop, which does not fail on a schedule with a consistent map. -/
abbrev loopBody (g : Globals R) (schedule : Schedule R) (st : Schedule.Migrating R)
    (t1 : Thread R) : Schedule.Migrating R :=
  (Schedule.migrationStep g schedule.threads st t1).getD st

/-- The state in which the loop starts. -/
abbrev loopStart (schedule : Schedule R) : Schedule.Migrating R :=
  ⟨[], ∅, schedule.nodeTidMap⟩

/-- The turns of the loop: the threads, each with the state in which the loop comes to it. -/
def turns (g : Globals R) (schedule : Schedule R) :
    List (Schedule.Migrating R × Thread R) :=
  trace (loopBody g schedule) (loopStart schedule) schedule.threads

/-- The moves that a turn adds to the cells. -/
def turnMoves (g : Globals R) (threads : List (Thread R)) (st : Schedule.Migrating R)
    (t1 : Thread R) : List (Pid × Node) :=
  if t1.srcNode = t1.dstNode ∨ t1.tid ∈ st.migratedTids then []
  else if Crowded g threads t1.dstNode then
    match partner g threads st.migratedTids t1 with
    | none => []
    | some (swapTid, _) => [(t1.tid, t1.dstNode), (swapTid, t1.srcNode)]
  else [(t1.tid, t1.dstNode)]

/-- What holds of the state of the loop: the map of the schedule is as it was, and the threads
marked as migrated are those of the cells. -/
structure LoopInvariant (schedule : Schedule R) (st : Schedule.Migrating R) : Prop where
  nodeTidMap : st.nodeTidMap = schedule.nodeTidMap
  mem_migratedTids : ∀ tid, tid ∈ st.migratedTids ↔ tid ∈ (moves st.mig).map Prod.fst

variable {st st' : Schedule.Migrating R} {t1 : Thread R} {swap : Pid × Tickets R}
  {cells : List (MigrationCell R)}

omit [RealT R] in
theorem moves_concat {cell : MigrationCell R} :
    moves (cells ++ [cell]) = moves cells ++ cell.migrations.map fun m => (m.tid, m.dest) := by
  simp [moves, halves]

/-- A partner is not in a cell yet. -/
theorem notMem_of_partner {migratedTids : OrderedSet Pid}
    (h : partner g threads migratedTids t1 = some swap) : swap.1 ∉ migratedTids :=
  (Schedule.admissible_of_betterSwap (fun _ hnone => absurd hnone (by simp)) h).2

/-- The set of a node in the map has as many members as threads are sent there. -/
theorem Consistent.size_eq (h : Consistent g schedule) {tids : OrderedSet Pid}
    (htids : schedule.nodeTidMap node = some tids) :
    tids.size = schedule.threads.countP fun thread => thread.dstNode = node := by
  have hsize : ((schedule.nodeTidMap node).getD ∅).size = numIn g schedule.threads node :=
    h.listed.size_eq
  rw [htids, Option.getD_some] at hsize
  rw [hsize, numIn]
  refine List.countP_congr fun thread hthread => ?_
  simp [h.nonIdle_of_mem hthread]

/-- The destination of a thread has an entry in the map, with the thread in it. -/
theorem Consistent.exists_entry (h : Consistent g schedule) (ht1 : t1 ∈ schedule.threads) :
    ∃ tids, schedule.nodeTidMap t1.dstNode = some tids ∧ t1.tid ∈ tids := by
  have hmem := (h.mem_iff t1.dstNode t1.tid).mpr ⟨t1, ht1, rfl, rfl⟩
  cases htids : schedule.nodeTidMap t1.dstNode with
  | none => simp [htids] at hmem
  | some tids => exact ⟨tids, rfl, by simpa [htids] using hmem⟩

/-- A thread that is listed at a node already is inserted to no effect. -/
theorem insertTid_of_mem {tids : OrderedSet Pid} (h : nodeTidMap node = some tids)
    (htid : tid ∈ tids) : insertTid nodeTidMap node tid = nodeTidMap := by
  have hins : insert tid tids = tids := by
    refine OrderedSet.ext_mem fun a => ?_
    rw [OrderedSet.mem_insert]
    exact or_iff_right_of_imp fun heq => heq ▸ htid
  rw [insertTid, h, Option.getD_some, hins, ← h, Function.update_eq_self]

/-- **A turn** never fails; it adds its moves to the cells and marks their threads. -/
theorem migrationStep_spec (h : Consistent g schedule) (ht1 : t1 ∈ schedule.threads)
    (hst : LoopInvariant schedule st) :
    ∃ st', Schedule.migrationStep g schedule.threads st t1 = some st' ∧
      LoopInvariant schedule st' ∧
      moves st'.mig = moves st.mig ++ turnMoves g schedule.threads st t1 := by
  obtain ⟨tids, htids, hmem⟩ := h.exists_entry ht1
  have hcrowded : Crowded g schedule.threads t1.dstNode ↔ ¬ tids.size < g.topology.cpusPerNode := by
    rw [Crowded, ← h.size_eq htids, not_lt]
  unfold Schedule.migrationStep turnMoves
  split_ifs with hskip hfull
  · exact ⟨st, rfl, hst, (List.append_nil _).symm⟩
  · rw [hst.nodeTidMap, htids, Option.map_some]
    simp only [hcrowded.mp hfull, if_false, partner]
    cases (g.system.nonIdleTidsFromNode t1.dstNode).toList.foldl
        (Schedule.betterSwap g schedule.threads st.migratedTids t1) none with
    | none => exact ⟨st, rfl, hst, (List.append_nil _).symm⟩
    | some swap =>
      refine ⟨_, rfl, ⟨rfl, fun tid => ?_⟩, moves_concat⟩
      simp only [OrderedSet.mem_insert, hst.mem_migratedTids, moves_concat, List.map_append,
        List.mem_append, List.map_cons, List.map_nil, List.mem_cons, List.not_mem_nil, or_false]
      tauto
  · have hfree : tids.size < g.topology.cpusPerNode := not_not.mp (hcrowded.not.mp hfull)
    rw [hst.nodeTidMap, htids, Option.map_some]
    simp only [hfree, if_true]
    refine ⟨_, rfl, ⟨insertTid_of_mem htids hmem, fun tid => ?_⟩, moves_concat⟩
    simp only [OrderedSet.mem_insert, hst.mem_migratedTids, moves_concat, List.map_append,
      List.mem_append, List.map_cons, List.map_nil, List.mem_cons, List.not_mem_nil, or_false]
    exact or_comm

/-! ### The moves of the cells -/

omit [RealT R] in
theorem LoopInvariant.start : LoopInvariant schedule (loopStart schedule) :=
  ⟨rfl, fun tid => by simp [moves, halves]⟩

theorem LoopInvariant.body (h : Consistent g schedule) (ht1 : t1 ∈ schedule.threads)
    (hst : LoopInvariant schedule st) :
    LoopInvariant schedule (loopBody g schedule st t1) ∧
      moves (loopBody g schedule st t1).mig =
        moves st.mig ++ turnMoves g schedule.threads st t1 := by
  obtain ⟨st', hstep, hst', hmoves⟩ := migrationStep_spec h ht1 hst
  rw [loopBody, hstep, Option.getD_some]
  exact ⟨hst', hmoves⟩

/-- `migrations` succeeds on a schedule with a consistent map. -/
theorem migrations_eq (h : Consistent g schedule) :
    schedule.migrations g =
      some (run (loopBody g schedule) (loopStart schedule) schedule.threads).mig := by
  have hrun : schedule.threads.foldlM (Schedule.migrationStep g schedule.threads)
      (loopStart schedule) = some (run (loopBody g schedule) (loopStart schedule)
        schedule.threads) := by
    refine foldlM_eq_run LoopInvariant.start fun st t1 ht1 hst => ?_
    obtain ⟨st', hstep, hst', -⟩ := migrationStep_spec h ht1 hst
    exact ⟨st', hstep, hst'⟩
  rw [Schedule.migrations, hrun, Option.map_some]

/-- **Moves.** The moves of the cells are those of the turns of the loop. -/
theorem moves_migrations (h : Consistent g schedule)
    (hcells : schedule.migrations g = some cells) :
    moves cells = (turns g schedule).flatMap fun e => turnMoves g schedule.threads e.1 e.2 := by
  obtain rfl := Option.some.inj ((migrations_eq h).symm.trans hcells)
  have hmoves : moves (run (loopBody g schedule) (loopStart schedule) schedule.threads).mig =
      moves (loopStart schedule).mig ++
        (turns g schedule).flatMap fun e => turnMoves g schedule.threads e.1 e.2 :=
    run_emitted (fun st => moves st.mig) (fun e => turnMoves g schedule.threads e.1 e.2)
      LoopInvariant.start (fun st t1 ht1 hst => (hst.body h ht1).1)
      fun st t1 ht1 hst => (hst.body h ht1).2
  rw [hmoves]
  rfl

/-- The state of a turn keeps the invariant, and its moves are among those of the cells. -/
theorem turn_spec (h : Consistent g schedule) (hcells : schedule.migrations g = some cells)
    (hturn : (st, t1) ∈ turns g schedule) :
    t1 ∈ schedule.threads ∧ LoopInvariant schedule st ∧ moves st.mig ⊆ moves cells := by
  obtain rfl := Option.some.inj ((migrations_eq h).symm.trans hcells)
  obtain ⟨pre, post, hthreads, rfl⟩ := mem_trace.mp hturn
  have hmem : ∀ t ∈ pre, t ∈ schedule.threads := fun t ht => by
    rw [hthreads]
    exact List.mem_append_left _ ht
  have hmem' : ∀ t ∈ t1 :: post, t ∈ schedule.threads := fun t ht => by
    rw [hthreads]
    exact List.mem_append_right _ ht
  have hst : LoopInvariant schedule (run (loopBody g schedule) (loopStart schedule) pre) :=
    run_invariant_of_mem LoopInvariant.start fun st t ht hst => (hst.body h (hmem t ht)).1
  refine ⟨hmem' t1 List.mem_cons_self, hst, ?_⟩
  -- the turns after this one only add moves
  have hrest : moves (run (loopBody g schedule)
      (run (loopBody g schedule) (loopStart schedule) pre) (t1 :: post)).mig =
      moves (run (loopBody g schedule) (loopStart schedule) pre).mig ++
        (trace (loopBody g schedule) (run (loopBody g schedule) (loopStart schedule) pre)
          (t1 :: post)).flatMap fun e => turnMoves g schedule.threads e.1 e.2 :=
    run_emitted (fun st => moves st.mig) (fun e => turnMoves g schedule.threads e.1 e.2) hst
      (fun st t ht hst => (hst.body h (hmem' t ht)).1)
      fun st t ht hst => (hst.body h (hmem' t ht)).2
  have hfinal : run (loopBody g schedule) (loopStart schedule) schedule.threads =
      run (loopBody g schedule) (run (loopBody g schedule) (loopStart schedule) pre)
        (t1 :: post) := by
    rw [← run_append]
    exact congrArg (run (loopBody g schedule) (loopStart schedule)) hthreads
  rw [hfinal, hrest]
  exact List.subset_append_left _ _

/-! ### Realisation -/

/-- The loop comes to a thread that moves, is in no cell yet, and finds no free core. -/
def Exchanging (g : Globals R) (schedule : Schedule R) (st : Schedule.Migrating R)
    (t1 : Thread R) : Prop :=
  (st, t1) ∈ turns g schedule ∧ t1.srcNode ≠ t1.dstNode ∧ t1.tid ∉ st.migratedTids ∧
    Crowded g schedule.threads t1.dstNode

/-- The exchanges of the loop are exchanges of the schedule. -/
structure ExchangesScheduled (g : Globals R) (schedule : Schedule R) : Prop where
  /-- A partner that is found is sent to where the thread comes from. -/
  partner_sent : ∀ st t1 swap, Exchanging g schedule st t1 →
    partner g schedule.threads st.migratedTids t1 = some swap →
    ∃ t2 ∈ schedule.threads, t2.tid = swap.1 ∧ t2.srcNode ≠ t2.dstNode ∧ t2.dstNode = t1.srcNode
  /-- A thread for which no partner is found is the partner of another one. -/
  partner_of : ∀ st t1, Exchanging g schedule st t1 →
    partner g schedule.threads st.migratedTids t1 = none →
    ∃ st' t1' swap, Exchanging g schedule st' t1' ∧
      partner g schedule.threads st'.migratedTids t1' = some swap ∧ swap.1 = t1.tid

/-- The moves of a turn: that of its thread and that of the partner in an exchange. -/
theorem mem_turnMoves {x : Pid × Node} :
    x ∈ turnMoves g schedule.threads st t1 ↔
      t1.srcNode ≠ t1.dstNode ∧ t1.tid ∉ st.migratedTids ∧
        (¬ Crowded g schedule.threads t1.dstNode ∧ x = (t1.tid, t1.dstNode) ∨
          Crowded g schedule.threads t1.dstNode ∧
            ∃ swap, partner g schedule.threads st.migratedTids t1 = some swap ∧
              (x = (t1.tid, t1.dstNode) ∨ x = (swap.1, t1.srcNode))) := by
  unfold turnMoves
  split_ifs with hskip hfull
  · simp only [List.not_mem_nil, false_iff]
    tauto
  · rw [not_or] at hskip
    cases partner g schedule.threads st.migratedTids t1 with
    | none => simp [hfull]
    | some swap => simp [hskip, hfull]
  · rw [not_or] at hskip
    simp [hskip, hfull]

omit [RealT R] in
theorem mem_scheduleMoves {x : Pid × Node} :
    x ∈ schedule.moves ↔
      ∃ t ∈ schedule.threads, t.srcNode ≠ t.dstNode ∧ (t.tid, t.dstNode) = x := by
  simp [Schedule.moves, and_assoc]

/-- A partner that is sent to where the thread comes from is another thread. -/
theorem ExchangesScheduled.partner_ne (hex : ExchangesScheduled g schedule)
    (h : Consistent g schedule) (ht1 : t1 ∈ schedule.threads) (hturn : Exchanging g schedule st t1)
    (hpartner : partner g schedule.threads st.migratedTids t1 = some swap) :
    swap.1 ≠ t1.tid := by
  obtain ⟨t2, ht2, htid, -, hnode⟩ := hex.partner_sent st t1 swap hturn hpartner
  intro heq
  obtain rfl : t2 = t1 := List.inj_on_of_nodup_map h.nodup ht2 ht1 (htid.trans heq)
  exact hturn.2.1 hnode.symm

/-- If its exchanges are scheduled, the loop moves every thread once at most. -/
theorem ExchangesScheduled.nodup_moves (hex : ExchangesScheduled g schedule)
    (h : Consistent g schedule) (hcells : schedule.migrations g = some cells) :
    ((moves cells).map Prod.fst).Nodup := by
  obtain rfl := Option.some.inj ((migrations_eq h).symm.trans hcells)
  refine (run_invariant_of_trace
    (I := fun st => LoopInvariant schedule st ∧ ((moves st.mig).map Prod.fst).Nodup)
    ⟨LoopInvariant.start, by simp [moves, halves]⟩ fun st t1 hturn hst => ?_).2
  have ht1 : t1 ∈ schedule.threads := (turn_spec h hcells hturn).1
  obtain ⟨hst', hmoves⟩ := hst.1.body h ht1
  refine ⟨hst', ?_⟩
  rw [hmoves, List.map_append, List.nodup_append']
  refine ⟨hst.2, ?_, ?_⟩
  · unfold turnMoves
    split_ifs with hskip hfull
    · exact List.nodup_nil
    · cases hpartner : partner g schedule.threads st.migratedTids t1 with
      | none => exact List.nodup_nil
      | some swap =>
        have hexch : Exchanging g schedule st t1 :=
          ⟨hturn, (not_or.mp hskip).1, (not_or.mp hskip).2, hfull⟩
        have hne : t1.tid ≠ swap.1 := (hex.partner_ne h ht1 hexch hpartner).symm
        simpa using hne
    · exact List.nodup_singleton _
  · -- the threads of a turn are not marked before it
    intro tid htid htid'
    rw [← hst.1.mem_migratedTids] at htid
    obtain ⟨x, hx, rfl⟩ := List.mem_map.mp htid'
    obtain ⟨-, hnew, ⟨-, rfl⟩ | ⟨-, swap, hpartner, rfl | rfl⟩⟩ := mem_turnMoves.mp hx
    · exact hnew htid
    · exact hnew htid
    · exact notMem_of_partner hpartner htid

/-- If its exchanges are scheduled, the loop makes no move but those of the schedule. -/
theorem ExchangesScheduled.moves_subset (hex : ExchangesScheduled g schedule)
    (h : Consistent g schedule) (hcells : schedule.migrations g = some cells) :
    moves cells ⊆ schedule.moves := by
  intro x hx
  rw [moves_migrations h hcells, List.mem_flatMap] at hx
  obtain ⟨⟨st, t1⟩, hturn, hx⟩ := hx
  have ht1 : t1 ∈ schedule.threads := (turn_spec h hcells hturn).1
  obtain ⟨hmoves, hnew, hcase⟩ := mem_turnMoves.mp hx
  rw [mem_scheduleMoves]
  obtain ⟨-, rfl⟩ | ⟨hfull, swap, hpartner, rfl | rfl⟩ := hcase
  · exact ⟨t1, ht1, hmoves, rfl⟩
  · exact ⟨t1, ht1, hmoves, rfl⟩
  · obtain ⟨t2, ht2, htid, hmoves2, hnode⟩ :=
      hex.partner_sent st t1 swap ⟨hturn, hmoves, hnew, hfull⟩ hpartner
    exact ⟨t2, ht2, hmoves2, by rw [htid, hnode]⟩

/-- If its exchanges are scheduled, the loop makes all moves of the schedule. -/
theorem ExchangesScheduled.subset_moves (hex : ExchangesScheduled g schedule)
    (h : Consistent g schedule) (hcells : schedule.migrations g = some cells) :
    schedule.moves ⊆ moves cells := by
  intro x hx
  obtain ⟨t1, ht1, hmoves, rfl⟩ := mem_scheduleMoves.mp hx
  obtain ⟨st, hturn⟩ : ∃ st, (st, t1) ∈ turns g schedule := exists_mem_trace ht1
  -- any move of the thread among the cells goes to its destination
  have hdest : ∀ node, (t1.tid, node) ∈ moves cells → (t1.tid, t1.dstNode) ∈ moves cells := by
    intro node hnode
    obtain ⟨t, ht, -, heq⟩ := mem_scheduleMoves.mp (hex.moves_subset h hcells hnode)
    obtain ⟨htid, rfl⟩ := Prod.mk.inj heq
    obtain rfl : t = t1 := List.inj_on_of_nodup_map h.nodup ht ht1 htid
    exact hnode
  have hturnMoves : ∀ {st t x}, (st, t) ∈ turns g schedule →
      x ∈ turnMoves g schedule.threads st t → x ∈ moves cells := by
    intro st t x hst hx
    rw [moves_migrations h hcells]
    exact List.mem_flatMap.mpr ⟨(st, t), hst, hx⟩
  obtain ⟨-, hst, hsub⟩ := turn_spec h hcells hturn
  by_cases hmarked : t1.tid ∈ st.migratedTids
  · rw [hst.mem_migratedTids, List.mem_map] at hmarked
    obtain ⟨⟨tid, node⟩, hmem, rfl⟩ := hmarked
    exact hdest node (hsub hmem)
  · by_cases hfull : Crowded g schedule.threads t1.dstNode
    · have hexch : Exchanging g schedule st t1 := ⟨hturn, hmoves, hmarked, hfull⟩
      cases hpartner : partner g schedule.threads st.migratedTids t1 with
      | some swap =>
        exact hturnMoves hturn (mem_turnMoves.mpr
          ⟨hmoves, hmarked, .inr ⟨hfull, swap, hpartner, .inl rfl⟩⟩)
      | none =>
        obtain ⟨st', t1', swap, hexch', hpartner', htid⟩ := hex.partner_of st t1 hexch hpartner
        have hmem : (swap.1, t1'.srcNode) ∈ moves cells := hturnMoves hexch'.1
          (mem_turnMoves.mpr ⟨hexch'.2.1, hexch'.2.2.1,
            .inr ⟨hexch'.2.2.2, swap, hpartner', .inr rfl⟩⟩)
        rw [htid] at hmem
        exact hdest _ hmem
    · exact hturnMoves hturn
        (mem_turnMoves.mpr ⟨hmoves, hmarked, .inl ⟨hfull, rfl⟩⟩)

/-- The moves of a schedule name every thread once. -/
theorem Consistent.nodup_moves (h : Consistent g schedule) : schedule.moves.Nodup := by
  refine List.Nodup.of_map Prod.fst ?_
  rw [Schedule.moves, List.map_map]
  exact h.nodup.sublist (List.filter_sublist.map Thread.tid)

/-- If the cells realise the schedule, the exchanges of the loop are scheduled. -/
theorem Realises.exchangesScheduled (hreal : Realises cells schedule) (h : Consistent g schedule)
    (hcells : schedule.migrations g = some cells) : ExchangesScheduled g schedule where
  partner_sent := by
    rintro st t1 swap ⟨hturn, hmoves, hnew, hfull⟩ hpartner
    have hmem : (swap.1, t1.srcNode) ∈ moves cells := by
      rw [moves_migrations h hcells]
      exact List.mem_flatMap.mpr ⟨(st, t1), hturn, mem_turnMoves.mpr
        ⟨hmoves, hnew, .inr ⟨hfull, swap, hpartner, .inr rfl⟩⟩⟩
    obtain ⟨t2, ht2, hmoves2, heq⟩ := mem_scheduleMoves.mp (hreal.mem_iff.mp hmem)
    obtain ⟨htid, hnode⟩ := Prod.mk.inj heq
    exact ⟨t2, ht2, htid, hmoves2, hnode⟩
  partner_of := by
    rintro st t1 ⟨hturn, hmoves, hnew, hfull⟩ hnone
    have ht1 : t1 ∈ schedule.threads := (turn_spec h hcells hturn).1
    have hmem : (t1.tid, t1.dstNode) ∈ moves cells :=
      hreal.mem_iff.mpr (mem_scheduleMoves.mpr ⟨t1, ht1, hmoves, rfl⟩)
    rw [moves_migrations h hcells, List.mem_flatMap] at hmem
    obtain ⟨⟨st', t1'⟩, hturn', hx⟩ := hmem
    obtain ⟨hmoves', hnew', hcase⟩ := mem_turnMoves.mp hx
    have ht1' : t1' ∈ schedule.threads := (turn_spec h hcells hturn').1
    -- its own turn makes no move for the thread
    have hown : t1.tid = t1'.tid → ¬ (Crowded g schedule.threads t1'.dstNode →
        ∃ swap, partner g schedule.threads st'.migratedTids t1' = some swap) := by
      intro htid
      obtain rfl : t1 = t1' := List.inj_on_of_nodup_map h.nodup ht1 ht1' htid
      obtain rfl : st = st' := trace_state_unique h.nodup.of_map hturn hturn'
      simp [hfull, hnone]
    obtain ⟨hfree, heq⟩ | ⟨hfull', swap, hpartner, heq | heq⟩ := hcase
    · exact absurd (fun hfull' => absurd hfull' hfree) (hown (Prod.mk.inj heq).1)
    · exact absurd (fun _ => ⟨swap, hpartner⟩) (hown (Prod.mk.inj heq).1)
    · exact ⟨st', t1', swap, ⟨hturn', hmoves', hnew', hfull'⟩, hpartner, (Prod.mk.inj heq).1.symm⟩

/-- **Realisation.** -/
theorem realises_iff (h : Consistent g schedule) (hcells : schedule.migrations g = some cells) :
    Realises cells schedule ↔ ExchangesScheduled g schedule := by
  refine ⟨fun hreal => hreal.exchangesScheduled h hcells, fun hex => ?_⟩
  have hnodup : (moves cells).Nodup := (hex.nodup_moves h hcells).of_map
  exact (List.perm_ext_iff_of_nodup hnodup h.nodup_moves).mpr fun x =>
    ⟨fun hx => hex.moves_subset h hcells hx, fun hx => hex.subset_moves h hcells hx⟩

/-- For every schedule that a search reaches, `migrations` returns cells, and these realise the
schedule exactly when the exchanges of the loop are exchanges of the schedule. -/
theorem migrations_realise_iff (hstart : StartingThreads g threads)
    (h : Reached g threads schedule) :
    ∃ cells, schedule.migrations g = some cells ∧
      (Realises cells schedule ↔ ExchangesScheduled g schedule) :=
  ⟨_, migrations_eq (h.consistent hstart),
    realises_iff (h.consistent hstart) (migrations_eq (h.consistent hstart))⟩

theorem oneAndTwo_starting : StartingThreads oneAndTwo (tableThreads oneAndTwo) where
  nodup := by decide +kernel
  nonIdle := by decide +kernel
  atHome := by decide +kernel

/-- A neighbour sends thread 2 to node 0; the cells exchange it with thread 1, which stays. -/
theorem exists_oneAndTwo_neighbour :
    ∃ schedule cells, Reached oneAndTwo (tableThreads oneAndTwo) schedule ∧
      schedule.migrations oneAndTwo = some cells ∧ ¬ Realises cells schedule := by
  have hneigh : (Schedule.neighbour oneAndTwo 1
      (Schedule.new oneAndTwo (tableThreads oneAndTwo)) [1, 0]).map (fun s =>
        ((s.1.migrations oneAndTwo).map moves, s.1.moves)) =
      some (some [(2, 0), (1, 1)], [(2, 0)]) := by
    decide +kernel
  obtain ⟨⟨schedule, draws⟩, hs, heq⟩ := Option.map_eq_some_iff.mp hneigh
  obtain ⟨hcells, hmoves⟩ := Prod.mk.inj heq
  obtain ⟨cells, hcells, hcellMoves⟩ := Option.map_eq_some_iff.mp hcells
  refine ⟨schedule, cells, .neighbour .new hs, hcells, fun hreal => ?_⟩
  have hlength := hreal.length_eq
  rw [hcellMoves, hmoves] at hlength
  exact absurd hlength (by decide)

/-- In that schedule the exchange of the loop is not scheduled. -/
theorem migrations_realise_iff_oneAndTwo :
    ∃ schedule, Reached oneAndTwo (tableThreads oneAndTwo) schedule ∧
      ¬ ExchangesScheduled oneAndTwo schedule := by
  obtain ⟨schedule, cells, hreached, hcells, hnot⟩ := exists_oneAndTwo_neighbour
  refine ⟨schedule, hreached, fun hex => hnot ?_⟩
  obtain ⟨cells', hcells', hiff⟩ := migrations_realise_iff oneAndTwo_starting hreached
  obtain rfl : cells' = cells := Option.some.inj (hcells'.symm.trans hcells)
  exact hiff.mpr hex

/-- The cells of a schedule that is reached need not realise it. -/
theorem not_migrations_realise :
    ¬ ∀ (g : Globals ℚ) (schedule : Schedule ℚ), StartingThreads g (tableThreads g) →
      (∀ thread ∈ tableThreads g, g.system.isMigratable thread.tid = true) →
      (∀ node ∈ g.topology.nodes, ∃ thread ∈ tableThreads g, thread.dstNode = node) →
      Reached g (tableThreads g) schedule →
      ∃ cells, schedule.migrations g = some cells ∧ Realises cells schedule := by
  intro h
  obtain ⟨schedule, cells, hreached, hcells, hnot⟩ := exists_oneAndTwo_neighbour
  obtain ⟨cells', hcells', hreal⟩ :=
    h oneAndTwo schedule oneAndTwo_starting (by decide +kernel) (by decide +kernel) hreached
  obtain rfl : cells' = cells := Option.some.inj (hcells'.symm.trans hcells)
  exact hnot hreal

end Thanos.Mapping
