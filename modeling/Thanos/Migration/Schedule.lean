import Thanos.Migration.Planning

/-!
# Schedules

`Schedule` is the mapping of threads to nodes on which RM3D and the annealing strategy search:
the threads with their source and destination nodes, the threads of each node, and the scores
once they have been computed. A neighbour is a schedule with a few random mutations, and
`migrations` turns a schedule into cells. A look-up of a node without an entry is an exception
in the source and `none` here, and so is a draw beyond those given.

* **Mutations** (`mutation_of_mutate`): everything one mutation can do.
* **Movers** (`MoversMigratable`): the threads with a new destination are migratable; every
  operation on schedules keeps this (`neighbour_moversMigratable`).
* **Cells** (`migratable_of_migrations`): then the cells name migratable threads only.
-/

namespace Thanos.Mapping

variable {R : Type} [RealT R]

/-! ### Threads -/

/-- `thread_t`. -/
structure Thread (R : Type) where
  tid : Pid
  rm3d : Rm3d R
  srcNode : Node
  dstNode : Node

namespace Thread

variable (g : Globals R) (thread : Thread R)

/-- `expected_perf(dst_node)`: operations per second improve as much as the latency is
reduced. -/
def expectedPerfAt (dstNode : Node) : R :=
  let nodeReqs := thread.rm3d.scaledNodeReqs g.topology
  let estAvLat := g.topology.nodes.foldl (fun estAvLat node =>
    estAvLat + real (nodeReqs node) * real (g.perfTable.avLatencies dstNode node)) (RealT.ofRat 0)
  let totalReqs := g.topology.nodes.foldl (fun totalReqs node => totalReqs + nodeReqs node) 0
  let estAvLat := estAvLat / real totalReqs
  let opsPerS := thread.rm3d.opsPerSecond thread.srcNode *
    real (thread.rm3d.avLatency g.settings thread.srcNode) / estAvLat
  let opsPerB := thread.rm3d.opsPerByte g.settings thread.srcNode
  Rm3d.calcPerf opsPerS opsPerB (RealT.trunc estAvLat)

/-- `expected_perf()`. -/
def expectedPerf : R :=
  thread.expectedPerfAt g thread.dstNode

/-- `expected_tickets(dst_node)`. -/
def expectedTicketsAt (dstNode : Node) : Tickets R :=
  g.ticketsRm3d thread.tid thread.srcNode dstNode + g.ticketsPrefNode thread.tid dstNode

/-- `expected_tickets()`. -/
def expectedTickets : Tickets R :=
  thread.expectedTicketsAt g thread.dstNode

end Thread

/-! ### Schedules -/

/-- `schedule_t`. -/
structure Schedule (R : Type) where
  threads : List (Thread R)
  /-- `node_tid_map_`, with `none` for a node without an entry. -/
  nodeTidMap : Node → Option (OrderedSet Pid)
  /-- `expected_tickets_`, once it has been computed. -/
  cachedTickets : Option R
  /-- `expected_perf_`, once it has been computed. -/
  cachedPerf : Option R

/-- `node_tid_map_[node].insert(tid)`. -/
def insertTid (nodeTidMap : Node → Option (OrderedSet Pid)) (node : Node) (tid : Pid) :
    Node → Option (OrderedSet Pid) :=
  Function.update nodeTidMap node (some (insert tid ((nodeTidMap node).getD ∅)))

/-- `node_tid_map_[node].erase(tid)`. -/
def eraseTid (nodeTidMap : Node → Option (OrderedSet Pid)) (node : Node) (tid : Pid) :
    Node → Option (OrderedSet Pid) :=
  Function.update nodeTidMap node (some (((nodeTidMap node).getD ∅).erase tid))

/-- The first thread with an identifier is given a new destination. -/
def setDstNode (tid : Pid) (node : Node) : List (Thread R) → List (Thread R)
  | [] => []
  | thread :: threads =>
    if thread.tid = tid then { thread with dstNode := node } :: threads
    else thread :: setDstNode tid node threads

/-- The loop in which `neighbour` draws a node other than the current destination. -/
def drawOther (maxNode current : Node) : List ℕ → Option (Node × List ℕ)
  | [] => none
  | draw :: draws =>
    if rnd 0 maxNode draw = current then drawOther maxNode current draws
    else some (rnd 0 maxNode draw, draws)

namespace Schedule

variable (g : Globals R)

/-- The constructor: idle threads are not entered in the map. -/
def new (threads : List (Thread R)) : Schedule R where
  threads := threads
  nodeTidMap := threads.foldl (fun nodeTidMap thread =>
    if g.system.isIdle thread.tid then nodeTidMap
    else insertTid nodeTidMap thread.dstNode thread.tid) fun _ => none
  cachedTickets := none
  cachedPerf := none

variable (schedule : Schedule R)

/-- `expected_tickets()`, with the schedule that remembers it. -/
def expectedTickets : R × Schedule R :=
  let value := schedule.cachedTickets.getD (schedule.threads.foldl
    (fun accum thread => accum + (thread.expectedTickets g).value) (RealT.ofRat 0))
  (value, { schedule with cachedTickets := some value })

/-- `expected_perf()`, with the schedule that remembers it. -/
def expectedPerf : R × Schedule R :=
  let value := schedule.cachedPerf.getD (schedule.threads.foldl
    (fun accum thread => accum + thread.expectedPerf g) (RealT.ofRat 0))
  (value, { schedule with cachedPerf := some value })

/-- `migrate(tid, dst)`. -/
def migrate (tid : Pid) (dst : Node) : Bool × Schedule R :=
  let schedule := { schedule with cachedTickets := none, cachedPerf := none }
  match schedule.threads.find? fun thread => thread.tid == tid with
  | none => (false, schedule)
  | some thread =>
    (true, { schedule with
      threads := setDstNode tid dst schedule.threads
      nodeTidMap :=
        if g.system.isIdle tid then schedule.nodeTidMap
        else insertTid (eraseTid schedule.nodeTidMap thread.dstNode tid) dst tid })

/-- `interchange(tid_1, tid_2)`. -/
def interchange (tid1 tid2 : Pid) : Bool × Schedule R :=
  let schedule := { schedule with cachedTickets := none, cachedPerf := none }
  match schedule.threads.find? (fun thread => thread.tid == tid1),
      schedule.threads.find? (fun thread => thread.tid == tid2) with
  | some t1, some t2 =>
    -- the references name one thread if the identifiers are the same
    let t1Dst := if tid1 = tid2 then t1.dstNode else t2.dstNode
    let nodeTidMap := insertTid (eraseTid schedule.nodeTidMap t1.dstNode tid1) t1Dst tid1
    (true, { schedule with
      threads := setDstNode tid2 t1.dstNode (setDstNode tid1 t2.dstNode schedule.threads)
      nodeTidMap := insertTid (eraseTid nodeTidMap t2.dstNode tid2) t1.dstNode tid2 })
  | _, _ => (false, schedule)

/-! ### Neighbours -/

/-- The loop in which `neighbour` draws a partner, for some attempts. -/
def drawSwap (swapTids : OrderedSet Pid) : ℕ → List ℕ → Option (Option Pid × List ℕ)
  | 0, draws => some (none, draws)
  | _ + 1, [] => none
  | attempts + 1, draw :: draws =>
    match swapTids.toList[rnd 0 swapTids.size draw]? with
    | none => none
    | some swapTid =>
      if g.system.isMigratable swapTid then some (some swapTid, draws)
      else drawSwap swapTids attempts draws

/-- A thread is sent to a node: alone if the node has a free core, else in exchange for a
thread drawn there. -/
def send (tid : Pid) (dstNode : Node) (draws : List ℕ) : Option (Schedule R × List ℕ) :=
  (schedule.nodeTidMap dstNode).bind fun swapTids =>
    if swapTids.size < g.topology.numOfCpusIn dstNode then
      some ((schedule.migrate g tid dstNode).2, draws)
    else
      (drawSwap g swapTids swapTids.size draws).map fun (swapTid, draws) =>
        match swapTid with
        | none => (schedule, draws)
        | some swapTid => ((schedule.interchange tid swapTid).2, draws)

/-- The body of the loop of `neighbour`. -/
def mutate : List ℕ → Option (Schedule R × List ℕ)
  | [] => none
  | idx :: draws =>
    schedule.threads[rnd 0 schedule.threads.length idx]?.bind fun thread =>
      if g.system.isMigratable thread.tid = false ∨ g.system.isIdle thread.tid = true then
        some (schedule, draws)
      else
        (drawOther g.topology.maxNode thread.dstNode draws).bind fun (dstNode, draws) =>
          schedule.send g thread.tid dstNode draws

/-- `neighbour(max_mutations)`, with the draws that remain. -/
def neighbour : ℕ → Schedule R → List ℕ → Option (Schedule R × List ℕ)
  | 0, schedule, draws => some (schedule, draws)
  | mutations + 1, schedule, draws =>
    (schedule.mutate g draws).bind fun (schedule, draws) => neighbour mutations schedule draws

/-! ### Cells -/

/-- The body of the loop of `migrations` over the threads of the destination. -/
def betterSwap (threads : List (Thread R)) (migratedTids : OrderedSet Pid) (t1 : Thread R)
    (swap : Option (Pid × Tickets R)) (auxTid : Pid) : Option (Pid × Tickets R) :=
  if g.system.isMigratable auxTid = false ∨ auxTid ∈ migratedTids then swap
  else if threads.any fun t => t.dstNode == t1.srcNode then
    let tickets := g.ticketsRm3d auxTid t1.dstNode t1.srcNode +
      g.ticketsPrefNode auxTid t1.srcNode + g.ticketsUnderPerformance auxTid
    if (swap.elim Tickets.zero Prod.snd) < tickets then some (auxTid, tickets) else swap
  else swap

/-- The state of the loop of `migrations`. -/
structure Migrating (R : Type) where
  mig : List (MigrationCell R)
  migratedTids : OrderedSet Pid
  nodeTidMap : Node → Option (OrderedSet Pid)

/-- The tickets of a thread that moves to a node with some threads. -/
def moveTickets (t1 : Thread R) (inDst : OrderedSet Pid) : Tickets R :=
  let tickets := g.ticketsRm3d t1.tid t1.srcNode t1.dstNode + g.ticketsPrefNode t1.tid t1.dstNode
  let tickets :=
    if inDst.size < g.topology.numOfCpusIn t1.dstNode then tickets + g.settings.ticketsFreeCore
    else tickets
  if g.isUnderPerformance t1.tid then tickets + g.settings.ticketsUnderPerf else tickets

/-- The body of the loop of `migrations` over the threads. -/
def migrationStep (threads : List (Thread R)) (st : Migrating R) (t1 : Thread R) :
    Option (Migrating R) :=
  if t1.srcNode = t1.dstNode ∨ t1.tid ∈ st.migratedTids then some st
  else
    (st.nodeTidMap t1.dstNode).map fun inDst =>
      let mc := g.simpleCell true t1.tid t1.dstNode t1.srcNode
      let tickets := moveTickets g t1 inDst
      if inDst.size < g.topology.cpusPerNode then
        { mig := st.mig ++ [⟨[mc], tickets⟩]
          migratedTids := insert t1.tid st.migratedTids
          nodeTidMap := insertTid st.nodeTidMap t1.dstNode t1.tid }
      else
        match (g.system.nonIdleTidsFromNode t1.dstNode).toList.foldl
            (betterSwap g threads st.migratedTids t1) none with
        | none => st
        | some (swapTid, swapTickets) =>
          { st with
            mig := st.mig ++ [⟨[mc, g.simpleCell true swapTid t1.srcNode t1.dstNode],
              tickets + swapTickets⟩]
            migratedTids := insert swapTid (insert t1.tid st.migratedTids) }

/-- `migrations()`. -/
def migrations : Option (List (MigrationCell R)) :=
  (schedule.threads.foldlM (migrationStep g schedule.threads)
    ⟨[], ∅, schedule.nodeTidMap⟩).map Migrating.mig

/-! ### Threads that move are migratable -/

variable {g} {schedule schedule' : Schedule R} {threads : List (Thread R)} {tid : Pid}
  {node : Node} {draws draws' : List ℕ}

/-- The threads with a new destination are migratable. -/
def MoversMigratable (g : Globals R) (threads : List (Thread R)) : Prop :=
  ∀ thread ∈ threads, thread.srcNode ≠ thread.dstNode → g.system.isMigratable thread.tid = true

omit [RealT R] in
/-- A migratable thread may be given any destination. -/
theorem MoversMigratable.setDstNode (h : MoversMigratable g threads)
    (hmig : g.system.isMigratable tid = true) :
    MoversMigratable g (setDstNode tid node threads) := by
  induction threads with
  | nil => exact h
  | cons thread threads ih =>
    have hrest : MoversMigratable g threads := fun t ht => h t (List.mem_cons_of_mem thread ht)
    unfold Mapping.setDstNode
    split_ifs with htid
    · intro t ht _
      obtain rfl | ht := List.mem_cons.mp ht
      · rw [← htid] at hmig
        exact hmig
      · exact hrest t ht ‹_›
    · intro t ht
      obtain rfl | ht := List.mem_cons.mp ht
      · exact h t List.mem_cons_self
      · exact ih hrest t ht

/-- **`migrate`.** The scores are forgotten; if there is such a thread, it gets the destination,
and its place in the map unless it is idle. -/
theorem migrate_cases (g : Globals R) (schedule : Schedule R) (tid : Pid) (dst : Node) :
    (schedule.migrate g tid dst).2 = ⟨schedule.threads, schedule.nodeTidMap, none, none⟩ ∨
    ∃ thread ∈ schedule.threads, thread.tid = tid ∧ (schedule.migrate g tid dst).2 =
      ⟨Mapping.setDstNode tid dst schedule.threads,
        if g.system.isIdle tid then schedule.nodeTidMap
        else insertTid (eraseTid schedule.nodeTidMap thread.dstNode tid) dst tid, none, none⟩ := by
  rcases hfind : schedule.threads.find? fun thread => thread.tid == tid with _ | thread
  · exact .inl (by rw [Schedule.migrate, hfind])
  · have htid : thread.tid = tid := by simpa using List.find?_some hfind
    refine .inr ⟨thread, List.mem_of_find?_eq_some hfind, htid, ?_⟩
    rw [Schedule.migrate, hfind]

omit [RealT R] in
/-- **`interchange`.** The scores are forgotten; if there are such threads, they get each other's
destination and place in the map. -/
theorem interchange_cases (schedule : Schedule R) (tid1 tid2 : Pid) :
    (schedule.interchange tid1 tid2).2 = ⟨schedule.threads, schedule.nodeTidMap, none, none⟩ ∨
    ∃ t1 ∈ schedule.threads, t1.tid = tid1 ∧ ∃ t2 ∈ schedule.threads, t2.tid = tid2 ∧
      (schedule.interchange tid1 tid2).2 =
        ⟨Mapping.setDstNode tid2 t1.dstNode (Mapping.setDstNode tid1 t2.dstNode schedule.threads),
          insertTid (eraseTid (insertTid (eraseTid schedule.nodeTidMap t1.dstNode tid1)
            (if tid1 = tid2 then t1.dstNode else t2.dstNode) tid1) t2.dstNode tid2) t1.dstNode tid2,
          none, none⟩ := by
  rcases hfind1 : schedule.threads.find? fun thread => thread.tid == tid1 with _ | t1
  · exact .inl (by simp only [Schedule.interchange, hfind1])
  · rcases hfind2 : schedule.threads.find? fun thread => thread.tid == tid2 with _ | t2
    · exact .inl (by simp only [Schedule.interchange, hfind1, hfind2])
    · have htid1 : t1.tid = tid1 := by simpa using List.find?_some hfind1
      have htid2 : t2.tid = tid2 := by simpa using List.find?_some hfind2
      refine .inr ⟨t1, List.mem_of_find?_eq_some hfind1, htid1, t2,
        List.mem_of_find?_eq_some hfind2, htid2, ?_⟩
      simp only [Schedule.interchange, hfind1, hfind2]

theorem MoversMigratable.migrate (h : MoversMigratable g schedule.threads)
    (hmig : g.system.isMigratable tid = true) :
    MoversMigratable g (schedule.migrate g tid node).2.threads := by
  obtain heq | ⟨thread, -, -, heq⟩ := migrate_cases g schedule tid node
  · rw [heq]
    exact h
  · rw [heq]
    exact h.setDstNode hmig

omit [RealT R] in
theorem MoversMigratable.interchange {swapTid : Pid} (h : MoversMigratable g schedule.threads)
    (hmig : g.system.isMigratable tid = true) (hswap : g.system.isMigratable swapTid = true) :
    MoversMigratable g (schedule.interchange tid swapTid).2.threads := by
  obtain heq | ⟨t1, -, -, t2, -, -, heq⟩ := interchange_cases schedule tid swapTid
  · rw [heq]
    exact h
  · rw [heq]
    exact (h.setDstNode hmig).setDstNode hswap

omit [RealT R] in
/-- A partner that is drawn is one of the threads of the node, and migratable. -/
theorem mem_of_drawSwap {swapTids : OrderedSet Pid} {attempts : ℕ} {swapTid : Pid}
    (h : drawSwap g swapTids attempts draws = some (some swapTid, draws')) :
    swapTid ∈ swapTids ∧ g.system.isMigratable swapTid = true := by
  induction attempts generalizing draws with
  | zero => simp [drawSwap] at h
  | succ attempts ih =>
    cases draws with
    | nil => simp [drawSwap] at h
    | cons draw draws =>
      simp only [drawSwap] at h
      split at h
      · simp at h
      · rename_i tid htid
        split_ifs at h with hmig
        · simp only [Option.some.injEq, Prod.mk.injEq] at h
          rw [← h.1]
          exact ⟨List.mem_of_getElem? htid, hmig⟩
        · exact ih h

omit [RealT R] in
/-- The node that is drawn is not the one to avoid. -/
theorem ne_of_drawOther {maxNode current : Node} {draws draws' : List ℕ}
    (h : drawOther maxNode current draws = some (node, draws')) : node ≠ current := by
  induction draws with
  | nil => simp [drawOther] at h
  | cons draw draws ih =>
    rw [drawOther] at h
    split_ifs at h with heq
    · exact ih h
    · obtain ⟨rfl, -⟩ := Prod.mk.inj (Option.some.inj h)
      exact heq

/-- What a mutation may do: nothing, send a thread to a node with a free core, or exchange it
with a thread of a full node. The threads concerned are migratable, and the thread that is sent
is not idle. -/
inductive Mutation (g : Globals R) (schedule : Schedule R) : Schedule R → Prop
  | skip : Mutation g schedule schedule
  | migrate {thread : Thread R} {dstNode : Node} {tids : OrderedSet Pid}
      (hthread : thread ∈ schedule.threads) (hmig : g.system.isMigratable thread.tid = true)
      (hidle : g.system.isIdle thread.tid = false) (hne : dstNode ≠ thread.dstNode)
      (htids : schedule.nodeTidMap dstNode = some tids)
      (hfree : tids.size < g.topology.numOfCpusIn dstNode) :
      Mutation g schedule (schedule.migrate g thread.tid dstNode).2
  | interchange {thread : Thread R} {dstNode : Node} {tids : OrderedSet Pid} {swapTid : Pid}
      (hthread : thread ∈ schedule.threads) (hmig : g.system.isMigratable thread.tid = true)
      (hidle : g.system.isIdle thread.tid = false) (hne : dstNode ≠ thread.dstNode)
      (htids : schedule.nodeTidMap dstNode = some tids)
      (hfull : ¬ tids.size < g.topology.numOfCpusIn dstNode) (hswap : swapTid ∈ tids)
      (hswapMig : g.system.isMigratable swapTid = true) :
      Mutation g schedule (schedule.interchange thread.tid swapTid).2

/-- **Mutations.** -/
theorem mutation_of_mutate (hmut : schedule.mutate g draws = some (schedule', draws')) :
    Mutation g schedule schedule' := by
  cases draws with
  | nil => simp [Schedule.mutate] at hmut
  | cons idx draws =>
    obtain ⟨thread, hthread, hmut⟩ := Option.bind_eq_some_iff.mp hmut
    have hmem : thread ∈ schedule.threads := List.mem_of_getElem? hthread
    split_ifs at hmut with hskip
    · obtain ⟨rfl, -⟩ := Prod.mk.inj (Option.some.inj hmut)
      exact .skip
    · rw [not_or, Bool.not_eq_false, Bool.not_eq_true] at hskip
      obtain ⟨⟨dstNode, rest⟩, hother, hsend⟩ := Option.bind_eq_some_iff.mp hmut
      obtain ⟨tids, htids, hsend⟩ := Option.bind_eq_some_iff.mp hsend
      have hne := ne_of_drawOther hother
      split_ifs at hsend with hfree
      · -- a free core: the thread alone gets a new destination
        obtain ⟨rfl, -⟩ := Prod.mk.inj (Option.some.inj hsend)
        exact .migrate hmem hskip.1 hskip.2 hne htids hfree
      · obtain ⟨⟨swapTid, rest'⟩, hdraw, heq⟩ := Option.map_eq_some_iff.mp hsend
        cases swapTid with
        | none =>
          -- all attempts were in vain
          obtain ⟨rfl, -⟩ := Prod.mk.inj heq
          exact .skip
        | some swapTid =>
          obtain ⟨rfl, -⟩ := Prod.mk.inj heq
          obtain ⟨hswap, hswapMig⟩ := mem_of_drawSwap hdraw
          exact .interchange hmem hskip.1 hskip.2 hne htids hfree hswap hswapMig

/-- What mutations preserve holds of every neighbour. -/
theorem neighbour_invariant {I : Schedule R → Prop} {mutations : ℕ}
    (hI : ∀ s s' d d', I s → mutate g s d = some (s', d') → I s') (h : I schedule)
    (hneigh : neighbour g mutations schedule draws = some (schedule', draws')) : I schedule' := by
  induction mutations generalizing schedule draws with
  | zero =>
    obtain ⟨rfl, -⟩ := Prod.mk.inj (Option.some.inj hneigh)
    exact h
  | succ mutations ih =>
    obtain ⟨⟨next, rest⟩, hmut, hneigh⟩ := Option.bind_eq_some_iff.mp hneigh
    exact ih (hI _ _ _ _ h hmut) hneigh

/-- **Movers.** A mutation keeps the threads that move migratable. -/
theorem MoversMigratable.mutate (h : MoversMigratable g schedule.threads)
    (hmut : schedule.mutate g draws = some (schedule', draws')) :
    MoversMigratable g schedule'.threads := by
  cases mutation_of_mutate hmut with
  | skip => exact h
  | migrate hthread hmig => exact h.migrate hmig
  | interchange hthread hmig _ _ _ _ _ hswapMig => exact h.interchange hmig hswapMig

/-- The threads of a neighbour that move are migratable if those of the schedule are. -/
theorem neighbour_moversMigratable {mutations : ℕ} (h : MoversMigratable g schedule.threads)
    (hneigh : neighbour g mutations schedule draws = some (schedule', draws')) :
    MoversMigratable g schedule'.threads :=
  neighbour_invariant (I := fun s => MoversMigratable g s.threads)
    (fun _ _ _ _ hs hmut => hs.mutate hmut) h hneigh

/-! ### The cells of a schedule -/

variable {t1 : Thread R} {migratedTids : OrderedSet Pid} {st st' : Migrating R}

/-- The partner found is migratable and not in a cell yet. -/
theorem admissible_of_betterSwap {tids : List Pid} {swap : Option (Pid × Tickets R)}
    (h : ∀ best, swap = some best →
      g.system.isMigratable best.1 = true ∧ best.1 ∉ migratedTids)
    {best : Pid × Tickets R}
    (hbest : tids.foldl (betterSwap g threads migratedTids t1) swap = some best) :
    g.system.isMigratable best.1 = true ∧ best.1 ∉ migratedTids := by
  induction tids generalizing swap with
  | nil => exact h best hbest
  | cons auxTid tids ih =>
    refine ih (fun better hbetter => ?_) hbest
    simp only [betterSwap] at hbetter
    split_ifs at hbetter with hskip hback hlt
    · exact h better hbetter
    · obtain rfl := Option.some.inj hbetter
      rw [not_or, Bool.not_eq_false] at hskip
      exact hskip
    · exact h better hbetter
    · exact h better hbetter

/-- A step of `migrations` for a thread that is migratable if it moves keeps the threads of the
cells migratable. -/
theorem migratable_migrationStep
    (hmover : t1.srcNode ≠ t1.dstNode → g.system.isMigratable t1.tid = true)
    (hst : ∀ t ∈ planTids st.mig, g.system.isMigratable t = true)
    (h : migrationStep g threads st t1 = some st') :
    ∀ t ∈ planTids st'.mig, g.system.isMigratable t = true := by
  by_cases hskip : t1.srcNode = t1.dstNode ∨ t1.tid ∈ st.migratedTids
  · rw [migrationStep, if_pos hskip] at h
    obtain rfl := Option.some.inj h
    exact hst
  · rw [migrationStep, if_neg hskip] at h
    have hmig := hmover (not_or.mp hskip).1
    obtain ⟨inDst, -, rfl⟩ := Option.map_eq_some_iff.mp h
    by_cases hfree : inDst.size < g.topology.cpusPerNode
    · simp only [hfree, if_true]
      intro t ht
      rw [planTids_concat, List.mem_append] at ht
      obtain ht | ht := ht
      · exact hst t ht
      · obtain rfl : t = t1.tid := by simpa [MigrationCell.tids, Globals.simpleCell] using ht
        exact hmig
    · simp only [hfree, if_false]
      cases hswap : (g.system.nonIdleTidsFromNode t1.dstNode).toList.foldl
          (betterSwap g threads st.migratedTids t1) none with
      | none => exact hst
      | some swap =>
        have hswapMig : g.system.isMigratable swap.1 = true :=
          (admissible_of_betterSwap (fun _ hnone => absurd hnone (by simp)) hswap).1
        intro t ht
        rw [planTids_concat, List.mem_append] at ht
        obtain ht | ht := ht
        · exact hst t ht
        · obtain rfl | rfl : t = t1.tid ∨ t = swap.1 := by
            simpa [MigrationCell.tids, Globals.simpleCell] using ht
          · exact hmig
          · exact hswapMig

/-- **Cells.** -/
theorem migratable_of_migrations {cells : List (MigrationCell R)}
    (hmovers : MoversMigratable g schedule.threads)
    (h : schedule.migrations g = some cells) :
    ∀ t ∈ planTids cells, g.system.isMigratable t = true := by
  obtain ⟨last, hlast, rfl⟩ := Option.map_eq_some_iff.mp h
  refine foldlM_invariant (I := fun st : Migrating R => ∀ t ∈ planTids st.mig,
    g.system.isMigratable t = true) (fun t ht => absurd ht List.not_mem_nil)
    (fun st next t1 ht1 hst hnext => ?_) hlast
  exact migratable_migrationStep (hmovers t1 ht1) hst hnext

end Schedule

end Thanos.Mapping
