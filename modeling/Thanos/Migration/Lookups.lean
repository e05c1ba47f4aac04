import Thanos.Migration.Neighbours

/-!
# Look-ups in the map of a schedule

The map of a schedule has entries for the nodes that a thread which is not idle is sent to at
first, and mutations add none. A neighbour looks up the node it has drawn, and `migrations` the
destinations of the threads that move; a look-up of a node without an entry throws.

* **Entries** (`Backed`): what holds of the map in every schedule that a search reaches.
* **Look-ups** (`neverThrows_iff`): no look-up fails exactly when every node that can be drawn
  has a thread from the start.
-/

namespace Thanos.Mapping

variable {R : Type} [RealT R] {g : Globals R} {schedule schedule' : Schedule R}
  {threads : List (Thread R)} {tid tid' : Pid} {node : Node}
  {nodeTidMap : Node → Option (OrderedSet Pid)} {draws draws' : List ℕ}

namespace Schedule

/-- The node whose entry a mutation looks up, once it has drawn it. -/
def lookedUp (g : Globals R) (schedule : Schedule R) : List ℕ → Option Node
  | [] => none
  | idx :: draws =>
    schedule.threads[rnd 0 schedule.threads.length idx]?.bind fun thread =>
      if g.system.isMigratable thread.tid = false ∨ g.system.isIdle thread.tid = true then none
      else (drawOther g.topology.maxNode thread.dstNode draws).map Prod.fst

/-- Some mutation of a neighbour looks up a node that has no entry. -/
def NeighbourThrows (g : Globals R) (mutations : ℕ) (schedule : Schedule R)
    (draws : List ℕ) : Prop :=
  ∃ done < mutations, ∃ (current : Schedule R) (rest : List ℕ) (node : Node),
    neighbour g done schedule draws = some (current, rest) ∧
      current.lookedUp g rest = some node ∧ current.nodeTidMap node = none

/-- A mutation that looks up a node without an entry has no result. -/
theorem mutate_eq_none (h : schedule.lookedUp g draws = some node)
    (hnone : schedule.nodeTidMap node = none) : schedule.mutate g draws = none := by
  rcases draws with _ | ⟨idx, draws⟩
  · simp [lookedUp] at h
  · obtain ⟨thread, hthread, h⟩ := Option.bind_eq_some_iff.mp h
    split_ifs at h with hskip
    obtain ⟨⟨dstNode, rest⟩, hdraw, rfl⟩ := Option.map_eq_some_iff.mp h
    rw [mutate, hthread, Option.bind_some, if_neg hskip, hdraw, Option.bind_some]
    simp only [send, hnone, Option.bind_none]

end Schedule

/-- No look-up in the map of a schedule that is built from the threads fails, in the mutations of
neighbours or in `migrations`. -/
def NeverThrows (g : Globals R) (threads : List (Thread R)) : Prop :=
  ∀ schedule, Reached g threads schedule →
    (∀ mutations draws, ¬ schedule.NeighbourThrows g mutations draws) ∧
      (schedule.migrations g).isSome

/-- A thread that is not idle starts on the node. -/
def Occupied (g : Globals R) (threads : List (Thread R)) (node : Node) : Prop :=
  ∃ thread ∈ threads, g.system.isIdle thread.tid = false ∧ thread.dstNode = node

/-- What holds of the schedules reached: the nodes with an entry are those that are occupied at
the start, and threads are sent nowhere else. -/
structure Backed (g : Globals R) (threads : List (Thread R)) (schedule : Schedule R) : Prop where
  entry : ∀ node, (schedule.nodeTidMap node).isSome ↔ Occupied g threads node
  nonIdle : ∀ node, ∀ tid ∈ (schedule.nodeTidMap node).getD ∅, g.system.isIdle tid = false
  dstNode : ∀ thread ∈ schedule.threads, g.system.isIdle thread.tid = false →
    Occupied g threads thread.dstNode
  atHome : ∀ thread ∈ schedule.threads, g.system.isIdle thread.tid = true →
    thread.srcNode = thread.dstNode
  map_tid : schedule.threads.map Thread.tid = threads.map Thread.tid

omit [RealT R] in
theorem mem_of_mem_setDstNode {thread : Thread R} (h : thread ∈ setDstNode tid node threads) :
    thread ∈ threads ∨ thread.tid = tid ∧ thread.dstNode = node := by
  induction threads with
  | nil => simp [setDstNode] at h
  | cons first threads ih =>
    rw [setDstNode] at h
    split_ifs at h with htid
    · obtain rfl | h := List.mem_cons.mp h
      · exact .inr ⟨htid, rfl⟩
      · exact .inl (List.mem_cons_of_mem first h)
    · obtain rfl | h := List.mem_cons.mp h
      · exact .inl List.mem_cons_self
      · exact (ih h).imp_left (List.mem_cons_of_mem first)

namespace Backed

theorem new (hhome : ∀ thread ∈ threads, thread.srcNode = thread.dstNode) :
    Backed g threads (Schedule.new g threads) where
  entry _ := isSome_nodeTidMap_new
  nonIdle node tid htid := by
    obtain ⟨thread, -, hidle, -, rfl⟩ := mem_nodeTidMap_new.mp htid
    exact hidle
  dstNode thread hthread hidle := ⟨thread, hthread, hidle, rfl⟩
  atHome thread hthread _ := hhome thread hthread
  map_tid := rfl

/-- A thread that is not idle is sent to an occupied node. -/
theorem setDstNode (h : Backed g threads schedule) (hidle : g.system.isIdle tid = false)
    (hnode : Occupied g threads node)
    (hentry : ∀ node', (nodeTidMap node').isSome ↔ Occupied g threads node')
    (hnonIdle : ∀ node', ∀ tid ∈ (nodeTidMap node').getD ∅, g.system.isIdle tid = false) :
    Backed g threads ⟨setDstNode tid node schedule.threads, nodeTidMap, none, none⟩ where
  entry := hentry
  nonIdle := hnonIdle
  dstNode thread hthread hthreadIdle := by
    obtain hthread | ⟨-, rfl⟩ := mem_of_mem_setDstNode hthread
    · exact h.dstNode thread hthread hthreadIdle
    · exact hnode
  atHome thread hthread hthreadIdle := by
    obtain hthread | ⟨rfl, -⟩ := mem_of_mem_setDstNode hthread
    · exact h.atHome thread hthread hthreadIdle
    · simp [hidle] at hthreadIdle
  map_tid := map_tid_setDstNode.trans h.map_tid

/-- The look-ups and insertions of a move concern occupied nodes only. -/
theorem entry_insertTid_eraseTid {node1 node2 : Node}
    (h : ∀ node, (nodeTidMap node).isSome ↔ Occupied g threads node)
    (hnode1 : Occupied g threads node1) (hnode2 : Occupied g threads node2) :
    (insertTid (eraseTid nodeTidMap node1 tid) node2 tid node).isSome ↔
      Occupied g threads node := by
  rw [isSome_insertTid, isSome_eraseTid, h]
  constructor
  · rintro (rfl | rfl | hnode)
    · exact hnode2
    · exact hnode1
    · exact hnode
  · exact fun hnode => .inr (.inr hnode)

theorem nonIdle_insertTid_eraseTid {node1 node2 : Node}
    (h : ∀ node, ∀ tid ∈ (nodeTidMap node).getD ∅, g.system.isIdle tid = false)
    (hidle : g.system.isIdle tid = false) :
    ∀ tid' ∈ (insertTid (eraseTid nodeTidMap node1 tid) node2 tid node).getD ∅,
      g.system.isIdle tid' = false := by
  intro tid' htid'
  rw [mem_insertTid, mem_eraseTid] at htid'
  obtain ⟨-, rfl⟩ | ⟨-, htid'⟩ := htid'
  · exact hidle
  · exact h node tid' htid'

theorem migrate (h : Backed g threads schedule) (hidle : g.system.isIdle tid = false)
    (hnode : Occupied g threads node) :
    Backed g threads (schedule.migrate g tid node).2 := by
  obtain heq | ⟨thread, hthread, rfl, heq⟩ := Schedule.migrate_cases g schedule tid node
  · rw [heq]
    exact ⟨h.entry, h.nonIdle, h.dstNode, h.atHome, h.map_tid⟩
  · rw [heq]
    simp only [hidle, Bool.false_eq_true, if_false]
    exact h.setDstNode hidle hnode
      (fun _ => entry_insertTid_eraseTid h.entry (h.dstNode thread hthread hidle) hnode)
      fun _ => nonIdle_insertTid_eraseTid h.nonIdle hidle

theorem interchange (h : Backed g threads schedule) (hidle : g.system.isIdle tid = false)
    (hidle' : g.system.isIdle tid' = false) :
    Backed g threads (schedule.interchange tid tid').2 := by
  obtain heq | ⟨t1, ht1, rfl, t2, ht2, rfl, heq⟩ := Schedule.interchange_cases schedule tid tid'
  · rw [heq]
    exact ⟨h.entry, h.nonIdle, h.dstNode, h.atHome, h.map_tid⟩
  · have hnode1 := h.dstNode t1 ht1 hidle
    have hnode2 := h.dstNode t2 ht2 hidle'
    rw [heq]
    have hdst : Occupied g threads (if t1.tid = t2.tid then t1.dstNode else t2.dstNode) := by
      split_ifs
      · exact hnode1
      · exact hnode2
    have hfirst := h.setDstNode hidle hnode2
      (fun _ => entry_insertTid_eraseTid h.entry hnode1 hdst)
      fun _ => nonIdle_insertTid_eraseTid h.nonIdle hidle
    exact hfirst.setDstNode hidle' hnode1
      (fun _ => entry_insertTid_eraseTid hfirst.entry hnode2 hnode1)
      fun _ => nonIdle_insertTid_eraseTid hfirst.nonIdle hidle'

/-- A thread that is listed at a node is not idle. -/
theorem nonIdle_of_mem (h : Backed g threads schedule) {tids : OrderedSet Pid}
    (htids : schedule.nodeTidMap node = some tids) (htid : tid ∈ tids) :
    g.system.isIdle tid = false := by
  have hnonIdle := h.nonIdle node
  rw [htids] at hnonIdle
  exact hnonIdle tid htid

theorem mutation (h : Backed g threads schedule)
    (hmut : Schedule.Mutation g schedule schedule') : Backed g threads schedule' := by
  have hoccupied : ∀ {node tids}, schedule.nodeTidMap node = some tids →
      Occupied g threads node := fun htids => (h.entry _).mp (by rw [htids, Option.isSome_some])
  cases hmut with
  | skip => exact h
  | migrate _ _ hidle _ htids _ => exact h.migrate hidle (hoccupied htids)
  | interchange _ _ hidle _ htids _ hswap _ =>
    exact h.interchange hidle (h.nonIdle_of_mem htids hswap)

/-- `migrations` finds an entry for every thread that moves, since an idle thread does not. -/
theorem isSome_migrations (h : Backed g threads schedule) : (schedule.migrations g).isSome := by
  rw [Schedule.migrations, Option.isSome_map]
  refine Option.isSome_iff_exists.mpr ⟨_, foldlM_eq_run
    (I := fun st : Schedule.Migrating R => ∀ node, Occupied g threads node →
      (st.nodeTidMap node).isSome) (fun node => (h.entry node).mpr) fun st t1 ht1 hst => ?_⟩
  unfold Schedule.migrationStep
  split_ifs with hskip
  · exact ⟨st, rfl, hst⟩
  · have hidle : g.system.isIdle t1.tid = false := by
      rw [← Bool.not_eq_true]
      exact fun hidle => hskip (.inl (h.atHome t1 ht1 hidle))
    obtain ⟨tids, htids⟩ := Option.isSome_iff_exists.mp (hst _ (h.dstNode t1 ht1 hidle))
    rw [htids, Option.map_some]
    refine ⟨_, rfl, fun node hnode => ?_⟩
    dsimp only
    split_ifs
    · rw [isSome_insertTid]
      exact .inr (hst node hnode)
    · split
      · exact hst node hnode
      · exact hst node hnode

end Backed

theorem Reached.backed (hhome : ∀ thread ∈ threads, thread.srcNode = thread.dstNode)
    (h : Reached g threads schedule) : Backed g threads schedule := by
  induction h with
  | new => exact Backed.new hhome
  | neighbour _ hneigh ih =>
    exact Schedule.neighbour_invariant
      (fun s s' _ _ hs hmut => hs.mutation (Schedule.mutation_of_mutate hmut)) ih hneigh
  | expectedTickets _ ih => exact ⟨ih.entry, ih.nonIdle, ih.dstNode, ih.atHome, ih.map_tid⟩
  | expectedPerf _ ih => exact ⟨ih.entry, ih.nonIdle, ih.dstNode, ih.atHome, ih.map_tid⟩

/-- **Look-ups.** For threads that start on their nodes no look-up fails exactly when every node
that can be drawn has a thread that is not idle, or no thread is migratable and not idle. -/
theorem neverThrows_iff (hhome : ∀ thread ∈ threads, thread.srcNode = thread.dstNode) :
    NeverThrows g threads ↔
      ∀ thread ∈ threads, g.system.isMigratable thread.tid = true →
        g.system.isIdle thread.tid = false →
        ∀ draw, Occupied g threads (rnd 0 g.topology.maxNode draw) := by
  constructor
  · intro h thread hthread hmig hidle draw
    by_contra hfree
    obtain ⟨idx, hidx, hget⟩ := List.mem_iff_getElem.mp hthread
    -- the thread is picked, and the node without a thread is drawn
    have hother : drawOther g.topology.maxNode thread.dstNode [draw] =
        some (rnd 0 g.topology.maxNode draw, []) := by
      have hne : rnd 0 g.topology.maxNode draw ≠ thread.dstNode :=
        fun heq => hfree ⟨thread, hthread, hidle, heq.symm⟩
      rw [drawOther, if_neg hne]
    have hpicked : (Schedule.new g threads).threads[rnd 0 threads.length idx]? = some thread := by
      rw [rnd_of_lt hidx]
      exact List.getElem?_eq_some_iff.mpr ⟨hidx, hget⟩
    have hlooked : (Schedule.new g threads).lookedUp g [idx, draw] =
        some (rnd 0 g.topology.maxNode draw) := by
      refine (Option.bind_eq_some_iff.mpr ⟨thread, hpicked, ?_⟩)
      simp [hmig, hidle, hother]
    refine (h _ .new).1 1 [idx, draw] ⟨0, Nat.one_pos, Schedule.new g threads, [idx, draw],
      _, rfl, hlooked, ?_⟩
    rw [← Option.not_isSome_iff_eq_none, (Backed.new hhome).entry]
    exact hfree
  · intro h schedule hreached
    have hbacked := hreached.backed hhome
    refine ⟨fun mutations draws => ?_, hbacked.isSome_migrations⟩
    rintro ⟨done, -, current, rest, node, hneigh, hlooked, hnone⟩
    have hcurrent : Backed g threads current := (hreached.neighbour hneigh).backed hhome
    rw [← Option.not_isSome_iff_eq_none, hcurrent.entry] at hnone
    refine hnone ?_
    rcases rest with _ | ⟨idx, rest⟩
    · simp [Schedule.lookedUp] at hlooked
    · obtain ⟨thread, hthread, hlooked⟩ := Option.bind_eq_some_iff.mp hlooked
      split_ifs at hlooked with hskip
      rw [not_or, Bool.not_eq_false, Bool.not_eq_true] at hskip
      obtain ⟨⟨dstNode, draws'⟩, hdraw, rfl⟩ := Option.map_eq_some_iff.mp hlooked
      obtain ⟨-, draw, rfl⟩ := exists_of_drawOther hdraw
      have htid : thread.tid ∈ threads.map Thread.tid := by
        rw [← hcurrent.map_tid]
        exact List.mem_map_of_mem (List.mem_of_getElem? hthread)
      obtain ⟨first, hfirst, heq⟩ := List.mem_map.mp htid
      rw [← heq] at hskip
      exact h first hfirst hskip.1 hskip.2 draw

/-- Of two nodes node 0 is drawn only: no look-up fails as long as a thread is there. -/
theorem neverThrows_iff_oneAndTwo : NeverThrows oneAndTwo oneAndTwoSchedule.threads := by
  refine (neverThrows_iff (by decide)).mpr fun _ _ _ _ draw => ?_
  have hzero : rnd 0 oneAndTwo.topology.maxNode draw = 0 :=
    Nat.lt_one_iff.mp (rnd_lt (by decide))
  rw [hzero]
  exact ⟨_, List.mem_cons_self, by decide +kernel, rfl⟩

/-- With one thread only, on node 1, the first neighbour looks up node 0, without an entry. -/
theorem not_neverThrows :
    ¬ ∀ (g : Globals ℚ) (threads : List (Thread ℚ)),
      (∀ thread ∈ threads, thread.srcNode = thread.dstNode ∧
        thread.dstNode ∈ g.topology.nodes) → NeverThrows g threads := by
  intro h
  let threads : List (Thread ℚ) := [⟨2, Rm3d.new (Settings.default 1 64), 1, 1⟩]
  have hnever := h oneAndTwo threads (by decide)
  refine (hnever _ .new).1 1 [0, 0] ⟨0, Nat.one_pos, Schedule.new oneAndTwo threads, [0, 0], 0,
    rfl, by decide +kernel, by decide +kernel⟩

end Thanos.Mapping
