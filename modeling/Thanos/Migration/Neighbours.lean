import Thanos.Migration.Schedule
import Thanos.SystemInfo.PlacementRuns

/-!
# Neighbours of a schedule

The map of a schedule lists, for every node, the threads that are sent there and are not idle.
A neighbour is made by random mutations, each of which sends a thread to a node with a free core
or exchanges two threads.

* **Maps** (`Listed`): mutations keep the map a listing of the threads by their destinations.
* **Neighbours** (`neighbour_spec`): a neighbour has the same threads; two threads for each
  mutation, at most, have another destination, and no node is filled beyond its CPUs.
* **Draws** (`redraws_iff`): the loop that draws another node never draws the last one.
-/

namespace Thanos.Mapping

variable {R : Type} [RealT R]

/-! ### Threads by their destinations -/

/-- The thread with an identifier is sent to a node. -/
def Sent (threads : List (Thread R)) (tid : Pid) (node : Node) : Prop :=
  ∃ thread ∈ threads, thread.tid = tid ∧ thread.dstNode = node

variable {g : Globals R} {schedule schedule' : Schedule R} {threads : List (Thread R)}
  {tid tid' : Pid} {node node' : Node} {nodeTidMap : Node → Option (OrderedSet Pid)}
  {draws draws' : List ℕ} {mutations : ℕ}

@[simp]
theorem mem_insertTid :
    tid' ∈ (insertTid nodeTidMap node tid node').getD ∅ ↔
      node' = node ∧ tid' = tid ∨ tid' ∈ (nodeTidMap node').getD ∅ := by
  by_cases h : node' = node
  · subst h
    simp [insertTid]
  · simp [insertTid, h]

@[simp]
theorem mem_eraseTid :
    tid' ∈ (eraseTid nodeTidMap node tid node').getD ∅ ↔
      ¬ (node' = node ∧ tid' = tid) ∧ tid' ∈ (nodeTidMap node').getD ∅ := by
  by_cases h : node' = node
  · subst h
    simp [eraseTid]
  · simp [eraseTid, h]

omit [RealT R] in
/-- Only the thread with the identifier is given a new destination. -/
theorem setDstNode_eq_map (h : (threads.map Thread.tid).Nodup) :
    setDstNode tid node threads =
      threads.map fun thread =>
        if thread.tid = tid then { thread with dstNode := node } else thread := by
  induction threads with
  | nil => rfl
  | cons thread threads ih =>
    rw [List.map_cons, List.nodup_cons] at h
    rw [setDstNode, List.map_cons]
    split_ifs with htid
    · have hrest : ∀ t ∈ threads,
          (if t.tid = tid then { t with dstNode := node } else t) = id t := by
        intro t ht
        have hne : t.tid ≠ tid := fun heq => h.1 (htid ▸ heq ▸ List.mem_map_of_mem ht)
        rw [if_neg hne, id]
      rw [List.map_congr_left hrest, List.map_id]
    · rw [ih h.2]

omit [RealT R] in
@[simp]
theorem map_tid_setDstNode :
    (setDstNode tid node threads).map Thread.tid = threads.map Thread.tid := by
  induction threads with
  | nil => rfl
  | cons thread threads ih =>
    rw [setDstNode]
    split_ifs with htid
    · rfl
    · rw [List.map_cons, ih, List.map_cons]

omit [RealT R] in
/-- A thread is sent to its destination only. -/
theorem sent_iff {thread : Thread R} (h : (threads.map Thread.tid).Nodup)
    (hthread : thread ∈ threads) : Sent threads thread.tid node ↔ node = thread.dstNode := by
  constructor
  · rintro ⟨thread', hthread', htid, rfl⟩
    rw [List.inj_on_of_nodup_map h hthread' hthread htid]
  · rintro rfl
    exact ⟨thread, hthread, rfl, rfl⟩

omit [RealT R] in
/-- After a new destination was given, the thread is sent there and the others where they were. -/
theorem sent_setDstNode (h : (threads.map Thread.tid).Nodup)
    (htid : tid ∈ threads.map Thread.tid) :
    Sent (setDstNode tid node threads) tid' node' ↔
      if tid' = tid then node' = node else Sent threads tid' node' := by
  rw [Sent, setDstNode_eq_map h]
  simp only [List.mem_map, exists_exists_and_eq_and]
  split_ifs with heq
  · subst heq
    constructor
    · rintro ⟨thread, -, htid', hnode⟩
      split_ifs at htid' hnode with hthread
      · exact hnode.symm
      · exact absurd htid' hthread
    · rintro rfl
      obtain ⟨thread, hthread, rfl⟩ := List.mem_map.mp htid
      exact ⟨thread, hthread, by simp⟩
  · refine exists_congr fun thread => and_congr_right fun _ => ?_
    split_ifs with hthread
    · exact iff_of_false (fun h => heq (hthread ▸ h.1).symm) fun h => heq (hthread ▸ h.1).symm
    · rfl

/-- The threads that are sent to a node and are not idle. -/
def threadsIn (g : Globals R) (threads : List (Thread R)) (node : Node) : List (Thread R) :=
  threads.filter fun thread => !g.system.isIdle thread.tid && decide (thread.dstNode = node)

theorem mem_threadsIn {thread : Thread R} : thread ∈ threadsIn g threads node ↔
    thread ∈ threads ∧ g.system.isIdle thread.tid = false ∧ thread.dstNode = node := by
  rw [threadsIn, List.mem_filter, Bool.and_eq_true, Bool.not_eq_true', decide_eq_true_eq]

/-- The constructor makes an entry for the node of the first thread that is not idle, and enters
the others there. -/
theorem foldl_insertTid : threads.foldl (fun nodeTidMap thread =>
      if g.system.isIdle thread.tid then nodeTidMap
      else insertTid nodeTidMap thread.dstNode thread.tid) nodeTidMap node =
    if threadsIn g threads node = [] then nodeTidMap node
    else some (((nodeTidMap node).getD ∅).insertMany
      ((threadsIn g threads node).map Thread.tid)) := by
  induction threads generalizing nodeTidMap with
  | nil => rfl
  | cons thread threads ih =>
    rw [List.foldl_cons, ih]
    by_cases hin : g.system.isIdle thread.tid = false ∧ thread.dstNode = node
    · obtain ⟨hidle, rfl⟩ := hin
      have hcons : threadsIn g (thread :: threads) thread.dstNode =
          thread :: threadsIn g threads thread.dstNode := by
        simp [threadsIn, hidle]
      rw [hcons, if_neg (List.cons_ne_nil _ _)]
      simp only [hidle, Bool.false_eq_true, if_false, insertTid, Function.update_self,
        Option.getD_some]
      split_ifs with hnil
      · rw [hnil]
        rfl
      · rfl
    · have hskip : threadsIn g (thread :: threads) node = threadsIn g threads node :=
        List.filter_cons_of_neg (by simpa using hin)
      have hsame : (if g.system.isIdle thread.tid then nodeTidMap
          else insertTid nodeTidMap thread.dstNode thread.tid) node = nodeTidMap node := by
        split_ifs with hidle
        · rfl
        · have hne : node ≠ thread.dstNode := fun heq => hin ⟨by simpa using hidle, heq.symm⟩
          exact Function.update_of_ne hne ..
      rw [hskip, hsame]

theorem nodeTidMap_new : (Schedule.new g threads).nodeTidMap node =
    if threadsIn g threads node = [] then none
    else some (OrderedSet.insertMany ∅ ((threadsIn g threads node).map Thread.tid)) :=
  foldl_insertTid

theorem mem_nodeTidMap_new : tid ∈ ((Schedule.new g threads).nodeTidMap node).getD ∅ ↔
    ∃ thread ∈ threads, g.system.isIdle thread.tid = false ∧ thread.dstNode = node ∧
      thread.tid = tid := by
  have hmem : tid ∈ ((Schedule.new g threads).nodeTidMap node).getD ∅ ↔
      tid ∈ (threadsIn g threads node).map Thread.tid := by
    rw [nodeTidMap_new]
    split_ifs with hnil
    · simp [hnil]
    · rw [Option.getD_some, OrderedSet.mem_insertMany]
      exact or_iff_left OrderedSet.notMem_empty
  simp only [hmem, List.mem_map, mem_threadsIn, and_assoc]

theorem isSome_nodeTidMap_new : ((Schedule.new g threads).nodeTidMap node).isSome ↔
    ∃ thread ∈ threads, g.system.isIdle thread.tid = false ∧ thread.dstNode = node := by
  have hsome : ((Schedule.new g threads).nodeTidMap node).isSome ↔
      threadsIn g threads node ≠ [] := by
    rw [nodeTidMap_new]
    split_ifs with hnil
    · simp [hnil]
    · simp [hnil]
  rw [hsome, Ne, List.eq_nil_iff_forall_not_mem, not_forall_not]
  simp only [mem_threadsIn]

/-- `nodeTidMap` lists the threads that are not idle by their destinations. -/
structure Listed (g : Globals R) (schedule : Schedule R) : Prop where
  nodup : (schedule.threads.map Thread.tid).Nodup
  mem_iff : ∀ node tid, tid ∈ (schedule.nodeTidMap node).getD ∅ ↔
    g.system.isIdle tid = false ∧ Sent schedule.threads tid node

namespace Listed

/-- The map of a new schedule lists the threads by their destinations. -/
theorem new (h : (threads.map Thread.tid).Nodup) : Listed g (Schedule.new g threads) where
  nodup := h
  mem_iff node tid := by
    rw [mem_nodeTidMap_new]
    constructor
    · rintro ⟨thread, hthread, hidle, hnode, rfl⟩
      exact ⟨hidle, thread, hthread, rfl, hnode⟩
    · rintro ⟨hidle, thread, hthread, rfl, hnode⟩
      exact ⟨thread, hthread, hidle, hnode, rfl⟩

/-- A move takes the thread from the set of its node to that of the new one. -/
theorem migrate (h : Listed g schedule) : Listed g (schedule.migrate g tid node).2 := by
  obtain heq | ⟨thread, hthread, rfl, heq⟩ := Schedule.migrate_cases g schedule tid node
  · rw [heq]
    exact ⟨h.nodup, h.mem_iff⟩
  · have htid : thread.tid ∈ schedule.threads.map Thread.tid := List.mem_map_of_mem hthread
    rw [heq]
    refine ⟨by simpa using h.nodup, fun node' tid' => ?_⟩
    simp only [sent_setDstNode h.nodup htid]
    cases hidle : g.system.isIdle thread.tid with
    | true =>
      -- an idle thread is not in the map
      rw [if_pos rfl, h.mem_iff]
      refine and_congr_right fun htid' => ?_
      have hne : tid' ≠ thread.tid := by
        rintro rfl
        simp [hidle] at htid'
      rw [if_neg hne]
    | false =>
      simp only [Bool.false_eq_true, if_false, mem_insertTid, mem_eraseTid, h.mem_iff]
      by_cases heq : tid' = thread.tid
      · subst heq
        simp [sent_iff h.nodup hthread, hidle]
      · simp [heq]

/-- An exchange takes both threads to the set of the other. -/
theorem interchange (h : Listed g schedule) (hidle : g.system.isIdle tid = false)
    (hidle' : g.system.isIdle tid' = false) : Listed g (schedule.interchange tid tid').2 := by
  obtain heq | ⟨t1, ht1, rfl, t2, ht2, rfl, heq⟩ := Schedule.interchange_cases schedule tid tid'
  · rw [heq]
    exact ⟨h.nodup, h.mem_iff⟩
  · have htid1 : t1.tid ∈ schedule.threads.map Thread.tid := List.mem_map_of_mem ht1
    have htid2 : t2.tid ∈ schedule.threads.map Thread.tid := List.mem_map_of_mem ht2
    rw [heq]
    refine ⟨by simpa using h.nodup, fun node tid => ?_⟩
    simp only [mem_insertTid, mem_eraseTid, h.mem_iff]
    rw [sent_setDstNode (by simpa using h.nodup) (by simpa using htid2),
      sent_setDstNode h.nodup htid1]
    by_cases heq2 : tid = t2.tid
    · subst heq2
      by_cases heq1 : t2.tid = t1.tid
      · -- a thread exchanged with itself stays
        obtain rfl : t2 = t1 := List.inj_on_of_nodup_map h.nodup ht2 ht1 heq1
        simp [sent_iff h.nodup ht2, hidle']
      · simp [heq1, sent_iff h.nodup ht2, hidle']
    · by_cases heq1 : tid = t1.tid
      · subst heq1
        simp [heq2, sent_iff h.nodup ht1, hidle]
      · simp [heq1, heq2]

/-- A thread that is listed at a node is not idle. -/
theorem nonIdle_of_mem (h : Listed g schedule) {tids : OrderedSet Pid}
    (htids : schedule.nodeTidMap node = some tids) (htid : tid ∈ tids) :
    g.system.isIdle tid = false ∧ Sent schedule.threads tid node := by
  rw [← h.mem_iff, htids]
  exact htid

/-- **Maps.** -/
theorem mutation (h : Listed g schedule) (hmut : Schedule.Mutation g schedule schedule') :
    Listed g schedule' := by
  cases hmut with
  | skip => exact h
  | migrate => exact h.migrate
  | interchange _ _ hidle _ htids _ hswap _ =>
    exact h.interchange hidle (h.nonIdle_of_mem htids hswap).1

end Listed

/-! ### Neighbours -/

/-- The number of threads that are sent to a node and are not idle. -/
def numIn (g : Globals R) (threads : List (Thread R)) (node : Node) : ℕ :=
  threads.countP fun thread => !g.system.isIdle thread.tid && decide (thread.dstNode = node)

/-- The set of a node has as many members as threads are sent there. -/
theorem Listed.size_eq (h : Listed g schedule) :
    ((schedule.nodeTidMap node).getD ∅).size = numIn g schedule.threads node := by
  have hnodup : ((threadsIn g schedule.threads node).map Thread.tid).Nodup :=
    h.nodup.sublist (List.filter_sublist.map Thread.tid)
  have hperm : ((schedule.nodeTidMap node).getD ∅).toList.Perm
      ((threadsIn g schedule.threads node).map Thread.tid) := by
    refine (List.perm_ext_iff_of_nodup (OrderedSet.increasing _ |>.imp ne_of_lt) hnodup).mpr
      fun tid => ?_
    rw [← OrderedSet.mem_def, h.mem_iff, Sent, List.mem_map]
    simp only [mem_threadsIn]
    constructor
    · rintro ⟨hidle, thread, hthread, rfl, hnode⟩
      exact ⟨thread, ⟨hthread, hidle, hnode⟩, rfl⟩
    · rintro ⟨thread, ⟨hthread, hidle, hnode⟩, rfl⟩
      exact ⟨hidle, thread, hthread, rfl, hnode⟩
  rw [OrderedSet.size, hperm.length_eq, List.length_map, numIn, List.countP_eq_length_filter,
    threadsIn]

omit [RealT R] in
/-- A thread is found by its identifier. -/
theorem find_tid (h : (threads.map Thread.tid).Nodup) {thread : Thread R}
    (hthread : thread ∈ threads) :
    threads.find? (fun t => t.tid == thread.tid) = some thread := by
  cases hfind : threads.find? fun t => t.tid == thread.tid with
  | none =>
    have hnone := List.find?_eq_none.mp hfind thread hthread
    simp at hnone
  | some t =>
    have htid : t.tid = thread.tid := by simpa using List.find?_some hfind
    rw [List.inj_on_of_nodup_map h (List.mem_of_find?_eq_some hfind) hthread htid]

theorem Listed.size_migrate (h : Listed g schedule) {thread : Thread R}
    (hthread : thread ∈ schedule.threads) (hidle : g.system.isIdle thread.tid = false)
    {tids : OrderedSet Pid} {dstNode : Node} (htids : schedule.nodeTidMap dstNode = some tids)
    (hfree : tids.size < g.topology.numOfCpusIn dstNode) :
    (((schedule.migrate g thread.tid dstNode).2.nodeTidMap node).getD ∅).size ≤
      max ((schedule.nodeTidMap node).getD ∅).size (g.topology.numOfCpusIn node) := by
  have hmem : ∀ tid, tid ∈ ((schedule.migrate g thread.tid dstNode).2.nodeTidMap node).getD ∅ →
      node = dstNode ∧ tid = thread.tid ∨ tid ∈ (schedule.nodeTidMap node).getD ∅ := by
    intro tid htid
    simp only [Schedule.migrate, find_tid h.nodup hthread, hidle, Bool.false_eq_true, if_false,
      mem_insertTid, mem_eraseTid] at htid
    exact htid.imp_right And.right
  by_cases heq : node = dstNode
  · subst heq
    rw [htids, Option.getD_some] at hmem ⊢
    have hle := OrderedSet.size_le_of_mem_insert fun tid htid => (hmem tid htid).imp_left And.right
    exact le_max_of_le_right (hle.trans hfree)
  · refine le_max_of_le_left (OrderedSet.size_le_of_subset fun tid htid => ?_)
    exact (hmem tid htid).resolve_left fun h => heq h.1

theorem Listed.size_interchange (h : Listed g schedule) {thread : Thread R}
    (hthread : thread ∈ schedule.threads) (hidle : g.system.isIdle thread.tid = false)
    {tids : OrderedSet Pid} {dstNode : Node} {swapTid : Pid} (hne : dstNode ≠ thread.dstNode)
    (htids : schedule.nodeTidMap dstNode = some tids) (hswap : swapTid ∈ tids) :
    (((schedule.interchange thread.tid swapTid).2.nodeTidMap node).getD ∅).size ≤
      ((schedule.nodeTidMap node).getD ∅).size := by
  obtain ⟨-, swap, hmem, rfl, rfl⟩ := h.nonIdle_of_mem htids hswap
  have hthreadMem : thread.tid ∈ (schedule.nodeTidMap thread.dstNode).getD ∅ :=
    (h.mem_iff _ _).mpr ⟨hidle, thread, hthread, rfl, rfl⟩
  have hdiff : thread.tid ≠ swap.tid := by
    intro heq
    rw [List.inj_on_of_nodup_map h.nodup hthread hmem heq] at hne
    exact hne rfl
  have hset : ∀ tid,
      tid ∈ ((schedule.interchange thread.tid swap.tid).2.nodeTidMap node).getD ∅ →
      node = thread.dstNode ∧ (tid = swap.tid ∨ tid ≠ thread.tid ∧
          tid ∈ (schedule.nodeTidMap node).getD ∅) ∨
        node = swap.dstNode ∧ (tid = thread.tid ∨ tid ≠ swap.tid ∧
          tid ∈ (schedule.nodeTidMap node).getD ∅) ∨
        node ≠ thread.dstNode ∧ node ≠ swap.dstNode ∧
          tid ∈ (schedule.nodeTidMap node).getD ∅ := by
    intro tid htid
    simp only [Schedule.interchange, find_tid h.nodup hthread, find_tid h.nodup hmem, if_neg hdiff,
      mem_insertTid, mem_eraseTid] at htid
    obtain ⟨hnode, rfl⟩ | ⟨hswap', ⟨hnode, rfl⟩ | ⟨hthread', hold⟩⟩ := htid
    · exact .inl ⟨hnode, .inl rfl⟩
    · exact .inr (.inl ⟨hnode, .inl rfl⟩)
    · -- a thread that was there before
      by_cases hnode : node = thread.dstNode
      · exact .inl ⟨hnode, .inr ⟨fun heq => hthread' ⟨hnode, heq⟩, hold⟩⟩
      · by_cases hnode' : node = swap.dstNode
        · exact .inr (.inl ⟨hnode', .inr ⟨fun heq => hswap' ⟨hnode', heq⟩, hold⟩⟩)
        · exact .inr (.inr ⟨hnode, hnode', hold⟩)
  by_cases hnode : node = thread.dstNode
  · subst hnode
    refine OrderedSet.size_le_of_mem_replace (a := swap.tid) hthreadMem fun tid htid => ?_
    obtain ⟨-, hcase⟩ | ⟨heq, -⟩ | ⟨hnot, -⟩ := hset tid htid
    · exact hcase
    · exact absurd heq.symm hne
    · exact absurd rfl hnot
  · by_cases hnode' : node = swap.dstNode
    · subst hnode'
      rw [htids, Option.getD_some] at hset ⊢
      refine OrderedSet.size_le_of_mem_replace (a := thread.tid) hswap fun tid htid => ?_
      obtain ⟨heq, -⟩ | ⟨-, hcase⟩ | ⟨-, hnot, -⟩ := hset tid htid
      · exact absurd heq hne
      · exact hcase
      · exact absurd rfl hnot
    · refine OrderedSet.size_le_of_subset fun tid htid => ?_
      obtain ⟨heq, -⟩ | ⟨heq, -⟩ | ⟨-, -, hcase⟩ := hset tid htid
      · exact absurd heq hnode
      · exact absurd heq hnode'
      · exact hcase

/-- **Loads.** A node is filled up to its CPUs, and not beyond. -/
theorem Listed.numIn_mutation (h : Listed g schedule)
    (hmut : Schedule.Mutation g schedule schedule') :
    numIn g schedule'.threads node ≤
      max (numIn g schedule.threads node) (g.topology.numOfCpusIn node) := by
  have h' := h.mutation hmut
  rw [← h.size_eq, ← h'.size_eq]
  cases hmut with
  | skip => exact le_max_left _ _
  | migrate hthread _ hidle _ htids hfree => exact h.size_migrate hthread hidle htids hfree
  | interchange hthread _ hidle hne htids _ hswap _ =>
    exact le_max_of_le_left (h.size_interchange hthread hidle hne htids hswap)

/-- A thread with the new destination that it is given, if it is given one. -/
def redirect (dst : Pid → Option Node) (thread : Thread R) : Thread R :=
  { thread with dstNode := (dst thread.tid).getD thread.dstNode }

/-- The threads are the same but for the destinations of some of them, `n` at most, which are
migratable and not idle. -/
def Redirected (g : Globals R) (n : ℕ) (threads threads' : List (Thread R)) : Prop :=
  ∃ (dst : Pid → Option Node) (moved : Finset Pid), threads' = threads.map (redirect dst) ∧
    moved.card ≤ n ∧ (∀ tid, tid ∉ moved → dst tid = none) ∧
      ∀ tid ∈ moved, g.system.isMigratable tid = true ∧ g.system.isIdle tid = false

namespace Redirected

variable {threads' threads'' : List (Thread R)} {n n' : ℕ}

theorem refl : Redirected g n threads threads := by
  refine ⟨fun _ => none, ∅, ?_, by simp, fun _ _ => rfl, by simp⟩
  exact (List.map_id threads).symm

theorem trans (h : Redirected g n threads threads') (h' : Redirected g n' threads' threads'') :
    Redirected g (n + n') threads threads'' := by
  obtain ⟨dst, moved, rfl, hcard, hnone, hmoved⟩ := h
  obtain ⟨dst', moved', rfl, hcard', hnone', hmoved'⟩ := h'
  refine ⟨fun tid => (dst' tid).or (dst tid), moved ∪ moved', ?_, ?_, fun tid htid => ?_,
    fun tid htid => ?_⟩
  · rw [List.map_map]
    refine List.map_congr_left fun thread _ => ?_
    simp [redirect, Option.getD_or]
  · exact (Finset.card_union_le moved moved').trans (Nat.add_le_add hcard hcard')
  · rw [Finset.mem_union, not_or] at htid
    show (dst' tid).or (dst tid) = none
    rw [hnone tid htid.1, hnone' tid htid.2, Option.or_none]
  · obtain htid | htid := Finset.mem_union.mp htid
    · exact hmoved tid htid
    · exact hmoved' tid htid

/-- One thread is given a destination. -/
theorem setDstNode (h : (threads.map Thread.tid).Nodup)
    (hmig : g.system.isMigratable tid = true) (hidle : g.system.isIdle tid = false) :
    Redirected g 1 threads (setDstNode tid node threads) := by
  refine ⟨Function.update (fun _ => none) tid (some node), {tid}, ?_, by simp, fun tid' htid' => ?_,
    fun tid' htid' => ?_⟩
  · rw [setDstNode_eq_map h]
    refine List.map_congr_left fun thread _ => ?_
    split_ifs with htid
    · rw [redirect, htid, Function.update_self, Option.getD_some]
    · rw [redirect, Function.update_of_ne htid, Option.getD_none]
  · exact Function.update_of_ne (by simpa using htid') ..
  · rw [Finset.mem_singleton.mp htid']
    exact ⟨hmig, hidle⟩

end Redirected

/-- A mutation gives two threads another destination, at most. -/
theorem Listed.redirected (h : Listed g schedule)
    (hmut : Schedule.Mutation g schedule schedule') :
    Redirected g 2 schedule.threads schedule'.threads := by
  cases hmut with
  | skip => exact .refl
  | migrate hthread hmig hidle =>
    simp only [Schedule.migrate, find_tid h.nodup hthread]
    show Redirected g (1 + 1) schedule.threads _
    exact (Redirected.setDstNode h.nodup hmig hidle).trans .refl
  | interchange hthread hmig hidle _ htids _ hswap hswapMig =>
    obtain ⟨hswapIdle, swap, hmem, rfl, -⟩ := h.nonIdle_of_mem htids hswap
    simp only [Schedule.interchange, find_tid h.nodup hthread, find_tid h.nodup hmem]
    have hfirst : Redirected g 1 schedule.threads (setDstNode _ swap.dstNode schedule.threads) :=
      .setDstNode h.nodup hmig hidle
    exact hfirst.trans (.setDstNode (by simpa using h.nodup) hswapMig hswapIdle)

/-- The threads that have another destination in the second list. -/
def movedThreads (threads threads' : List (Thread R)) : List (Thread R) :=
  ((threads.zip threads').filter fun pair => pair.1.dstNode ≠ pair.2.dstNode).map Prod.fst

omit [RealT R] in
theorem movedThreads_redirect {dst : Pid → Option Node} :
    movedThreads threads (threads.map (redirect dst)) =
      threads.filter fun thread => thread.dstNode ≠ (redirect dst thread).dstNode := by
  have hzip : threads.zip (threads.map (redirect dst)) =
      threads.map fun thread => (thread, redirect dst thread) := by
    induction threads with
    | nil => rfl
    | cons thread threads ih => rw [List.map_cons, List.zip_cons_cons, ih, List.map_cons]
  rw [movedThreads, hzip, List.filter_map, List.map_map]
  exact List.map_id _

/-- The threads with another destination are few, migratable and not idle. -/
theorem Redirected.movedThreads {threads' : List (Thread R)} {n : ℕ}
    (h : Redirected g n threads threads') (hnodup : (threads.map Thread.tid).Nodup) :
    (movedThreads threads threads').length ≤ n ∧
      ∀ thread ∈ Mapping.movedThreads threads threads',
        g.system.isMigratable thread.tid = true ∧ g.system.isIdle thread.tid = false := by
  obtain ⟨dst, moved, rfl, hcard, hnone, hmoved⟩ := h
  have hmem : ∀ thread ∈ Mapping.movedThreads threads (threads.map (redirect dst)),
      thread.tid ∈ moved := by
    intro thread hthread
    rw [movedThreads_redirect, List.mem_filter, decide_eq_true_eq, redirect] at hthread
    by_contra hnot
    rw [hnone _ hnot, Option.getD_none] at hthread
    exact hthread.2 rfl
  refine ⟨?_, fun thread hthread => hmoved _ (hmem thread hthread)⟩
  have htids : ((Mapping.movedThreads threads (threads.map (redirect dst))).map
      Thread.tid).Nodup := by
    rw [movedThreads_redirect]
    exact hnodup.sublist (List.filter_sublist.map Thread.tid)
  have hsub : ((Mapping.movedThreads threads (threads.map (redirect dst))).map
      Thread.tid).toFinset ⊆ moved := by
    intro tid htid
    obtain ⟨thread, hthread, rfl⟩ := List.mem_map.mp (List.mem_toFinset.mp htid)
    exact hmem thread hthread
  have hle := Finset.card_le_card hsub
  rw [List.toFinset_card_of_nodup htids, List.length_map] at hle
  exact hle.trans hcard

/-- The map of a schedule is exactly, for every node, the set of the threads that are sent
there and are not idle; a node without threads has the empty set. -/
structure Represents (g : Globals R) (schedule : Schedule R) : Prop extends
    Listed g schedule where
  entry : ∀ node ∈ g.topology.nodes, (schedule.nodeTidMap node).isSome

@[simp]
theorem isSome_insertTid :
    (insertTid nodeTidMap node tid node').isSome ↔ node' = node ∨ (nodeTidMap node').isSome := by
  by_cases h : node' = node
  · subst h
    simp [insertTid]
  · simp [insertTid, h]

@[simp]
theorem isSome_eraseTid :
    (eraseTid nodeTidMap node tid node').isSome ↔ node' = node ∨ (nodeTidMap node').isSome := by
  by_cases h : node' = node
  · subst h
    simp [eraseTid]
  · simp [eraseTid, h]

/-- No mutation removes the entry of a node. -/
theorem isSome_of_mutation (hmut : Schedule.Mutation g schedule schedule')
    (h : (schedule.nodeTidMap node).isSome) : (schedule'.nodeTidMap node).isSome := by
  cases hmut with
  | skip => exact h
  | migrate =>
    obtain heq | ⟨thread, -, -, heq⟩ := Schedule.migrate_cases g schedule _ _
    · rw [heq]
      exact h
    · rw [heq]
      dsimp only
      split_ifs
      · exact h
      · simp [h]
  | interchange =>
    obtain heq | ⟨t1, -, -, t2, -, -, heq⟩ := Schedule.interchange_cases schedule _ _
    · rw [heq]
      exact h
    · simp [heq, h]

theorem Represents.mutation (h : Represents g schedule)
    (hmut : Schedule.Mutation g schedule schedule') : Represents g schedule' where
  toListed := h.toListed.mutation hmut
  entry node hnode := isSome_of_mutation hmut (h.entry node hnode)

/-- Every mutation gives two threads another destination, at most. -/
theorem Listed.redirected_neighbour (h : Listed g schedule)
    (hneigh : Schedule.neighbour g mutations schedule draws = some (schedule', draws')) :
    Redirected g (2 * mutations) schedule.threads schedule'.threads := by
  induction mutations generalizing schedule draws with
  | zero =>
    obtain ⟨rfl, -⟩ := Prod.mk.inj (Option.some.inj hneigh)
    exact .refl
  | succ mutations ih =>
    obtain ⟨⟨next, rest⟩, hmutate, hneigh⟩ := Option.bind_eq_some_iff.mp hneigh
    have hmut := Schedule.mutation_of_mutate hmutate
    have htrans := (h.redirected hmut).trans (ih (h.mutation hmut) hneigh)
    rw [Nat.mul_succ, Nat.add_comm]
    exact htrans

/-- No neighbour fills a node beyond its CPUs. -/
theorem Listed.numIn_neighbour (h : Listed g schedule)
    (hneigh : Schedule.neighbour g mutations schedule draws = some (schedule', draws')) :
    numIn g schedule'.threads node ≤
      max (numIn g schedule.threads node) (g.topology.numOfCpusIn node) := by
  refine (Schedule.neighbour_invariant (I := fun s => Listed g s ∧ numIn g s.threads node ≤
    max (numIn g schedule.threads node) (g.topology.numOfCpusIn node))
    (fun s s' _ _ hs hmutate => ?_) ⟨h, le_max_left _ _⟩ hneigh).2
  have hmut := Schedule.mutation_of_mutate hmutate
  refine ⟨hs.1.mutation hmut, (hs.1.numIn_mutation hmut).trans ?_⟩
  exact max_le hs.2 (le_max_right _ _)

/-- **Neighbours.** -/
theorem neighbour_spec (h : Represents g schedule)
    (hneigh : Schedule.neighbour g mutations schedule draws = some (schedule', draws')) :
    (schedule'.threads.map fun thread => (thread.tid, thread.rm3d, thread.srcNode)) =
        (schedule.threads.map fun thread => (thread.tid, thread.rm3d, thread.srcNode)) ∧
      Represents g schedule' ∧
      (movedThreads schedule.threads schedule'.threads).length ≤ 2 * mutations ∧
      (∀ thread ∈ movedThreads schedule.threads schedule'.threads,
        g.system.isMigratable thread.tid = true ∧ g.system.isIdle thread.tid = false) ∧
      ∀ node, numIn g schedule'.threads node ≤
        max (numIn g schedule.threads node) (g.topology.numOfCpusIn node) := by
  have hredirected := h.redirected_neighbour hneigh
  obtain ⟨hfew, hmig⟩ := hredirected.movedThreads h.nodup
  refine ⟨?_, ?_, hfew, hmig, fun node => h.numIn_neighbour hneigh⟩
  · obtain ⟨dst, -, hthreads, -⟩ := hredirected
    rw [hthreads, List.map_map]
    rfl
  · exact Schedule.neighbour_invariant
      (fun s s' _ _ hs hmutate => hs.mutation (Schedule.mutation_of_mutate hmutate)) h hneigh

/-- The schedules that a search reaches by neighbours, and by asking for scores on the way. -/
inductive Reached (g : Globals R) (threads : List (Thread R)) : Schedule R → Prop
  | new : Reached g threads (Schedule.new g threads)
  | neighbour {schedule schedule' : Schedule R} {mutations : ℕ} {draws draws' : List ℕ} :
      Reached g threads schedule →
      Schedule.neighbour g mutations schedule draws = some (schedule', draws') →
      Reached g threads schedule'
  | expectedTickets {schedule : Schedule R} :
      Reached g threads schedule → Reached g threads (schedule.expectedTickets g).2
  | expectedPerf {schedule : Schedule R} :
      Reached g threads schedule → Reached g threads (schedule.expectedPerf g).2

/-- Two nodes with two CPUs each; thread 1 is pinned to node 0 and threads 2 and 3 to node 1. -/
def oneAndTwo : Globals ℚ where
  topology := Topology.regular 2 2 Nat.two_pos Nat.two_pos
  settings := Settings.default 1 64
  perfTable :=
    let row : PerfRow ℚ := ⟨Rm3d.new (Settings.default 1 64), true⟩
    ⟨[(1, row), (2, row), (3, row)], fun _ => 1, fun _ => 1, fun _ _ => 1⟩
  system :=
    run (System.perform (Topology.regular 2 2 Nat.two_pos Nat.two_pos) .node)
      (System.boot (Topology.regular 2 2 Nat.two_pos Nat.two_pos) 1
        (fun pid => ⟨none, true, false, ⟨'R', 0, if pid = 1 then 0 else 2, 1⟩⟩)
        ⟨fun _ => true, 0, fun _ => {0, 1, 2, 3}, {0, 1, 2, 3}⟩)
      [.pinProcess 1, .pinProcess 2, .pinProcess 3]

/-- A schedule of the threads of `oneAndTwo`, each on its node. -/
def oneAndTwoSchedule : Schedule ℚ :=
  let rm3d : Rm3d ℚ := Rm3d.new (Settings.default 1 64)
  Schedule.new oneAndTwo [⟨1, rm3d, 0, 0⟩, ⟨2, rm3d, 1, 1⟩, ⟨3, rm3d, 1, 1⟩]

/-- A neighbour of that schedule sends thread 2 to node 0. -/
theorem neighbour_spec_oneAndTwo :
    ∃ schedule draws, Represents oneAndTwo schedule ∧
      (movedThreads oneAndTwoSchedule.threads schedule.threads).length ≤ 2 * 1 ∧
      Schedule.neighbour oneAndTwo 1 oneAndTwoSchedule [1, 0] = some (schedule, draws) := by
  have hrep : Represents oneAndTwo oneAndTwoSchedule :=
    { toListed := Listed.new (by decide +kernel), entry := by decide +kernel }
  have hsome : (Schedule.neighbour oneAndTwo 1 oneAndTwoSchedule [1, 0]).isSome := by
    decide +kernel
  obtain ⟨⟨schedule, draws⟩, hneigh⟩ := Option.isSome_iff_exists.mp hsome
  obtain ⟨-, hrep', hfew, -⟩ := neighbour_spec hrep hneigh
  exact ⟨schedule, draws, hrep', hfew, hneigh⟩

/-! ### Draws of another node -/

/-- The loop in which a neighbour draws a node other than the current one can end, and it can
end with every other node. -/
def Redraws (T : Topology) (current : Node) : Prop :=
  (∃ draws, (drawOther T.maxNode current draws).isSome) ∧
    ∀ node ∈ T.nodes, node ≠ current →
      ∃ draws rest, drawOther T.maxNode current draws = some (node, rest)

/-- The loop ends with a value that can be drawn. -/
theorem exists_of_drawOther {maxNode current : Node}
    (h : drawOther maxNode current draws = some (node, draws')) :
    node ≠ current ∧ ∃ draw, rnd 0 maxNode draw = node := by
  induction draws with
  | nil => simp [drawOther] at h
  | cons draw draws ih =>
    rw [drawOther] at h
    split_ifs at h with heq
    · exact ih h
    · obtain ⟨rfl, -⟩ := Prod.mk.inj (Option.some.inj h)
      exact ⟨heq, draw, rfl⟩

theorem rnd_of_lt {maxNode draw : ℕ} (h : draw < maxNode) : rnd 0 maxNode draw = draw := by
  rw [rnd, Nat.zero_add, Nat.sub_zero, Nat.mod_eq_of_lt h]

theorem rnd_lt {maxNode draw : ℕ} (h : 0 < maxNode) : rnd 0 maxNode draw < maxNode := by
  rw [rnd, Nat.zero_add, Nat.sub_zero]
  exact Nat.mod_lt draw h

/-- **Draws.** On a machine with two or more nodes every node other than that of the thread can
be drawn exactly when the thread is on the last one. -/
theorem redraws_iff {T : Topology} (hnodes : ∀ node, node ∈ T.nodes ↔ node ≤ T.maxNode)
    (hmax : 1 ≤ T.maxNode) {current : Node} : Redraws T current ↔ current = T.maxNode := by
  constructor
  · rintro ⟨-, hall⟩
    by_contra hne
    -- the last node is never drawn
    obtain ⟨draws, rest, hdraw⟩ := hall T.maxNode ((hnodes _).mpr le_rfl) (Ne.symm hne)
    obtain ⟨-, draw, heq⟩ := exists_of_drawOther hdraw
    have hlt : rnd 0 T.maxNode draw < T.maxNode := rnd_lt hmax
    omega
  · rintro rfl
    have hdraw : ∀ node < T.maxNode,
        drawOther T.maxNode T.maxNode [node] = some (node, []) := by
      intro node hnode
      rw [drawOther, rnd_of_lt hnode, if_neg hnode.ne]
    refine ⟨⟨[0], by rw [hdraw 0 hmax, Option.isSome_some]⟩, fun node hnode hne => ?_⟩
    exact ⟨[node], [], hdraw node (lt_of_le_of_ne ((hnodes node).mp hnode) hne)⟩

/-- On three nodes the loop can leave node 2, and not node 0. -/
theorem redraws_iff_regular :
    Redraws (Topology.regular 3 2 (Nat.succ_pos 2) (Nat.succ_pos 1)) 2 ∧
      ¬ Redraws (Topology.regular 3 2 (Nat.succ_pos 2) (Nat.succ_pos 1)) 0 := by
  have hnodes : ∀ node, node ∈ List.range 3 ↔ node ≤ 2 := fun node => by
    rw [List.mem_range, Nat.lt_succ_iff]
  have hiff : ∀ current, Redraws (Topology.regular 3 2 (Nat.succ_pos 2) (Nat.succ_pos 1)) current ↔
      current = 2 := fun current => redraws_iff hnodes (by decide)
  exact ⟨(hiff 2).mpr rfl, fun h => absurd ((hiff 0).mp h) (by decide)⟩

/-- A mutation of the thread on node 0 draws for ever: of two nodes the last is never drawn. -/
theorem not_redraws :
    ¬ ∀ (g : Globals ℚ) (schedule : Schedule ℚ),
      (∀ node, node ∈ g.topology.nodes ↔ node ≤ g.topology.maxNode) → 1 ≤ g.topology.maxNode →
      ∀ thread ∈ schedule.threads, thread.dstNode ∈ g.topology.nodes →
        Redraws g.topology thread.dstNode := by
  intro h
  have hnodes : ∀ node, node ∈ List.range 2 ↔ node ≤ 1 := fun node => by
    rw [List.mem_range, Nat.lt_succ_iff]
  have hmem : (⟨1, Rm3d.new (Settings.default 1 64), 0, 0⟩ : Thread ℚ) ∈
      oneAndTwoSchedule.threads := List.mem_cons_self
  obtain ⟨⟨draws, hsome⟩, -⟩ := h oneAndTwo oneAndTwoSchedule hnodes (by decide) _ hmem (by decide)
  obtain ⟨⟨node, rest⟩, hdraw⟩ := Option.isSome_iff_exists.mp hsome
  obtain ⟨hne, draw, heq⟩ := exists_of_drawOther hdraw
  have hlt : rnd 0 1 draw < 1 := rnd_lt Nat.one_pos
  exact hne (heq ▸ Nat.lt_one_iff.mp hlt)

end Thanos.Mapping
