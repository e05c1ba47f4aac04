import Thanos.Library.BlindLevelling
import Thanos.Migration.BalanceLevels

/-!
# Balancing nodes

`pin_thread_to_node` erases a thread that changes node from the set of the new node instead of
inserting it, so `balance_nodes` does not see the threads it has moved:

* **Moves** (`loads_moved`): a move takes the thread off the list of its node and puts it on no
  list, while the process is pinned to the new node.
* **Loop, round** (`exists_doWhile`, `exists_sweep`): hence a node above the threshold sends its
  whole surplus to one node, and balancing is the levelling that does not see the arrivals.
* **Levelling** (`balanceNodes_levels_iff`): balancing ends with the floor or the ceiling of the
  average number of threads pinned to every node exactly when the surpluses, sent as a whole to
  the closest less busy node, cover the shortage of every node and exceed no ceiling.
-/

namespace Thanos

open Thanos.Levelling Thanos.System

variable {R : Type} {T : Topology} {minTids src dst fuel : ℕ} {s : System R} {t tid : Pid}
  {node n : Node} {mask : CpuSet} {ignoreIdle : Bool}

/-! ### The loads of the nodes -/

/-- A consistent state under node granularity: every thread that is listed is listed once, at its
pinned node, and its pinned CPU belongs to that node. No thread has the identifier 0. -/
structure ListedAtPinnedNode (T : Topology) (s : System R) : Prop where
  pinnedNumaNode : ∀ t n, t ∈ s.nodeTidMap n → (s.proc t).pinnedNumaNode = n
  pinnedProcessor : ∀ t n, t ∈ s.nodeTidMap n → T.cpuNodeMap (s.proc t).pinnedProcessor = n
  zero_notMem : ∀ n, 0 ∉ s.nodeTidMap n

/-- The number of threads, of a set, whose process is pinned to a node. -/
def pinnedLoad (tids : OrderedSet Pid) (s : System R) (node : Node) : ℕ :=
  (tids.filter fun tid => decide ((s.proc tid).pinnedNumaNode = node)).size

/-- The node picked by `closest_less_busy_node` for the given numbers of threads. -/
def closestNode (T : Topology) (minTids : ℕ) (load : Node → ℕ) (src : Node) : Option Node :=
  closestLessBusy load src minTids none (T.nodesByDistance src)

/-- The choice of the node is a rule in the sense of the levelling. -/
theorem closestNode_rule : Rule T.nodes.toFinset minTids (closestNode T minTids) := by
  refine ⟨fun load src hsrc habove hroom => ?_, fun load src dst k hpick hdst hk hle => ?_⟩
  · have hmem : ∀ c, c ∈ T.nodesByDistance src ↔ c ∈ T.nodes.toFinset := fun c =>
      (T.nodesByDistance_perm src (List.mem_toFinset.mp hsrc)).mem_iff.trans
        List.mem_toFinset.symm
    obtain ⟨c, hc, hcle⟩ := hroom
    have hcs : c ≠ src := by
      rintro rfl
      omega
    rcases hpick : closestNode T minTids load src with _ | dst
    · have := (closestLessBusy_none hpick c ((hmem c).mpr hc) hcs).2
      omega
    · obtain ⟨hdst, -, hrule⟩ := closestLessBusy_some hpick
      refine ⟨dst, (hmem dst).mp hdst, ?_, rfl⟩
      obtain hlow | ⟨hall, -⟩ := hrule
      · exact hlow.le
      · exact (hall c ((hmem c).mpr hc) hcs).2.trans hcle
  · refine closestLessBusy_of_le (fun c hc => Function.update_of_ne hc ..) ?_
      (fun b hb => absurd hb (by simp)) hdst hpick
    rw [Function.update_self]
    exact hk

variable [RealT R] {settings : Settings R} {perfTable : PerfTable R} {st r : LoopState R}
  {tids : OrderedSet Pid} {migr : List (MigrationCell R)} {places : List Node}

/-- The number of threads listed at a node. -/
def nodeLoad (ignoreIdle : Bool) (s : System R) (node : Node) : ℕ :=
  (s.tidsFromNode ignoreIdle node).size

/-- The loads of the nodes: what `node_tid_map` lists, and what the processes are pinned to. -/
def loads (ignoreIdle : Bool) (tids : OrderedSet Pid) (s : System R) : Loads Node where
  listed := nodeLoad ignoreIdle s
  held := pinnedLoad tids s

theorem mem_tidsFromNode :
    t ∈ s.tidsFromNode ignoreIdle n ↔
      t ∈ s.nodeTidMap n ∧ (ignoreIdle = true → s.isIdle t = false) := by
  cases ignoreIdle with
  | false => simp [tidsFromNode]
  | true => simp [tidsFromNode, nonIdleTidsFromNode]

/-- A listed thread is pinned to its node. -/
theorem ListedAtPinnedNode.pinnedNumaNode_eq (hs : ListedAtPinnedNode T s)
    (ht : t ∈ s.tidsFromNode ignoreIdle n) : (s.proc t).pinnedNumaNode = n :=
  hs.pinnedNumaNode t n (mem_tidsFromNode.mp ht).1

/-- The loads of the nodes add up to the number of threads. -/
theorem sum_nodeLoad (ignoreIdle : Bool) (hs : ListedAtPinnedNode T s) :
    ∑ c ∈ T.nodes.toFinset, nodeLoad ignoreIdle s c = (s.tids T ignoreIdle).size := by
  refine OrderedSet.sum_size (fun t => ?_) fun t n n' hn hn' => ?_
  · simp only [List.mem_toFinset]
    exact mem_tids
  · exact (hs.pinnedNumaNode_eq hn).symm.trans (hs.pinnedNumaNode_eq hn')

/-- At first the listed threads of a node are those pinned to it. -/
theorem pinnedLoad_eq_nodeLoad (hs : ListedAtPinnedNode T s) (hnode : node ∈ T.nodes) :
    pinnedLoad (s.tids T ignoreIdle) s node = nodeLoad ignoreIdle s node := by
  rw [pinnedLoad, nodeLoad]
  congr 1
  refine OrderedSet.ext_mem fun t => ?_
  rw [OrderedSet.mem_filter, decide_eq_true_eq, mem_tids]
  constructor
  · rintro ⟨⟨n, -, hn⟩, heq⟩
    rwa [← heq, hs.pinnedNumaNode_eq hn]
  · exact fun h => ⟨⟨node, hnode, h⟩, hs.pinnedNumaNode_eq h⟩

/-! ### One move -/

/-- What holds in the course of balancing some threads if all affinity calls are granted. -/
structure Balancing (T : Topology) (ignoreIdle : Bool) (tids : OrderedSet Pid) (s : System R) :
    Prop where
  consistent : ListedAtPinnedNode T s
  granted : ∀ k, s.kernel.outcome k = true
  counted : ∀ n ∈ T.nodes, ∀ t ∈ s.tidsFromNode ignoreIdle n, t ∈ tids

omit [RealT R] in
/-- A granted move to another node takes the thread off the list of its node. -/
theorem mem_nodeTidMap_moved (hs : ListedAtPinnedNode T s) (htid : tid ∈ s.nodeTidMap src)
    (hne : dst ≠ src) (hmask : T.numaNodeToCpus dst = some mask) (hsize : 0 < mask.size) :
    t ∈ (movedToNode T tid dst mask s).nodeTidMap n ↔ t ≠ tid ∧ t ∈ s.nodeTidMap n := by
  by_cases h : t = tid
  · subst h
    have hold : T.cpuNodeMap (s.proc t).pinnedProcessor = src := hs.pinnedProcessor t src htid
    have hnew := cpuNodeMap_onNode (p := s.proc t) hmask hsize
    have hcpu : (s.proc t).pinnedProcessor ≠ ((s.proc t).onNode dst mask).pinnedProcessor := by
      intro heq
      rw [← heq, hold] at hnew
      exact hne hnew.symm
    rw [mem_movedToNode_self (by rw [hold]; exact hne.symm) hcpu, hold]
    refine iff_of_false ?_ fun h => h.1 rfl
    rintro ⟨hn, hn', -⟩
    exact hn' ((hs.pinnedProcessor t n hn).symm.trans hold)
  · rw [mem_movedToNode_of_ne h]
    exact ⟨fun hn => ⟨h, hn⟩, fun hn => hn.2⟩

theorem isIdle_movedToNode : (movedToNode T tid dst mask s).isIdle t = s.isIdle t := by
  by_cases h : t = tid
  · subst h
    simp [isIdle, Process.onNode]
  · simp [isIdle, movedToNode_proc_of_ne h]

theorem tidsFromNode_moved (hs : ListedAtPinnedNode T s) (htid : tid ∈ s.nodeTidMap src)
    (hne : dst ≠ src) (hmask : T.numaNodeToCpus dst = some mask) (hsize : 0 < mask.size) :
    (movedToNode T tid dst mask s).tidsFromNode ignoreIdle n =
      (s.tidsFromNode ignoreIdle n).erase tid := by
  refine OrderedSet.ext_mem fun t => ?_
  rw [OrderedSet.mem_erase, mem_tidsFromNode, mem_tidsFromNode, isIdle_movedToNode,
    mem_nodeTidMap_moved hs htid hne hmask hsize, and_assoc]

omit [RealT R] in
/-- The threads pinned to a node after a move: only the process that moves is concerned. -/
theorem mem_pinned_moved :
    t ∈ tids.filter (fun t =>
        decide (((movedToNode T tid dst mask s).proc t).pinnedNumaNode = n)) ↔
      t ∈ tids ∧ (t = tid ∧ n = dst ∨ t ≠ tid ∧ (s.proc t).pinnedNumaNode = n) := by
  rw [OrderedSet.mem_filter, decide_eq_true_eq]
  by_cases h : t = tid
  · subst h
    simp [eq_comm]
  · simp [h, movedToNode_proc_of_ne h]

omit [RealT R] in
theorem pinnedLoad_moved_dst (htid : tid ∈ tids) (hne : (s.proc tid).pinnedNumaNode ≠ dst) :
    pinnedLoad tids (movedToNode T tid dst mask s) dst = pinnedLoad tids s dst + 1 := by
  have hnot : tid ∉ tids.filter fun t => decide ((s.proc t).pinnedNumaNode = dst) := by
    simp [hne]
  rw [pinnedLoad, pinnedLoad, ← OrderedSet.size_insert hnot]
  congr 1
  refine OrderedSet.ext_mem fun t => ?_
  rw [mem_pinned_moved, OrderedSet.mem_insert, OrderedSet.mem_filter, decide_eq_true_eq]
  by_cases h : t = tid
  · subst h
    simp [htid]
  · simp [h]

omit [RealT R] in
theorem pinnedLoad_moved_src (htid : tid ∈ tids) (hpin : (s.proc tid).pinnedNumaNode = src)
    (hne : dst ≠ src) :
    pinnedLoad tids (movedToNode T tid dst mask s) src = pinnedLoad tids s src - 1 := by
  have hmem : tid ∈ tids.filter fun t => decide ((s.proc t).pinnedNumaNode = src) := by
    simp [htid, hpin]
  rw [pinnedLoad, pinnedLoad, ← OrderedSet.size_erase hmem]
  congr 1
  refine OrderedSet.ext_mem fun t => ?_
  rw [mem_pinned_moved, OrderedSet.mem_erase, OrderedSet.mem_filter, decide_eq_true_eq]
  by_cases h : t = tid
  · subst h
    simp [hne.symm]
  · simp [h]

omit [RealT R] in
theorem pinnedLoad_moved_of_ne (hsrc : (s.proc tid).pinnedNumaNode ≠ n) (hdst : n ≠ dst) :
    pinnedLoad tids (movedToNode T tid dst mask s) n = pinnedLoad tids s n := by
  rw [pinnedLoad, pinnedLoad]
  congr 1
  refine OrderedSet.ext_mem fun t => ?_
  rw [mem_pinned_moved, OrderedSet.mem_filter, decide_eq_true_eq]
  by_cases h : t = tid
  · subst h
    simp [hsrc, hdst]
  · simp [h]

/-- **One move.** The lists lose the thread, and the process is pinned to the new node. -/
theorem loads_moved (hs : Balancing T ignoreIdle tids s) (hsrc : src ∈ T.nodes)
    (htid : tid ∈ s.tidsFromNode ignoreIdle src) (hne : dst ≠ src)
    (hmask : T.numaNodeToCpus dst = some mask) (hsize : 0 < mask.size) :
    loads ignoreIdle tids (movedToNode T tid dst mask s) =
      (loads ignoreIdle tids s).send src dst 1 := by
  have hlist := (mem_tidsFromNode.mp htid).1
  have hpin : (s.proc tid).pinnedNumaNode = src := hs.consistent.pinnedNumaNode_eq htid
  have hcounted : tid ∈ tids := hs.counted src hsrc tid htid
  ext c
  · change nodeLoad ignoreIdle (movedToNode T tid dst mask s) c = _
    rw [nodeLoad, tidsFromNode_moved hs.consistent hlist hne hmask hsize]
    by_cases hc : c = src
    · subst hc
      rw [OrderedSet.size_erase htid, Loads.send_listed_self]
      rfl
    · have hnot : tid ∉ s.tidsFromNode ignoreIdle c := fun h =>
        hc ((hs.consistent.pinnedNumaNode_eq h).symm.trans hpin)
      rw [OrderedSet.erase_of_notMem hnot, Loads.send_listed_of_ne hc]
      rfl
  · change pinnedLoad tids (movedToNode T tid dst mask s) c = _
    by_cases hd : c = dst
    · subst hd
      rw [Loads.send_held_dst]
      exact pinnedLoad_moved_dst hcounted (by rw [hpin]; exact hne.symm)
    · by_cases hc : c = src
      · subst hc
        rw [Loads.send_held_src hne]
        exact pinnedLoad_moved_src hcounted hpin hne
      · rw [Loads.send_held_of_ne hc hd]
        exact pinnedLoad_moved_of_ne (by rw [hpin]; exact Ne.symm hc) hd

/-- A migration that is chosen is granted, and balancing goes on. -/
theorem Balancing.migrate (hs : Balancing T ignoreIdle tids s) (hsrc : src ∈ T.nodes)
    (hdst : dst ∈ T.nodes) (htid : tid ∈ s.tidsFromNode ignoreIdle src) (hne : dst ≠ src) :
    (pinThreadToNode T tid dst s).1 = true ∧
      Balancing T ignoreIdle tids (pinThreadToNode T tid dst s).2 ∧
      loads ignoreIdle tids (pinThreadToNode T tid dst s).2 =
        (loads ignoreIdle tids s).send src dst 1 := by
  have hlist := (mem_tidsFromNode.mp htid).1
  have hzero : tid ≠ 0 := by
    rintro rfl
    exact hs.consistent.zero_notMem src hlist
  obtain ⟨mask', hmask', hsize⟩ := T.numaNodeToCpus_of_mem dst hdst
  obtain ⟨-, mask, hmask, -, heq⟩ | ⟨hno, -⟩ | ⟨-, mask, hmask, hrefused, -⟩ :=
    pinThreadToNode_cases T tid dst s
  · obtain rfl : mask' = mask := Option.some.inj (hmask'.symm.trans hmask)
    have hmem : ∀ t n, t ∈ (movedToNode T tid dst mask' s).nodeTidMap n ↔
        t ≠ tid ∧ t ∈ s.nodeTidMap n := fun t n =>
      mem_nodeTidMap_moved hs.consistent hlist hne hmask hsize
    rw [heq]
    refine ⟨rfl, ⟨⟨fun t n ht => ?_, fun t n ht => ?_, fun n hn => ?_⟩, fun k => ?_,
      fun n hn t ht => ?_⟩, ?_⟩
    · obtain ⟨hother, ht⟩ := (hmem t n).mp ht
      rw [movedToNode_proc_of_ne hother]
      exact hs.consistent.pinnedNumaNode t n ht
    · obtain ⟨hother, ht⟩ := (hmem t n).mp ht
      rw [movedToNode_proc_of_ne hother]
      exact hs.consistent.pinnedProcessor t n ht
    · exact hs.consistent.zero_notMem n ((hmem 0 n).mp hn).2
    · rw [movedToNode_kernel, Kernel.granted_outcome]
      exact hs.granted k
    · rw [tidsFromNode_moved hs.consistent hlist hne hmask hsize, OrderedSet.mem_erase] at ht
      exact hs.counted n hn t ht.2
    · exact loads_moved hs hsrc htid hne hmask hsize
  · obtain h | h := hno
    · exact absurd h hzero
    · exact absurd (hmask'.symm.trans h) (by simp)
  · obtain rfl : mask' = mask := Option.some.inj (hmask'.symm.trans hmask)
    rw [Kernel.grants, hs.granted, decide_eq_true hsize] at hrefused
    exact absurd hrefused (by simp)

/-! ### The loops -/

theorem balancingCell_migrate_node :
    (balancingCell settings perfTable (Level.ofNodes T ignoreIdle) s tid src dst).migrate T s =
      pinThreadToNode T tid dst s := by
  rw [MigrationCell.migrate, balancingCell, forEach_cons]
  simp [SimpleMigrationCell.migrate, Level.ofNodes]

/-- An iteration for a node above the threshold sends one thread to the closest less busy node. -/
theorem exists_moveBody (settings : Settings R) (perfTable : PerfTable R)
    (migr : List (MigrationCell R)) (hs : Balancing T ignoreIdle tids s) (hsrc : src ∈ T.nodes)
    (habove : minTids < nodeLoad ignoreIdle s src)
    (hroom : ∃ c ∈ T.nodes.toFinset, nodeLoad ignoreIdle s c ≤ minTids) :
    ∃ dst s' migr', closestNode T minTids (nodeLoad ignoreIdle s) src = some dst ∧
      nodeLoad ignoreIdle s dst ≤ minTids ∧ Balancing T ignoreIdle tids s' ∧
      loads ignoreIdle tids s' = (loads ignoreIdle tids s).send src dst 1 ∧
      moveBody T settings perfTable (Level.ofNodes T ignoreIdle) minTids src (s, migr) =
        (decide (minTids < nodeLoad ignoreIdle s' src), s', migr') := by
  obtain ⟨dst, hdst, hdle, hpick⟩ := closestNode_rule.exists_target (nodeLoad ignoreIdle s) src
    (List.mem_toFinset.mpr hsrc) habove hroom
  have hne : dst ≠ src := by
    rintro rfl
    omega
  have habove' : minTids < ((Level.ofNodes T ignoreIdle).tids (s, migr).1 src).size := habove
  obtain ⟨hnone, -⟩ | ⟨tid, dst', ⟨htid, hdst'⟩, hbody⟩ :=
    moveBody_cases T settings perfTable habove'
  · exact absurd (hpick.symm.trans hnone) (by simp)
  · obtain rfl : dst = dst' := Option.some.inj (hpick.symm.trans hdst')
    obtain ⟨hok, hnext, hloads⟩ :=
      hs.migrate hsrc (List.mem_toFinset.mp hdst) (OrderedSet.mem_of_begin? htid) hne
    simp only [balancingCell_migrate_node] at hbody
    obtain ⟨-, hbody⟩ | ⟨hfail, -⟩ := hbody
    · exact ⟨dst, _, _, hpick, hdle, hnext, hloads, hbody⟩
    · exact absurd (hok.symm.trans hfail) (by simp)

/-- **Loop.** The loop for a node above the threshold drains it. -/
theorem exists_doWhile (settings : Settings R) (perfTable : PerfTable R)
    (migr : List (MigrationCell R)) (hs : Balancing T ignoreIdle tids s) (hsrc : src ∈ T.nodes)
    (habove : minTids < nodeLoad ignoreIdle s src)
    (hroom : ∃ c ∈ T.nodes.toFinset, nodeLoad ignoreIdle s c ≤ minTids) :
    ∃ fuel r, doWhile (moveBody T settings perfTable (Level.ofNodes T ignoreIdle) minTids src) fuel
        (s, migr) = some r ∧
      Balancing T ignoreIdle tids r.1 ∧
      loads ignoreIdle tids r.1 =
        (loads ignoreIdle tids s).drain minTids (closestNode T minTids) src := by
  induction hk : nodeLoad ignoreIdle s src using Nat.strongRecOn generalizing s migr with
  | _ k ih =>
    obtain ⟨dst, s', migr', hpick, hdle, hs', hloads, hbody⟩ :=
      exists_moveBody settings perfTable migr hs hsrc habove hroom
    have hlisted : nodeLoad ignoreIdle s' = ((loads ignoreIdle tids s).send src dst 1).listed :=
      congrArg Loads.listed hloads
    have hdrain : (loads ignoreIdle tids s').drain minTids (closestNode T minTids) src =
        (loads ignoreIdle tids s).drain minTids (closestNode T minTids) src := by
      rw [hloads]
      exact closestNode_rule.drain_send habove hpick hdle
    by_cases hmore : minTids < nodeLoad ignoreIdle s' src
    · -- one thread less, and the loop goes on
      rw [decide_eq_true hmore] at hbody
      have hless : nodeLoad ignoreIdle s' src = nodeLoad ignoreIdle s src - 1 := by
        rw [hlisted, Loads.send_listed_self]
        rfl
      obtain ⟨c, hc, hcle⟩ := hroom
      have hcs : c ≠ src := by
        rintro rfl
        omega
      have hroom' : nodeLoad ignoreIdle s' c ≤ minTids := by
        rw [hlisted, Loads.send_listed_of_ne hcs]
        exact hcle
      obtain ⟨fuel, r, hr, hbal, hr'⟩ := ih (nodeLoad ignoreIdle s' src) (by omega) migr'
        hs' hmore ⟨c, hc, hroom'⟩ rfl
      refine ⟨fuel + 1, r, ?_, hbal, hr'.trans hdrain⟩
      rw [doWhile_succ_of_continues hbody]
      exact hr
    · rw [decide_eq_false hmore] at hbody
      refine ⟨1, (s', migr'), doWhile_succ_of_leaves hbody, hs', ?_⟩
      rw [← hdrain]
      exact (Loads.drain_of_le (not_lt.mp hmore)).symm

/-- **Round.** The loop over the nodes drains them one after another. -/
theorem exists_sweep (settings : Settings R) (perfTable : PerfTable R)
    (migr : List (MigrationCell R)) (hs : Balancing T ignoreIdle tids s)
    (hplaces : ∀ src ∈ places, src ∈ T.nodes)
    (hroom : ∃ c ∈ T.nodes.toFinset, nodeLoad ignoreIdle s c ≤ minTids) :
    ∃ fuel r, sweep T settings perfTable (Level.ofNodes T ignoreIdle) minTids fuel places
        (s, migr) = some r ∧
      Balancing T ignoreIdle tids r.1 ∧
      loads ignoreIdle tids r.1 =
        places.foldl (Loads.drain minTids (closestNode T minTids)) (loads ignoreIdle tids s) := by
  induction places generalizing s migr with
  | nil => exact ⟨0, (s, migr), rfl, hs, rfl⟩
  | cons src places ih =>
    obtain ⟨hsrc, hrest⟩ := List.forall_mem_cons.mp hplaces
    obtain ⟨fuel, r, hr, hbal, hloads⟩ : ∃ fuel r,
        sweep T settings perfTable (Level.ofNodes T ignoreIdle) minTids fuel [src] (s, migr) =
          some r ∧ Balancing T ignoreIdle tids r.1 ∧
        loads ignoreIdle tids r.1 =
          (loads ignoreIdle tids s).drain minTids (closestNode T minTids) src := by
      by_cases habove : minTids < nodeLoad ignoreIdle s src
      · obtain ⟨fuel, r, hr, hbal, hloads⟩ := exists_doWhile settings perfTable [] hs hsrc habove
          hroom
        refine ⟨fuel, (r.1, migr ++ r.2), ?_, hbal, hloads⟩
        have hnot : ¬ ((Level.ofNodes T ignoreIdle).tids s src).size ≤ minTids :=
          not_le.mpr habove
        simp [sweep, moveToLessBusy, hr, hnot]
      · have hle : ((Level.ofNodes T ignoreIdle).tids s src).size ≤ minTids := not_lt.mp habove
        refine ⟨0, (s, migr), by simp [sweep, hle], hs, ?_⟩
        exact (Loads.drain_of_le (not_lt.mp habove)).symm
    obtain ⟨c, hc, hcle⟩ := hroom
    have hroom' : nodeLoad ignoreIdle r.1 c ≤ minTids := by
      have hlisted : nodeLoad ignoreIdle r.1 = _ := congrArg Loads.listed hloads
      rw [hlisted]
      exact (Loads.drain_listed_le _ c).trans hcle
    obtain ⟨fuel', r', hr', hbal', hloads'⟩ := ih r.2 hbal hrest ⟨c, hc, hroom'⟩
    refine ⟨max fuel fuel', r', ?_, hbal', ?_⟩
    · rw [← List.singleton_append, sweep_append, sweep_mono (le_max_left fuel fuel') hr]
      exact sweep_mono (le_max_right fuel fuel') hr'
    · rw [hloads', hloads, List.foldl_cons]

/-! ### The result -/

/-- The threshold of `balance_nodes`. -/
def minTidsPerNode (T : Topology) (ignoreIdle : Bool) (s : System R) : ℕ :=
  max ((s.tids T ignoreIdle).size / T.numOfNodes) 1

/-- What a node is sent if every node sends its surplus over the threshold to its closest less
busy node. All of it is read off the initial state: at the turn of a node the nodes before it
list no more threads than the threshold, and the others the threads they list at first. -/
def sentTo (T : Topology) (ignoreIdle : Bool) (s : System R) (node : Node) : ℕ :=
  incoming (minTidsPerNode T ignoreIdle s) (closestNode T (minTidsPerNode T ignoreIdle s))
    (nodeLoad ignoreIdle s) T.nodes node

/-- The surpluses cover the shortage of every node and exceed no ceiling. -/
def SurplusFits (T : Topology) (ignoreIdle : Bool) (s : System R) : Prop :=
  ∀ node ∈ T.nodes,
    (s.tids T ignoreIdle).size / T.numOfNodes - nodeLoad ignoreIdle s node ≤
        sentTo T ignoreIdle s node ∧
      min (nodeLoad ignoreIdle s node) (minTidsPerNode T ignoreIdle s) +
          sentTo T ignoreIdle s node ≤
        (s.tids T ignoreIdle).size ⌈/⌉ T.numOfNodes

theorem sweep_of_le {L : Level R} (h : ∀ src ∈ places, (L.tids st.1 src).size ≤ minTids) :
    sweep T settings perfTable L minTids fuel places st = some st := by
  induction places with
  | nil => rfl
  | cons src places ih =>
    obtain ⟨hsrc, hrest⟩ := List.forall_mem_cons.mp h
    rw [sweep, if_pos hsrc]
    exact ih hrest

/-- With no threads the loop over the nodes does nothing either. -/
theorem balanceNodes_eq (hs : ListedAtPinnedNode T s) :
    balanceNodes T settings perfTable fuel ignoreIdle s =
      sweep T settings perfTable (Level.ofNodes T ignoreIdle) (minTidsPerNode T ignoreIdle s) fuel
        T.nodes (s, []) := by
  rw [balanceNodes]
  by_cases htotal : (s.tids T ignoreIdle).size = 0
  · rw [if_pos htotal, sweep_of_le]
    intro src hsrc
    have hle : nodeLoad ignoreIdle s src ≤ ∑ c ∈ T.nodes.toFinset, nodeLoad ignoreIdle s c :=
      Finset.single_le_sum (fun _ _ => Nat.zero_le _) (List.mem_toFinset.mpr hsrc)
    rw [sum_nodeLoad ignoreIdle hs, htotal] at hle
    exact hle.trans (Nat.zero_le _)
  · exact if_neg htotal

/-- The result does not depend on the fuel. -/
theorem balanceNodes_unique {fuel' : ℕ} {r' : LoopState R} (hs : ListedAtPinnedNode T s)
    (h : balanceNodes T settings perfTable fuel ignoreIdle s = some r)
    (h' : balanceNodes T settings perfTable fuel' ignoreIdle s = some r') : r = r' := by
  rw [balanceNodes_eq hs] at h h'
  have hmax := sweep_mono (le_max_left fuel fuel') h
  have hmax' := sweep_mono (le_max_right fuel fuel') h'
  exact Option.some.inj (hmax.symm.trans hmax')

/-- The number of threads pinned to every node after balancing. -/
theorem exists_balanceNodes (settings : Settings R) (perfTable : PerfTable R) (ignoreIdle : Bool)
    (hs : ListedAtPinnedNode T s) (hgrant : ∀ k, s.kernel.outcome k = true) :
    ∃ fuel r, balanceNodes T settings perfTable fuel ignoreIdle s = some r ∧
      ∀ node ∈ T.nodes, pinnedLoad (s.tids T ignoreIdle) r.1 node =
        min (nodeLoad ignoreIdle s node) (minTidsPerNode T ignoreIdle s) +
          sentTo T ignoreIdle s node := by
  have hcard : T.nodes.toFinset.card = T.numOfNodes := List.toFinset_card_of_nodup T.nodes_nodup
  have hnodes : T.nodes.toFinset.Nonempty := by
    obtain ⟨cpu, hcpu⟩ := List.exists_mem_of_ne_nil _ T.cpus_ne_nil
    exact ⟨_, List.mem_toFinset.mpr (T.cpuNodeMap_mem cpu hcpu)⟩
  obtain ⟨c, hc, hcle⟩ := exists_le_div hnodes (sum_nodeLoad ignoreIdle hs)
  have hroom : ∃ c ∈ T.nodes.toFinset,
      nodeLoad ignoreIdle s c ≤ minTidsPerNode T ignoreIdle s := by
    refine ⟨c, hc, hcle.trans ?_⟩
    rw [hcard]
    exact le_max_left _ _
  have hstart : Balancing T ignoreIdle (s.tids T ignoreIdle) s :=
    ⟨hs, hgrant, fun n hn t ht => mem_tids.mpr ⟨n, hn, ht⟩⟩
  obtain ⟨fuel, r, hr, -, hloads⟩ := exists_sweep settings perfTable [] hstart
    (fun _ h => h) hroom
  obtain ⟨hlisted, hheld⟩ := closestNode_rule.foldl_drain
    (l := loads ignoreIdle (s.tids T ignoreIdle) s) T.nodes_nodup
    (fun _ => List.mem_toFinset.mpr) hroom
    fun n hn => pinnedLoad_eq_nodeLoad hs (List.mem_toFinset.mp hn)
  refine ⟨fuel, r, (balanceNodes_eq hs).trans hr, fun node hnode => ?_⟩
  have hend := hheld node (List.mem_toFinset.mpr hnode)
  rw [hlisted, ← hloads, cut, if_pos hnode] at hend
  exact hend

/-- A number of threads made up of a load, cut down to the threshold, and what is sent. -/
theorem floor_or_ceil_iff {floor ceil load sent held : ℕ} (hfloor : floor ≤ ceil)
    (hceil : ceil ≤ floor + 1) (hmin : minTids = max floor 1)
    (hheld : held = min load minTids + sent) :
    held = floor ∨ held = ceil ↔ floor - load ≤ sent ∧ min load minTids + sent ≤ ceil := by
  omega

/-- **Levelling.** For a consistent state and affinity calls that are all granted: balancing
returns with the floor or the ceiling of the average number of threads pinned to every node
exactly when the surpluses fit. -/
theorem balanceNodes_levels_iff (T : Topology) (settings : Settings R) (perfTable : PerfTable R)
    (ignoreIdle : Bool) (s : System R) (hs : ListedAtPinnedNode T s)
    (hgrant : ∀ k, s.kernel.outcome k = true) :
    (∃ fuel r, balanceNodes T settings perfTable fuel ignoreIdle s = some r ∧
      ∀ node ∈ T.nodes,
        pinnedLoad (s.tids T ignoreIdle) r.1 node = (s.tids T ignoreIdle).size / T.numOfNodes ∨
          pinnedLoad (s.tids T ignoreIdle) r.1 node =
            (s.tids T ignoreIdle).size ⌈/⌉ T.numOfNodes) ↔
      SurplusFits T ignoreIdle s := by
  obtain ⟨fuel, r, hr, hend⟩ := exists_balanceNodes settings perfTable ignoreIdle hs hgrant
  have hiff : ∀ node ∈ T.nodes,
      (pinnedLoad (s.tids T ignoreIdle) r.1 node = (s.tids T ignoreIdle).size / T.numOfNodes ∨
        pinnedLoad (s.tids T ignoreIdle) r.1 node =
          (s.tids T ignoreIdle).size ⌈/⌉ T.numOfNodes) ↔ _ := fun node hnode => by
    have hpos : 0 < T.numOfNodes := List.length_pos_of_mem hnode
    obtain ⟨hfloor, hceil⟩ := ceilDiv_mem (T := (s.tids T ignoreIdle).size) hpos
    have hmin : minTidsPerNode T ignoreIdle s =
      max ((s.tids T ignoreIdle).size / T.numOfNodes) 1 := rfl
    exact floor_or_ceil_iff hfloor hceil hmin (hend node hnode)
  constructor
  · rintro ⟨fuel', r', hr', hlevel⟩ node hnode
    obtain rfl : r = r' := balanceNodes_unique hs hr hr'
    exact (hiff node hnode).mp (hlevel node hnode)
  · exact fun hfits => ⟨fuel, r, hr, fun node hnode => (hiff node hnode).mpr (hfits node hnode)⟩

instance : Decidable (SurplusFits T ignoreIdle s) :=
  inferInstanceAs (Decidable (∀ node ∈ T.nodes, _ ∧ _))

/-- Three nodes with one CPU each. -/
def threeNodes : Topology :=
  Topology.regular 3 1 (Nat.succ_pos 2) Nat.one_pos

/-- Some threads have been bulk-pinned on node 0, on which they last ran. -/
def onNodeZero (pids : List Pid) : System ℚ :=
  run (perform threeNodes .node)
    (boot threeNodes 1 (fun _ => ⟨none, true, false, ⟨'R', 0, 0, 1⟩⟩)
      ⟨fun _ => true, 0, fun _ => {0, 1, 2}, {0, 1, 2}⟩) (pids.map .pinProcess)

theorem onNodeZero_spec (pids : List Pid) (hpids : 0 ∉ pids) :
    ListedAtPinnedNode threeNodes (onNodeZero pids) ∧
      ∀ k, (onNodeZero pids).kernel.outcome k = true := by
  have hrun : (∀ n, 0 ∉ (onNodeZero pids).nodeTidMap n) ∧
      ∀ k, (onNodeZero pids).kernel.outcome k = true := by
    refine run_invariant_of_mem
      (I := fun s : System ℚ => (∀ n, 0 ∉ s.nodeTidMap n) ∧ ∀ k, s.kernel.outcome k = true)
      ⟨fun _ => OrderedSet.notMem_empty, fun _ => rfl⟩ fun s op hop hI => ?_
    obtain ⟨pid, hpid, rfl⟩ := List.mem_map.mp hop
    have hne : 0 ≠ pid := fun h => hpids (h ▸ hpid)
    obtain ⟨mask, p, -, -, -, heq⟩ | heq | heq := pinProcessToNode_cases threeNodes pid s
    · simpa [perform, pinProcess, heq, hne] using hI
    · simpa [perform, pinProcess, heq] using hI
    · simpa [perform, pinProcess, heq] using hI
  have hcoherent : ∀ t, NodeCoherent threeNodes (onNodeZero pids) t := nodeCoherent_run _
  refine ⟨⟨fun t n ht => ((hcoherent t).listed n ht).2, fun t n ht => ?_, hrun.1⟩, hrun.2⟩
  obtain ⟨hpin, hnode⟩ := (hcoherent t).listed n ht
  exact ((hcoherent t).node hpin).trans hnode

/-- Two threads on node 0: one of them moves to node 1. -/
theorem balanceNodes_levels_iff_two :
    ∃ fuel r, balanceNodes threeNodes (Settings.default 1 64) emptyPerfTable fuel true
        (onNodeZero [1, 2]) = some r ∧
      ∀ node ∈ threeNodes.nodes,
        pinnedLoad ((onNodeZero [1, 2]).tids threeNodes true) r.1 node = 0 ∨
          pinnedLoad ((onNodeZero [1, 2]).tids threeNodes true) r.1 node = 1 := by
  obtain ⟨hs, hgrant⟩ := onNodeZero_spec [1, 2] (by decide)
  have hfits : SurplusFits threeNodes true (onNodeZero [1, 2]) := by decide +kernel
  have hfloor : ((onNodeZero [1, 2]).tids threeNodes true).size / threeNodes.numOfNodes = 0 := by
    decide +kernel
  have hceil : ((onNodeZero [1, 2]).tids threeNodes true).size ⌈/⌉ threeNodes.numOfNodes = 1 := by
    decide +kernel
  have hlevels := (balanceNodes_levels_iff threeNodes (Settings.default 1 64) emptyPerfTable true
    (onNodeZero [1, 2]) hs hgrant).mpr hfits
  rwa [hfloor, hceil] at hlevels

/-- Three threads on node 0: two of them move to node 1, and none to node 2. -/
theorem not_balanceNodes_levels :
    ¬ ∀ (T : Topology) (settings : Settings ℚ) (perfTable : PerfTable ℚ) (ignoreIdle : Bool)
      (s : System ℚ), ListedAtPinnedNode T s → (∀ k, s.kernel.outcome k = true) →
        ∃ fuel r, balanceNodes T settings perfTable fuel ignoreIdle s = some r ∧
          ∀ node ∈ T.nodes,
            pinnedLoad (s.tids T ignoreIdle) r.1 node =
                (s.tids T ignoreIdle).size / T.numOfNodes ∨
              pinnedLoad (s.tids T ignoreIdle) r.1 node =
                (s.tids T ignoreIdle).size ⌈/⌉ T.numOfNodes := by
  intro h
  obtain ⟨hs, hgrant⟩ := onNodeZero_spec [1, 2, 3] (by decide)
  obtain ⟨fuel, r, hr, hlevel⟩ := h threeNodes (Settings.default 1 64) emptyPerfTable true
    (onNodeZero [1, 2, 3]) hs hgrant
  have hbusy : (balanceNodes threeNodes (Settings.default 1 64) emptyPerfTable 2 true
      (onNodeZero [1, 2, 3])).map (fun r =>
        pinnedLoad ((onNodeZero [1, 2, 3]).tids threeNodes true) r.1 1) = some 2 := by
    decide +kernel
  obtain ⟨r', hr', hbusy⟩ := Option.map_eq_some_iff.mp hbusy
  obtain rfl : r = r' := balanceNodes_unique hs hr hr'
  have hfloor : ((onNodeZero [1, 2, 3]).tids threeNodes true).size / threeNodes.numOfNodes = 1 := by
    decide +kernel
  have hceil :
      ((onNodeZero [1, 2, 3]).tids threeNodes true).size ⌈/⌉ threeNodes.numOfNodes = 1 := by
    decide +kernel
  have := hlevel 1 (by decide)
  omega

end Thanos
