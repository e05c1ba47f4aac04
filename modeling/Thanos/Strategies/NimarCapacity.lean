import Thanos.Migration.Occupancy
import Thanos.Strategies.Nimar

/-!
# NIMAR and the capacity of the nodes

NIMAR plans every move against the occupancy before the plan, so that several threads may be
planned to the same free core. What a thread is drawn to is read off the occupancy and the
tickets before the plan: a node with a free core offers it to every thread that has more tickets
there, and any other node offers an exchange (`offer`). One thread after another takes the best
offer and is involved from then on, with its partner (`involve`).

* **Offers** (`planned_offer`): a step of the walk plans the best offer that is made to its thread.
* **Turns** (`turns_eq`): the threads that the plan involves are those that take offers.
* **Capacity** (`keepsCapacity_iff`): carried out as a whole, a plan leaves no node with more
  threads than CPUs exactly when, at every node, no more threads are drawn to the free cores than
  there are, and than threads there are drawn away.

An exchange of two pinned threads does not count (`Candidate.balanced`).
-/

namespace Thanos.Nimar

variable {R : Type} [RealT R] {g : Globals R} {tid : Pid} {migratedPids : OrderedSet Pid}
  {cell : MigrationCell R}

/-- No node has more threads pinned to it than it has CPUs. -/
def WithinCapacity (T : Topology) (s : System R) : Prop :=
  ∀ n ∈ T.nodes, (pinnedTo s n).ncard ≤ T.numOfCpusIn n

/-! ### Offers -/

/-- What a node offers to a thread. -/
structure Offer (R : Type) where
  dst : Node
  /-- The tickets in the case that the offer is taken. -/
  tickets : R
  /-- The thread of the node to change places with; a free core needs none. -/
  partner : Option Pid

section Offer

variable (g : Globals R) (migratedPids : OrderedSet Pid) (tid : Pid) (dst : Node)

/-- The node of a thread. -/
abbrev home : Node :=
  (g.system.proc tid).pinnedNumaNode

/-- Before the plan the node has a free core, and the thread has more tickets there. -/
def coreOffered : Bool :=
  g.system.isCpuFreeInNode g.topology dst &&
    decide (g.ticketsNode tid (home g tid) < g.ticketsNode tid dst)

/-- The best partner of the thread on the node and the tickets of the two if they change places,
provided that they gain some. Threads that are involved already are no partners. -/
def exchangeOffered : Option (Pid × Tickets R) :=
  match g.bestPidForSwapNode (home g tid) dst migratedPids with
  | none => none
  | some (partner, back) =>
    if g.ticketsNode tid (home g tid) + g.ticketsNode partner dst <
        g.ticketsNode tid dst + back then
      some (partner, g.ticketsNode tid dst + back)
    else none

/-- The offer of a node. -/
def offer : Option (Offer R) :=
  if home g tid = dst then none
  else if coreOffered g tid dst then some ⟨dst, (g.ticketsNode tid dst).value, none⟩
  else (exchangeOffered g migratedPids tid dst).map fun (partner, tickets) =>
    ⟨dst, tickets.value, some partner⟩

/-- The first one of the offers with the most tickets. -/
def best : List (Offer R) → Option (Offer R)
  | [] => none
  | o :: offers =>
    some (offers.foldl (fun best o => if best.tickets < o.tickets then o else best) o)

/-- The best offer of the nodes, the closest first. -/
def bestOffer : Option (Offer R) :=
  best ((g.topology.nodesByDistance (home g tid)).filterMap (offer g migratedPids tid))

/-- The threads that are involved once a thread has taken its best offer. -/
def involve : OrderedSet Pid :=
  if tid ∈ migratedPids then migratedPids
  else
    match bestOffer g migratedPids tid with
    | none => migratedPids
    | some o => migratedPids.insertMany (tid :: o.partner.toList)

end Offer

/-! ### Demand -/

section Demand

variable (g : Globals R) (n : Node)

/-- The threads to which offers are made, each with the threads that are involved by then. -/
def turns : List (OrderedSet Pid × Pid) :=
  trace (involve g) ∅ (worstTids g)

/-- A thread that is not involved yet is drawn to a free core of the node, or its partner comes
to the node in exchange for it although it was not pinned there. -/
def takesCore (turn : OrderedSet Pid × Pid) : Bool :=
  decide (turn.2 ∉ turn.1) && (bestOffer g turn.1 turn.2).any fun o =>
    if o.partner.isNone then decide (o.dst = n)
    else decide (home g turn.2 = n ∧ turn.2 ∉ g.system.nodeTidMap n)

/-- A thread of the node that is not involved yet is drawn to a free core of another one. -/
def freesCore (turn : OrderedSet Pid × Pid) : Bool :=
  decide (turn.2 ∉ turn.1) && (bestOffer g turn.1 turn.2).any fun o =>
    o.partner.isNone && decide (turn.2 ∈ g.system.nodeTidMap n)

/-- The cores of a node that no thread has before the plan. -/
def freeCores : ℕ :=
  g.topology.numOfCpusIn n - (g.system.nodeTidMap n).size

end Demand

/-- At every node, no more cores are taken than are free before the plan or become free. -/
def CoresSuffice (g : Globals R) : Prop :=
  ∀ n ∈ g.topology.nodes,
    (turns g).countP (takesCore g n) ≤ freeCores g n + (turns g).countP (freesCore g n)

/-- What a cell is on offer as. -/
def offerOf (cell : MigrationCell R) : Offer R where
  dst := (cell.migrations.map SimpleMigrationCell.dest).headD 0
  tickets := cell.tickets.value
  partner := cell.tids.tail.head?

theorem best_map (cells : List (MigrationCell R)) :
    best (cells.map offerOf) = (selectMigration cells).map offerOf := by
  cases cells with
  | nil => rfl
  | cons cell cells =>
    refine congrArg some ?_
    induction cells generalizing cell with
    | nil => rfl
    | cons cell' cells ih =>
      rw [List.map_cons, List.foldl_cons, selectLoop, List.foldl_cons, ← apply_ite offerOf]
      exact ih _

/-- A candidate is what its destination offers. -/
theorem offerOf_candidate (g : Globals R) (migratedPids : OrderedSet Pid) (tid : Pid)
    (dst : Node) :
    (candidate g migratedPids tid dst).map offerOf = offer g migratedPids tid dst := by
  by_cases hhome : home g tid = dst
  · simp only [candidate, offer, if_pos hhome, Option.map_none]
  · by_cases hcore : coreOffered g tid dst = true
    · have hmove := hcore
      rw [coreOffered, Bool.and_eq_true, decide_eq_true_eq] at hmove
      simp only [candidate, offer, if_neg hhome, if_pos hmove, if_pos hcore]
      rfl
    · have hmove := hcore
      rw [coreOffered, Bool.and_eq_true, decide_eq_true_eq] at hmove
      simp only [candidate, offer, if_neg hhome, if_neg hmove, if_neg hcore, exchangeOffered]
      rcases g.bestPidForSwapNode (home g tid) dst migratedPids with _ | ⟨partner, back⟩
      · rfl
      · dsimp only
        split_ifs <;> rfl

/-- A candidate names its own thread, and the partner if there is one. -/
theorem Candidate.tids_eq (h : Candidate g tid migratedPids cell) :
    cell.tids = tid :: (offerOf cell).partner.toList := by
  cases h with
  | move hne hfree hgain => rfl
  | interchange hne hswap hmig hfresh hgain => rfl

/-- **Offers.** -/
theorem planned_offer {plan : Plan R} (hfresh : tid ∉ plan.migratedPids) :
    (planned (getMigration g) plan tid).map offerOf = bestOffer g plan.migratedPids tid := by
  rw [planned, if_neg hfresh, ← best_map, getMigration, List.map_filterMap, bestOffer]
  congr 2
  funext dst
  exact offerOf_candidate g plan.migratedPids tid dst

/-- The step that plans a cell involves the threads that take the offer. -/
theorem migratedPids_planStep (plan : Plan R) (tid : Pid) :
    (planStep (getMigration g) plan tid).migratedPids = involve g plan.migratedPids tid := by
  unfold planStep involve
  split_ifs with hmem
  · rfl
  have hoffer := planned_offer (g := g) hmem
  rw [planned, if_neg hmem] at hoffer
  rw [← hoffer, Plan.add]
  cases hsel : selectMigration (getMigration g plan.migratedPids tid) with
  | none => rfl
  | some cell =>
    have htids : cell.tids = tid :: (offerOf cell).partner.toList :=
      (mem_getMigration (selectMigration_mem hsel)).tids_eq
    refine OrderedSet.ext_mem fun t => ?_
    simp only [Option.map_some, OrderedSet.mem_insertMany, ← htids, ← OrderedSet.mem_def,
      mem_tidsInvolved]

/-- **Turns.** -/
theorem turns_eq :
    turns g = (trace (planStep (getMigration g)) Plan.empty (worstTids g)).map fun step =>
      (step.1.migratedPids, step.2) := by
  rw [trace_simulates Plan.migratedPids migratedPids_planStep]
  rfl

/-! ### Balance -/

/-- A cell brings a thread to a node without taking one away. -/
def fillsCore (s : System R) (n : Node) (cell : MigrationCell R) : Bool :=
  match cell.migrations with
  | [mc] => decide (mc.dest = n)
  | [mc, mc2] => decide (mc2.dest = n ∧ mc.tid ∉ s.nodeTidMap n)
  | _ => false

/-- A cell takes a thread away from a node without bringing one. -/
def vacatesCore (s : System R) (n : Node) (cell : MigrationCell R) : Bool :=
  match cell.migrations with
  | [mc] => decide (mc.tid ∈ s.nodeTidMap n)
  | _ => false

/-- The step that plans a cell takes or frees a core if the cell does. -/
theorem planned_cores (plan : Plan R) (n : Node) :
    ((planned (getMigration g) plan tid).any (fillsCore g.system n) =
        takesCore g n (plan.migratedPids, tid)) ∧
      (planned (getMigration g) plan tid).any (vacatesCore g.system n) =
        freesCore g n (plan.migratedPids, tid) := by
  unfold takesCore freesCore
  by_cases hfresh : tid ∈ plan.migratedPids
  · simp [planned, hfresh]
  · simp only [← planned_offer hfresh, hfresh, not_false_eq_true, decide_true, Bool.true_and]
    cases hcell : planned (getMigration g) plan tid with
    | none => exact ⟨rfl, rfl⟩
    | some cell =>
      rw [planned, if_neg hfresh] at hcell
      cases mem_getMigration (selectMigration_mem hcell) with
      | move hne hfree hgain =>
        simp [fillsCore, vacatesCore, offerOf, MigrationCell.tids, Globals.simpleCell]
      | interchange hne hswap hmig hnew hgain =>
        simp [fillsCore, vacatesCore, offerOf, MigrationCell.tids, Globals.simpleCell]

theorem Candidate.node (h : Candidate g tid migratedPids cell) :
    ∀ half ∈ cell.migrations, half.node = true := by
  cases h with
  | move hne hfree hgain => simp [Globals.simpleCell]
  | interchange hne hswap hmig hfresh hgain => simp [Globals.simpleCell]

theorem node_of_mem_plan {half : SimpleMigrationCell R}
    (h : half ∈ halves (performMigrationAlgorithm g)) : half.node = true := by
  obtain ⟨cell, hcell, hhalf⟩ := List.mem_flatMap.mp h
  refine forall_getMigrationList (P := fun cell => ∀ half ∈ cell.migrations, half.node = true)
    (fun _ _ _ _ hcand => ?_) cell hcell half hhalf
  exact (mem_getMigration hcand).node

omit [RealT R] in
theorem listed_of_consistent {s : System R} (hs : NodesConsistent s) : ListedAtPinnedNode s :=
  fun t n ht => ((hs t n).mp ht).2

/-- The threads that a list of cells brings to a node and takes away from it, counted by the
cells that fill a core and those that vacate one. -/
def Balanced (s : System R) (n : Node) (cells : List (MigrationCell R)) : Prop :=
  arrivals cells n + cells.countP (vacatesCore s n) =
    departures s cells n + cells.countP (fillsCore s n)

/-- An interchange of pinned threads changes the occupancy of no node. -/
theorem Candidate.balanced (hs : NodesConsistent g.system) (n : Node)
    (h : Candidate g tid migratedPids cell) : Balanced g.system n [cell] := by
  cases h with
  | move hne hfree hgain =>
    simp only [Balanced, arrivals, departures, halves, List.flatMap_singleton,
      List.countP_singleton, vacatesCore, fillsCore, Globals.simpleCell]
    exact Nat.add_comm ..
  | @interchange dst swapTid hne hswap hmig hfresh hgain =>
    have hdst : swapTid ∈ g.system.nodeTidMap dst := (OrderedSet.mem_filter.mp hswap).1
    have hpartner : swapTid ∈ g.system.nodeTidMap n ↔ dst = n := by
      refine ⟨fun hn => ?_, fun hn => hn ▸ hdst⟩
      exact ((hs swapTid dst).mp hdst).2.symm.trans ((hs swapTid n).mp hn).2
    simp only [Balanced, arrivals, departures, halves, List.flatMap_singleton,
      List.countP_cons, List.countP_nil, vacatesCore, fillsCore, Globals.simpleCell,
      decide_eq_true_eq, hpartner]
    -- `tid` is missing from the set of its node if it is not pinned
    by_cases hmem : tid ∈ g.system.nodeTidMap n
    · have hsrc : (g.system.proc tid).pinnedNumaNode = n := ((hs tid n).mp hmem).2
      simp [hmem, hsrc, Nat.add_comm]
    · by_cases hsrc : (g.system.proc tid).pinnedNumaNode = n
      · simp [hmem, hsrc, Nat.add_comm]
      · simp [hmem, hsrc]

omit [RealT R] in
theorem balanced_of_forall {s : System R} {n : Node} {cells : List (MigrationCell R)}
    (h : ∀ cell ∈ cells, Balanced s n [cell]) : Balanced s n cells := by
  induction cells with
  | nil => rfl
  | cons cell cells ih =>
    have hcell : Balanced s n [cell] := h cell List.mem_cons_self
    have hrest := ih fun cell' hcell' => h cell' (List.mem_cons_of_mem cell hcell')
    unfold Balanced arrivals departures halves at *
    rw [← List.singleton_append, List.flatMap_append]
    simp only [List.countP_append]
    omega

/-- **Capacity.** In a consistent state in which no node has more threads than CPUs, a plan of
which all cells succeed leaves no node with more threads than CPUs exactly when the cores
suffice for the threads that are drawn to them. -/
theorem keepsCapacity_iff (g : Globals R) (hs : NodesConsistent g.system)
    (hcap : WithinCapacity g.topology g.system)
    (hok : (migrateCells g.topology (performMigrationAlgorithm g) g.system).1 = true) :
    WithinCapacity g.topology
        (migrateCells g.topology (performMigrationAlgorithm g) g.system).2 ↔
      CoresSuffice g := by
  have hdisj := nodup_planTids (listed_of_consistent hs)
  refine forall₂_congr fun n hn => ?_
  have hbefore := hcap n hn
  rw [ncard_pinnedTo hs] at hbefore
  have hcount := ncard_pinnedTo_migrateCells (n := n) hs (fun _ => node_of_mem_plan) hdisj hok
  have hbalance : Balanced g.system n (performMigrationAlgorithm g) :=
    balanced_of_forall (forall_getMigrationList fun _ _ _ _ hcand =>
      (mem_getMigration hcand).balanced hs n)
  have htakes : (performMigrationAlgorithm g).countP (fillsCore g.system n) =
      (turns g).countP (takesCore g n) := by
    rw [performMigrationAlgorithm, countP_getMigrationList, turns_eq, List.countP_map]
    exact List.countP_congr fun step _ => by rw [(planned_cores step.1 n).1, Function.comp_apply]
  have hfrees : (performMigrationAlgorithm g).countP (vacatesCore g.system n) =
      (turns g).countP (freesCore g n) := by
    rw [performMigrationAlgorithm, countP_getMigrationList, turns_eq, List.countP_map]
    exact List.countP_congr fun step _ => by rw [(planned_cores step.1 n).2, Function.comp_apply]
  unfold Balanced at hbalance
  rw [freeCores]
  omega

theorem twoAndOne_consistent : NodesConsistent twoAndOne := by
  intro t n
  constructor
  · exact fun ht => (System.nodeCoherent_run _ t).listed n ht
  · rintro ⟨hpin, rfl⟩
    by_cases h : t = 1 ∨ t = 2 ∨ t = 3
    · obtain rfl | rfl | rfl := h
      · decide +kernel
      · decide +kernel
      · decide +kernel
    · -- the other threads have not been pinned
      simp only [not_or] at h
      obtain ⟨h1, h2, h3⟩ := h
      have hfalse : (twoAndOne.proc t).pinned = false := by
        simp [twoAndOne, System.perform, System.pinProcess,
          (System.pinProcessToNode_sameThread h1).proc,
          (System.pinProcessToNode_sameThread h2).proc,
          (System.pinProcessToNode_sameThread h3).proc, System.boot]
      rw [hfalse] at hpin
      exact absurd hpin (by simp)

theorem twoAndOne_withinCapacity :
    WithinCapacity bothPreferNodeOne.topology bothPreferNodeOne.system := by
  have hsize : ∀ n ∈ bothPreferNodeOne.topology.nodes,
      (twoAndOne.nodeTidMap n).size ≤ bothPreferNodeOne.topology.numOfCpusIn n := by
    decide +kernel
  exact fun n hn => (ncard_pinnedTo twoAndOne_consistent).trans_le (hsize n hn)

/-- Both threads are planned to the one free core of node 1 and do not fit. -/
theorem keepsCapacity_iff_twoAndOne :
    ¬ WithinCapacity bothPreferNodeOne.topology
      (migrateCells bothPreferNodeOne.topology (performMigrationAlgorithm bothPreferNodeOne)
        bothPreferNodeOne.system).2 := by
  intro h
  have hfit := (keepsCapacity_iff bothPreferNodeOne twoAndOne_consistent twoAndOne_withinCapacity
    (by decide +kernel)).mp h 1 (by decide +kernel)
  exact absurd hfit (by decide +kernel)

/-- A plan that succeeds leaves three threads on the two CPUs of node 1. -/
theorem not_keepsCapacity :
    ¬ ∀ g : Globals ℚ, NodesConsistent g.system → WithinCapacity g.topology g.system →
      (migrateCells g.topology (performMigrationAlgorithm g) g.system).1 = true →
      WithinCapacity g.topology
        (migrateCells g.topology (performMigrationAlgorithm g) g.system).2 := by
  intro h
  have hok : (migrateCells bothPreferNodeOne.topology
      (performMigrationAlgorithm bothPreferNodeOne) bothPreferNodeOne.system).1 = true := by
    decide +kernel
  have hafter := h bothPreferNodeOne twoAndOne_consistent twoAndOne_withinCapacity hok 1
    (by decide +kernel)
  have hcount := ncard_pinnedTo_migrateCells (s := bothPreferNodeOne.system) (n := 1)
    twoAndOne_consistent (fun _ => node_of_mem_plan) (nodup_planTids twoAndOne_listed) hok
  have hleave : departures bothPreferNodeOne.system
      (performMigrationAlgorithm bothPreferNodeOne) 1 = 0 := by
    decide +kernel
  have harrive : (bothPreferNodeOne.system.nodeTidMap 1).size +
      arrivals (performMigrationAlgorithm bothPreferNodeOne) 1 = 3 := by decide +kernel
  have hcap : bothPreferNodeOne.topology.numOfCpusIn 1 = 2 := by decide +kernel
  rw [hleave, harrive] at hcount
  omega

end Thanos.Nimar
