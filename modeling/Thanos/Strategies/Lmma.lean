import Thanos.Strategies.MemoryStrategy

/-!
# The batch of LMMA

LMMA walks over the table of pages in the order of the map. A page that has enough samples and
a high latency, and that is not planned already, is planned together with the pages prefetched
with it; its row is cleared, so that it no longer prefers the node it is sent to.

* **One step** (`planPage_cases`): a page is planned with its prefetched pages, or nothing is.
* **Batch** (`batch_nodup_iff`): no address occurs twice in the batch exactly when no page is
  prefetched that is planned already. Planned pages are skipped by the walk, but not by the
  prefetching.
-/

namespace Thanos

variable {R : Type} [RealT R]

namespace Lmma

/-- `REL_LATENCY_THRESHOLD`, 130 %. -/
def relLatencyThreshold : ℤ :=
  130

/-- `SATURATED_NODE_THRESHOLD`, 130 %. -/
def saturatedNodeThreshold : ℤ :=
  130

/-- `is_node_saturated`. -/
def isNodeSaturated (perfTable : MempagesTable R) (node : Node) : Bool :=
  decide (saturatedNodeThreshold < (perfTable.nodeLatencies node * 100).tdiv perfTable.avLatency)

/-- The state of the loop over the table. -/
structure PagePlan (R : Type) where
  perfTable : MempagesTable R
  pagesToMigrate : OrderedSet Addr
  candidates : List (AddrRatioMig R)

section Plan

variable (g : MemoryGlobals R) (skip : PageRow R → Bool) (leastSaturatedNode : Node)
  (plan : PagePlan R) (memPage : Addr)

/-- The row, with its ratios, of a page that is not planned already, has enough samples and a
high latency. -/
def considered : Option (PageRow R) :=
  if memPage ∈ plan.pagesToMigrate then none
  else
    match plan.perfTable.table memPage with
    | none => none
    | some info =>
      if info.enoughInfo && decide (relLatencyThreshold < plan.perfTable.relLatency info) then
        some (info.withRatios g.topology)
      else none

/-- The preferred node, unless it is saturated. -/
def dstNode (info : PageRow R) : Node :=
  let maxNode := info.preferredNode g.topology
  if isNodeSaturated plan.perfTable maxNode then leastSaturatedNode else maxNode

/-- The pages prefetched with a page; the ratios that have been computed do not matter here. -/
def pagesToPrefetch (info : PageRow R) : List Addr :=
  g.prefetchCandidates plan.perfTable memPage (dstNode g leastSaturatedNode plan info)

/-- A page is planned and its row cleared. -/
def PagePlan.add (info : PageRow R) : PagePlan R :=
  let pages := memPage :: pagesToPrefetch g leastSaturatedNode plan memPage info
  let migration : MemMigrationCell R :=
    { addr := pages
      pid := info.lastPid
      src := info.lastNode
      dst := dstNode g leastSaturatedNode plan info
      ratios := info.ratios }
  { perfTable := plan.perfTable.setRow memPage (info.clear g.settings)
    pagesToMigrate := plan.pagesToMigrate.insertMany pages
    candidates :=
      plan.candidates ++ [(memPage, info.ratios (info.preferredNode g.topology), migration)] }

/-- The body of the loops, in which some rows are skipped after their ratios are computed. -/
def planPage : PagePlan R :=
  match considered g plan memPage with
  | none => plan
  | some info =>
    if skip info then { plan with perfTable := plan.perfTable.setRow memPage info }
    else plan.add g leastSaturatedNode memPage info

end Plan

section Algorithm

variable (g : MemoryGlobals R) (perfTable : MempagesTable R) (order : List Addr)

/-- The plan before the loops. -/
def PagePlan.start : PagePlan R :=
  ⟨perfTable, ∅, []⟩

/-- The loops of both algorithms over a table whose pages are visited in some order. -/
def planPages (skip : PageRow R → Bool) : PagePlan R :=
  run (planPage g skip (perfTable.nodeMinAvLatency g.topology)) (.start perfTable) order

/-- `perform_migration_algorithm_all_pages` skips no row. -/
def skipNone (_ : PageRow R) : Bool :=
  false

/-- `perform_migration_algorithm_n_pages` skips the rows whose last node is the preferred one. -/
def skipLocal (info : PageRow R) : Bool :=
  info.lastNode == info.preferredNode g.topology

/-- `perform_migration_algorithm_all_pages`. -/
def performMigrationAlgorithmAllPages : List (MemMigrationCell R) :=
  (planPages g perfTable order skipNone).candidates.map fun candidate => candidate.2.2

/-- `perform_migration_algorithm_n_pages`. -/
def performMigrationAlgorithmNPages (nPages : ℕ) : List (MemMigrationCell R) :=
  let candidates := (planPages g perfTable order (skipLocal g)).candidates
  selectBestMigrations candidates (min candidates.length nPages)

/-- How many pages may be migrated. -/
def maxPagesToMigrate : ℕ :=
  (RealT.trunc (g.portionMemoryMigrations * real order.length)).toNat

/-- `perform_migration_algorithm`. -/
def performMigrationAlgorithm : List (MemMigrationCell R) :=
  if g.topology.numOfNodes = 1 then []
  else if maxPagesToMigrate g order = 0 then []
  else if maxPagesToMigrate g order = order.length then
    performMigrationAlgorithmAllPages g perfTable order
  else performMigrationAlgorithmNPages g perfTable order (maxPagesToMigrate g order)

/-- Which rows `perform_migration_algorithm` skips. -/
def skipped : PageRow R → Bool :=
  if maxPagesToMigrate g order = order.length then skipNone else skipLocal g

/-- If a page is planned, no page is prefetched with it that is planned already. -/
def PrefetchesNew (skip : PageRow R → Bool) (leastSaturatedNode : Node) (plan : PagePlan R)
    (memPage : Addr) : Prop :=
  ∀ info, considered g plan memPage = some info → skip info = false →
    ∀ page ∈ pagesToPrefetch g leastSaturatedNode plan memPage info, page ∉ plan.pagesToMigrate

end Algorithm

/-! ### One step -/

variable {g : MemoryGlobals R} {skip : PageRow R → Bool} {leastSaturatedNode : Node}
  {plan : PagePlan R} {memPage : Addr} {perfTable : MempagesTable R} {order : List Addr}

theorem notMem_of_considered {info : PageRow R} (h : considered g plan memPage = some info) :
    memPage ∉ plan.pagesToMigrate := by
  intro hmem
  rw [considered, if_pos hmem] at h
  cases h

/-- **One step.** -/
theorem planPage_cases (g : MemoryGlobals R) (skip : PageRow R → Bool) (leastSaturatedNode : Node)
    (plan : PagePlan R) (memPage : Addr) :
    ((∀ info, considered g plan memPage = some info → skip info = true) ∧ ∃ t,
      planPage g skip leastSaturatedNode plan memPage = { plan with perfTable := t }) ∨
    ∃ info, considered g plan memPage = some info ∧ skip info = false ∧
      planPage g skip leastSaturatedNode plan memPage =
        plan.add g leastSaturatedNode memPage info := by
  rcases hinfo : considered g plan memPage with _ | info
  · exact .inl ⟨by simp, plan.perfTable, by simp [planPage, hinfo]⟩
  · cases hskip : skip info with
    | false => exact .inr ⟨info, rfl, hskip, by simp [planPage, hinfo, hskip]⟩
    | true =>
      refine .inl ⟨by simpa using hskip, plan.perfTable.setRow memPage info, ?_⟩
      simp [planPage, hinfo, hskip]

/-! ### The addresses of a plan -/

/-- The addresses that the candidates of a plan name. -/
def PagePlan.addresses (plan : PagePlan R) : List Addr :=
  plan.candidates.flatMap fun candidate => candidate.2.2.addr

theorem addresses_add {info : PageRow R} :
    (plan.add g leastSaturatedNode memPage info).addresses =
      plan.addresses ++ memPage :: pagesToPrefetch g leastSaturatedNode plan memPage info := by
  simp [PagePlan.addresses, PagePlan.add]

/-- The pages to migrate are those of the candidates. -/
def PagePlan.Consistent (plan : PagePlan R) : Prop :=
  ∀ page, page ∈ plan.addresses ↔ page ∈ plan.pagesToMigrate

theorem PagePlan.Consistent.planPage (h : plan.Consistent) :
    (planPage g skip leastSaturatedNode plan memPage).Consistent := by
  obtain ⟨-, t, heq⟩ | ⟨info, -, -, heq⟩ := planPage_cases g skip leastSaturatedNode plan memPage
  · rw [heq]
    exact h
  · rw [heq]
    intro page
    rw [addresses_add, List.mem_append, h page, PagePlan.add, OrderedSet.mem_insertMany, or_comm]

/-- A step that starts without repeated addresses ends without them exactly when it prefetches
no planned page. -/
theorem nodup_planPage_iff (hthp : g.memoryInfo.fakeThpEnabled = false) (h : plan.Consistent)
    (hnodup : plan.addresses.Nodup) :
    (planPage g skip leastSaturatedNode plan memPage).addresses.Nodup ↔
      PrefetchesNew g skip leastSaturatedNode plan memPage := by
  obtain ⟨hnone, t, heq⟩ | ⟨info, hinfo, hskip, heq⟩ :=
    planPage_cases g skip leastSaturatedNode plan memPage
  · rw [heq]
    refine iff_of_true hnodup fun info hinfo hskip => ?_
    exact absurd (hnone info hinfo) (by simp [hskip])
  · have hpages := MemoryGlobals.nodup_cons_prefetchCandidates plan.perfTable memPage
      (dstNode g leastSaturatedNode plan info) hthp
    rw [heq, addresses_add]
    constructor
    · intro hall info' hinfo' _ page hpage hmem
      obtain rfl := Option.some.inj (hinfo.symm.trans hinfo')
      exact (List.nodup_append.mp hall).2.2 page ((h page).mpr hmem) page
        (List.mem_cons_of_mem memPage hpage) rfl
    · intro hnew
      refine List.nodup_append.mpr ⟨hnodup, hpages, fun page hold page' hpage heq => ?_⟩
      subst heq
      have hmem : page ∈ plan.pagesToMigrate := (h page).mp hold
      obtain rfl | hpage := List.mem_cons.mp hpage
      · exact notMem_of_considered hinfo hmem
      · exact hnew info hinfo hskip page hpage hmem

theorem nodup_of_nodup_planPage
    (h : (planPage g skip leastSaturatedNode plan memPage).addresses.Nodup) :
    plan.addresses.Nodup := by
  obtain ⟨-, t, heq⟩ | ⟨info, -, -, heq⟩ := planPage_cases g skip leastSaturatedNode plan memPage
  · rwa [heq] at h
  · rw [heq, addresses_add] at h
    exact (List.nodup_append.mp h).1

/-! ### The batch -/

/-- The plans of a walk name no address twice exactly when every step prefetches new pages. -/
theorem nodup_planPages_iff (hthp : g.memoryInfo.fakeThpEnabled = false) :
    (planPages g perfTable order skip).addresses.Nodup ↔
      StepsOfRun (planPage g skip (perfTable.nodeMinAvLatency g.topology))
        (PrefetchesNew g skip (perfTable.nodeMinAvLatency g.topology)) (.start perfTable)
        order := by
  rw [planPages, ← alongRun_iff_run (P := fun plan : PagePlan R => plan.addresses.Nodup)
    fun _ _ => nodup_of_nodup_planPage]
  refine alongRun_iff_stepsOfRun (I := PagePlan.Consistent) (fun page => ?_)
    (fun _ _ h => h.planPage) List.nodup_nil fun _ _ h hnodup => nodup_planPage_iff hthp h hnodup
  simp [PagePlan.addresses, PagePlan.start]

omit [RealT R] in
theorem map_fst_batch (migrations : List (MemMigrationCell R)) :
    (batch migrations).map Prod.fst = migrations.flatMap MemMigrationCell.addr := by
  rw [batch, List.map_flatMap]
  congr 1
  funext cell
  simp [MemMigrationCell.pairs, Function.comp_def]

/-- The algorithm plans with the rows that it does not skip, and keeps all cells. -/
theorem perm_performMigrationAlgorithm (perfTable : MempagesTable R)
    (hnodes : g.topology.numOfNodes ≠ 1) (hmax : maxPagesToMigrate g order ≠ 0) :
    (performMigrationAlgorithm g perfTable order).Perm
      ((planPages g perfTable order (skipped g order)).candidates.map
        fun candidate => candidate.2.2) := by
  rw [performMigrationAlgorithm, if_neg hnodes, if_neg hmax, skipped]
  split_ifs with hall
  · exact .refl _
  · exact perm_selectBestMigrations _ _

/-- **Batch.** -/
theorem batch_nodup_iff (hthp : g.memoryInfo.fakeThpEnabled = false) :
    ((batch (performMigrationAlgorithm g perfTable order)).map Prod.fst).Nodup ↔
      g.topology.numOfNodes = 1 ∨ maxPagesToMigrate g order = 0 ∨
        StepsOfRun (planPage g (skipped g order) (perfTable.nodeMinAvLatency g.topology))
          (PrefetchesNew g (skipped g order) (perfTable.nodeMinAvLatency g.topology))
          (.start perfTable) order := by
  by_cases hnodes : g.topology.numOfNodes = 1
  · simp [performMigrationAlgorithm, hnodes, batch]
  · by_cases hmax : maxPagesToMigrate g order = 0
    · simp [performMigrationAlgorithm, hmax, batch]
    · have hperm := (perm_performMigrationAlgorithm perfTable hnodes hmax).flatMap_right
        MemMigrationCell.addr
      rw [map_fst_batch, hperm.nodup_iff, List.flatMap_map, or_iff_right hnodes,
        or_iff_right hmax, ← nodup_planPages_iff hthp]
      rfl

/-! ### Two neighbouring pages -/

/-- Two nodes, pages of 4 KiB, no fake THPs, and one page prefetched with each. -/
def oneAhead : MemoryGlobals ℚ where
  topology := .regular 2 1 Nat.two_pos Nat.one_pos
  settings := .default 100 64
  memoryInfo := { pagesize := 4096, memoryRegions := ∅, fakeThpSize := 0, fakeThpRegions := ∅ }
  memoryPrefetchSize := 1
  portionMemoryMigrations := 1

/-- A sample from CPU 0 of a page that is on some node. -/
def access (page : Addr) (latency : ℤ) (pageNode : Node) : MemorySample :=
  .single 0 1 page latency pageNode

/-- Eleven slow accesses to the page 8192 on node 1 and to the page 4096 on node 0, after a few
fast ones to other pages of both nodes. -/
def twoSlowPages : MempagesTable ℚ :=
  let fast := List.replicate 6 (access 65536 100 1) ++ List.replicate 6 (access 131072 100 0)
  let slow := List.replicate 11 (access 8192 400 1) ++ List.replicate 11 (access 4096 400 0)
  (MempagesTable.new oneAhead.settings).record oneAhead.topology
    ((fast ++ slow).map fun sample => (sample, 1))

/-- Visited first, the page on node 0 is planned alone with the next page, and no page twice. -/
theorem batch_nodup_iff_ascending :
    StepsOfRun (planPage oneAhead (skipped oneAhead [4096, 8192, 65536, 131072])
        (twoSlowPages.nodeMinAvLatency oneAhead.topology))
      (PrefetchesNew oneAhead (skipped oneAhead [4096, 8192, 65536, 131072])
        (twoSlowPages.nodeMinAvLatency oneAhead.topology))
      (.start twoSlowPages) [4096, 8192, 65536, 131072] := by
  have hnodup : ((batch (performMigrationAlgorithm oneAhead twoSlowPages
      [4096, 8192, 65536, 131072])).map Prod.fst).Nodup := by decide +kernel
  exact (((batch_nodup_iff rfl).mp hnodup).resolve_left (by decide)).resolve_left
    (by decide +kernel)

/-- Visited first, the page on node 1 is planned; its cleared row prefers node 0, and it is
prefetched with the page before it. -/
theorem not_batch_nodup :
    ¬ ∀ (g : MemoryGlobals ℚ) (perfTable : MempagesTable ℚ) (order : List Addr),
      g.memoryInfo.fakeThpEnabled = false → perfTable.IterationOrder order →
      ((batch (performMigrationAlgorithm g perfTable order)).map Prod.fst).Nodup := by
  intro h
  have horder : twoSlowPages.IterationOrder [8192, 65536, 4096, 131072] :=
    MempagesTable.iterationOrder_record (by decide)
  exact absurd (h oneAhead twoSlowPages [8192, 65536, 4096, 131072] rfl horder) (by decide +kernel)

end Lmma

end Thanos
