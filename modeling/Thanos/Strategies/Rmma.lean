import Thanos.Strategies.Lmma

/-!
# RMMA

RMMA sends pages to random nodes: each page of the table, or as many random pages as may be
migrated. The latter are drawn with replacement. There is a set of the pages that have been drawn
before, which the loop consults, but nothing is ever inserted into it.

* **All pages** (`nodup_allPages`): the walk over the table names no page twice.
* **Random pages** (`sendsApart_iff`): the cells name distinct pages exactly when no page is drawn
  twice with destinations that both differ from its last node.
-/

namespace Thanos

variable {R : Type} [RealT R]

namespace Rmma

open Lmma (maxPagesToMigrate)

/-- The state of the loops. -/
structure RandomPlan (R : Type) where
  perfTable : MempagesTable R
  pagesToMigrate : OrderedSet Addr
  migrations : List (MemMigrationCell R)

/-- Nothing is planned yet. -/
def RandomPlan.start (perfTable : MempagesTable R) : RandomPlan R :=
  ⟨perfTable, ∅, []⟩

/-- A page is sent to a node. -/
def RandomPlan.send (plan : RandomPlan R) (memPage : Addr) (info : PageRow R) (dstNode : Node) :
    RandomPlan R :=
  let migration : MemMigrationCell R :=
    { addr := [memPage], pid := info.lastPid, src := info.lastNode, dst := dstNode,
      ratios := info.ratios }
  { plan with migrations := plan.migrations ++ [migration] }

/-- The draws of an iteration, for the page and for its destination. -/
abbrev PageDraws := ℕ × ℕ

section Algorithm

variable (g : MemoryGlobals R) (perfTable : MempagesTable R) (order : List Addr)
  (plan : RandomPlan R)

/-- The body of the loop over all pages, whose rows are cleared when they are sent. -/
def visitPage (e : Addr × ℕ) : RandomPlan R :=
  match plan.perfTable.table e.1 with
  | none => plan
  | some info =>
    let dstNode := rnd 0 g.topology.maxNode e.2
    let info := info.withRatios g.topology
    if dstNode ≠ info.lastNode then
      { plan.send e.1 info dstNode with
        perfTable := plan.perfTable.setRow e.1 (info.clear g.settings) }
    else { plan with perfTable := plan.perfTable.setRow e.1 info }

/-- `perform_migration_algorithm_all_pages`. -/
def performMigrationAlgorithmAllPages (draws : ℕ → ℕ) : List (MemMigrationCell R) :=
  (run (visitPage g) (.start perfTable)
    (order.zipIdx.map fun e => (e.1, draws e.2))).migrations

/-- The page at which the iterator is after it has been advanced. -/
def drawnPage (draw : PageDraws) : Option Addr :=
  order[rnd 0 order.length draw.1]?

/-- The destination drawn for a page. -/
def drawnNode (draw : PageDraws) : Node :=
  rnd 0 g.topology.numOfNodes draw.2

/-- The body of the loop over random pages. -/
def drawPage (draw : PageDraws) : RandomPlan R :=
  match drawnPage order draw with
  | none => plan
  | some memPage =>
    if memPage ∈ plan.pagesToMigrate then plan
    else
      match plan.perfTable.table memPage with
      | none => plan
      | some info =>
        let info := info.withRatios g.topology
        let plan := { plan with perfTable := plan.perfTable.setRow memPage info }
        if drawnNode g draw ≠ info.lastNode then plan.send memPage info (drawnNode g draw)
        else plan

/-- `perform_migration_algorithm_n_pages`. -/
def performMigrationAlgorithmNPages (nPages : ℕ) (draws : ℕ → PageDraws) :
    List (MemMigrationCell R) :=
  (run (drawPage g order) (.start perfTable) ((List.range nPages).map draws)).migrations

/-- `perform_migration_algorithm`. -/
def performMigrationAlgorithm (draws : ℕ → PageDraws) : List (MemMigrationCell R) :=
  if g.topology.numOfNodes = 1 then []
  else if maxPagesToMigrate g order = 0 then []
  else if maxPagesToMigrate g order = order.length then
    performMigrationAlgorithmAllPages g perfTable order fun i => (draws i).2
  else performMigrationAlgorithmNPages g perfTable order (maxPagesToMigrate g order) draws

/-- The page for which an iteration draws a destination other than its last node. -/
def sentPage (draw : PageDraws) : Option Addr :=
  (drawnPage order draw).filter fun memPage =>
    (perfTable.table memPage).any fun info => drawnNode g draw != info.lastNode

/-- No page is sent by two iterations. -/
def SentOnce (nPages : ℕ) (draws : ℕ → PageDraws) : Prop :=
  ∀ j < nPages, ∀ i < j, ∀ page ∈ sentPage g perfTable order (draws i),
    page ∉ sentPage g perfTable order (draws j)

end Algorithm

/-- The cells name distinct pages, so that no page is sent to two nodes. -/
structure SendsApart (migrations : List (MemMigrationCell R)) : Prop where
  nodup : (migrations.flatMap MemMigrationCell.addr).Nodup
  oneNode : ∀ m ∈ migrations, ∀ m' ∈ migrations, ∀ page ∈ m.addr, page ∈ m'.addr → m.dst = m'.dst

variable {g : MemoryGlobals R} {perfTable : MempagesTable R} {order : List Addr}
  {plan : RandomPlan R}

omit [RealT R] in
/-- Distinct pages are sent to one node each. -/
theorem sendsApart_iff_nodup {migrations : List (MemMigrationCell R)} :
    SendsApart migrations ↔ (migrations.flatMap MemMigrationCell.addr).Nodup := by
  refine ⟨SendsApart.nodup, fun h => ⟨h, fun m hm m' hm' page hpage => ?_⟩⟩
  have happart := (List.nodup_flatMap.mp h).2
  refine List.Pairwise.forall_of_forall_of_flip
    (R := fun m m' => page ∈ m.addr → page ∈ m'.addr → m.dst = m'.dst) ?_ ?_ ?_ hm hm' hpage
  · exact fun m _ _ _ => rfl
  · exact happart.imp fun hdisjoint hm hm' => absurd hm' (List.disjoint_left.mp hdisjoint hm)
  · exact happart.imp fun hdisjoint hm hm' => absurd hm (List.disjoint_left.mp hdisjoint hm')

/-- The ratios do not change the last node. -/
@[simp]
theorem lastNode_withRatios (info : PageRow R) (T : Topology) :
    (info.withRatios T).lastNode = info.lastNode := by
  unfold PageRow.withRatios PageRow.computeRatios
  dsimp only
  split_ifs <;> rfl

/-! ### All pages -/

/-- A page of the walk is named at most once more. -/
theorem visitPage_addresses (e : Addr × ℕ) :
    ((visitPage g plan e).migrations.flatMap MemMigrationCell.addr).Sublist
      (plan.migrations.flatMap MemMigrationCell.addr ++ [e.1]) := by
  unfold visitPage
  split
  · exact List.sublist_append_left ..
  · dsimp only
    split_ifs
    · simp [RandomPlan.send]
    · exact List.sublist_append_left ..

/-- **All pages.** -/
theorem nodup_allPages (horder : perfTable.IterationOrder order) (draws : ℕ → ℕ) :
    SendsApart (performMigrationAlgorithmAllPages g perfTable order draws) := by
  have hloop : ∀ (entries : List (Addr × ℕ)) (plan : RandomPlan R),
      ((run (visitPage g) plan entries).migrations.flatMap MemMigrationCell.addr).Sublist
        (plan.migrations.flatMap MemMigrationCell.addr ++ entries.map Prod.fst) := by
    intro entries
    induction entries with
    | nil => simp
    | cons e entries ih =>
      intro plan
      have hpage : ((visitPage g plan e).migrations.flatMap MemMigrationCell.addr).Sublist
          (plan.migrations.flatMap MemMigrationCell.addr ++ [e.1]) := visitPage_addresses e
      have hstep := hpage.append_right (entries.map Prod.fst)
      rw [List.append_assoc] at hstep
      exact (ih _).trans hstep
  refine sendsApart_iff_nodup.mpr (List.Nodup.sublist (hloop _ (.start perfTable)) ?_)
  rw [List.map_map]
  have hpages : order.zipIdx.map (Prod.fst ∘ fun e => (e.1, draws e.2)) = order :=
    List.zipIdx_map_fst 0 order
  rw [hpages]
  exact horder.1

/-! ### Random pages -/

/-- No page is marked, and the last nodes are those at the start. -/
structure RandomPlan.Unmarked (perfTable : MempagesTable R) (plan : RandomPlan R) : Prop where
  pagesToMigrate : ∀ page, page ∉ plan.pagesToMigrate
  lastNode : ∀ page, (plan.perfTable.table page).map PageRow.lastNode =
    (perfTable.table page).map PageRow.lastNode

omit [RealT R] in
theorem sentPage_eq {draw : PageDraws} {memPage : Addr} {row : PageRow R}
    (hpage : drawnPage order draw = some memPage) (hrow : perfTable.table memPage = some row) :
    sentPage g perfTable order draw =
      if drawnNode g draw = row.lastNode then none else some memPage := by
  rw [sentPage, hpage]
  by_cases hnode : drawnNode g draw = row.lastNode <;> simp [Option.filter, hrow, hnode]

omit [RealT R] in
/-- A row is replaced by one with the same last node. -/
theorem RandomPlan.Unmarked.setRow (h : plan.Unmarked perfTable) {memPage : Addr}
    {info info' : PageRow R} (hinfo : plan.perfTable.table memPage = some info)
    (hlast : info'.lastNode = info.lastNode) :
    ({ plan with perfTable := plan.perfTable.setRow memPage info' } :
      RandomPlan R).Unmarked perfTable := by
  refine ⟨h.pagesToMigrate, fun page => ?_⟩
  rw [← h.lastNode page, MempagesTable.setRow]
  by_cases hpage : page = memPage
  · simp [hpage, hinfo, hlast]
  · simp [hpage]

omit [RealT R] in
/-- Sending a page does not mark it. -/
theorem RandomPlan.Unmarked.send (h : plan.Unmarked perfTable) (memPage : Addr)
    (info : PageRow R) (dstNode : Node) : (plan.send memPage info dstNode).Unmarked perfTable :=
  ⟨h.pagesToMigrate, h.lastNode⟩

/-- A page is sent if the destination is another one, and nothing is marked. -/
theorem RandomPlan.Unmarked.drawPage (h : plan.Unmarked perfTable) (draw : PageDraws) :
    (drawPage g order plan draw).Unmarked perfTable ∧
      (Rmma.drawPage g order plan draw).migrations.flatMap MemMigrationCell.addr =
        plan.migrations.flatMap MemMigrationCell.addr ++
          (sentPage g perfTable order draw).toList := by
  rcases hpage : drawnPage order draw with _ | memPage
  · simp [Rmma.drawPage, sentPage, hpage, h]
  have hmarked : memPage ∉ plan.pagesToMigrate := h.pagesToMigrate memPage
  have hlast := h.lastNode memPage
  rcases hinfo : plan.perfTable.table memPage with _ | info
  · have hrow : perfTable.table memPage = none := by simpa [hinfo] using hlast.symm
    simp [Rmma.drawPage, sentPage, hpage, hmarked, hinfo, hrow, h]
  obtain ⟨row, hrow, hnode⟩ : ∃ row, perfTable.table memPage = some row ∧
      row.lastNode = info.lastNode := by simpa [hinfo, eq_comm] using hlast
  have hset := h.setRow hinfo (lastNode_withRatios info g.topology)
  rw [sentPage_eq hpage hrow, hnode]
  by_cases hsent : drawnNode g draw = info.lastNode
  · simp [Rmma.drawPage, hpage, hmarked, hinfo, hsent, hset]
  · have hsend := hset.send memPage (info.withRatios g.topology) (drawnNode g draw)
    refine ⟨by simpa [Rmma.drawPage, hpage, hmarked, hinfo, hsent] using hsend, ?_⟩
    simp [Rmma.drawPage, hpage, hmarked, hinfo, hsent, RandomPlan.send]

/-- The pages named are those sent by the iterations. -/
theorem addresses_nPages (nPages : ℕ) (draws : ℕ → PageDraws) :
    (performMigrationAlgorithmNPages g perfTable order nPages draws).flatMap
        MemMigrationCell.addr =
      (List.range nPages).flatMap fun i => (sentPage g perfTable order (draws i)).toList := by
  have hstart : (RandomPlan.start perfTable).Unmarked perfTable :=
    ⟨fun _ => OrderedSet.notMem_empty, fun _ => rfl⟩
  have hrun : (run (drawPage g order) (.start perfTable)
      ((List.range nPages).map draws)).migrations.flatMap MemMigrationCell.addr =
        run (fun pages draw => pages ++ (sentPage g perfTable order draw).toList) _ _ :=
    run_simulates (fun plan : RandomPlan R => plan.migrations.flatMap MemMigrationCell.addr) hstart
      (fun _ draw _ h => (h.drawPage draw).1) fun _ draw _ h => (h.drawPage draw).2
  rw [performMigrationAlgorithmNPages, hrun]
  exact List.flatMap_eq_foldl.symm.trans (List.flatMap_map ..)

omit [RealT R] in
/-- The pages sent are distinct if no page is sent by two iterations. -/
theorem nodup_sentPages_iff {nPages : ℕ} {draws : ℕ → PageDraws} :
    ((List.range nPages).flatMap fun i =>
      (sentPage g perfTable order (draws i)).toList).Nodup ↔
      SentOnce g perfTable order nPages draws := by
  have htoList : ∀ page? : Option Addr, page?.toList.Nodup := by
    rintro (_ | page)
    · exact List.nodup_nil
    · exact List.nodup_singleton page
  rw [List.nodup_flatMap, List.pairwise_iff_getElem, and_iff_right fun i _ => htoList _]
  simp only [List.length_range, List.getElem_range, Function.onFun, List.disjoint_left,
    Option.mem_toList]
  exact ⟨fun h j hj i hi => h i j (hi.trans hj) hj hi, fun h i j _ hj hi => h j hj i hi⟩

/-- **Random pages.** -/
theorem sendsApart_iff (g : MemoryGlobals R) (perfTable : MempagesTable R) (order : List Addr)
    (nPages : ℕ) (draws : ℕ → PageDraws) :
    SendsApart (performMigrationAlgorithmNPages g perfTable order nPages draws) ↔
      SentOnce g perfTable order nPages draws := by
  rw [sendsApart_iff_nodup, addresses_nPages, nodup_sentPages_iff]

/-- The whole algorithm sends random pages unless all or none may be migrated. -/
theorem sendsApart_performMigrationAlgorithm_iff (horder : perfTable.IterationOrder order)
    (draws : ℕ → PageDraws) :
    SendsApart (performMigrationAlgorithm g perfTable order draws) ↔
      g.topology.numOfNodes = 1 ∨ maxPagesToMigrate g order = 0 ∨
        maxPagesToMigrate g order = order.length ∨
        SentOnce g perfTable order (maxPagesToMigrate g order) draws := by
  have hnil : SendsApart ([] : List (MemMigrationCell R)) :=
    sendsApart_iff_nodup.mpr List.nodup_nil
  unfold performMigrationAlgorithm
  split_ifs with hnodes hmax hall
  · simp only [hnil, hnodes, true_or]
  · simp only [hnil, hmax, true_or, or_true]
  · simp only [nodup_allPages horder, hall, true_or, or_true]
  · rw [sendsApart_iff_nodup, addresses_nPages, nodup_sentPages_iff, or_iff_right hnodes,
      or_iff_right hmax, or_iff_right hall]

/-- Three nodes with one CPU each, pages of 4 KiB and no fake THPs. -/
def threeNodes : MemoryGlobals ℚ :=
  { Lmma.oneAhead with topology := .regular 3 1 (by decide) Nat.one_pos }

/-- Three pages that CPU 0 of three nodes has accessed. -/
def threePages : MempagesTable ℚ :=
  (MempagesTable.new threeNodes.settings).record threeNodes.topology
    ([4096, 8192, 12288].map fun page => (Lmma.access page 100 0, 1))

/-- The first page is drawn twice, and sent to the nodes 1 and 2. -/
theorem not_sendsApart :
    ¬ ∀ (g : MemoryGlobals ℚ) (perfTable : MempagesTable ℚ) (order : List Addr) (nPages : ℕ)
      (draws : ℕ → PageDraws), perfTable.IterationOrder order → nPages < order.length →
      SendsApart (performMigrationAlgorithmNPages g perfTable order nPages draws) := by
  intro h
  have horder : threePages.IterationOrder [4096, 8192, 12288] :=
    MempagesTable.iterationOrder_record (by decide)
  have hnodup := (h threeNodes threePages _ 2 (fun i => (0, i + 1)) horder (by decide)).nodup
  exact absurd hnodup (by decide +kernel)

end Rmma

end Thanos
