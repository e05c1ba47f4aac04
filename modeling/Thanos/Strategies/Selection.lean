import Thanos.Library.Greedy
import Thanos.Strategies.LmmaVariants
import Thanos.Strategies.Tmma

/-!
# The selection of migrations

`select_best_migrations` sorts the candidates if there are more of them than may be migrated, but
returns all of them.

* **Selection** (`selectsBest_iff`): it returns the best candidates exactly when all of them may
  be migrated.
* **Walks** (`callsFor_of_walk`): LMMA and TMMA have a candidate for each page that is due by its
  row, unless the page is prefetched with another one before the walk comes to it.
* **Limit** (`selectsBest_and_limits_iff`): hence they keep to the limit exactly when the table
  calls for no more pages than that (`CallsFor`).
-/

namespace Thanos

variable {R : Type} [RealT R]

/-- Some cells are those of a number of candidates, none of which has a smaller ratio than one
that is left out. -/
def SelectsBest (candidates : List (AddrRatioMig R)) (nMigrations : ℕ)
    (migrations : List (MemMigrationCell R)) : Prop :=
  ∃ taken left, candidates.Perm (taken ++ left) ∧ taken.length = nMigrations ∧
    migrations = taken.map (fun candidate => candidate.2.2) ∧
    ∀ a ∈ taken, ∀ b ∈ left, ¬ a.2.1 < b.2.1

variable {candidates : List (AddrRatioMig R)} {nMigrations nPages : ℕ} {g : MemoryGlobals R}
  {perfTable : MempagesTable R} {order : List Addr}

theorem length_selectBestMigrations (candidates : List (AddrRatioMig R)) (nMigrations : ℕ) :
    (selectBestMigrations candidates nMigrations).length = candidates.length := by
  rw [(perm_selectBestMigrations candidates nMigrations).length_eq, List.length_map]

/-- **Selection.** -/
theorem selectsBest_iff (hn : nMigrations ≤ candidates.length) :
    SelectsBest candidates nMigrations (selectBestMigrations candidates nMigrations) ↔
      nMigrations = candidates.length := by
  constructor
  · rintro ⟨taken, left, -, hlength, hmigrations, -⟩
    have hall := length_selectBestMigrations candidates nMigrations
    rw [hmigrations, List.length_map] at hall
    omega
  · rintro rfl
    refine ⟨candidates, [], by simp, rfl, ?_, by simp⟩
    rw [selectBestMigrations, if_neg (lt_irrefl _)]

/-! ### The pages that a table calls for -/

/-- The table after the rows of some pages have been cleared. -/
def MempagesTable.cleared (settings : Settings R) (t : MempagesTable R) (pages : List Addr) :
    MempagesTable R :=
  { t with
    table := fun page =>
      if pages.contains page then (t.table page).map (PageRow.clear settings) else t.table page }

section CallsFor

variable (g : MemoryGlobals R) (t : MempagesTable R) (due : PageRow R → Bool)
  (dst : PageRow R → Node)

/-- A page is prefetched with the page `planned`, which is visited after `pages`. -/
def PrefetchedWith (pages : List Addr) (planned page : Addr) : Prop :=
  ∃ row, t.table planned = some row ∧
    page ∈ g.prefetchCandidates (t.cleared g.settings pages) planned (dst row)

/-- The row of a page is due. -/
def RowDue (page : Addr) : Prop :=
  ∃ row, t.table page = some row ∧ due row = true

/-- The pages that the rows of a table call for: they are due, and not prefetched with another
of them that is visited before. The rows of those visited before have been cleared by then. -/
def CallsFor (order pages : List Addr) : Prop :=
  Picks (RowDue t due) (PrefetchedWith g t dst) order pages

end CallsFor

/-- A page that LMMA migrates: enough samples, a latency above the threshold, and accesses that
come from another node than the last one. -/
def Lmma.isDue (g : MemoryGlobals R) (t : MempagesTable R) (row : PageRow R) : Bool :=
  row.enoughInfo && decide (relLatencyThreshold < t.relLatency row) &&
    row.lastNode != row.preferredNode g.topology

/-- Where LMMA migrates a page. -/
def Lmma.destination (g : MemoryGlobals R) (t : MempagesTable R) (row : PageRow R) : Node :=
  dstNode g (t.nodeMinAvLatency g.topology) (.start t) row

/-- A page that TMMA migrates: enough samples, and enough of its accesses from another node than
the last one. -/
def Tmma.isDue (g : MemoryGlobals R) (row : PageRow R) : Bool :=
  row.enoughInfo && worthwhile g (row.withRatios g.topology)

/-! ### Walks -/

section Walk

open Lmma (PagePlan)

/-- What a step of a walk does with a page, read off its row. -/
inductive Lmma.PagePlan.Decides (g : MemoryGlobals R) (due : PageRow R → Bool)
    (dst : PageRow R → Node) (plan : PagePlan R) (memPage : Addr) : PagePlan R → Prop
  | passes {t : MempagesTable R}
      (hpass : memPage ∈ plan.pagesToMigrate ∨ ¬ RowDue plan.perfTable due memPage)
      (ht : t = plan.perfTable ∨ ∃ row, plan.perfTable.table memPage = some row ∧
        t = plan.perfTable.setRow memPage (row.withRatios g.topology)) :
      Decides g due dst plan memPage { plan with perfTable := t }
  | plans {row : PageRow R} {candidate : AddrRatioMig R} (hfresh : memPage ∉ plan.pagesToMigrate)
      (hrow : plan.perfTable.table memPage = some row) (hdue : due row = true) :
      Decides g due dst plan memPage
        { perfTable := plan.perfTable.setRow memPage (row.clear g.settings)
          pagesToMigrate := plan.pagesToMigrate.insertMany
            (memPage :: g.prefetchCandidates plan.perfTable memPage (dst row))
          candidates := plan.candidates ++ [candidate] }

variable {due : PageRow R → Bool} {dst : PageRow R → Node} {plan plan' : PagePlan R}
  {t t' : MempagesTable R} {memPage page : Addr} {row : PageRow R} {T : Topology}
  {settings : Settings R} {done pages : List Addr}

theorem clear_withRatios : (row.withRatios T).clear settings = row.clear settings := by
  obtain ⟨_, _, heq⟩ := PageRow.withRatios_eq T row
  rw [heq]
  rfl

theorem nodeAccesses_withRatios : (row.withRatios T).nodeAccesses = row.nodeAccesses := by
  obtain ⟨_, _, heq⟩ := PageRow.withRatios_eq T row
  rw [heq]

theorem lastNode_withRatios : (row.withRatios T).lastNode = row.lastNode := by
  obtain ⟨_, _, heq⟩ := PageRow.withRatios_eq T row
  rw [heq]

theorem preferredNode_withRatios {T' : Topology} :
    (row.withRatios T).preferredNode T' = row.preferredNode T' := by
  rw [PageRow.preferredNode, nodeAccesses_withRatios, PageRow.preferredNode]

/-- A step of LMMA, as long as the latencies are those of the table at the start. -/
theorem Lmma.decides (hav : plan.perfTable.avLatency = t.avLatency)
    (hnodes : plan.perfTable.nodeLatencies = t.nodeLatencies) :
    PagePlan.Decides g (isDue g t) (destination g t) plan memPage
      (planPage g (skipLocal g) (t.nodeMinAvLatency g.topology) plan memPage) := by
  have hrel : ∀ row : PageRow R, plan.perfTable.relLatency row = t.relLatency row := fun row => by
    rw [MempagesTable.relLatency, hav, MempagesTable.relLatency]
  by_cases hmem : memPage ∈ plan.pagesToMigrate
  · have hnone : considered g plan memPage = none := if_pos hmem
    rw [planPage, hnone]
    exact .passes (.inl hmem) (.inl rfl)
  · rcases hrow : plan.perfTable.table memPage with _ | row
    · have hnone : considered g plan memPage = none := by
        rw [considered, if_neg hmem, hrow]
      rw [planPage, hnone]
      refine .passes (.inr ?_) (.inl rfl)
      rintro ⟨row, hsome, -⟩
      simp [hrow] at hsome
    · by_cases hslow : (row.enoughInfo && decide (relLatencyThreshold < t.relLatency row)) = true
      · have hsome : considered g plan memPage = some (row.withRatios g.topology) := by
          simp only [considered, if_neg hmem, hrow, hrel, if_pos hslow]
        have hskip : skipLocal g (row.withRatios g.topology) =
            (row.lastNode == row.preferredNode g.topology) := by
          rw [skipLocal, lastNode_withRatios, preferredNode_withRatios]
        rw [planPage, hsome]
        dsimp only
        rw [hskip]
        split_ifs with hlocal
        · refine .passes (.inr ?_) (.inr ⟨row, hrow, rfl⟩)
          rintro ⟨row', hrow', hdue⟩
          obtain rfl := Option.some.inj (hrow.symm.trans hrow')
          simp [isDue, bne, hlocal] at hdue
        · have hdst : dstNode g (t.nodeMinAvLatency g.topology) plan (row.withRatios g.topology) =
              destination g t row := by
            rw [destination, dstNode, dstNode, preferredNode_withRatios, isNodeSaturated,
              isNodeSaturated, hav, hnodes]
            rfl
          rw [PagePlan.add, clear_withRatios, pagesToPrefetch, hdst]
          exact .plans hmem hrow (by simp [isDue, bne, hslow, hlocal])
      · have hnone : considered g plan memPage = none := by
          simp only [considered, if_neg hmem, hrow, hrel, if_neg hslow]
        rw [planPage, hnone]
        refine .passes (.inr ?_) (.inl rfl)
        rintro ⟨row', hrow', hdue⟩
        obtain rfl := Option.some.inj (hrow.symm.trans hrow')
        simp [isDue, hslow] at hdue

/-- A step of TMMA. -/
theorem Tmma.decides (plan : PagePlan R) (memPage : Addr) :
    PagePlan.Decides g (isDue g) (fun row => row.preferredNode g.topology) plan memPage
      (planPage g plan memPage) := by
  by_cases hmem : memPage ∈ plan.pagesToMigrate
  · have hnone : considered g plan memPage = none := if_pos hmem
    rw [planPage, hnone]
    exact .passes (.inl hmem) (.inl rfl)
  · rcases hrow : plan.perfTable.table memPage with _ | row
    · have hnone : considered g plan memPage = none := by
        rw [considered, if_neg hmem, hrow]
      rw [planPage, hnone]
      refine .passes (.inr ?_) (.inl rfl)
      rintro ⟨row, hsome, -⟩
      simp [hrow] at hsome
    · have hpass : isDue g row = false → ¬ RowDue plan.perfTable (isDue g) memPage := by
        rintro hnot ⟨row', hrow', hdue⟩
        obtain rfl := Option.some.inj (hrow.symm.trans hrow')
        exact absurd hdue (by simp [hnot])
      by_cases henough : row.enoughInfo = true
      · have hsome : considered g plan memPage = some (row.withRatios g.topology) := by
          simp only [considered, if_neg hmem, hrow, if_pos henough]
        rw [planPage, hsome]
        dsimp only
        split_ifs with hworth
        · rw [add, clear_withRatios, preferredNode_withRatios]
          exact .plans hmem hrow (by simp [isDue, henough, hworth])
        · exact .passes (.inr (hpass (by simp [isDue, hworth]))) (.inr ⟨row, hrow, rfl⟩)
      · have hnone : considered g plan memPage = none := by
          simp only [considered, if_neg hmem, hrow, if_neg henough]
        rw [planPage, hnone]
        exact .passes (.inr (hpass (by simp [isDue, henough]))) (.inl rfl)

theorem prefetchCandidates_congr {initial : Addr} {node : Node}
    (h : ∀ page, (t.table page).map (PageRow.preferredNode g.topology) =
      (t'.table page).map (PageRow.preferredNode g.topology)) :
    g.prefetchCandidates t initial node = g.prefetchCandidates t' initial node := by
  have hall : ∀ (t : MempagesTable R) page,
      ((t.table page).all fun info => info.preferredNode g.topology == node) =
        ((t.table page).map (PageRow.preferredNode g.topology)).all (· == node) := fun t page => by
    cases t.table page with
    | none => rfl
    | some row => rfl
  have hsame : g.prefetchable t initial node = g.prefetchable t' initial node := by
    funext candidate
    rw [MemoryGlobals.prefetchable, MemoryGlobals.prefetchable, hall, hall, h]
  simp only [MemoryGlobals.prefetchCandidates, MemoryGlobals.prefetchSmallPages, hsame]

/-- What a walk has done with the pages visited so far, read off the table at its start. -/
structure Lmma.PagePlan.Agrees (g : MemoryGlobals R) (t : MempagesTable R) (dst : PageRow R → Node)
    (done pages : List Addr) (plan : PagePlan R) : Prop where
  avLatency : plan.perfTable.avLatency = t.avLatency
  nodeLatencies : plan.perfTable.nodeLatencies = t.nodeLatencies
  unvisited : ∀ page, page ∉ done → plan.perfTable.table page = t.table page
  preferred : ∀ page, (plan.perfTable.table page).map (PageRow.preferredNode g.topology) =
    ((t.cleared g.settings pages).table page).map (PageRow.preferredNode g.topology)
  taken : ∀ page, page ∈ plan.pagesToMigrate ↔
    page ∈ pages ∨ Covered (PrefetchedWith g t dst) pages page
  visited : ∀ page ∈ pages, page ∈ done
  length_eq : plan.candidates.length = pages.length

omit [RealT R] in
theorem table_setRow {info : PageRow R} : (t.setRow memPage info).table page =
    if page = memPage then some info else t.table page :=
  Function.update_apply ..

/-- A page that is passed over changes nothing that counts. -/
theorem Lmma.PagePlan.Agrees.pass (h : plan.Agrees g t dst done pages)
    (ht : t' = plan.perfTable ∨ ∃ row, plan.perfTable.table memPage = some row ∧
      t' = plan.perfTable.setRow memPage (row.withRatios g.topology)) :
    Agrees g t dst (done ++ [memPage]) pages { plan with perfTable := t' } := by
  obtain ⟨hav, hnodes, htable, hpreferred⟩ : t'.avLatency = plan.perfTable.avLatency ∧
      t'.nodeLatencies = plan.perfTable.nodeLatencies ∧
      (∀ page, page ≠ memPage → t'.table page = plan.perfTable.table page) ∧
      ∀ page, (t'.table page).map (PageRow.preferredNode g.topology) =
        (plan.perfTable.table page).map (PageRow.preferredNode g.topology) := by
    obtain rfl | ⟨row, hrow, rfl⟩ := ht
    · exact ⟨rfl, rfl, fun _ _ => rfl, fun _ => rfl⟩
    · refine ⟨rfl, rfl, fun page hne => ?_, fun page => ?_⟩
      · rw [table_setRow, if_neg hne]
      · rw [table_setRow]
        split_ifs with heq
        · rw [heq, hrow, Option.map_some, Option.map_some, preferredNode_withRatios]
        · rfl
  exact {
    avLatency := hav.trans h.avLatency
    nodeLatencies := hnodes.trans h.nodeLatencies
    unvisited := fun page hpage => by
      rw [List.mem_append, List.mem_singleton, not_or] at hpage
      exact (htable page hpage.2).trans (h.unvisited page hpage.1)
    preferred := fun page => (hpreferred page).trans (h.preferred page)
    taken := h.taken
    visited := fun page hpage => List.mem_append_left _ (h.visited page hpage)
    length_eq := h.length_eq }

/-- A page that is planned is cleared, and the pages prefetched with it are taken. -/
theorem Lmma.PagePlan.Agrees.plans {candidate : AddrRatioMig R} (h : plan.Agrees g t dst done pages)
    (hrow : t.table memPage = some row) :
    Agrees g t dst (done ++ [memPage]) (pages ++ [memPage])
      { perfTable := plan.perfTable.setRow memPage (row.clear g.settings)
        pagesToMigrate := plan.pagesToMigrate.insertMany
          (memPage :: g.prefetchCandidates plan.perfTable memPage (dst row))
        candidates := plan.candidates ++ [candidate] } where
  avLatency := h.avLatency
  nodeLatencies := h.nodeLatencies
  unvisited page hpage := by
    rw [List.mem_append, List.mem_singleton, not_or] at hpage
    rw [table_setRow, if_neg hpage.2]
    exact h.unvisited page hpage.1
  preferred page := by
    rw [table_setRow]
    split_ifs with heq
    · simp [MempagesTable.cleared, heq, hrow]
    · simpa [MempagesTable.cleared, heq] using h.preferred page
  taken page := by
    have hprefetched : PrefetchedWith g t dst pages memPage page ↔
        page ∈ g.prefetchCandidates plan.perfTable memPage (dst row) := by
      rw [prefetchCandidates_congr h.preferred]
      refine ⟨fun ⟨row', hrow', hpage⟩ => ?_, fun hpage => ⟨row, hrow, hpage⟩⟩
      obtain rfl := Option.some.inj (hrow.symm.trans hrow')
      exact hpage
    rw [OrderedSet.mem_insertMany, List.mem_cons, h.taken, covered_concat, hprefetched,
      List.mem_append, List.mem_singleton]
    tauto
  visited page hpage := by
    rw [List.mem_append] at hpage ⊢
    exact hpage.imp_left (h.visited page)
  length_eq := by rw [List.length_append, List.length_append, h.length_eq]; rfl

/-- **Walks.** A walk has a candidate for every page that the table calls for. -/
theorem callsFor_of_walk {step : PagePlan R → Addr → PagePlan R} {order : List Addr}
    (horder : order.Nodup)
    (hstep : ∀ plan memPage, plan.perfTable.avLatency = t.avLatency →
      plan.perfTable.nodeLatencies = t.nodeLatencies →
      PagePlan.Decides g due dst plan memPage (step plan memPage)) :
    ∃ pages, CallsFor g t due dst order pages ∧
      (run step (.start t) order).candidates.length = pages.length := by
  have hstart : (PagePlan.start t).Agrees g t dst [] [] :=
    ⟨rfl, rfl, fun _ _ => rfl, fun _ => by simp [PagePlan.start, MempagesTable.cleared],
      fun page => by simp [PagePlan.start], by simp, rfl⟩
  have hwalk : ∃ pages, Picks (RowDue t due) (PrefetchedWith g t dst) order pages ∧
      (order.foldl step (.start t)).Agrees g t dst order pages := by
    refine picks_of_walk (I := fun done pages (plan : PagePlan R) =>
      plan.Agrees g t dst done pages) hstart horder fun done pages plan memPage hnew h => ?_
    have hsame := h.unvisited memPage hnew
    have hnotpicked : memPage ∉ pages := fun hmem => hnew (h.visited memPage hmem)
    have hdecides := hstep plan memPage h.avLatency h.nodeLatencies
    generalize step plan memPage = plan' at hdecides ⊢
    cases hdecides with
    | passes hpass ht =>
      refine .inr ⟨?_, h.pass ht⟩
      rw [h.taken, or_iff_right hnotpicked, RowDue, hsame] at hpass
      exact hpass.symm
    | plans hfresh hrow hdue =>
      rw [h.taken, not_or] at hfresh
      rw [hsame] at hrow
      exact .inl ⟨⟨_, hrow, hdue⟩, hfresh.2, h.plans hrow⟩
  obtain ⟨pages, hpages, hagrees⟩ := hwalk
  exact ⟨pages, hpages, hagrees.length_eq⟩

/-- A walk has no more candidates than some number exactly if the table calls for no more pages. -/
theorem length_candidates_le_iff {step : PagePlan R → Addr → PagePlan R} {order : List Addr}
    (horder : order.Nodup)
    (hstep : ∀ plan memPage, plan.perfTable.avLatency = t.avLatency →
      plan.perfTable.nodeLatencies = t.nodeLatencies →
      PagePlan.Decides g due dst plan memPage (step plan memPage)) (nPages : ℕ) :
    (run step (.start t) order).candidates.length ≤ nPages ↔
      ∃ pages, CallsFor g t due dst order pages ∧ pages.length ≤ nPages := by
  obtain ⟨pages, hpages, hlength⟩ := callsFor_of_walk horder hstep
  constructor
  · exact fun hle => ⟨pages, hpages, hlength ▸ hle⟩
  · rintro ⟨pages', hpages', hle⟩
    obtain rfl := hpages.unique hpages'
    exact hlength ▸ hle

end Walk

/-! ### The limit -/

/-- **Limit.** -/
theorem selectsBest_and_limits_iff (g : MemoryGlobals R) (perfTable : MempagesTable R)
    (nPages : ℕ) (hn : nMigrations ≤ candidates.length) (horder : order.Nodup) :
    (SelectsBest candidates nMigrations (selectBestMigrations candidates nMigrations) ↔
        nMigrations = candidates.length) ∧
      ((Lmma.performMigrationAlgorithmNPages g perfTable order nPages).length ≤ nPages ↔
        ∃ pages, CallsFor g perfTable (Lmma.isDue g perfTable) (Lmma.destination g perfTable)
          order pages ∧ pages.length ≤ nPages) ∧
      ((Tmma.performMigrationAlgorithmNPages g perfTable order nPages).length ≤ nPages ↔
        ∃ pages, CallsFor g perfTable (Tmma.isDue g) (fun row => row.preferredNode g.topology)
          order pages ∧ pages.length ≤ nPages) := by
  refine ⟨selectsBest_iff hn, ?_, ?_⟩
  · rw [Lmma.performMigrationAlgorithmNPages, length_selectBestMigrations, Lmma.planPages]
    exact length_candidates_le_iff horder (fun _ _ hav hnodes => Lmma.decides hav hnodes) nPages
  · rw [Tmma.performMigrationAlgorithmNPages, length_selectBestMigrations, Tmma.planPages]
    exact length_candidates_le_iff horder (fun plan memPage _ _ => Tmma.decides plan memPage) nPages

/-- A cell for one page. -/
def cellOf (page : Addr) : MemMigrationCell ℚ :=
  ⟨[page], 1, 0, 1, fun _ => 0⟩

/-- One candidate may be migrated, and it is; the table calls for the only slow page, which is
within a limit of one page. -/
theorem selectsBest_and_limits_iff_one :
    SelectsBest [(4096, 1, cellOf 4096)] 1 (selectBestMigrations [(4096, 1, cellOf 4096)] 1) ∧
      ∃ pages, CallsFor Lmma.oneAhead Lmma.oneSlowPage (Lmma.isDue Lmma.oneAhead Lmma.oneSlowPage)
        (Lmma.destination Lmma.oneAhead Lmma.oneSlowPage) [8192, 65536, 131072] pages ∧
        pages.length ≤ 1 := by
  have hn : 1 ≤ [((4096 : Addr), (1 : ℚ), cellOf 4096)].length := le_rfl
  have h := selectsBest_and_limits_iff Lmma.oneAhead Lmma.oneSlowPage 1 hn
    (by decide : [(8192 : Addr), 65536, 131072].Nodup)
  exact ⟨h.1.mpr rfl, h.2.1.mp (by decide +kernel)⟩

/-- Of two candidates one may be migrated, but both are returned. -/
theorem not_selectsBest :
    ¬ ∀ (candidates : List (AddrRatioMig ℚ)) (nMigrations : ℕ), nMigrations ≤ candidates.length →
      SelectsBest candidates nMigrations (selectBestMigrations candidates nMigrations) := by
  intro h
  have hbest := h [(4096, 1, cellOf 4096), (8192, 0, cellOf 8192)] 1 (by decide)
  have hall := (selectsBest_iff (by decide)).mp hbest
  exact absurd hall (by decide)

end Thanos
