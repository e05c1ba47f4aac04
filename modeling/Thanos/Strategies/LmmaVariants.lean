import Thanos.Strategies.Lmma

/-!
# The two variants of LMMA

LMMA walks over the table in one of two loops, depending on whether all pages may be migrated or
only some. Only the loop for some of the pages skips a page that is preferred by the node on which
it was last accessed, so that only the other one plans to move such a page, and clears its row.

* **Walks** (`exists_candidates_planPages`): the candidates of a walk are for pages of the walk,
  one for each page at most.
* **Variants** (`sameOutcome_iff`): if more pages may be migrated than the table has, the variants
  agree exactly when the walk over all pages meets no such page.
-/

namespace Thanos

/-- What a cell asks for: the pages, the process and the nodes. -/
def MemMigrationCell.moves {R : Type} (cell : MemMigrationCell R) : List Addr × Pid × Node × Node :=
  (cell.addr, cell.pid, cell.src, cell.dst)

variable {R : Type} [RealT R]

namespace Lmma

variable (g : MemoryGlobals R) (perfTable : MempagesTable R) (order : List Addr)

/-- What `perform_migration_algorithm_all_pages` leaves of the table. -/
def tableAfterAllPages : MempagesTable R :=
  (planPages g perfTable order skipNone).perfTable

/-- What `perform_migration_algorithm_n_pages` leaves of the table. -/
def tableAfterNPages : MempagesTable R :=
  (planPages g perfTable order (skipLocal g)).perfTable

/-- The variants produce the same cells in the same order, and the same table. -/
structure SameOutcome (nPages : ℕ) : Prop where
  cells : (performMigrationAlgorithmNPages g perfTable order nPages).map MemMigrationCell.moves =
    (performMigrationAlgorithmAllPages g perfTable order).map MemMigrationCell.moves
  table : tableAfterNPages g perfTable order = tableAfterAllPages g perfTable order

/-- A page that is considered is not preferred by the node on which it was last accessed. -/
def ConsidersRemote (plan : PagePlan R) (memPage : Addr) : Prop :=
  ∀ info, considered g plan memPage = some info → info.lastNode ≠ info.preferredNode g.topology

instance (plan : PagePlan R) (memPage : Addr) : Decidable (ConsidersRemote g plan memPage) :=
  inferInstanceAs (Decidable (∀ info ∈ considered g plan memPage,
    info.lastNode ≠ info.preferredNode g.topology))

variable {g perfTable order} {skip : PageRow R → Bool} {leastSaturatedNode : Node}
  {plan : PagePlan R} {memPage : Addr} {pages : List Addr} {nPages : ℕ}

/-! ### Walks -/

/-- **Walks.** -/
theorem exists_candidates_planPages (g : MemoryGlobals R) (skip : PageRow R → Bool)
    (leastSaturatedNode : Node) (plan : PagePlan R) (pages : List Addr) :
    ∃ new, (run (planPage g skip leastSaturatedNode) plan pages).candidates =
        plan.candidates ++ new ∧ new.length ≤ pages.length ∧
      ∀ candidate ∈ new, ∃ page ∈ pages, candidate.2.2.addr.head? = some page := by
  induction pages generalizing plan with
  | nil => exact ⟨[], (List.append_nil _).symm, le_rfl, by simp⟩
  | cons memPage pages ih =>
    obtain ⟨new, hnew, hlength, hpages⟩ := ih (planPage g skip leastSaturatedNode plan memPage)
    have hmore : ∀ candidate ∈ new, ∃ page ∈ memPage :: pages,
        candidate.2.2.addr.head? = some page := by
      intro candidate hmem
      obtain ⟨page, hpage, hhead⟩ := hpages candidate hmem
      exact ⟨page, List.mem_cons_of_mem memPage hpage, hhead⟩
    rw [run_cons, hnew]
    obtain ⟨-, t, heq⟩ | ⟨info, -, -, heq⟩ := planPage_cases g skip leastSaturatedNode plan memPage
    · refine ⟨new, by rw [heq], ?_, hmore⟩
      rw [List.length_cons]
      omega
    · rw [heq, PagePlan.add, List.append_assoc]
      refine ⟨_, rfl, ?_, fun candidate hmem => ?_⟩
      · rw [List.singleton_append, List.length_cons, List.length_cons]
        omega
      · obtain rfl | hmem := List.mem_cons.mp hmem
        · exact ⟨memPage, List.mem_cons_self, rfl⟩
        · exact hmore candidate hmem

/-- A walk has no more candidates than pages. -/
theorem length_candidates_le (g : MemoryGlobals R) (perfTable : MempagesTable R)
    (order : List Addr) (skip : PageRow R → Bool) :
    (planPages g perfTable order skip).candidates.length ≤ order.length := by
  obtain ⟨new, hnew, hlength, -⟩ := exists_candidates_planPages g skip
    (perfTable.nodeMinAvLatency g.topology) (.start perfTable) order
  rw [planPages, hnew, PagePlan.start, List.nil_append]
  exact hlength

/-- All candidates are selected, in their order, if as many pages may be migrated. -/
theorem performMigrationAlgorithmNPages_eq (hn : order.length ≤ nPages) :
    performMigrationAlgorithmNPages g perfTable order nPages =
      (planPages g perfTable order (skipLocal g)).candidates.map fun candidate =>
        candidate.2.2 := by
  have hlength := length_candidates_le g perfTable order (skipLocal g)
  rw [performMigrationAlgorithmNPages, min_eq_left (hlength.trans hn), selectBestMigrations,
    if_neg (lt_irrefl _)]

/-! ### Variants -/

/-- The loops do the same with a page that is considered, unless the page is local. -/
theorem planPage_skipLocal (h : ConsidersRemote g plan memPage) :
    planPage g skipNone leastSaturatedNode plan memPage =
      planPage g (skipLocal g) leastSaturatedNode plan memPage := by
  unfold planPage
  rcases hinfo : considered g plan memPage with _ | info
  · rfl
  · simp [skipNone, skipLocal, h info hinfo]

/-- Loops that plan the same cells meet no local page. -/
theorem stepsOfRun_of_cells_eq (hpages : pages.Nodup)
    (h : (run (planPage g (skipLocal g) leastSaturatedNode) plan pages).candidates.map
        (fun candidate => candidate.2.2.moves) =
      (run (planPage g skipNone leastSaturatedNode) plan pages).candidates.map
        fun candidate => candidate.2.2.moves) :
    StepsOfRun (planPage g skipNone leastSaturatedNode) (ConsidersRemote g) plan pages := by
  induction pages generalizing plan with
  | nil => exact stepsOfRun_nil
  | cons memPage pages ih =>
    obtain ⟨hmem, hpages⟩ := List.nodup_cons.mp hpages
    have hremote : ConsidersRemote g plan memPage := by
      intro info hinfo hlocal
      have hskip : skipLocal g info = true := by simpa [skipLocal] using hlocal
      have hall : planPage g skipNone leastSaturatedNode plan memPage =
          plan.add g leastSaturatedNode memPage info := by
        simp [planPage, hinfo, skipNone]
      have hsome : (planPage g (skipLocal g) leastSaturatedNode plan memPage).candidates =
          plan.candidates := by
        simp [planPage, hinfo, hskip]
      -- only the loop over all pages has a candidate for this page
      obtain ⟨new, hnew, -, hheads⟩ := exists_candidates_planPages g (skipLocal g)
        leastSaturatedNode (planPage g (skipLocal g) leastSaturatedNode plan memPage) pages
      obtain ⟨new', hnew', -, -⟩ := exists_candidates_planPages g skipNone leastSaturatedNode
        (plan.add g leastSaturatedNode memPage info) pages
      rw [run_cons, run_cons, hall, hnew, hnew', hsome, PagePlan.add, List.append_assoc,
        List.map_append, List.map_append, List.append_cancel_left_eq, List.singleton_append,
        List.map_cons] at h
      obtain ⟨candidate, rest, hcons, hmoves, -⟩ := List.map_eq_cons_iff.mp h
      have haddr : candidate.2.2.addr =
          memPage :: pagesToPrefetch g leastSaturatedNode plan memPage info :=
        congrArg Prod.fst hmoves
      obtain ⟨page, hpage, hhead⟩ := hheads candidate (hcons ▸ List.mem_cons_self)
      rw [haddr, List.head?_cons] at hhead
      exact hmem (Option.some.inj hhead ▸ hpage)
    rw [run_cons, run_cons, ← planPage_skipLocal hremote] at h
    exact stepsOfRun_cons.mpr ⟨hremote, ih hpages h⟩

/-- **Variants.** -/
theorem sameOutcome_iff (horder : perfTable.IterationOrder order) (hn : order.length ≤ nPages) :
    SameOutcome g perfTable order nPages ↔
      StepsOfRun (planPage g skipNone (perfTable.nodeMinAvLatency g.topology)) (ConsidersRemote g)
        (.start perfTable) order := by
  constructor
  · intro h
    have hcells := h.cells
    rw [performMigrationAlgorithmNPages_eq hn, performMigrationAlgorithmAllPages, List.map_map,
      List.map_map] at hcells
    exact stepsOfRun_of_cells_eq horder.1 hcells
  · intro h
    have hsame : planPages g perfTable order (skipLocal g) =
        planPages g perfTable order skipNone :=
      (run_eq_of_stepsOfRun (fun _ _ hremote => planPage_skipLocal hremote) h).symm
    refine ⟨?_, by rw [tableAfterNPages, tableAfterAllPages, hsame]⟩
    rw [performMigrationAlgorithmNPages_eq hn, performMigrationAlgorithmAllPages, hsame]

/-- One slow page on node 1, accessed from node 0, and a few fast accesses to both nodes. -/
def oneSlowPage : MempagesTable ℚ :=
  let fast := List.replicate 6 (access 65536 100 1) ++ List.replicate 6 (access 131072 100 0)
  (MempagesTable.new oneAhead.settings).record oneAhead.topology
    ((fast ++ List.replicate 11 (access 8192 400 1)).map fun sample => (sample, 1))

/-- The page is remote, so both variants plan to move it. -/
theorem sameOutcome_iff_oneSlowPage :
    SameOutcome oneAhead oneSlowPage [8192, 65536, 131072] 3 := by
  have horder : oneSlowPage.IterationOrder [8192, 65536, 131072] :=
    MempagesTable.iterationOrder_record (by decide)
  refine (sameOutcome_iff horder le_rfl).mpr ?_
  simp only [stepsOfRun_cons, stepsOfRun_nil, and_true]
  decide +kernel

/-- Of the two slow pages one is on the node of its accesses; only the loop over all pages plans
to move it. -/
theorem not_sameOutcome :
    ¬ ∀ (g : MemoryGlobals ℚ) (perfTable : MempagesTable ℚ) (order : List Addr) (nPages : ℕ),
      perfTable.IterationOrder order → order.length ≤ nPages →
      SameOutcome g perfTable order nPages := by
  intro h
  have horder : twoSlowPages.IterationOrder [4096, 8192, 65536, 131072] :=
    MempagesTable.iterationOrder_record (by decide)
  have hcells := (h oneAhead twoSlowPages _ 4 horder le_rfl).cells
  exact absurd (congrArg List.length hcells) (by decide +kernel)

end Lmma

end Thanos
