import Thanos.Strategies.Lmma

/-!
# TMMA

TMMA walks over the table of pages like LMMA. A page that has enough samples is planned, together
with the pages prefetched with it, if most of its accesses come to a node other than the one on
which it was last accessed; the share that makes it worth a migration depends on the number of
nodes. Both variants of the walk are the same loop.
-/

namespace Thanos

variable {R : Type} [RealT R]

namespace Tmma

open Lmma (PagePlan maxPagesToMigrate)

/-- `min_ratio_mig`: two shares of an even distribution over the nodes, two thirds at most. -/
def minRatioMig (T : Topology) : R :=
  let twoThirds : R := RealT.ofRat (2 / 3)
  let share : R := RealT.ofRat 2 / real (T.maxNode + 1)
  if share < twoThirds then share else twoThirds

section Plan

variable (g : MemoryGlobals R) (plan : PagePlan R) (memPage : Addr)

/-- The row, with its ratios, of a page that is not planned already and has enough samples. -/
def considered : Option (PageRow R) :=
  if memPage ∈ plan.pagesToMigrate then none
  else
    match plan.perfTable.table memPage with
    | none => none
    | some info => if info.enoughInfo then some (info.withRatios g.topology) else none

/-- The preferred node is another one than the last, and most accesses are on it. -/
def worthwhile (info : PageRow R) : Bool :=
  let prefNode := info.preferredNode g.topology
  prefNode != info.lastNode && decide (minRatioMig g.topology < info.ratios prefNode)

/-- A page is planned and its row cleared. -/
def add (info : PageRow R) : PagePlan R :=
  let prefNode := info.preferredNode g.topology
  let pages := memPage :: g.prefetchCandidates plan.perfTable memPage prefNode
  let migration : MemMigrationCell R :=
    { addr := pages, pid := info.lastPid, src := info.lastNode, dst := prefNode,
      ratios := info.ratios }
  { perfTable := plan.perfTable.setRow memPage (info.clear g.settings)
    pagesToMigrate := plan.pagesToMigrate.insertMany pages
    candidates := plan.candidates ++ [(memPage, info.ratios prefNode, migration)] }

/-- The body of the loops. -/
def planPage : PagePlan R :=
  match considered g plan memPage with
  | none => plan
  | some info =>
    if worthwhile g info then add g plan memPage info
    else { plan with perfTable := plan.perfTable.setRow memPage info }

end Plan

section Algorithm

variable (g : MemoryGlobals R) (perfTable : MempagesTable R) (order : List Addr)

/-- The loops of both variants. -/
def planPages : PagePlan R :=
  run (planPage g) (.start perfTable) order

/-- `perform_migration_algorithm_all_pages`. -/
def performMigrationAlgorithmAllPages : List (MemMigrationCell R) :=
  (planPages g perfTable order).candidates.map fun candidate => candidate.2.2

/-- `perform_migration_algorithm_n_pages`. -/
def performMigrationAlgorithmNPages (nPages : ℕ) : List (MemMigrationCell R) :=
  let candidates := (planPages g perfTable order).candidates
  selectBestMigrations candidates (min nPages candidates.length)

/-- `perform_migration_algorithm`. -/
def performMigrationAlgorithm : List (MemMigrationCell R) :=
  if g.topology.numOfNodes = 1 then []
  else if maxPagesToMigrate g order = 0 then []
  else if maxPagesToMigrate g order = order.length then
    performMigrationAlgorithmAllPages g perfTable order
  else performMigrationAlgorithmNPages g perfTable order (maxPagesToMigrate g order)

end Algorithm

end Tmma

end Thanos
