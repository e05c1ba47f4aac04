import Thanos.Library.Run
import Thanos.Migration.MempagesTable
import Thanos.SystemInfo.MemoryInfo

/-!
# What memory strategies share

A strategy for memory pages walks over the table of pages, plans migrations of single pages,
each together with some pages that follow it, and hands the cells to
`gather_and_perform_migrations`, which asks for every address of a cell to be moved to the node
of the cell.

* **Prefetching** (`nodup_cons_prefetchCandidates`): with fake THPs disabled, a page and the
  pages prefetched with it are distinct, also where the addresses wrap around.
* **Selection** (`perm_selectBestMigrations`): all cells are kept, in whatever order.
-/

namespace Thanos

/-- `mem_migration_cell`. -/
structure MemMigrationCell (R : Type) where
  /-- Addresses of the pages to migrate. -/
  addr : List Addr
  pid : Pid
  /-- Previous node. -/
  src : Node
  /-- Destination node. -/
  dst : Node
  /-- Accesses ratios. -/
  ratios : Node → R

/-- The addresses of a cell, each with its destination. -/
def MemMigrationCell.pairs {R : Type} (cell : MemMigrationCell R) : List (Addr × Node) :=
  cell.addr.map fun addr => (addr, cell.dst)

/-- What some cells ask for. -/
def batch {R : Type} (migrations : List (MemMigrationCell R)) : List (Addr × Node) :=
  migrations.flatMap MemMigrationCell.pairs

/-- What a memory strategy reads besides the table of pages. -/
structure MemoryGlobals (R : Type) where
  topology : Topology
  settings : Settings R
  memoryInfo : MemoryInfo
  memoryPrefetchSize : ℕ
  portionMemoryMigrations : R

variable {R : Type} [RealT R]

namespace MemoryGlobals

variable (g : MemoryGlobals R) (perfTable : MempagesTable R) (initial : Addr) (dst : Node)

/-- The page that follows `initial` at a distance of `i` pages. -/
def candidate (i : ℕ) : Addr :=
  initial + UInt64.ofNat i * g.memoryInfo.pagesize

/-- Prefetching goes on after a candidate that is not past the end of the range and, if it has
a row, prefers the destination as well. -/
def prefetchable (candidate : Addr) : Bool :=
  decide (candidate < g.candidate initial (g.memoryPrefetchSize + 1)) &&
    (perfTable.table candidate).all fun info => info.preferredNode g.topology == dst

/-- The loop of `prefetch_candidates`, which stops at the first candidate that is not
prefetchable. -/
def prefetchSmallPages : List Addr :=
  ((List.range' 1 g.memoryPrefetchSize).map (g.candidate initial)).takeWhile
    (g.prefetchable perfTable initial dst)

/-- `prefetch_candidates`. -/
def prefetchCandidates : List Addr :=
  if g.memoryInfo.fakeThpEnabled then
    match g.memoryInfo.fakeThpFromAddress initial with
    | some thp => thp.toPages g.memoryInfo.pagesize
    | none => g.prefetchSmallPages perfTable initial dst
  else g.prefetchSmallPages perfTable initial dst

/-! ### Prefetching -/

variable {g perfTable initial dst} {i j : ℕ}

omit [RealT R] in
/-- Candidates repeat with the distance of any two equal ones. -/
theorem candidate_add_mul (h : g.candidate initial i = g.candidate initial (i + j)) (k m : ℕ) :
    g.candidate initial (m + j * k) = g.candidate initial m := by
  have hzero : UInt64.ofNat j * g.memoryInfo.pagesize = 0 := by
    simpa [candidate, UInt64.ofNat_add, UInt64.add_mul] using h
  rw [candidate, candidate, UInt64.ofNat_add, UInt64.ofNat_mul, UInt64.add_mul,
    UInt64.mul_comm (UInt64.ofNat j), UInt64.mul_assoc, hzero, UInt64.mul_zero, UInt64.add_zero]

/-- A candidate that is reached without an end of the range before it is a new one. -/
theorem candidate_injOn (hsize : j ≤ g.memoryPrefetchSize)
    (h : ∀ m, 1 ≤ m → m ≤ j → g.prefetchable perfTable initial dst (g.candidate initial m) = true)
    (hlt : i < j) : g.candidate initial i ≠ g.candidate initial j := by
  intro heq
  obtain ⟨d, rfl⟩ := Nat.exists_eq_add_of_lt hlt
  -- the end of the range is the same address as a candidate up to the repetition
  have hend : g.candidate initial (g.memoryPrefetchSize + 1) =
      g.candidate initial (g.memoryPrefetchSize % (d + 1) + 1) := by
    have hrepeat := candidate_add_mul (j := d + 1) (by rwa [← add_assoc])
      (g.memoryPrefetchSize / (d + 1)) (g.memoryPrefetchSize % (d + 1) + 1)
    rw [← hrepeat, add_right_comm, Nat.mod_add_div]
  have hmod : g.memoryPrefetchSize % (d + 1) < d + 1 := Nat.mod_lt _ d.succ_pos
  have hbefore := h (g.memoryPrefetchSize % (d + 1) + 1) (by omega) (by omega)
  rw [prefetchable, Bool.and_eq_true, decide_eq_true_eq, hend] at hbefore
  exact lt_irrefl _ hbefore.1

/-- The prefetched pages are the candidates up to some distance. -/
theorem exists_prefetchSmallPages_eq (g : MemoryGlobals R) (perfTable : MempagesTable R)
    (initial : Addr) (dst : Node) :
    ∃ k ≤ g.memoryPrefetchSize, g.prefetchSmallPages perfTable initial dst =
      (List.range' 1 k).map (g.candidate initial) := by
  have hprefix := List.takeWhile_prefix (g.prefetchable perfTable initial dst)
    (l := (List.range' 1 g.memoryPrefetchSize).map (g.candidate initial))
  have hlength := hprefix.length_le
  rw [List.length_map, List.length_range'] at hlength
  have htake := List.prefix_iff_eq_take.mp hprefix
  rw [← List.map_take, List.take_range'_of_length_ge hlength] at htake
  exact ⟨_, hlength, htake⟩

/-- **Prefetching.** -/
theorem nodup_cons_prefetchCandidates (perfTable : MempagesTable R) (initial : Addr) (dst : Node)
    (hthp : g.memoryInfo.fakeThpEnabled = false) :
    (initial :: g.prefetchCandidates perfTable initial dst).Nodup := by
  obtain ⟨k, hk, heq⟩ := exists_prefetchSmallPages_eq g perfTable initial dst
  have hinitial : g.candidate initial 0 = initial := by simp [candidate]
  have hpages : initial :: g.prefetchCandidates perfTable initial dst =
      (List.range' 0 (k + 1)).map (g.candidate initial) := by
    rw [prefetchCandidates, hthp, if_neg Bool.false_ne_true, heq, List.range'_succ, List.map_cons,
      hinitial, zero_add]
  have hreached : ∀ m, 1 ≤ m → m ≤ k →
      g.prefetchable perfTable initial dst (g.candidate initial m) = true := by
    intro m hm hmk
    have hmem : g.candidate initial m ∈ g.prefetchSmallPages perfTable initial dst := by
      rw [heq]
      exact List.mem_map_of_mem (List.mem_range'_1.mpr ⟨hm, by omega⟩)
    exact List.mem_takeWhile_imp hmem
  rw [hpages]
  refine List.Nodup.map_on (fun i hi j hj hij => ?_) List.nodup_range'
  rw [List.mem_range'_1] at hi hj
  obtain hlt | rfl | hlt := lt_trichotomy i j
  · exact absurd hij (candidate_injOn (by omega)
      (fun m hm hmj => hreached m hm (by omega)) hlt)
  · rfl
  · exact absurd hij.symm (candidate_injOn (by omega)
      (fun m hm hmi => hreached m hm (by omega)) hlt)

end MemoryGlobals

/-! ### Selection -/

/-- A page with its largest ratio and its cell, `addr_ratio_mig_t`. -/
abbrev AddrRatioMig (R : Type) :=
  Addr × R × MemMigrationCell R

/-- `select_best_migrations`: the cells are sorted by their ratios if there are more than
`n_migrations`. -/
def selectBestMigrations (candidates : List (AddrRatioMig R)) (nMigrations : ℕ) :
    List (MemMigrationCell R) :=
  let sorted :=
    if nMigrations < candidates.length then
      candidates.insertionSort fun a b => ¬ a.2.1 < b.2.1
    else candidates
  sorted.map fun candidate => candidate.2.2

/-- **Selection.** -/
theorem perm_selectBestMigrations (candidates : List (AddrRatioMig R)) (nMigrations : ℕ) :
    (selectBestMigrations candidates nMigrations).Perm
      (candidates.map fun candidate => candidate.2.2) := by
  refine List.Perm.map _ ?_
  split_ifs
  · exact List.perm_insertionSort _ _
  · exact .refl _

end Thanos
