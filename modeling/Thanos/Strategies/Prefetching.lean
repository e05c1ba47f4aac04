import Thanos.Strategies.MemoryStrategy

/-!
# Where prefetching ends

`prefetch_candidates` goes on to `region_end`, which is where the prefetch size ends and not the
memory region of the page.

* **Candidates** (`candidate_toNat`): up to the end of the region the addresses do not wrap
  around, and the first candidate that is not in the region is the end of it.
* **Regions** (`staysInRegion_iff`): the prefetched pages are those of the region exactly when the
  prefetch size ends before the region, or something else stops the scan there.
-/

namespace Thanos

variable {R : Type} [RealT R]

namespace MemoryGlobals

variable (g : MemoryGlobals R) (perfTable : MempagesTable R) (initial : Addr) (dst : Node)
  (region : MemRegion)

/-- The prefetched pages follow the initial page in its region, and are unknown to the table or
prefer the destination. -/
structure StaysInRegion : Prop where
  inRegion : ∀ page ∈ g.prefetchCandidates perfTable initial dst,
    region.beginAddr ≤ page ∧ page < region.endAddr
  consecutive : ∃ k, g.prefetchCandidates perfTable initial dst =
    (List.range' 1 k).map (g.candidate initial)
  unknownOrPreferred : ∀ page ∈ g.prefetchCandidates perfTable initial dst,
    ∀ info, perfTable.table page = some info → info.preferredNode g.topology = dst

/-- The scan stops at a candidate: it is past the end of the prefetch size, which may have wrapped
around, or it is known and prefers another node. -/
def StopsAt (i : ℕ) : Prop :=
  g.candidate initial (g.memoryPrefetchSize + 1) ≤ g.candidate initial i ∨
    ∃ info, perfTable.table (g.candidate initial i) = some info ∧
      info.preferredNode g.topology ≠ dst

variable {g perfTable initial dst region} {i k : ℕ}

theorem prefetchable_iff_not_stopsAt :
    g.prefetchable perfTable initial dst (g.candidate initial i) = true ↔
      ¬ g.StopsAt perfTable initial dst i := by
  rw [prefetchable, Bool.and_eq_true, decide_eq_true_eq, StopsAt, not_or, not_le]
  refine and_congr_right fun _ => ?_
  rcases perfTable.table (g.candidate initial i) with _ | info
  · simp
  · simp

/-! ### Candidates -/

omit [RealT R] in
/-- **Candidates.** -/
theorem candidate_toNat (hlt : initial.toNat + i * g.memoryInfo.pagesize.toNat < 2 ^ 64) :
    (g.candidate initial i).toNat = initial.toNat + i * g.memoryInfo.pagesize.toNat := by
  rw [candidate, UInt64.toNat_add, UInt64.toNat_mul, UInt64.toNat_ofNat']
  rw [Nat.mod_mul_mod, Nat.add_mod_mod, Nat.mod_eq_of_lt hlt]

omit [RealT R] in
/-- The region ends a whole number of pages after a page. -/
theorem initial_add_pagesToEnd (haligned : g.memoryInfo.PageAligned)
    (hregion : region ∈ g.memoryInfo.memoryRegions)
    (hinitial : g.memoryInfo.pagesize.toNat ∣ initial.toNat) (hlt : initial < region.endAddr) :
    initial.toNat + g.memoryInfo.pagesToEnd initial region * g.memoryInfo.pagesize.toNat =
      region.endAddr.toNat := by
  have hle : initial.toNat ≤ region.endAddr.toNat := (UInt64.lt_iff_toNat_lt.mp hlt).le
  rw [MemoryInfo.pagesToEnd,
    Nat.div_mul_cancel (Nat.dvd_sub (haligned.endAddr region hregion) hinitial)]
  omega

omit [RealT R] in
/-- The pages of the region are the candidates before its end. -/
theorem candidate_mem_iff (haligned : g.memoryInfo.PageAligned)
    (hregion : region ∈ g.memoryInfo.memoryRegions)
    (hinitial : g.memoryInfo.pagesize.toNat ∣ initial.toNat) (hbegin : region.beginAddr ≤ initial)
    (hlt : initial < region.endAddr) (hi : i ≤ g.memoryInfo.pagesToEnd initial region) :
    (region.beginAddr ≤ g.candidate initial i ∧ g.candidate initial i < region.endAddr) ↔
      i < g.memoryInfo.pagesToEnd initial region := by
  have hend := initial_add_pagesToEnd haligned hregion hinitial hlt
  have hfits := region.endAddr.toNat_lt
  have hpos := haligned.pagesize_pos
  have hmul := Nat.mul_le_mul_right g.memoryInfo.pagesize.toNat hi
  have hcandidate : (g.candidate initial i).toNat = _ := candidate_toNat (by omega)
  rw [UInt64.le_iff_toNat_le] at hbegin ⊢
  rw [UInt64.lt_iff_toNat_lt, hcandidate]
  constructor
  · rintro ⟨-, hbefore⟩
    rw [← hend] at hbefore
    exact lt_of_mul_lt_mul_right (Nat.lt_of_add_lt_add_left hbefore) hpos.le
  · intro hbefore
    have hmul' := Nat.mul_lt_mul_of_pos_right hbefore hpos
    omega

/-! ### Regions -/

/-- Candidates at which the scan does not stop are prefetched. -/
theorem candidate_mem_prefetchSmallPages (hk : k ≤ g.memoryPrefetchSize) (hpos : 1 ≤ k)
    (h : ∀ i, 1 ≤ i → i ≤ k → ¬ g.StopsAt perfTable initial dst i) :
    g.candidate initial k ∈ g.prefetchSmallPages perfTable initial dst := by
  obtain ⟨rest, hrest⟩ := Nat.exists_eq_add_of_le hk
  rw [prefetchSmallPages, hrest, ← List.range'_append_1, List.map_append,
    List.takeWhile_append_of_pos]
  · exact List.mem_append_left _ (List.mem_map_of_mem (List.mem_range'_1.mpr (by omega)))
  · intro page hpage
    obtain ⟨i, hi, rfl⟩ := List.mem_map.mp hpage
    rw [List.mem_range'_1] at hi
    exact prefetchable_iff_not_stopsAt.mpr (h i hi.1 (by omega))

/-- **Regions.** -/
theorem staysInRegion_iff (perfTable : MempagesTable R) (dst : Node)
    (hthp : g.memoryInfo.fakeThpEnabled = false) (haligned : g.memoryInfo.PageAligned)
    (hregion : region ∈ g.memoryInfo.memoryRegions)
    (hinitial : g.memoryInfo.pagesize.toNat ∣ initial.toNat) (hbegin : region.beginAddr ≤ initial)
    (hlt : initial < region.endAddr) :
    g.StaysInRegion perfTable initial dst region ↔
      g.memoryPrefetchSize < g.memoryInfo.pagesToEnd initial region ∨
        ∃ i, 1 ≤ i ∧ i ≤ g.memoryInfo.pagesToEnd initial region ∧
          g.StopsAt perfTable initial dst i := by
  have hcandidates : g.prefetchCandidates perfTable initial dst =
      g.prefetchSmallPages perfTable initial dst := by
    rw [prefetchCandidates, hthp, if_neg Bool.false_ne_true]
  have hmem : ∀ i, i ≤ g.memoryInfo.pagesToEnd initial region →
      ((region.beginAddr ≤ g.candidate initial i ∧ g.candidate initial i < region.endAddr) ↔
        i < g.memoryInfo.pagesToEnd initial region) :=
    fun i hi => candidate_mem_iff haligned hregion hinitial hbegin hlt hi
  constructor
  · intro h
    by_contra hnot
    push Not at hnot
    obtain ⟨hsize, hstops⟩ := hnot
    have hpos : 1 ≤ g.memoryInfo.pagesToEnd initial region := by
      have hzero := (hmem 0 (Nat.zero_le _)).mp (by simpa [candidate] using ⟨hbegin, hlt⟩)
      exact hzero
    -- the end of the region is prefetched
    have hprefetched := candidate_mem_prefetchSmallPages hsize hpos fun i hi hile =>
      hstops i hi hile
    rw [← hcandidates] at hprefetched
    exact lt_irrefl _ ((hmem _ le_rfl).mp (h.inRegion _ hprefetched))
  · intro h
    obtain ⟨k, hk, heq⟩ := exists_prefetchSmallPages_eq g perfTable initial dst
    have hreached : ∀ i, 1 ≤ i → i ≤ k → ¬ g.StopsAt perfTable initial dst i := by
      intro i hi hik
      rw [← prefetchable_iff_not_stopsAt]
      have hpage : g.candidate initial i ∈ g.prefetchSmallPages perfTable initial dst := by
        rw [heq]
        exact List.mem_map_of_mem (List.mem_range'_1.mpr ⟨hi, by omega⟩)
      exact List.mem_takeWhile_imp hpage
    have hbefore : k < g.memoryInfo.pagesToEnd initial region := by
      obtain hsize | ⟨i, hi, hle, hstop⟩ := h
      · exact hk.trans_lt hsize
      · by_contra hge
        exact hreached i hi (by omega) hstop
    refine ⟨fun page hpage => ?_, ⟨k, hcandidates.trans heq⟩, fun page hpage info hinfo => ?_⟩
    · rw [hcandidates, heq] at hpage
      obtain ⟨i, hi, rfl⟩ := List.mem_map.mp hpage
      rw [List.mem_range'_1] at hi
      exact (hmem i (by omega)).mpr (by omega)
    · rw [hcandidates, heq] at hpage
      obtain ⟨i, hi, rfl⟩ := List.mem_map.mp hpage
      rw [List.mem_range'_1] at hi
      by_contra hne
      exact hreached i hi.1 (by omega) (.inr ⟨info, hinfo, hne⟩)

/-- Pages of 4 KiB, no fake THPs, one page to prefetch, and one region. -/
def oneRegion (beginAddr endAddr : Addr) (h : beginAddr < endAddr) : MemoryGlobals ℚ where
  topology := .regular 2 1 Nat.two_pos Nat.one_pos
  settings := .default 100 64
  memoryInfo :=
    { pagesize := 4096
      memoryRegions := ⟨[⟨beginAddr, beginAddr, endAddr, rfl⟩], by simpa using h,
        List.pairwise_singleton _ _⟩
      fakeThpSize := 0
      fakeThpRegions := ∅ }
  memoryPrefetchSize := 1
  portionMemoryMigrations := 1

/-- The second of two pages is prefetched. -/
theorem staysInRegion_iff_twoPages :
    (oneRegion 4096 12288 (by decide)).StaysInRegion
      (.new (oneRegion 4096 12288 (by decide)).settings) 4096 0
      ⟨4096, 4096, 12288, rfl⟩ := by
  refine (staysInRegion_iff _ 0 (by decide) ⟨by decide, ?_, ?_⟩ (List.mem_singleton.mpr rfl)
    (by decide) (by decide) (by decide)).mpr (.inl (by decide))
  · intro region hregion
    obtain rfl := List.mem_singleton.mp hregion
    decide
  · intro region hregion
    obtain rfl := List.mem_singleton.mp hregion
    decide

/-- After the only page of a region the end of the region is prefetched. -/
theorem not_staysInRegion :
    ¬ ∀ (g : MemoryGlobals ℚ) (perfTable : MempagesTable ℚ) (initial : Addr) (dst : Node)
      (region : MemRegion), g.memoryInfo.fakeThpEnabled = false → g.memoryInfo.PageAligned →
      region ∈ g.memoryInfo.memoryRegions → g.memoryInfo.pagesize.toNat ∣ initial.toNat →
      region.beginAddr ≤ initial → initial < region.endAddr →
      g.StaysInRegion perfTable initial dst region := by
  intro h
  have haligned : (oneRegion 4096 8192 (by decide)).memoryInfo.PageAligned := by
    refine ⟨by decide, fun region hregion => ?_, fun region hregion => ?_⟩ <;>
    · obtain rfl := List.mem_singleton.mp hregion
      decide
  have hstays := h (oneRegion 4096 8192 (by decide))
    (.new (oneRegion 4096 8192 (by decide)).settings) 4096 0 ⟨4096, 4096, 8192, rfl⟩ (by decide)
    haligned (List.mem_singleton.mpr rfl) (by decide) (by decide) (by decide)
  exact absurd (hstays.inRegion 8192 (by decide)).2 (by decide)

end MemoryGlobals

end Thanos
