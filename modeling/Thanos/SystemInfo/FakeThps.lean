import Mathlib.Data.List.Nodup
import Thanos.Library.Blocks
import Thanos.Library.DoWhile
import Thanos.Library.Table
import Thanos.SystemInfo.MemoryInfo

/-!
# Fake huge pages

`update_fake_thps` cuts every memory region into fake THPs, from its start on and the last one
possibly shorter, and enters each of them into an ordered map under its start. The loops count in
64-bit addresses.

* **Regions** (`addFakeThps_eq`): the loop over a region ends, and enters the blocks of the region.
* **Pages** (`Thp.pagesLoop_eq`): the loop of `to_pages` ends, with the pages of the THP.
* **Tiles** (`updateFakeThps_tiles`): every page of every region is in exactly one THP.
-/

namespace Thanos

/-- The body of the loop of `to_pages`: a page is listed, and the next one is at the next
multiple of the page size. -/
def Thp.listPage (pagesize : Addr) (s : Addr × List Addr) : Addr × List Addr :=
  (s.1 + pagesize, s.2 ++ [s.1])

/-- The loop of `to_pages`. -/
def Thp.pagesLoop (pagesize : Addr) (thp : Thp) (fuel : ℕ) : Option (List Addr) :=
  (whileDo (fun s => decide (s.1 < thp.endAddr)) (listPage pagesize) fuel (thp.start, [])).map
    Prod.snd

namespace MemoryInfo

variable (mem : MemoryInfo) (region : MemRegion)

/-- The size of a fake THP in bytes. -/
def thpBytes : Addr :=
  mem.pagesize * UInt64.ofNat mem.fakeThpSize

/-- The body of the loop over a region: the next THP is added, from the current start on. -/
def addFakeThp (s : Addr × (Addr → Option Thp)) : Addr × (Addr → Option Thp) :=
  let stop := min region.endAddr (s.1 + mem.thpBytes)
  (stop, insertNew s.2 (s.1, ⟨s.1, stop⟩))

/-- The loop over a region. -/
def addFakeThps (fuel : ℕ) (thps : Addr → Option Thp) (region : MemRegion) :
    Option (Addr → Option Thp) :=
  (whileDo (fun s => decide (s.1 < region.endAddr)) (mem.addFakeThp region) fuel
    (region.address, thps)).map Prod.snd

/-- `update_fake_thps`, with fuel for each of its loops: the new contents of `fake_thp_regions`. -/
def updateFakeThps (fuel : ℕ) : Option (Addr → Option Thp) :=
  if mem.fakeThpEnabled then
    mem.memoryRegions.toList.foldlM (mem.addFakeThps fuel) fun _ => none
  else some mem.fakeThpRegions.find?

/-- A page of a region. -/
structure IsPageOf (page : Addr) : Prop where
  aligned : mem.pagesize.toNat ∣ page.toNat
  beginAddr_le : region.beginAddr ≤ page
  lt_endAddr : page < region.endAddr

/-- The fake THPs of a map tile the memory regions. -/
structure Tiles (thps : Addr → Option Thp) : Prop where
  /-- The entries are disjoint intervals, each under its start. -/
  ordered : ∃ m : IntervalMap Thp.start Thp.endAddr, thps = m.find?
  /-- Every fake THP is inside one region. -/
  inside : ∀ key thp, thps key = some thp → ∃ region ∈ mem.memoryRegions,
    region.beginAddr ≤ thp.start ∧ thp.endAddr ≤ region.endAddr
  /-- It starts at its key. -/
  start_eq : ∀ key thp, thps key = some thp → thp.start = key
  /-- It has at least one page, and no more than `fake_thp_size`. -/
  nPages : ∀ key thp, thps key = some thp →
    1 ≤ (thp.nPages mem.pagesize).toNat ∧ (thp.nPages mem.pagesize).toNat ≤ mem.fakeThpSize
  /-- Only the last one of a region may be shorter. -/
  full : ∀ key thp, thps key = some thp → ∀ region ∈ mem.memoryRegions,
    region.beginAddr ≤ thp.start → thp.endAddr < region.endAddr →
    (thp.nPages mem.pagesize).toNat = mem.fakeThpSize
  /-- The loop of `to_pages` ends, with as many pages as `n_pages` says. -/
  toPages : ∀ key thp, thps key = some thp →
    (∃ n, ∀ fuel ≥ n, thp.pagesLoop mem.pagesize fuel = some (thp.toPages mem.pagesize)) ∧
      (thp.toPages mem.pagesize).length = (thp.nPages mem.pagesize).toNat
  /-- Every page of every region is in exactly one THP, in which it is listed once. -/
  covers : ∀ region ∈ mem.memoryRegions, ∀ page, mem.IsPageOf region page →
    ∃! key, ∃ thp, thps key = some thp ∧ page ∈ thp.toPages mem.pagesize
  nodup : ∀ key thp, thps key = some thp → (thp.toPages mem.pagesize).Nodup
  /-- A THP has no other pages. -/
  pages : ∀ key thp, thps key = some thp → ∀ page ∈ thp.toPages mem.pagesize,
    ∃ region ∈ mem.memoryRegions, mem.IsPageOf region page

end MemoryInfo

/-! ### Pages -/

namespace Thp

variable {pagesize : Addr} {thp : Thp} {page : Addr}

/-- A THP consists of whole pages, and the address after its last page does not wrap around. -/
structure OfPages (pagesize : Addr) (thp : Thp) : Prop where
  pagesize_pos : 0 < pagesize.toNat
  start : pagesize.toNat ∣ thp.start.toNat
  endAddr : pagesize.toNat ∣ thp.endAddr.toNat
  le : thp.start.toNat ≤ thp.endAddr.toNat
  fits : thp.endAddr.toNat + pagesize.toNat < 2 ^ 64

theorem toPages_eq : thp.toPages pagesize =
    (List.range (blocks thp.start.toNat thp.endAddr.toNat pagesize.toNat)).map fun i =>
      thp.start + UInt64.ofNat i * pagesize :=
  rfl

/-- The address of a page. -/
theorem toNat_page {i : ℕ} (h : thp.OfPages pagesize)
    (hi : i ≤ blocks thp.start.toNat thp.endAddr.toNat pagesize.toNat) :
    (thp.start + UInt64.ofNat i * pagesize).toNat = thp.start.toNat + i * pagesize.toNat := by
  have hfits := h.fits
  have hle := h.le
  have hbound : thp.start.toNat + i * pagesize.toNat < 2 ^ 64 := by
    rcases i with _ | i
    · omega
    · have hbefore := (lt_blocks_iff h.pagesize_pos).mp hi
      rw [Nat.succ_mul]
      omega
  rw [UInt64.toNat_add, UInt64.toNat_mul, UInt64.toNat_ofNat', Nat.mod_mul_mod, Nat.add_mod_mod,
    Nat.mod_eq_of_lt hbound]

/-- The pages are the multiples of the page size in the THP. -/
theorem mem_toPages_iff (h : thp.OfPages pagesize) :
    page ∈ thp.toPages pagesize ↔
      pagesize.toNat ∣ page.toNat ∧ thp.start ≤ page ∧ page < thp.endAddr := by
  have hpos := h.pagesize_pos
  rw [UInt64.le_iff_toNat_le, UInt64.lt_iff_toNat_lt, toPages_eq, List.mem_map]
  constructor
  · rintro ⟨i, hi, rfl⟩
    rw [List.mem_range] at hi
    rw [toNat_page h hi.le]
    exact ⟨(Nat.dvd_add_right h.start).mpr (Nat.dvd_mul_left ..), Nat.le_add_right ..,
      (lt_blocks_iff hpos).mp hi⟩
  · rintro ⟨hdvd, hstart, hend⟩
    obtain ⟨i, hi⟩ := Nat.dvd_sub hdvd h.start
    have hpage : page.toNat = thp.start.toNat + i * pagesize.toNat := by
      rw [Nat.mul_comm, ← hi]
      omega
    have hlt := (lt_blocks_iff hpos).mpr (hpage ▸ hend)
    exact ⟨i, List.mem_range.mpr hlt, UInt64.toNat.inj ((toNat_page h hlt.le).trans hpage.symm)⟩

/-- No page is listed twice. -/
theorem nodup_toPages (h : thp.OfPages pagesize) : (thp.toPages pagesize).Nodup := by
  rw [toPages_eq]
  refine List.Nodup.map_on (fun i hi j hj heq => ?_) List.nodup_range
  rw [List.mem_range] at hi hj
  have hnat := congrArg UInt64.toNat heq
  rw [toNat_page h hi.le, toNat_page h hj.le] at hnat
  exact Nat.eq_of_mul_eq_mul_right h.pagesize_pos (Nat.add_left_cancel hnat)

theorem toNat_nPages (h : thp.OfPages pagesize) :
    (thp.nPages pagesize).toNat =
      (thp.endAddr.toNat - thp.start.toNat) / pagesize.toNat := by
  rw [nPages, UInt64.toNat_div, UInt64.toNat_sub_of_le _ _ (UInt64.le_iff_toNat_le.mpr h.le)]

/-- There are as many pages as `n_pages` says. -/
theorem length_toPages (h : thp.OfPages pagesize) :
    (thp.toPages pagesize).length = (thp.nPages pagesize).toNat := by
  obtain ⟨n, hn⟩ := Nat.dvd_sub h.endAddr h.start
  have hpos := h.pagesize_pos
  rw [toNat_nPages h, toPages_eq, List.length_map, List.length_range, blocks, hn,
    Nat.mul_div_cancel_left n hpos, Nat.add_sub_assoc hpos, Nat.mul_add_div hpos,
    Nat.div_eq_of_lt (Nat.sub_lt hpos Nat.one_pos), Nat.add_zero]

/-- The loop after some iterations. -/
theorem iterate_listPage (i : ℕ) :
    (listPage pagesize)^[i] (thp.start, []) = (thp.start + UInt64.ofNat i * pagesize,
      (List.range i).map fun j => thp.start + UInt64.ofNat j * pagesize) := by
  induction i with
  | zero => simp
  | succ i ih =>
    rw [Function.iterate_succ_apply', ih, listPage, List.range_succ, List.map_append]
    simp [UInt64.ofNat_add, UInt64.add_mul, UInt64.add_assoc]

/-- **Pages.** -/
theorem pagesLoop_eq (h : thp.OfPages pagesize) {fuel : ℕ} (hfuel : thp.endAddr.toNat ≤ fuel) :
    thp.pagesLoop pagesize fuel = some (thp.toPages pagesize) := by
  have hpos := h.pagesize_pos
  have htest : ∀ i ≤ blocks thp.start.toNat thp.endAddr.toNat pagesize.toNat,
      decide (((listPage pagesize)^[i] (thp.start, [])).1 < thp.endAddr) =
        decide (i < blocks thp.start.toNat thp.endAddr.toNat pagesize.toNat) := by
    intro i hi
    rw [decide_eq_decide, iterate_listPage, UInt64.lt_iff_toNat_lt, toNat_page h hi,
      lt_blocks_iff hpos]
  rw [pagesLoop, whileDo_eq_iterate (fun i hi => (htest i hi.le).trans (decide_eq_true hi))
    ((htest _ le_rfl).trans (decide_eq_false (lt_irrefl _))) ((blocks_le hpos).trans hfuel),
    iterate_listPage, toPages_eq]
  rfl

end Thp

/-! ### Regions -/

namespace MemoryInfo

variable {mem : MemoryInfo} {region : MemRegion} {fuel i : ℕ}

/-- No region ends so late that the loops could wrap around. -/
def ThpsFit (mem : MemoryInfo) : Prop :=
  ∀ region ∈ mem.memoryRegions,
    region.endAddr.toNat + mem.pagesize.toNat * mem.fakeThpSize ≤ 2 ^ 64 - 1

/-- Where the fake THPs of a region are cut. -/
def blockStartOf (mem : MemoryInfo) (region : MemRegion) (i : ℕ) : ℕ :=
  blockStart region.beginAddr.toNat region.endAddr.toNat (mem.pagesize.toNat * mem.fakeThpSize) i

/-- The number of fake THPs of a region. -/
def blocksOf (mem : MemoryInfo) (region : MemRegion) : ℕ :=
  blocks region.beginAddr.toNat region.endAddr.toNat (mem.pagesize.toNat * mem.fakeThpSize)

/-- A fake THP of a region. -/
def block (mem : MemoryInfo) (region : MemRegion) (i : ℕ) : Thp :=
  ⟨UInt64.ofNat (mem.blockStartOf region i), UInt64.ofNat (mem.blockStartOf region (i + 1))⟩

/-- The fake THPs of a region. -/
def thpsOf (mem : MemoryInfo) (region : MemRegion) : List Thp :=
  (List.range (mem.blocksOf region)).map (mem.block region)

theorem toNat_blockStartOf (mem : MemoryInfo) (region : MemRegion) (i : ℕ) :
    (UInt64.ofNat (mem.blockStartOf region i)).toNat = mem.blockStartOf region i := by
  rw [UInt64.toNat_ofNat']
  exact Nat.mod_eq_of_lt (blockStart_le.trans_lt region.endAddr.toNat_lt)

@[simp]
theorem toNat_start_block : (mem.block region i).start.toNat = mem.blockStartOf region i :=
  toNat_blockStartOf ..

@[simp]
theorem toNat_endAddr_block :
    (mem.block region i).endAddr.toNat = mem.blockStartOf region (i + 1) :=
  toNat_blockStartOf ..

theorem toNat_min (a b : Addr) : (min a b).toNat = min a.toNat b.toNat := by
  rw [min_def, Nat.min_def]
  simp only [UInt64.le_iff_toNat_le]
  split_ifs <;> rfl

theorem toNat_thpBytes (hfits : mem.ThpsFit) (hregion : region ∈ mem.memoryRegions) :
    mem.thpBytes.toNat = mem.pagesize.toNat * mem.fakeThpSize := by
  have hfit := hfits region hregion
  rw [thpBytes, UInt64.toNat_mul, UInt64.toNat_ofNat', Nat.mul_mod_mod]
  exact Nat.mod_eq_of_lt (by omega)

/-- The body of the loop adds the next block. -/
theorem addFakeThp_blockStartOf (hfits : mem.ThpsFit) (hregion : region ∈ mem.memoryRegions)
    (thps : Addr → Option Thp) :
    mem.addFakeThp region (UInt64.ofNat (mem.blockStartOf region i), thps) =
      (UInt64.ofNat (mem.blockStartOf region (i + 1)),
        insertNew thps ((mem.block region i).start, mem.block region i)) := by
  have hfit := hfits region hregion
  have hle : mem.blockStartOf region i ≤ region.endAddr.toNat := blockStart_le
  have hstop : min region.endAddr (UInt64.ofNat (mem.blockStartOf region i) + mem.thpBytes) =
      UInt64.ofNat (mem.blockStartOf region (i + 1)) := by
    refine UInt64.toNat.inj ?_
    rw [toNat_min, UInt64.toNat_add, toNat_blockStartOf, toNat_blockStartOf,
      toNat_thpBytes hfits hregion, Nat.mod_eq_of_lt (by omega)]
    exact blockStart_succ.symm
  rw [addFakeThp, hstop]
  rfl

/-- The loop over a region after some iterations. -/
theorem iterate_addFakeThp (hfits : mem.ThpsFit) (hregion : region ∈ mem.memoryRegions)
    (thps : Addr → Option Thp) (i : ℕ) :
    (mem.addFakeThp region)^[i] (region.address, thps) =
      (UInt64.ofNat (mem.blockStartOf region i), run insertNew thps
        (((List.range i).map (mem.block region)).map fun thp => (thp.start, thp))) := by
  induction i with
  | zero =>
    have hle := (mem.memoryRegions.nonempty region hregion).le
    have hzero : mem.blockStartOf region 0 = region.address.toNat := by
      rw [← region.begin_eq]
      exact blockStart_zero (UInt64.le_iff_toNat_le.mp hle)
    simp [hzero]
  | succ i ih =>
    rw [Function.iterate_succ_apply', ih, addFakeThp_blockStartOf hfits hregion, List.range_succ,
      List.map_append, List.map_append, run_append]
    rfl

variable (haligned : mem.PageAligned) (hsize : 1 ≤ mem.fakeThpSize) (hfits : mem.ThpsFit)

include haligned hsize in
theorem thpSpan_pos : 0 < mem.pagesize.toNat * mem.fakeThpSize :=
  Nat.mul_pos haligned.pagesize_pos hsize

include haligned hsize hfits in
/-- **Regions.** -/
theorem addFakeThps_eq (hfuel : 2 ^ 64 ≤ fuel) (hregion : region ∈ mem.memoryRegions)
    (thps : Addr → Option Thp) :
    mem.addFakeThps fuel thps region =
      some (run insertNew thps ((mem.thpsOf region).map fun thp => (thp.start, thp))) := by
  have hpos := thpSpan_pos haligned hsize
  have htest : ∀ i, decide (((mem.addFakeThp region)^[i] (region.address, thps)).1 <
      region.endAddr) = decide (i < mem.blocksOf region) := by
    intro i
    rw [decide_eq_decide, iterate_addFakeThp hfits hregion, UInt64.lt_iff_toNat_lt,
      toNat_blockStartOf]
    exact blockStart_lt_iff hpos
  have hle : mem.blocksOf region ≤ fuel :=
    ((blocks_le hpos).trans region.endAddr.toNat_lt.le).trans hfuel
  rw [addFakeThps, whileDo_eq_iterate (fun i hi => (htest i).trans (decide_eq_true hi))
    ((htest _).trans (decide_eq_false (lt_irrefl _))) hle, iterate_addFakeThp hfits hregion]
  rfl

/-! ### Tiles -/

/-- The fake THPs of all regions. -/
def fakeThps (mem : MemoryInfo) (haligned : mem.PageAligned) (hsize : 1 ≤ mem.fakeThpSize) :
    IntervalMap Thp.start Thp.endAddr where
  toList := mem.memoryRegions.toList.flatMap mem.thpsOf
  nonempty := by
    intro thp hthp
    obtain ⟨region, -, hthp⟩ := List.mem_flatMap.mp hthp
    obtain ⟨i, hi, rfl⟩ := List.mem_map.mp hthp
    rw [UInt64.lt_iff_toNat_lt, toNat_start_block, toNat_endAddr_block]
    exact blockStart_lt_succ (thpSpan_pos haligned hsize) (List.mem_range.mp hi)
  disjoint := by
    rw [List.pairwise_flatMap]
    constructor
    · intro region _
      rw [thpsOf, List.pairwise_map]
      refine List.pairwise_lt_range.imp fun {i j} hlt => ?_
      rw [UInt64.le_iff_toNat_le, toNat_start_block, toNat_endAddr_block]
      exact blockStart_mono hlt
    · refine mem.memoryRegions.disjoint.imp_of_mem fun {region region'} _ hregion' hle => ?_
      intro thp hthp thp' hthp'
      obtain ⟨i, -, rfl⟩ := List.mem_map.mp hthp
      obtain ⟨j, -, rfl⟩ := List.mem_map.mp hthp'
      have hnonempty := (mem.memoryRegions.nonempty region' hregion').le
      rw [UInt64.le_iff_toNat_le] at hle hnonempty ⊢
      rw [toNat_start_block, toNat_endAddr_block]
      exact blockStart_le.trans (hle.trans (le_blockStart hnonempty))

/-- The fake THPs are the blocks of the regions. -/
theorem mem_fakeThps {thp : Thp} :
    thp ∈ mem.fakeThps haligned hsize ↔
      ∃ region ∈ mem.memoryRegions, ∃ i < mem.blocksOf region, thp = mem.block region i := by
  constructor
  · intro h
    obtain ⟨region, hregion, hthp⟩ := List.mem_flatMap.mp h
    obtain ⟨i, hi, rfl⟩ := List.mem_map.mp hthp
    exact ⟨region, hregion, i, List.mem_range.mp hi, rfl⟩
  · rintro ⟨region, hregion, i, hi, rfl⟩
    exact List.mem_flatMap.mpr
      ⟨region, hregion, List.mem_map_of_mem (List.mem_range.mpr hi)⟩

include haligned hsize hfits in
/-- The loops over some of the regions. -/
theorem foldlM_addFakeThps (hfuel : 2 ^ 64 ≤ fuel) {regions : List MemRegion}
    (hregions : ∀ region ∈ regions, region ∈ mem.memoryRegions) (thps : Addr → Option Thp) :
    regions.foldlM (mem.addFakeThps fuel) thps =
      some (run insertNew thps ((regions.flatMap mem.thpsOf).map fun thp => (thp.start, thp))) := by
  induction regions generalizing thps with
  | nil => rfl
  | cons region regions ih =>
    obtain ⟨hregion, hrest⟩ := List.forall_mem_cons.mp hregions
    rw [List.foldlM_cons, addFakeThps_eq haligned hsize hfits hfuel hregion, List.flatMap_cons,
      List.map_append, run_append]
    exact ih hrest _

include hfits in
/-- `update_fake_thps` leaves the blocks of the regions. -/
theorem updateFakeThps_eq (hfuel : 2 ^ 64 ≤ fuel) :
    mem.updateFakeThps fuel = some (mem.fakeThps haligned hsize).find? := by
  have henabled : mem.fakeThpEnabled = true := decide_eq_true (by omega)
  rw [updateFakeThps, henabled, if_pos rfl,
    foldlM_addFakeThps haligned hsize hfits hfuel fun _ h => h]
  refine congrArg some (funext fun key => ?_)
  rw [run_insertNew_find?, Option.none_or, List.find?_map, Option.map_map]
  exact Option.map_id'

include haligned hsize hfits in
/-- A block consists of whole pages. -/
theorem ofPages_block (hregion : region ∈ mem.memoryRegions) :
    (mem.block region i).OfPages mem.pagesize := by
  have hbegin := haligned.beginAddr region hregion
  have hend := haligned.endAddr region hregion
  have hspan : mem.pagesize.toNat ∣ mem.pagesize.toNat * mem.fakeThpSize := Nat.dvd_mul_right ..
  refine ⟨haligned.pagesize_pos, ?_, ?_, ?_, ?_⟩
  · rw [toNat_start_block]
    exact dvd_blockStart hbegin hend hspan
  · rw [toNat_endAddr_block]
    exact dvd_blockStart hbegin hend hspan
  · rw [toNat_start_block, toNat_endAddr_block]
    exact blockStart_mono i.le_succ
  · have hfit := hfits region hregion
    have hle : mem.blockStartOf region (i + 1) ≤ region.endAddr.toNat := blockStart_le
    have hmul := Nat.le_mul_of_pos_right mem.pagesize.toNat hsize
    rw [toNat_endAddr_block]
    omega

/-- A block is inside its region. -/
theorem inside_block (hregion : region ∈ mem.memoryRegions) :
    region.beginAddr ≤ (mem.block region i).start ∧
      (mem.block region i).endAddr ≤ region.endAddr := by
  have hnonempty := (mem.memoryRegions.nonempty region hregion).le
  rw [UInt64.le_iff_toNat_le] at hnonempty ⊢
  rw [UInt64.le_iff_toNat_le, toNat_start_block, toNat_endAddr_block]
  exact ⟨le_blockStart hnonempty, blockStart_le⟩

include haligned hsize hfits in
/-- A block has between one page and the size of a fake THP. -/
theorem nPages_block (hregion : region ∈ mem.memoryRegions) (hi : i < mem.blocksOf region) :
    1 ≤ ((mem.block region i).nPages mem.pagesize).toNat ∧
      ((mem.block region i).nPages mem.pagesize).toNat ≤ mem.fakeThpSize := by
  have hpages : (mem.block region i).OfPages mem.pagesize :=
    ofPages_block haligned hsize hfits hregion
  have hlt := blockStart_lt_succ (thpSpan_pos haligned hsize) hi
  have hdvd := Nat.dvd_sub hpages.endAddr hpages.start
  rw [toNat_start_block, toNat_endAddr_block] at hdvd
  rw [Thp.toNat_nPages hpages, toNat_start_block, toNat_endAddr_block]
  constructor
  · exact Nat.div_pos (Nat.le_of_dvd (Nat.sub_pos_of_lt hlt) hdvd) haligned.pagesize_pos
  · exact Nat.div_le_of_le_mul blockStart_succ_sub

include haligned hsize hfits in
/-- A block that ends before its region has the full size. -/
theorem nPages_block_of_lt (hregion : region ∈ mem.memoryRegions)
    (hlt : (mem.block region i).endAddr < region.endAddr) :
    ((mem.block region i).nPages mem.pagesize).toNat = mem.fakeThpSize := by
  rw [UInt64.lt_iff_toNat_lt, toNat_endAddr_block] at hlt
  rw [Thp.toNat_nPages (ofPages_block haligned hsize hfits hregion), toNat_start_block,
    toNat_endAddr_block, blockStartOf, blockStartOf, blockStart_succ_sub_of_lt hlt,
    Nat.mul_div_cancel_left _ haligned.pagesize_pos]

include hfits in
/-- Every page of a region is in one of its blocks. -/
theorem exists_block_of_isPageOf (hregion : region ∈ mem.memoryRegions) {page : Addr}
    (hpage : mem.IsPageOf region page) :
    ∃ thp ∈ mem.fakeThps haligned hsize, page ∈ thp.toPages mem.pagesize := by
  obtain ⟨i, hi, hstart, hend⟩ := exists_block (thpSpan_pos haligned hsize)
    (UInt64.le_iff_toNat_le.mp hpage.beginAddr_le) (UInt64.lt_iff_toNat_lt.mp hpage.lt_endAddr)
  refine ⟨mem.block region i, (mem_fakeThps haligned hsize).mpr ⟨region, hregion, i, hi, rfl⟩, ?_⟩
  rw [Thp.mem_toPages_iff (ofPages_block haligned hsize hfits hregion),
    UInt64.le_iff_toNat_le, UInt64.lt_iff_toNat_lt, toNat_start_block, toNat_endAddr_block]
  exact ⟨hpage.aligned, hstart, hend⟩

/-- **Tiles.** -/
theorem updateFakeThps_tiles (haligned : mem.PageAligned) (hsize : 1 ≤ mem.fakeThpSize)
    (hfits : mem.ThpsFit) :
    ∃ thps, (∃ n, ∀ fuel ≥ n, mem.updateFakeThps fuel = some thps) ∧ mem.Tiles thps := by
  refine ⟨_, ⟨2 ^ 64, fun fuel hfuel => updateFakeThps_eq haligned hsize hfits hfuel⟩, ?_⟩
  have hblock : ∀ {key thp}, (mem.fakeThps haligned hsize).find? key = some thp →
      ∃ region ∈ mem.memoryRegions, ∃ i < mem.blocksOf region, thp = mem.block region i :=
    fun h => (mem_fakeThps haligned hsize).mp (IntervalMap.find?_eq_some_iff.mp h).1
  have hpages : ∀ {key thp}, (mem.fakeThps haligned hsize).find? key = some thp →
      thp.OfPages mem.pagesize := by
    intro key thp h
    obtain ⟨region, hregion, i, -, rfl⟩ := hblock h
    exact ofPages_block haligned hsize hfits hregion
  have hcovered : ∀ {thp page}, thp ∈ mem.fakeThps haligned hsize →
      page ∈ thp.toPages mem.pagesize → IntervalMap.Covers Thp.start Thp.endAddr thp page := by
    intro thp page hthp hpage
    exact ((Thp.mem_toPages_iff (hpages (IntervalMap.find?_eq_some_iff.mpr ⟨hthp, rfl⟩))).mp
      hpage).2
  constructor
  case ordered => exact ⟨_, rfl⟩
  case inside =>
    intro key thp h
    obtain ⟨region, hregion, i, -, rfl⟩ := hblock h
    exact ⟨region, hregion, inside_block hregion⟩
  case start_eq => exact fun key thp h => (IntervalMap.find?_eq_some_iff.mp h).2
  case nPages =>
    intro key thp h
    obtain ⟨region, hregion, i, hi, rfl⟩ := hblock h
    exact nPages_block haligned hsize hfits hregion hi
  case full =>
    intro key thp h region hregion hbegin hend
    obtain ⟨region', hregion', i, hi, rfl⟩ := hblock h
    have hinside := inside_block (i := i) hregion'
    have hnonempty : (mem.block region' i).start < (mem.block region' i).endAddr :=
      (mem.fakeThps haligned hsize).nonempty _ (IntervalMap.find?_eq_some_iff.mp h).1
    -- both regions cover the start of the THP
    obtain rfl := IntervalMap.eq_of_covers hregion hregion' ⟨hbegin, hnonempty.trans hend⟩
      ⟨hinside.1, hnonempty.trans_le hinside.2⟩
    exact nPages_block_of_lt haligned hsize hfits hregion hend
  case toPages =>
    intro key thp h
    refine ⟨⟨2 ^ 64, fun fuel hfuel => ?_⟩, Thp.length_toPages (hpages h)⟩
    exact Thp.pagesLoop_eq (hpages h) (thp.endAddr.toNat_lt.le.trans hfuel)
  case covers =>
    intro region hregion page hpage
    obtain ⟨thp, hthp, hmem⟩ :=
      exists_block_of_isPageOf haligned hsize hfits hregion hpage
    refine ⟨thp.start, ⟨thp, IntervalMap.find?_eq_some_iff.mpr ⟨hthp, rfl⟩, hmem⟩, ?_⟩
    rintro key ⟨thp', hkey, hmem'⟩
    obtain ⟨hthp', rfl⟩ := IntervalMap.find?_eq_some_iff.mp hkey
    rw [IntervalMap.eq_of_covers hthp' hthp (hcovered hthp' hmem') (hcovered hthp hmem)]
  case nodup => exact fun key thp h => Thp.nodup_toPages (hpages h)
  case pages =>
    intro key thp h page hpage
    obtain ⟨hdvd, hstart, hend⟩ := (Thp.mem_toPages_iff (hpages h)).mp hpage
    obtain ⟨region, hregion, i, -, rfl⟩ := hblock h
    have hinside := inside_block (i := i) hregion
    exact ⟨region, hregion, hdvd, hinside.1.trans hstart, hend.trans_le hinside.2⟩

/-- A region of three pages, cut into fake THPs of two pages. -/
def threePages : MemoryInfo where
  pagesize := 4096
  memoryRegions := ⟨[⟨8192, 8192, 20480, rfl⟩], List.forall_mem_singleton.mpr (by decide),
    List.pairwise_singleton _ _⟩
  fakeThpSize := 2
  fakeThpRegions := ∅

/-- The second fake THP has one page. -/
theorem updateFakeThps_tiles_threePages :
    ∃ thps, (∃ n, ∀ fuel ≥ n, threePages.updateFakeThps fuel = some thps) ∧
      threePages.Tiles thps := by
  refine updateFakeThps_tiles ⟨by decide, ?_, ?_⟩ (by decide) ?_
  · intro region hregion
    rw [List.mem_singleton.mp hregion]
    decide
  · intro region hregion
    rw [List.mem_singleton.mp hregion]
    decide
  · intro region hregion
    rw [List.mem_singleton.mp hregion]
    decide

example : (threePages.updateFakeThps 2).map (fun thps => [thps 8192, thps 12288, thps 16384]) =
    some [some ⟨8192, 16384⟩, none, some ⟨16384, 20480⟩] := by
  decide

end MemoryInfo

end Thanos
