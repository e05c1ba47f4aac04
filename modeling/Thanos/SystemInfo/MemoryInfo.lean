import Mathlib.Order.Lattice
import Thanos.Library.IntervalMap

/-!
# Memory regions

`memory_info` keeps two ordered maps keyed by start addresses, the memory regions of the
processes and the fake huge pages into which these are divided. Three functions look up the
entry that covers an address, with the same search: the lower bound of the address if the entry
there starts at the address, else the entry before it.

* **Lookups** (`lookup_iff`): the search gives up at the end of the map, so it misses the
  addresses inside the last entry, and no others.
* **Regions** (`lookupsCorrect_iff`): the three functions are right about an address exactly when
  it is not inside the last entry of their map.
-/

namespace Thanos

/-- Address type. -/
abbrev Addr := UInt64

instance : LinearOrder Addr where
  le_refl := UInt64.le_refl
  le_trans _ _ _ := UInt64.le_trans
  lt_iff_le_not_ge a b := by
    rw [UInt64.lt_iff_toNat_lt, UInt64.le_iff_toNat_le, UInt64.le_iff_toNat_le]
    omega
  le_antisymm _ _ := UInt64.le_antisymm
  le_total := UInt64.le_total
  toDecidableLE := inferInstance
  toDecidableEq := inferInstance
  toDecidableLT := inferInstance

/-- `mem_region`: the lines of a region in the files `maps` and `numa_maps`. -/
structure MemRegion where
  /-- The address in `numa_maps`, the key of the region. -/
  address : Addr
  /-- `begin()`, from `maps`. -/
  beginAddr : Addr
  /-- `end()`, from `maps`. -/
  endAddr : Addr
  /-- The two lines are of one region. -/
  begin_eq : beginAddr = address

/-- `thp`. -/
structure Thp where
  start : Addr
  endAddr : Addr
  deriving DecidableEq

namespace Thp

variable (thp : Thp) (pagesize : Addr)

/-- `n_pages`: the size in small pages. -/
def nPages : Addr :=
  (thp.endAddr - thp.start) / pagesize

/-- `to_pages`: the small pages that start in the range. -/
def toPages : List Addr :=
  let bytes := thp.endAddr.toNat - thp.start.toNat
  (List.range ((bytes + pagesize.toNat - 1) / pagesize.toNat)).map fun i =>
    thp.start + UInt64.ofNat i * pagesize

end Thp

/-- The state of `memory_info`. -/
structure MemoryInfo where
  /-- `sysconf(_SC_PAGESIZE)`. -/
  pagesize : Addr
  memoryRegions : IntervalMap MemRegion.beginAddr MemRegion.endAddr
  /-- The size of a fake THP in small pages; with 0 they are disabled. -/
  fakeThpSize : ℕ
  fakeThpRegions : IntervalMap Thp.start Thp.endAddr

/-! ### The search -/

section Lookup

universe u v

variable {ρ : Type u} {α : Type v} [LinearOrder α] {start stop : ρ → α}
  (m : IntervalMap start stop) (addr : α)

/-- The search of `contains`, `region_from_address` and `fake_thp_from_address`. -/
def lookup : Option ρ :=
  match m.after addr with
  | [] => none
  | region :: _ =>
    if start region = addr then some region
    else
      match (m.before addr).getLast? with
      | none => none
      | some region =>
        if start region < addr ∧ addr < stop region then some region else none

/-- The address is strictly inside the last entry of the map. -/
def InsideLast : Prop :=
  ∃ region, m.toList.getLast? = some region ∧ start region < addr ∧ addr < stop region

variable {m addr} {region : ρ}

/-- What is found covers the address. -/
theorem covers_of_lookup (h : lookup m addr = some region) :
    region ∈ m ∧ IntervalMap.Covers start stop region addr := by
  unfold lookup at h
  split at h
  · simp at h
  · next first rest hafter =>
    have hfirst : first ∈ m := IntervalMap.mem_of_mem_after (a := addr) (by simp [hafter])
    split_ifs at h with heq
    · -- an exact hit
      obtain rfl := Option.some.inj h
      exact ⟨hfirst, heq.le, heq ▸ m.nonempty first hfirst⟩
    · split at h
      · simp at h
      · next previous hbefore =>
        split_ifs at h with hinside
        obtain rfl := Option.some.inj h
        exact ⟨IntervalMap.mem_of_mem_before (List.mem_of_getLast? hbefore), hinside.1.le,
          hinside.2⟩

/-- What covers the address is found, unless the address is inside the last entry. -/
theorem lookup_of_covers (hlast : ¬ InsideLast m addr) (h : region ∈ m)
    (hcovers : IntervalMap.Covers start stop region addr) : lookup m addr = some region := by
  unfold lookup
  obtain heq | hlt := hcovers.1.eq_or_lt
  · have hhead := IntervalMap.head?_after_of_start_eq h heq
    cases hafter : m.after addr with
    | nil => simp [hafter] at hhead
    | cons first rest =>
      rw [hafter, List.head?_cons] at hhead
      obtain rfl := Option.some.inj hhead
      simp [heq]
  · have hprevious := IntervalMap.getLast?_before_of_covers h hlt hcovers.2
    cases hafter : m.after addr with
    | nil =>
      -- the end of the map: all entries start before the address
      have hall : m.before addr = m.toList := by
        have happend := IntervalMap.before_append_after (m := m) (a := addr)
        rwa [hafter, List.append_nil] at happend
      exact absurd ⟨region, hall ▸ hprevious, hlt, hcovers.2⟩ hlast
    | cons first rest =>
      have hfirst : addr ≤ start first := IntervalMap.le_of_mem_after (m := m) (by simp [hafter])
      have hne : start first ≠ addr := by
        rintro heq
        have hmem : first ∈ m := IntervalMap.mem_of_mem_after (a := addr) (by simp [hafter])
        have hsame := IntervalMap.eq_of_covers h hmem hcovers
          ⟨heq.le, heq ▸ m.nonempty first hmem⟩
        exact absurd (hsame ▸ hlt) (heq ▸ lt_irrefl addr)
      simp [hne, hprevious, hlt, hcovers.2]

/-- **Lookups.** -/
theorem lookup_iff :
    (∀ region, lookup m addr = some region ↔
      region ∈ m ∧ IntervalMap.Covers start stop region addr) ↔ ¬ InsideLast m addr := by
  constructor
  · rintro h ⟨last, hlast, hlt, hstop⟩
    have hmem : last ∈ m := List.mem_of_getLast? hlast
    have hend : m.after addr = [] := IntervalMap.after_eq_nil fun region hregion =>
      lt_of_le_of_lt (IntervalMap.start_le_of_getLast? hlast hregion) hlt
    have hfound := (h last).mpr ⟨hmem, hlt.le, hstop⟩
    rw [lookup, hend] at hfound
    exact absurd hfound (by simp)
  · exact fun hlast region => ⟨covers_of_lookup, fun h => lookup_of_covers hlast h.1 h.2⟩

end Lookup

namespace MemoryInfo

variable (mem : MemoryInfo) (addr : Addr)

/-- `fake_thp_enabled`. -/
def fakeThpEnabled : Bool :=
  decide (mem.fakeThpSize ≠ 0)

/-- `page_from_addr`. -/
def pageFromAddr : Addr :=
  addr &&& ~~~(mem.pagesize - 1)

/-- `region_from_address`. -/
def regionFromAddress : Option MemRegion :=
  lookup mem.memoryRegions addr

/-- `fake_thp_from_address`. -/
def fakeThpFromAddress : Option Thp :=
  lookup mem.fakeThpRegions addr

/-- `contains`. -/
def contains : Bool :=
  (lookup mem.memoryRegions addr).isSome

/-- The memory regions consist of whole pages. -/
structure PageAligned : Prop where
  pagesize_pos : 0 < mem.pagesize.toNat
  beginAddr : ∀ region ∈ mem.memoryRegions, mem.pagesize.toNat ∣ region.beginAddr.toNat
  endAddr : ∀ region ∈ mem.memoryRegions, mem.pagesize.toNat ∣ region.endAddr.toNat

/-- The number of pages from an address to the end of its region. -/
def pagesToEnd (region : MemRegion) : ℕ :=
  (region.endAddr.toNat - addr.toNat) / mem.pagesize.toNat

/-- The three functions find the region and the fake THP that cover an address, and find
nothing if there is none. -/
structure LookupsCorrect : Prop where
  contains_iff : mem.contains addr = true ↔ ∃ region ∈ mem.memoryRegions,
    region.beginAddr ≤ addr ∧ addr < region.endAddr
  regionFromAddress_iff : ∀ region, mem.regionFromAddress addr = some region ↔
    region ∈ mem.memoryRegions ∧ region.beginAddr ≤ addr ∧ addr < region.endAddr
  fakeThpFromAddress_iff : ∀ thp, mem.fakeThpFromAddress addr = some thp ↔
    thp ∈ mem.fakeThpRegions ∧ thp.start ≤ addr ∧ addr < thp.endAddr

/-- **Regions.** -/
theorem lookupsCorrect_iff :
    LookupsCorrect mem addr ↔
      ¬ InsideLast mem.memoryRegions addr ∧ ¬ InsideLast mem.fakeThpRegions addr := by
  constructor
  · exact fun h => ⟨lookup_iff.mp h.regionFromAddress_iff, lookup_iff.mp h.fakeThpFromAddress_iff⟩
  · rintro ⟨hregion, hthp⟩
    have hfound := lookup_iff.mpr hregion
    refine ⟨?_, hfound, lookup_iff.mpr hthp⟩
    rw [contains, Option.isSome_iff_exists]
    exact exists_congr hfound

/-- One region of two pages, which is the last one. -/
def oneRegion : MemoryInfo where
  pagesize := 4096
  memoryRegions := ⟨[⟨4096, 4096, 12288, rfl⟩], by simp, List.pairwise_singleton _ _⟩
  fakeThpSize := 0
  fakeThpRegions := ∅

/-- The second page of the region is not found. -/
theorem not_lookupsCorrect : ¬ ∀ (mem : MemoryInfo) (addr : Addr), LookupsCorrect mem addr := by
  intro h
  have hcontains : oneRegion.contains 8192 = true :=
    (h oneRegion 8192).contains_iff.mpr ⟨_, List.mem_singleton.mpr rfl, by decide, by decide⟩
  exact absurd hcontains (by decide)

end MemoryInfo

end Thanos
