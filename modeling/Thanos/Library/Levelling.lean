import Mathlib.Algebra.Order.BigOperators.Group.Finset
import Mathlib.Algebra.Order.Floor.Div
import Mathlib.Tactic.Linarith

/-!
# Greedy levelling of loads

Finitely many bins carry loads. A round visits the bins one after another and drains each of
them: as long as the visited bin carries more than the threshold `m`, one unit moves to a bin
picked by the greedy rule, namely a bin below the threshold if there is one, and otherwise a
least loaded bin that carries less than the visited one (`Pick`). The rule may pick any such
bin.

With `T` units over `N` bins and the threshold `max (T / N) 1`, a round ends with the floor or
the ceiling of `T / N` units in every bin (`Round.levelled`), whatever the order of the visits
and whatever the picks. Bins visited earlier may be loaded again; what carries the argument is
that they never exceed the floor by more than one, and not at all while some bin is below the
threshold (`Progress`).
-/

namespace Thanos.Levelling

open Finset

universe u

variable {β : Type u} [DecidableEq β]

/-- The loads after one unit has moved from `src` to `dst`. -/
def shift (load : β → ℕ) (src dst : β) : β → ℕ :=
  Function.update (Function.update load src (load src - 1)) dst (load dst + 1)

variable (bins : Finset β) (m : ℕ)

/-- The greedy rule: `dst` is below the threshold, or nobody is and `dst` is a least loaded
bin below `src`. -/
def Pick (load : β → ℕ) (src dst : β) : Prop :=
  dst ∈ bins ∧ dst ≠ src ∧
    (load dst < m ∨
      (∀ c ∈ bins, c ≠ src → m ≤ load c ∧ load dst ≤ load c) ∧ load dst < load src)

/-- The greedy rule picks nobody: the other bins reach the threshold and the load of `src`. -/
def Blocked (load : β → ℕ) (src : β) : Prop :=
  ∀ c ∈ bins, c ≠ src → m ≤ load c ∧ load src ≤ load c

/-- Draining `src` leads from the first loads to the second. -/
inductive Drain (src : β) : (β → ℕ) → (β → ℕ) → Prop
  | stop {load : β → ℕ} (h : load src ≤ m ∨ Blocked bins m load src) : Drain src load load
  | move {load load' : β → ℕ} {dst : β} (hsrc : m < load src) (hdst : Pick bins m load src dst)
      (h : Drain src (shift load src dst) load') : Drain src load load'

/-- A round over a list of bins leads from the first loads to the second. -/
inductive Round : List β → (β → ℕ) → (β → ℕ) → Prop
  | nil {load : β → ℕ} : Round [] load load
  | cons {src : β} {rest : List β} {load load' load'' : β → ℕ}
      (h : Drain bins m src load load') (hrest : Round rest load' load'') :
      Round (src :: rest) load load''

variable {bins m} {load load' : β → ℕ} {src dst c : β} {T : ℕ}

/-! ### One move -/

theorem shift_src (h : dst ≠ src) : shift load src dst src = load src - 1 := by
  rw [shift, Function.update_of_ne h.symm, Function.update_self]

theorem shift_dst : shift load src dst dst = load dst + 1 :=
  Function.update_self ..

theorem shift_of_ne (hsrc : c ≠ src) (hdst : c ≠ dst) : shift load src dst c = load c := by
  rw [shift, Function.update_of_ne hdst, Function.update_of_ne hsrc]

/-- A move keeps the number of units. -/
theorem sum_shift (hsrc : src ∈ bins) (hdst : dst ∈ bins) (hne : dst ≠ src)
    (hpos : 0 < load src) : ∑ c ∈ bins, shift load src dst c = ∑ c ∈ bins, load c := by
  have hdst' : dst ∈ bins.erase src := mem_erase.mpr ⟨hne, hdst⟩
  have hsplit : ∀ f : β → ℕ,
      ∑ c ∈ bins, f c = f src + (f dst + ∑ c ∈ (bins.erase src).erase dst, f c) := fun f => by
    rw [add_sum_erase _ f hdst', add_sum_erase _ f hsrc]
  have hrest : ∑ c ∈ (bins.erase src).erase dst, shift load src dst c
      = ∑ c ∈ (bins.erase src).erase dst, load c :=
    sum_congr rfl fun c hc => by
      simp only [mem_erase] at hc
      exact shift_of_ne hc.2.1 hc.1
  rw [hsplit, hsplit load, hrest, shift_src hne, shift_dst]
  omega

omit [DecidableEq β] in
/-- Some bin carries at most the average, rounded down. -/
theorem exists_le_div (hne : bins.Nonempty) (hsum : ∑ c ∈ bins, load c = T) :
    ∃ c ∈ bins, load c ≤ T / bins.card := by
  by_contra hcon
  push Not at hcon
  have hle : bins.card • (T / bins.card + 1) ≤ ∑ c ∈ bins, load c :=
    card_nsmul_le_sum bins load _ fun c hc => hcon c hc
  have hlt : T < bins.card * (T / bins.card + 1) :=
    Nat.lt_mul_div_succ T (card_pos.mpr hne)
  rw [smul_eq_mul, hsum] at hle
  omega

/-! ### The invariant of a round -/

/-- The invariant of a round in which the bins of `visited` have been drained: some bin is at
most at the floor `q` of the average, a drained bin exceeds the floor by at most one, and as
long as some bin is below the threshold no drained bin is above it. -/
structure Progress (bins : Finset β) (m q T : ℕ) (visited : β → Prop) (load : β → ℕ) :
    Prop where
  sum : ∑ c ∈ bins, load c = T
  upper : ∀ c ∈ bins, visited c → load c ≤ q + 1
  deficit : (∃ c ∈ bins, load c < m) → ∀ c ∈ bins, visited c → load c ≤ m

variable {visited : β → Prop} {q : ℕ}

/-- A least loaded bin, `src` apart, carries at most the floor of the average if it carries
less than `src`. -/
theorem le_floor_of_least (hsrc : src ∈ bins) (hsum : ∑ c ∈ bins, load c = T)
    (hq : T / bins.card = q) {k : ℕ} (hk : k ≤ load src)
    (hall : ∀ c ∈ bins, c ≠ src → k ≤ load c) : k ≤ q := by
  obtain ⟨d, hd, hdle⟩ := exists_le_div ⟨src, hsrc⟩ hsum
  rw [hq] at hdle
  by_cases hds : d = src
  · exact hk.trans (hds ▸ hdle)
  · exact (hall d hd hds).trans hdle

/-- A move out of a bin that is being drained keeps the invariant. -/
theorem Progress.shift (hp : Progress bins m q T visited load) (hq : T / bins.card = q)
    (hm : m ≤ q + 1) (hsrc : src ∈ bins) (hload : m < load src)
    (hpick : Pick bins m load src dst) (hout : ¬ visited src) :
    Progress bins m q T visited (Levelling.shift load src dst) := by
  obtain ⟨hdst, hne, hrule⟩ := hpick
  have hkept : ∀ c, visited c → c ≠ dst → Levelling.shift load src dst c = load c :=
    fun c hc hcd => shift_of_ne (fun h => hout (h ▸ hc)) hcd
  refine ⟨(sum_shift hsrc hdst hne (by omega)).trans hp.sum, fun c hc hv => ?_, ?_⟩
  · by_cases hcd : c = dst
    · subst hcd
      rw [shift_dst]
      obtain hlow | ⟨hall, hlt⟩ := hrule
      · omega
      · have := le_floor_of_least hsrc hp.sum hq hlt.le fun d hd hds => (hall d hd hds).2
        omega
    · rw [hkept c hv hcd]
      exact hp.upper c hc hv
  · obtain hlow | ⟨hall, hlt⟩ := hrule
    · intro _ c hc hv
      have hold := hp.deficit ⟨dst, hdst, hlow⟩ c hc hv
      by_cases hcd : c = dst
      · subst hcd
        rw [shift_dst]
        omega
      · rw [hkept c hv hcd]
        exact hold
    · -- after a move of the second kind no bin is below the threshold
      rintro ⟨d, hd, hdlt⟩
      exfalso
      by_cases hds : d = src
      · subst hds
        rw [shift_src hne] at hdlt
        omega
      · have hmd := (hall d hd hds).1
        by_cases hdd : d = dst
        · subst hdd
          rw [shift_dst] at hdlt
          omega
        · rw [shift_of_ne hds hdd] at hdlt
          omega

/-- A bin whose draining has stopped is at most at the threshold. -/
theorem Progress.le_of_stop (hp : Progress bins m q T visited load) (hq : T / bins.card = q)
    (hm : q ≤ m) (hsrc : src ∈ bins) (hstop : load src ≤ m ∨ Blocked bins m load src) :
    load src ≤ m := by
  obtain h | hblocked := hstop
  · exact h
  · exact (le_floor_of_least hsrc hp.sum hq le_rfl fun c hc hcs => (hblocked c hc hcs).2).trans
      hm

/-- Draining a bin keeps the invariant and adds the bin to the visited ones. -/
theorem Progress.drain (hd : Drain bins m src load load')
    (hp : Progress bins m q T visited load) (hq : T / bins.card = q) (hm : m = max q 1)
    (hsrc : src ∈ bins) : Progress bins m q T (fun c => visited c ∨ c = src) load' := by
  -- a bin that is drained again counts as unvisited meanwhile
  have hp' : Progress bins m q T (fun c => visited c ∧ c ≠ src) load :=
    ⟨hp.sum, fun c hc hv => hp.upper c hc hv.1, fun hdef c hc hv => hp.deficit hdef c hc hv.1⟩
  clear hp
  induction hd with
  | stop hstop =>
    have hle := hp'.le_of_stop hq (by omega) hsrc hstop
    refine ⟨hp'.sum, fun c hc hv => ?_, fun hdef c hc hv => ?_⟩
    · by_cases hcs : c = src
      · subst hcs
        omega
      · exact hp'.upper c hc ⟨hv.resolve_right hcs, hcs⟩
    · by_cases hcs : c = src
      · subst hcs
        exact hle
      · exact hp'.deficit hdef c hc ⟨hv.resolve_right hcs, hcs⟩
  | move hlt hpick _ ih =>
    exact ih (hp'.shift hq (by omega) hsrc hlt hpick fun h => h.2 rfl)

/-- A round keeps the invariant and visits all its bins. -/
theorem Progress.round {srcs : List β} (hr : Round bins m srcs load load')
    (hp : Progress bins m q T visited load) (hq : T / bins.card = q) (hm : m = max q 1)
    (hsrcs : ∀ c ∈ srcs, c ∈ bins) :
    Progress bins m q T (fun c => visited c ∨ c ∈ srcs) load' := by
  induction hr generalizing visited with
  | nil => simpa using hp
  | @cons src rest _ _ _ hd _ ih =>
    have hp' := ih (hp.drain hd hq hm (hsrcs src List.mem_cons_self))
      fun c hc => hsrcs c (List.mem_cons_of_mem src hc)
    simpa only [List.mem_cons, or_assoc] using hp'

/-! ### The result of a round -/

/-- The ceiling of the average is the floor or one more. -/
theorem ceilDiv_mem {N : ℕ} (hN : 0 < N) : T / N ≤ T ⌈/⌉ N ∧ T ⌈/⌉ N ≤ T / N + 1 := by
  refine ⟨?_, (ceilDiv_le_iff_le_mul hN).mpr (Nat.lt_mul_div_succ T hN).le⟩
  rw [← Nat.floorDiv_eq_div]
  exact floorDiv_le_ceilDiv

omit [DecidableEq β] in
/-- Loads between the floor and one more are the floor or the ceiling of the average. -/
theorem eq_floor_or_ceil (hsum : ∑ c ∈ bins, load c = T)
    (hlow : ∀ c ∈ bins, T / bins.card ≤ load c) (hup : ∀ c ∈ bins, load c ≤ T / bins.card + 1)
    (hc : c ∈ bins) : load c = T / bins.card ∨ load c = T ⌈/⌉ bins.card := by
  have hcard : 0 < bins.card := card_pos.mpr ⟨c, hc⟩
  obtain heq | hlt := eq_or_lt_of_le (hlow c hc)
  · exact .inl heq.symm
  · refine .inr (le_antisymm ?_ ?_)
    · -- were the ceiling smaller, the bins would carry more than `T`
      by_contra hgt
      have hle : T ⌈/⌉ bins.card ≤ T / bins.card := by
        have := hup c hc
        omega
      have hT : T ≤ bins.card * (T / bins.card) := (ceilDiv_le_iff_le_mul hcard).mp hle
      have hsumlt : ∑ _c ∈ bins, T / bins.card < ∑ c ∈ bins, load c :=
        sum_lt_sum hlow ⟨c, hc, hlt⟩
      rw [sum_const, smul_eq_mul, hsum] at hsumlt
      omega
    · refine (ceilDiv_le_iff_le_mul hcard).mpr ?_
      calc T ≤ bins.card * (T / bins.card + 1) := (Nat.lt_mul_div_succ T hcard).le
        _ ≤ bins.card * load c := Nat.mul_le_mul_left _ hlt

/-- **A round levels the loads.** With `T` units over the bins and the threshold
`max (T / N) 1`, a round over all the bins leaves the floor or the ceiling of `T / N` units in
each of them. -/
theorem Round.levelled {srcs : List β} (hr : Round bins m srcs load load')
    (hsum : ∑ c ∈ bins, load c = T) (hm : m = max (T / bins.card) 1)
    (hsrcs : ∀ c, c ∈ srcs ↔ c ∈ bins) (hc : c ∈ bins) :
    load' c = T / bins.card ∨ load' c = T ⌈/⌉ bins.card := by
  have hstart : Progress bins m (T / bins.card) T (fun _ => False) load :=
    ⟨hsum, fun _ _ h => h.elim, fun _ _ _ h => h.elim⟩
  have hend := hstart.round hr rfl hm fun c h => (hsrcs c).mp h
  have hvisited : ∀ c ∈ bins, False ∨ c ∈ srcs := fun c h => .inr ((hsrcs c).mpr h)
  have hup : ∀ c ∈ bins, load' c ≤ T / bins.card + 1 :=
    fun c h => hend.upper c h (hvisited c h)
  refine eq_floor_or_ceil hend.sum (fun c h => ?_) hup hc
  -- a bin below the floor is below the threshold, so that no bin would be above it
  by_contra hlt
  have hle : ∀ d ∈ bins, load' d ≤ T / bins.card := fun d hd => by
    have := hend.deficit ⟨c, h, by omega⟩ d hd (hvisited d hd)
    omega
  have hsumlt : ∑ d ∈ bins, load' d < ∑ _d ∈ bins, T / bins.card :=
    sum_lt_sum hle ⟨c, h, by omega⟩
  rw [sum_const, smul_eq_mul, hend.sum] at hsumlt
  have := Nat.mul_div_le T bins.card
  omega

end Thanos.Levelling
