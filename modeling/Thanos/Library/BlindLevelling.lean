import Thanos.Library.Levelling

/-!
# Levelling that does not see the arrivals

A variant of the levelling of loads in which a bin that receives units is not charged with them:
the rule reads the loads that are listed, and a unit that moves is taken off the list of the bin
it leaves and put on no list. The loads that the bins hold in fact are carried along (`Loads`).

As a target does not fill up, a bin above the threshold sends its whole surplus to one target
(`Loads.drain`), whatever the rule (`Rule`). So a round over the bins can be told from the
initial loads: each bin ends with its load, cut down to the threshold, and the surpluses of the
bins whose target it is (`Rule.foldl_drain`).
-/

namespace Thanos.Levelling

universe u

variable {β : Type u} [DecidableEq β]

/-- The loads of the bins: the listed ones, which are read, and the ones held. -/
@[ext]
structure Loads (β : Type u) where
  listed : β → ℕ
  held : β → ℕ

/-- `k` units move from `src` to `dst`. -/
def Loads.send (l : Loads β) (src dst : β) (k : ℕ) : Loads β where
  listed := Function.update l.listed src (l.listed src - k)
  held := Function.update (Function.update l.held src (l.held src - k)) dst (l.held dst + k)

variable (bins : Finset β) (m : ℕ) (target : (β → ℕ) → β → Option β)

/-- A bin sends its surplus over the threshold to its target. -/
def Loads.drain (l : Loads β) (src : β) : Loads β :=
  match target l.listed src with
  | none => l
  | some dst => l.send src dst (l.listed src - m)

/-- What is used of the rule: as long as some bin is at most at the threshold, every bin above
it has such a target, which stays the same while the bin is drained. -/
structure Rule : Prop where
  exists_target : ∀ load, ∀ src ∈ bins, m < load src → (∃ c ∈ bins, load c ≤ m) →
    ∃ dst ∈ bins, load dst ≤ m ∧ target load src = some dst
  target_update : ∀ load src dst k, target load src = some dst → load dst ≤ m → m < k →
    k ≤ load src → target (Function.update load src k) src = some dst

section Round

variable (load : β → ℕ)

/-- The loads after the bins of a list have been cut down to the threshold. -/
def cut (visited : List β) (c : β) : ℕ :=
  if c ∈ visited then min (load c) m else load c

/-- What a bin receives from another one in the course of a round: the surplus, if it is the
target once the bins visited earlier have been cut down. -/
def delivery (srcs : List β) (c src : β) : ℕ :=
  if target (cut m load (srcs.takeWhile fun b => decide (b ≠ src))) src = some c then load src - m
  else 0

/-- What a bin receives in a round over some bins. -/
def incoming (srcs : List β) (c : β) : ℕ :=
  (srcs.map (delivery m target load srcs c)).sum

end Round

variable {bins m target} {l : Loads β} {load : β → ℕ} {src dst c : β} {k k' : ℕ}
  {srcs visited : List β}

/-! ### Draining a bin -/

theorem Loads.send_listed_self : (l.send src dst k).listed src = l.listed src - k :=
  Function.update_self ..

theorem Loads.send_listed_of_ne (h : c ≠ src) : (l.send src dst k).listed c = l.listed c :=
  Function.update_of_ne h ..

theorem Loads.send_held_dst : (l.send src dst k).held dst = l.held dst + k :=
  Function.update_self ..

theorem Loads.send_held_src (h : dst ≠ src) : (l.send src dst k).held src = l.held src - k := by
  rw [Loads.send]
  simp only [Function.update_of_ne h.symm, Function.update_self]

theorem Loads.send_held_of_ne (hsrc : c ≠ src) (hdst : c ≠ dst) :
    (l.send src dst k).held c = l.held c := by
  rw [Loads.send]
  simp only [Function.update_of_ne hdst, Function.update_of_ne hsrc]

theorem Loads.send_send (hne : dst ≠ src) :
    (l.send src dst k).send src dst k' = l.send src dst (k + k') := by
  ext c
  · by_cases hc : c = src
    · subst hc
      simp only [Loads.send_listed_self]
      omega
    · simp only [Loads.send_listed_of_ne hc]
  · by_cases hd : c = dst
    · subst hd
      simp only [Loads.send_held_dst]
      omega
    · by_cases hc : c = src
      · subst hc
        simp only [Loads.send_held_src hne]
        omega
      · simp only [Loads.send_held_of_ne hc hd]

@[simp]
theorem Loads.send_zero : l.send src dst 0 = l := by
  ext c
  · simp [Loads.send]
  · simp [Loads.send]

theorem Loads.drain_of_some (h : target l.listed src = some dst) :
    l.drain m target src = l.send src dst (l.listed src - m) := by
  rw [Loads.drain, h]

/-- A bin that is not above the threshold sends nothing. -/
theorem Loads.drain_of_le (h : l.listed src ≤ m) : l.drain m target src = l := by
  rw [Loads.drain, Nat.sub_eq_zero_of_le h]
  split
  · rfl
  · exact Loads.send_zero

/-- The surplus may go one unit after another. -/
theorem Rule.drain_send (hr : Rule bins m target) (habove : m < l.listed src)
    (htarget : target l.listed src = some dst) (hdst : l.listed dst ≤ m) :
    (l.send src dst 1).drain m target src = l.drain m target src := by
  have hne : dst ≠ src := by
    rintro rfl
    omega
  have hsrc : (l.send src dst 1).listed src = l.listed src - 1 := Loads.send_listed_self
  rw [Loads.drain_of_some htarget]
  by_cases hmore : m < l.listed src - 1
  · have htarget' : target (l.send src dst 1).listed src = some dst :=
      hr.target_update _ src dst _ htarget hdst hmore (Nat.sub_le _ _)
    rw [Loads.drain_of_some htarget', Loads.send_send hne, hsrc]
    congr 1
    omega
  · rw [Loads.drain_of_le (by omega)]
    congr 1
    omega

theorem Loads.drain_listed_le (l : Loads β) (c : β) :
    (l.drain m target src).listed c ≤ l.listed c := by
  rw [Loads.drain]
  split
  · exact le_rfl
  · by_cases hc : c = src
    · subst hc
      rw [Loads.send_listed_self]
      exact Nat.sub_le _ _
    · rw [Loads.send_listed_of_ne hc]

/-! ### A round -/

theorem takeWhile_append_of_mem {pre post : List β} (h : src ∈ pre) :
    (pre ++ post).takeWhile (fun b => decide (b ≠ src)) =
      pre.takeWhile fun b => decide (b ≠ src) := by
  induction pre with
  | nil => exact absurd h List.not_mem_nil
  | cons a pre ih =>
    by_cases ha : a = src
    · simp [ha]
    · have hmem : src ∈ pre := (List.mem_cons.mp h).resolve_left fun h => ha h.symm
      simp only [List.cons_append, List.takeWhile_cons, ih hmem]

theorem takeWhile_append_of_notMem {pre post : List β} (h : src ∉ pre) :
    (pre ++ src :: post).takeWhile (fun b => decide (b ≠ src)) = pre := by
  have hpre : ∀ b ∈ pre, decide (b ≠ src) = true := fun b hb =>
    decide_eq_true (ne_of_mem_of_not_mem hb h)
  rw [List.takeWhile_append_of_pos hpre]
  simp

/-- What a bin receives in a round that goes on with one more bin. -/
theorem incoming_append (h : src ∉ srcs) :
    incoming m target load (srcs ++ [src]) c =
      incoming m target load srcs c +
        if target (cut m load srcs) src = some c then load src - m else 0 := by
  have hold : ∀ b ∈ srcs, delivery m target load (srcs ++ [src]) c b =
      delivery m target load srcs c b := fun b hb => by
    rw [delivery, delivery, takeWhile_append_of_mem hb]
  have hnew : delivery m target load (srcs ++ [src]) c src =
      if target (cut m load srcs) src = some c then load src - m else 0 := by
    rw [delivery, takeWhile_append_of_notMem h]
  rw [incoming, incoming, List.map_append, List.sum_append, List.map_congr_left hold,
    List.map_singleton, List.sum_singleton, hnew]

theorem cut_le : cut m load visited c ≤ load c := by
  rw [cut]
  split_ifs
  · exact min_le_left _ _
  · exact le_rfl

theorem cut_append : cut m load (visited ++ [src]) =
    Function.update (cut m load visited) src (min (load src) m) := by
  funext c
  by_cases hc : c = src
  · subst hc
    simp [cut]
  · simp [cut, hc]

/-- The visit of one bin, in terms of the loads before the round. -/
theorem Rule.drain_eq (hr : Rule bins m target) (hsrc : src ∈ bins) (hnew : src ∉ visited)
    (hroom : ∃ c ∈ bins, load c ≤ m) (hlisted : l.listed = cut m load visited)
    (hheld : ∀ c ∈ bins, l.held c = l.listed c + incoming m target load visited c) :
    (l.drain m target src).listed = cut m load (visited ++ [src]) ∧
      ∀ c ∈ bins, (l.drain m target src).held c =
        (l.drain m target src).listed c + incoming m target load (visited ++ [src]) c := by
  have hsame : l.listed src = load src := by
    rw [hlisted, cut, if_neg hnew]
  rw [cut_append, ← hlisted]
  by_cases habove : m < load src
  · obtain ⟨e, he, hle⟩ := hroom
    have hroom' : ∃ c ∈ bins, l.listed c ≤ m := ⟨e, he, by rw [hlisted]; exact cut_le.trans hle⟩
    obtain ⟨dst, hdst, hdle, htarget⟩ := hr.exists_target l.listed src hsrc (by omega) hroom'
    have hne : dst ≠ src := by
      rintro rfl
      omega
    have hmin : min (load src) m = l.listed src - (l.listed src - m) := by omega
    rw [Loads.drain_of_some htarget, hmin]
    refine ⟨rfl, fun c hc => ?_⟩
    rw [incoming_append hnew, ← hlisted, htarget]
    have hc' := hheld c hc
    by_cases hcd : c = dst
    · subst hcd
      rw [Loads.send_listed_of_ne hne, if_pos rfl, Loads.send_held_dst]
      omega
    · have hsome : ¬ some dst = some c := fun h => hcd (Option.some.inj h).symm
      rw [if_neg hsome, add_zero]
      by_cases hcs : c = src
      · -- what is left of its own load is the threshold
        subst hcs
        rw [Loads.send_listed_self, Loads.send_held_src hne]
        omega
      · rw [Loads.send_listed_of_ne hcs, Loads.send_held_of_ne hcs hcd, hc']
  · have hmin : min (load src) m = l.listed src := by omega
    have hzero : load src - m = 0 := by omega
    rw [Loads.drain_of_le (by omega), hmin, Function.update_eq_self]
    refine ⟨rfl, fun c hc => ?_⟩
    rw [incoming_append hnew, hheld c hc, hzero, ite_self, add_zero]

/-- **A round.** Each bin that is visited ends with its load cut down to the threshold, and each
bin with the surpluses of the bins whose target it is on top. -/
theorem Rule.foldl_drain (hr : Rule bins m target) (hnodup : srcs.Nodup)
    (hsrcs : ∀ src ∈ srcs, src ∈ bins) (hroom : ∃ c ∈ bins, l.listed c ≤ m)
    (hheld : ∀ c ∈ bins, l.held c = l.listed c) :
    (srcs.foldl (Loads.drain m target) l).listed = cut m l.listed srcs ∧
      ∀ c ∈ bins, (srcs.foldl (Loads.drain m target) l).held c =
        (srcs.foldl (Loads.drain m target) l).listed c + incoming m target l.listed srcs c := by
  induction srcs using List.reverseRecOn with
  | nil =>
    refine ⟨funext fun c => ?_, fun c hc => ?_⟩
    · simp [cut]
    · simpa [incoming] using hheld c hc
  | append_singleton pre src ih =>
    rw [List.nodup_append] at hnodup
    have hnew : src ∉ pre := fun h => hnodup.2.2 src h src (List.mem_singleton.mpr rfl) rfl
    obtain ⟨hlisted, hheld'⟩ := ih hnodup.1 fun b hb => hsrcs b (List.mem_append_left _ hb)
    rw [List.foldl_append, List.foldl_cons, List.foldl_nil]
    exact hr.drain_eq (hsrcs src (by simp)) hnew hroom hlisted hheld'

end Thanos.Levelling
