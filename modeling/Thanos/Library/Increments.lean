import Mathlib.Algebra.BigOperators.Group.List.Basic
import Mathlib.Algebra.Ring.Parity
import Mathlib.Data.List.Basic

/-!
# Increments of a counter

A counter is read again and again, and what is of interest is the increment from one reading to
the next. `increments` pairs each reading with a baseline, the reading before it, as long as the
counter has moved; a reading at which it has not is dropped together with the baseline, and the
next one starts anew.

* **Sums** (`total_increments_le`): the increments add up to no more than the counter has moved.
* **Nothing lost** (`telescopes_iff`): they add up to exactly that, for the counter and for
  a second quantity read with it, when every value that is read several times in a row comes with
  one and the same second quantity, and an odd number of times unless it is the last one.
-/

namespace Thanos

universe u

variable {α : Type u} (value time : α → ℕ)

/-- The readings paired with their baselines, given the baseline at the start. -/
def increments : Option α → List α → List (α × α)
  | _, [] => []
  | none, a :: l => increments (some a) l
  | some b, a :: l => if value b < value a then (b, a) :: increments (some a) l
    else increments none l

/-- The baseline after some readings. -/
def baseline : Option α → List α → Option α
  | b, [] => b
  | none, a :: l => baseline (some a) l
  | some b, a :: l => if value b < value a then baseline (some a) l else baseline none l

/-- The increments of a quantity, added up. -/
def total (f : α → ℕ) (l : List (α × α)) : ℕ :=
  (l.map fun p => f p.2 - f p.1).sum

/-- Neither quantity ever decreases. -/
def Increasing (l : List α) : Prop :=
  l.Pairwise fun a b => value a ≤ value b ∧ time a ≤ time b

/-- How often a value is read. -/
def timesRead (v : ℕ) (l : List α) : ℕ :=
  l.countP fun a => value a = v

/-- A value that is read several times comes with one second quantity, and an odd number of times
unless it is the last one. -/
structure NothingLost (b : α) (l : List α) : Prop where
  time_eq : ∀ a ∈ b :: l, ∀ a' ∈ b :: l, value a = value a' → time a = time a'
  odd_count : ∀ a ∈ b :: l, value a ≠ value (l.getLastD b) →
    Odd (timesRead value (value a) (b :: l))

variable {value time} {a b c : α} {l l' : List α} {start : Option α}

theorem increments_append :
    increments value start (l ++ l') =
      increments value start l ++ increments value (baseline value start l) l' := by
  induction l generalizing start with
  | nil => rfl
  | cons a l ih =>
    rcases start with _ | b
    · exact ih
    · rw [List.cons_append, increments, increments, baseline]
      split_ifs
      · rw [ih, List.cons_append]
      · exact ih

theorem baseline_append :
    baseline value start (l ++ l') = baseline value (baseline value start l) l' := by
  induction l generalizing start with
  | nil => rfl
  | cons a l ih =>
    rcases start with _ | b
    · exact ih
    · rw [List.cons_append, baseline, baseline]
      split_ifs
      · exact ih
      · exact ih

/-- The baseline is one of the readings. -/
theorem mem_of_baseline (h : baseline value start l = some a) : start = some a ∨ a ∈ l := by
  induction l generalizing start with
  | nil => exact .inl h
  | cons c l ih =>
    have hnext : ∀ start', (start' = some c ∨ start' = none) →
        baseline value start' l = some a → a ∈ c :: l := by
      intro start' hstart' h'
      obtain rfl | hmem := ih h'
      · obtain heq | heq := hstart'
        · exact Option.some.inj heq ▸ List.mem_cons_self
        · exact absurd heq (by simp)
      · exact List.mem_cons_of_mem c hmem
    rcases start with _ | b
    · exact .inr (hnext (some c) (.inl rfl) h)
    · rw [baseline] at h
      split_ifs at h
      · exact .inr (hnext (some c) (.inl rfl) h)
      · exact .inr (hnext none (.inr rfl) h)

theorem getLastD_cons_mem : l.getLastD b ∈ b :: l := by
  rw [← List.getLast_eq_getLastD (List.cons_ne_nil b l)]
  exact List.getLast_mem _

@[simp]
theorem total_nil {f : α → ℕ} : total f [] = 0 :=
  rfl

@[simp]
theorem total_cons {f : α → ℕ} {l : List (α × α)} :
    total f ((b, a) :: l) = (f a - f b) + total f l := by
  simp [total]

/-- **Sums.** After a reading the increments add up to no more than the quantity grows. -/
theorem total_increments_le {f : α → ℕ} (h : (b :: l).Pairwise fun a a' => f a ≤ f a')
    (hstart : start = none ∨ start = some b) :
    total f (increments value start l) + f b ≤ f (l.getLastD b) := by
  induction l generalizing b start with
  | nil => simp [increments]
  | cons a l ih =>
    have hle : f b ≤ f a := List.rel_of_pairwise_cons h List.mem_cons_self
    have htail := ih (List.Pairwise.of_cons h) (.inr rfl)
    have hfresh := ih (List.Pairwise.of_cons h) (.inl rfl)
    rw [List.getLastD_cons]
    obtain rfl | rfl := hstart
    · rw [increments]
      omega
    · rw [increments]
      split_ifs
      · rw [total_cons]
        omega
      · omega

/-- A quantity that never decreases does not decrease from a reading to the one paired with it. -/
theorem le_of_mem_increments {f : α → ℕ} (h : (b :: l).Pairwise fun a a' => f a ≤ f a')
    (hstart : start = none ∨ start = some b) {p : α × α}
    (hp : p ∈ increments value start l) : f p.1 ≤ f p.2 := by
  induction l generalizing b start with
  | nil => exact absurd hp List.not_mem_nil
  | cons a l ih =>
    have hle : f b ≤ f a := List.rel_of_pairwise_cons h List.mem_cons_self
    have htail := List.Pairwise.of_cons h
    obtain rfl | rfl := hstart
    · exact ih htail (.inr rfl) hp
    · rw [increments] at hp
      split_ifs at hp
      · obtain rfl | hp := List.mem_cons.mp hp
        · exact hle
        · exact ih htail (.inr rfl) hp
      · exact ih htail (.inl rfl) hp

/-! ### Exact sums -/

section Exact

theorem le_of_increasing (h : Increasing value time (b :: l)) (ha : a ∈ b :: l) :
    value b ≤ value a ∧ time b ≤ time a := by
  obtain rfl | ha := List.mem_cons.mp ha
  · exact ⟨le_rfl, le_rfl⟩
  · exact List.rel_of_pairwise_cons h ha

theorem timesRead_cons {v : ℕ} :
    timesRead value v (a :: l) = timesRead value v l + if value a = v then 1 else 0 := by
  simp [timesRead, List.countP_cons]

theorem timesRead_eq_zero {v : ℕ} (h : ∀ a ∈ l, v < value a) : timesRead value v l = 0 := by
  rw [timesRead, List.countP_eq_zero]
  exact fun a ha => by simpa using (h a ha).ne'

/-- A value that is read once, before larger ones. -/
theorem nothingLost_cons_of_lt (h : Increasing value time (b :: a :: l))
    (hlt : value b < value a) :
    NothingLost value time b (a :: l) ↔ NothingLost value time a l := by
  have hlater : ∀ c ∈ a :: l, value b < value c := fun c hc =>
    hlt.trans_le (le_of_increasing (List.Pairwise.of_cons h) hc).1
  have hcount : ∀ c ∈ a :: l, timesRead value (value c) (b :: a :: l) =
      timesRead value (value c) (a :: l) := by
    intro c hc
    rw [timesRead_cons, if_neg (hlater c hc).ne, add_zero]
  have hlast : (a :: l).getLastD b = l.getLastD a := List.getLastD_cons
  constructor
  · rintro ⟨htime, hodd⟩
    refine ⟨fun c hc c' hc' => htime c (List.mem_cons_of_mem b hc) c' (List.mem_cons_of_mem b hc'),
      fun c hc hne => ?_⟩
    rw [← hcount c hc]
    exact hodd c (List.mem_cons_of_mem b hc) (hlast ▸ hne)
  · rintro ⟨htime, hodd⟩
    constructor
    · intro c hc c' hc' heq
      obtain hcb | hc := List.mem_cons.mp hc <;> obtain hcb' | hc' := List.mem_cons.mp hc'
      · rw [hcb, hcb']
      · exact absurd (hcb ▸ heq) (hlater c' hc').ne
      · exact absurd (hcb' ▸ heq) (hlater c hc).ne'
      · exact htime c hc c' hc' heq
    · intro c hc hne
      obtain rfl | hc := List.mem_cons.mp hc
      · rw [timesRead_cons, timesRead_eq_zero hlater, if_pos rfl]
        exact odd_one
      · rw [hcount c hc]
        exact hodd c hc (hlast ▸ hne)

/-- A value that is read once more at the end. -/
theorem nothingLost_pair_iff (heq : value b = value a) :
    NothingLost value time b [a] ↔ time b = time a := by
  constructor
  · rintro ⟨htime, -⟩
    exact htime b (by simp) a (by simp) heq
  · intro htime
    constructor
    · simp [htime]
    · intro c hc hne
      obtain rfl | rfl : c = b ∨ c = a := by simpa using hc
      · exact absurd heq hne
      · exact absurd rfl hne

/-- A value that is read twice. -/
theorem nothingLost_cons_cons_of_eq (h : Increasing value time (b :: a :: c :: l))
    (heq : value b = value a) :
    NothingLost value time b (a :: c :: l) ↔
      value b = value c ∧ time b = time c ∧ NothingLost value time c l := by
  have hbc : value b ≤ value c ∧ time b ≤ time c := le_of_increasing h (by simp)
  have hab : time b ≤ time a := (le_of_increasing h (by simp)).2
  have hac : time a ≤ time c := (le_of_increasing (List.Pairwise.of_cons h) (by simp)).2
  have hlater : ∀ d ∈ c :: l, value c ≤ value d := fun d hd =>
    (le_of_increasing (List.Pairwise.of_cons (List.Pairwise.of_cons h)) hd).1
  have hlast : (a :: c :: l).getLastD b = l.getLastD c := by
    rw [List.getLastD_cons, List.getLastD_cons]
  have hparity : ∀ d, Odd (timesRead value (value d) (b :: a :: c :: l)) ↔
      Odd (timesRead value (value d) (c :: l)) := by
    intro d
    rw [timesRead_cons, timesRead_cons, heq, add_assoc, Nat.odd_add]
    split_ifs
    · exact iff_of_eq (by simp)
    · simp
  constructor
  · rintro ⟨htime, hodd⟩
    have hvalue : value b = value c := by
      -- otherwise the value is read twice and then left
      by_contra hne
      have hlt : value b < value c := lt_of_le_of_ne hbc.1 hne
      have hleft : value b ≠ value ((a :: c :: l).getLastD b) := by
        rw [hlast]
        exact (hlt.trans_le (hlater _ getLastD_cons_mem)).ne
      have htwice := hodd b List.mem_cons_self hleft
      rw [timesRead_cons, timesRead_cons,
        timesRead_eq_zero fun d hd => hlt.trans_le (hlater d hd), if_pos rfl,
        if_pos heq.symm] at htwice
      exact absurd htwice (by decide)
    refine ⟨hvalue, htime b (by simp) c (by simp) hvalue,
      fun d hd d' hd' => htime d (by simp [hd]) d' (by simp [hd']), fun d hd hne => ?_⟩
    have hmem : d ∈ b :: a :: c :: l := List.mem_cons_of_mem b (List.mem_cons_of_mem a hd)
    have hcount := hodd d hmem (hlast ▸ hne)
    rwa [hparity d] at hcount
  · rintro ⟨hvalue, htime, hrest, hodd⟩
    have hread : ∀ d ∈ b :: a :: c :: l, ∃ d' ∈ c :: l, value d = value d' ∧ time d = time d' := by
      intro d hd
      obtain rfl | rfl | hd : d = b ∨ d = a ∨ d ∈ c :: l := by simpa using hd
      · exact ⟨c, List.mem_cons_self, hvalue, htime⟩
      · exact ⟨c, List.mem_cons_self, heq ▸ hvalue, by omega⟩
      · exact ⟨d, hd, rfl, rfl⟩
    constructor
    · intro d hd e he hde
      obtain ⟨d', hd', hvd, htd⟩ := hread d hd
      obtain ⟨e', he', hve, hte⟩ := hread e he
      rw [htd, hte]
      exact hrest d' hd' e' he' (hvd.symm.trans (hde.trans hve))
    · intro d hd hne
      obtain ⟨d', hd', hvd, -⟩ := hread d hd
      rw [hparity, hvd]
      exact hodd d' hd' fun hlast' => hne (hlast ▸ hvd.trans hlast')

/-- The increments of both quantities add up to what the quantities grow by. -/
def Telescopes (value time : α → ℕ) (b : α) (l : List α) (incs : List (α × α)) : Prop :=
  total value incs = value (l.getLastD b) - value b ∧
    total time incs = time (l.getLastD b) - time b

/-- **Nothing lost.** -/
theorem telescopes_iff : ∀ {b : α} {l : List α}, Increasing value time (b :: l) →
    (Telescopes value time b l (increments value (some b) l) ↔ NothingLost value time b l)
  | b, [], _ => by
    refine iff_of_true ⟨by simp [increments], by simp [increments]⟩ ⟨?_, ?_⟩
    · simp
    · simp
  | b, [a], h => by
    have hle : value b ≤ value a ∧ time b ≤ time a := le_of_increasing h (by simp)
    obtain hlt | heq := hle.1.lt_or_eq
    · have hone : NothingLost value time b [a] ↔ NothingLost value time a [] :=
        nothingLost_cons_of_lt h hlt
      rw [hone, ← telescopes_iff (List.Pairwise.of_cons h)]
      simp [Telescopes, increments, hlt]
    · rw [nothingLost_pair_iff heq]
      simp [Telescopes, increments, heq]
      omega
  | b, a :: c :: l, h => by
    have htail := List.Pairwise.of_cons h
    have hab : value b ≤ value a ∧ time b ≤ time a := le_of_increasing h (by simp)
    have hlast : value a ≤ value ((c :: l).getLastD a) ∧ time a ≤ time ((c :: l).getLastD a) :=
      le_of_increasing htail getLastD_cons_mem
    obtain hlt | heq := hab.1.lt_or_eq
    · -- the counter has moved: `a` is paired with `b` and is the next baseline
      rw [nothingLost_cons_of_lt h hlt, ← telescopes_iff htail, increments, if_pos hlt, Telescopes,
        Telescopes, total_cons, total_cons, List.getLastD_cons]
      omega
    · -- it has not: `a` is dropped with `b`, and the next baseline is `c`
      have hrest := List.Pairwise.of_cons htail
      have hread := le_of_increasing hrest (getLastD_cons_mem (b := c))
      have hvalue := @total_increments_le _ value c l (some c) value (hrest.imp And.left) (.inr rfl)
      have htime := @total_increments_le _ value c l (some c) time (hrest.imp And.right) (.inr rfl)
      have hac : value a ≤ value c ∧ time a ≤ time c := le_of_increasing htail (by simp)
      rw [nothingLost_cons_cons_of_eq h heq, ← telescopes_iff hrest, increments,
        if_neg heq.not_lt, increments, Telescopes, Telescopes, List.getLastD_cons,
        List.getLastD_cons]
      omega

end Exact

end Thanos
