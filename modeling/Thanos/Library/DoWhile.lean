import Mathlib.Data.Nat.Notation
import Mathlib.Logic.Function.Iterate
import Mathlib.Logic.Relation

/-!
# Bounded `do … while` loops

`doWhile body fuel s` runs a `do … while` loop whose body returns the new state together with
the loop test, for at most `fuel` iterations. The loop is judged through the states at which
its iterations start (`Reaches`):

* **Result** (`exists_reaches_of_doWhile`, `doWhile_mono`): what a loop returns an iteration that
  is reached leaves it with; more fuel does not change it.
* **Termination** (`terminates_of_measure`): a measure that every continuing iteration lowers,
  required on reached states only.
* **Traces** (`hasTrace_of_continues`): a property of the states at which the iterations start
  is peeled off one iteration after another.
* **Divergence** (`not_terminates_of_trap`): a set of states that every iteration started in it
  continues into again is never left, however large the fuel.
* **Enough fuel** (`Settles.bind`): programs that run several loops one after another.

`whileDo test body fuel s` is a `while` loop, tested before each iteration. If the number of its
iterations is known it leaves the iterated body (`whileDo_eq_iterate`).
-/

namespace Thanos

universe u

variable {σ : Type u} (body : σ → Bool × σ)

/-- A `do … while` loop: `body` returns whether the loop goes on and the new state. The result
is `none` when the fuel runs out. -/
def doWhile : ℕ → σ → Option σ
  | 0, _ => none
  | fuel + 1, s =>
    match body s with
    | (true, s') => doWhile fuel s'
    | (false, s') => some s'

/-- One iteration leads from `s` to `t` and the loop goes on. -/
def Continues (s t : σ) : Prop :=
  body s = (true, t)

/-- An iteration of the loop entered at `s` starts at `t`. -/
def Reaches : σ → σ → Prop :=
  Relation.ReflTransGen (Continues body)

/-- The loop entered at `s` is left after finitely many iterations. -/
def Terminates (s : σ) : Prop :=
  ∃ fuel r, doWhile body fuel s = some r

variable {body} {s t r : σ} {fuel fuel' : ℕ}

theorem doWhile_succ_of_continues (h : Continues body s t) :
    doWhile body (fuel + 1) s = doWhile body fuel t := by
  rw [doWhile, h]

theorem doWhile_succ_of_leaves (h : body s = (false, r)) :
    doWhile body (fuel + 1) s = some r := by
  rw [doWhile, h]

/-- More fuel does not change a result. -/
theorem doWhile_mono (hle : fuel ≤ fuel') (h : doWhile body fuel s = some r) :
    doWhile body fuel' s = some r := by
  induction fuel generalizing s fuel' with
  | zero => simp [doWhile] at h
  | succ fuel ih =>
    obtain ⟨n, rfl⟩ : ∃ n, fuel' = n + 1 := ⟨fuel' - 1, by omega⟩
    rcases hb : body s with ⟨_ | _, t⟩
    · rw [doWhile_succ_of_leaves hb] at h ⊢
      exact h
    · rw [doWhile_succ_of_continues hb] at h ⊢
      exact ih (by omega) h

/-- A result is returned by the last of the reached iterations. -/
theorem exists_reaches_of_doWhile (h : doWhile body fuel s = some r) :
    ∃ t, Reaches body s t ∧ body t = (false, r) := by
  induction fuel generalizing s with
  | zero => simp [doWhile] at h
  | succ fuel ih =>
    rcases hb : body s with ⟨_ | _, t⟩
    · rw [doWhile_succ_of_leaves hb] at h
      exact ⟨s, .refl, by rw [hb, Option.some.inj h]⟩
    · rw [doWhile_succ_of_continues hb] at h
      obtain ⟨u, htu, hu⟩ := ih h
      exact ⟨u, .head hb htu, hu⟩

/-- A loop that is left from its entry is left from each of its iterations. -/
theorem Terminates.of_reaches (h : Terminates body s) (hst : Reaches body s t) :
    Terminates body t := by
  induction hst with
  | refl => exact h
  | tail _ hcont ih =>
    obtain ⟨fuel, r, hr⟩ := ih
    cases fuel with
    | zero => simp [doWhile] at hr
    | succ fuel => exact ⟨fuel, r, by rw [doWhile_succ_of_continues hcont] at hr; exact hr⟩

/-- **Termination.** A measure lowered by every continuing iteration that is reached. -/
theorem terminates_of_measure (μ : σ → ℕ)
    (h : ∀ t u, Reaches body s t → Continues body t u → μ u < μ t) : Terminates body s := by
  induction hn : μ s using Nat.strongRecOn generalizing s with
  | _ n ih =>
    rcases hb : body s with ⟨_ | _, t⟩
    · exact ⟨1, t, doWhile_succ_of_leaves hb⟩
    · have hlt : μ t < n := hn ▸ h s t .refl hb
      obtain ⟨fuel, r, hr⟩ := ih (μ t) hlt (fun u v hu => h u v (.head hb hu)) rfl
      exact ⟨fuel + 1, r, by rw [doWhile_succ_of_continues hb]; exact hr⟩

/-- **Divergence.** A loop entered in a trap, a set of states each of which continues into the
set, is never left. -/
theorem not_terminates_of_trap (trap : σ → Prop)
    (h : ∀ t, trap t → ∃ u, Continues body t u ∧ trap u) (hs : trap s) :
    ¬ Terminates body s := by
  rintro ⟨fuel, r, hr⟩
  induction fuel generalizing s with
  | zero => simp [doWhile] at hr
  | succ fuel ih =>
    obtain ⟨u, hcont, hu⟩ := h s hs
    rw [doWhile_succ_of_continues hcont] at hr
    exact ih hu hr

/-- What the entry satisfies and every continuing iteration preserves holds at each reached
iteration. -/
theorem Reaches.invariant {I : σ → Prop} (hst : Reaches body s t) (hs : I s)
    (h : ∀ t u, I t → Continues body t u → I u) : I t := by
  induction hst with
  | refl => exact hs
  | tail _ hcont ih => exact h _ _ ih hcont

/-! ### Traces -/

/-- The loop together with the states at which its continuing iterations start. -/
def doWhileTrace (body : σ → Bool × σ) : ℕ → σ → Option (List σ × σ)
  | 0, _ => none
  | fuel + 1, s =>
    match body s with
    | (true, s') => (doWhileTrace body fuel s').map fun r => (s :: r.1, r.2)
    | (false, s') => some ([], s')

theorem doWhileTrace_succ_of_continues (h : Continues body s t) :
    doWhileTrace body (fuel + 1) s =
      (doWhileTrace body fuel t).map fun r => (s :: r.1, r.2) := by
  rw [doWhileTrace, h]

theorem doWhileTrace_succ_of_leaves (h : body s = (false, r)) :
    doWhileTrace body (fuel + 1) s = some ([], r) := by
  rw [doWhileTrace, h]

/-- The trace of a loop ends with its result. -/
theorem doWhileTrace_snd : (doWhileTrace body fuel s).map Prod.snd = doWhile body fuel s := by
  induction fuel generalizing s with
  | zero => rfl
  | succ fuel ih =>
    rcases hb : body s with ⟨_ | _, t⟩
    · rw [doWhileTrace_succ_of_leaves hb, doWhile_succ_of_leaves hb]
      rfl
    · rw [doWhileTrace_succ_of_continues hb, doWhile_succ_of_continues hb, ← ih, Option.map_map]
      rfl

/-- The loop entered at `s` is left, with a trace and a result that satisfy `P`. -/
def HasTrace (body : σ → Bool × σ) (s : σ) (P : List σ → σ → Prop) : Prop :=
  ∃ fuel trace r, doWhileTrace body fuel s = some (trace, r) ∧ P trace r

theorem hasTrace_of_leaves {P : List σ → σ → Prop} (h : body s = (false, r)) :
    HasTrace body s P ↔ P [] r := by
  constructor
  · rintro ⟨fuel, trace, r', htrace, hP⟩
    cases fuel with
    | zero => cases htrace
    | succ fuel =>
      rw [doWhileTrace_succ_of_leaves h] at htrace
      obtain ⟨rfl, rfl⟩ := Prod.mk.inj (Option.some.inj htrace)
      exact hP
  · exact fun hP => ⟨1, [], r, doWhileTrace_succ_of_leaves h, hP⟩

theorem hasTrace_of_continues {P : List σ → σ → Prop} (h : Continues body s t) :
    HasTrace body s P ↔ HasTrace body t fun trace r => P (s :: trace) r := by
  constructor
  · rintro ⟨fuel, trace, r, htrace, hP⟩
    cases fuel with
    | zero => cases htrace
    | succ fuel =>
      rw [doWhileTrace_succ_of_continues h] at htrace
      obtain ⟨⟨trace', r'⟩, htrace', heq⟩ := Option.map_eq_some_iff.mp htrace
      obtain ⟨rfl, rfl⟩ := Prod.mk.inj heq
      exact ⟨fuel, trace', r', htrace', hP⟩
  · rintro ⟨fuel, trace, r, htrace, hP⟩
    refine ⟨fuel + 1, s :: trace, r, ?_, hP⟩
    rw [doWhileTrace_succ_of_continues h, htrace]
    rfl

/-! ### Loops tested at the start -/

/-- A `while` loop. The result is `none` when the fuel runs out. -/
def whileDo (test : σ → Bool) (body : σ → σ) : ℕ → σ → Option σ
  | 0, s => if test s then none else some s
  | fuel + 1, s => if test s then whileDo test body fuel (body s) else some s

/-- A loop whose test holds before the first `n` iterations and not after them. -/
theorem whileDo_eq_iterate {test : σ → Bool} {body : σ → σ} {n : ℕ}
    (h : ∀ i < n, test (body^[i] s) = true) (hn : test (body^[n] s) = false) (hle : n ≤ fuel) :
    whileDo test body fuel s = some (body^[n] s) := by
  induction n generalizing s fuel with
  | zero =>
    have htest : test s = false := hn
    cases fuel <;> rw [whileDo, htest] <;> rfl
  | succ n ih =>
    obtain ⟨fuel, rfl⟩ := Nat.exists_eq_add_of_le' (Nat.le_of_add_left_le hle)
    have htest : test s = true := h 0 n.succ_pos
    rw [whileDo, htest, if_pos rfl]
    exact ih (fun i hi => h (i + 1) (by omega)) hn (by omega)

/-! ### Enough fuel -/

section Settles

variable {α β : Type*} {f : ℕ → Option α} {g : ℕ → α → Option β} {a : α} {b : β}

/-- With enough fuel the result is `a`. -/
def Settles (f : ℕ → Option α) (a : α) : Prop :=
  ∃ n, ∀ fuel, n ≤ fuel → f fuel = some a

theorem settles_some : Settles (fun _ => some a) a :=
  ⟨0, fun _ _ => rfl⟩

/-- **Enough fuel** for two programs is enough for one after the other. -/
theorem Settles.bind (h : Settles f a) (h' : Settles (fun fuel => g fuel a) b) :
    Settles (fun fuel => (f fuel).bind (g fuel)) b := by
  obtain ⟨n, hn⟩ := h
  obtain ⟨n', hn'⟩ := h'
  refine ⟨max n n', fun fuel hfuel => ?_⟩
  have hfirst : f fuel = some a := hn fuel (Nat.le_trans (Nat.le_max_left n n') hfuel)
  change (f fuel).bind (g fuel) = some b
  rw [hfirst]
  exact hn' fuel (Nat.le_trans (Nat.le_max_right n n') hfuel)

theorem Settles.map {k : α → β} (h : Settles f a) :
    Settles (fun fuel => (f fuel).map k) (k a) := by
  obtain ⟨n, hn⟩ := h
  exact ⟨n, fun fuel hfuel => congrArg (Option.map k) (hn fuel hfuel)⟩

theorem settles_doWhile (h : doWhile body fuel s = some r) :
    Settles (fun fuel => doWhile body fuel s) r :=
  ⟨fuel, fun _ hfuel => doWhile_mono hfuel h⟩

end Settles

end Thanos
