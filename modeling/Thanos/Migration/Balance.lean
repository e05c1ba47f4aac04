import Mathlib.Data.List.MinMax
import Thanos.Library.DoWhile
import Thanos.Migration.Cell

/-!
# Balancing the number of threads

`balance_CPUs` and `balance_nodes` go over the places, CPUs or nodes, and drain each one that
holds more threads than the threshold with a `do … while` loop. An iteration takes the first
thread of the place and moves it to the place that `closest_less_busy_cpu` or
`closest_less_busy_node` picks. The two levels differ in the tables they read and in the kind
of cell they build (`Level`); everything else is stated once for both.

* **Choice** (`closestLessBusy_some`, `closestLessBusy_none`): what the search returns, in terms
  of the numbers of threads.
* **First choice** (`closestLessBusy_eq`, `lessBusyPlace_found`): which of the possible places it
  is, in the order of the distances.
* **Iterations** (`moveBody_cases`): everything one iteration can do.
* **Sweeps** (`sweep_terminates`, `Iteration.invariant`): the iterations started in the course
  of balancing, over all places.
-/

namespace Thanos

/-- What balancing CPUs and balancing nodes differ in. -/
structure Level (R : Type) where
  /-- `tids_from_cpu` or `tids_from_node`. -/
  tids : System R → ℕ → OrderedSet Pid
  /-- The places in the order in which they are searched from a source. -/
  destinations : ℕ → List ℕ
  /-- The cells are migrations at node level. -/
  node : Bool

variable {R : Type} [RealT R]

namespace Level

/-- CPUs, those of the closest nodes first. -/
def ofCpus (T : Topology) (ignoreIdle : Bool) : Level R where
  tids s := s.tidsFromCpu ignoreIdle
  destinations cpu := T.cpusByDistance (T.cpuNodeMap cpu)
  node := false

/-- Nodes, the closest first. -/
def ofNodes (T : Topology) (ignoreIdle : Bool) : Level R where
  tids s := s.tidsFromNode ignoreIdle
  destinations node := T.nodesByDistance node
  node := true

end Level

/-! ### The search for a less busy place -/

section Choice

variable (size : ℕ → ℕ) (src minTids : ℕ)

/-- The search over the remaining places, with the least busy one so far and its number of
threads. -/
def closestLessBusy : Option (ℕ × ℕ) → List ℕ → Option ℕ
  | best, [] => best.bind fun (place, tids) => if tids < size src then some place else none
  | best, dst :: rest =>
    if dst = src then closestLessBusy best rest
    else if best.all fun (_, tids) => size dst < tids then
      if size dst < minTids then some dst else closestLessBusy (some (dst, size dst)) rest
    else closestLessBusy best rest

/-- The least busy place among those searched so far, none of which is below the threshold. -/
def LeastOf (best : Option (ℕ × ℕ)) (seen : List ℕ) : Prop :=
  (∀ b, best = some b → b.1 ∈ seen ∧ b.1 ≠ src ∧ b.2 = size b.1) ∧
    ∀ c ∈ seen, c ≠ src → minTids ≤ size c ∧ ∃ b, best = some b ∧ b.2 ≤ size c

variable {size src minTids} {best : Option (ℕ × ℕ)} {seen rest : List ℕ} {dst : ℕ}

theorem LeastOf.skip (h : LeastOf size src minTids best seen) :
    LeastOf size src minTids best (seen ++ [src]) := by
  refine ⟨fun b hb => ?_, fun c hc hne => ?_⟩
  · obtain ⟨hmem, hb⟩ := h.1 b hb
    exact ⟨List.mem_append_left _ hmem, hb⟩
  · exact h.2 c ((List.mem_append.mp hc).resolve_right (by simpa using hne)) hne

theorem LeastOf.keep {b : ℕ × ℕ} (h : LeastOf size src minTids (some b) seen)
    (hle : b.2 ≤ size dst) : LeastOf size src minTids (some b) (seen ++ [dst]) := by
  have hmin : minTids ≤ b.2 := by
    obtain ⟨hmem, hne, heq⟩ := h.1 b rfl
    rw [heq]
    exact (h.2 b.1 hmem hne).1
  refine ⟨fun b' hb' => ?_, fun c hc hne => ?_⟩
  · obtain ⟨hmem, hb⟩ := h.1 b' hb'
    exact ⟨List.mem_append_left _ hmem, hb⟩
  · obtain hc | hc := List.mem_append.mp hc
    · exact h.2 c hc hne
    · obtain rfl := List.mem_singleton.mp hc
      exact ⟨hmin.trans hle, b, rfl, hle⟩

theorem LeastOf.take (h : LeastOf size src minTids best seen)
    (hlt : ∀ b, best = some b → size dst < b.2) (hmin : minTids ≤ size dst) (hne : dst ≠ src) :
    LeastOf size src minTids (some (dst, size dst)) (seen ++ [dst]) := by
  refine ⟨fun b hb => ?_, fun c hc hcne => ?_⟩
  · obtain rfl := Option.some.inj hb
    exact ⟨by simp, hne, rfl⟩
  · obtain hc | hc := List.mem_append.mp hc
    · obtain ⟨hmin', b, hb, hle⟩ := h.2 c hc hcne
      exact ⟨hmin', _, rfl, (hlt b hb).le.trans hle⟩
    · obtain rfl := List.mem_singleton.mp hc
      exact ⟨hmin, _, rfl, le_rfl⟩

/-- **Choice.** A place that is picked is below the threshold, or no place is and it is a least
busy one with fewer threads than the source; nothing is picked only if every other place
reaches the threshold and the source. -/
theorem closestLessBusy_spec (h : LeastOf size src minTids best seen) :
    (∀ dst, closestLessBusy size src minTids best rest = some dst →
      dst ∈ seen ++ rest ∧ dst ≠ src ∧ (size dst < minTids ∨
        (∀ c ∈ seen ++ rest, c ≠ src → minTids ≤ size c ∧ size dst ≤ size c) ∧
          size dst < size src)) ∧
    (closestLessBusy size src minTids best rest = none →
      ∀ c ∈ seen ++ rest, c ≠ src → minTids ≤ size c ∧ size src ≤ size c) := by
  induction rest generalizing best seen with
  | nil =>
    rw [List.append_nil]
    refine ⟨fun dst hdst => ?_, fun hnone c hc hne => ?_⟩
    · simp only [closestLessBusy, Option.bind_eq_some_iff, Option.ite_none_right_eq_some,
        Option.some.injEq] at hdst
      obtain ⟨b, hb, hlt, rfl⟩ := hdst
      obtain ⟨hmem, hne, heq⟩ := h.1 b hb
      rw [heq] at hlt
      refine ⟨hmem, hne, .inr ⟨fun c hc hcne => ?_, hlt⟩⟩
      obtain ⟨hmin, b', hb', hle⟩ := h.2 c hc hcne
      obtain rfl : b = b' := Option.some.inj (hb.symm.trans hb')
      exact ⟨hmin, heq ▸ hle⟩
    · obtain ⟨hmin, b, hb, hle⟩ := h.2 c hc hne
      have hge : ¬ b.2 < size src := by simpa [closestLessBusy, hb] using hnone
      exact ⟨hmin, (not_lt.mp hge).trans hle⟩
  | cons dst rest ih =>
    have hshift : seen ++ dst :: rest = (seen ++ [dst]) ++ rest := by simp
    rw [hshift]
    unfold closestLessBusy
    split_ifs with hsrc hbest hmin
    · -- the source itself is passed over
      exact ih (hsrc ▸ h.skip)
    · -- below the threshold the search stops at once
      refine ⟨fun dst' hdst' => ?_, fun hnone => by simp at hnone⟩
      obtain rfl := Option.some.inj hdst'
      exact ⟨by simp, hsrc, .inl hmin⟩
    · refine ih (h.take (fun b hb => ?_) (not_lt.mp hmin) hsrc)
      simpa [hb] using hbest
    · cases best with
      | none => simp at hbest
      | some b => exact ih (h.keep (by simpa using hbest))

private theorem leastOf_nil : LeastOf size src minTids none [] :=
  ⟨fun _ h => absurd h (by simp), fun _ h => absurd h List.not_mem_nil⟩

theorem closestLessBusy_some (h : closestLessBusy size src minTids none rest = some dst) :
    dst ∈ rest ∧ dst ≠ src ∧ (size dst < minTids ∨
      (∀ c ∈ rest, c ≠ src → minTids ≤ size c ∧ size dst ≤ size c) ∧ size dst < size src) :=
  (closestLessBusy_spec leastOf_nil).1 dst h

theorem closestLessBusy_none (h : closestLessBusy size src minTids none rest = none) :
    ∀ c ∈ rest, c ≠ src → minTids ≤ size c ∧ size src ≤ size c :=
  (closestLessBusy_spec leastOf_nil).2 h

/-- A place at the threshold, or below it, that is picked is picked as well after the source has
lost some of its threads, as long as it is above the threshold. -/
theorem closestLessBusy_of_le {size' : ℕ → ℕ} (hother : ∀ c, c ≠ src → size' c = size c)
    (hsrc : minTids < size' src) (hbest : ∀ b, best = some b → b.2 = size b.1)
    (hdst : size dst ≤ minTids) (h : closestLessBusy size src minTids best rest = some dst) :
    closestLessBusy size' src minTids best rest = some dst := by
  induction rest generalizing best with
  | nil =>
    simp only [closestLessBusy, Option.bind_eq_some_iff, Option.ite_none_right_eq_some,
      Option.some.injEq] at h ⊢
    obtain ⟨b, hb, -, rfl⟩ := h
    exact ⟨b, hb, (hbest b hb ▸ hdst).trans_lt hsrc, rfl⟩
  | cons c rest ih =>
    rw [closestLessBusy] at h ⊢
    by_cases hc : c = src
    · rw [if_pos hc] at h ⊢
      exact ih hbest h
    · rw [if_neg hc] at h ⊢
      rw [hother c hc]
      split_ifs at h ⊢ with hless hmin
      · exact h
      · refine ih (fun b hb => ?_) h
        obtain rfl := Option.some.inj hb
        rfl
      · exact ih hbest h

/-- What is looked for: the first place other than the source below the threshold, or else the
first of those with the fewest threads, if it has fewer than the source. -/
def lessBusyPlace (size : ℕ → ℕ) (src minTids : ℕ) (places : List ℕ) : Option ℕ :=
  let others := places.filter (· ≠ src)
  (others.find? fun place => size place < minTids).or
    ((others.argmin size).filter fun place => size place < size src)

theorem argmin_cons_cons {a c : ℕ} {l : List ℕ} :
    (a :: c :: l).argmin size =
      if size c < size a then (c :: l).argmin size else (a :: l).argmin size := by
  unfold List.argmin
  rw [List.foldl_cons, List.foldl_cons, List.foldl_cons, List.foldl_cons]
  simp only [List.argAux]
  split_ifs <;> rfl

/-- The threshold is not shadowed by the minimum, which reaches it as long as the search goes
on. -/
theorem closestLessBusy_eq_of_le {b : ℕ} (hb : minTids ≤ size b) :
    closestLessBusy size src minTids (some (b, size b)) rest =
      ((rest.filter (· ≠ src)).find? fun place => size place < minTids).or
        (((b :: rest.filter (· ≠ src)).argmin size).filter fun place => size place < size src) := by
  induction rest generalizing b with
  | nil =>
    rw [closestLessBusy, Option.bind_some, List.filter_nil, List.find?_nil, Option.none_or,
      List.argmin_singleton]
    simp [Option.filter]
  | cons dst rest ih =>
    rw [closestLessBusy]
    by_cases hsrc : dst = src
    · rw [if_pos hsrc, List.filter_cons_of_neg (by simpa using hsrc), ih hb]
    · rw [if_neg hsrc, List.filter_cons_of_pos (by simpa using hsrc), List.find?_cons,
        argmin_cons_cons]
      by_cases hless : size dst < size b
      · rw [if_pos (by simpa using hless), if_pos hless]
        by_cases hmin : size dst < minTids
        · rw [if_pos hmin, decide_eq_true hmin]
          rfl
        · rw [if_neg hmin, decide_eq_false hmin]
          exact ih (not_lt.mp hmin)
      · have hmin : ¬ size dst < minTids := not_lt.mpr (hb.trans (not_lt.mp hless))
        rw [if_neg (by simpa using hless), if_neg hless, decide_eq_false hmin]
        exact ih hb

/-- **First choice.** The search finds the first place below the threshold, or else the first
least busy one. -/
theorem closestLessBusy_eq :
    closestLessBusy size src minTids none rest = lessBusyPlace size src minTids rest := by
  induction rest with
  | nil => rfl
  | cons dst rest ih =>
    rw [closestLessBusy, lessBusyPlace]
    by_cases hsrc : dst = src
    · rw [if_pos hsrc, List.filter_cons_of_neg (by simpa using hsrc), ih]
      rfl
    · rw [if_neg hsrc, List.filter_cons_of_pos (by simpa using hsrc), if_pos (by rfl),
        List.find?_cons]
      by_cases hmin : size dst < minTids
      · rw [if_pos hmin, decide_eq_true hmin]
        rfl
      · rw [if_neg hmin, decide_eq_false hmin]
        exact closestLessBusy_eq_of_le (not_lt.mp hmin)

end Choice

/-! ### The functions of the source -/

/-- `closest_less_busy_cpu(src_cpu, min_tids_per_cpu, ignore_idle)`. -/
def closestLessBusyCpu (T : Topology) (s : System R) (srcCpu minTidsPerCpu : ℕ)
    (ignoreIdle : Bool) : Option Cpu :=
  closestLessBusy (fun cpu => (s.tidsFromCpu ignoreIdle cpu).size) srcCpu minTidsPerCpu none
    (T.cpusByDistance (T.cpuNodeMap srcCpu))

/-- `closest_less_busy_node(src_node, min_tids_per_node, ignore_idle)`. -/
def closestLessBusyNode (T : Topology) (s : System R) (srcNode minTidsPerNode : ℕ)
    (ignoreIdle : Bool) : Option Node :=
  closestLessBusy (fun node => (s.tidsFromNode ignoreIdle node).size) srcNode minTidsPerNode none
    (T.nodesByDistance srcNode)

namespace Level

/-- `closest_less_busy_cpu` or `closest_less_busy_node`. -/
def closest (L : Level R) (s : System R) (src minTids : ℕ) : Option ℕ :=
  closestLessBusy (fun place => (L.tids s place).size) src minTids none (L.destinations src)

end Level

/-- The state of a balancing loop: the system and the migrations done. -/
abbrev LoopState (R : Type) :=
  System R × List (MigrationCell R)

variable (T : Topology) (settings : Settings R) (perfTable : PerfTable R) (L : Level R)
  (minTids fuel : ℕ)

/-- The cell that moves a thread from one place to another. -/
def balancingCell (s : System R) (tid : Pid) (src dst : ℕ) : MigrationCell R where
  migrations := [{
    tid := tid
    pid := s.pidFromTid tid
    dest := dst
    prev := src
    node := L.node
    prevPerf := perfTable.performance settings s tid }]
  tickets := settings.ticketsFreeCore

/-- The body of the loop of `move_to_less_busy_cpu` and `move_to_less_busy_node`, with the
value of the loop test. -/
def moveBody (src : ℕ) (st : LoopState R) : Bool × LoopState R :=
  match (L.tids st.1 src).begin? with
  -- `tids` is never empty here: the loop is entered and continued above the threshold
  | none => (false, st)
  | some tid =>
    match L.closest st.1 src minTids with
    | none => (false, st)
    | some dst =>
      let migration := balancingCell settings perfTable L st.1 tid src dst
      match migration.migrate T st.1 with
      | (true, s) => (decide (minTids < (L.tids s src).size), s, st.2 ++ [migration])
      | (false, s) => (false, s, st.2)

/-- `move_to_less_busy_cpu` or `move_to_less_busy_node`. -/
def moveToLessBusy (src : ℕ) (s : System R) : Option (LoopState R) :=
  doWhile (moveBody T settings perfTable L minTids src) fuel (s, [])

/-- The loop of `balance_CPUs` and `balance_nodes` over the places. -/
def sweep : List ℕ → LoopState R → Option (LoopState R)
  | [], st => some st
  | src :: places, st =>
    if (L.tids st.1 src).size ≤ minTids then sweep places st
    else
      (moveToLessBusy T settings perfTable L minTids fuel src st.1).bind fun (s, migr) =>
        sweep places (s, st.2 ++ migr)

/-- `balance_CPUs(ignore_idle)`; the result is `none` when the fuel of a loop runs out. -/
def balanceCpus (ignoreIdle : Bool) (s : System R) : Option (LoopState R) :=
  let totalTids := (s.tids T ignoreIdle).size
  if totalTids = 0 then some (s, [])
  else
    sweep T settings perfTable (Level.ofCpus T ignoreIdle) (max (totalTids / T.numOfCpus) 1) fuel
      T.cpus (s, [])

/-- `balance_nodes(ignore_idle)`; the result is `none` when the fuel of a loop runs out. -/
def balanceNodes (ignoreIdle : Bool) (s : System R) : Option (LoopState R) :=
  let totalTids := (s.tids T ignoreIdle).size
  if totalTids = 0 then some (s, [])
  else
    sweep T settings perfTable (Level.ofNodes T ignoreIdle) (max (totalTids / T.numOfNodes) 1)
      fuel T.nodes (s, [])

variable {T settings perfTable L minTids fuel} {s : System R} {src : ℕ} {st u : LoopState R}

theorem closestLessBusyCpu_eq {ignoreIdle : Bool} :
    (Level.ofCpus T ignoreIdle).closest s src minTids =
      closestLessBusyCpu T s src minTids ignoreIdle :=
  rfl

theorem closestLessBusyNode_eq {ignoreIdle : Bool} :
    (Level.ofNodes T ignoreIdle).closest s src minTids =
      closestLessBusyNode T s src minTids ignoreIdle :=
  rfl

/-- `closest_less_busy_cpu` goes over the CPUs of the closest nodes first, and
`closest_less_busy_node` over the closest nodes. -/
theorem lessBusyPlace_found (T : Topology) (s : System R) (minTids : ℕ) (ignoreIdle : Bool) :
    (∀ srcCpu, closestLessBusyCpu T s srcCpu minTids ignoreIdle =
      lessBusyPlace (fun cpu => (s.tidsFromCpu ignoreIdle cpu).size) srcCpu minTids
        (T.cpusByDistance (T.cpuNodeMap srcCpu))) ∧
    ∀ srcNode, closestLessBusyNode T s srcNode minTids ignoreIdle =
      lessBusyPlace (fun node => (s.tidsFromNode ignoreIdle node).size) srcNode minTids
        (T.nodesByDistance srcNode) :=
  ⟨fun _ => closestLessBusy_eq, fun _ => closestLessBusy_eq⟩

/-! ### One iteration -/

/-- An iteration for `src` moves the thread `tid` to `dst`. -/
def Chooses (L : Level R) (minTids src : ℕ) (s : System R) (tid : Pid) (dst : ℕ) : Prop :=
  (L.tids s src).begin? = some tid ∧ L.closest s src minTids = some dst

/-- **One iteration.** It picks nothing and leaves the loop, or it tries to move a thread: on
success it goes on as long as the source is above the threshold, on failure it leaves. -/
theorem moveBody_cases (T : Topology) (settings : Settings R) (perfTable : PerfTable R)
    (hsrc : minTids < (L.tids st.1 src).size) :
    (L.closest st.1 src minTids = none ∧
      moveBody T settings perfTable L minTids src st = (false, st)) ∨
    ∃ tid dst, Chooses L minTids src st.1 tid dst ∧
      (((balancingCell settings perfTable L st.1 tid src dst).migrate T st.1).1 = true ∧
        moveBody T settings perfTable L minTids src st =
          (decide (minTids < (L.tids ((balancingCell settings perfTable L st.1 tid src dst).migrate
            T st.1).2 src).size),
            ((balancingCell settings perfTable L st.1 tid src dst).migrate T st.1).2,
            st.2 ++ [balancingCell settings perfTable L st.1 tid src dst]) ∨
      ((balancingCell settings perfTable L st.1 tid src dst).migrate T st.1).1 = false ∧
        moveBody T settings perfTable L minTids src st =
          (false, ((balancingCell settings perfTable L st.1 tid src dst).migrate T st.1).2,
            st.2)) := by
  obtain ⟨tid, htid⟩ := OrderedSet.exists_begin? (show 0 < (L.tids st.1 src).size by omega)
  unfold moveBody
  rw [htid]
  rcases hdst : L.closest st.1 src minTids with _ | dst
  · exact .inl ⟨rfl, rfl⟩
  · refine .inr ⟨tid, dst, ⟨htid, hdst⟩, ?_⟩
    rcases hmig : (balancingCell settings perfTable L st.1 tid src dst).migrate T st.1 with
      ⟨_ | _, s'⟩
    · exact .inr ⟨rfl, by simp only [hmig]⟩
    · exact .inl ⟨rfl, by simp only [hmig]⟩

/-! ### The iterations of a sweep -/

section Sweep

variable {places pre post : List ℕ} {st₀ r : LoopState R} {fuel' : ℕ}

theorem sweep_append :
    sweep T settings perfTable L minTids fuel (pre ++ post) st =
      (sweep T settings perfTable L minTids fuel pre st).bind
        (sweep T settings perfTable L minTids fuel post) := by
  induction pre generalizing st with
  | nil => rfl
  | cons src pre ih =>
    simp only [List.cons_append, sweep]
    split_ifs
    · exact ih
    · rw [Option.bind_assoc]
      exact Option.bind_congr fun r _ => ih

/-- More fuel does not change the result. -/
theorem sweep_mono (hle : fuel ≤ fuel')
    (h : sweep T settings perfTable L minTids fuel places st = some r) :
    sweep T settings perfTable L minTids fuel' places st = some r := by
  induction places generalizing st with
  | nil => exact h
  | cons src places ih =>
    simp only [sweep] at h ⊢
    split_ifs at h ⊢
    · exact ih h
    · obtain ⟨u, hu, hrest⟩ := Option.bind_eq_some_iff.mp h
      exact Option.bind_eq_some_iff.mpr ⟨u, doWhile_mono hle hu, ih hrest⟩

variable (T settings perfTable L minTids)

/-- In a sweep over `places` entered in the first state, an iteration of the loop for `src`
starts in `u`. -/
def Iteration (places : List ℕ) (st₀ : LoopState R) (src : ℕ) (u : LoopState R) : Prop :=
  ∃ pre post fuel st, places = pre ++ src :: post ∧
    sweep T settings perfTable L minTids fuel pre st₀ = some st ∧
      minTids < (L.tids st.1 src).size ∧
        Reaches (moveBody T settings perfTable L minTids src) (st.1, []) u

variable {T settings perfTable L minTids}

/-- An iteration starts above the threshold. -/
theorem above_of_reaches (h : Reaches (moveBody T settings perfTable L minTids src) st u)
    (hsrc : minTids < (L.tids st.1 src).size) :
    minTids < (L.tids u.1 src).size := by
  refine h.invariant (I := fun u => minTids < (L.tids u.1 src).size) hsrc fun t v ht htv => ?_
  obtain ⟨-, heq⟩ | ⟨tid, dst, -, ⟨-, heq⟩ | ⟨-, heq⟩⟩ := moveBody_cases T settings perfTable ht
  · simp [Continues, heq] at htv
  · rw [Continues, heq, Prod.mk.injEq, decide_eq_true_eq] at htv
    obtain ⟨hsize, rfl⟩ := htv
    exact hsize
  · simp [Continues, heq] at htv

theorem Iteration.above (h : Iteration T settings perfTable L minTids places st₀ src u) :
    minTids < (L.tids u.1 src).size ∧ src ∈ places := by
  obtain ⟨pre, post, fuel, st, rfl, -, hsrc, hreach⟩ := h
  exact ⟨above_of_reaches hreach hsrc, by simp⟩

/-- The iterations for the places that remain are iterations of the whole sweep. -/
theorem Iteration.of_rest {rest : List ℕ} {st₁ : LoopState R}
    (hpre : sweep T settings perfTable L minTids fuel pre st₀ = some st₁)
    (h : Iteration T settings perfTable L minTids rest st₁ src u) :
    Iteration T settings perfTable L minTids (pre ++ rest) st₀ src u := by
  obtain ⟨pre', post, fuel', st, rfl, hst, hsrc, hreach⟩ := h
  refine ⟨pre ++ pre', post, max fuel fuel', st, by simp, ?_, hsrc, hreach⟩
  rw [sweep_append, sweep_mono (le_max_left fuel fuel') hpre]
  exact sweep_mono (le_max_right fuel fuel') hst

/-- A sweep all of whose loops terminate terminates. -/
theorem sweep_terminates
    (h : ∀ src u, Iteration T settings perfTable L minTids places st₀ src u →
      Terminates (moveBody T settings perfTable L minTids src) u) :
    ∃ fuel r, sweep T settings perfTable L minTids fuel places st₀ = some r := by
  induction places generalizing st₀ with
  | nil => exact ⟨0, st₀, rfl⟩
  | cons src places ih =>
    have hfirst : ∃ fuel st₁, sweep T settings perfTable L minTids fuel [src] st₀ = some st₁ := by
      by_cases hsrc : minTids < (L.tids st₀.1 src).size
      · obtain ⟨fuel, r, hr⟩ := h src (st₀.1, []) ⟨[], places, 0, st₀, rfl, rfl, hsrc, .refl⟩
        exact ⟨fuel, (r.1, st₀.2 ++ r.2), by simp [sweep, moveToLessBusy, hr, hsrc]⟩
      · exact ⟨0, st₀, by simp [sweep, not_lt.mp hsrc]⟩
    obtain ⟨fuel, st₁, hst₁⟩ := hfirst
    obtain ⟨fuel', r, hr⟩ := @ih st₁ fun src' u hu => h src' u (Iteration.of_rest hst₁ hu)
    refine ⟨max fuel fuel', r, ?_⟩
    rw [← List.singleton_append, sweep_append, sweep_mono (le_max_left fuel fuel') hst₁]
    exact sweep_mono (le_max_right fuel fuel') hr

/-- After a sweep that returns, each of its loops has been left from each of its iterations. -/
theorem Iteration.terminates (h : Iteration T settings perfTable L minTids places st₀ src u)
    (hr : sweep T settings perfTable L minTids fuel places st₀ = some r) :
    Terminates (moveBody T settings perfTable L minTids src) u := by
  obtain ⟨pre, post, fuel', st, rfl, hst, hsrc, hreach⟩ := h
  have hr' := sweep_mono (le_max_left fuel fuel') hr
  have hst' := sweep_mono (le_max_right fuel fuel') hst
  rw [sweep_append, hst', Option.bind_some, sweep, if_neg (not_le.mpr hsrc)] at hr'
  obtain ⟨v, hv, -⟩ := Option.bind_eq_some_iff.mp hr'
  have hentry : Terminates (moveBody T settings perfTable L minTids src) (st.1, []) := ⟨_, v, hv⟩
  exact hentry.of_reaches hreach

variable {I : System R → Prop}

/-- What every iteration preserves holds at the iterations of a loop. -/
theorem invariant_of_reaches (h : Reaches (moveBody T settings perfTable L minTids src) st u)
    (hs : I st.1) (hsrc : minTids < (L.tids st.1 src).size)
    (hstep : ∀ t : LoopState R, minTids < (L.tids t.1 src).size → I t.1 →
      I (moveBody T settings perfTable L minTids src t).2.1) : I u.1 := by
  refine (h.invariant (I := fun u => minTids < (L.tids u.1 src).size ∧ I u.1)
    ⟨hsrc, hs⟩ fun t v ht htv => ?_).2
  have hIv := hstep t ht.1 ht.2
  rw [htv] at hIv
  exact ⟨above_of_reaches (.single htv) ht.1, hIv⟩

/-- What every iteration preserves holds after a loop. -/
theorem invariant_of_doWhile
    (h : doWhile (moveBody T settings perfTable L minTids src) fuel st = some r)
    (hs : I st.1) (hsrc : minTids < (L.tids st.1 src).size)
    (hstep : ∀ t : LoopState R, minTids < (L.tids t.1 src).size → I t.1 →
      I (moveBody T settings perfTable L minTids src t).2.1) : I r.1 := by
  obtain ⟨t, hreach, ht⟩ := exists_reaches_of_doWhile h
  have hIt : I t.1 := invariant_of_reaches hreach hs hsrc hstep
  have hIr := hstep t (above_of_reaches hreach hsrc) hIt
  rwa [ht] at hIr

/-- What every iteration preserves holds after a sweep. -/
theorem invariant_of_sweep (hs : I st.1)
    (hstep : ∀ src ∈ places, ∀ t : LoopState R, minTids < (L.tids t.1 src).size → I t.1 →
      I (moveBody T settings perfTable L minTids src t).2.1)
    (h : sweep T settings perfTable L minTids fuel places st = some r) : I r.1 := by
  induction places generalizing st with
  | nil =>
    obtain rfl := Option.some.inj h
    exact hs
  | cons src places ih =>
    have hplaces := fun src' h => hstep src' (List.mem_cons_of_mem src h)
    simp only [sweep] at h
    split_ifs at h with hsrc
    · exact ih hs hplaces h
    · obtain ⟨u, hu, hrest⟩ := Option.bind_eq_some_iff.mp h
      have hIu : I u.1 :=
        invariant_of_doWhile hu hs (not_le.mp hsrc) (hstep src List.mem_cons_self)
      exact @ih (u.1, st.2 ++ u.2) hIu hplaces hrest

/-- What every iteration preserves holds at every iteration. -/
theorem Iteration.invariant (h : Iteration T settings perfTable L minTids places st₀ src u)
    (hs : I st₀.1)
    (hstep : ∀ src ∈ places, ∀ t : LoopState R, minTids < (L.tids t.1 src).size → I t.1 →
      I (moveBody T settings perfTable L minTids src t).2.1) : I u.1 := by
  obtain ⟨pre, post, fuel, st, rfl, hst, hsrc, hreach⟩ := h
  have hentry : I st.1 :=
    invariant_of_sweep hs (fun src' h => hstep src' (List.mem_append_left _ h)) hst
  exact invariant_of_reaches hreach hentry hsrc (hstep src (by simp))

end Sweep

end Thanos
