import Mathlib.Data.List.Basic
import Mathlib.Data.List.Infix

/-!
# Runs of a deterministic machine

`run step s ops` performs the operations `ops` one after another from `s`. A property of a run
is a property of the states after each of its prefixes (`AlongRun`), a condition on a run is a
condition on each of its steps, read in the state before the step (`StepsOfRun`).

* **Invariants** (`run_invariant`, `foldlM_invariant`): what holds at the start and is preserved
  by each step holds after every run, also where a step may fail.
* **Loops** (`foldlM_processed`): a loop that never fails ends, with what it has done for each of
  its items.
* **Exact conditions** (`alongRun_iff_stepsOfRun`): if, under an invariant, a step preserves
  `P` exactly when it meets `good`, then `P` holds along the run exactly when all its steps
  meet `good`; `alongRun_and_stepsOfRun_iff` says the same of `P` together with what the steps
  answer.
* **Simulation** (`run_simulates`): a view of the state runs as an abstract machine.
* **Traces** (`mem_trace`, `trace_simulates`): the states in which the operations of a run are
  performed.
* **Frames** (`run_frame`): what every operation but those with a given key leaves alone is
  left alone by a run without that key.
* **Refinement** (`Runs`): programs that perform operations of some kind only, as a relation
  between the states before and after.

`forEach` performs a fallible operation on each of several items, going on after a failure; it
is a run together with the conjunction of the outcomes (`forEach_snd`, `forEach_fst_iff`).
-/

namespace Thanos

universe u v

variable {σ : Type u} {ι : Type v} (step : σ → ι → σ)

/-- The state after performing a list of operations. -/
def run (s : σ) (ops : List ι) : σ :=
  ops.foldl step s

/-- `P` holds at the start, at the end and between any two operations. -/
def AlongRun (P : σ → Prop) (s : σ) (ops : List ι) : Prop :=
  ∀ pre, pre <+: ops → P (run step s pre)

/-- Every operation meets `good` in the state in which it is performed. -/
def StepsOfRun (good : σ → ι → Prop) (s : σ) (ops : List ι) : Prop :=
  ∀ pre op, pre ++ [op] <+: ops → good (run step s pre) op

/-- The operations of a run, each with the state in which it is performed. -/
def trace : σ → List ι → List (σ × ι)
  | _, [] => []
  | s, op :: ops => (s, op) :: trace (step s op) ops

variable {step} {P I : σ → Prop} {good : σ → ι → Prop} {s : σ} {ops : List ι}

@[simp]
theorem run_nil : run step s [] = s :=
  rfl

@[simp]
theorem run_cons {op : ι} : run step s (op :: ops) = run step (step s op) ops :=
  rfl

theorem run_append {ops' : List ι} :
    run step s (ops ++ ops') = run step (run step s ops) ops' :=
  List.foldl_append

@[simp]
theorem run_concat {op : ι} : run step s (ops ++ [op]) = step (run step s ops) op := by
  simp [run]

/-- **Invariants** that the operations of a run preserve. -/
theorem run_invariant_of_mem (hs : I s) (h : ∀ t, ∀ op ∈ ops, I t → I (step t op)) :
    I (run step s ops) := by
  induction ops generalizing s with
  | nil => exact hs
  | cons op ops ih =>
    have hrest := fun t op' hop' => h t op' (List.mem_cons_of_mem op hop')
    exact ih (h s op List.mem_cons_self hs) hrest

/-- **Invariants.** -/
theorem run_invariant (hs : I s) (h : ∀ t op, I t → I (step t op)) :
    I (run step s ops) :=
  run_invariant_of_mem hs fun t op _ => h t op

/-- **Exact conditions** for a property of the states together with one of the steps. -/
theorem alongRun_and_stepsOfRun_iff {answers : σ → ι → Prop} (hs : I s)
    (h : ∀ t op, I t → I (step t op)) (hP : P s)
    (hgood : ∀ t op, I t → P t → (P (step t op) ∧ answers t op ↔ good t op)) :
    AlongRun step P s ops ∧ StepsOfRun step answers s ops ↔ StepsOfRun step good s ops := by
  constructor
  · rintro ⟨hrun, hanswers⟩ pre op hpre
    have hbefore : P (run step s pre) := hrun pre ((List.prefix_append pre [op]).trans hpre)
    have hafter : P (step (run step s pre) op) := by
      simpa only [run_concat] using hrun (pre ++ [op]) hpre
    exact (hgood _ op (run_invariant hs h) hbefore).mp ⟨hafter, hanswers pre op hpre⟩
  · intro hsteps
    have hrun : AlongRun step P s ops := by
      intro pre
      induction pre using List.reverseRecOn with
      | nil => exact fun _ => hP
      | append_singleton pre op ih =>
        intro hpre
        have hbefore : P (run step s pre) := ih ((List.prefix_append pre [op]).trans hpre)
        rw [run_concat]
        exact ((hgood _ op (run_invariant hs h) hbefore).mpr (hsteps pre op hpre)).1
    refine ⟨hrun, fun pre op hpre => ?_⟩
    have hbefore : P (run step s pre) := hrun pre ((List.prefix_append pre [op]).trans hpre)
    exact ((hgood _ op (run_invariant hs h) hbefore).mpr (hsteps pre op hpre)).2

/-- **Exact conditions.** -/
theorem alongRun_iff_stepsOfRun (hs : I s) (h : ∀ t op, I t → I (step t op))
    (hP : P s) (hgood : ∀ t op, I t → P t → (P (step t op) ↔ good t op)) :
    AlongRun step P s ops ↔ StepsOfRun step good s ops := by
  have hiff : AlongRun step P s ops ∧ StepsOfRun step (fun _ _ => True) s ops ↔
      StepsOfRun step good s ops :=
    alongRun_and_stepsOfRun_iff hs h hP fun t op ht hPt =>
      (and_iff_left trivial).trans (hgood t op ht hPt)
  exact (and_iff_left fun _ _ _ => trivial).symm.trans hiff

/-- What no step can restore holds along a run exactly when it holds at the end. -/
theorem alongRun_iff_run (h : ∀ t op, P (step t op) → P t) :
    AlongRun step P s ops ↔ P (run step s ops) := by
  refine ⟨fun hrun => hrun ops (List.prefix_refl ops), fun hend pre hpre => ?_⟩
  obtain ⟨rest, rfl⟩ := hpre
  induction rest using List.reverseRecOn with
  | nil => simpa using hend
  | append_singleton rest op ih =>
    rw [← List.append_assoc, run_concat] at hend
    exact ih (h _ op hend)

/-- **Frames.** A reflexive and transitive relation that holds across every operation with
another key holds across a run without the key. -/
theorem run_frame {κ : Type*} {key : ι → κ} {k : κ} {E : σ → σ → Prop}
    (hrefl : ∀ t, E t t) (htrans : ∀ t u v, E t u → E u v → E t v)
    (hframe : ∀ t op, k ≠ key op → E t (step t op)) (h : k ∉ ops.map key) :
    E s (run step s ops) := by
  induction ops generalizing s with
  | nil => exact hrefl s
  | cons op ops ih =>
    rw [List.map_cons, List.mem_cons, not_or] at h
    exact htrans _ _ _ (hframe s op h.1) (ih h.2)

/-- **Simulation.** A view of the state that every step changes as an abstract machine does. -/
theorem run_simulates {τ : Type*} {step' : τ → ι → τ} (view : σ → τ) (hs : I s)
    (hI : ∀ t, ∀ op ∈ ops, I t → I (step t op))
    (h : ∀ t, ∀ op ∈ ops, I t → view (step t op) = step' (view t) op) :
    view (run step s ops) = run step' (view s) ops := by
  induction ops generalizing s with
  | nil => rfl
  | cons op ops ih =>
    have hop := List.mem_cons_self (a := op) (l := ops)
    rw [run_cons, ih (hI s op hop hs) (fun t op' hop' => hI t op' (List.mem_cons_of_mem op hop'))
      (fun t op' hop' => h t op' (List.mem_cons_of_mem op hop')), h s op hop hs, run_cons]

/-- **Invariants** of a loop whose step may fail. -/
theorem foldlM_invariant {f : σ → ι → Option σ} {r : σ} (hs : I s)
    (h : ∀ t u, ∀ op ∈ ops, I t → f t op = some u → I u) (hr : ops.foldlM f s = some r) : I r := by
  induction ops generalizing s with
  | nil =>
    obtain rfl := Option.some.inj hr
    exact hs
  | cons op ops ih =>
    rw [List.foldlM_cons] at hr
    obtain ⟨t, ht, hrest⟩ := Option.bind_eq_some_iff.mp hr
    exact ih (h s t op List.mem_cons_self hs ht)
      (fun t' u op' hop' => h t' u op' (List.mem_cons_of_mem op hop')) hrest

/-- **Loops** whose step may fail, but does not. What holds of the operations that are done is
carried along. -/
theorem foldlM_processed (ops : List ι) {f : σ → ι → Option σ} {P : List ι → σ → Prop}
    (hs : P [] s)
    (h : ∀ done op rest t, ops = done ++ op :: rest → P done t →
      ∃ u, f t op = some u ∧ P (done ++ [op]) u) :
    ∃ r, ops.foldlM f s = some r ∧ P ops r := by
  have hloop : ∀ rest done t, ops = done ++ rest → P done t →
      ∃ r, rest.foldlM f t = some r ∧ P ops r := by
    intro rest
    induction rest with
    | nil =>
      rintro done t rfl ht
      exact ⟨t, rfl, by rwa [List.append_nil]⟩
    | cons op rest ih =>
      rintro done t hops ht
      obtain ⟨u, hu, hPu⟩ := h done op rest t hops ht
      rw [List.foldlM_cons, hu]
      exact ih (done ++ [op]) u (by rw [hops, List.append_assoc, List.singleton_append]) hPu
  exact hloop ops [] s rfl hs

/-! ### Traces -/

/-- An entry of the trace is an operation with the state after the operations before it. -/
theorem mem_trace {t : σ} {op : ι} :
    (t, op) ∈ trace step s ops ↔ ∃ pre post, ops = pre ++ op :: post ∧ t = run step s pre := by
  induction ops generalizing s with
  | nil => simp [trace]
  | cons op' ops ih =>
    rw [trace, List.mem_cons, ih]
    constructor
    · rintro (heq | ⟨pre, post, rfl, rfl⟩)
      · obtain ⟨rfl, rfl⟩ := Prod.mk.inj heq
        exact ⟨[], ops, rfl, rfl⟩
      · exact ⟨op' :: pre, post, rfl, rfl⟩
    · rintro ⟨pre, post, hops, rfl⟩
      cases pre with
      | nil =>
        obtain ⟨rfl, rfl⟩ := List.cons.inj hops
        exact .inl rfl
      | cons op'' pre =>
        obtain ⟨rfl, rfl⟩ := List.cons.inj hops
        exact .inr ⟨pre, post, rfl, rfl⟩

theorem StepsOfRun.of_mem_trace {t : σ} {op : ι} (h : StepsOfRun step good s ops)
    (ht : (t, op) ∈ trace step s ops) : good t op := by
  obtain ⟨pre, post, rfl, rfl⟩ := mem_trace.mp ht
  exact h pre op ⟨post, (List.append_cons pre op post).symm⟩

theorem exists_mem_trace {op : ι} (h : op ∈ ops) : ∃ t, (t, op) ∈ trace step s ops := by
  obtain ⟨pre, post, hops⟩ := List.append_of_mem h
  exact ⟨run step s pre, mem_trace.mpr ⟨pre, post, hops, rfl⟩⟩

/-- **Simulation** of the states in which the operations are performed. -/
theorem trace_simulates {τ : Type*} {step' : τ → ι → τ} (view : σ → τ)
    (h : ∀ t op, view (step t op) = step' (view t) op) :
    (trace step s ops).map (fun e => (view e.1, e.2)) = trace step' (view s) ops := by
  induction ops generalizing s with
  | nil => rfl
  | cons op ops ih => rw [trace, List.map_cons, ih, h, trace]

/-- An operation that occurs once is performed in one state. -/
theorem trace_state_unique (hops : ops.Nodup) {t u : σ} {op : ι}
    (ht : (t, op) ∈ trace step s ops) (hu : (u, op) ∈ trace step s ops) : t = u := by
  obtain ⟨pre, post, rfl, rfl⟩ := mem_trace.mp ht
  obtain ⟨pre', post', heq, rfl⟩ := mem_trace.mp hu
  -- no other occurrence stands before or after this one
  have hpre : op ∉ pre' := fun hmem =>
    (List.nodup_append.mp (heq ▸ hops)).2.2 op hmem op List.mem_cons_self rfl
  have hpost : op ∉ post' := by
    rw [heq] at hops
    exact (List.nodup_cons.mp (List.nodup_append.mp hops).2.1).1
  obtain ⟨rfl, -, -⟩ := (List.append_cons_inj_of_notMem hpre hpost).mp heq.symm
  rfl

/-- **Invariants** whose preservation depends on the state of the trace. -/
theorem run_invariant_of_trace (hs : I s)
    (h : ∀ t op, (t, op) ∈ trace step s ops → I t → I (step t op)) : I (run step s ops) := by
  induction ops generalizing s with
  | nil => exact hs
  | cons op ops ih =>
    have hrest := fun t op' hop' => h t op' (List.mem_cons_of_mem (s, op) hop')
    exact ih (h s op List.mem_cons_self hs) hrest

/-- What the steps add to a list that the state keeps is added by the run, one step after
another. -/
theorem run_emitted {β : Type*} (out : σ → List β) (emit : σ × ι → List β) (hs : I s)
    (hI : ∀ t, ∀ op ∈ ops, I t → I (step t op))
    (h : ∀ t, ∀ op ∈ ops, I t → out (step t op) = out t ++ emit (t, op)) :
    out (run step s ops) = out s ++ (trace step s ops).flatMap emit := by
  induction ops generalizing s with
  | nil => simp [trace]
  | cons op ops ih =>
    have hop := List.mem_cons_self (a := op) (l := ops)
    rw [run_cons, ih (hI s op hop hs) (fun t op' hop' => hI t op' (List.mem_cons_of_mem op hop'))
      (fun t op' hop' => h t op' (List.mem_cons_of_mem op hop')), h s op hop hs, trace,
      List.flatMap_cons, List.append_assoc]

/-- A loop whose step may fail is a run if, under an invariant, no step fails. -/
theorem foldlM_eq_run {f : σ → ι → Option σ} (hs : I s)
    (h : ∀ t, ∀ op ∈ ops, I t → ∃ u, f t op = some u ∧ I u) :
    ops.foldlM f s = some (run (fun t op => (f t op).getD t) s ops) := by
  induction ops generalizing s with
  | nil => rfl
  | cons op ops ih =>
    obtain ⟨u, hu, hIu⟩ := h s op List.mem_cons_self hs
    rw [List.foldlM_cons, hu, run_cons, hu]
    exact ih hIu fun t op' hop' => h t op' (List.mem_cons_of_mem op hop')

/-! ### Conditions on the steps -/

theorem stepsOfRun_congr {good' : σ → ι → Prop} (h : ∀ t op, good t op ↔ good' t op) :
    StepsOfRun step good s ops ↔ StepsOfRun step good' s ops :=
  forall₃_congr fun pre op _ => h (run step s pre) op

/-- Two machines that make the same steps in a run end it in the same state. -/
theorem run_eq_of_stepsOfRun {step' : σ → ι → σ} (h : ∀ t op, good t op → step t op = step' t op)
    (hops : StepsOfRun step good s ops) : run step s ops = run step' s ops := by
  induction ops using List.reverseRecOn with
  | nil => rfl
  | append_singleton ops op ih =>
    have hbefore : StepsOfRun step good s ops := fun pre op' hpre =>
      hops pre op' (hpre.trans (List.prefix_append ops [op]))
    rw [run_concat, run_concat, ← ih hbefore]
    exact h _ op (hops ops op (List.prefix_refl _))

@[simp]
theorem stepsOfRun_nil : StepsOfRun step good s [] := by
  intro pre op hpre
  simp at hpre

theorem stepsOfRun_cons {op : ι} :
    StepsOfRun step good s (op :: ops) ↔ good s op ∧ StepsOfRun step good (step s op) ops := by
  constructor
  · intro h
    refine ⟨h [] op ⟨ops, rfl⟩, fun pre op' hpre => ?_⟩
    exact h (op :: pre) op' (List.cons_prefix_cons.mpr ⟨rfl, hpre⟩)
  · rintro ⟨hop, hops⟩ pre op' hpre
    cases pre with
    | nil =>
      obtain ⟨rfl, -⟩ := List.cons_prefix_cons.mp hpre
      exact hop
    | cons op'' pre =>
      obtain ⟨rfl, hrest⟩ := List.cons_prefix_cons.mp hpre
      exact hops pre op' hrest

theorem stepsOfRun_append {ops' : List ι} :
    StepsOfRun step good s (ops ++ ops') ↔
      StepsOfRun step good s ops ∧ StepsOfRun step good (run step s ops) ops' := by
  induction ops generalizing s with
  | nil => simp
  | cons op ops ih =>
    rw [List.cons_append, stepsOfRun_cons, stepsOfRun_cons, ih, run_cons, and_assoc]

/-! ### Fallible operations on several items -/

section ForEach

variable {f : ι → σ → Bool × σ} {items : List ι}

/-- Performs `f` on the items one after another and returns whether all of them succeeded. -/
def forEach (f : ι → σ → Bool × σ) (items : List ι) (s : σ) : Bool × σ :=
  items.foldl (fun acc i => (acc.1 && (f i acc.2).1, (f i acc.2).2)) (true, s)

private theorem foldl_and (b : Bool) :
    items.foldl (fun acc i => (acc.1 && (f i acc.2).1, (f i acc.2).2)) (b, s) =
      (b && (forEach f items s).1, (forEach f items s).2) := by
  induction items generalizing b s with
  | nil => simp [forEach]
  | cons i items ih =>
    rw [forEach, List.foldl_cons, List.foldl_cons, ih, ih]
    simp [Bool.and_assoc]

@[simp]
theorem forEach_nil : forEach f [] s = (true, s) :=
  rfl

theorem forEach_cons {i : ι} :
    forEach f (i :: items) s =
      ((f i s).1 && (forEach f items (f i s).2).1, (forEach f items (f i s).2).2) := by
  rw [forEach, List.foldl_cons, foldl_and, Bool.true_and]

/-- The state after performing an operation on several items is that of a run. -/
theorem forEach_snd : (forEach f items s).2 = run (fun s i => (f i s).2) s items := by
  induction items generalizing s with
  | nil => rfl
  | cons i items ih => rw [forEach_cons, run_cons, ← ih]

/-- The operation succeeds on all items exactly when every step of the run succeeds. -/
theorem forEach_fst_iff :
    (forEach f items s).1 = true ↔
      StepsOfRun (fun s i => (f i s).2) (fun s i => (f i s).1 = true) s items := by
  induction items generalizing s with
  | nil => simp
  | cons i items ih => rw [forEach_cons, Bool.and_eq_true, stepsOfRun_cons, ih]

/-- Operations on groups of items are operations on the items of all groups. -/
theorem forEach_flatMap {γ : Type*} (g : γ → List ι) (groups : List γ) :
    forEach (fun c => forEach f (g c)) groups s = forEach f (groups.flatMap g) s := by
  induction groups generalizing s with
  | nil => rfl
  | cons c groups ih =>
    rw [forEach_cons, ih, List.flatMap_cons]
    generalize g c = items
    induction items generalizing s with
    | nil => simp
    | cons i items ih' =>
      rw [forEach_cons, List.cons_append, forEach_cons, ← ih']
      simp [Bool.and_assoc]

end ForEach

/-! ### Refinement -/

section Runs

/-- The second state is reached from the first by operations that are allowed. -/
def Runs (step : σ → ι → σ) (allowed : ι → Prop) (s t : σ) : Prop :=
  ∃ ops, t = run step s ops ∧ ∀ op ∈ ops, allowed op

variable {allowed allowed' : ι → Prop} {s t u : σ}

theorem Runs.refl (s : σ) : Runs step allowed s s :=
  ⟨[], rfl, by simp⟩

theorem Runs.trans (h : Runs step allowed s t) (h' : Runs step allowed t u) :
    Runs step allowed s u := by
  obtain ⟨ops, rfl, hops⟩ := h
  obtain ⟨ops', rfl, hops'⟩ := h'
  refine ⟨ops ++ ops', run_append.symm, fun op hop => ?_⟩
  exact (List.mem_append.mp hop).elim (hops op) (hops' op)

theorem Runs.single {op : ι} (hop : allowed op) : Runs step allowed s (step s op) :=
  ⟨[op], rfl, by simpa using hop⟩

theorem Runs.mono (h : Runs step allowed s t) (hle : ∀ op, allowed op → allowed' op) :
    Runs step allowed' s t := by
  obtain ⟨ops, rfl, hops⟩ := h
  exact ⟨ops, rfl, fun op hop => hle op (hops op hop)⟩

/-- What the allowed operations preserve holds afterwards. -/
theorem Runs.invariant (h : Runs step allowed s t) (hs : I s)
    (hstep : ∀ t op, allowed op → I t → I (step t op)) : I t := by
  obtain ⟨ops, rfl, hops⟩ := h
  exact run_invariant_of_mem hs fun t op hop => hstep t op (hops op hop)

/-- A program that goes on as long as its parts do. -/
theorem Runs.run {κ : Type*} {f : σ → κ → σ} {items : List κ}
    (hf : ∀ i ∈ items, ∀ s, Runs step allowed s (f s i)) :
    Runs step allowed s (Thanos.run f s items) :=
  run_invariant_of_mem (I := Runs step allowed s) (.refl s)
    fun t i hi ht => ht.trans (hf i hi t)

theorem Runs.forEach {κ : Type*} {f : κ → σ → Bool × σ} {items : List κ}
    (hf : ∀ i ∈ items, ∀ s, Runs step allowed s (f i s).2) :
    Runs step allowed s (Thanos.forEach f items s).2 := by
  rw [forEach_snd]
  exact .run hf

end Runs

end Thanos
