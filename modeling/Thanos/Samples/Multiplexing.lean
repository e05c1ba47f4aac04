import Thanos.Library.Attempts
import Thanos.Library.RoundRobin
import Thanos.SystemInfo.Topology

/-!
# Multiplexing the counters

There may be more groups of events than hardware counters. The groups then take turns: before
the samples are read, all groups are stopped on all CPUs, and the next ones are started. A call
to the kernel may fail at any point; the main loop goes on then. If too many samples cannot be
read, the sampling is started again.

* **Flags** (`Later`): the flags of the descriptors say which counters run, but for those of which
  a call has failed.
* **Rotations** (`rotate_cases`): a rotation that succeeds shows the next groups on every CPU, and
  no rotation shows more of them than there are counters.
* **Capacity** (`running_le_hwCounters`): there are never more groups running than counters, but
  for those that could not be stopped.
* **Fairness** (`rotations_fair`): every group is counted as often as every other one.
-/

namespace Thanos

/-- `NUM_GROUPS`, with the counters of the default build. -/
def numGroups : ℕ := 8

/-- A group on a CPU, of which only the leader is started and stopped. -/
abbrev CounterKey := ℕ × Cpu

/-- A call of `ioctl` that starts or stops a counter. -/
structure Ioctl where
  on : Bool
  key : CounterKey
  /-- The call succeeds. -/
  ok : Bool

/-- The variables of `perf_event.cpp` that select the counters, and the kernel. -/
structure Counters where
  /-- The file descriptors of the leaders in `all_fds`. -/
  fd : CounterKey → ℤ
  /-- `hw.disabled` of the leaders. -/
  disabled : CounterKey → Bool
  availableCounters : ℕ → Bool
  numAvailableCounters : ℕ
  maxHwCounters : ℕ
  lastHwcEnabled : ℤ
  enableMultiplexing : Bool
  /-- The counters that the kernel runs, of those that are open. -/
  running : CounterKey → Bool
  /-- The calls since the last start of the sampling, the last one first. -/
  calls : List Ioctl

/-- The hardware counters that there are, given `num_cntrs` of the PMUs that are present. -/
def hwCounters (numCntrs : List ℕ) : ℕ :=
  numCntrs.foldl max 0

/-- What `init` finds, and what the kernel answers from then on. -/
structure CounterSetup where
  /-- `pfm_initialize` succeeds. -/
  pfmInitialize : Bool
  /-- `pfm_find_event`, for the event of a group. -/
  pfmFindEvent : ℕ → ℤ
  /-- `perf_event_open`, for the leader of a group on a CPU. -/
  perfEventOpen : CounterKey → ℤ
  /-- The calls of `ioctl`, in their order, that succeed. -/
  ioctl : ℕ → Bool

/-- The program from a start of the sampling to the next one. -/
structure Stretch where
  setup : CounterSetup
  /-- The iterations of the main loop: whether they come to the rotation, or an exception ends
  them before. -/
  iterations : List Bool

namespace Counters

/-- The variables before `init`. -/
def zero : Counters where
  fd _ := 0
  disabled _ := false
  availableCounters _ := false
  numAvailableCounters := 0
  maxHwCounters := 0
  lastHwcEnabled := 0
  enableMultiplexing := false
  running _ := false
  calls := []

section

variable (T : Topology) (ioctl : ℕ → Bool)

/-- A call of `ioctl` that starts or stops a counter. The flag is written before the outcome is
looked at. -/
def control (on : Bool) (k : Counters) (key : CounterKey) : Bool × Counters :=
  let ok := ioctl k.calls.length
  (ok, { k with
    disabled := Function.update k.disabled key !on
    running := if ok then Function.update k.running key on else k.running
    calls := ⟨on, key, ok⟩ :: k.calls })

/-- The body of the inner loops of `disable_counters` and `enable_counters`. -/
def switchCounter (on : Bool) (k : Counters) (key : CounterKey) : Bool × Counters :=
  -- a counter that is not open, or that is as it should be already, is passed over
  if k.fd key = -1 then (true, k)
  else if k.disabled key = !on then (true, k)
  else control ioctl on k key

/-- The inner loops, over the CPUs. -/
def switchGroup (on : Bool) (k : Counters) (group : ℕ) : Bool × Counters :=
  attemptAll (fun k cpu => switchCounter ioctl on k (group, cpu)) k T.cpus

/-- The body of the outer loop of `disable_counters`. -/
def disableGroup (k : Counters) (group : ℕ) : Bool × Counters :=
  if k.availableCounters group then switchGroup T ioctl false k group else (true, k)

/-- `disable_counters`. -/
def disableCounters (k : Counters) : Bool × Counters :=
  attemptAll (disableGroup T ioctl) k (List.range numGroups)

/-- The loop of `enable_counters`, for a number of iterations. -/
def enableFrom (toEnable : ℕ) : ℕ → ℕ → ℕ → Counters → Option (Bool × Counters)
  | 0, _, _, _ => none
  | fuel + 1, i, enabled, k =>
    if enabled < toEnable then
      let group := i % numGroups
      if k.availableCounters group then
        match switchGroup T ioctl true k group with
        | (false, k) => some (false, k)
        | (true, k) =>
          enableFrom toEnable fuel (i + 1) (enabled + 1) { k with lastHwcEnabled := group }
      else enableFrom toEnable fuel (i + 1) enabled k
    else some (true, k)

/-- `enable_counters`. The iterations are enough if any counter is available. -/
def enableCounters (start toEnable : ℕ) (k : Counters) : Option (Bool × Counters) :=
  enableFrom T ioctl toEnable (numGroups * toEnable + 1) start 0 k

/-- `rotate_enabled_counters`. -/
def rotateEnabledCounters (k : Counters) : Option (Bool × Counters) :=
  if k.enableMultiplexing then
    -- the remainder of the language, which is negative for a negative number
    let firstToEnable := ((k.lastHwcEnabled + 1).tmod numGroups).toNat
    match disableCounters T ioctl k with
    | (false, k) => some (false, k)
    | (true, k) =>
      enableCounters T ioctl firstToEnable (min k.maxHwCounters k.numAvailableCounters) k
  else some (true, k)

end

/-! ### Starting -/

/-- The body of the loop of `find_events`. -/
def findEvent (setup : CounterSetup) (k : Counters) (group : ℕ) : Bool × Counters :=
  -- one event that is not found is enough for `init` to fail
  if setup.pfmFindEvent group < 0 then
    (false, { k with availableCounters := Function.update k.availableCounters group false })
  else
    (true, { k with
      availableCounters := Function.update k.availableCounters group true
      numAvailableCounters := k.numAvailableCounters + 1 })

/-- `find_events`. -/
def findEvents (setup : CounterSetup) (k : Counters) : Bool × Counters :=
  attemptAll (findEvent setup) k (List.range numGroups)

/-- `get_pmu_info`, as far as it counts the counters. -/
def getPmuInfo (numCntrs : List ℕ) (k : Counters) : Counters :=
  { k with maxHwCounters := numCntrs.foldl max k.maxHwCounters }

/-- `init_pfm`. No variable is set back before. -/
def initPfm (numCntrs : List ℕ) (setup : CounterSetup) (k : Counters) : Bool × Counters :=
  if setup.pfmInitialize then
    match findEvents setup k with
    | (false, k) => (false, k)
    | (true, k) =>
      let k := getPmuInfo numCntrs k
      (true, if k.maxHwCounters < numGroups then { k with enableMultiplexing := true } else k)
  else (false, k)

/-- `setup_cpu_group` on one counter, which is opened in the disabled state. -/
def openCounter (setup : CounterSetup) (k : Counters) (key : CounterKey) : Bool × Counters :=
  let k := { k with
    fd := Function.update k.fd key (setup.perfEventOpen key)
    disabled := Function.update k.disabled key true }
  -- a leader that cannot be opened ends the program
  if setup.perfEventOpen key = -1 then (false, k)
  else (true, { k with running := Function.update k.running key false })

/-- The loops of `init` over the CPUs and the groups. -/
def openCounters (T : Topology) (setup : CounterSetup) (k : Counters) : Bool × Counters :=
  attemptAll (fun k cpu =>
    attemptAll (fun k group => openCounter setup k (group, cpu)) k (List.range numGroups)) k T.cpus

/-- The end of `init`: the first groups are started. -/
def startCounters (T : Topology) (ioctl : ℕ → Bool) (k : Counters) : Option (Bool × Counters) :=
  let enabled :=
    if k.enableMultiplexing then rotateEnabledCounters T ioctl k
    else enableCounters T ioctl 0 (min k.numAvailableCounters numGroups) k
  enabled.map fun
    | (false, k) => (false, k)
    -- the group enabled last is set as if the first groups had been started
    | (true, k) => (true, { k with lastHwcEnabled := (k.maxHwCounters : ℤ) - 1 })

/-- `init`, which does not succeed either if it ends the program. -/
def init (T : Topology) (numCntrs : List ℕ) (setup : CounterSetup) (k : Counters) :
    Option (Bool × Counters) :=
  match initPfm numCntrs setup k with
  | (false, k) => some (false, k)
  | (true, k) =>
    match openCounters T setup k with
    | (false, k) => some (false, k)
    | (true, k) => startCounters T setup.ioctl k

/-- `end`: the descriptors are closed, and it does not matter any more what their counters do. -/
def endSampling (k : Counters) : Counters :=
  { k with running := fun _ => false, calls := [] }

/-- The states that the rotations of the main loop leave. An iteration that does not come to its
rotation leaves the counters as they are. -/
def rotated (T : Topology) (ioctl : ℕ → Bool) : List Bool → Counters → Option (List Counters)
  | [], _ => some []
  | false :: iterations, k => rotated T ioctl iterations k
  | true :: iterations, k =>
    match rotateEnabledCounters T ioctl k with
    | none => none
    -- after a failure `clean_end` returns, since there are processes in the filter
    | some (_, k) => (rotated T ioctl iterations k).map (k :: ·)

end Counters

/-- The states after the start and after each rotation. If the start fails, the program is over:
`main_loop` ends it, and after `emergency_reboot` no descriptors are left to use. -/
def Stretch.play (T : Topology) (numCntrs : List ℕ) (stretch : Stretch) (k : Counters) :
    Option (Bool × List Counters) :=
  match Counters.init T numCntrs stretch.setup k with
  | none => none
  | some (false, k) => some (false, [k])
  | some (true, k) =>
    (Counters.rotated T stretch.setup.ioctl stretch.iterations k).map fun ks => (true, k :: ks)

namespace Counters

/-- The states in which the sampling is started. -/
inductive AtStart (T : Topology) (numCntrs : List ℕ) : Counters → Prop
  | mainLoop : AtStart T numCntrs zero
  /-- `emergency_reboot` is `end` and then `init`. -/
  | emergencyReboot {k : Counters} {stretch : Stretch} {ks : List Counters}
      (h : AtStart T numCntrs k) (hplay : stretch.play T numCntrs k = some (true, ks)) :
      AtStart T numCntrs (endSampling (ks.getLastD k))

/-- The groups that the kernel runs on a CPU. -/
def runningGroups (k : Counters) (cpu : Cpu) : Finset ℕ :=
  (Finset.range numGroups).filter fun group => k.running (group, cpu) = true

/-- The calls on a CPU that were to stop a counter and failed. -/
def failedStops (k : Counters) (cpu : Cpu) : ℕ :=
  k.calls.countP fun call => !call.on && !call.ok && call.key.2 == cpu

/-- A call has failed since the last start. -/
def Failed (k : Counters) : Prop :=
  ∃ call ∈ k.calls, call.ok = false

/-! ### What a call changes -/

/-- A counter runs as its flag says, or a call that was to change that has failed. -/
def AgreesAt (k : Counters) (key : CounterKey) : Prop :=
  k.running key = (!k.disabled key) ∨ ⟨!k.running key, key, false⟩ ∈ k.calls

/-- After more calls the rest is the same, and the flags still agree with the kernel. -/
structure Later (k k' : Counters) : Prop where
  fd : k'.fd = k.fd
  availableCounters : k'.availableCounters = k.availableCounters
  numAvailableCounters : k'.numAvailableCounters = k.numAvailableCounters
  maxHwCounters : k'.maxHwCounters = k.maxHwCounters
  enableMultiplexing : k'.enableMultiplexing = k.enableMultiplexing
  calls : k.calls <:+ k'.calls
  agreesAt : ∀ key, k.AgreesAt key → k'.AgreesAt key

/-- The flags of a set of counters say that they have been started or stopped. -/
structure Sets (S : Set CounterKey) (on : Bool) (k k' : Counters) : Prop
    extends Later k k' where
  of_mem : ∀ key ∈ S, k'.disabled key = !on
  of_notMem : ∀ key ∉ S, k'.disabled key = k.disabled key

/-- An attempt to start or stop a set of counters. It fails if one of its calls does, and it may
not have come to all of them then. -/
structure Switches (S : Set CounterKey) (on : Bool) (k : Counters) (r : Bool × Counters) :
    Prop where
  sets : ∃ S' ⊆ S, Sets S' on k r.2 ∧ (r.1 = true → S' = S)
  failed : r.1 = false → r.2.Failed

/-- All groups on the CPUs of a list. -/
def cpuKeys (cpus : List Cpu) : Set CounterKey :=
  {key | key.1 < numGroups ∧ key.2 ∈ cpus}

/-- The groups of the program, on the CPUs of the system. -/
def keys (T : Topology) : Set CounterKey :=
  cpuKeys T.cpus

/-- All groups are available, and their counters are open. -/
structure Ready (T : Topology) (k : Counters) : Prop where
  opened : ∀ key ∈ keys T, k.fd key ≠ -1
  available : ∀ group < numGroups, k.availableCounters group = true
  numAvailable : numGroups ≤ k.numAvailableCounters

variable {T : Topology} {ioctl : ℕ → Bool} {k k' k'' : Counters} {on : Bool} {key : CounterKey}
  {group n : ℕ} {cpu : Cpu} {S S' : Set CounterKey} {r : Bool × Counters}

theorem Later.refl (k : Counters) : Later k k :=
  ⟨rfl, rfl, rfl, rfl, rfl, List.suffix_refl _, fun _ => id⟩

theorem Later.trans (h : Later k k') (h' : Later k' k'') : Later k k'' where
  fd := h'.fd.trans h.fd
  availableCounters := h'.availableCounters.trans h.availableCounters
  numAvailableCounters := h'.numAvailableCounters.trans h.numAvailableCounters
  maxHwCounters := h'.maxHwCounters.trans h.maxHwCounters
  enableMultiplexing := h'.enableMultiplexing.trans h.enableMultiplexing
  calls := h.calls.trans h'.calls
  agreesAt key hkey := h'.agreesAt key (h.agreesAt key hkey)

/-- The group that is enabled last is kept in mind. -/
theorem later_withLast (k : Counters) (last : ℤ) : Later k { k with lastHwcEnabled := last } :=
  ⟨rfl, rfl, rfl, rfl, rfl, List.suffix_refl _, fun _ => id⟩

/-- A failure is not forgotten. -/
theorem Failed.later (hfailed : k.Failed) (h : Later k k') : k'.Failed := by
  obtain ⟨call, hcall, hok⟩ := hfailed
  exact ⟨call, h.calls.subset hcall, hok⟩

theorem Ready.later (hready : Ready T k) (h : Later k k') : Ready T k' where
  opened key hkey := by
    rw [h.fd]
    exact hready.opened key hkey
  available g hg := by
    rw [h.availableCounters]
    exact hready.available g hg
  numAvailable := by
    rw [h.numAvailableCounters]
    exact hready.numAvailable

theorem Sets.empty (on : Bool) (k : Counters) : Sets ∅ on k k where
  toLater := .refl k
  of_mem _ hkey := absurd hkey (Set.notMem_empty _)
  of_notMem _ _ := rfl

theorem Sets.union (h : Sets S on k k') (h' : Sets S' on k' k'') : Sets (S ∪ S') on k k'' where
  toLater := h.toLater.trans h'.toLater
  of_mem key hkey := by
    by_cases hlast : key ∈ S'
    · exact h'.of_mem key hlast
    · rw [h'.of_notMem key hlast]
      exact h.of_mem key (hkey.resolve_right hlast)
  of_notMem key hkey := by
    rw [Set.mem_union, not_or] at hkey
    rw [h'.of_notMem key hkey.2, h.of_notMem key hkey.1]

/-- The group that is enabled last is kept in mind. -/
theorem Sets.withLast (h : Sets S on k k') (last : ℤ) :
    Sets S on k { k' with lastHwcEnabled := last } where
  toLater := h.toLater.trans (later_withLast k' last)
  of_mem := h.of_mem
  of_notMem := h.of_notMem

theorem Switches.refl (k : Counters) : Switches ∅ on k (true, k) :=
  ⟨⟨∅, subset_rfl, .empty on k, fun _ => rfl⟩, by simp⟩

theorem Switches.later (h : Switches S on k r) : Later k r.2 := by
  obtain ⟨S', -, hsets, -⟩ := h.sets
  exact hsets.toLater

/-- An attempt that succeeds has come to all counters. -/
theorem Switches.sets_of_true (h : Switches S on k r) (hok : r.1 = true) : Sets S on k r.2 := by
  obtain ⟨S', -, hsets, hall⟩ := h.sets
  exact hall hok ▸ hsets

/-- An attempt that fails has come to some of the counters. -/
theorem Switches.mono (h : Switches S on k r) (hle : S ⊆ S') (hok : r.1 = false) :
    Switches S' on k r := by
  obtain ⟨S'', hsub, hsets, -⟩ := h.sets
  exact ⟨⟨S'', hsub.trans hle, hsets, by simp [hok]⟩, h.failed⟩

/-- One attempt after another that has succeeded. -/
theorem Sets.switches (h : Sets S on k k') (h' : Switches S' on k' r) :
    Switches (S ∪ S') on k r := by
  obtain ⟨S'', hsub, hsets, hall⟩ := h'.sets
  exact ⟨⟨S ∪ S'', Set.union_subset_union_right S hsub, h.union hsets,
    fun hok => by rw [hall hok]⟩, h'.failed⟩

/-- Attempts until one fails, of which each is one to start or stop some of the counters. -/
theorem switches_attemptAll {ι : Type} {f : Counters → ι → Bool × Counters}
    {S : ι → Set CounterKey} (hready : Ready T k) {items : List ι}
    (h : ∀ t, ∀ item ∈ items, Ready T t → Switches (S item) on t (f t item)) :
    Switches {key | ∃ item ∈ items, key ∈ S item} on k (attemptAll f k items) := by
  induction items generalizing k with
  | nil => simpa [attemptAll] using Switches.refl k
  | cons item items ih =>
    have hsplit : {key | ∃ item' ∈ item :: items, key ∈ S item'} =
        S item ∪ {key | ∃ item' ∈ items, key ∈ S item'} := by
      ext key
      simp
    have hfirst : Switches (S item) on k (f k item) := h k item List.mem_cons_self hready
    rw [hsplit]
    cases hok : (f k item).1 with
    | false =>
      have hr : f k item = (false, (f k item).2) := Prod.ext hok rfl
      rw [attemptAll_cons_of_false hok, ← hr]
      exact hfirst.mono Set.subset_union_left hok
    | true =>
      rw [attemptAll_cons_of_true hok]
      have hsets := hfirst.sets_of_true hok
      exact hsets.switches (ih (hready.later hsets.toLater) fun t item' hitem' =>
        h t item' (List.mem_cons_of_mem _ hitem'))

/-! ### One counter, and one group -/

theorem agreesAt_control (h : k.AgreesAt key) (key' : CounterKey) :
    (control ioctl on k key').2.AgreesAt key := by
  unfold control AgreesAt
  dsimp only
  by_cases hkey : key = key'
  · subst hkey
    cases hok : ioctl k.calls.length with
    -- the flag has been written, but the counter is as before
    | false =>
      rw [if_neg Bool.false_ne_true, Function.update_self, Bool.not_not]
      by_cases hon : k.running key = on
      · exact .inl hon
      · have hcall : (!k.running key) = on := (Bool.eq_not.mpr fun heq => hon heq.symm).symm
        exact .inr (hcall ▸ List.mem_cons_self)
    | true =>
      rw [if_pos rfl, Function.update_self, Function.update_self, Bool.not_not]
      exact .inl rfl
  · have hrunning : (if ioctl k.calls.length then Function.update k.running key' on
        else k.running) key = k.running key := by
      split_ifs
      · exact Function.update_of_ne hkey ..
      · rfl
    rw [hrunning, Function.update_of_ne hkey]
    exact h.imp_right (List.mem_cons_of_mem _)

/-- A call writes the flag, whatever it returns. -/
theorem sets_control (ioctl : ℕ → Bool) (on : Bool) (k : Counters) (key : CounterKey) :
    Sets {key} on k (control ioctl on k key).2 where
  fd := rfl
  availableCounters := rfl
  numAvailableCounters := rfl
  maxHwCounters := rfl
  enableMultiplexing := rfl
  calls := List.suffix_cons _ _
  agreesAt _ h := agreesAt_control h key
  of_mem := by
    rintro key rfl
    exact Function.update_self ..
  of_notMem _ hkey := Function.update_of_ne hkey ..

theorem switches_switchCounter (ioctl : ℕ → Bool) (on : Bool) (hopen : k.fd key ≠ -1) :
    Switches {key} on k (switchCounter ioctl on k key) := by
  rw [switchCounter, if_neg hopen]
  split_ifs with hflag
  · refine ⟨⟨{key}, subset_rfl, ⟨.refl k, ?_, fun _ _ => rfl⟩, fun _ => rfl⟩, by simp⟩
    rintro key rfl
    exact hflag
  · refine ⟨⟨{key}, subset_rfl, sets_control ioctl on k key, fun _ => rfl⟩, fun hok => ?_⟩
    exact ⟨⟨on, key, ioctl k.calls.length⟩, List.mem_cons_self, hok⟩

/-- Some groups on all CPUs. -/
def groupsKeys (T : Topology) (groups : List ℕ) : Set CounterKey :=
  {key | key.1 ∈ groups ∧ key.2 ∈ T.cpus}

theorem groupsKeys_nil : groupsKeys T [] = ∅ := by
  ext q
  simp [groupsKeys]

theorem groupsKeys_cons {groups : List ℕ} :
    groupsKeys T (group :: groups) = groupsKeys T [group] ∪ groupsKeys T groups := by
  ext q
  simp only [groupsKeys, Set.mem_ofPred_eq, List.mem_cons, Set.mem_union, List.not_mem_nil,
    or_false]
  tauto

/-- A group is switched on all CPUs, or on some of them if a call fails. -/
theorem switches_switchGroup (ioctl : ℕ → Bool) (on : Bool) (h : Ready T k)
    (hgroup : group < numGroups) :
    Switches (groupsKeys T [group]) on k (switchGroup T ioctl on k group) := by
  have hkeys : groupsKeys T [group] = {key | ∃ cpu ∈ T.cpus, key ∈ ({(group, cpu)} : Set _)} := by
    ext ⟨g, c⟩
    simp only [groupsKeys, Set.mem_ofPred_eq, List.mem_singleton, Set.mem_singleton_iff,
      Prod.mk.injEq]
    constructor
    · rintro ⟨rfl, hc⟩
      exact ⟨c, hc, rfl, rfl⟩
    · rintro ⟨cpu, hcpu, rfl, rfl⟩
      exact ⟨rfl, hcpu⟩
  rw [hkeys]
  exact switches_attemptAll h fun t cpu hcpu ht =>
    switches_switchCounter ioctl on (ht.opened (group, cpu) ⟨hgroup, hcpu⟩)

/-! ### All groups, and the next ones -/

/-- All counters are stopped, or some of them if a call fails. -/
theorem switches_disableCounters (ioctl : ℕ → Bool) (h : Ready T k) :
    Switches (keys T) false k (disableCounters T ioctl k) := by
  have hkeys : keys T =
      {key | ∃ group ∈ List.range numGroups, key ∈ groupsKeys T [group]} := by
    ext q
    simp [groupsKeys, keys, cpuKeys]
  rw [hkeys]
  refine switches_attemptAll h fun t group hmem ht => ?_
  have hgroup : group < numGroups := List.mem_range.mp hmem
  rw [disableGroup, if_pos (ht.available group hgroup)]
  exact switches_switchGroup ioctl false ht hgroup

theorem numGroups_pos : 0 < numGroups := by
  decide

/-- A window of groups, the first of them apart. -/
theorem window_succ {i : ℕ} :
    window id numGroups i (n + 1) = i % numGroups :: window id numGroups (i + 1) n := by
  rw [Nat.add_comm n 1, window_add]
  simp [window]

/-- The loop of `enable_counters` ends. It has started the next groups, or some of the counters
in them if a call fails. -/
theorem enableFrom_cases (ioctl : ℕ → Bool) (h : Ready T k) (i enabled : ℕ)
    {toEnable fuel : ℕ} (hn : toEnable = enabled + n) (hfuel : n < fuel) :
    ∃ r, enableFrom T ioctl toEnable fuel i enabled k = some r ∧
      Switches (groupsKeys T (window id numGroups i n)) true k r ∧
      (r.1 = true → 0 < n → r.2.lastHwcEnabled = ((i + n - 1) % numGroups : ℕ)) := by
  induction n generalizing fuel i enabled k with
  | zero =>
    obtain ⟨fuel, rfl⟩ := Nat.exists_eq_succ_of_ne_zero (by omega : fuel ≠ 0)
    have hstop : ¬ enabled < toEnable := by omega
    refine ⟨(true, k), by rw [enableFrom, if_neg hstop], ?_, fun _ hpos => absurd hpos (by omega)⟩
    simpa [window, groupsKeys_nil] using Switches.refl k
  | succ n ih =>
    obtain ⟨fuel, rfl⟩ := Nat.exists_eq_succ_of_ne_zero (by omega : fuel ≠ 0)
    have hlt : enabled < toEnable := by omega
    have hgroup : i % numGroups < numGroups := Nat.mod_lt _ numGroups_pos
    have hswitches := switches_switchGroup ioctl true h hgroup
    rw [window_succ, groupsKeys_cons, enableFrom, if_pos hlt]
    simp only [h.available _ hgroup, if_true]
    rcases heq : switchGroup T ioctl true k (i % numGroups) with ⟨_ | _, k₁⟩
    · rw [heq] at hswitches
      exact ⟨(false, k₁), rfl, hswitches.mono Set.subset_union_left rfl, by simp⟩
    · -- the group is on, and the loop goes on with the next one
      rw [heq] at hswitches
      have hsets : Sets (groupsKeys T [i % numGroups]) true k
          { k₁ with lastHwcEnabled := (i % numGroups : ℕ) } :=
        (hswitches.sets_of_true rfl).withLast _
      have hfuel' : n < fuel := by omega
      obtain ⟨r, heq', hrest, hlast⟩ :=
        ih (h.later hsets.toLater) (i + 1) (enabled + 1) (by omega) hfuel'
      refine ⟨r, heq', hsets.switches hrest, fun hok _ => ?_⟩
      -- the group enabled last is this one if no others follow
      rcases Nat.eq_zero_or_pos n with rfl | hpos
      · obtain ⟨fuel, rfl⟩ := Nat.exists_eq_succ_of_ne_zero (by omega : fuel ≠ 0)
        have hstop : ¬ enabled + 1 < toEnable := by omega
        rw [enableFrom, if_neg hstop] at heq'
        obtain rfl := Option.some.inj heq'
        simp
      · rw [hlast hok hpos]
        congr 2
        omega

/-- The loop of `enable_counters` makes enough iterations. -/
theorem lt_iterations : n < numGroups * n + 1 := by
  have hle : n ≤ numGroups * n := Nat.le_mul_of_pos_left n numGroups_pos
  omega

/-! ### Rotations -/

/-- The groups that the flags of a CPU say to run. -/
def enabledGroups (k : Counters) (cpu : Cpu) : Finset ℕ :=
  (Finset.range numGroups).filter fun group => k.disabled (group, cpu) = false

/-- On every CPU the flags show the groups of a list, and no others. -/
def Shows (T : Topology) (groups : List ℕ) (k : Counters) : Prop :=
  ∀ key ∈ keys T, k.disabled key = false ↔ key.1 ∈ groups

/-- On no CPU do the flags show more groups than there are counters. -/
def Within (T : Topology) (counters : ℕ) (k : Counters) : Prop :=
  ∀ cpu ∈ T.cpus, (k.enabledGroups cpu).card ≤ counters

/-- The groups that are enabled next, unless there are no counters, start at a position. -/
def NextAt (pos : ℕ) (k : Counters) : Prop :=
  0 < k.maxHwCounters → ((k.lastHwcEnabled + 1).tmod numGroups).toNat = pos % numGroups

/-- The remainder of a number that is not negative. -/
theorem toNat_tmod {a : ℕ} : (((a : ℤ) + 1).tmod numGroups).toNat = (a + 1) % numGroups := by
  rw [← Nat.cast_succ, ← Int.ofNat_tmod, Int.toNat_natCast]

theorem mem_enabledGroups :
    group ∈ k.enabledGroups cpu ↔ group < numGroups ∧ k.disabled (group, cpu) = false := by
  rw [enabledGroups, Finset.mem_filter, Finset.mem_range]

/-- Stopping counters keeps within the hardware. -/
theorem Within.of_sets {counters : ℕ} (h : Within T counters k) (hsets : Sets S false k k') :
    Within T counters k' := by
  intro cpu hcpu
  refine (Finset.card_le_card fun g hg => ?_).trans (h cpu hcpu)
  obtain ⟨hlt, henabled⟩ := mem_enabledGroups.mp hg
  by_cases hmem : (g, cpu) ∈ S
  · rw [hsets.of_mem _ hmem] at henabled
    cases henabled
  · exact mem_enabledGroups.mpr ⟨hlt, hsets.of_notMem _ hmem ▸ henabled⟩

/-- What the flags show after `enable_counters`, if they showed nothing before it. -/
theorem within_of_enabled {pos counters : ℕ} (hle : n ≤ counters)
    (hstopped : ∀ key ∈ keys T, k.disabled key = true)
    (h : Switches (groupsKeys T (window id numGroups pos n)) true k r) :
    Within T counters r.2 := by
  obtain ⟨S', hsub, hsets, -⟩ := h.sets
  intro cpu hcpu
  have hsubset : r.2.enabledGroups cpu ⊆ (window id numGroups pos n).toFinset := by
    intro g hg
    obtain ⟨hlt, henabled⟩ := mem_enabledGroups.mp hg
    have hmem : (g, cpu) ∈ S' := by
      by_contra hnot
      rw [hsets.of_notMem _ hnot, hstopped (g, cpu) ⟨hlt, hcpu⟩] at henabled
      cases henabled
    exact List.mem_toFinset.mpr (hsub hmem).1
  calc (r.2.enabledGroups cpu).card
      ≤ (window id numGroups pos n).toFinset.card := Finset.card_le_card hsubset
    _ ≤ (window id numGroups pos n).length := List.toFinset_card_le _
    _ ≤ counters := by rwa [length_window]

theorem shows_of_enabled {pos : ℕ} (hstopped : ∀ key ∈ keys T, k.disabled key = true)
    (hsets : Sets (groupsKeys T (window id numGroups pos n)) true k k') :
    Shows T (window id numGroups pos n) k' := by
  intro key hkey
  by_cases hmem : key.1 ∈ window id numGroups pos n
  · simp [hsets.of_mem key ⟨hmem, hkey.2⟩, hmem]
  · simp [hsets.of_notMem key fun h => hmem h.1, hstopped key hkey, hmem]

/-- A rotation that succeeds shows the next groups. One that fails has stopped between two
counters, and keeps within the hardware as well. -/
theorem rotate_cases (ioctl : ℕ → Bool) (h : Ready T k)
    (hmultiplexing : k.enableMultiplexing = true) (hless : k.maxHwCounters < numGroups)
    (hwithin : Within T k.maxHwCounters k) :
    ∃ r, rotateEnabledCounters T ioctl k = some r ∧ Later k r.2 ∧
      Within T k.maxHwCounters r.2 ∧ (r.1 = false → r.2.Failed) ∧
      (r.1 = true → ∀ pos, NextAt pos k →
        Shows T (turn numGroups k.maxHwCounters pos 0) r.2 ∧
          NextAt (pos + k.maxHwCounters) r.2) := by
  simp only [rotateEnabledCounters, hmultiplexing, if_true]
  have hdisable := switches_disableCounters ioctl h
  rcases heq₁ : disableCounters T ioctl k with ⟨_ | _, k₁⟩
  · rw [heq₁] at hdisable
    obtain ⟨S', -, hsets, -⟩ := hdisable.sets
    exact ⟨(false, k₁), rfl, hsets.toLater, hwithin.of_sets hsets, hdisable.failed, by simp⟩
  · rw [heq₁] at hdisable
    have hsets₁ : Sets (keys T) false k k₁ := hdisable.sets_of_true rfl
    have hstopped : ∀ key ∈ keys T, k₁.disabled key = true := hsets₁.of_mem
    have hready₁ := h.later hsets₁.toLater
    -- all groups are available, so there are more of them than counters
    have hmin : min k₁.maxHwCounters k₁.numAvailableCounters = k.maxHwCounters := by
      have hall := hready₁.numAvailable
      rw [hsets₁.maxHwCounters, min_eq_left (by omega)]
    simp only [hmin]
    obtain ⟨r, heq, hswitches, hlast⟩ :=
      enableFrom_cases ioctl hready₁ ((k.lastHwcEnabled + 1).tmod numGroups).toNat 0
        (n := k.maxHwCounters) (Nat.zero_add _).symm lt_iterations
    have hlater : Later k r.2 := hsets₁.toLater.trans hswitches.later
    refine ⟨r, heq, hlater, within_of_enabled le_rfl hstopped hswitches, hswitches.failed,
      fun hok pos hnext => ⟨?_, fun hpos' => ?_⟩⟩
    · -- without counters the position does not matter
      have hwindow : turn numGroups k.maxHwCounters pos 0 = window id numGroups
          ((k.lastHwcEnabled + 1).tmod numGroups).toNat k.maxHwCounters := by
        rcases Nat.eq_zero_or_pos k.maxHwCounters with hzero | hpos
        · simp [turn, window, hzero]
        · rw [hnext hpos, window_mod, turn, Nat.zero_mul, Nat.add_zero]
      rw [hwindow]
      exact shows_of_enabled hstopped (hswitches.sets_of_true hok)
    · -- the next rotation begins where this one has stopped
      have hpos : 0 < k.maxHwCounters := by rwa [hlater.maxHwCounters] at hpos'
      rw [hlast hok hpos, hnext hpos, toNat_tmod]
      simp only [numGroups]
      omega

/-- **Rotations** one after another keep within the hardware, and show the groups in turns up to
the first that fails. -/
theorem rotated_cases (ioctl : ℕ → Bool) (h : Ready T k)
    (hmultiplexing : k.enableMultiplexing = true) (hless : k.maxHwCounters < numGroups)
    (hwithin : Within T k.maxHwCounters k) (iterations : List Bool) :
    ∃ ks, rotated T ioctl iterations k = some ks ∧ ks.length = iterations.count true ∧
      (∀ k' ∈ ks, Later k k' ∧ Within T k.maxHwCounters k') ∧
      ∀ pos, NextAt pos k → ∀ i (hi : i < ks.length), ¬ ks[i].Failed →
        Shows T (turn numGroups k.maxHwCounters pos i) ks[i] := by
  induction iterations generalizing k with
  | nil => exact ⟨[], rfl, rfl, by simp, by simp⟩
  | cons rotates iterations ih =>
    cases rotates with
    | false => simpa [rotated] using ih h hmultiplexing hless hwithin
    | true =>
      obtain ⟨⟨ok, k₁⟩, heq₁, hlater, hwithin₁, hfailed, hturn⟩ :=
        rotate_cases ioctl h hmultiplexing hless hwithin
      have hmax := hlater.maxHwCounters
      obtain ⟨ks, heq, hlength, hks, hturns⟩ :=
        ih (h.later hlater) (hlater.enableMultiplexing.trans hmultiplexing) (hmax ▸ hless)
          (hmax ▸ hwithin₁)
      rw [hmax] at hks hturns
      refine ⟨k₁ :: ks, by simp only [rotated, heq₁, heq, Option.map_some],
        by simpa using hlength, ?_, fun pos hnext i hi hnot => ?_⟩
      · rintro k' (_ | ⟨_, hmem⟩)
        · exact ⟨hlater, hwithin₁⟩
        · exact ⟨hlater.trans (hks k' hmem).1, (hks k' hmem).2⟩
      · -- a failure of this rotation would still be known after the later ones
        have hok : ok = true := by
          by_contra hok
          refine hnot ((hfailed (by simpa using hok)).later ?_)
          cases i with
          | zero => exact .refl _
          | succ i => exact (hks _ (List.getElem_mem _)).1
        obtain ⟨hshows, hnext₁⟩ := hturn hok pos hnext
        cases i with
        | zero => exact hshows
        | succ i =>
          rw [turn_succ]
          exact hturns _ hnext₁ i _ hnot

/-! ### The start -/

/-- Nothing runs, and the flags of some counters that are open say so. -/
structure Opened (S : Set CounterKey) (k k' : Counters) : Prop where
  availableCounters : k'.availableCounters = k.availableCounters
  numAvailableCounters : k'.numAvailableCounters = k.numAvailableCounters
  maxHwCounters : k'.maxHwCounters = k.maxHwCounters
  enableMultiplexing : k'.enableMultiplexing = k.enableMultiplexing
  stopped : ∀ key, k'.running key = false
  opened : ∀ key ∈ S, k'.fd key ≠ -1 ∧ k'.disabled key = true

variable {numCntrs : List ℕ} {setup : CounterSetup}

theorem Opened.forget (h : Opened S k k') : Opened ∅ k k' :=
  { h with opened := fun key hkey => absurd hkey (Set.notMem_empty key) }

/-- A counter is opened, or the program ends. Neither starts it. -/
theorem opened_openCounter (h : Opened S k k') :
    ((openCounter setup k' key).1 = true → Opened (S ∪ {key}) k (openCounter setup k' key).2) ∧
      Opened ∅ k (openCounter setup k' key).2 := by
  have hnone : ∀ t : Counters, ∀ q ∈ (∅ : Set CounterKey), t.fd q ≠ -1 ∧ t.disabled q = true :=
    fun _ q hq => absurd hq (Set.notMem_empty q)
  unfold openCounter
  split_ifs with hopen
  · exact ⟨by simp, { h with opened := hnone _ }⟩
  · have hstopped : ∀ q, Function.update k'.running key false q = false := fun q => by
      rw [Function.update_apply, h.stopped q, ite_self]
    refine ⟨fun _ => { h with stopped := hstopped, opened := fun q hq => ?_ },
      { h with stopped := hstopped, opened := hnone _ }⟩
    by_cases hkey : q = key
    · subst hkey
      simp [hopen]
    · simpa [hkey] using h.opened q (hq.resolve_right hkey)

/-- The groups of a CPU are opened. -/
theorem opened_openCpu (h : Opened S k k') {groups : List ℕ} {r : Bool × Counters}
    (hr : attemptAll (fun k group => openCounter setup k (group, cpu)) k' groups = r) :
    (r.1 = true → Opened (S ∪ {key | key.1 ∈ groups ∧ key.2 = cpu}) k r.2) ∧ Opened ∅ k r.2 := by
  have hdone : ∀ done group, {key : CounterKey | key.1 ∈ done ++ [group] ∧ key.2 = cpu} =
      {key : CounterKey | key.1 ∈ done ∧ key.2 = cpu} ∪ {(group, cpu)} := by
    rintro done group
    ext ⟨g, c⟩
    simp only [Set.mem_ofPred_eq, List.mem_append, List.mem_singleton, Set.mem_union,
      Set.mem_singleton_iff, Prod.mk.injEq]
    tauto
  obtain ⟨k₁, heq, hopened⟩ | ⟨pre, group, rest, t, -, ht, hfail, heq⟩ :=
    attemptAll_cases (fun k group => openCounter setup k (group, cpu)) groups
      (P := fun done t => Opened (S ∪ {key | key.1 ∈ done ∧ key.2 = cpu}) k t)
      (by simpa using h) fun done t group _ ht hok => by
        rw [hdone, ← Set.union_assoc]
        exact (opened_openCounter ht).1 hok
  · obtain rfl := hr.symm.trans heq
    exact ⟨fun _ => hopened, hopened.forget⟩
  · obtain rfl := hr.symm.trans heq
    exact ⟨by simp, (opened_openCounter ht).2⟩

/-- All counters are opened. -/
theorem opened_openCounters (T : Topology) (setup : CounterSetup) (h : Opened ∅ k k')
    {r : Bool × Counters} (hr : openCounters T setup k' = r) :
    (r.1 = true → Opened (keys T) k r.2) ∧ Opened ∅ k r.2 := by
  have hdone : ∀ done cpu, cpuKeys (done ++ [cpu]) = cpuKeys done ∪
      {key : CounterKey | key.1 ∈ List.range numGroups ∧ key.2 = cpu} := by
    rintro done cpu
    ext ⟨g, c⟩
    simp only [cpuKeys, Set.mem_ofPred_eq, List.mem_append, List.mem_singleton, Set.mem_union,
      List.mem_range]
    tauto
  have hnone : cpuKeys [] = ∅ := by
    ext q
    simp [cpuKeys]
  obtain ⟨k₁, heq, hopened⟩ | ⟨pre, cpu, rest, t, -, ht, hfail, heq⟩ :=
    attemptAll_cases (fun k cpu => attemptAll (fun k group => openCounter setup k (group, cpu))
        k (List.range numGroups)) T.cpus
      (P := fun done t => Opened (cpuKeys done) k t) (hnone ▸ h) fun done t cpu _ ht hok => by
        rw [hdone]
        exact (opened_openCpu ht rfl).1 hok
  · obtain rfl := hr.symm.trans heq
    exact ⟨fun _ => hopened, hopened.forget⟩
  · obtain rfl := hr.symm.trans heq
    exact ⟨by simp, (opened_openCpu ht rfl).2⟩

/-- What earlier starts may have left of the number of counters. -/
structure Restartable (numCntrs : List ℕ) (k : Counters) : Prop where
  maxHwCounters : k.maxHwCounters ≤ hwCounters numCntrs
  enableMultiplexing : k.enableMultiplexing = true → hwCounters numCntrs < numGroups

/-- Before anything is opened: nothing runs, and what has been found is in the variables. -/
structure Found (numCntrs : List ℕ) (k : Counters) : Prop where
  stopped : ∀ key, k.running key = false
  available : ∀ group < numGroups, k.availableCounters group = true
  numAvailable : numGroups ≤ k.numAvailableCounters
  maxHwCounters : k.maxHwCounters = hwCounters numCntrs
  enableMultiplexing : k.enableMultiplexing = decide (hwCounters numCntrs < numGroups)

theorem Found.restartable (h : Found numCntrs k) : Restartable numCntrs k :=
  ⟨h.maxHwCounters.le, fun hon => of_decide_eq_true (h.enableMultiplexing ▸ hon)⟩

theorem Restartable.of_eq (h : Restartable numCntrs k)
    (hmax : k'.maxHwCounters = k.maxHwCounters)
    (hmultiplexing : k'.enableMultiplexing = k.enableMultiplexing) : Restartable numCntrs k' :=
  ⟨hmax ▸ h.maxHwCounters, hmultiplexing ▸ h.enableMultiplexing⟩

/-- The same counters are found again. -/
theorem maxHwCounters_getPmuInfo (h : Restartable numCntrs k) :
    (getPmuInfo numCntrs k).maxHwCounters = hwCounters numCntrs := by
  have hmax : ∀ m, numCntrs.foldl max m = max m (numCntrs.foldl max 0) := fun m => by
    have hassoc : numCntrs.foldl max (max m 0) = max m (numCntrs.foldl max 0) := List.foldl_assoc
    rwa [Nat.max_zero] at hassoc
  rw [getPmuInfo, hmax]
  exact max_eq_right h.maxHwCounters

/-- `init_pfm`, at the first start or a later one. -/
theorem initPfm_cases (setup : CounterSetup) (h : Restartable numCntrs k)
    (hstopped : ∀ key, k.running key = false) :
    ∃ r, initPfm numCntrs setup k = r ∧ Restartable numCntrs r.2 ∧
      (∀ key, r.2.running key = false) ∧ (r.1 = true → Found numCntrs r.2) := by
  unfold initPfm
  split_ifs with hinitialize
  · obtain ⟨k₁, heq, ⟨havailable, hnum⟩, hstopped₁, hmax, hmultiplexing⟩ |
        ⟨pre, group, rest, t, -, ⟨-, hstopped₁, hmax, hmultiplexing⟩, hfail, heq⟩ :=
      attemptAll_cases (findEvent setup) (List.range numGroups) (s := k)
        (P := fun groups t => ((∀ group ∈ groups, t.availableCounters group = true) ∧
            groups.length ≤ t.numAvailableCounters) ∧
          (∀ key, t.running key = false) ∧ t.maxHwCounters = k.maxHwCounters ∧
            t.enableMultiplexing = k.enableMultiplexing)
        ⟨⟨by simp, Nat.zero_le _⟩, hstopped, rfl, rfl⟩ fun done t group _ ht hok => by
          rw [findEvent] at hok ⊢
          split_ifs at hok ⊢ with hfound
          refine ⟨⟨fun g hg => ?_, by simpa using ht.1.2⟩, ht.2⟩
          by_cases hgroup : g = group
          · simp [hgroup]
          · have hmem : g ∈ done := by simpa [hgroup] using hg
            simpa [hgroup] using ht.1.1 g hmem
    · have hhw : (getPmuInfo numCntrs k₁).maxHwCounters = hwCounters numCntrs :=
        maxHwCounters_getPmuInfo (h.of_eq hmax hmultiplexing)
      have hnum' : numGroups ≤ k₁.numAvailableCounters := by rwa [List.length_range] at hnum
      have hfound : Found numCntrs (if (getPmuInfo numCntrs k₁).maxHwCounters < numGroups then
          { getPmuInfo numCntrs k₁ with enableMultiplexing := true }
          else getPmuInfo numCntrs k₁) := by
        split_ifs with hless
        · rw [hhw] at hless
          exact ⟨hstopped₁, fun g hg => havailable g (List.mem_range.mpr hg), hnum', hhw,
            (decide_eq_true hless).symm⟩
        · rw [hhw] at hless
          refine ⟨hstopped₁, fun g hg => havailable g (List.mem_range.mpr hg), hnum', hhw, ?_⟩
          -- it is not set at an earlier start either
          have hoff : ¬ k.enableMultiplexing = true := fun hon => hless (h.enableMultiplexing hon)
          rw [decide_eq_false hless]
          exact hmultiplexing.trans (Bool.eq_false_iff.mpr hoff)
      refine ⟨_, rfl, ?_⟩
      rw [findEvents, heq]
      exact ⟨hfound.restartable, hfound.stopped, fun _ => hfound⟩
    · refine ⟨_, rfl, ?_⟩
      rw [findEvents, heq]
      rw [findEvent] at hfail ⊢
      split_ifs at hfail ⊢
      exact ⟨h.of_eq hmax hmultiplexing, hstopped₁, by simp⟩
  · exact ⟨_, rfl, h, hstopped, by simp⟩

/-- The first groups are started, or some of the counters in them if a call fails. -/
theorem startCounters_cases (ioctl : ℕ → Bool) (h : Ready T k)
    (hstopped : ∀ key ∈ keys T, k.disabled key = true)
    (hmultiplexing : k.enableMultiplexing = decide (k.maxHwCounters < numGroups)) :
    ∃ r, startCounters T ioctl k = some r ∧ Later k r.2 ∧ Within T k.maxHwCounters r.2 ∧
      (r.1 = true → NextAt k.maxHwCounters r.2) := by
  obtain ⟨r, heq, hlater, hwithin⟩ : ∃ r,
      (if k.enableMultiplexing then rotateEnabledCounters T ioctl k
        else enableCounters T ioctl 0 (min k.numAvailableCounters numGroups) k) = some r ∧
      Later k r.2 ∧ Within T k.maxHwCounters r.2 := by
    by_cases hless : k.maxHwCounters < numGroups
    · have hon : k.enableMultiplexing = true := hmultiplexing.trans (decide_eq_true hless)
      have hnone : Switches (groupsKeys T (window id numGroups 0 0)) true k (true, k) := by
        simpa [window, groupsKeys_nil] using Switches.refl k
      have hwithin : Within T k.maxHwCounters k :=
        within_of_enabled (Nat.zero_le _) hstopped hnone
      obtain ⟨r, heq, hlater, hwithin', -⟩ := rotate_cases ioctl h hon hless hwithin
      exact ⟨r, by rw [if_pos hon, heq], hlater, hwithin'⟩
    · -- there are as many counters as groups: all of them are started, once and for all
      have hoff : ¬ k.enableMultiplexing = true := by simpa [hmultiplexing] using hless
      have hmin : min k.numAvailableCounters numGroups = numGroups := min_eq_right h.numAvailable
      rw [if_neg hoff, hmin]
      obtain ⟨r, heq, hswitches, -⟩ :=
        enableFrom_cases ioctl h 0 0 (n := numGroups) (Nat.zero_add _).symm lt_iterations
      exact ⟨r, heq, hswitches.later, within_of_enabled (by omega) hstopped hswitches⟩
  rw [startCounters]
  simp only [heq, Option.map_some]
  obtain ⟨_ | _, k₁⟩ := r
  · exact ⟨_, rfl, hlater, hwithin, by simp⟩
  · refine ⟨_, rfl, hlater.trans (later_withLast k₁ _), hwithin, fun _ _ => ?_⟩
    -- the position is that of the second turn, whatever group has been enabled last
    have hlast : ((k₁.maxHwCounters : ℤ) - 1 + 1).tmod numGroups =
        (k.maxHwCounters % numGroups : ℕ) := by
      rw [sub_add_cancel, hlater.maxHwCounters, Int.ofNat_tmod]
    rw [hlast, Int.toNat_natCast]

/-- The flags agree with what the kernel runs, and show no more groups than there are counters. -/
structure Accounted (T : Topology) (numCntrs : List ℕ) (k : Counters) : Prop where
  agreesAt : ∀ key ∈ keys T, k.AgreesAt key
  within : Within T (hwCounters numCntrs) k

/-- After a start that has succeeded. -/
structure Started (T : Topology) (numCntrs : List ℕ) (k : Counters) : Prop
    extends Accounted T numCntrs k where
  ready : Ready T k
  maxHwCounters : k.maxHwCounters = hwCounters numCntrs
  enableMultiplexing : k.enableMultiplexing = decide (hwCounters numCntrs < numGroups)
  nextAt : NextAt (hwCounters numCntrs) k

/-- There are no more groups running than counters, but for those that could not be stopped. -/
def Bounded (T : Topology) (numCntrs : List ℕ) (k : Counters) : Prop :=
  ∀ cpu ∈ T.cpus, (k.runningGroups cpu).card ≤ hwCounters numCntrs + k.failedStops cpu

theorem mem_runningGroups :
    group ∈ k.runningGroups cpu ↔ group < numGroups ∧ k.running (group, cpu) = true := by
  rw [runningGroups, Finset.mem_filter, Finset.mem_range]

theorem bounded_of_stopped (h : ∀ key, k.running key = false) : Bounded T numCntrs k := by
  intro cpu _
  have hnone : k.runningGroups cpu = ∅ := by
    ext g
    simp [mem_runningGroups, h]
  rw [hnone, Finset.card_empty]
  exact Nat.zero_le _

theorem Accounted.bounded (h : Accounted T numCntrs k) : Bounded T numCntrs k := by
  intro cpu hcpu
  -- the groups of the calls that failed to stop a counter
  let stuck := k.calls.filter fun call => !call.on && !call.ok && call.key.2 == cpu
  have hsubset : k.runningGroups cpu ⊆
      k.enabledGroups cpu ∪ (stuck.map fun call => call.key.1).toFinset := by
    intro g hg
    obtain ⟨hlt, hrunning⟩ := mem_runningGroups.mp hg
    rw [Finset.mem_union, List.mem_toFinset]
    obtain hagrees | hfailed := h.agreesAt (g, cpu) ⟨hlt, hcpu⟩
    · left
      rw [hrunning] at hagrees
      exact mem_enabledGroups.mpr ⟨hlt, by simpa using hagrees.symm⟩
    · right
      rw [hrunning] at hfailed
      exact List.mem_map.mpr ⟨_, List.mem_filter.mpr ⟨hfailed, by simp⟩, rfl⟩
  calc (k.runningGroups cpu).card
      ≤ (k.enabledGroups cpu ∪ (stuck.map fun call => call.key.1).toFinset).card :=
        Finset.card_le_card hsubset
    _ ≤ (k.enabledGroups cpu).card + (stuck.map fun call => call.key.1).toFinset.card :=
        Finset.card_union_le _ _
    _ ≤ hwCounters numCntrs + k.failedStops cpu := by
        refine Nat.add_le_add (h.within cpu hcpu) ((List.toFinset_card_le _).trans ?_)
        rw [List.length_map, failedStops, List.countP_eq_length_filter]

theorem Accounted.later (h : Accounted T numCntrs k) (hlater : Later k k')
    (hwithin : Within T (hwCounters numCntrs) k') : Accounted T numCntrs k' :=
  ⟨fun key hkey => hlater.agreesAt key (h.agreesAt key hkey), hwithin⟩

/-- As long as no call fails, the counters run that the flags show. -/
theorem Accounted.running_eq_true_iff (h : Accounted T numCntrs k) (hnot : ¬ k.Failed)
    (hkey : key ∈ keys T) : k.running key = true ↔ k.disabled key = false := by
  obtain hagrees | hfailed := h.agreesAt key hkey
  · rw [hagrees, Bool.not_eq_true']
  · exact absurd ⟨_, hfailed, rfl⟩ hnot

/-- `init` returns, and keeps within the hardware. -/
theorem init_cases (T : Topology) (setup : CounterSetup) (h : Restartable numCntrs k)
    (hstopped : ∀ key, k.running key = false) :
    ∃ r, init T numCntrs setup k = some r ∧ Bounded T numCntrs r.2 ∧
      (r.1 = true → Started T numCntrs r.2) := by
  obtain ⟨⟨ok₁, k₁⟩, heq₁, -, hstopped₁, hfound⟩ := initPfm_cases setup h hstopped
  cases ok₁ with
  | false =>
    exact ⟨(false, k₁), by simp only [init, heq₁], bounded_of_stopped hstopped₁, by simp⟩
  | true =>
    have hfound : Found numCntrs k₁ := hfound rfl
    have hnone : Opened ∅ k₁ k₁ :=
      ⟨rfl, rfl, rfl, rfl, hfound.stopped, fun key hkey => absurd hkey (Set.notMem_empty key)⟩
    obtain ⟨hopened, hstopped₂⟩ := opened_openCounters T setup hnone rfl
    rcases heq₂ : openCounters T setup k₁ with ⟨_ | _, k₂⟩
    · rw [heq₂] at hstopped₂
      exact ⟨(false, k₂), by simp only [init, heq₁, heq₂],
        bounded_of_stopped hstopped₂.stopped, by simp⟩
    · have hopen : Opened (keys T) k₁ k₂ := by
        rw [heq₂] at hopened
        exact hopened rfl
      have hready : Ready T k₂ :=
        { opened := fun key hkey => (hopen.opened key hkey).1
          available := fun g hg => by rw [hopen.availableCounters, hfound.available g hg]
          numAvailable := hopen.numAvailableCounters ▸ hfound.numAvailable }
      have hagrees : ∀ key ∈ keys T, k₂.AgreesAt key := fun key hkey =>
        .inl (by rw [hopen.stopped, (hopen.opened key hkey).2, Bool.not_true])
      have hmax : k₂.maxHwCounters = hwCounters numCntrs :=
        hopen.maxHwCounters.trans hfound.maxHwCounters
      have hmultiplexing : k₂.enableMultiplexing = decide (hwCounters numCntrs < numGroups) :=
        hopen.enableMultiplexing.trans hfound.enableMultiplexing
      obtain ⟨r, heq, hlater, hwithin, hnext⟩ := startCounters_cases setup.ioctl hready
        (fun key hkey => (hopen.opened key hkey).2) (hmax ▸ hmultiplexing)
      rw [hmax] at hwithin hnext
      have haccounted : Accounted T numCntrs r.2 :=
        ⟨fun key hkey => hlater.agreesAt key (hagrees key hkey), hwithin⟩
      exact ⟨r, by simp only [init, heq₁, heq₂, heq], haccounted.bounded, fun hok =>
        { toAccounted := haccounted
          ready := hready.later hlater
          maxHwCounters := hlater.maxHwCounters.trans hmax
          enableMultiplexing := hlater.enableMultiplexing.trans hmultiplexing
          nextAt := hnext hok }⟩

/-! ### The main loop -/

/-- Without multiplexing there is nothing to rotate. -/
theorem rotated_of_off (hoff : k.enableMultiplexing = false) (iterations : List Bool) :
    rotated T ioctl iterations k = some (List.replicate (iterations.count true) k) := by
  induction iterations with
  | nil => rfl
  | cons rotates iterations ih =>
    cases rotates with
    | false => simpa [rotated] using ih
    | true => simp [rotated, rotateEnabledCounters, hoff, ih, List.replicate_succ]

/-- The rotations after a start keep within the hardware. -/
theorem Started.rotated (h : Started T numCntrs k) (ioctl : ℕ → Bool) (iterations : List Bool) :
    ∃ ks, rotated T ioctl iterations k = some ks ∧ ks.length = iterations.count true ∧
      ∀ k' ∈ ks, Later k k' ∧ Accounted T numCntrs k' := by
  by_cases hless : hwCounters numCntrs < numGroups
  · have hon : k.enableMultiplexing = true := h.enableMultiplexing.trans (decide_eq_true hless)
    have hmax := h.maxHwCounters
    obtain ⟨ks, heq, hlength, hks, -⟩ :=
      rotated_cases ioctl h.ready hon (hmax ▸ hless) (hmax ▸ h.within) iterations
    refine ⟨ks, heq, hlength, fun k' hk' => ⟨(hks k' hk').1, ?_⟩⟩
    exact h.toAccounted.later (hks k' hk').1 (hmax ▸ (hks k' hk').2)
  · have hoff : k.enableMultiplexing = false := h.enableMultiplexing.trans (decide_eq_false hless)
    refine ⟨_, rotated_of_off hoff iterations, List.length_replicate, fun k' hk' => ?_⟩
    obtain rfl := List.eq_of_mem_replicate hk'
    exact ⟨.refl _, h.toAccounted⟩

theorem Started.restartable (h : Started T numCntrs k) (hlater : Later k k') :
    Restartable numCntrs (endSampling k') where
  maxHwCounters := (hlater.maxHwCounters.trans h.maxHwCounters).le
  enableMultiplexing hon := by
    rw [endSampling, hlater.enableMultiplexing, h.enableMultiplexing] at hon
    exact of_decide_eq_true hon

/-- A stretch of the program: it goes on as long as wanted, and may be followed by another one. -/
theorem play_cases (stretch : Stretch) (h : Restartable numCntrs k)
    (hstopped : ∀ key, k.running key = false) :
    ∃ ok ks, stretch.play T numCntrs k = some (ok, ks) ∧ (∀ k' ∈ ks, Bounded T numCntrs k') ∧
      (ok = true → Restartable numCntrs (endSampling (ks.getLastD k))) := by
  obtain ⟨⟨ok, k₁⟩, heq, hbounded, hstarted⟩ := init_cases T stretch.setup h hstopped
  cases ok with
  | false => exact ⟨false, [k₁], by rw [Stretch.play, heq], by simpa using hbounded, by simp⟩
  | true =>
    have hstart : Started T numCntrs k₁ := hstarted rfl
    obtain ⟨ks, heq', -, hks⟩ := hstart.rotated stretch.setup.ioctl stretch.iterations
    have hplay : stretch.play T numCntrs k = some (true, k₁ :: ks) := by
      simp only [Stretch.play, heq, heq', Option.map_some]
    refine ⟨true, k₁ :: ks, hplay, ?_, fun _ => ?_⟩
    · rintro k' (_ | ⟨_, hmem⟩)
      · exact hbounded
      · exact (hks k' hmem).2.bounded
    · rw [List.getLastD_cons]
      cases hlast : ks.getLast? with
      | none =>
        rw [List.getLastD_eq_getLast?, hlast]
        exact hstart.restartable (.refl _)
      | some k' =>
        rw [List.getLastD_eq_getLast?, hlast]
        exact hstart.restartable (hks k' (List.mem_of_getLast? hlast)).1

/-- However often the sampling is started again, it can be started as at first. -/
theorem AtStart.restartable (h : AtStart T numCntrs k) :
    Restartable numCntrs k ∧ ∀ key, k.running key = false := by
  induction h with
  | mainLoop => exact ⟨⟨Nat.zero_le _, by simp [zero]⟩, fun _ => rfl⟩
  | @emergencyReboot k stretch ks h hplay ih =>
    obtain ⟨ok, ks', heq, -, hrestartable⟩ := play_cases (T := T) stretch ih.1 ih.2
    obtain ⟨rfl, rfl⟩ := Prod.mk.inj (Option.some.inj (heq.symm.trans hplay))
    exact ⟨hrestartable rfl, fun _ => rfl⟩

/-- **Capacity.** Whatever the kernel answers, whichever rotations exceptions skip and however often
the sampling has been started: on no CPU are there ever more groups running than there are hardware
counters, but for one for each call on that CPU, since the last start, that failed to stop a
counter. -/
theorem running_le_hwCounters (h : AtStart T numCntrs k) (stretch : Stretch) :
    ∃ ok ks, stretch.play T numCntrs k = some (ok, ks) ∧ ∀ k' ∈ ks, ∀ cpu ∈ T.cpus,
      (k'.runningGroups cpu).card ≤ hwCounters numCntrs + k'.failedStops cpu := by
  obtain ⟨ok, ks, heq, hbounded, -⟩ := play_cases stretch h.restartable.1 h.restartable.2
  exact ⟨ok, ks, heq, hbounded⟩

/-- A processor with three counters, and calls that succeed or not. -/
def threeCounters (ioctl : ℕ → Bool) : CounterSetup :=
  ⟨true, fun _ => 0, fun _ => 3, ioctl⟩

/-- The first group that is to be stopped, in the first rotation, goes on. An exception skips the
second rotation. -/
def stuckGroup : Stretch :=
  ⟨threeCounters fun i => i != 3, [true, false, true]⟩

/-- The group that could not be stopped runs together with the next three. -/
theorem running_le_hwCounters_stuckGroup :
    (∃ ok ks, stuckGroup.play (.regular 1 1 Nat.one_pos Nat.one_pos) [3] zero = some (ok, ks) ∧
      ∀ k' ∈ ks, ∀ cpu ∈ (Topology.regular 1 1 Nat.one_pos Nat.one_pos).cpus,
        (k'.runningGroups cpu).card ≤ hwCounters [3] + k'.failedStops cpu) ∧
      (stuckGroup.play (.regular 1 1 Nat.one_pos Nat.one_pos) [3] zero).map (fun r =>
        r.2.map fun k' => ((k'.runningGroups 0).card, k'.failedStops 0)) =
          some [(3, 0), (3, 1), (4, 1)] :=
  ⟨running_le_hwCounters .mainLoop stuckGroup, by decide⟩

/-- The groups that run after the rotations. -/
theorem running_iff_mem_turn {stretch : Stretch} (h : AtStart T numCntrs k)
    (hless : hwCounters numCntrs < numGroups) {k₁ : Counters} {ks : List Counters}
    (hplay : stretch.play T numCntrs k = some (true, k₁ :: ks)) :
    ks.length = stretch.iterations.count true ∧
      ∀ i (hi : i < ks.length), ¬ ks[i].Failed → ∀ key ∈ keys T, ks[i].running key = true ↔
        key.1 ∈ turn numGroups (hwCounters numCntrs) (hwCounters numCntrs) i := by
  obtain ⟨⟨ok, k₂⟩, heq, -, hstarted⟩ :=
    init_cases T stretch.setup h.restartable.1 h.restartable.2
  cases ok with
  | false => simp [Stretch.play, heq] at hplay
  | true =>
    have hstart : Started T numCntrs k₂ := hstarted rfl
    have hon : k₂.enableMultiplexing = true :=
      hstart.enableMultiplexing.trans (decide_eq_true hless)
    have hmax := hstart.maxHwCounters
    obtain ⟨ks', heq', hlength, hks, hturns⟩ := rotated_cases stretch.setup.ioctl hstart.ready hon
      (hmax ▸ hless) (hmax ▸ hstart.within) stretch.iterations
    rw [hmax] at hks hturns
    simp only [Stretch.play, heq, heq', Option.map_some, Option.some.injEq, Prod.mk.injEq,
      List.cons.injEq, true_and] at hplay
    obtain ⟨rfl, rfl⟩ := hplay
    refine ⟨hlength, fun i hi hnot key hkey => ?_⟩
    have haccounted : Accounted T numCntrs ks'[i] := hstart.toAccounted.later
      (hks _ (List.getElem_mem hi)).1 (hks _ (List.getElem_mem hi)).2
    rw [haccounted.running_eq_true_iff hnot hkey]
    exact hturns _ hstart.nextAt i hi hnot key hkey

/-- **Fairness.** If there are fewer hardware counters than groups, then of any `NUM_GROUPS`
rotations in a row, each group is counted on each CPU after as many as there are counters; and
no group waits longer than the groups need to pass once. This is so from any start of the sampling
on as long as no call fails. -/
theorem rotations_fair {stretch : Stretch} (h : AtStart T numCntrs k)
    (hless : hwCounters numCntrs < numGroups) {k₁ : Counters} {ks : List Counters}
    (hplay : stretch.play T numCntrs k = some (true, k₁ :: ks))
    (hcpu : cpu ∈ T.cpus) (hgroup : group < numGroups) :
    ks.length = stretch.iterations.count true ∧
      ∀ round, round <:+: ks → (∀ k' ∈ round, ∀ call ∈ k'.calls, call.ok = true) →
        (round.length = numGroups →
          round.countP (fun k' => k'.running (group, cpu)) = hwCounters numCntrs) ∧
        (numGroups ≤ round.length * hwCounters numCntrs →
          ∃ k' ∈ round, k'.running (group, cpu) = true) := by
  obtain ⟨hlength, hrunning⟩ := running_iff_mem_turn h hless hplay
  refine ⟨hlength, fun round hround hok => ?_⟩
  obtain ⟨pre, post, rfl⟩ := hround
  have hturns : ∀ i (hi : i < round.length), round[i].running (group, cpu) = true ↔
      group ∈ turn numGroups (hwCounters numCntrs)
        (hwCounters numCntrs + pre.length * hwCounters numCntrs) i := by
    intro i hi
    have hnot : ¬ round[i].Failed := by
      rintro ⟨call, hcall, hfailed⟩
      rw [hok _ (List.getElem_mem hi) call hcall] at hfailed
      cases hfailed
    have hi' : pre.length + i < (pre ++ round ++ post).length := by
      rw [List.length_append, List.length_append]
      omega
    have hget : (pre ++ round ++ post)[pre.length + i] = round[i] := by
      simp [hi]
    rw [← turn_add, ← hget]
    exact hrunning _ hi' (hget ▸ hnot) (group, cpu) ⟨hgroup, hcpu⟩
  exact ⟨fun hn => countP_of_turns hless.le hgroup hn hturns,
    fun hn => exists_of_turns hless.le hgroup hn hturns⟩

/-- Eight rotations, and an exception that skips one. -/
def eightRotations : Stretch :=
  ⟨threeCounters fun _ => true, [true, true, false, true, true, true, true, true, true]⟩

/-- The states that these rotations leave. -/
def eightStates : List Counters :=
  match eightRotations.play (.regular 1 1 Nat.one_pos Nat.one_pos) [3] zero with
  | some (_, _ :: ks) => ks
  | _ => []

/-- With three counters, the memory samples are taken after three of eight rotations, and wait for
three at most. -/
theorem rotations_fair_eightRotations :
    eightStates.countP (fun k => k.running (0, 0)) = 3 ∧
      ∃ k ∈ eightStates.take 3, k.running (0, 0) = true := by
  have hcpu : 0 ∈ (Topology.regular 1 1 Nat.one_pos Nat.one_pos).cpus :=
    List.mem_range.mpr Nat.one_pos
  have hfair := (rotations_fair .mainLoop (by decide) (rfl : eightRotations.play
    (.regular 1 1 Nat.one_pos Nat.one_pos) [3] zero = some (true, _ :: eightStates)) hcpu
    numGroups_pos).2
  have hok : ∀ k ∈ eightStates, ∀ call ∈ k.calls, call.ok = true := by decide
  exact ⟨(hfair eightStates (List.infix_refl _) hok).1 rfl,
    (hfair (eightStates.take 3) ⟨[], _, List.take_append_drop 3 _⟩ fun k hk =>
      hok k (List.mem_of_mem_take hk)).2 (by decide)⟩

end Counters

end Thanos
