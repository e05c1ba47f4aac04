import Thanos.Library.Grouping
import Thanos.Strategies.MemoryStrategy

/-!
# Gathering the migrations of a batch

`gather_and_perform_migrations` collects the addresses of the cells by process, each address
with the destination of its cell in a second vector, and then asks for all pages of a process in
one call of `move_pages`. The map of the processes is unordered; the order in which it is
visited is an input.

* **Gathering** (`migrationsTuples_eq`): the vectors of a process are those of the pairs of its
  cells.
* **Calls** (`gatherAndPerformMigrations_submits`): there is one call for each process, the calls
  together submit every pair of every cell once, and what is returned and added to
  `total_migrations` is the number of addresses in the calls that succeed.
-/

namespace Thanos

/-- A call of `numa_move_pages`, which asks for the `i`-th page to be moved to the `i`-th node. -/
structure MoveCall where
  pid : Pid
  pages : List Addr
  nodes : List Node

/-- What a call asks for. -/
def MoveCall.pairs (call : MoveCall) : List (Addr × Node) :=
  call.pages.zip call.nodes

/-- The calls issued so far, and the counters of the pages that were moved. -/
structure MoveState where
  calls : List MoveCall
  migratedPages : ℕ
  totalMigrations : ℕ

/-- The answers of the kernel: the calls for some processes fail. -/
abbrev MoveAnswers := Pid → Bool

/-- The loop of `move_pages` that copies the addresses into a vector of pointers. -/
def copyAddresses (addresses : List Addr) : List Addr :=
  run (fun pages e => pages.set e.2 e.1) (List.replicate addresses.length 0) addresses.zipIdx

/-- `move_pages` for several addresses with a node each. -/
def movePages (granted : MoveAnswers) (addresses : List Addr) (pid : Pid) (nodes : List Node)
    (calls : List MoveCall) : Bool × List MoveCall :=
  (granted pid, calls ++ [⟨pid, copyAddresses addresses, nodes⟩])

section

variable {R : Type}

/-- The addresses and nodes gathered for a process, `tuple_t`. -/
abbrev AddressesNodes := List Addr × List Node

/-- The loop over the addresses of a cell. -/
def MemMigrationCell.emplace (migration : MemMigrationCell R) (tuple : AddressesNodes) :
    AddressesNodes :=
  run (fun tuple addr => (tuple.1 ++ [addr], tuple.2 ++ [migration.dst])) tuple migration.addr

/-- The loop over the cells, which fills `migrations_tuples`. -/
def migrationsTuples (migrations : List (MemMigrationCell R)) : Pid → Option AddressesNodes :=
  run (fun tuples migration => upsert ([], []) migration.pid migration.emplace tuples)
    (fun _ => none) migrations

/-- An iteration of the loop over `migrations_tuples`. -/
def performTuple (granted : MoveAnswers) (tuples : Pid → Option AddressesNodes) (s : MoveState)
    (pid : Pid) : MoveState :=
  match tuples pid with
  | none => s
  | some (addresses, nodes) =>
    let (moved, calls) := movePages granted addresses pid nodes s.calls
    if moved then
      { calls
        migratedPages := s.migratedPages + addresses.length
        totalMigrations := s.totalMigrations + addresses.length }
    else { s with calls }

/-- `gather_and_perform_migrations`, visiting the processes in the given order. It returns
`migratedPages`. -/
def gatherAndPerformMigrations (granted : MoveAnswers) (migrations : List (MemMigrationCell R))
    (order : List Pid) (totalMigrations : ℕ) : MoveState :=
  run (performTuple granted (migrationsTuples migrations)) ⟨[], 0, totalMigrations⟩ order

/-- The cells of a process. -/
def cellsOf (migrations : List (MemMigrationCell R)) (pid : Pid) : List (MemMigrationCell R) :=
  migrations.filter fun migration => migration.pid = pid

/-- The pairs of a cell, with its process. -/
def MemMigrationCell.requests (migration : MemMigrationCell R) : List (Pid × Addr × Node) :=
  migration.pairs.map (Prod.mk migration.pid)

/-- What a call asks for, with its process. -/
def MoveCall.requests (call : MoveCall) : List (Pid × Addr × Node) :=
  call.pairs.map (Prod.mk call.pid)

/-- The calls submit the pairs of the cells, and the counters count what was moved. -/
structure Submits (granted : MoveAnswers) (migrations : List (MemMigrationCell R))
    (totalMigrations : ℕ) (s : MoveState) : Prop where
  /-- There is a single call for each process. -/
  nodup : (s.calls.map MoveCall.pid).Nodup
  mem_iff : ∀ pid, pid ∈ s.calls.map MoveCall.pid ↔ ∃ m ∈ migrations, m.pid = pid
  /-- Pages and nodes are aligned. -/
  aligned : ∀ call ∈ s.calls, call.pages.length = call.nodes.length
  /-- A call asks for the pairs of the cells of its process, in their order. -/
  pairs : ∀ call ∈ s.calls, call.pairs = batch (cellsOf migrations call.pid)
  /-- Every pair of every cell is submitted exactly once. -/
  once : (s.calls.flatMap MoveCall.requests).Perm (migrations.flatMap MemMigrationCell.requests)
  /-- The addresses of the processes whose call succeeded are counted. -/
  migrated : s.migratedPages = (batch (migrations.filter fun m => granted m.pid)).length
  total : s.totalMigrations = totalMigrations + s.migratedPages

/-! ### Gathering -/

/-- A vector that is filled by position is the list it is filled from. -/
theorem run_set_zipIdx (a : Addr) (pre addresses : List Addr) :
    run (fun pages e => pages.set e.2 e.1) (pre ++ List.replicate addresses.length a)
      (addresses.zipIdx pre.length) = pre ++ addresses := by
  induction addresses generalizing pre with
  | nil => simp
  | cons addr addresses ih =>
    have hset : (pre ++ List.replicate (addresses.length + 1) a).set pre.length addr =
        (pre ++ [addr]) ++ List.replicate addresses.length a := by
      simp [List.replicate_succ]
    have hih := ih (pre ++ [addr])
    rw [List.length_append, List.length_singleton] at hih
    rw [List.zipIdx_cons, run_cons, List.length_cons, hset, hih, List.append_assoc]
    rfl

@[simp]
theorem copyAddresses_eq (addresses : List Addr) : copyAddresses addresses = addresses :=
  run_set_zipIdx 0 [] addresses

variable {granted : MoveAnswers} {migrations : List (MemMigrationCell R)} {order : List Pid}
  {totalMigrations : ℕ}

/-- A cell adds its pairs. -/
theorem MemMigrationCell.emplace_eq (migration : MemMigrationCell R) (pairs : List (Addr × Node)) :
    migration.emplace pairs.unzip = (pairs ++ migration.pairs).unzip := by
  have hloop : ∀ (addr : List Addr) (pairs : List (Addr × Node)),
      run (fun tuple addr => (tuple.1 ++ [addr], tuple.2 ++ [migration.dst])) pairs.unzip addr =
        (pairs ++ addr.map fun addr => (addr, migration.dst)).unzip := by
    intro addr
    induction addr with
    | nil => simp
    | cons a addr ih =>
      intro pairs
      have hstep := ih (pairs ++ [(a, migration.dst)])
      simp only [List.unzip_eq_map, List.map_append, List.map_cons, List.map_nil,
        List.append_assoc, List.cons_append, List.nil_append] at hstep ⊢
      exact hstep
  exact hloop migration.addr pairs

/-- Some cells add their pairs. -/
theorem run_emplace (migrations : List (MemMigrationCell R)) :
    run (fun tuple migration => migration.emplace tuple) ([], []) migrations =
      (batch migrations).unzip := by
  induction migrations using List.reverseRecOn with
  | nil => rfl
  | append_singleton migrations migration ih =>
    rw [run_concat, ih, MemMigrationCell.emplace_eq, batch, batch, List.flatMap_append,
      List.flatMap_singleton]

/-- **Gathering.** -/
theorem migrationsTuples_eq (pid : Pid) :
    migrationsTuples migrations pid =
      if cellsOf migrations pid = [] then none
      else some (batch (cellsOf migrations pid)).unzip := by
  rw [migrationsTuples, run_upsert, Option.getD_none, ← cellsOf, run_emplace]

/-! ### Calls -/

/-- The call for a process. -/
def callFor (migrations : List (MemMigrationCell R)) (pid : Pid) : MoveCall :=
  ⟨pid, (batch (cellsOf migrations pid)).unzip.1, (batch (cellsOf migrations pid)).unzip.2⟩

theorem pairs_callFor (pid : Pid) :
    (callFor migrations pid).pairs = batch (cellsOf migrations pid) := by
  rw [MoveCall.pairs, callFor, List.zip_unzip]

/-- The requests of the call are those of the cells. -/
theorem requests_callFor (pid : Pid) :
    (callFor migrations pid).requests =
      (cellsOf migrations pid).flatMap MemMigrationCell.requests := by
  rw [MoveCall.requests, pairs_callFor, batch, List.map_flatMap]
  refine List.flatMap_congr fun migration hmigration => ?_
  have hpid : migration.pid = pid := by simpa using (List.mem_filter.mp hmigration).2
  rw [MemMigrationCell.requests, hpid]
  rfl

/-- The loop issues the calls one after another and counts the addresses of those granted. -/
theorem run_performTuple (horder : ∀ pid ∈ order, cellsOf migrations pid ≠ []) (s : MoveState) :
    run (performTuple granted (migrationsTuples migrations)) s order =
      let moved := ((order.filter fun pid => granted pid).flatMap fun pid =>
        batch (cellsOf migrations pid)).length
      ⟨s.calls ++ order.map (callFor migrations), s.migratedPages + moved,
        s.totalMigrations + moved⟩ := by
  induction order generalizing s with
  | nil => simp
  | cons pid order ih =>
    obtain ⟨hpid, hrest⟩ := List.forall_mem_cons.mp horder
    have hstep : performTuple granted (migrationsTuples migrations) s pid =
        let moved := if granted pid then (batch (cellsOf migrations pid)).length else 0
        ⟨s.calls ++ [callFor migrations pid], s.migratedPages + moved,
          s.totalMigrations + moved⟩ := by
      rw [performTuple, migrationsTuples_eq, if_neg hpid]
      by_cases hgranted : granted pid = true <;> simp [movePages, callFor, hgranted]
    rw [run_cons, hstep, ih hrest]
    by_cases hgranted : granted pid = true <;> simp [hgranted, Nat.add_assoc]

/-- **Calls.** -/
theorem gatherAndPerformMigrations_submits
    (horder : Enumerates (migrationsTuples migrations) order) :
    Submits granted migrations totalMigrations
      (gatherAndPerformMigrations granted migrations order totalMigrations) := by
  have hmem : ∀ pid, pid ∈ order ↔ ∃ m ∈ migrations, m.pid = pid := fun pid =>
    (horder.mem_iff pid).trans isSome_run_upsert
  have hcells : ∀ pid ∈ order, cellsOf migrations pid ≠ [] := by
    intro pid hpid
    obtain ⟨m, hm, rfl⟩ := (hmem pid).mp hpid
    exact List.ne_nil_of_mem (List.mem_filter.mpr ⟨hm, by simp⟩)
  have hpids : (order.map (callFor migrations)).map MoveCall.pid = order := by
    rw [List.map_map]
    exact List.map_id order
  have hgroups : (order.flatMap fun pid => cellsOf migrations pid).Perm migrations :=
    perm_flatMap_filter horder.nodup fun m hm => (hmem m.pid).mpr ⟨m, hm, rfl⟩
  -- a process is granted with all of its cells
  have hgranted : ((order.filter fun pid => granted pid).flatMap fun pid =>
      cellsOf migrations pid).Perm (migrations.filter fun m => granted m.pid) := by
    have hsame : ((order.filter fun pid => granted pid).flatMap fun pid =>
        cellsOf migrations pid) = (order.filter fun pid => granted pid).flatMap fun pid =>
          (migrations.filter fun m => granted m.pid).filter fun m => m.pid = pid := by
      refine List.flatMap_congr fun pid hpid => ?_
      rw [cellsOf, List.filter_filter]
      refine List.filter_congr fun m _ => ?_
      by_cases heq : m.pid = pid
      · simp [heq, (List.mem_filter.mp hpid).2]
      · simp [heq]
    rw [hsame]
    refine perm_flatMap_filter (horder.nodup.filter _) fun m hm => ?_
    obtain ⟨hm, hpid⟩ := List.mem_filter.mp hm
    exact List.mem_filter.mpr ⟨(hmem m.pid).mpr ⟨m, hm, rfl⟩, hpid⟩
  rw [gatherAndPerformMigrations, run_performTuple hcells]
  refine ⟨?_, fun pid => ?_, ?_, ?_, ?_, ?_, ?_⟩
  · rw [List.nil_append, hpids]
    exact horder.nodup
  · rw [List.nil_append, hpids]
    exact hmem pid
  · intro call hcall
    obtain ⟨pid, -, rfl⟩ := List.mem_map.mp hcall
    simp [callFor, List.unzip_eq_map]
  · intro call hcall
    obtain ⟨pid, -, rfl⟩ := List.mem_map.mp hcall
    exact pairs_callFor pid
  · have hrequests := hgroups.flatMap_right MemMigrationCell.requests
    rw [List.flatMap_assoc] at hrequests
    rw [List.nil_append, List.flatMap_map]
    simpa only [requests_callFor] using hrequests
  · have hbatch := (hgranted.flatMap_right MemMigrationCell.pairs).length_eq
    rw [List.flatMap_assoc] at hbatch
    simpa only [Nat.zero_add, batch] using hbatch
  · simp only [Nat.zero_add]

end

/-- A cell of two pages of process 1, and a cell for a page of each of the processes 2 and 1. -/
def threeCells : List (MemMigrationCell ℚ) :=
  [⟨[4096, 8192], 1, 0, 1, fun _ => 0⟩, ⟨[4096], 2, 1, 0, fun _ => 0⟩,
    ⟨[4096], 1, 1, 0, fun _ => 0⟩]

/-- The call for process 2 fails. -/
theorem gatherAndPerformMigrations_submits_twoProcesses :
    Submits (fun pid => pid == 1) threeCells 10
      (gatherAndPerformMigrations (fun pid => pid == 1) threeCells [2, 1] 10) := by
  refine gatherAndPerformMigrations_submits ⟨by decide, fun pid => ?_⟩
  rw [migrationsTuples, isSome_run_upsert]
  simp only [threeCells, List.mem_cons, List.not_mem_nil, or_false, exists_eq_or_imp,
    exists_eq_left]
  grind

example : (gatherAndPerformMigrations (fun pid => pid == 1) threeCells [2, 1] 10).totalMigrations =
    13 := by
  decide

end Thanos
