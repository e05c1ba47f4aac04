import Mathlib.Data.Set.Card
import Thanos.Migration.Planning

/-!
# The occupancy of the nodes

How the number of threads pinned to a node changes when cells between nodes are migrated. Where
the cells name pairwise different threads and all calls are granted, the threads that arrive
are those of the halves with this destination and the threads that leave are those of the
halves whose thread was pinned to the node (`ncard_pinnedTo_migrateCells`), in whatever order
the cells are migrated.
-/

namespace Thanos

open Thanos.System

variable {R : Type} {T : Topology} {s : System R} {t : Pid} {n : Node}

/-- The threads pinned to a node. -/
def pinnedTo (s : System R) (n : Node) : Set Pid :=
  {t | (s.proc t).pinned = true ∧ (s.proc t).pinnedNumaNode = n}

/-- `node_tid_map` lists exactly the pinned threads, each of them at its pinned node. -/
def NodesConsistent (s : System R) : Prop :=
  ∀ t n, t ∈ s.nodeTidMap n ↔ t ∈ pinnedTo s n

theorem ncard_pinnedTo (hs : NodesConsistent s) : (pinnedTo s n).ncard = (s.nodeTidMap n).size := by
  have hset : pinnedTo s n = ((s.nodeTidMap n).toFinset : Set Pid) := by
    ext t
    simp only [Finset.mem_coe, OrderedSet.mem_toFinset, hs t n]
  rw [hset, Set.ncard_coe_finset, OrderedSet.card_toFinset]

/-- The number of halves that bring their thread to a node. -/
def arrivals (cells : List (MigrationCell R)) (n : Node) : ℕ :=
  (halves cells).countP fun half => decide (half.dest = n)

/-- The number of halves whose thread is listed at a node. -/
def departures (s : System R) (cells : List (MigrationCell R)) (n : Node) : ℕ :=
  (halves cells).countP fun half => decide (half.tid ∈ s.nodeTidMap n)

/-- A half that succeeds pins its thread to its destination. -/
theorem mem_pinnedTo_migrate {half : SimpleMigrationCell R} (hnode : half.node = true)
    (hok : (half.migrate T s).1 = true) :
    half.tid ∈ pinnedTo (half.migrate T s).2 n ↔ half.dest = n := by
  simp only [SimpleMigrationCell.migrate, hnode, if_true] at hok ⊢
  obtain ⟨-, mask, -, -, heq⟩ | ⟨-, heq⟩ | ⟨-, mask, -, -, heq⟩ :=
    pinThreadToNode_cases T half.tid half.dest s
  · simp [pinnedTo, heq]
  · simp [heq] at hok
  · simp [heq] at hok

/-- The threads pinned to a node after the halves: those brought there, and those that were
there and are not named. -/
theorem mem_pinnedTo_afterHalves {ms : List (SimpleMigrationCell R)}
    (hnode : ∀ half ∈ ms, half.node = true) (hdisj : (ms.map SimpleMigrationCell.tid).Nodup)
    (hok : (forEach (SimpleMigrationCell.migrate T) ms s).1 = true) :
    t ∈ pinnedTo (afterHalves T ms s) n ↔
      (∃ half ∈ ms, half.tid = t ∧ half.dest = n) ∨
        (t ∉ ms.map SimpleMigrationCell.tid ∧ t ∈ pinnedTo s n) := by
  by_cases hnamed : t ∈ ms.map SimpleMigrationCell.tid
  · obtain ⟨half, hhalf, rfl⟩ := List.mem_map.mp hnamed
    have honly : (∃ half' ∈ ms, half'.tid = half.tid ∧ half'.dest = n) ↔ half.dest = n := by
      refine ⟨fun ⟨half', hhalf', htid, hdest⟩ => ?_, fun hdest => ⟨half, hhalf, rfl, hdest⟩⟩
      rwa [List.inj_on_of_nodup_map hdisj hhalf' hhalf htid] at hdest
    obtain ⟨pre, post, rfl⟩ := List.append_of_mem hhalf
    obtain ⟨-, hafter⟩ := afterHalves_isolated (T := T) (s := s) hdisj
    have hstep : (half.migrate T (afterHalves T pre s)).1 = true :=
      forEach_fst_iff.mp hok pre half ⟨post, by simp⟩
    have hmoved := mem_pinnedTo_migrate (n := n) (hnode half hhalf) hstep
    rw [honly, ← hmoved, pinnedTo, Set.mem_ofPred_eq, hafter.proc]
    simp [pinnedTo]
  · have hsame := afterHalves_sameThread (T := T) (s := s) hnamed
    have hnone : ¬ ∃ half ∈ ms, half.tid = t ∧ half.dest = n :=
      fun ⟨half, hhalf, htid, _⟩ => hnamed (List.mem_map.mpr ⟨half, hhalf, htid⟩)
    rw [pinnedTo, Set.mem_ofPred_eq, hsame.proc]
    simp [hnone, hnamed, pinnedTo]

/-- **Occupancy.** Cells between nodes that name pairwise different threads and all succeed
change the number of threads pinned to a node by their arrivals and departures. -/
theorem ncard_pinnedTo_migrateCells {cells : List (MigrationCell R)} (hs : NodesConsistent s)
    (hnode : ∀ half ∈ halves cells, half.node = true) (hdisj : (planTids cells).Nodup)
    (hok : (migrateCells T cells s).1 = true) :
    (pinnedTo (migrateCells T cells s).2 n).ncard + departures s cells n =
      (s.nodeTidMap n).size + arrivals cells n := by
  let old := (s.nodeTidMap n).toFinset
  let named := (planTids cells).toFinset
  let brought := ((halves cells).filter fun half => decide (half.dest = n)).map
    SimpleMigrationCell.tid
  have hbrought : ∀ t, t ∈ brought ↔ ∃ half ∈ halves cells, half.tid = t ∧ half.dest = n := by
    intro t
    simp only [brought, List.mem_map, List.mem_filter, decide_eq_true_eq]
    exact ⟨fun ⟨half, ⟨hmem, hdest⟩, htid⟩ => ⟨half, hmem, htid, hdest⟩,
      fun ⟨half, hmem, htid, hdest⟩ => ⟨half, ⟨hmem, hdest⟩, htid⟩⟩
  have hset : pinnedTo (migrateCells T cells s).2 n =
      ((brought.toFinset ∪ (old \ named) : Finset Pid) : Set Pid) := by
    ext t
    rw [migrateCells_eq] at hok
    rw [migrateCells_snd, mem_pinnedTo_afterHalves hnode hdisj hok]
    simp only [Finset.mem_coe, Finset.mem_union, Finset.mem_sdiff, List.mem_toFinset, hbrought,
      old, named, OrderedSet.mem_toFinset, hs t n]
    exact or_congr_right and_comm
  -- a thread that is brought is named, so that it is not among those that stay
  have hapart : Disjoint brought.toFinset (old \ named) := by
    rw [Finset.disjoint_left]
    intro t ht hold
    obtain ⟨half, hhalf, htid, -⟩ := (hbrought t).mp (List.mem_toFinset.mp ht)
    have hnamed : t ∈ named := List.mem_toFinset.mpr (List.mem_map.mpr ⟨half, hhalf, htid⟩)
    exact (Finset.mem_sdiff.mp hold).2 hnamed
  have harrive : brought.toFinset.card = arrivals cells n := by
    have hsub : brought.Sublist (planTids cells) := List.filter_sublist.map _
    rw [List.toFinset_card_of_nodup (hdisj.sublist hsub), List.length_map, arrivals,
      List.countP_eq_length_filter]
  -- the threads listed and named, counted once each as no thread is named twice
  have hleave : (old ∩ named).card = departures s cells n := by
    have hinter : old ∩ named =
        ((planTids cells).filter fun t => decide (t ∈ s.nodeTidMap n)).toFinset := by
      ext t
      simp [old, named, and_comm]
    rw [hinter, List.toFinset_card_of_nodup (hdisj.filter _), departures,
      ← List.countP_eq_length_filter, planTids, List.countP_map]
    rfl
  have hsplit := Finset.card_sdiff_add_card_inter old named
  rw [hset, Set.ncard_coe_finset, Finset.card_union_of_disjoint hapart, harrive, ← hleave]
  have hold : old.card = (s.nodeTidMap n).size := OrderedSet.card_toFinset
  omega

end Thanos
