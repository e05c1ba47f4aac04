import Thanos.Utils.Types

/-!
# Tickets

A ticket is the score of a migration: a value and the set of reasons that contributed to it,
kept as a bit mask. Tickets are added componentwise and compared by value alone. `Settings`
holds the ticket values and the other options that the planners read.
-/

namespace Thanos

/-- `tickets_t`. -/
structure Tickets (R : Type) where
  value : R
  mask : UInt8

/-- `tickets_mask`, the bits of the reasons. -/
inductive TicketsMask
  | memCellWorse
  | memCellNoData
  | memCellBetter
  | freeCore
  | prefNode
  | threadUnderPerf

/-- The bit of a reason. -/
def TicketsMask.bit : TicketsMask → UInt8
  | memCellWorse => 1
  | memCellNoData => 2
  | memCellBetter => 4
  | freeCore => 8
  | prefNode => 16
  | threadUnderPerf => 32

namespace Tickets

variable {R : Type} [RealT R]

/-- The default `tickets_t`. -/
def zero : Tickets R :=
  ⟨RealT.ofRat 0, 0⟩

/-- `operator+`. -/
instance : Add (Tickets R) :=
  ⟨fun a b => ⟨a.value + b.value, a.mask ||| b.mask⟩⟩

/-- `operator<=>` compares the values. -/
instance : LT (Tickets R) :=
  ⟨fun a b => a.value < b.value⟩

instance : DecidableLT (Tickets R) :=
  fun a b => inferInstanceAs (Decidable (a.value < b.value))

end Tickets

/-- The ticket values and thresholds of `tickets.cpp`, `max_thread_migrations`, and the
constants of the machine that the performance model uses. -/
structure Settings (R : Type) where
  ticketsMemCellWorse : Tickets R
  ticketsMemCellNoData : Tickets R
  ticketsMemCellBetter : Tickets R
  ticketsFreeCore : Tickets R
  ticketsPrefNode : Tickets R
  ticketsUnderPerf : Tickets R
  perfThreshold : R
  maxThreadMigrations : ℕ
  /-- `samples::minimum_latency`. -/
  minimumLatency : ℤ
  /-- `CACHE_LINE_SIZE`. -/
  cacheLineSize : ℤ

/-- The settings before any option or tickets file is read. -/
def Settings.default {R : Type} [RealT R] (minimumLatency cacheLineSize : ℤ) : Settings R where
  ticketsMemCellWorse := ⟨RealT.ofRat 1, TicketsMask.memCellWorse.bit⟩
  ticketsMemCellNoData := ⟨RealT.ofRat 2, TicketsMask.memCellNoData.bit⟩
  ticketsMemCellBetter := ⟨RealT.ofRat 4, TicketsMask.memCellBetter.bit⟩
  ticketsFreeCore := ⟨RealT.ofRat 2, TicketsMask.freeCore.bit⟩
  ticketsPrefNode := ⟨RealT.ofRat 4, TicketsMask.prefNode.bit⟩
  ticketsUnderPerf := ⟨RealT.ofRat 3, TicketsMask.threadUnderPerf.bit⟩
  perfThreshold := RealT.ofRat (8 / 10)
  maxThreadMigrations := 5
  minimumLatency := minimumLatency
  cacheLineSize := cacheLineSize

end Thanos
