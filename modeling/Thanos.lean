import Thanos.SystemInfo.Masks
import Thanos.SystemInfo.NodeListing
import Thanos.SystemInfo.PinnedNode
import Thanos.SystemInfo.Detection
import Thanos.SystemInfo.MemoryInfo
import Thanos.SystemInfo.ProcessLinks
import Thanos.Samples.CheckedDecoder
import Thanos.Samples.Progress
import Thanos.Library.Increments
import Thanos.Samples.Framing
import Thanos.Migration.Undo
import Thanos.Migration.BalanceNodes
import Thanos.Migration.RepeatedUpdates
import Thanos.Migration.SampleOrder
import Thanos.Migration.CpuTickets
import Thanos.Migration.ExpectedPerf
import Thanos.Migration.Lookups
import Thanos.Strategies.NimarCapacity
import Thanos.Strategies.Migratable
import Thanos.Strategies.Realisation
import Thanos.Strategies.Rollback
import Thanos.Strategies.Lmma
import Thanos.Library.RunningMean
import Thanos.Migration.AverageLatencies
import Thanos.Strategies.LatencyRuns
import Thanos.Strategies.LmmaVariants
import Thanos.Strategies.Tmma
import Thanos.Library.Greedy
import Thanos.Strategies.Selection
import Thanos.Strategies.Prefetching
import Thanos.Strategies.Gathering
import Thanos.SystemInfo.FakeThps
import Thanos.Strategies.Rmma
import Thanos.SystemInfo.InvalidProcesses
import Thanos.SystemInfo.StatFile
import Thanos.Migration.PageRatios
import Thanos.Library.TextScan
import Thanos.Library.Decimals
import Thanos.Migration.TicketsFile
import Thanos.SystemInfo.NumaMaps
import Thanos.Samples.Baselines
import Thanos.Samples.ReadSamples
import Thanos.Samples.Multiplexing
import Thanos.Library.Preorder
import Thanos.SystemInfo.ProcScan
import Thanos.SystemInfo.Daemon
import Thanos.SystemInfo.ThreadRuns
import Thanos.Strategies.PlanThreads
import Thanos.Strategies.ThreadMigrations
import Thanos.Strategies.MainLoop
import Thanos.Library.Periodic
import Thanos.Strategies.Driver
import Thanos.Library.Budget
import Thanos.Strategies.MemoryRuns
import Thanos.Library.PrintedDecimals
import Thanos.Migration.TicketsSessions
import Thanos.SystemInfo.Restoring
