import Dwd.GeneratorLifetime
import Dwd.RateContract
import Dwd.SuspendableTransparency
import Dwd.Generator
import Dwd.Control
import Dwd.Histogram
import Dwd.HistogramQuantile
import Dwd.Metrics
import Dwd.MetricsBuckets
import Dwd.HttpTask
import Dwd.HttpEngine
import Dwd.HttpOutcome
import Dwd.HttpConservation
import Dwd.HttpUnanswered
import Dwd.DpdkTransmit
import Dwd.DpdkCharge
import Dwd.DpdkRefcnt
import Dwd.WorkerQuota
import Dwd.TcpAccount
import Dwd.LibScan
import Dwd.Snapshot
import Dwd.SnapshotBounds
import Dwd.EngineStart
import Dwd.JsonLine
import Dwd.JsonLineAgree
import Dwd.Produce
import Dwd.Command
import Dwd.LibSlope
import Dwd.LineProfile
import Dwd.ProfileCreate
import Dwd.RateDistribution
import Dwd.ShaperBudget
import Dwd.RawResponse
import Dwd.JsonLineFraming
import Dwd.DpdkLoad
import Dwd.DpdkCores
import Dwd.RunFlag
import Dwd.ProduceFairness
import Dwd.DpdkDeal
import Dwd.Ui
import Dwd.UiControl
import Dwd.Shutdown
import Dwd.LibSampling
import Dwd.Summary
import Dwd.Verdict
import Dwd.StatsStream
import Dwd.LoadSystem
import Dwd.DpdkShutdown
import Dwd.Neighbours
import Dwd.Screen
import Dwd.LoadReached
import Dwd.DpdkReport
import Dwd.ProfileEnd
import Dwd.UdpLoad
