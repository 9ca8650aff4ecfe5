import Dwd.Histogram
import Dwd.LibScan
import Dwd.Machine

/-! The statistics as they are shown while the workers run: the snapshots of the gRPC stream and the
counters of the Prometheus collector. Every getter of `Stat` adds up the counters of the workers, which
it reads one after another while the workers go on counting. The counters are those of all engines; a
worker of an engine keeps only some of them. -/

namespace Dwd

open Scan

/-- The 64-bit counters that a worker keeps: `TxWorkerStat`, `RxWorkerStat` with the buckets of its
histogram, `SockWorkerStat`, `HttpWorkerStat` and `BurstTxWorkerStat`. -/
inductive StatCell where
  | numRequests
  | bytesTx
  | numResponses
  | numTimeouts
  | bytesRx
  | bucket (idx : ℕ)
  | numSockCreated
  | numSockErrors
  | numRetransmits
  | num2xx
  | num3xx
  | num4xx
  | num5xx
  | burstsTx (idx : ℕ)
  deriving DecidableEq, Repr

/-- `Stat` of a running engine, as one reader finds it: the number of its workers, what they add to
their counters between the reads, and the value of the generator at the time of each read. -/
structure LiveStat where
  workers : ℕ
  incs : Increments StatCell
  generator : ℕ → ℕ

namespace LiveStat

variable (s : LiveStat)

abbrev Read (α : Type) : Type := Reader StatCell α

/-- `self.stats.iter().map(..).sum()`, for one counter. -/
def sum (c : StatCell) : Read ℕ := Reader.sumFrom s.incs (2 ^ 64) c (List.range s.workers) 0

def numRequests : Read ℕ := s.sum .numRequests

def bytesTx : Read ℕ := s.sum .bytesTx

def numResponses : Read ℕ := s.sum .numResponses

def numTimeouts : Read ℕ := s.sum .numTimeouts

def bytesRx : Read ℕ := s.sum .bytesRx

def numSockCreated : Read ℕ := s.sum .numSockCreated

def numSockErrors : Read ℕ := s.sum .numSockErrors

def numRetransmits : Read ℕ := s.sum .numRetransmits

def num2xx : Read ℕ := s.sum .num2xx

def num3xx : Read ℕ := s.sum .num3xx

def num4xx : Read ℕ := s.sum .num4xx

def num5xx : Read ℕ := s.sum .num5xx

def numBurstsTx (idx : ℕ) : Read ℕ := s.sum (.burstsTx idx)

/-- The inner loop of `hist`: the buckets of one worker are added to the snapshot, from `idx` on. -/
def addBuckets (worker : ℕ) : ℕ → List ℕ → Read (List ℕ)
  | _, [] => pure []
  | idx, count :: snapshot => do
      let b ← Reader.read s.incs (worker, .bucket idx)
      let rest ← addBuckets worker (idx + 1) snapshot
      return (count + b) % 2 ^ 64 :: rest

/-- The number of buckets of a worker's histogram. -/
def numBuckets : ℕ := PerCpuLogHistogram.default.buckets.length

/-- The outer loop of `hist`. -/
def addWorkers : List ℕ → List ℕ → Read (List ℕ)
  | [], snapshot => pure snapshot
  | worker :: workers, snapshot => do
      -- `resize`, when the snapshot is shorter than the histogram
      let snapshot := snapshot ++ List.replicate (numBuckets - snapshot.length) 0
      let snapshot ← s.addBuckets worker 0 snapshot
      addWorkers workers snapshot

def hist : Read (List ℕ) := s.addWorkers (List.range s.workers) []

end LiveStat

structure TxStats where
  numRequests : ℕ
  bytesTx : ℕ

structure RxStats where
  numResponses : ℕ
  numTimeouts : ℕ
  bytesRx : ℕ
  histogramBuckets : List ℕ

structure SocketStats where
  numSockCreated : ℕ
  numSockErrors : ℕ
  numRetransmits : ℕ

structure HttpStats where
  num2xx : ℕ
  num3xx : ℕ
  num4xx : ℕ
  num5xx : ℕ

structure BurstTxStats where
  numBurstsTx : List ℕ

structure StatsSnapshot where
  generatorRps : ℕ
  tx : Option TxStats
  rx : Option RxStats
  socket : Option SocketStats
  http : Option HttpStats
  burstTx : Option BurstTxStats

/-- The value of a counter in a snapshot, if the snapshot has it. -/
def StatsSnapshot.value (snapshot : StatsSnapshot) : StatCell → Option ℕ
  | .numRequests => snapshot.tx.map fun tx => tx.numRequests
  | .bytesTx => snapshot.tx.map fun tx => tx.bytesTx
  | .numResponses => snapshot.rx.map fun rx => rx.numResponses
  | .numTimeouts => snapshot.rx.map fun rx => rx.numTimeouts
  | .bytesRx => snapshot.rx.map fun rx => rx.bytesRx
  | .bucket idx => snapshot.rx.bind fun rx => rx.histogramBuckets[idx]?
  | .numSockCreated => snapshot.socket.map fun socket => socket.numSockCreated
  | .numSockErrors => snapshot.socket.map fun socket => socket.numSockErrors
  | .numRetransmits => snapshot.socket.map fun socket => socket.numRetransmits
  | .num2xx => snapshot.http.map fun http => http.num2xx
  | .num3xx => snapshot.http.map fun http => http.num3xx
  | .num4xx => snapshot.http.map fun http => http.num4xx
  | .num5xx => snapshot.http.map fun http => http.num5xx
  | .burstsTx idx => snapshot.burstTx.bind fun burstTx => burstTx.numBurstsTx[idx]?

/-- The engines, by the statistics they keep: http, http/raw and http3; udp; and dpdk. -/
inductive EngineKind where
  | http
  | udp
  | dpdk
  deriving DecidableEq, Repr

namespace LiveStat

variable (s : LiveStat)

def txStats : Read TxStats := do
  let numRequests ← s.numRequests
  let bytesTx ← s.bytesTx
  return { numRequests := numRequests, bytesTx := bytesTx }

def rxStats : Read RxStats := do
  let numResponses ← s.numResponses
  let numTimeouts ← s.numTimeouts
  let bytesRx ← s.bytesRx
  let histogramBuckets ← s.hist
  return { numResponses := numResponses, numTimeouts := numTimeouts, bytesRx := bytesRx,
           histogramBuckets := histogramBuckets }

def socketStats : Read SocketStats := do
  let numSockCreated ← s.numSockCreated
  let numSockErrors ← s.numSockErrors
  let numRetransmits ← s.numRetransmits
  return { numSockCreated := numSockCreated, numSockErrors := numSockErrors,
           numRetransmits := numRetransmits }

def httpStats : Read HttpStats := do
  let num2xx ← s.num2xx
  let num3xx ← s.num3xx
  let num4xx ← s.num4xx
  let num5xx ← s.num5xx
  return { num2xx := num2xx, num3xx := num3xx, num4xx := num4xx, num5xx := num5xx }

def burstTxBuckets : ℕ := 32

/-- The counters of the burst sizes, from the given ones on. -/
def burstsTx : List ℕ → Read (List ℕ)
  | [] => pure []
  | idx :: idxs => do
      let count ← s.numBurstsTx idx
      let rest ← burstsTx idxs
      return count :: rest

def burstTxStats : Read BurstTxStats := do
  let numBurstsTx ← s.burstsTx (List.range burstTxBuckets)
  return { numBurstsTx := numBurstsTx }

/-- `snapshot`, of the three kinds of `Stat` that have it. -/
def snapshot : EngineKind → Read StatsSnapshot
  | .http => do
      let generatorRps ← Reader.ask s.generator
      let tx ← s.txStats
      let rx ← s.rxStats
      let socket ← s.socketStats
      let http ← s.httpStats
      return { generatorRps := generatorRps, tx := some tx, rx := some rx, socket := some socket,
               http := some http, burstTx := none }
  | .udp => do
      let generatorRps ← Reader.ask s.generator
      let tx ← s.txStats
      let socket ← s.socketStats
      return { generatorRps := generatorRps, tx := some tx, rx := none, socket := some socket,
               http := none, burstTx := none }
  | .dpdk => do
      let generatorRps ← Reader.ask s.generator
      let tx ← s.txStats
      let burstTx ← s.burstTxStats
      return { generatorRps := generatorRps, tx := some tx, rx := none, socket := none,
               http := none, burstTx := some burstTx }

/-- One message of a stream of statistics: the reads that were made before it and after it, and the
snapshot. -/
structure Message where
  before : List (Share StatCell)
  snapshot : StatsSnapshot
  after : List (Share StatCell)

/-- `stream_stats`: the first `k` messages of a stream, from a reader that has made the reads `log`. -/
def streamStats (kind : EngineKind) : ℕ → List (Share StatCell) → List Message
  | 0, _ => []
  | k + 1, log =>
      let (snapshot, log') := s.snapshot kind log
      ⟨log, snapshot, log'⟩ :: streamStats kind k log'

end LiveStat

/-- `MetricsCollector`: the gauge, and the counter for each counter of the statistics that has one. -/
structure MetricsCollector where
  generatorRps : ℤ
  counters : StatCell → ℕ

namespace MetricsCollector

def new : MetricsCollector := { generatorRps := 0, counters := fun _ => 0 }

/-- `inc_by` the difference, when the value is larger. -/
def raise (collector : MetricsCollector) (c : StatCell) (v : ℕ) : MetricsCollector :=
  let current := collector.counters c
  if current < v then
    { collector with counters := Function.update collector.counters c (current + (v - current)) }
  else collector

/-- The values of several counters, each read in turn. -/
def readAll (s : LiveStat) : List StatCell → LiveStat.Read (List (StatCell × ℕ))
  | [] => pure []
  | c :: cells => do
      let v ← s.sum c
      let rest ← readAll s cells
      return (c, v) :: rest

/-- An update of some counters: all of them are read, and then each one is raised. -/
def update (s : LiveStat) (cells : List StatCell) (collector : MetricsCollector) :
    LiveStat.Read MetricsCollector := do
  let values ← readAll s cells
  return values.foldl (fun collector cv => collector.raise cv.1 cv.2) collector

def updateCommon (s : LiveStat) (collector : MetricsCollector) : LiveStat.Read MetricsCollector := do
  let generator ← Reader.ask s.generator
  return { collector with generatorRps := asI64 generator }

def updateTx (s : LiveStat) : MetricsCollector → LiveStat.Read MetricsCollector :=
  update s [.numRequests, .bytesTx]

def updateRx (s : LiveStat) : MetricsCollector → LiveStat.Read MetricsCollector :=
  update s [.numResponses, .numTimeouts, .bytesRx]

def updateHttp (s : LiveStat) : MetricsCollector → LiveStat.Read MetricsCollector :=
  update s [.num2xx, .num3xx, .num4xx, .num5xx]

def updateSocket (s : LiveStat) : MetricsCollector → LiveStat.Read MetricsCollector :=
  update s [.numSockCreated, .numSockErrors, .numRetransmits]

end MetricsCollector

open MetricsCollector in
/-- `collect`, of the three kinds of `Stat` that have it. -/
def LiveStat.collect (s : LiveStat) : EngineKind → MetricsCollector → LiveStat.Read MetricsCollector
  | .http, collector => do
      let collector ← updateCommon s collector
      let collector ← updateTx s collector
      let collector ← updateRx s collector
      let collector ← updateHttp s collector
      updateSocket s collector
  | .udp, collector => do
      let collector ← updateCommon s collector
      let collector ← updateTx s collector
      updateSocket s collector
  | .dpdk, collector => do
      let collector ← updateCommon s collector
      updateTx s collector

/-- The counters of the statistics that an engine has counters of the collector for. -/
def EngineKind.collected : EngineKind → List StatCell
  | .http => [.numRequests, .bytesTx, .numResponses, .numTimeouts, .bytesRx, .num2xx, .num3xx, .num4xx,
      .num5xx, .numSockCreated, .numSockErrors, .numRetransmits]
  | .udp => [.numRequests, .bytesTx, .numSockCreated, .numSockErrors, .numRetransmits]
  | .dpdk => [.numRequests, .bytesTx]

/-- A scrape: the reads that were made before it and after it, and the collector at its end. -/
structure Scrape where
  before : List (Share StatCell)
  collector : MetricsCollector
  after : List (Share StatCell)

/-- The first `k` scrapes of a collector, from a reader that has made the reads `log`. The handler runs
on one thread and does not wait in between, so scrapes follow one another. -/
def LiveStat.scrapes (s : LiveStat) (kind : EngineKind) :
    ℕ → MetricsCollector → List (Share StatCell) → List Scrape
  | 0, _, _ => []
  | k + 1, collector, log =>
      let (collector', log') := s.collect kind collector log
      ⟨log, collector', log'⟩ :: s.scrapes kind k collector' log'

end Dwd
