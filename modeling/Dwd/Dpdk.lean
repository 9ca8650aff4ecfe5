import Dwd.LibRun
import Dwd.Shaper
import Dwd.Stat

/-! The transmit loop of a DPDK worker. The packets of the pcap file fill the first slots of a buffer
of packet pointers, and the loop hands windows of these slots to the driver, round and round. A packet
that the driver has accepted stays in its queue until a later call releases it, and it is never copied:
the same packet is in the queue many times over, which its reference count has to cover.

A turn of the loop is taken apart: the driver can release packets one by one while it is called. -/

namespace Dwd

namespace Dpdk

/-- `MBUFS_COUNT`, the number of slots of the buffer. -/
def mbufsCountMax : ℕ := 256 * 1024

/-- `PORT_TX_QUEUE_SIZE`, the number of descriptors of a transmit queue. -/
def portTxQueueSize : ℕ := 1024

/-- A packet in the memory of the pool. Its reference count is kept apart. -/
structure Mbuf where
  addr : ℕ
  pktLen : ℕ
  deriving DecidableEq, Repr

/-- `BurstTxWorkerStat`: how many bursts there were of each size, from one on. -/
structure BurstTxWorkerStat where
  hist : List ℕ

/-- `PerCpuStat` as the DPDK engine has it. -/
structure WorkerStat where
  tx : TxWorkerStat
  burstsTx : BurstTxWorkerStat

namespace WorkerStat

def default : WorkerStat where
  tx := { numRequests := 0, bytesTx := 0 }
  burstsTx := { hist := List.replicate 32 0 }

def onRequests (v : ℕ) (s : WorkerStat) : WorkerStat :=
  { s with tx := { s.tx with numRequests := s.tx.numRequests + v } }

def onSend (n : ℕ) (s : WorkerStat) : WorkerStat :=
  { s with tx := { s.tx with bytesTx := s.tx.bytesTx + n } }

/-- `on_bursts_tx`. It is undefined where the index is out of range. -/
def onBurstsTx (v : ℕ) (s : WorkerStat) : Option WorkerStat :=
  if 1 ≤ v ∧ v - 1 < s.burstsTx.hist.length then
    some { s with burstsTx := { hist := s.burstsTx.hist.modify (v - 1) (· + 1) } }
  else none

end WorkerStat

structure Worker where
  mbufsCount : ℕ
  mbufs : List (Option Mbuf)
  shaper : Shaper
  stat : WorkerStat
  packetsCountTx : ℕ

namespace Worker

def new (now : ℕ) : Worker :=
  { mbufsCount := 0
    mbufs := List.replicate mbufsCountMax none
    shaper := Shaper.new 0 now
    stat := WorkerStat.default
    packetsCountTx := 0 }

/-- `load_pcap`, for one packet of this worker: it is undefined where the buffer is full. -/
def load (w : Worker) (mbuf : Mbuf) : Option Worker :=
  if w.mbufsCount < w.mbufs.length then
    some { w with mbufs := w.mbufs.set w.mbufsCount (some mbuf), mbufsCount := w.mbufsCount + 1 }
  else none

def loadAll (packets : List Mbuf) (w : Worker) : Option Worker := packets.foldlM load w

/-- The slot of the next packet. -/
def position (w : Worker) : ℕ := w.packetsCountTx % w.mbufsCount

/-- The size of the burst that is asked for, cast to `u16`. -/
def burstSize (w : Worker) (tokens : ℕ) : ℕ :=
  min (min 32 (w.mbufsCount - w.position)) tokens % 2 ^ 16

/-- The next `count` slots. -/
def window (w : Worker) (count : ℕ) : List (Option Mbuf) := (w.mbufs.drop w.position).take count

end Worker

/-- The total length of a window of packets: it is undefined at a null pointer. -/
def pktLens : List (Option Mbuf) → Option ℕ
  | [] => some 0
  | none :: _ => none
  | some mbuf :: rest => (pktLens rest).map (mbuf.pktLen + ·)

/-- Where the loop stands: at its condition, past the refresh of the reference counts, inside
`rte_eth_tx_burst` with the granted tokens and the size of the burst, or past a panic. -/
inductive Phase where
  | top
  | ready
  | sending (tokens count : ℕ)
  | crashed
  deriving DecidableEq, Repr

/-- The worker, the reference counts, the queue of the driver, and what the loop has done so far: the
pointers that the driver has accepted, and the total of what has been passed to `Shaper::consume`. -/
structure State where
  worker : Worker
  phase : Phase
  refcnt : Mbuf → ℕ
  txQueue : List (Option Mbuf)
  sent : List (Option Mbuf)
  consumed : ℕ

/-- The loop goes on to the refresh, reads the clock and the limit cell, and the driver releases a
packet or returns from the burst. -/
inductive Action where
  | refresh
  | tick (limit now : ℕ)
  | release
  | accept (txSize : ℕ)
  deriving DecidableEq, Repr

namespace State

/-- `rte_mbuf_refcnt_set` on every loaded packet, when a whole number of rounds has been sent. -/
def refresh (s : State) : State :=
  let loaded := s.worker.mbufs.take s.worker.mbufsCount
  if s.worker.packetsCountTx % (s.worker.mbufsCount * 16 * 1024) = 0 then
    if none ∈ loaded then { s with phase := .crashed }
    else
      { s with
        phase := .ready
        refcnt := fun mbuf => if some mbuf ∈ loaded then 16 * 1024 + 1024 else s.refcnt mbuf }
  else { s with phase := .ready }

/-- What the shutdown does with the reference counts once the worker has stopped: null pointers are skipped. -/
def resetRefcnt (s : State) : State :=
  { s with
    refcnt := fun mbuf => if some mbuf ∈ s.worker.mbufs.take s.worker.mbufsCount then 1 else s.refcnt mbuf }

/-- `Shaper::tick`, and the call of `rte_eth_tx_burst` when tokens are granted. -/
def tick (limit now : ℕ) (s : State) : State :=
  let r := s.worker.shaper.tick limit now
  let w := { s.worker with shaper := r.2 }
  if r.1 = 0 then { s with worker := w, phase := .top }
  else if w.mbufsCount = 0 then { s with worker := w, phase := .crashed }
  else { s with worker := w, phase := .sending r.1 (w.burstSize r.1) }

/-- The driver releases the oldest packet of its queue. -/
def release (s : State) : Option State :=
  match s.txQueue with
  | [] => none
  | none :: rest => some { s with txQueue := rest }
  | some mbuf :: rest =>
      some { s with txQueue := rest, refcnt := Function.update s.refcnt mbuf (s.refcnt mbuf - 1) }

/-- The rest of the turn, after the driver has accepted `txSize` packets. -/
def account (tokens txSize : ℕ) (s : State) : State :=
  let burst := s.worker.window txSize
  match pktLens burst, (s.worker.stat.onRequests txSize).onBurstsTx txSize with
  | some size, some stat =>
      { s with
        worker :=
          { s.worker with
            packetsCountTx := s.worker.packetsCountTx + txSize
            stat := stat.onSend size
            shaper := s.worker.shaper.consume tokens }
        phase := .top
        txQueue := s.txQueue ++ burst
        sent := s.sent ++ burst
        consumed := s.consumed + tokens }
  | _, _ => { s with phase := .crashed }

/-- The driver returns. It accepts no more than it is given. -/
def accept (tokens count txSize : ℕ) (s : State) : Option State :=
  if count < txSize then none
  else if txSize = 0 then some { s with phase := .top }
  else some (s.account tokens txSize)

def step (s : State) : Action → Option State
  | .refresh => if s.phase = .top then some s.refresh else none
  | .tick limit now => if s.phase = .ready then some (s.tick limit now) else none
  | .release =>
      match s.phase with
      | .sending _ _ => s.release
      | _ => none
  | .accept txSize =>
      match s.phase with
      | .sending tokens count => s.accept tokens count txSize
      | _ => none

/-- A worker at the start of its loop. -/
def start (w : Worker) (refcnt : Mbuf → ℕ) : State :=
  { worker := w, phase := .top, refcnt := refcnt, txQueue := [], sent := [], consumed := 0 }

end State

end Dpdk

end Dwd
