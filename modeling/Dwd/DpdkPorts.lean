import Dwd.DpdkConfig
import Dwd.LibFallible
import Mathlib.Algebra.GroupWithZero.Nat
import Mathlib.Data.List.Dedup

/-! The ports of the DPDK engine. `init_ports` goes over the ports, in the order of the hash map, and gives
every core of a port a receive queue and a transmit queue of it. The receive queues are numbered within a
port, and the transmit queues from 1 on; a port has as many transmit queues as there are cores on all
ports, and one for the control thread. The numbers have 16 bits and wrap in a release build: what keeps
them from it is that DPDK has memory zones for a bounded number of pools, and each core needs a pool. -/

namespace Dwd

namespace Dpdk

open Fallible

inductive EngineError where
  | io
  | pcapLoad
  | pcapParse
  | invalidPciDevice
  | invalidPortsCount (configured found : ℕ)
  | invalidCoresCount
  | outOfMemory
  | dpdk
  deriving DecidableEq, Repr

/-- What `init_ports` writes to a worker. -/
structure Queues where
  portId : ℕ
  rxQueueId : ℕ
  txQueueId : ℕ
  deriving DecidableEq, Repr

namespace Queues

/-- The queues of `Worker::new`. -/
def unset : Queues := { portId := 0, rxQueueId := 0, txQueueId := 0 }

/-- The queues for the core with index `idx` of a port. -/
def ofIndex (portId idx : ℕ) : Queues :=
  { portId := portId
    rxQueueId := idx % 2 ^ 16
    txQueueId := (idx % 2 ^ 16 + 1) % 2 ^ 16 }

end Queues

/-- What the Ethernet devices of DPDK answer, and the neighbours' table: the number of a port by its name,
and which calls succeed. -/
structure Ethdev where
  getPortByName : PciDeviceName → Option ℕ
  devInfoGet : ℕ → Bool
  getNeighbors : ℕ → Bool
  configure : ℕ → ℕ → ℕ → Bool
  rxQueueSetup : ℕ → ℕ → Bool
  txQueueSetup : ℕ → ℕ → Bool

inductive PortsFailure where
  | panicked
  | error (e : EngineError)
  deriving DecidableEq, Repr

/-- The names of the ports by their numbers, and the queues of the workers. -/
structure Ports where
  names : ℕ → Option PciDeviceName
  workers : CoreId → Option Queues

def rxQueuesCount (port : PortConfig) : ℕ := port.cores.length % 2 ^ 16

def txQueuesCount (cfg : Config) : ℕ := (cfg.coresCount % 2 ^ 16 + 1) % 2 ^ 16

variable (dev : Ethdev)

/-- The loop over the cores of a port. -/
def setupQueue (portId : ℕ) (workers : CoreId → Option Queues) (item : CoreId × ℕ) :
    Except PortsFailure (CoreId → Option Queues) := do
  let _ ← orFail (workers item.1) .panicked
  ensure (dev.rxQueueSetup portId (item.2 % 2 ^ 16)) (.error .dpdk)
  return Function.update workers item.1 (some (Queues.ofIndex portId item.2))

/-- The loop over the ports. The name of a port must be a C string, and the constructor of `CoreId` asserts
that the number of the port is below 128. -/
def initPort (cfg : Config) (ports : Ports) (item : PciDeviceName × PortConfig) :
    Except PortsFailure Ports := do
  ensure (!item.1.toList.contains (Char.ofNat 0)) .panicked
  let portId ← orFail (dev.getPortByName item.1) (.error .dpdk)
  ensure (portId < 128) .panicked
  ensure (dev.devInfoGet portId) (.error .invalidPciDevice)
  ensure (dev.getNeighbors portId) (.error .io)
  ensure (dev.configure portId (rxQueuesCount item.2) (txQueuesCount cfg)) (.error .dpdk)
  let workers ← item.2.cores.zipIdx.foldlM (setupQueue dev portId) ports.workers
  ensure ((List.range (txQueuesCount cfg)).all (dev.txQueueSetup portId)) (.error .dpdk)
  return { names := Function.update ports.names portId (some item.1), workers := workers }

/-- `init_ports`, from the workers that `init_workers` has made. -/
def initPorts (cfg : Config) : Except PortsFailure Ports :=
  cfg.ports.foldlM (initPort dev cfg)
    { names := fun _ => none
      workers := fun core => if core ∈ cfg.cores then some Queues.unset else none }

variable {dev} {cfg : Config} {portId : ℕ} {workers workers' : CoreId → Option Queues}

theorem setupQueue_eq_ok_iff {item : CoreId × ℕ} :
    setupQueue dev portId workers item = .ok workers' ↔ (∃ worker, workers item.1 = some worker) ∧
      dev.rxQueueSetup portId (item.2 % 2 ^ 16) = true ∧
      Function.update workers item.1 (some (Queues.ofIndex portId item.2)) = workers' := by
  simp only [setupQueue, bind_eq_ok_iff, orFail_eq_ok_iff, ensure_eq_ok_iff, pure, Except.pure,
    Except.ok.injEq, exists_const, exists_and_right]

theorem initPort_eq_ok_iff {ports ports' : Ports} {item : PciDeviceName × PortConfig} :
    initPort dev cfg ports item = .ok ports' ↔ Char.ofNat 0 ∉ item.1.toList ∧ ∃ portId,
      dev.getPortByName item.1 = some portId ∧ portId < 128 ∧ dev.devInfoGet portId = true ∧
      dev.getNeighbors portId = true ∧
      dev.configure portId (rxQueuesCount item.2) (txQueuesCount cfg) = true ∧ ∃ workers,
      item.2.cores.zipIdx.foldlM (setupQueue dev portId) ports.workers = .ok workers ∧
      (∀ queueId < txQueuesCount cfg, dev.txQueueSetup portId queueId = true) ∧
      { names := Function.update ports.names portId (some item.1), workers := workers } = ports' := by
  simp only [initPort, bind_eq_ok_iff, orFail_eq_ok_iff, ensure_eq_ok_iff, pure, Except.pure,
    Except.ok.injEq, exists_const, Bool.not_eq_true', List.contains_eq_mem,
    decide_eq_false_iff_not, decide_eq_true_eq, List.all_eq_true, List.mem_range]

/-- A worker that was there is there afterwards, and the cores that are not of the port keep their queues;
the cores of the port get theirs by their index. -/
theorem setupQueues_spec {cores : List CoreId} (hnodup : cores.Nodup)
    (h : cores.zipIdx.foldlM (setupQueue dev portId) workers = .ok workers') :
    (∀ core ∉ cores, workers' core = workers core) ∧
      ∀ item ∈ cores.zipIdx, workers' item.1 = some (Queues.ofIndex portId item.2) := by
  have hfst : cores.zipIdx.map Prod.fst = cores := List.zipIdx_map_fst 0 cores
  have hspec := foldlM_invariant (I := fun done ws => (∀ core ∉ done.map Prod.fst, ws core = workers core) ∧
    ∀ item ∈ done, ws item.1 = some (Queues.ofIndex portId item.2)) ?_ ?_ h
  · rwa [hfst] at hspec
  · rintro done item rest ws ws' heq ⟨hframe, hdone⟩ hstep
    obtain ⟨-, -, rfl⟩ := setupQueue_eq_ok_iff.mp hstep
    have hfresh : item.1 ∉ done.map Prod.fst := by
      rw [← hfst, ← heq, List.map_append, List.map_cons] at hnodup
      exact fun hmem => List.disjoint_of_nodup_append hnodup hmem List.mem_cons_self
    constructor
    · intro core hcore
      rw [List.map_append, List.mem_append, not_or, List.map_singleton, List.mem_singleton] at hcore
      rw [Function.update_of_ne hcore.2, hframe core hcore.1]
    · intro item' hmem
      rcases List.mem_append.mp hmem with hmem | hmem
      · have hne : item'.1 ≠ item.1 := fun heq' => hfresh (heq' ▸ List.mem_map_of_mem hmem)
        rw [Function.update_of_ne hne, hdone item' hmem]
      · obtain rfl := List.mem_singleton.mp hmem
        exact Function.update_self _ _ _
  · exact ⟨fun _ _ => rfl, fun _ hmem => absurd hmem List.not_mem_nil⟩

/-- The cores of a port have its queues by their index. -/
def Assigned (dev : Ethdev) (workers : CoreId → Option Queues) (port : PciDeviceName × PortConfig) : Prop :=
  ∃ portId, dev.getPortByName port.1 = some portId ∧
    ∀ item ∈ port.2.cores.zipIdx, workers item.1 = some (Queues.ofIndex portId item.2)

/-- Once all ports are initialized, every core has the queues of its index at its port, and there are no
other workers. -/
theorem initPorts_spec (hnodup : cfg.cores.Nodup) {ports : Ports} (h : initPorts dev cfg = .ok ports) :
    (∀ core ∉ cfg.cores, ports.workers core = none) ∧ ∀ port ∈ cfg.ports, Assigned dev ports.workers port := by
  have hspec := foldlM_invariant (I := fun done (ports : Ports) =>
    (∀ core ∉ cfg.cores, ports.workers core = none) ∧ ∀ port ∈ done, Assigned dev ports.workers port) ?_ ?_ h
  · exact hspec
  · rintro done port rest ports ports' heq ⟨hframe, hdone⟩ hstep
    obtain ⟨-, portId, hname, -, -, -, -, workers, hqueues, -, rfl⟩ := initPort_eq_ok_iff.mp hstep
    have hcores : cfg.cores = (done.flatMap fun port => port.2.cores) ++
        (port.2.cores ++ rest.flatMap fun port => port.2.cores) := by
      rw [Config.cores, ← heq, List.flatMap_append, List.flatMap_cons]
    rw [hcores] at hnodup
    obtain ⟨hothers, hset⟩ := setupQueues_spec hnodup.of_append_right.of_append_left hqueues
    constructor
    · intro core hcore
      have hnot : core ∉ port.2.cores := fun hmem =>
        hcore (hcores ▸ List.mem_append_right _ (List.mem_append_left _ hmem))
      exact (hothers core hnot).trans (hframe core hcore)
    · intro port' hmem
      rcases List.mem_append.mp hmem with hmem | hmem
      · -- the cores of an earlier port are none of this port's
        obtain ⟨portId', hname', hqueues'⟩ := hdone port' hmem
        refine ⟨portId', hname', fun item hitem => ?_⟩
        have hearlier : item.1 ∈ done.flatMap fun port => port.2.cores :=
          List.mem_flatMap.mpr ⟨port', hmem, List.fst_mem_of_mem_zipIdx hitem⟩
        have hnot : item.1 ∉ port.2.cores := fun hmem' =>
          List.disjoint_of_nodup_append hnodup hearlier (List.mem_append_left _ hmem')
        exact (hothers item.1 hnot).trans (hqueues' item hitem)
      · obtain rfl := List.mem_singleton.mp hmem
        exact ⟨portId, hname, hset⟩
  · exact ⟨fun core hcore => if_neg hcore, fun _ hmem => absurd hmem List.not_mem_nil⟩

/-- Every core has a worker, no two workers have a queue in common, and the queues of a worker are among
those of its port; the transmit queue 0 is no worker's. -/
structure PrivateQueues (dev : Ethdev) (cfg : Config) (workers : CoreId → Option Queues) : Prop where
  exists_worker : ∀ core ∈ cfg.cores, ∃ q, workers core = some q
  rx : ∀ core core' q q', workers core = some q → workers core' = some q' → q.portId = q'.portId →
    q.rxQueueId = q'.rxQueueId → core = core'
  tx : ∀ core core' q q', workers core = some q → workers core' = some q' → q.portId = q'.portId →
    q.txQueueId = q'.txQueueId → core = core'
  bounds : ∀ core q, workers core = some q → ∃ port ∈ cfg.ports, core ∈ port.2.cores ∧
    dev.getPortByName port.1 = some q.portId ∧ q.rxQueueId < rxQueuesCount port.2 ∧
    1 ≤ q.txQueueId ∧ q.txQueueId < txQueuesCount cfg

def rteMaxMemzone : ℕ := 2560

/-- A pool takes a memory zone, and DPDK has no more than `RTE_MAX_MEMZONE` of them. -/
def FewPools (poolCreate : ℕ → Bool) : Prop :=
  ∀ n, (∀ idx < n, poolCreate idx = true) → n ≤ rteMaxMemzone

/-- Different names are those of different ports. -/
def DistinctPorts (dev : Ethdev) (cfg : Config) : Prop :=
  ∀ port ∈ cfg.ports, ∀ port' ∈ cfg.ports, ∀ portId, dev.getPortByName port.1 = some portId →
    dev.getPortByName port'.1 = some portId → port.1 = port'.1

/-- A worker has the queues for the index of its core at one of the ports. -/
theorem exists_index (hnodup : cfg.cores.Nodup) {ports : Ports} (h : initPorts dev cfg = .ok ports)
    {core : CoreId} {q : Queues} (hq : ports.workers core = some q) :
    ∃ port ∈ cfg.ports, ∃ portId idx, dev.getPortByName port.1 = some portId ∧
      port.2.cores[idx]? = some core ∧ q = Queues.ofIndex portId idx := by
  obtain ⟨hframe, hports⟩ := initPorts_spec hnodup h
  have hcore : core ∈ cfg.cores := by
    by_contra hnot
    rw [hframe core hnot] at hq
    cases hq
  obtain ⟨port, hport, hmem⟩ := List.mem_flatMap.mp hcore
  obtain ⟨idx, hidx⟩ := List.getElem?_of_mem hmem
  obtain ⟨portId, hname, hqueues⟩ := hports port hport
  refine ⟨port, hport, portId, idx, hname, hidx, ?_⟩
  rw [hqueues (core, idx) (List.mk_mem_zipIdx_iff_getElem?.mpr hidx)] at hq
  exact (Option.some.inj hq).symm

/-- A port has no more cores than the configuration. -/
theorem length_cores_le {port : PciDeviceName × PortConfig} (hport : port ∈ cfg.ports) :
    port.2.cores.length ≤ cfg.cores.length := by
  have hmem : port.2.cores ∈ cfg.ports.map fun port => port.2.cores := List.mem_map.mpr ⟨port, hport, rfl⟩
  rw [Config.cores, List.flatMap_def]
  exact (List.sublist_flatten_of_mem hmem).length_le

/-- The numbers of the queues do not wrap. -/
theorem length_cores_lt {poolCreate : ℕ → Bool} (hfew : FewPools poolCreate)
    (hpools : ∀ idx < cfg.cores.length, poolCreate idx = true) : cfg.cores.length < 2 ^ 16 - 1 :=
  calc cfg.cores.length ≤ rteMaxMemzone := hfew _ hpools
    _ < 2 ^ 16 - 1 := by decide

theorem exists_queues (hnodup : cfg.cores.Nodup) {ports : Ports} (h : initPorts dev cfg = .ok ports)
    {core : CoreId} (hcore : core ∈ cfg.cores) : ∃ q, ports.workers core = some q := by
  obtain ⟨port, hport, hmem⟩ := List.mem_flatMap.mp hcore
  obtain ⟨idx, hidx⟩ := List.getElem?_of_mem hmem
  obtain ⟨portId, -, hqueues⟩ := (initPorts_spec hnodup h).2 port hport
  exact ⟨_, hqueues (core, idx) (List.mk_mem_zipIdx_iff_getElem?.mpr hidx)⟩

/-- A queue of a port is that of one core. -/
theorem eq_of_queue_eq (hnodup : cfg.cores.Nodup) (hids : DistinctPorts dev cfg)
    (hsmall : cfg.cores.length < 2 ^ 16 - 1) {ports : Ports} (h : initPorts dev cfg = .ok ports)
    {core core' : CoreId} {q q' : Queues} (hq : ports.workers core = some q)
    (hq' : ports.workers core' = some q') (hport : q.portId = q'.portId)
    (hqueue : q.rxQueueId = q'.rxQueueId ∨ q.txQueueId = q'.txQueueId) : core = core' := by
  obtain ⟨port, hmem, portId, idx, hname, hget, rfl⟩ := exists_index hnodup h hq
  obtain ⟨port', hmem', portId', idx', hname', hget', rfl⟩ := exists_index hnodup h hq'
  obtain rfl : portId = portId' := hport
  have heq : port.1 = port'.1 := hids port hmem port' hmem' portId hname hname'
  obtain rfl : port = port' := List.inj_on_of_nodup_map cfg.nodup_ports hmem hmem' heq
  have hlt : idx < port.2.cores.length := (List.getElem?_eq_some_iff.mp hget).1
  have hlt' : idx' < port.2.cores.length := (List.getElem?_eq_some_iff.mp hget').1
  have hle := length_cores_le hmem
  have hidx : idx = idx' := by
    simp only [Queues.ofIndex] at hqueue
    omega
  rw [hidx, hget'] at hget
  exact (Option.some.inj hget).symm

/-- The queues of a worker are among those that its port is configured with. -/
theorem queues_lt (hnodup : cfg.cores.Nodup) (hsmall : cfg.cores.length < 2 ^ 16 - 1) {ports : Ports}
    (h : initPorts dev cfg = .ok ports) {core : CoreId} {q : Queues} (hq : ports.workers core = some q) :
    ∃ port ∈ cfg.ports, core ∈ port.2.cores ∧ dev.getPortByName port.1 = some q.portId ∧
      q.rxQueueId < rxQueuesCount port.2 ∧ 1 ≤ q.txQueueId ∧ q.txQueueId < txQueuesCount cfg := by
  obtain ⟨port, hmem, portId, idx, hname, hget, rfl⟩ := exists_index hnodup h hq
  have hlt : idx < port.2.cores.length := (List.getElem?_eq_some_iff.mp hget).1
  have hle := length_cores_le hmem
  have hcount : cfg.coresCount = cfg.cores.length := by rw [Config.coresCount, hnodup.dedup]
  refine ⟨port, hmem, List.mem_of_getElem? hget, hname, ?_⟩
  rw [rxQueuesCount, txQueuesCount, hcount]
  simp only [Queues.ofIndex]
  omega

/-- Once the ports are initialized, the workers have no queue in common, in whatever order the ports come. -/
theorem initPorts_privateQueues (hnodup : cfg.cores.Nodup) (hids : DistinctPorts dev cfg)
    {poolCreate : ℕ → Bool} (hfew : FewPools poolCreate)
    (hpools : ∀ idx < cfg.cores.length, poolCreate idx = true) {ports : Ports}
    (h : initPorts dev cfg = .ok ports) : PrivateQueues dev cfg ports.workers := by
  have hsmall := length_cores_lt hfew hpools
  refine ⟨fun core hcore => exists_queues hnodup h hcore, ?_, ?_, fun core q hq => queues_lt hnodup hsmall h hq⟩
  · intro core core' q q' hq hq' hport hrx
    exact eq_of_queue_eq hnodup hids hsmall h hq hq' hport (Or.inl hrx)
  · intro core core' q q' hq hq' hport htx
    exact eq_of_queue_eq hnodup hids hsmall h hq hq' hport (Or.inr htx)

/-- Two ports with three cores. -/
def twoPorts : Config where
  mainLcore := 1
  ports := [("0000:01:00.0", { cores := [3, 4] }), ("0000:02:00.0", { cores := [5] })]
  nodup_ports := by decide

/-- Devices on which every call succeeds, with two ports. -/
def readyEthdev : Ethdev :=
  { getPortByName := fun name => if name = "0000:01:00.0" then some 0 else some 1
    devInfoGet := fun _ => true
    getNeighbors := fun _ => true
    configure := fun _ _ _ => true
    rxQueueSetup := fun _ _ => true
    txQueueSetup := fun _ _ => true }

theorem initPorts_privateQueues_twoPorts :
    ∃ ports, initPorts readyEthdev twoPorts = .ok ports ∧ PrivateQueues readyEthdev twoPorts ports.workers := by
  obtain ⟨ports, hports⟩ := exists_eq_ok (show (initPorts readyEthdev twoPorts).toOption.isSome by decide)
  have hids : DistinctPorts readyEthdev twoPorts := by simp [DistinctPorts, twoPorts, readyEthdev]
  have hfew : FewPools fun idx => idx < rteMaxMemzone := by
    intro n h
    by_contra hlt
    exact absurd (h rteMaxMemzone (Nat.lt_of_not_le hlt)) (by simp)
  exact ⟨ports, hports, initPorts_privateQueues (by decide) hids hfew (by decide) hports⟩

end Dpdk

end Dwd
