import Dwd.DpdkLoad
import Dwd.DpdkPorts

/-! The DPDK engine from its configuration to the loops of its workers. `new` fills a worker for each core
with the packets that are dealt to it, and `run` launches the workers on all lcores but the main one. A
worker that has got no packet divides by its number of packets as soon as its shaper grants a token. -/

namespace Dwd

namespace Dpdk

/-- What the host answers: the contents of the pcap file and their blocks, which steps of the
initialization succeed, what its devices answer, and the numbers of the ports and the lcores. -/
structure Host where
  pcap : Option (List UInt8)
  parsePcap : List UInt8 → Option (List Block)
  initEal : Bool
  poolCreate : ℕ → Bool
  rteBox : ℕ → Bool
  ethdev : Ethdev
  ethDevCount : ℕ
  lcoreCount : ℕ
  lib : Libraries
  now : CoreId → ℕ

structure DpdkEngine where
  cfg : Config
  workers : CoreId → Option Worker
  queues : CoreId → Option Queues

/-- How `DpdkEngine::new` ends. -/
inductive Created where
  | ok (engine : DpdkEngine)
  | error (e : EngineError)
  | panicked

namespace DpdkEngine

/-- `load_pcap`, with its parsing. It leaves the queues of the workers alone. -/
def load (host : Host) (cfg : Config) (queues : CoreId → Option Queues) (pcap : List UInt8) : Created :=
  match host.parsePcap pcap with
  | none => .error .pcapParse
  | some blocks =>
      match loadPcap host.lib cfg.cores host.now blocks with
      | .panicked _ => .panicked
      | .error .outOfMemory _ => .error .outOfMemory
      | .ok workers _ => .ok { cfg := cfg, workers := workers, queues := queues }

/-- `DpdkEngine::new`. The initialization of the ports leaves the buffers of the workers alone. -/
def new (host : Host) (cfg : Config) : Created :=
  match host.pcap with
  | none => .error .pcapLoad
  | some pcap =>
      if host.initEal = false then .error .dpdk
      else if ∃ idx < cfg.cores.length, host.poolCreate idx = false ∨ host.rteBox idx = false then
        .error .dpdk
      else
        match initPorts host.ethdev cfg with
        | .error .panicked => .panicked
        | .error (.error e) => .error e
        | .ok ports =>
            match load host cfg ports.workers pcap with
            | .panicked => .panicked
            | .error e => .error e
            | .ok engine =>
                if host.ethDevCount ≠ cfg.ports.length then
                  .error (.invalidPortsCount cfg.ports.length host.ethDevCount)
                else if host.lcoreCount ≠ cfg.coresCount + 1 then .error .invalidCoresCount
                else .ok engine

end DpdkEngine

/-- The steps that take a remainder by the number of packets: a tick that grants tokens, and the sum of
the lengths of a burst. -/
def State.TakesRemainder (s : State) : Action → Prop
  | .tick limit now => s.phase = .ready ∧ (s.worker.shaper.tick limit now).1 ≠ 0
  | .accept txSize => (∃ tokens count, s.phase = .sending tokens count) ∧ txSize ≠ 0
  | _ => False

/-- A remainder by zero is the panic of a tick. -/
theorem crashed_of_takesRemainder {s : State} {limit now : ℕ} (h : s.TakesRemainder (.tick limit now))
    (hzero : s.worker.mbufsCount = 0) : (s.tick limit now).phase = .crashed := by
  rw [State.tick]
  dsimp only
  rw [if_neg h.2, if_pos hzero]

/-- No run of the loop comes to a remainder by zero. -/
def Worker.NeverDividesByZero (w : Worker) : Prop :=
  ∀ (refcnt : Mbuf → ℕ) (actions : List Action) (s : State) (a : Action),
    Run.run State.step (State.start w refcnt) actions = some s →
      ¬(s.TakesRemainder a ∧ s.worker.mbufsCount = 0)

theorem mbufsCount_account (s : State) (tokens txSize : ℕ) :
    (s.account tokens txSize).worker.mbufsCount = s.worker.mbufsCount := by
  unfold State.account
  dsimp only
  split
  · rfl
  · rfl

theorem mbufsCount_refresh (s : State) : s.refresh.worker.mbufsCount = s.worker.mbufsCount := by
  unfold State.refresh
  dsimp only
  split_ifs
  · rfl
  · rfl
  · rfl

theorem mbufsCount_tick (s : State) (limit now : ℕ) :
    (s.tick limit now).worker.mbufsCount = s.worker.mbufsCount := by
  unfold State.tick
  dsimp only
  split_ifs
  · rfl
  · rfl
  · rfl

/-- The loop keeps its packets. -/
theorem mbufsCount_step {s s' : State} {a : Action} (h : s.step a = some s') :
    s'.worker.mbufsCount = s.worker.mbufsCount := by
  cases a with
  | refresh =>
      obtain ⟨-, heq⟩ := Option.ite_none_right_eq_some.mp h
      obtain rfl := Option.some.inj heq
      exact mbufsCount_refresh s
  | tick limit now =>
      obtain ⟨-, heq⟩ := Option.ite_none_right_eq_some.mp h
      obtain rfl := Option.some.inj heq
      exact mbufsCount_tick s limit now
  | release =>
      simp only [State.step] at h
      split at h
      · obtain ⟨queue, refcnt, rfl⟩ := State.release_frame h
        rfl
      · cases h
  | accept txSize =>
      simp only [State.step] at h
      split at h
      · rename_i tokens count hphase
        unfold State.accept at h
        split_ifs at h
        · cases h
          rfl
        · cases h
          exact mbufsCount_account s tokens txSize
      · cases h

/-- A worker with packets never divides by zero. -/
theorem neverDividesByZero_of_pos {w : Worker} (h : 0 < w.mbufsCount) : w.NeverDividesByZero := by
  intro refcnt actions s a hrun hzero
  have hcount : s.worker.mbufsCount = w.mbufsCount :=
    Run.invariant (I := fun s : State => s.worker.mbufsCount = w.mbufsCount)
      (fun _ _ _ hs hstep => (mbufsCount_step hstep).trans hs) rfl hrun
  omega

/-- A token accrues in a second at the lowest limit. -/
theorem tick_new_second (now : ℕ) : ((Shaper.new 0 now).tick 1 (now + nanosPerSec)).1 = 1 := by
  have hsecond : Duration.asSecs nanosPerSec = 1 := by
    norm_num [Duration.asSecs, nanosPerSec]
  have hone : truncU64 1 = 1 := by
    rw [truncU64, Nat.floor_one]
    rfl
  rw [Shaper.tick_of_burstSize_zero rfl, Shaper.new, Nat.add_sub_cancel_left, hsecond, Nat.cast_one, mul_one,
    zero_add, min_self]
  exact hone

/-- The loop of a worker without packets gets past the refresh of the reference counts. -/
theorem refresh_filled_nil (now : ℕ) (refcnt : Mbuf → ℕ) :
    ∃ refcnt', (State.start (Worker.filled now []) refcnt).refresh =
      { State.start (Worker.filled now []) refcnt with phase := .ready, refcnt := refcnt' } := by
  have hloaded : (Worker.filled now []).mbufs.take (Worker.filled now []).mbufsCount = [] := List.take_zero
  have hround : (Worker.filled now []).packetsCountTx %
      ((Worker.filled now []).mbufsCount * 16 * 1024) = 0 := rfl
  refine ⟨fun mbuf => if some mbuf ∈ ([] : List (Option Mbuf)) then 16 * 1024 + 1024 else refcnt mbuf, ?_⟩
  simp only [State.refresh, State.start, hloaded]
  rw [if_pos hround, if_neg List.not_mem_nil]

/-- A new worker without packets divides by zero at its first token. -/
theorem filled_nil_divides (now : ℕ) (refcnt : Mbuf → ℕ) :
    ∃ s, Run.run State.step (State.start (Worker.filled now []) refcnt) [.refresh] = some s ∧
      s.TakesRemainder (.tick 1 (now + nanosPerSec)) ∧ s.worker.mbufsCount = 0 := by
  obtain ⟨refcnt', hrefresh⟩ := refresh_filled_nil now refcnt
  refine ⟨(State.start (Worker.filled now []) refcnt).refresh, rfl, ?_, ?_⟩
  · rw [hrefresh]
    refine ⟨rfl, ?_⟩
    show ((Shaper.new 0 now).tick 1 (now + nanosPerSec)).1 ≠ 0
    rw [tick_new_second]
    decide
  · rw [hrefresh]
    rfl

theorem neverDividesByZero_filled_iff (now : ℕ) (packets : List Mbuf) :
    (Worker.filled now packets).NeverDividesByZero ↔ 0 < packets.length := by
  refine ⟨fun h => ?_, fun h => neverDividesByZero_of_pos h⟩
  cases packets with
  | nil =>
      obtain ⟨s, hrun, hremainder⟩ := filled_nil_divides now fun _ => 0
      exact absurd hremainder (h _ _ s _ hrun)
  | cons mbuf packets => exact Nat.succ_pos _

/-- A core gets a packet of the first `k` exactly when it is one of the first `k` cores. -/
theorem dealt_pos_iff (cores : List CoreId) (core : CoreId) (k : ℕ) :
    0 < dealt cores core k ↔ core ∈ cores.take k := by
  rw [dealt, List.countP_pos_iff]
  simp only [List.mem_range, decide_eq_true_eq]
  constructor
  · rintro ⟨idx, hidx, hcore⟩
    obtain ⟨hlt, hget⟩ := List.getElem?_eq_some_iff.mp hcore
    have hle : idx % cores.length ≤ idx := Nat.mod_le _ _
    rw [List.mem_take_iff_getElem]
    exact ⟨idx % cores.length, by omega, hget⟩
  · intro hmem
    rw [List.mem_take_iff_getElem] at hmem
    obtain ⟨idx, hlt, hget⟩ := hmem
    refine ⟨idx, by omega, ?_⟩
    rw [Nat.mod_eq_of_lt (by omega), List.getElem?_eq_some_iff]
    exact ⟨by omega, hget⟩

namespace DpdkEngine

variable {host : Host} {cfg : Config} {engine : DpdkEngine}

theorem load_eq_ok_iff {queues : CoreId → Option Queues} {pcap : List UInt8} :
    load host cfg queues pcap = .ok engine ↔ ∃ blocks workers copies, host.parsePcap pcap = some blocks ∧
      loadPcap host.lib cfg.cores host.now blocks = .ok workers copies ∧
      engine = { cfg := cfg, workers := workers, queues := queues } := by
  rw [load]
  cases hblocks : host.parsePcap pcap with
  | none => exact ⟨fun h => (nomatch h), fun ⟨_, _, _, h, _⟩ => (nomatch h)⟩
  | some blocks =>
      dsimp only
      constructor
      · intro h
        cases hloaded : loadPcap host.lib cfg.cores host.now blocks with
        | panicked copies =>
            rw [hloaded] at h
            cases h
        | error e copies =>
            rw [hloaded] at h
            cases h
        | ok workers copies =>
            rw [hloaded] at h
            exact ⟨blocks, workers, copies, rfl, hloaded, (Created.ok.inj h).symm⟩
      · rintro ⟨blocks', workers, copies, heq, hloaded, rfl⟩
        obtain rfl := Option.some.inj heq
        rw [hloaded]

/-- An engine is created exactly when every step before succeeds and the numbers of ports and lcores are
those of the configuration. -/
theorem new_eq_ok_iff :
    new host cfg = .ok engine ↔ ∃ pcap, host.pcap = some pcap ∧ host.initEal = true ∧
      (∀ idx < cfg.cores.length, host.poolCreate idx = true ∧ host.rteBox idx = true) ∧
      (∃ ports, initPorts host.ethdev cfg = .ok ports ∧ load host cfg ports.workers pcap = .ok engine) ∧
      host.ethDevCount = cfg.ports.length ∧ host.lcoreCount = cfg.coresCount + 1 := by
  have hmemory : (¬∃ idx < cfg.cores.length, host.poolCreate idx = false ∨ host.rteBox idx = false) ↔
      ∀ idx < cfg.cores.length, host.poolCreate idx = true ∧ host.rteBox idx = true := by
    simp only [not_exists, not_and, not_or, Bool.not_eq_false]
  rw [← hmemory, new]
  cases hpcap : host.pcap with
  | none => exact ⟨fun h => (nomatch h), fun ⟨_, h, _⟩ => (nomatch h)⟩
  | some pcap =>
      simp only [Option.some.injEq, exists_eq_left']
      by_cases heal : host.initEal = false
      · rw [if_pos heal, heal]
        exact iff_of_false Created.noConfusion fun h => Bool.false_ne_true h.1
      rw [if_neg heal, and_iff_right (Bool.of_not_eq_false heal)]
      by_cases hfailed : ∃ idx < cfg.cores.length, host.poolCreate idx = false ∨ host.rteBox idx = false
      · rw [if_pos hfailed]
        exact iff_of_false Created.noConfusion fun h => h.1 hfailed
      rw [if_neg hfailed, and_iff_right hfailed]
      cases hports : initPorts host.ethdev cfg with
      | error failure =>
          refine iff_of_false ?_ fun h => ?_
          · cases failure with
            | panicked => exact Created.noConfusion
            | error e => exact Created.noConfusion
          · obtain ⟨⟨_, hports', -⟩, -⟩ := h
            cases hports'
      | ok ports =>
          simp only [Except.ok.injEq, exists_eq_left']
          cases hload : load host cfg ports.workers pcap with
          | panicked => exact iff_of_false Created.noConfusion fun h => Created.noConfusion h.1
          | error e => exact iff_of_false Created.noConfusion fun h => Created.noConfusion h.1
          | ok loaded =>
              dsimp only
              by_cases hdevs : host.ethDevCount ≠ cfg.ports.length
              · rw [if_pos hdevs]
                exact iff_of_false Created.noConfusion fun h => hdevs h.2.1
              rw [if_neg hdevs]
              by_cases hlcores : host.lcoreCount ≠ cfg.coresCount + 1
              · rw [if_pos hlcores]
                exact iff_of_false Created.noConfusion fun h => hlcores h.2.2
              rw [if_neg hlcores]
              exact (and_iff_left ⟨not_not.mp hdevs, not_not.mp hlcores⟩).symm

/-- The queues of the workers are those that the initialization of the ports has given them. -/
theorem queues_of_new (hnew : new host cfg = .ok engine) :
    ∃ ports, initPorts host.ethdev cfg = .ok ports ∧ engine.queues = ports.workers := by
  obtain ⟨pcap, -, -, -, ⟨ports, hports, hload⟩, -⟩ := new_eq_ok_iff.mp hnew
  obtain ⟨blocks, workers, copies, -, -, rfl⟩ := load_eq_ok_iff.mp hload
  exact ⟨ports, hports, rfl⟩

/-- The workers of an engine are those of its cores, filled with the packets that are dealt to them. -/
theorem filled_of_new {pcap : List UInt8} {blocks : List Block} (hnew : new host cfg = .ok engine)
    (hpcap : host.pcap = some pcap) (hblocks : host.parsePcap pcap = some blocks) :
    Filled cfg.cores host.now blocks.length engine.workers ∧
      ∀ core ∉ cfg.cores, engine.workers core = none := by
  obtain ⟨pcap', hpcap', -, -, ⟨ports, -, hload⟩, -⟩ := new_eq_ok_iff.mp hnew
  obtain rfl := Option.some.inj (hpcap.symm.trans hpcap')
  obtain ⟨blocks', workers, copies, hblocks', hloaded, rfl⟩ := load_eq_ok_iff.mp hload
  obtain rfl := Option.some.inj (hblocks.symm.trans hblocks')
  have hfilled := filled_of_loadFrom (filled_initWorkers host.now) hloaded
  rw [Nat.zero_add] at hfilled
  refine ⟨hfilled, fun core hcore => (loadFrom_frame hcore hloaded).trans ?_⟩
  rw [initWorkers, if_neg hcore]

end DpdkEngine

/-- No worker that an engine launches ever divides by its number of packets when it has none, whatever the
limits, exactly when the round of the packets over the cores comes to every core that a worker is launched
on. -/
theorem no_worker_divides_by_zero_iff {host : Host} {cfg : Config} {engine : DpdkEngine}
    {pcap : List UInt8} {blocks : List Block} (hnew : DpdkEngine.new host cfg = .ok engine)
    (hpcap : host.pcap = some pcap) (hblocks : host.parsePcap pcap = some blocks) :
    (∀ core ∈ cfg.launched, ∀ w, engine.workers core = some w → w.NeverDividesByZero) ↔
      ∀ core ∈ cfg.launched, core ∈ cfg.cores → core ∈ cfg.cores.take blocks.length := by
  obtain ⟨hfilled, hframe⟩ := DpdkEngine.filled_of_new hnew hpcap hblocks
  refine forall₂_congr fun core _ => ?_
  by_cases hcore : core ∈ cfg.cores
  · obtain ⟨packets, hworker, hlength⟩ := hfilled core hcore
    rw [forall_prop_of_true hcore, ← dealt_pos_iff, ← hlength, ← neverDividesByZero_filled_iff (host.now core),
      hworker]
    constructor
    · intro hnever
      exact hnever _ rfl
    · intro hnever w hw
      rwa [← Option.some.inj hw]
  · rw [hframe core hcore]
    exact iff_of_true (fun _ hw => nomatch hw) (absurd · hcore)

/-- One port with the cores 3 and 4; the main lcore is 1. -/
def twoCores : Config where
  mainLcore := 1
  ports := [("0000:01:00.0", { cores := [3, 4] })]
  nodup_ports := List.nodup_singleton _

/-- A host on which the initialization succeeds. -/
def readyHost (blocks : List Block) : Host :=
  { pcap := some []
    parsePcap := fun _ => some blocks
    initEal := true
    poolCreate := fun _ => true
    rteBox := fun _ => true
    ethdev := readyEthdev
    ethDevCount := 1
    lcoreCount := 3
    lib := freshPool
    now := fun _ => 0 }

theorem exists_new_twoCores {blocks : List Block} (hlength : blocks.length ≤ mbufsCountMax)
    (hfit : ∀ block ∈ blocks, 14 ≤ block.caplen ∧ block.caplen % 2 ^ 16 ≤ 10112) :
    ∃ engine, DpdkEngine.new (readyHost blocks) twoCores = .ok engine := by
  obtain ⟨hpanics, hfails, -⟩ := @loadPcap_freshPool [3, 4] blocks (by decide) hlength hfit fun _ => 0
  obtain ⟨ports, hports⟩ := Fallible.exists_eq_ok (show (initPorts readyEthdev twoCores).toOption.isSome by decide)
  have hload : ∃ engine, DpdkEngine.load (readyHost blocks) twoCores ports.workers [] = .ok engine := by
    cases hloaded : loadPcap freshPool [3, 4] (fun _ => 0) blocks with
    | panicked copies =>
        rw [hloaded] at hpanics
        exact absurd trivial hpanics
    | error e copies =>
        rw [hloaded] at hfails
        exact absurd trivial hfails
    | ok workers copies => exact ⟨_, DpdkEngine.load_eq_ok_iff.mpr ⟨blocks, workers, copies, rfl, hloaded, rfl⟩⟩
  obtain ⟨engine, hengine⟩ := hload
  exact ⟨engine, DpdkEngine.new_eq_ok_iff.mpr
    ⟨[], rfl, rfl, fun _ _ => ⟨rfl, rfl⟩, ⟨ports, hports, hengine⟩, rfl, rfl⟩⟩

theorem no_worker_divides_by_zero_two_packets :
    ∃ engine, DpdkEngine.new (readyHost [zeros 60 (by decide), zeros 60 (by decide)]) twoCores = .ok engine ∧
      ∀ core ∈ twoCores.launched, ∀ w, engine.workers core = some w → w.NeverDividesByZero := by
  obtain ⟨engine, hnew⟩ := @exists_new_twoCores [zeros 60 (by decide), zeros 60 (by decide)] (by decide)
    (by decide)
  exact ⟨engine, hnew, (no_worker_divides_by_zero_iff hnew rfl rfl).mpr (by decide)⟩

/-- With one packet, the second core has none: its worker divides by zero at its first token. -/
theorem one_packet_two_cores :
    ∃ engine w, DpdkEngine.new (readyHost [zeros 60 (by decide)]) twoCores = .ok engine ∧
      4 ∈ twoCores.launched ∧ engine.workers 4 = some w ∧
      ∃ s, Run.run State.step (State.start w fun _ => 0) [.refresh] = some s ∧
        s.TakesRemainder (.tick 1 nanosPerSec) ∧ s.worker.mbufsCount = 0 ∧
        (s.tick 1 nanosPerSec).phase = .crashed := by
  obtain ⟨engine, hnew⟩ := @exists_new_twoCores [zeros 60 (by decide)] (by decide) (by decide)
  obtain ⟨packets, hworker, hlength⟩ := (DpdkEngine.filled_of_new hnew rfl rfl).1 4 (by decide)
  obtain rfl : packets = [] := List.length_eq_zero_iff.mp (hlength.trans (by decide))
  obtain ⟨s, hrun, htick, hcount⟩ := filled_nil_divides 0 fun _ => 0
  rw [Nat.zero_add] at htick
  exact ⟨engine, _, hnew, by decide, hworker, s, hrun, htick, hcount, crashed_of_takesRemainder htick hcount⟩

end Dpdk

end Dwd
