import Dwd.Dpdk
import Dwd.LibRing
import Mathlib.Data.List.Induction

/-! What a DPDK worker transmits. The bursts are windows of the loaded packets that do not pass the end
of the ring, so the worker walks around the ring: no null pointer reaches the driver, the packets go
out in turn, and the counters agree with what has gone out. -/

namespace Dwd

namespace Dpdk

/-- The first slots of the buffer hold the packets, and nothing has been sent yet. -/
structure Worker.Loaded (packets : List Mbuf) (w : Worker) : Prop where
  mbufsCount : w.mbufsCount = packets.length
  mbufs : w.mbufs.take packets.length = packets.map some
  stat : w.stat = WorkerStat.default
  packetsCountTx : w.packetsCountTx = 0

/-- A new worker whose first slots are filled with the packets. -/
def Worker.filled (now : ℕ) (packets : List Mbuf) : Worker :=
  { Worker.new now with
    mbufsCount := packets.length
    mbufs := packets.map some ++ List.replicate (mbufsCountMax - packets.length) none }

theorem Worker.load_filled (now : ℕ) (packets : List Mbuf) (mbuf : Mbuf) :
    (Worker.filled now packets).load mbuf =
      if packets.length + 1 ≤ mbufsCountMax then some (Worker.filled now (packets ++ [mbuf])) else none := by
  have hlength : (Worker.filled now packets).mbufs.length =
      packets.length + (mbufsCountMax - packets.length) := by
    rw [Worker.filled, List.length_append, List.length_map, List.length_replicate]
  have hcount : (Worker.filled now packets).mbufsCount = packets.length := rfl
  unfold Worker.load
  rw [hlength, hcount]
  by_cases hroom : packets.length + 1 ≤ mbufsCountMax
  · have hset : (packets.map some ++ List.replicate (mbufsCountMax - packets.length) none).set
          packets.length (some mbuf) =
        (packets ++ [mbuf]).map some ++ List.replicate (mbufsCountMax - (packets.length + 1)) none := by
      rw [List.set_append_right _ _ (List.length_map _).le, List.length_map, Nat.sub_self,
        show mbufsCountMax - packets.length = mbufsCountMax - (packets.length + 1) + 1 by omega,
        List.replicate_succ, List.set_cons_zero, List.map_append, List.append_assoc]
      rfl
    rw [if_pos (by omega), if_pos hroom]
    simp only [Worker.filled, hset, List.length_append, List.length_singleton]
  · rw [if_neg (by omega), if_neg hroom]

/-- As many packets can be loaded as there are slots, and they fill the first slots in order. -/
theorem Worker.loadAll_new (now : ℕ) (packets : List Mbuf) :
    (Worker.new now).loadAll packets =
      if packets.length ≤ mbufsCountMax then some (Worker.filled now packets) else none := by
  induction packets using List.reverseRecOn with
  | nil => rfl
  | append_singleton packets mbuf ih =>
      rw [Worker.loadAll, List.foldlM_append, ← Worker.loadAll, ih, List.length_append,
        List.length_singleton]
      by_cases hfull : packets.length ≤ mbufsCountMax
      · rw [if_pos hfull]
        show ((Worker.filled now packets).load mbuf).bind some = _
        rw [Option.bind_fun_some, Worker.load_filled]
      · rw [if_neg hfull, if_neg (by omega)]
        rfl

theorem Worker.loaded_of_loadAll {packets : List Mbuf} {now : ℕ} {w : Worker}
    (h : (Worker.new now).loadAll packets = some w) : w.Loaded packets := by
  rw [Worker.loadAll_new] at h
  split_ifs at h
  obtain rfl := Option.some.inj h
  refine ⟨rfl, ?_, rfl, rfl⟩
  rw [Worker.filled, List.take_append_of_le_length (by simp), List.take_of_length_le (by simp)]

/-- The packets of the bursts, by the burst histogram: `weighted` of `burst_stats`. -/
def weighted (hist : List ℕ) : ℕ := (hist.mapIdx fun idx c => (idx + 1) * c).sum

theorem weighted_modify {hist : List ℕ} {idx : ℕ} (h : idx < hist.length) :
    weighted (hist.modify idx (· + 1)) = weighted hist + (idx + 1) := by
  have hoffset : ∀ offset, ((hist.modify idx (· + 1)).mapIdx fun i c => (i + offset) * c).sum =
      (hist.mapIdx fun i c => (i + offset) * c).sum + (idx + offset) := by
    induction hist generalizing idx with
    | nil => cases h
    | cons c hist ih =>
        intro offset
        cases idx with
        | zero =>
            rw [List.modify_zero_cons, List.mapIdx_cons, List.mapIdx_cons, List.sum_cons, List.sum_cons,
              Nat.mul_add]
            omega
        | succ idx =>
            have htail := ih (by simpa using h) (offset + 1)
            rw [List.modify_succ_cons, List.mapIdx_cons, List.mapIdx_cons, List.sum_cons, List.sum_cons]
            simp only [Nat.add_assoc, Nat.add_comm 1 offset]
            omega
  exact hoffset 1

/-- A burst of one to 32 packets has a place in the histogram, and adds its size. -/
theorem WorkerStat.onBurstsTx_eq {s : WorkerStat} {v : ℕ} (hpos : 1 ≤ v) (hle : v ≤ s.burstsTx.hist.length) :
    ∃ s', s.onBurstsTx v = some s' ∧ s'.tx = s.tx ∧
      s'.burstsTx.hist.length = s.burstsTx.hist.length ∧
      weighted s'.burstsTx.hist = weighted s.burstsTx.hist + v := by
  have hidx : v - 1 < s.burstsTx.hist.length := by omega
  refine ⟨_, if_pos ⟨hpos, hidx⟩, rfl, List.length_modify .., ?_⟩
  show weighted (s.burstsTx.hist.modify (v - 1) (· + 1)) = _
  rw [weighted_modify hidx]
  omega

theorem pktLens_map_some (packets : List Mbuf) :
    pktLens (packets.map some) = some (packets.map Mbuf.pktLen).sum := by
  induction packets with
  | nil => rfl
  | cons mbuf packets ih =>
      rw [List.map_cons, pktLens, ih, List.map_cons, List.sum_cons]
      rfl

/-- A window of the buffer that does not pass the loaded slots is a window of the packets. -/
theorem Worker.window_eq {packets : List Mbuf} {w : Worker}
    (hmbufs : w.mbufs.take packets.length = packets.map some) {count : ℕ}
    (hcount : w.position + count ≤ packets.length) :
    w.window count = ((packets.drop w.position).take count).map some := by
  have hwindow : w.window count = ((w.mbufs.take packets.length).drop w.position).take count := by
    rw [Worker.window, List.drop_take, List.take_take, min_eq_left (by omega)]
  rw [hwindow, hmbufs, ← List.map_drop, List.map_take]

/-- The size of a burst: it is not cut by the cast, and ends within the ring. -/
theorem Worker.burstSize_le (w : Worker) (tokens : ℕ) (hpos : 0 < w.mbufsCount) :
    w.position + w.burstSize tokens ≤ w.mbufsCount ∧ w.burstSize tokens ≤ 32 ∧
      w.burstSize tokens ≤ tokens := by
  have hposition : w.position < w.mbufsCount := Nat.mod_lt _ hpos
  have hcast : w.burstSize tokens = min (min 32 (w.mbufsCount - w.position)) tokens :=
    Nat.mod_eq_of_lt (by omega)
  rw [hcast]
  omega

/-! ### The loop -/

/-- What holds at every point of the loop, `walk` being the packets that the driver has accepted. -/
structure Transmits (packets walk : List Mbuf) (s : State) : Prop where
  mbufsCount : s.worker.mbufsCount = packets.length
  mbufs : s.worker.mbufs.take packets.length = packets.map some
  alive : s.phase ≠ .crashed
  burst : ∀ tokens count, s.phase = .sending tokens count →
    s.worker.position + count ≤ packets.length ∧ count ≤ 32 ∧ count ≤ tokens
  sent : s.sent = walk.map some
  length : walk.length = s.worker.packetsCountTx
  follows : Ring.Follows packets walk
  requests : s.worker.stat.tx.numRequests = s.worker.packetsCountTx
  bytes : s.worker.stat.tx.bytesTx = (walk.map Mbuf.pktLen).sum
  histLength : s.worker.stat.burstsTx.hist.length = 32
  bursts : weighted s.worker.stat.burstsTx.hist = s.worker.packetsCountTx

variable {packets walk : List Mbuf} {s s' : State}

theorem Worker.Loaded.transmits {w : Worker} (h : w.Loaded packets) (refcnt : Mbuf → ℕ) :
    Transmits packets [] (State.start w refcnt) where
  mbufsCount := h.mbufsCount
  mbufs := h.mbufs
  alive := by
    intro hcrashed
    cases hcrashed
  burst := by
    intro tokens count hphase
    cases hphase
  sent := rfl
  length := h.packetsCountTx.symm
  follows := Ring.follows_nil packets
  requests := by
    show w.stat.tx.numRequests = w.packetsCountTx
    rw [h.stat, h.packetsCountTx]
    rfl
  bytes := by
    show w.stat.tx.bytesTx = 0
    rw [h.stat]
    rfl
  histLength := by
    show w.stat.burstsTx.hist.length = 32
    rw [h.stat]
    rfl
  bursts := by
    show weighted w.stat.burstsTx.hist = w.packetsCountTx
    rw [h.stat, h.packetsCountTx]
    rfl

/-- The refresh finds no null pointer, and sets the counts of the packets after every 16384 rounds. -/
theorem Transmits.refresh_eq (h : Transmits packets walk s) :
    s.refresh = { s with
      phase := .ready
      refcnt := fun mbuf =>
        if s.worker.packetsCountTx % (packets.length * 16384) = 0 ∧ mbuf ∈ packets then 17408
        else s.refcnt mbuf } := by
  have hcount : s.worker.mbufsCount * 16 * 1024 = packets.length * 16384 := by
    rw [h.mbufsCount]
    omega
  unfold State.refresh
  rw [hcount, h.mbufsCount, h.mbufs]
  by_cases hlap : s.worker.packetsCountTx % (packets.length * 16384) = 0
  · simp [hlap]
  · simp [hlap]

/-- A tick changes the shaper, and may begin a burst. -/
theorem Transmits.tick_eq (h : Transmits packets walk s) (hpackets : packets ≠ []) (limit now : ℕ) :
    ∃ phase, s.tick limit now = { s with
        worker := { s.worker with shaper := (s.worker.shaper.tick limit now).2 }
        phase := phase } ∧
      (((s.worker.shaper.tick limit now).1 = 0 ∧ phase = .top) ∨
        ∃ count, phase = .sending (s.worker.shaper.tick limit now).1 count ∧
          s.worker.position + count ≤ packets.length ∧ count ≤ 32 ∧
          count ≤ (s.worker.shaper.tick limit now).1) := by
  have hpos : 0 < s.worker.mbufsCount := by
    rw [h.mbufsCount]
    exact List.length_pos_iff.mpr hpackets
  unfold State.tick
  by_cases hzero : (s.worker.shaper.tick limit now).1 = 0
  · exact ⟨.top, by simp [hzero], .inl ⟨hzero, rfl⟩⟩
  · refine ⟨_, by simp only [hzero, hpos.ne', if_false]; rfl, .inr ⟨_, rfl, ?_⟩⟩
    have hsize := Worker.burstSize_le { s.worker with shaper := (s.worker.shaper.tick limit now).2 }
      (s.worker.shaper.tick limit now).1 hpos
    exact h.mbufsCount ▸ hsize

/-- A burst of which the driver has accepted something is accounted for without a panic. -/
theorem Transmits.account_eq (h : Transmits packets walk s) {tokens count txSize : ℕ}
    (hphase : s.phase = .sending tokens count) (hpos : 1 ≤ txSize) (hle : txSize ≤ count) :
    ∃ stat, s.account tokens txSize = { s with
        worker :=
          { s.worker with
            packetsCountTx := s.worker.packetsCountTx + txSize
            stat := stat
            shaper := s.worker.shaper.consume tokens }
        phase := .top
        txQueue := s.txQueue ++ ((packets.drop s.worker.position).take txSize).map some
        sent := s.sent ++ ((packets.drop s.worker.position).take txSize).map some
        consumed := s.consumed + tokens } ∧
      stat.tx.numRequests = s.worker.stat.tx.numRequests + txSize ∧
      stat.tx.bytesTx = s.worker.stat.tx.bytesTx +
        (((packets.drop s.worker.position).take txSize).map Mbuf.pktLen).sum ∧
      stat.burstsTx.hist.length = 32 ∧
      weighted stat.burstsTx.hist = weighted s.worker.stat.burstsTx.hist + txSize := by
  obtain ⟨hwindow, hcount, -⟩ := h.burst tokens count hphase
  have hburst := Worker.window_eq h.mbufs (show s.worker.position + txSize ≤ packets.length by omega)
  have hlength : (s.worker.stat.onRequests txSize).burstsTx.hist.length = 32 := h.histLength
  obtain ⟨stat, hstat, htx, hhist, hweighted⟩ :=
    (s.worker.stat.onRequests txSize).onBurstsTx_eq hpos (by omega : txSize ≤ _)
  refine ⟨stat.onSend (((packets.drop s.worker.position).take txSize).map Mbuf.pktLen).sum, ?_, ?_, ?_, ?_, ?_⟩
  · simp only [State.account, hburst, pktLens_map_some, hstat]
  · show stat.tx.numRequests = _
    rw [htx]
    rfl
  · show stat.tx.bytesTx + _ = _
    rw [htx]
    rfl
  · exact hhist.trans hlength
  · exact hweighted

/-- What a step of a worker with loaded packets can be. -/
inductive Move (packets : List Mbuf) (s : State) : Action → State → Prop where
  | refresh (hphase : s.phase = .top) :
      Move packets s .refresh { s with
        phase := .ready
        refcnt := fun mbuf =>
          if s.worker.packetsCountTx % (packets.length * 16384) = 0 ∧ mbuf ∈ packets then 17408
          else s.refcnt mbuf }
  | idle (limit now : ℕ) (hphase : s.phase = .ready) (hzero : (s.worker.shaper.tick limit now).1 = 0) :
      Move packets s (.tick limit now) { s with
        worker := { s.worker with shaper := (s.worker.shaper.tick limit now).2 }
        phase := .top }
  | burst (limit now count : ℕ) (hphase : s.phase = .ready)
      (hwindow : s.worker.position + count ≤ packets.length) (hcount : count ≤ 32)
      (htokens : count ≤ (s.worker.shaper.tick limit now).1) :
      Move packets s (.tick limit now) { s with
        worker := { s.worker with shaper := (s.worker.shaper.tick limit now).2 }
        phase := .sending (s.worker.shaper.tick limit now).1 count }
  | release (tokens count : ℕ) (s' : State) (hphase : s.phase = .sending tokens count)
      (hrelease : s.release = some s') : Move packets s .release s'
  | refused (tokens count : ℕ) (hphase : s.phase = .sending tokens count) :
      Move packets s (.accept 0) { s with phase := .top }
  | transmit (tokens count txSize : ℕ) (stat : WorkerStat) (hphase : s.phase = .sending tokens count)
      (hpos : 1 ≤ txSize) (hle : txSize ≤ count)
      (hrequests : stat.tx.numRequests = s.worker.stat.tx.numRequests + txSize)
      (hbytes : stat.tx.bytesTx = s.worker.stat.tx.bytesTx +
        (((packets.drop s.worker.position).take txSize).map Mbuf.pktLen).sum)
      (hlength : stat.burstsTx.hist.length = 32)
      (hbursts : weighted stat.burstsTx.hist = weighted s.worker.stat.burstsTx.hist + txSize) :
      Move packets s (.accept txSize) { s with
        worker :=
          { s.worker with
            packetsCountTx := s.worker.packetsCountTx + txSize
            stat := stat
            shaper := s.worker.shaper.consume tokens }
        phase := .top
        txQueue := s.txQueue ++ ((packets.drop s.worker.position).take txSize).map some
        sent := s.sent ++ ((packets.drop s.worker.position).take txSize).map some
        consumed := s.consumed + tokens }

theorem Transmits.move (h : Transmits packets walk s) (hpackets : packets ≠ []) {a : Action}
    (hstep : s.step a = some s') : Move packets s a s' := by
  cases a with
  | refresh =>
      simp only [State.step] at hstep
      split_ifs at hstep with hphase
      obtain rfl := Option.some.inj hstep
      rw [h.refresh_eq]
      exact .refresh hphase
  | tick limit now =>
      simp only [State.step] at hstep
      split_ifs at hstep with hphase
      obtain rfl := Option.some.inj hstep
      obtain ⟨phase, heq, ⟨hzero, rfl⟩ | ⟨count, rfl, hwindow, hcount, htokens⟩⟩ :=
        h.tick_eq hpackets limit now
      · rw [heq]
        exact .idle limit now hphase hzero
      · rw [heq]
        exact .burst limit now count hphase hwindow hcount htokens
  | release =>
      cases hphase : s.phase with
      | sending tokens count =>
          simp only [State.step, hphase] at hstep
          exact .release tokens count s' hphase hstep
      | top => simp [State.step, hphase] at hstep
      | ready => simp [State.step, hphase] at hstep
      | crashed => simp [State.step, hphase] at hstep
  | accept txSize =>
      cases hphase : s.phase with
      | sending tokens count =>
          simp only [State.step, hphase, State.accept] at hstep
          split_ifs at hstep with hbound hzero
          · obtain rfl := Option.some.inj hstep
            rw [hzero]
            exact .refused tokens count hphase
          · obtain rfl := Option.some.inj hstep
            obtain ⟨stat, heq, hrequests, hbytes, hlength, hbursts⟩ :=
              h.account_eq hphase (show 1 ≤ txSize by omega) (by omega)
            rw [heq]
            exact .transmit tokens count txSize stat hphase (by omega) (by omega) hrequests hbytes hlength
              hbursts
      | top => simp [State.step, hphase] at hstep
      | ready => simp [State.step, hphase] at hstep
      | crashed => simp [State.step, hphase] at hstep

/-- A release changes nothing but the queue and a reference count. -/
theorem State.release_frame (h : s.release = some s') :
    ∃ queue refcnt, s' = { s with txQueue := queue, refcnt := refcnt } := by
  unfold State.release at h
  split at h
  · cases h
  · exact ⟨_, s.refcnt, (Option.some.inj h).symm⟩
  · exact ⟨_, _, (Option.some.inj h).symm⟩

/-- The window of a burst is where the walk goes on. -/
theorem Transmits.position_eq (h : Transmits packets walk s) :
    s.worker.position = walk.length % packets.length := by
  rw [Worker.position, h.mbufsCount, h.length]

theorem Transmits.step (h : Transmits packets walk s) (hpackets : packets ≠ []) {a : Action}
    (hstep : s.step a = some s') : ∃ walk', Transmits packets walk' s' := by
  cases h.move hpackets hstep with
  | refresh hphase =>
      exact ⟨walk, { h with alive := by simp, burst := by simp }⟩
  | idle limit now hphase hzero =>
      exact ⟨walk, { h with alive := by simp, burst := by simp }⟩
  | burst limit now count hphase hwindow hcount htokens =>
      refine ⟨walk, { h with alive := by simp, burst := ?_ }⟩
      intro tokens' count' hphase'
      obtain ⟨rfl, rfl⟩ := Phase.sending.inj hphase'
      exact ⟨hwindow, hcount, htokens⟩
  | release tokens count s' hphase hrelease =>
      obtain ⟨queue, refcnt, rfl⟩ := State.release_frame hrelease
      exact ⟨walk, { h with }⟩
  | refused tokens count hphase =>
      exact ⟨walk, { h with alive := by simp, burst := by simp }⟩
  | transmit tokens count txSize stat hphase hpos hle hrequests hbytes hlength hbursts =>
      obtain ⟨hwindow, -, -⟩ := h.burst tokens count hphase
      have hposition := h.position_eq
      refine ⟨walk ++ (packets.drop s.worker.position).take txSize, ?_⟩
      constructor
      case mbufsCount => exact h.mbufsCount
      case mbufs => exact h.mbufs
      case alive => simp
      case burst => simp
      case sent =>
        show s.sent ++ _ = _
        rw [h.sent, List.map_append]
      case length =>
        rw [List.length_append, Ring.length_window (by omega), h.length]
      case follows =>
        rw [hposition]
        exact h.follows.append_window (by omega)
      case requests => exact hrequests.trans (congrArg (· + txSize) h.requests)
      case bytes =>
        show stat.tx.bytesTx = _
        rw [hbytes, h.bytes, List.map_append, List.sum_append]
      case histLength => exact hlength
      case bursts => exact hbursts.trans (congrArg (· + txSize) h.bursts)

/-- Every run keeps the worker on its walk. -/
theorem Transmits.run (hpackets : packets ≠ []) {w : Worker} (hw : w.Loaded packets) {refcnt : Mbuf → ℕ}
    {actions : List Action} (hrun : Run.run State.step (State.start w refcnt) actions = some s) :
    ∃ walk, Transmits packets walk s := by
  refine Run.invariant (I := fun s => ∃ walk, Transmits packets walk s) ?_ ⟨[], hw.transmits refcnt⟩ hrun
  rintro s a s' ⟨walk, h⟩ hstep
  exact h.step hpackets hstep

/-- **The transmit loop.** Whatever is granted, and whatever the driver accepts: nothing panics, a
burst lies within the loaded slots and within the histogram, the packets go out in turn and no null
pointer does, and the counters show what has gone out. -/
theorem transmit_loop (packets : List Mbuf) (hpackets : packets ≠ []) (now : ℕ) (w : Worker)
    (hload : (Worker.new now).loadAll packets = some w) (refcnt : Mbuf → ℕ) (actions : List Action)
    (s : State) (hrun : Run.run State.step (State.start w refcnt) actions = some s) :
    s.phase ≠ .crashed ∧
    (∀ tokens count, s.phase = .sending tokens count →
      s.worker.position + count ≤ packets.length ∧
      s.worker.window count = ((packets.drop s.worker.position).take count).map some ∧
      ∀ txSize, 1 ≤ txSize → txSize ≤ count → txSize - 1 < s.worker.stat.burstsTx.hist.length) ∧
    (∀ k < s.sent.length, s.sent[k]? = packets[k % packets.length]?.map some) ∧
    none ∉ s.sent ∧
    s.sent.length = s.worker.packetsCountTx ∧
    s.worker.stat.tx.numRequests = s.worker.packetsCountTx ∧
    weighted s.worker.stat.burstsTx.hist = s.worker.packetsCountTx ∧
    pktLens s.sent = some s.worker.stat.tx.bytesTx := by
  obtain ⟨walk, h⟩ := Transmits.run hpackets (Worker.loaded_of_loadAll hload) hrun
  refine ⟨h.alive, fun tokens count hphase => ?_, fun k hk => ?_, ?_, ?_, h.requests, h.bursts, ?_⟩
  · obtain ⟨hwindow, hcount, -⟩ := h.burst tokens count hphase
    refine ⟨hwindow, Worker.window_eq h.mbufs hwindow, fun txSize hpos hle => ?_⟩
    rw [h.histLength]
    omega
  · rw [h.sent, List.length_map] at hk
    rw [h.sent, List.getElem?_map, h.follows k hk]
  · rw [h.sent]
    simp
  · rw [h.sent, List.length_map, h.length]
  · rw [h.sent, pktLens_map_some, h.bytes]

/-- Two packets, a grant of three and then of one: the second burst begins with the first packet. -/
theorem transmit_loop_two_packets :
    ∃ w s, (Worker.new 0).loadAll [⟨0, 60⟩, ⟨1, 100⟩] = some w ∧
      Run.run State.step (State.start w fun _ => 1) [.refresh, .tick 3 1000000000, .accept 2, .refresh,
        .tick 1 2000000000, .release, .accept 1] = some s ∧
      s.sent = [some ⟨0, 60⟩, some ⟨1, 100⟩, some ⟨0, 60⟩] ∧
      weighted s.worker.stat.burstsTx.hist = s.worker.packetsCountTx ∧
      pktLens s.sent = some s.worker.stat.tx.bytesTx := by
  have hload := Worker.loadAll_new 0 [⟨0, 60⟩, ⟨1, 100⟩]
  rw [if_pos (by decide)] at hload
  have hsent : (Run.run State.step (State.start (Worker.filled 0 [⟨0, 60⟩, ⟨1, 100⟩]) fun _ => 1)
      [.refresh, .tick 3 1000000000, .accept 2, .refresh, .tick 1 2000000000, .release, .accept 1]).map
        State.sent = some [some ⟨0, 60⟩, some ⟨1, 100⟩, some ⟨0, 60⟩] := by decide +kernel
  obtain ⟨s, hrun, hs⟩ := Option.map_eq_some_iff.mp hsent
  obtain ⟨-, -, -, -, -, -, hweighted, hbytes⟩ := transmit_loop _ (by decide) 0 _ hload _ _ s hrun
  exact ⟨_, s, hload, hrun, hs, hweighted, hbytes⟩

end Dpdk

end Dwd
