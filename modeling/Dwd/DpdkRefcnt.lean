import Dwd.DpdkTransmit

/-! The reference counts of a DPDK worker's packets. Between two refreshes every packet is sent 16384
times, and what the driver still held at the first of them is released too; a refresh sets the counts to
exactly that much, and the last burst before the second refresh is still in the queue when it comes. So
no count reaches zero. -/

namespace Dwd

namespace Dpdk

open Ring

/-- The driver holds no more packets than it has descriptors. -/
def QueueBounded (s : State) : Action → Prop
  | .accept txSize => s.txQueue.length + txSize ≤ portTxQueueSize
  | _ => True

instance (s : State) : ∀ a, Decidable (QueueBounded s a)
  | .accept _ => inferInstanceAs (Decidable (_ ≤ _))
  | .refresh => isTrue trivial
  | .tick _ _ => isTrue trivial
  | .release => isTrue trivial

/-- The driver has released the first `released` packets of the walk, in order, and holds the rest. -/
structure Queued (walk : List Mbuf) (released : ℕ) (s : State) : Prop where
  queue : s.txQueue = (walk.drop released).map some
  released_le : released ≤ walk.length
  room : s.txQueue.length ≤ portTxQueueSize

/-- The counts since the last refresh, which came after `lap` times 16384 rounds and when `base` packets
had been released. -/
structure Counted (packets walk : List Mbuf) (lap base released : ℕ) (s : State) : Prop where
  base_le : base ≤ released
  base_lap : base ≤ packets.length * (16384 * lap)
  lap_base : packets.length * (16384 * lap) ≤ base + portTxQueueSize
  sent_le : walk.length ≤ packets.length * (16384 * (lap + 1))
  sent_lt : s.phase ≠ .top → walk.length < packets.length * (16384 * (lap + 1))
  released_lt : released < packets.length * (16384 * (lap + 1))
  refcnt : ∀ i mbuf, packets[i]? = some mbuf →
    s.refcnt mbuf + visits packets.length i released = 17408 + visits packets.length i base

variable {packets walk : List Mbuf} {lap base released : ℕ} {s s' : State}

theorem start_queued (w : Worker) (refcnt : Mbuf → ℕ) : Queued [] 0 (State.start w refcnt) :=
  ⟨rfl, le_rfl, Nat.zero_le _⟩

theorem Queued.congr (h : Queued walk released s) (hqueue : s'.txQueue = s.txQueue) :
    Queued walk released s' :=
  ⟨hqueue.trans h.queue, h.released_le, by rw [hqueue]; exact h.room⟩

/-- The driver accepts a burst. -/
theorem Queued.append (h : Queued walk released s) {burst : List Mbuf}
    (hqueue : s'.txQueue = s.txQueue ++ burst.map some) (hroom : s'.txQueue.length ≤ portTxQueueSize) :
    Queued (walk ++ burst) released s' := by
  refine ⟨?_, ?_, hroom⟩
  · rw [hqueue, h.queue, List.drop_append_of_le_length h.released_le, List.map_append]
  · rw [List.length_append]
    exact h.released_le.trans (Nat.le_add_right _ _)

theorem lap_succ (m lap : ℕ) : m * (16384 * (lap + 1)) = m * (16384 * lap) + m * 16384 := by
  rw [Nat.mul_add 16384, Nat.mul_one, Nat.mul_add]

/-- Since the last refresh a packet has been released at most once for each of its 16384 turns, and once
for each packet in the queue but one. -/
theorem Counted.visits_le (h : Counted packets walk lap base released s) {i : ℕ}
    (hi : i < packets.length) :
    visits packets.length i released ≤ visits packets.length i base + 17407 := by
  have hlap := lap_succ packets.length lap
  have hbound : released ≤ packets.length * 16384 + (base + 1023) := by
    have hlt := h.released_lt
    have hbase := h.lap_base
    rw [portTxQueueSize] at hbase
    omega
  calc visits packets.length i released
      ≤ visits packets.length i (packets.length * 16384 + (base + 1023)) := visits_mono _ _ hbound
    _ = 16384 + visits packets.length i (base + 1023) := visits_add_laps hi _ _
    _ ≤ 16384 + (visits packets.length i base + 1023) := Nat.add_le_add_left (visits_add_le _ _ _ _) _
    _ = visits packets.length i base + 17407 := by omega

theorem Counted.refcnt_pos (h : Counted packets walk lap base released s) {mbuf : Mbuf}
    (hmbuf : mbuf ∈ packets) : 1 ≤ s.refcnt mbuf := by
  obtain ⟨i, hi⟩ := List.mem_iff_getElem?.mp hmbuf
  have hlt : i < packets.length := (List.getElem?_eq_some_iff.mp hi).1
  have hrefcnt := h.refcnt i mbuf hi
  have hvisits := h.visits_le hlt
  omega

/-- A refresh at the end of a lap starts the counts anew. -/
theorem refresh_counted (hpackets : packets ≠ []) (hsent : walk.length = s.worker.packetsCountTx)
    (hq : Queued walk released s)
    (hlap : s.worker.packetsCountTx % (packets.length * 16384) = 0) :
    ∃ lap, Counted packets walk lap released released { s with
      phase := .ready
      refcnt := fun mbuf =>
        if s.worker.packetsCountTx % (packets.length * 16384) = 0 ∧ mbuf ∈ packets then 17408
        else s.refcnt mbuf } := by
  have hpos : 0 < packets.length := List.length_pos_iff.mpr hpackets
  obtain ⟨lap, hdvd⟩ := Nat.dvd_of_mod_eq_zero hlap
  have hlen : walk.length = packets.length * (16384 * lap) := by
    rw [hsent, hdvd, Nat.mul_assoc]
  have hroom : walk.length - released ≤ portTxQueueSize := by
    have := hq.room
    rwa [hq.queue, List.length_map, List.length_drop] at this
  have hreleased := hq.released_le
  have hsucc := lap_succ packets.length lap
  refine ⟨lap, le_rfl, by omega, by omega, by omega, fun _ => by omega, by omega, ?_⟩
  intro i mbuf hi
  simp only [hlap, List.mem_of_getElem? hi, and_self, if_true]

/-- A release that finds a positive count takes one from it, and is one more visit. -/
theorem release_counted (hnodup : packets.Nodup) (htransmits : Transmits packets walk s)
    (hq : Queued walk released s) (h : Counted packets walk lap base released s) {tokens count : ℕ}
    (hphase : s.phase = .sending tokens count) (hrelease : s.release = some s') :
    Queued walk (released + 1) s' ∧ Counted packets walk lap base (released + 1) s' := by
  have hsent := h.sent_lt (by simp [hphase])
  have hlt : released < walk.length := by
    by_contra hge
    rw [State.release, hq.queue, List.drop_of_length_le (not_lt.mp hge)] at hrelease
    cases hrelease
  have hqueue : s.txQueue = some walk[released] :: (walk.drop (released + 1)).map some := by
    rw [hq.queue, List.drop_eq_getElem_cons hlt, List.map_cons]
  have hroom := hq.room
  rw [State.release, hqueue] at hrelease
  obtain rfl := Option.some.inj hrelease
  have hitem : packets[released % packets.length]? = some walk[released] := by
    rw [← htransmits.follows released hlt, List.getElem?_eq_getElem hlt]
  refine ⟨⟨rfl, hlt, ?_⟩, ?_⟩
  · rw [hqueue, List.length_cons] at hroom
    exact (Nat.le_succ _).trans hroom
  · refine ⟨h.base_le.trans (Nat.le_succ _), h.base_lap, h.lap_base, h.sent_le, fun _ => hsent,
      by omega, ?_⟩
    intro i mbuf hi
    have hrefcnt := h.refcnt i mbuf hi
    have hpos := h.refcnt_pos (List.mem_of_getElem? hi)
    rw [visits_succ]
    by_cases hturn : released % packets.length = i
    · obtain rfl : mbuf = walk[released] := Option.some.inj (hi.symm.trans (hturn ▸ hitem))
      simp only [Function.update_self, hturn, if_true]
      omega
    · have hne : mbuf ≠ walk[released] := by
        intro heq
        have hlen := (List.getElem?_eq_some_iff.mp hi).1
        exact hturn ((List.getElem?_inj hlen hnodup).mp (hi.trans (heq ▸ hitem.symm))).symm
      simp only [Function.update_of_ne hne, hturn, if_false]
      omega

/-- The walk is what has been sent. -/
theorem Transmits.walk_eq {walk' : List Mbuf} (h : Transmits packets walk s) (hsent : s.sent = walk'.map some) :
    walk = walk' :=
  List.map_injective_iff.mpr (Option.some_injective Mbuf) (h.sent.symm.trans hsent)

theorem counted_step (hpackets : packets ≠ []) (hnodup : packets.Nodup)
    (htransmits : Transmits packets walk s) (hq : Queued walk released s)
    (h : Counted packets walk lap base released s) {a : Action} (hguard : QueueBounded s a)
    (hstep : s.step a = some s') :
    ∃ walk' lap' base' released', Transmits packets walk' s' ∧ Queued walk' released' s' ∧
      Counted packets walk' lap' base' released' s' := by
  obtain ⟨walk', htransmits'⟩ := htransmits.step hpackets hstep
  cases htransmits.move hpackets hstep with
  | refresh hphase =>
      obtain rfl := htransmits'.walk_eq htransmits.sent
      by_cases hlap : s.worker.packetsCountTx % (packets.length * 16384) = 0
      · obtain ⟨lap', h'⟩ := refresh_counted hpackets htransmits.length hq hlap
        exact ⟨walk', lap', released, released, htransmits', hq.congr rfl, h'⟩
      · have hlt : walk'.length < packets.length * (16384 * (lap + 1)) := by
          refine lt_of_le_of_ne h.sent_le fun heq => hlap ?_
          rw [← htransmits.length, heq, ← Nat.mul_assoc, Nat.mul_mod_right]
        refine ⟨walk', lap, base, released, htransmits', hq.congr rfl,
          ⟨h.base_le, h.base_lap, h.lap_base, h.sent_le, fun _ => hlt, h.released_lt, ?_⟩⟩
        simpa only [hlap, false_and, if_false] using h.refcnt
  | idle limit now hphase hzero =>
      obtain rfl := htransmits'.walk_eq htransmits.sent
      exact ⟨walk', lap, base, released, htransmits', hq.congr rfl,
        { h with sent_lt := fun htop => absurd rfl htop }⟩
  | burst limit now count hphase hwindow hcount htokens =>
      obtain rfl := htransmits'.walk_eq htransmits.sent
      exact ⟨walk', lap, base, released, htransmits', hq.congr rfl,
        { h with sent_lt := fun _ => h.sent_lt (by simp [hphase]) }⟩
  | release tokens count s' hphase hrelease =>
      obtain ⟨queue, refcnt, rfl⟩ := State.release_frame hrelease
      obtain rfl := htransmits'.walk_eq htransmits.sent
      obtain ⟨hq', h'⟩ := release_counted hnodup htransmits hq h hphase hrelease
      exact ⟨walk', lap, base, released + 1, htransmits', hq', h'⟩
  | refused tokens count hphase =>
      obtain rfl := htransmits'.walk_eq htransmits.sent
      exact ⟨walk', lap, base, released, htransmits', hq.congr rfl,
        { h with sent_lt := fun htop => absurd rfl htop }⟩
  | transmit tokens count txSize stat hphase hpos hle hrequests hbytes hlength hbursts =>
      obtain ⟨hwindow, -, -⟩ := htransmits.burst tokens count hphase
      have hlen := length_window (show s.worker.position + txSize ≤ packets.length by omega)
      have hsent := h.sent_lt (by simp [hphase])
      obtain rfl : walk' = walk ++ (packets.drop s.worker.position).take txSize :=
        htransmits'.walk_eq (by rw [List.map_append, ← htransmits.sent])
      refine ⟨_, lap, base, released, htransmits', hq.append rfl ?_,
        { h with sent_lt := fun htop => absurd rfl htop, sent_le := ?_ }⟩
      · show (s.txQueue ++ _).length ≤ _
        rw [List.length_append, List.length_map, hlen]
        exact hguard
      · -- The window ends within the ring, so the walk does not step over the end of the lap.
        rw [List.length_append, hlen]
        exact add_le_of_window (by rw [← htransmits.position_eq]; omega) hsent

/-- **No packet goes back to the pool while a worker runs.** The pool hands out distinct packets, and
the driver releases what it has accepted in order, each inside a later call, and never holds more than
1024 packets: from the first refresh on, every loaded packet keeps a reference. -/
theorem refcnt_never_zero (packets : List Mbuf) (hpackets : packets ≠ []) (hnodup : packets.Nodup)
    (now : ℕ) (w : Worker) (hload : (Worker.new now).loadAll packets = some w) (refcnt : Mbuf → ℕ)
    (actions : List Action) (hactions : actions ≠ [])
    (hguard : Run.Guarded State.step QueueBounded (State.start w refcnt) actions) (s : State)
    (hrun : Run.run State.step (State.start w refcnt) actions = some s) :
    ∀ mbuf ∈ packets, 1 ≤ s.refcnt mbuf := by
  have htransmits := (Worker.loaded_of_loadAll hload).transmits refcnt
  obtain ⟨a, actions, rfl⟩ := List.exists_cons_of_ne_nil hactions
  obtain ⟨s₁, hstep, hrest⟩ := Run.run_cons_eq_some hrun
  -- Nothing but the refresh can come first, and it counts anew, whatever the counts were.
  have hfirst : ∃ walk lap base released, Transmits packets walk s₁ ∧ Queued walk released s₁ ∧
      Counted packets walk lap base released s₁ := by
    obtain ⟨walk, htransmits₁⟩ := htransmits.step hpackets hstep
    cases htransmits.move hpackets hstep with
    | refresh hphase =>
        obtain rfl := htransmits₁.walk_eq htransmits.sent
        obtain ⟨lap, h⟩ := refresh_counted hpackets htransmits.length (start_queued w refcnt) (by
          rw [← htransmits.length]
          exact Nat.zero_mod _)
        exact ⟨[], lap, 0, 0, htransmits₁, ⟨rfl, le_rfl, Nat.zero_le _⟩, h⟩
    | idle limit now hphase hzero => cases hphase
    | burst limit now count hphase hwindow hcount htokens => cases hphase
    | release tokens count s' hphase hrelease => cases hphase
    | refused tokens count hphase => cases hphase
    | transmit tokens count txSize stat hphase hpos hle hrequests hbytes hlength hbursts => cases hphase
  obtain ⟨walk, lap, base, released, -, -, h⟩ := Run.invariant_of_guarded
    (I := fun s => ∃ walk lap base released, Transmits packets walk s ∧ Queued walk released s ∧
      Counted packets walk lap base released s)
    (fun s a s' ⟨_, _, _, _, ht, hq, h⟩ hguard hstep =>
      counted_step hpackets hnodup ht hq h hguard hstep) hfirst (hguard.2 s₁ hstep) hrest
  intro mbuf hmbuf
  exact h.refcnt_pos hmbuf

/-- One packet that is sent twice and released once in between. -/
theorem refcnt_never_zero_one_packet :
    ∃ w s, (Worker.new 0).loadAll [⟨0, 60⟩] = some w ∧
      Run.run State.step (State.start w fun _ => 1) [.refresh, .tick 1 1000000000, .accept 1, .refresh,
        .tick 1 2000000000, .release, .accept 1] = some s ∧
      s.refcnt ⟨0, 60⟩ = 17407 ∧ ∀ mbuf ∈ [(⟨0, 60⟩ : Mbuf)], 1 ≤ s.refcnt mbuf := by
  have hload := Worker.loadAll_new 0 [⟨0, 60⟩]
  rw [if_pos (by decide)] at hload
  have hrefcnt : (Run.run State.step (State.start (Worker.filled 0 [⟨0, 60⟩]) fun _ => 1)
      [.refresh, .tick 1 1000000000, .accept 1, .refresh, .tick 1 2000000000, .release, .accept 1]).map
        (fun s => s.refcnt ⟨0, 60⟩) = some 17407 := by decide +kernel
  obtain ⟨s, hrun, hs⟩ := Option.map_eq_some_iff.mp hrefcnt
  exact ⟨_, s, hload, hrun, hs, refcnt_never_zero _ (by decide) (by decide) 0 _ hload _ _ (by decide)
    (by decide +kernel) s hrun⟩

end Dpdk

end Dwd
