import Mathlib.Data.List.ReduceOption
import Dwd.DpdkRefcnt
import Dwd.LibRefcount

/-! The end of a DPDK run. The worker's reference counts are far above one while it sends the same packets over
and over; when it has stopped, the count of every loaded packet is set to one, and the driver frees what is still
in its queue when the device is closed. A packet that is in the queue twice is freed twice then, with a single
reference. The queue holds what was sent last, so this depends on nothing but its length. -/

namespace Dwd

namespace Dpdk

/-- The driver frees what its queue holds, a null pointer without effect. There is no result when a packet is freed
that is back in the pool. -/
def State.closeQueue (s : State) : Option (Mbuf → ℕ) := Refcount.freeAll s.refcnt s.txQueue.reduceOption

/-- The driver holds the end of the walk. -/
structure Pending (packets walk : List Mbuf) (released : ℕ) (s : State) : Prop where
  transmits : Transmits packets walk s
  queue : s.txQueue = (walk.drop released).map some
  released_le : released ≤ walk.length

variable {packets walk : List Mbuf} {released : ℕ} {s s' : State}

/-- **Every step keeps the end of the walk in the queue.** -/
theorem Pending.step (h : Pending packets walk released s) (hpackets : packets ≠ []) {a : Action}
    (hstep : s.step a = some s') : ∃ walk' released', Pending packets walk' released' s' := by
  obtain ⟨htransmits, hqueue, hle⟩ := h
  obtain ⟨walk', htransmits'⟩ := htransmits.step hpackets hstep
  cases htransmits.move hpackets hstep with
  | refresh hphase =>
      obtain rfl := htransmits'.walk_eq htransmits.sent
      exact ⟨walk', released, htransmits', hqueue, hle⟩
  | idle limit now hphase hzero =>
      obtain rfl := htransmits'.walk_eq htransmits.sent
      exact ⟨walk', released, htransmits', hqueue, hle⟩
  | burst limit now count hphase hwindow hcount htokens =>
      obtain rfl := htransmits'.walk_eq htransmits.sent
      exact ⟨walk', released, htransmits', hqueue, hle⟩
  | release tokens count s' hphase hrelease =>
      obtain ⟨queue, refcnt, rfl⟩ := State.release_frame hrelease
      obtain rfl := htransmits'.walk_eq htransmits.sent
      have hlt : released < walk'.length := by
        by_contra hge
        rw [State.release, hqueue, List.drop_of_length_le (not_lt.mp hge)] at hrelease
        cases hrelease
      refine ⟨walk', released + 1, htransmits', ?_, hlt⟩
      rw [State.release, hqueue, List.drop_eq_getElem_cons hlt, List.map_cons] at hrelease
      exact (congrArg State.txQueue (Option.some.inj hrelease)).symm
  | refused tokens count hphase =>
      obtain rfl := htransmits'.walk_eq htransmits.sent
      exact ⟨walk', released, htransmits', hqueue, hle⟩
  | transmit tokens count txSize stat hphase hpos hcount hrequests hbytes hlength hbursts =>
      obtain rfl : walk' = walk ++ (packets.drop s.worker.position).take txSize :=
        htransmits'.walk_eq (by rw [List.map_append, ← htransmits.sent])
      refine ⟨_, released, htransmits', ?_, ?_⟩
      · show s.txQueue ++ _ = _
        rw [hqueue, List.drop_append_of_le_length hle, List.map_append]
      · rw [List.length_append]
        exact hle.trans (Nat.le_add_right _ _)

theorem Pending.run (hpackets : packets ≠ []) {w : Worker} (hw : w.Loaded packets) {refcnt : Mbuf → ℕ}
    {actions : List Action} (hrun : Run.run State.step (State.start w refcnt) actions = some s) :
    ∃ walk released, Pending packets walk released s := by
  refine Run.invariant (I := fun s => ∃ walk released, Pending packets walk released s) ?_
    ⟨[], 0, hw.transmits refcnt, rfl, le_rfl⟩ hrun
  rintro s a s' ⟨walk, released, h⟩ hstep
  exact h.step hpackets hstep

/-- The reset gives one reference to every loaded packet. -/
theorem Pending.resetRefcnt_eq (h : Pending packets walk released s) (mbuf : Mbuf) :
    s.resetRefcnt.refcnt mbuf = if mbuf ∈ packets then 1 else s.refcnt mbuf := by
  have hmem : some mbuf ∈ s.worker.mbufs.take s.worker.mbufsCount ↔ mbuf ∈ packets := by
    rw [h.transmits.mbufsCount, h.transmits.mbufs, List.mem_map]
    exact ⟨fun ⟨_, hm, heq⟩ => Option.some.inj heq ▸ hm, fun hm => ⟨mbuf, hm, rfl⟩⟩
  show (if some mbuf ∈ s.worker.mbufs.take s.worker.mbufsCount then 1 else s.refcnt mbuf) = _
  simp only [hmem]

theorem Pending.reduceOption_eq (h : Pending packets walk released s) :
    s.txQueue.reduceOption = walk.drop released := by
  rw [h.queue, List.reduceOption, List.filterMap_map]
  exact List.filterMap_some

/-- What is in the queue has been loaded. -/
theorem Pending.mem_packets (h : Pending packets walk released s) {mbuf : Mbuf}
    (hmbuf : mbuf ∈ walk.drop released) : mbuf ∈ packets := by
  obtain ⟨k, hk⟩ := List.mem_iff_getElem?.mp (List.mem_of_mem_drop hmbuf)
  have hlt := (List.getElem?_eq_some_iff.mp hk).1
  rw [h.transmits.follows k hlt] at hk
  exact List.mem_of_getElem? hk

/-- **The driver frees no packet twice exactly when it holds at most one lap.** -/
theorem Pending.closeQueue_isSome_iff (h : Pending packets walk released s) (hpackets : packets ≠ [])
    (hnodup : packets.Nodup) : s.resetRefcnt.closeQueue.isSome ↔ s.txQueue.length ≤ packets.length := by
  have hlength : s.txQueue.length = walk.length - released := by
    rw [h.queue, List.length_map, List.length_drop]
  calc s.resetRefcnt.closeQueue.isSome
      ↔ ∀ mbuf, s.txQueue.reduceOption.count mbuf ≤ s.resetRefcnt.refcnt mbuf := Refcount.freeAll_isSome_iff
    _ ↔ ∀ mbuf, (walk.drop released).count mbuf ≤ 1 := by
        rw [h.reduceOption_eq]
        refine forall_congr' fun mbuf => ?_
        rw [h.resetRefcnt_eq]
        by_cases hmbuf : mbuf ∈ packets
        · rw [if_pos hmbuf]
        · rw [List.count_eq_zero_of_not_mem fun hmem => hmbuf (h.mem_packets hmem)]
          exact iff_of_true (Nat.zero_le _) (Nat.zero_le _)
    _ ↔ (walk.drop released).Nodup := List.nodup_iff_count_le_one.symm
    _ ↔ s.txQueue.length ≤ packets.length := by
        rw [h.transmits.follows.nodup_drop_iff hnodup hpackets, hlength]

/-- Then the packets of the queue are back in the pool, and the others still have their reference. -/
theorem Pending.closeQueue_eq (h : Pending packets walk released s) {refs : Mbuf → ℕ}
    (hclose : s.resetRefcnt.closeQueue = some refs) {mbuf : Mbuf} (hmbuf : mbuf ∈ packets) :
    refs mbuf = if some mbuf ∈ s.txQueue then 0 else 1 := by
  obtain ⟨hcount, rfl⟩ := Refcount.freeAll_eq_some_iff.mp hclose
  have hqueue : s.resetRefcnt.txQueue.reduceOption = walk.drop released := h.reduceOption_eq
  have hle := hcount mbuf
  rw [hqueue] at hle
  rw [h.resetRefcnt_eq, if_pos hmbuf] at hle
  have hmem : some mbuf ∈ s.txQueue ↔ mbuf ∈ walk.drop released := by
    rw [h.queue, List.mem_map]
    exact ⟨fun ⟨_, hm, heq⟩ => Option.some.inj heq ▸ hm, fun hm => ⟨mbuf, hm, rfl⟩⟩
  show s.resetRefcnt.refcnt mbuf - List.count mbuf s.resetRefcnt.txQueue.reduceOption = _
  rw [hqueue, h.resetRefcnt_eq, if_pos hmbuf]
  by_cases hin : some mbuf ∈ s.txQueue
  · have hpos := List.count_pos_iff.mpr (hmem.mp hin)
    rw [if_pos hin]
    omega
  · rw [if_neg hin, List.count_eq_zero_of_not_mem fun h => hin (hmem.mpr h)]

theorem tick_one_second (t : ℕ) :
    (Shaper.new 0 t).tick 1 (t + nanosPerSec) =
      (1, { tokens := 1, burstSize := 0, prevTs := t + nanosPerSec }) := by
  have hsecs : Duration.asSecs (t + nanosPerSec - t) = 1 := by
    rw [Nat.add_sub_cancel_left, Duration.asSecs]
    exact div_self (Nat.cast_ne_zero.mpr (by decide))
  have htrunc : truncU64 1 = 1 := by decide +kernel
  have htokens : min ((0 : ℚ) + (1 : ℕ) * Duration.asSecs (t + nanosPerSec - t)) (1 : ℕ) = 1 := by
    rw [hsecs, Nat.cast_one, mul_one, zero_add, min_self]
  rw [Shaper.tick_of_burstSize_zero rfl]
  show (truncU64 (min ((0 : ℚ) + (1 : ℕ) * Duration.asSecs (t + nanosPerSec - t)) (1 : ℕ)), _) = _
  rw [Shaper.new, htokens, htrunc]

theorem burstSize_one {w : Worker} (hpos : 0 < w.mbufsCount) : w.burstSize 1 = 1 := by
  have hposition : w.position < w.mbufsCount := Nat.mod_lt _ hpos
  rw [Worker.burstSize]
  omega

/-- From the top of the loop, a second at a limit of one sends one packet more, whatever the queue holds. -/
theorem Transmits.send_one (h : Transmits packets walk s) (hpackets : packets ≠ []) (hphase : s.phase = .top)
    {t : ℕ} (hshaper : s.worker.shaper = Shaper.new 0 t) :
    ∃ s₁ s₂ s' walk', s.step .refresh = some s₁ ∧ s₁.step (.tick 1 (t + nanosPerSec)) = some s₂ ∧
      s₂.step (.accept 1) = some s' ∧ Transmits packets walk' s' ∧ s'.phase = .top ∧
      s'.worker.shaper = Shaper.new 0 (t + nanosPerSec) ∧ s₂.txQueue.length = s.txQueue.length ∧
      s'.txQueue.length = s.txQueue.length + 1 := by
  have hpos : 0 < packets.length := List.length_pos_iff.mpr hpackets
  have hrefresh : s.step .refresh = some s.refresh := if_pos hphase
  obtain ⟨walk₁, h₁⟩ := h.step hpackets hrefresh
  have hready : s.refresh.phase = .ready := by rw [h.refresh_eq]
  have hworker : s.refresh.worker = s.worker := by rw [h.refresh_eq]
  have hqueue : s.refresh.txQueue = s.txQueue := by rw [h.refresh_eq]
  have htick : ∃ s₂, s.refresh.step (.tick 1 (t + nanosPerSec)) = some s₂ ∧ s₂.phase = .sending 1 1 ∧
      s₂.worker.shaper = { tokens := 1, burstSize := 0, prevTs := t + nanosPerSec } ∧
      s₂.worker.position = s.worker.position ∧ s₂.txQueue = s.txQueue := by
    have hcount : s.worker.mbufsCount ≠ 0 := by
      rw [h.mbufsCount]
      exact hpos.ne'
    have hburst : ({ s.worker with
        shaper := { tokens := 1, burstSize := 0, prevTs := t + nanosPerSec } } : Worker).burstSize 1 = 1 :=
      burstSize_one (Nat.pos_of_ne_zero hcount)
    simp only [State.step, if_pos hready, State.tick, hworker, hshaper, tick_one_second, Nat.one_ne_zero,
      if_false, hcount]
    rw [hburst]
    exact ⟨_, rfl, rfl, rfl, rfl, hqueue⟩
  obtain ⟨s₂, htick, hsending, hgranted, hposition, hqueue₂⟩ := htick
  obtain ⟨walk₂, h₂⟩ := h₁.step hpackets htick
  obtain ⟨stat, haccount, -⟩ := h₂.account_eq hsending le_rfl le_rfl
  have haccept : s₂.step (.accept 1) = some (s₂.account 1 1) := by
    simp only [State.step, hsending, State.accept, lt_irrefl, Nat.one_ne_zero, if_false]
  obtain ⟨walk₃, h₃⟩ := h₂.step hpackets haccept
  refine ⟨_, s₂, _, walk₃, hrefresh, htick, haccept, h₃, ?_, ?_, congrArg List.length hqueue₂, ?_⟩
  · rw [haccount]
  · rw [haccount]
    show s₂.worker.shaper.consume 1 = _
    rw [hgranted, Shaper.consume, Nat.cast_one, sub_self, Shaper.new]
  · have hlt : s.worker.position < packets.length := by
      rw [h.position_eq]
      exact Nat.mod_lt _ hpos
    rw [haccount]
    show (s₂.txQueue ++ ((packets.drop s₂.worker.position).take 1).map some).length = _
    rw [hposition, hqueue₂, List.length_append, List.length_map, Ring.length_window hlt]

/-- A run that sends `k` packets and releases none. -/
theorem exists_filling (hpackets : packets ≠ []) (k : ℕ) (h : Transmits packets walk s) (hphase : s.phase = .top)
    {t : ℕ} (hshaper : s.worker.shaper = Shaper.new 0 t) (hroom : s.txQueue.length + k ≤ portTxQueueSize) :
    ∃ actions s', Run.run State.step s actions = some s' ∧ Run.Guarded State.step QueueBounded s actions ∧
      s'.phase = .top ∧ s'.txQueue.length = s.txQueue.length + k := by
  induction k generalizing walk s t with
  | zero => exact ⟨[], s, rfl, trivial, hphase, rfl⟩
  | succ k ih =>
      obtain ⟨s₁, s₂, s₃, walk', hrefresh, htick, haccept, h', hphase', hshaper', hqueue, hlength⟩ :=
        h.send_one hpackets hphase hshaper
      obtain ⟨actions, s', hrun, hguard, htop, hfilled⟩ := ih h' hphase' hshaper' (by omega)
      refine ⟨.refresh :: .tick 1 (t + nanosPerSec) :: .accept 1 :: actions, s', ?_, ?_, htop, by omega⟩
      · rw [Run.run, hrefresh, Option.bind_some, Run.run, htick, Option.bind_some, Run.run, haccept,
          Option.bind_some, hrun]
      · have hbounded : QueueBounded s₂ (.accept 1) := by
          show s₂.txQueue.length + 1 ≤ portTxQueueSize
          omega
        exact Run.Guarded.cons trivial hrefresh (Run.Guarded.cons trivial htick
          (Run.Guarded.cons hbounded haccept hguard))

/-- A driver that has no more than its descriptors holds no more packets. -/
theorem txQueue_le_of_guarded {actions : List Action} {w : Worker} {refcnt : Mbuf → ℕ}
    (hpackets : packets ≠ []) (hw : w.Loaded packets)
    (hguard : Run.Guarded State.step QueueBounded (State.start w refcnt) actions)
    (hrun : Run.run State.step (State.start w refcnt) actions = some s) :
    s.txQueue.length ≤ portTxQueueSize := by
  have hstart : ∃ walk, Transmits packets walk (State.start w refcnt) ∧
      (State.start w refcnt).txQueue.length ≤ portTxQueueSize := ⟨[], hw.transmits refcnt, Nat.zero_le _⟩
  have hend : ∃ walk, Transmits packets walk s ∧ s.txQueue.length ≤ portTxQueueSize := by
    refine Run.invariant_of_guarded (I := fun s => ∃ walk, Transmits packets walk s ∧
      s.txQueue.length ≤ portTxQueueSize) ?_ hstart hguard hrun
    rintro s a s' ⟨walk, h, hle⟩ hroom hstep
    obtain ⟨walk', h'⟩ := h.step hpackets hstep
    refine ⟨walk', h', ?_⟩
    cases h.move hpackets hstep with
    | release tokens count s' hphase hrelease =>
        unfold State.release at hrelease
        split at hrelease
        · cases hrelease
        · rename_i heq
          obtain rfl := Option.some.inj hrelease
          rw [heq] at hle
          exact (Nat.le_succ _).trans hle
        · rename_i heq
          obtain rfl := Option.some.inj hrelease
          rw [heq] at hle
          exact (Nat.le_succ _).trans hle
    | transmit tokens count txSize stat hphase hpos hcount hrequests hbytes hlength hbursts =>
        obtain ⟨hwindow, -, -⟩ := h.burst tokens count hphase
        show (s.txQueue ++ ((packets.drop s.worker.position).take txSize).map some).length ≤ _
        rw [List.length_append, List.length_map,
          Ring.length_window (show s.worker.position + txSize ≤ packets.length by omega)]
        exact hroom
    | _ => exact hle
  exact hend.elim fun _ h => h.2

/-- **The shutdown of a worker.** In every state that a run leads to: after the reset the driver frees no packet
twice exactly when it holds no more packets than were loaded, and then what it held is back in the pool, and the
rest has its reference. With a driver that holds no more than 1024 packets, a shutdown is safe after every run
exactly when at least 1024 packets were loaded. -/
theorem shutdown_safe_iff (packets : List Mbuf) (hpackets : packets ≠ []) (hnodup : packets.Nodup) (now : ℕ)
    (w : Worker) (hload : (Worker.new now).loadAll packets = some w) (refcnt : Mbuf → ℕ) :
    (∀ actions s, Run.run State.step (State.start w refcnt) actions = some s →
      (s.resetRefcnt.closeQueue.isSome ↔ s.txQueue.length ≤ packets.length) ∧
        ∀ refs, s.resetRefcnt.closeQueue = some refs → ∀ mbuf ∈ packets,
          refs mbuf = if some mbuf ∈ s.txQueue then 0 else 1) ∧
      ((∀ actions s, Run.Guarded State.step QueueBounded (State.start w refcnt) actions →
          Run.run State.step (State.start w refcnt) actions = some s → s.phase = .top →
            s.resetRefcnt.closeQueue.isSome) ↔ portTxQueueSize ≤ packets.length) := by
  have hw := Worker.loaded_of_loadAll hload
  have hclose : ∀ actions s, Run.run State.step (State.start w refcnt) actions = some s →
      (s.resetRefcnt.closeQueue.isSome ↔ s.txQueue.length ≤ packets.length) := by
    intro actions s hrun
    obtain ⟨walk, released, h⟩ := Pending.run hpackets hw hrun
    exact h.closeQueue_isSome_iff hpackets hnodup
  refine ⟨fun actions s hrun => ⟨hclose actions s hrun, fun refs hrefs mbuf hmbuf => ?_⟩, ?_, ?_⟩
  · obtain ⟨walk, released, h⟩ := Pending.run hpackets hw hrun
    exact h.closeQueue_eq hrefs hmbuf
  · intro hsafe
    by_contra hfew
    have hshaper : w.shaper = Shaper.new 0 now := by
      rw [Worker.loadAll_new] at hload
      split_ifs at hload
      obtain rfl := Option.some.inj hload
      rfl
    obtain ⟨actions, s, hrun, hguard, htop, hlength⟩ := exists_filling hpackets (packets.length + 1)
      (hw.transmits refcnt) rfl hshaper (by
        show 0 + (packets.length + 1) ≤ portTxQueueSize
        omega)
    have hle := (hclose actions s hrun).mp (hsafe actions s hguard hrun htop)
    have hzero : (State.start w refcnt).txQueue.length = 0 := rfl
    omega
  · intro hmany actions s hguard hrun _
    exact (hclose actions s hrun).mpr ((txQueue_le_of_guarded hpackets hw hguard hrun).trans hmany)

/-- Two packets are not enough. -/
theorem shutdown_safe_iff_two_packets :
    ∃ w, (Worker.new 0).loadAll [⟨0, 60⟩, ⟨1, 100⟩] = some w ∧
      ¬∀ actions s, Run.Guarded State.step QueueBounded (State.start w fun _ => 1) actions →
        Run.run State.step (State.start w fun _ => 1) actions = some s → s.phase = .top →
          s.resetRefcnt.closeQueue.isSome := by
  have hload := Worker.loadAll_new 0 [⟨0, 60⟩, ⟨1, 100⟩]
  rw [if_pos (by decide)] at hload
  refine ⟨_, hload, fun hsafe => ?_⟩
  have hmany := (shutdown_safe_iff _ (by decide) (by decide) 0 _ hload fun _ => 1).2.mp hsafe
  exact absurd hmany (by decide)

end Dpdk

end Dwd
