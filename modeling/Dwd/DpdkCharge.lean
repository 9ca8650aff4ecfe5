import Dwd.DpdkTransmit

/-! What a DPDK worker is charged for. A burst is cut at 32 packets, at the end of the ring and at what
the driver accepts, but the loop consumes the whole grant as soon as anything has gone out. So the
charge is right exactly when the driver takes a grant as a whole or not at all. -/

namespace Dwd

namespace Dpdk

/-- The driver takes the whole grant, or nothing. -/
def TakesAll (s : State) : Action → Prop
  | .accept txSize => ∀ tokens count, s.phase = .sending tokens count → txSize = 0 ∨ txSize = tokens
  | _ => True

/-- Tokens that no packet has used stay in the balance. -/
def KeepsUnused (s : State) : Action → Prop
  | .accept txSize => ∀ s', s.step (.accept txSize) = some s' →
      s'.worker.shaper.tokens = s.worker.shaper.tokens - txSize
  | _ => True

variable {packets walk : List Mbuf} {s s' : State}

/-- A step is charged for at least what it sends, and for no more exactly when the grant is taken as a
whole; and then, and only then, the unused tokens are kept. -/
theorem Transmits.step_charge (h : Transmits packets walk s) (hpackets : packets ≠ []) {a : Action}
    (hstep : s.step a = some s') :
    s.consumed + s'.worker.packetsCountTx ≤ s'.consumed + s.worker.packetsCountTx ∧
      (s.consumed + s'.worker.packetsCountTx = s'.consumed + s.worker.packetsCountTx ↔ TakesAll s a) ∧
      (KeepsUnused s a ↔ TakesAll s a) := by
  cases h.move hpackets hstep with
  | refresh hphase => exact ⟨le_rfl, iff_of_true rfl trivial, Iff.rfl⟩
  | idle limit now hphase hzero => exact ⟨le_rfl, iff_of_true rfl trivial, Iff.rfl⟩
  | burst limit now count hphase hwindow hcount htokens => exact ⟨le_rfl, iff_of_true rfl trivial, Iff.rfl⟩
  | release tokens count s' hphase hrelease =>
      obtain ⟨queue, refcnt, rfl⟩ := State.release_frame hrelease
      exact ⟨le_rfl, iff_of_true rfl trivial, Iff.rfl⟩
  | refused tokens count hphase =>
      have hall : TakesAll s (.accept 0) := fun _ _ _ => .inl rfl
      refine ⟨le_rfl, iff_of_true rfl hall, iff_of_true ?_ hall⟩
      intro s'' hstep'
      obtain rfl := Option.some.inj (hstep.symm.trans hstep')
      simp
  | transmit tokens count txSize stat hphase hpos hle hrequests hbytes hlength hbursts =>
      obtain ⟨-, -, htokens⟩ := h.burst tokens count hphase
      have hall : TakesAll s (.accept txSize) ↔ txSize = tokens := by
        constructor
        · intro hall
          rcases hall tokens count hphase with hzero | heq
          · omega
          · exact heq
        · rintro rfl tokens' count' hphase'
          rw [hphase] at hphase'
          exact .inr (Phase.sending.inj hphase').1
      refine ⟨?_, ?_, ?_⟩
      · simp only
        omega
      · rw [hall]
        simp only
        omega
      · rw [hall]
        constructor
        · intro hkeeps
          have htokens' : s.worker.shaper.tokens - (tokens : ℚ) = s.worker.shaper.tokens - txSize :=
            hkeeps _ hstep
          exact_mod_cast (sub_right_inj.mp htokens').symm
        · rintro rfl s'' hstep'
          obtain rfl := Option.some.inj (hstep.symm.trans hstep')
          rfl

/-- The same over a run. -/
theorem Transmits.run_charge (h : Transmits packets walk s) (hpackets : packets ≠ [])
    {actions : List Action} (hrun : Run.run State.step s actions = some s') :
    s.consumed + s'.worker.packetsCountTx ≤ s'.consumed + s.worker.packetsCountTx ∧
      (s.consumed + s'.worker.packetsCountTx = s'.consumed + s.worker.packetsCountTx ↔
        Run.Guarded State.step TakesAll s actions) ∧
      (Run.Guarded State.step KeepsUnused s actions ↔ Run.Guarded State.step TakesAll s actions) := by
  induction actions generalizing s walk with
  | nil =>
      obtain rfl := Option.some.inj hrun
      exact ⟨le_rfl, iff_of_true rfl trivial, Iff.rfl⟩
  | cons a actions ih =>
      obtain ⟨s₁, hstep, hrest⟩ := Run.run_cons_eq_some hrun
      obtain ⟨walk₁, h₁⟩ := h.step hpackets hstep
      obtain ⟨hle, heq, hkeeps⟩ := h.step_charge hpackets hstep
      obtain ⟨hle₁, heq₁, hkeeps₁⟩ := ih h₁ hrest
      refine ⟨by omega, ?_, ?_⟩
      · rw [Run.guarded_cons_iff hstep, ← heq, ← heq₁]
        omega
      · rw [Run.guarded_cons_iff hstep, Run.guarded_cons_iff hstep, hkeeps, hkeeps₁]

/-- **A DPDK worker is charged for what it sends, and keeps what it does not use, exactly in the runs
in which the driver takes every grant as a whole or not at all.** -/
theorem charged_for_sent_iff (packets : List Mbuf) (hpackets : packets ≠ []) (now : ℕ) (w : Worker)
    (hload : (Worker.new now).loadAll packets = some w) (refcnt : Mbuf → ℕ) (actions : List Action)
    (s : State) (hrun : Run.run State.step (State.start w refcnt) actions = some s) :
    (s.consumed = s.worker.packetsCountTx ∧
        Run.Guarded State.step KeepsUnused (State.start w refcnt) actions) ↔
      Run.Guarded State.step TakesAll (State.start w refcnt) actions := by
  have hloaded := Worker.loaded_of_loadAll hload
  obtain ⟨-, heq, hkeeps⟩ := (hloaded.transmits refcnt).run_charge hpackets hrun
  have hsent : (State.start w refcnt).worker.packetsCountTx = 0 := hloaded.packetsCountTx
  have hconsumed : (State.start w refcnt).consumed = 0 := rfl
  rw [hsent, hconsumed, Nat.zero_add, Nat.add_zero] at heq
  rw [hkeeps, ← heq]
  constructor
  · rintro ⟨h, -⟩
    exact h.symm
  · intro h
    exact ⟨h.symm, h⟩

instance decidableTakesAll (s : State) : ∀ a, Decidable (TakesAll s a)
  | .accept txSize =>
      match hphase : s.phase with
      | .sending tokens _ => decidable_of_iff (txSize = 0 ∨ txSize = tokens)
          ⟨fun h _ _ heq => (Phase.sending.inj (hphase.symm.trans heq)).1 ▸ h, fun h => h tokens _ hphase⟩
      | .top => isTrue fun _ _ heq => nomatch hphase.symm.trans heq
      | .ready => isTrue fun _ _ heq => nomatch hphase.symm.trans heq
      | .crashed => isTrue fun _ _ heq => nomatch hphase.symm.trans heq
  | .refresh => isTrue trivial
  | .tick _ _ => isTrue trivial
  | .release => isTrue trivial

/-- Two packets and a grant of two, which the driver takes as a whole. -/
theorem charged_for_sent_two_packets :
    ∃ w s, (Worker.new 0).loadAll [⟨0, 60⟩, ⟨1, 100⟩] = some w ∧
      Run.run State.step (State.start w fun _ => 1) [.refresh, .tick 2 1000000000, .accept 2] = some s ∧
      s.consumed = s.worker.packetsCountTx ∧
      Run.Guarded State.step KeepsUnused (State.start w fun _ => 1)
        [.refresh, .tick 2 1000000000, .accept 2] := by
  have hload := Worker.loadAll_new 0 [⟨0, 60⟩, ⟨1, 100⟩]
  rw [if_pos (by decide)] at hload
  have hsome : (Run.run State.step (State.start (Worker.filled 0 [⟨0, 60⟩, ⟨1, 100⟩]) fun _ => 1)
      [.refresh, .tick 2 1000000000, .accept 2]).isSome := by decide +kernel
  obtain ⟨s, hrun⟩ := Option.isSome_iff_exists.mp hsome
  exact ⟨_, s, hload, hrun, (charged_for_sent_iff _ (by decide) 0 _ hload _ _ s hrun).mpr (by decide +kernel)⟩

/-- One packet and a grant of five: the burst ends with the ring, one packet goes out, and all five
tokens are gone. -/
theorem charged_for_unsent :
    ∃ w s, (Worker.new 0).loadAll [⟨0, 60⟩] = some w ∧
      Run.run State.step (State.start w fun _ => 1) [.refresh, .tick 5 1000000000, .accept 1] = some s ∧
      s.worker.packetsCountTx = 1 ∧ s.consumed = 5 ∧ s.worker.shaper.tokens = 0 ∧
      s.consumed ≠ s.worker.packetsCountTx := by
  have hload := Worker.loadAll_new 0 [⟨0, 60⟩]
  rw [if_pos (by decide)] at hload
  have hcharge : (Run.run State.step (State.start (Worker.filled 0 [⟨0, 60⟩]) fun _ => 1)
      [.refresh, .tick 5 1000000000, .accept 1]).map (fun s =>
        (s.worker.packetsCountTx, s.consumed, s.worker.shaper.tokens)) = some (1, 5, 0) := by
    decide +kernel
  obtain ⟨s, hrun, hs⟩ := Option.map_eq_some_iff.mp hcharge
  obtain ⟨hpackets, hs⟩ := Prod.mk.inj hs
  obtain ⟨hconsumed, htokens⟩ := Prod.mk.inj hs
  refine ⟨_, s, hload, hrun, hpackets, hconsumed, htokens, ?_⟩
  rw [hpackets, hconsumed]
  decide

end Dpdk

end Dwd
