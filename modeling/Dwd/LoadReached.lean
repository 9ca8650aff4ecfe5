import Dwd.LoadSystem

/-! The load reaches what is published. A worker loses load only when a tick finds more than one second's worth of
tokens, which is then cut; a grant that is smaller than the tokens, as the batches of a coroutine are, only delays
it. So as long as no tick is cut, what the workers are granted follows the published rate from below as well. -/

namespace Dwd

namespace LoadSystem

variable {G : Type} {n : ℕ} [Generator G] {s s' : LoadSystem G n} {actions : List (LoadAction n)}

/-- The balance of the worker has not grown beyond one second's worth when it ticks. -/
def Uncut (s : LoadSystem G n) (a : LoadAction n) : Prop := ∀ b ∈ s.rateAction a, s.rates.Uncut b

omit [Generator G] in
instance (s : LoadSystem G n) (a : LoadAction n) : Decidable (s.Uncut a) :=
  inferInstanceAs (Decidable (∀ b ∈ s.rateAction a, s.rates.Uncut b))

/-- A step leaves the cells and the workers as they are, or is one of their own. -/
theorem step_rates {a : LoadAction n} (hstep : s.step a = some s') :
    (s.rateAction a = none ∧ s'.rates = s.rates) ∨
      ∃ b, s.rateAction a = some b ∧ s.rates.step b = some s'.rates := by
  cases moves_of_step hstep with
  | turned pollNow eventNow ui hstored hui => exact .inl ⟨rfl, rfl⟩
  | moved a ui ha hui => exact .inl ⟨rfl, rfl⟩
  | stored now j limit toStore rates hnext hrates =>
      refine .inr ⟨.store now j limit, ?_, hrates⟩
      rw [rateAction, hnext]
      rfl
  | worked a b rates hb hstore hrates hui => exact .inr ⟨b, hb, hrates⟩

/-- **What the cells and the workers see of a run is a run of theirs.** -/
theorem run_rates (hrun : Run.run LoadSystem.step s actions = some s')
    (huncut : Run.Guarded LoadSystem.step Uncut s actions) :
    Run.run RateSystem.step s.rates (s.rateActions actions) = some s'.rates ∧
      Run.Guarded RateSystem.step RateSystem.Uncut s.rates (s.rateActions actions) := by
  induction actions generalizing s with
  | nil =>
      obtain rfl := Option.some.inj hrun
      exact ⟨rfl, trivial⟩
  | cons a actions ih =>
      obtain ⟨s₁, hstep, hrest⟩ := Run.run_cons_eq_some hrun
      obtain ⟨hrun', hguard⟩ := ih hrest (huncut.2 s₁ hstep)
      rw [rateActions, hstep]
      rcases step_rates hstep with ⟨hnone, hrates⟩ | ⟨b, hb, hrates⟩
      · rw [hnone, ← hrates]
        exact ⟨hrun', hguard⟩
      · rw [hb]
        refine ⟨?_, Run.Guarded.cons (huncut.1 b hb) hrates hguard⟩
        show (s.rates.step b).bind _ = some s'.rates
        rw [hrates]
        exact hrun'

omit [Generator G] in
theorem Kept.le_cells {u v : ℕ} (h : s.Kept fun rate => u ≤ rate ∧ rate ≤ v) :
    (fun j : Fin n => share u n j) ≤ s.rates.cells ∧ s.rates.cells ≤ fun j : Fin n => share v n j := by
  refine ⟨fun j => ?_, fun j => ?_⟩
  all_goals
    obtain ⟨rate, ⟨hlow, hhigh⟩, heq⟩ := h.cells j
    rw [heq]
  · exact share_mono j.isLt hlow
  · exact share_mono j.isLt hhigh

omit [Generator G] in
theorem Kept.keeps {u v : ℕ} (h : s.Kept fun rate => u ≤ rate ∧ rate ≤ v) {a : LoadAction n} {b : RateAction n}
    (hb : s.rateAction a = some b) :
    RateSystem.Keeps (fun j : Fin n => share u n j) (fun j : Fin n => share v n j) b := by
  intro now j limit heq
  subst heq
  cases a with
  | ui a => cases hb
  | store now' =>
      obtain ⟨p, hp, heq⟩ := Option.map_eq_some_iff.mp hb
      cases heq
      obtain ⟨rate, ⟨hlow, hhigh⟩, heq⟩ := h.toStore p (List.mem_of_mem_head? hp)
      rw [heq]
      exact ⟨share_mono p.1.isLt hlow, share_mono p.1.isLt hhigh⟩
  | tick now' i => cases hb
  | consume now' i => cases hb

/-- **The load reaches what is published.** From any state that a run leads to, between two turns of the loop, in
which the published rate is between `u` and `v`: as long as the loop polls only rates between these, and no tick of
a worker is cut, the workers are granted at least `u` requests for every second, but for the `v` of one second, from
a time when all of them have ticked to a time before all of them have ticked again; however the stores of the turns
and the ticks of the workers interleave, and however small the batches of the workers are. -/
theorem load_reaches_published (hn : 0 < n) (g : G) (kinds : Fin n → WorkerKind) (t0 : ℕ)
    (before actions : List (LoadAction n)) (s s' : LoadSystem G n)
    (hbefore : Run.run LoadSystem.step (new g kinds t0) before = some s) (hstored : s.toStore = [])
    (hrun : Run.run LoadSystem.step s actions = some s') (u v start stop : ℕ)
    (hpublished : u ≤ s.ui.control.loop.generator ∧ s.ui.control.loop.generator ≤ v)
    (hpolls : Run.Guarded LoadSystem.step (PollsOnly fun rate => u ≤ rate ∧ rate ≤ v) s actions)
    (huncut : Run.Guarded LoadSystem.step Uncut s actions)
    (hstart : ∀ j, (s.rates.workers j).shaper.prevTs ≤ start)
    (hstop : ∀ j, stop ≤ (s'.rates.workers j).shaper.prevTs) :
    (u : ℚ) * Duration.asSecs (stop - start) ≤ s.totalGranted actions + v := by
  have hs := run_settled hn hbefore
  have hkept := hs.kept hstored (P := fun rate => u ≤ rate ∧ rate ≤ v) hpublished
  obtain ⟨hlow, hhigh⟩ := hkept.le_cells
  obtain ⟨hrates, hguard⟩ := run_rates hrun huncut
  have hkeeps := forall_rateActions hs hkept hpolls fun _ _ _ hkept _ hb => hkept.keeps hb
  exact RateSystem.le_totalGranted hn hs.rates hlow hhigh hkeeps hguard hrates hstart hstop

/-- Half a second of two workers, and the turn of the loop in between; both tick again after a second. -/
def firstSecond (i j : Fin n) : List (LoadAction n) :=
  [.tick 500000000 i, .ui (.turn 2 2), .consume 500000001 i, .store 500000002, .tick 500000003 j, .store 500000004,
    .consume 500000005 j, .tick 1000000000 i, .tick 1000000000 j]

theorem load_reaches_published_five :
    ∃ s s', Run.run LoadSystem.step (new (⟨5, 5, 0, 9⟩ : LineGenerator) (fun _ : Fin 2 => WorkerKind.coro) 0)
        [.ui (.turn 1 1), .store 1, .store 1] = some s ∧
      Run.run LoadSystem.step s (firstSecond 0 1) = some s' ∧ s.totalGranted (firstSecond 0 1) = 5 ∧
      ((5 : ℕ) : ℚ) * Duration.asSecs (1000000000 - 0) ≤ s.totalGranted (firstSecond 0 1) + (5 : ℕ) := by
  have hruns : ((Run.run LoadSystem.step
      (new (⟨5, 5, 0, 9⟩ : LineGenerator) (fun _ : Fin 2 => WorkerKind.coro) 0)
      [.ui (.turn 1 1), .store 1, .store 1]).bind fun s => (Run.run LoadSystem.step s (firstSecond 0 1)).map fun s' =>
        decide ((s.toStore = [] ∧ 5 ≤ s.ui.control.loop.generator ∧ s.ui.control.loop.generator ≤ 5) ∧
          Run.Guarded LoadSystem.step (PollsOnly fun rate => 5 ≤ rate ∧ rate ≤ 5) s (firstSecond 0 1) ∧
          Run.Guarded LoadSystem.step Uncut s (firstSecond 0 1) ∧ (∀ j, (s.rates.workers j).shaper.prevTs ≤ 0) ∧
          (∀ j, 1000000000 ≤ (s'.rates.workers j).shaper.prevTs) ∧ s.totalGranted (firstSecond 0 1) = 5)) =
      some true := by decide +kernel
  obtain ⟨s, hbefore, hs⟩ := Option.bind_eq_some_iff.mp hruns
  obtain ⟨s', hrun, hfacts⟩ := Option.map_eq_some_iff.mp hs
  obtain ⟨⟨hstored, hpublished⟩, hpolls, huncut, hstart, hstop, hgranted⟩ := of_decide_eq_true hfacts
  exact ⟨s, s', hbefore, hrun, hgranted, load_reaches_published (by decide) (⟨5, 5, 0, 9⟩ : LineGenerator)
    (fun _ : Fin 2 => WorkerKind.coro) 0 [.ui (.turn 1 1), .store 1, .store 1] (firstSecond 0 1) s s' hbefore hstored
    hrun 5 5 0 1000000000 hpublished hpolls huncut hstart hstop⟩

end LoadSystem

end Dwd
