import Dwd.RateContract

/-! The rate contract in a window in which the limits change. Whatever is stored into the cells, a worker is
granted no more in the window than it would be at the highest limit that its cell has there; and it is granted no
less than at the lowest of them, but for one second's worth, if none of its ticks is cut. -/

namespace Dwd

namespace ShapedWorker

/-- A tick pays for what it grants out of the budget of any limit that is not below its own. -/
theorem tick_budget_of_le {w : ShapedWorker} (h : w.Sound) (hpending : w.pending = 0) {limit bound : ℕ}
    (hlimit : limit ≤ bound) {now stop : ℕ} (hprev : w.shaper.prevTs ≤ now) (hstop : now ≤ stop) :
    (w.tick limit now).pending + (w.tick limit now).budget bound stop ≤ w.budget bound stop := by
  have hsplit : Duration.asSecs (stop - w.shaper.prevTs) =
      Duration.asSecs (now - w.shaper.prevTs) + Duration.asSecs (stop - now) := by
    rw [← asSecs_add]
    congr 1
    omega
  have haccrued : (limit : ℚ) * Duration.asSecs (now - w.shaper.prevTs) ≤
      bound * Duration.asSecs (now - w.shaper.prevTs) :=
    mul_le_mul_of_nonneg_right (Nat.cast_le.mpr hlimit) (asSecs_nonneg _)
  have hmin := min_le_left (w.shaper.tokens + limit * Duration.asSecs (now - w.shaper.prevTs)) (limit : ℚ)
  rw [budget, budget, tick_prevTs h, tick_tokens h, hpending, hsplit, mul_add, Nat.cast_zero]
  linarith

/-- The first tick of a window leaves a budget of at most one second's worth and what accrues after it. -/
theorem tick_budget_le_of_le {w : ShapedWorker} (h : w.Sound) {limit bound : ℕ} (hlimit : limit ≤ bound)
    (stop : ℕ) {now start : ℕ} (hstart : start ≤ now) :
    (w.tick limit now).pending + (w.tick limit now).budget bound stop ≤
      bound * Duration.asSecs (stop - start) + bound := by
  have hmin := min_le_right (w.shaper.tokens + limit * Duration.asSecs (now - w.shaper.prevTs)) (limit : ℚ)
  have hbound : (limit : ℚ) ≤ bound := Nat.cast_le.mpr hlimit
  have hsecs : Duration.asSecs (stop - now) ≤ Duration.asSecs (stop - start) := by
    rw [show stop - start = stop - now + (stop - start - (stop - now)) by omega, asSecs_add]
    linarith [asSecs_nonneg (stop - start - (stop - now))]
  have hmul : (bound : ℚ) * Duration.asSecs (stop - now) ≤ bound * Duration.asSecs (stop - start) :=
    mul_le_mul_of_nonneg_left hsecs (Nat.cast_nonneg _)
  rw [budget, tick_prevTs h, tick_tokens h]
  linarith

end ShapedWorker

namespace RateSystem

variable {n : ℕ}

/-- An action of a window: between `start` and `stop`, and storing no more than `limits`. -/
structure Within (limits : Fin n → ℕ) (start stop : ℕ) (a : RateAction n) : Prop where
  start : start ≤ a.now
  stop : a.now ≤ stop
  store : ∀ now j limit, a = .store now j limit → limit ≤ limits j

theorem Within.cells_le {s s' : RateSystem n} {a : RateAction n} {limits : Fin n → ℕ} {start stop : ℕ}
    (ha : Within limits start stop a) (h : s.step a = some s') (hcells : s.cells ≤ limits) :
    s'.cells ≤ limits := by
  unfold step at h
  split_ifs at h
  cases a with
  | store now i limit =>
      obtain rfl := Option.some.inj h
      exact update_le_iff.mpr ⟨ha.store now i limit rfl, fun j _ => hcells j⟩
  | tick now i =>
      simp only at h
      split_ifs at h
      obtain rfl := Option.some.inj h
      exact hcells
  | consume now i =>
      simp only at h
      split_ifs at h
      obtain rfl := Option.some.inj h
      exact hcells

theorem Sound.budget_nonneg {s : RateSystem n} (hs : s.Sound) (j : Fin n) (limit stop : ℕ) :
    0 ≤ (s.workers j).budget limit stop :=
  add_nonneg (sub_nonneg.mpr (hs.worker j).covered) (mul_nonneg (Nat.cast_nonneg _) (asSecs_nonneg _))

theorem cells_of_store {s s' : RateSystem n} {now limit : ℕ} {j : Fin n}
    (h : s.step (.store now j limit) = some s') : s'.cells = Function.update s.cells j limit := by
  simp only [step] at h
  split_ifs at h
  obtain rfl := Option.some.inj h
  rfl

/-- What the ticks of a worker grant until `stop` is within its budget for the highest of its limits. -/
theorem grantedBy_le_budget_of_within {limits : Fin n → ℕ} {start stop : ℕ} (j : Fin n) {s : RateSystem n}
    {actions : List (RateAction n)} (hs : s.Sound) (hcells : s.cells ≤ limits)
    (hwithin : ∀ a ∈ actions, Within limits start stop a) :
    (grantedBy j s actions : ℚ) ≤ (s.workers j).budget (limits j) stop := by
  induction actions generalizing s with
  | nil => simpa only [grantedBy, Nat.cast_zero] using hs.budget_nonneg j (limits j) stop
  | cons a actions ih =>
      have ha := hwithin a List.mem_cons_self
      rw [grantedBy]
      cases hstep : s.step a with
      | none => simpa only [Nat.cast_zero] using hs.budget_nonneg j (limits j) stop
      | some s' =>
          have hrest := ih (hs.step hstep) (ha.cells_le hstep hcells)
            fun b hb => hwithin b (List.mem_cons_of_mem _ hb)
          simp only [Nat.cast_add]
          obtain ⟨hle, -, ⟨hgrant, hpending, heq⟩ | ⟨hzero, heq⟩ | ⟨hzero, heq⟩⟩ := step_worker hstep j
          · have hpay := ShapedWorker.tick_budget_of_le (hs.worker j) hpending (hcells j)
              ((hs.prevTs j).trans hle) ha.stop
            rw [heq] at hgrant hrest
            rw [hgrant]
            linarith
          · rw [heq, ShapedWorker.consume_budget] at hrest
            rw [hzero, Nat.cast_zero, zero_add]
            exact hrest
          · rw [heq] at hrest
            rw [hzero, Nat.cast_zero, zero_add]
            exact hrest

/-- One worker in a window: at most the highest of its limits for every second, and one second's worth more. -/
theorem grantedBy_le_of_within {limits : Fin n → ℕ} {start stop : ℕ} (j : Fin n) {s : RateSystem n}
    {actions : List (RateAction n)} (hs : s.Sound) (hcells : s.cells ≤ limits)
    (hwithin : ∀ a ∈ actions, Within limits start stop a) :
    (grantedBy j s actions : ℚ) ≤ limits j * Duration.asSecs (stop - start) + limits j := by
  have hnonneg : 0 ≤ (limits j : ℚ) * Duration.asSecs (stop - start) + limits j :=
    add_nonneg (mul_nonneg (Nat.cast_nonneg _) (asSecs_nonneg _)) (Nat.cast_nonneg _)
  induction actions generalizing s with
  | nil => simpa only [grantedBy, Nat.cast_zero] using hnonneg
  | cons a actions ih =>
      have ha := hwithin a List.mem_cons_self
      have hwithin' : ∀ b ∈ actions, Within limits start stop b := fun b hb =>
        hwithin b (List.mem_cons_of_mem _ hb)
      rw [grantedBy]
      cases hstep : s.step a with
      | none => simpa only [Nat.cast_zero] using hnonneg
      | some s' =>
          have hs' := hs.step hstep
          have hcells' := ha.cells_le hstep hcells
          simp only [Nat.cast_add]
          obtain ⟨-, -, ⟨hgrant, -, heq⟩ | ⟨hzero, -⟩ | ⟨hzero, -⟩⟩ := step_worker hstep j
          · have hfirst := ShapedWorker.tick_budget_le_of_le (hs.worker j) (hcells j) stop ha.start
            have hrest := grantedBy_le_budget_of_within j hs' hcells' hwithin'
            rw [heq] at hgrant hrest
            rw [hgrant]
            linarith
          · rw [hzero, Nat.cast_zero, zero_add]
            exact ih hs' hcells' hwithin'
          · rw [hzero, Nat.cast_zero, zero_add]
            exact ih hs' hcells' hwithin'

/-- All workers together, while no cell is above its share of `v`. -/
theorem totalGranted_le_of_within (hn : 0 < n) {v start stop : ℕ} {s : RateSystem n}
    {actions : List (RateAction n)} (hs : s.Sound) (hcells : s.cells ≤ fun j : Fin n => share v n j)
    (hwithin : ∀ a ∈ actions, Within (fun j : Fin n => share v n j) start stop a) :
    (totalGranted s actions : ℚ) ≤ v * Duration.asSecs (stop - start) + v := by
  have hsum : ∑ j : Fin n, (share v n j : ℚ) = v := by
    rw [← Nat.cast_sum, sum_share v hn]
  have hworkers : ∑ j, (grantedBy j s actions : ℚ) ≤
      ∑ j : Fin n, ((share v n j : ℚ) * Duration.asSecs (stop - start) + share v n j) := by
    apply Finset.sum_le_sum
    intro j _
    have hworker := grantedBy_le_of_within j hs hcells hwithin
    exact hworker
  calc (totalGranted s actions : ℚ)
      = ∑ j, (grantedBy j s actions : ℚ) := by rw [totalGranted, Nat.cast_sum]
    _ ≤ ∑ j : Fin n, ((share v n j : ℚ) * Duration.asSecs (stop - start) + share v n j) := hworkers
    _ = v * Duration.asSecs (stop - start) + v := by
        rw [Finset.sum_add_distrib, ← Finset.sum_mul, hsum]

end RateSystem

/-! ### The load is reached -/

namespace ShapedWorker

/-- What is left of the tokens when the requests of the last grant are consumed. -/
def balance (w : ShapedWorker) : ℚ := w.shaper.tokens - w.pending

theorem Sound.balance_nonneg {w : ShapedWorker} (h : w.Sound) : 0 ≤ w.balance := sub_nonneg.mpr h.covered

/-- A tick that is not cut grants or keeps all that has accrued. -/
theorem balance_le_tick {w : ShapedWorker} (h : w.Sound) (hpending : w.pending = 0) {limit bound now : ℕ}
    (hbound : bound ≤ limit)
    (huncut : w.shaper.tokens + limit * Duration.asSecs (now - w.shaper.prevTs) ≤ limit) :
    w.balance + bound * Duration.asSecs (now - w.shaper.prevTs) ≤
      (w.tick limit now).pending + (w.tick limit now).balance := by
  have haccrued : (bound : ℚ) * Duration.asSecs (now - w.shaper.prevTs) ≤
      limit * Duration.asSecs (now - w.shaper.prevTs) :=
    mul_le_mul_of_nonneg_right (Nat.cast_le.mpr hbound) (asSecs_nonneg _)
  rw [balance, balance, tick_tokens h, min_eq_left huncut, hpending, Nat.cast_zero]
  linarith

theorem tick_balance_le {w : ShapedWorker} (h : w.Sound) (limit now : ℕ) : (w.tick limit now).balance ≤ limit := by
  have hmin := min_le_right (w.shaper.tokens + limit * Duration.asSecs (now - w.shaper.prevTs)) (limit : ℚ)
  have hpending : (0 : ℚ) ≤ (w.tick limit now).pending := Nat.cast_nonneg _
  rw [balance, tick_tokens h]
  linarith

theorem consume_balance (w : ShapedWorker) : w.consume.balance = w.balance := by
  simp only [balance, consume, Shaper.consume, Nat.cast_zero, sub_zero]

end ShapedWorker

namespace RateSystem

variable {n : ℕ} {low high : Fin n → ℕ} {s s' : RateSystem n} {a : RateAction n}

/-- The balance of the worker has not grown beyond one second's worth when it ticks. -/
def Uncut (s : RateSystem n) : RateAction n → Prop
  | .tick now j =>
      (s.workers j).shaper.tokens + s.cells j * Duration.asSecs (now - (s.workers j).shaper.prevTs) ≤ s.cells j
  | _ => True

instance (s : RateSystem n) : (a : RateAction n) → Decidable (s.Uncut a)
  | .tick _ _ => inferInstanceAs (Decidable (_ ≤ _))
  | .store _ _ _ => isTrue trivial
  | .consume _ _ => isTrue trivial

/-- What is stored lies between the limits. -/
def Keeps (low high : Fin n → ℕ) (a : RateAction n) : Prop :=
  ∀ now j limit, a = .store now j limit → low j ≤ limit ∧ limit ≤ high j

theorem Keeps.step (ha : Keeps low high a) (h : s.step a = some s') (hlow : low ≤ s.cells) (hhigh : s.cells ≤ high) :
    low ≤ s'.cells ∧ s'.cells ≤ high := by
  cases a with
  | store now j limit =>
      obtain ⟨hle, hge⟩ := ha now j limit rfl
      rw [cells_of_store h]
      exact ⟨le_update_iff.mpr ⟨hle, fun i _ => hlow i⟩, update_le_iff.mpr ⟨hge, fun i _ => hhigh i⟩⟩
  | tick now j =>
      rw [step_cells h rfl nofun]
      exact ⟨hlow, hhigh⟩
  | consume now j =>
      rw [step_cells h rfl nofun]
      exact ⟨hlow, hhigh⟩

/-- A worker ticks, or has consumed its grant, or stays as it was. -/
theorem worker_cases (h : s.step a = some s') (j : Fin n) :
    (∃ now, a = .tick now j ∧ s.clock ≤ now ∧ (s.workers j).pending = 0 ∧
        s'.workers j = (s.workers j).tick (s.cells j) now) ∨
      (∃ now, a = .consume now j ∧ s'.workers j = (s.workers j).consume) ∨
        ((∀ now, a ≠ .consume now j) ∧ s.granted j a = 0 ∧ s'.workers j = s.workers j) := by
  unfold step at h
  split_ifs at h with hclock
  cases a with
  | store now i limit =>
      obtain rfl := Option.some.inj h
      exact .inr (.inr ⟨nofun, rfl, rfl⟩)
  | tick now i =>
      simp only at h
      split_ifs at h with hpending
      obtain rfl := Option.some.inj h
      by_cases hij : i = j
      · subst hij
        exact .inl ⟨now, rfl, Nat.le_of_not_lt hclock, not_not.mp hpending, Function.update_self ..⟩
      · exact .inr (.inr ⟨nofun, if_neg hij, Function.update_of_ne (Ne.symm hij) ..⟩)
  | consume now i =>
      simp only at h
      split_ifs at h with hpending
      obtain rfl := Option.some.inj h
      by_cases hij : i = j
      · subst hij
        exact .inr (.inl ⟨now, rfl, Function.update_self ..⟩)
      · refine .inr (.inr ⟨fun now' heq => ?_, rfl, Function.update_of_ne (Ne.symm hij) ..⟩)
        exact hij (RateAction.consume.inj heq).2

/-- What a worker is granted up to its last tick, and what it has then left, is at least what it had and what has
accrued at the lowest limit. Once it has ticked, it has one second's worth left at most. -/
structure Accrues (low high : ℕ) (w w' : ShapedWorker) (granted : ℕ) : Prop where
  accrued : w.balance + low * Duration.asSecs (w'.shaper.prevTs - w.shaper.prevTs) ≤ granted + w'.balance
  prevTs : w.shaper.prevTs ≤ w'.shaper.prevTs
  left : w'.balance ≤ high ∨ w'.shaper.prevTs = w.shaper.prevTs ∧ w'.balance = w.balance

theorem Accrues.refl (low high : ℕ) {w w' : ShapedWorker} (hprev : w'.shaper.prevTs = w.shaper.prevTs)
    (hbalance : w'.balance = w.balance) : Accrues low high w w' 0 := by
  refine ⟨?_, hprev.ge, .inr ⟨hprev, hbalance⟩⟩
  rw [hprev, hbalance, Nat.sub_self, Duration.asSecs, Nat.cast_zero, zero_div, mul_zero, add_zero, zero_add]

theorem Accrues.trans {low high granted granted' : ℕ} {w w' w'' : ShapedWorker} (h : Accrues low high w w' granted)
    (h' : Accrues low high w' w'' granted') : Accrues low high w w'' (granted + granted') := by
  have hsplit : w''.shaper.prevTs - w.shaper.prevTs =
      (w'.shaper.prevTs - w.shaper.prevTs) + (w''.shaper.prevTs - w'.shaper.prevTs) := by
    have := h.prevTs
    have := h'.prevTs
    omega
  refine ⟨?_, h.prevTs.trans h'.prevTs, ?_⟩
  · have hfirst := h.accrued
    have hsecond := h'.accrued
    rw [hsplit, asSecs_add, mul_add, Nat.cast_add]
    linarith
  · rcases h'.left with hle | ⟨hprev, hbalance⟩
    · exact .inl hle
    · rw [hprev, hbalance]
      exact h.left

/-- **A step of a worker whose ticks are not cut.** -/
theorem step_accrues (hs : s.Sound) (h : s.step a = some s') (huncut : s.Uncut a) (hlow : low ≤ s.cells)
    (hhigh : s.cells ≤ high) (j : Fin n) :
    Accrues (low j) (high j) (s.workers j) (s'.workers j) (s.granted j a) := by
  rcases worker_cases h j with ⟨now, rfl, hnow, hpending, heq⟩ | ⟨now, rfl, heq⟩ | ⟨-, hzero, heq⟩
  · have hgranted : s.granted j (.tick now j) = ((s.workers j).tick (s.cells j) now).pending := if_pos rfl
    have hprev := ShapedWorker.tick_prevTs (hs.worker j) (s.cells j) now
    rw [hgranted, heq]
    refine ⟨?_, ?_, .inl ?_⟩
    · rw [hprev]
      exact ShapedWorker.balance_le_tick (hs.worker j) hpending (hlow j) huncut
    · rw [hprev]
      exact (hs.prevTs j).trans hnow
    · exact (ShapedWorker.tick_balance_le (hs.worker j) _ now).trans (Nat.cast_le.mpr (hhigh j))
  · rw [heq]
    exact Accrues.refl (low j) (high j) rfl (s.workers j).consume_balance
  · rw [hzero, heq]
    exact Accrues.refl (low j) (high j) rfl rfl

theorem run_accrues {actions : List (RateAction n)} (hs : s.Sound) (hlow : low ≤ s.cells) (hhigh : s.cells ≤ high)
    (hkeeps : ∀ a ∈ actions, Keeps low high a) (huncut : Run.Guarded RateSystem.step Uncut s actions)
    (hrun : Run.run RateSystem.step s actions = some s') (j : Fin n) :
    Accrues (low j) (high j) (s.workers j) (s'.workers j) (grantedBy j s actions) := by
  induction actions generalizing s with
  | nil =>
      obtain rfl := Option.some.inj hrun
      exact Accrues.refl (low j) (high j) rfl rfl
  | cons a actions ih =>
      obtain ⟨s₁, hstep, hrest⟩ := Run.run_cons_eq_some hrun
      obtain ⟨hlow', hhigh'⟩ := (hkeeps a List.mem_cons_self).step hstep hlow hhigh
      have hfirst := step_accrues hs hstep huncut.1 hlow hhigh j
      have hothers := ih (hs.step hstep) hlow' hhigh' (fun b hb => hkeeps b (List.mem_cons_of_mem _ hb))
        (huncut.2 s₁ hstep) hrest
      rw [grantedBy, hstep]
      exact hfirst.trans hothers

/-- One worker, from a time after its last tick to a time before its last tick in the run: at least the lowest of
its limits for every second, but for one second's worth of the highest. -/
theorem le_grantedBy {actions : List (RateAction n)} (hs : s.Sound) (hlow : low ≤ s.cells) (hhigh : s.cells ≤ high)
    (hkeeps : ∀ a ∈ actions, Keeps low high a) (huncut : Run.Guarded RateSystem.step Uncut s actions)
    (hrun : Run.run RateSystem.step s actions = some s') {j : Fin n} {start stop : ℕ}
    (hstart : (s.workers j).shaper.prevTs ≤ start) (hstop : stop ≤ (s'.workers j).shaper.prevTs) :
    (low j : ℚ) * Duration.asSecs (stop - start) ≤ grantedBy j s actions + high j := by
  have haccrues := run_accrues hs hlow hhigh hkeeps huncut hrun j
  rcases haccrues.left with hle | ⟨hprev, -⟩
  · have haccrued := haccrues.accrued
    have hbalance := (hs.worker j).balance_nonneg
    have hsecs : Duration.asSecs (stop - start) ≤
        Duration.asSecs ((s'.workers j).shaper.prevTs - (s.workers j).shaper.prevTs) := by
      rw [Duration.asSecs, Duration.asSecs]
      have hcast : ((stop - start : ℕ) : ℚ) ≤
          ((s'.workers j).shaper.prevTs - (s.workers j).shaper.prevTs : ℕ) := by
        exact_mod_cast (by omega : stop - start ≤ (s'.workers j).shaper.prevTs - (s.workers j).shaper.prevTs)
      exact div_le_div_of_nonneg_right hcast (Nat.cast_nonneg _)
    have hmul : (low j : ℚ) * Duration.asSecs (stop - start) ≤
        low j * Duration.asSecs ((s'.workers j).shaper.prevTs - (s.workers j).shaper.prevTs) :=
      mul_le_mul_of_nonneg_left hsecs (Nat.cast_nonneg _)
    linarith
  · have hzero : stop - start = 0 := by omega
    rw [hzero, Duration.asSecs, Nat.cast_zero, zero_div, mul_zero]
    positivity

/-- All workers together, while every cell is between its shares of `u` and `v`. -/
theorem le_totalGranted (hn : 0 < n) {u v start stop : ℕ} {actions : List (RateAction n)} (hs : s.Sound)
    (hlow : (fun j : Fin n => share u n j) ≤ s.cells) (hhigh : s.cells ≤ fun j : Fin n => share v n j)
    (hkeeps : ∀ a ∈ actions, Keeps (fun j : Fin n => share u n j) (fun j : Fin n => share v n j) a)
    (huncut : Run.Guarded RateSystem.step Uncut s actions) (hrun : Run.run RateSystem.step s actions = some s')
    (hstart : ∀ j, (s.workers j).shaper.prevTs ≤ start) (hstop : ∀ j, stop ≤ (s'.workers j).shaper.prevTs) :
    (u : ℚ) * Duration.asSecs (stop - start) ≤ totalGranted s actions + v := by
  have hsum : ∀ w : ℕ, ∑ j : Fin n, (share w n j : ℚ) = w := fun w => by rw [← Nat.cast_sum, sum_share w hn]
  calc (u : ℚ) * Duration.asSecs (stop - start)
      = ∑ j : Fin n, (share u n j : ℚ) * Duration.asSecs (stop - start) := by rw [← Finset.sum_mul, hsum]
    _ ≤ ∑ j : Fin n, ((grantedBy j s actions : ℚ) + share v n j) := by
        apply Finset.sum_le_sum
        intro j _
        exact le_grantedBy hs hlow hhigh hkeeps huncut hrun (hstart j) (hstop j)
    _ = totalGranted s actions + v := by rw [Finset.sum_add_distrib, hsum, totalGranted, Nat.cast_sum]

end RateSystem

end Dwd
