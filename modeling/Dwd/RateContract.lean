import Dwd.LibRun
import Dwd.RateControl
import Dwd.Shaper
import Mathlib.Algebra.Order.BigOperators.Group.Finset

/-! The rate contract of the shaped workers. Every worker reads its own limit cell; the rate-control
loop stores into the cells at any time, workers tick at any time, and the requests of a grant take
as long as they take before the grant is consumed. What the ticks of one worker can grant by a time
`stop` is bounded by its unspent balance and what accrues until then, and its first tick inside a
window leaves a balance of at most one second's worth. -/

namespace Dwd

/-- The two worker loops over a shaper: `Worker::run` of the UDP engine, and `ShapedCoroWorker::run`
of the others. -/
inductive WorkerKind where
  | udp
  | coro
  deriving DecidableEq, Repr

namespace WorkerKind

/-- How many requests a loop performs and consumes for a grant. -/
def batch : WorkerKind → ℕ → ℕ
  | .udp, n => n
  | .coro, n => min n 32

theorem batch_le (kind : WorkerKind) (n : ℕ) : kind.batch n ≤ n := by
  cases kind with
  | udp => exact le_rfl
  | coro => exact min_le_left n 32

end WorkerKind

/-- A worker, with the requests of its last grant that are not consumed yet. -/
structure ShapedWorker where
  kind : WorkerKind
  shaper : Shaper
  pending : ℕ

namespace ShapedWorker

/-- Both engines build their shapers without a burst size. -/
def new (kind : WorkerKind) (now : ℕ) : ShapedWorker :=
  { kind := kind, shaper := Shaper.new 0 now, pending := 0 }

def tick (limit now : ℕ) (w : ShapedWorker) : ShapedWorker :=
  let r := w.shaper.tick limit now
  { w with shaper := r.2, pending := w.kind.batch r.1 }

def consume (w : ShapedWorker) : ShapedWorker :=
  { w with shaper := w.shaper.consume w.pending, pending := 0 }

/-- The balance covers the requests that are not consumed yet. -/
structure Sound (w : ShapedWorker) : Prop where
  burstSize : w.shaper.burstSize = 0
  covered : (w.pending : ℚ) ≤ w.shaper.tokens

/-- What ticks up to `stop` can still grant at a steady limit: the unspent balance and what accrues
until then. -/
def budget (w : ShapedWorker) (limit stop : ℕ) : ℚ :=
  w.shaper.tokens - w.pending + limit * Duration.asSecs (stop - w.shaper.prevTs)

theorem Sound.tokens_nonneg {w : ShapedWorker} (h : w.Sound) : 0 ≤ w.shaper.tokens :=
  (Nat.cast_nonneg _).trans h.covered

theorem new_sound (kind : WorkerKind) (now : ℕ) : (new kind now).Sound :=
  ⟨rfl, by simp [new, Shaper.new]⟩

theorem Sound.tick {w : ShapedWorker} (h : w.Sound) (limit now : ℕ) : (w.tick limit now).Sound := by
  refine ⟨?_, ?_⟩
  · rw [ShapedWorker.tick, Shaper.tick_of_burstSize_zero h.burstSize]
    exact h.burstSize
  · calc ((w.tick limit now).pending : ℚ)
        ≤ (w.shaper.tick limit now).1 := Nat.cast_le.mpr (w.kind.batch_le _)
      _ ≤ (w.shaper.tick limit now).2.tokens := Shaper.tick_granted_le h.tokens_nonneg limit now

theorem Sound.consume {w : ShapedWorker} (h : w.Sound) : w.consume.Sound := by
  refine ⟨h.burstSize, ?_⟩
  simp only [ShapedWorker.consume, Shaper.consume, Nat.cast_zero]
  linarith [h.covered]

theorem tick_prevTs {w : ShapedWorker} (h : w.Sound) (limit now : ℕ) :
    (w.tick limit now).shaper.prevTs = now := by
  rw [tick, Shaper.tick_of_burstSize_zero h.burstSize]

theorem tick_tokens {w : ShapedWorker} (h : w.Sound) (limit now : ℕ) :
    (w.tick limit now).shaper.tokens =
      min (w.shaper.tokens + limit * Duration.asSecs (now - w.shaper.prevTs)) limit := by
  rw [tick, Shaper.tick_of_burstSize_zero h.burstSize]

/-- A tick pays for what it grants out of the budget. -/
theorem tick_budget {w : ShapedWorker} (h : w.Sound) (hpending : w.pending = 0) (limit : ℕ)
    {now stop : ℕ} (hprev : w.shaper.prevTs ≤ now) (hstop : now ≤ stop) :
    (w.tick limit now).pending + (w.tick limit now).budget limit stop ≤ w.budget limit stop := by
  have hsplit : Duration.asSecs (stop - w.shaper.prevTs) =
      Duration.asSecs (now - w.shaper.prevTs) + Duration.asSecs (stop - now) := by
    rw [← asSecs_add]
    congr 1
    omega
  rw [budget, budget, tick_prevTs h, tick_tokens h, hpending, hsplit, mul_add, Nat.cast_zero]
  have hmin := min_le_left (w.shaper.tokens + limit * Duration.asSecs (now - w.shaper.prevTs)) (limit : ℚ)
  linarith

/-- Whatever the balance was before, a tick leaves a budget of at most one second's worth and what
accrues after it. -/
theorem tick_budget_le {w : ShapedWorker} (h : w.Sound) (limit stop : ℕ) {now start : ℕ}
    (hstart : start ≤ now) :
    (w.tick limit now).pending + (w.tick limit now).budget limit stop ≤
      limit * Duration.asSecs (stop - start) + limit := by
  have hmin := min_le_right (w.shaper.tokens + limit * Duration.asSecs (now - w.shaper.prevTs)) (limit : ℚ)
  have hsecs : Duration.asSecs (stop - now) ≤ Duration.asSecs (stop - start) := by
    rw [show stop - start = stop - now + (stop - start - (stop - now)) by omega, asSecs_add]
    linarith [asSecs_nonneg (stop - start - (stop - now))]
  have hmul : (limit : ℚ) * Duration.asSecs (stop - now) ≤ limit * Duration.asSecs (stop - start) :=
    mul_le_mul_of_nonneg_left hsecs (Nat.cast_nonneg _)
  rw [budget, tick_prevTs h, tick_tokens h]
  linarith

theorem consume_budget (w : ShapedWorker) (limit stop : ℕ) :
    w.consume.budget limit stop = w.budget limit stop := by
  simp only [budget, consume, Shaper.consume, Nat.cast_zero]
  ring

end ShapedWorker

/-- `n` workers, each with its own limit cell, and the time of the last action. -/
structure RateSystem (n : ℕ) where
  cells : Fin n → ℕ
  workers : Fin n → ShapedWorker
  clock : ℕ

/-- An atomic action: the rate-control loop stores into one cell, a worker ticks, or a worker
consumes its grant after the requests of it. -/
inductive RateAction (n : ℕ) where
  | store (now : ℕ) (j : Fin n) (limit : ℕ)
  | tick (now : ℕ) (j : Fin n)
  | consume (now : ℕ) (j : Fin n)

namespace RateAction

def now {n : ℕ} : RateAction n → ℕ
  | .store now _ _ => now
  | .tick now _ => now
  | .consume now _ => now

end RateAction

namespace RateSystem

variable {n : ℕ}

/-- The system at its start: fresh workers, and any values in the cells. -/
def new (kinds : Fin n → WorkerKind) (limits : Fin n → ℕ) (now : ℕ) : RateSystem n :=
  { cells := limits, workers := fun j => ShapedWorker.new (kinds j) now, clock := now }

/-- Time does not go back, a worker ticks only between grants, and consumes only a grant. -/
def step (s : RateSystem n) (a : RateAction n) : Option (RateSystem n) :=
  if a.now < s.clock then none
  else match a with
    | .store now j limit => some { s with cells := Function.update s.cells j limit, clock := now }
    | .tick now j =>
        if (s.workers j).pending ≠ 0 then none
        else some
          { s with
            workers := Function.update s.workers j ((s.workers j).tick (s.cells j) now)
            clock := now }
    | .consume now j =>
        if (s.workers j).pending = 0 then none
        else some
          { s with workers := Function.update s.workers j (s.workers j).consume, clock := now }

/-- The requests that the action grants to worker `j`. -/
def granted (j : Fin n) (s : RateSystem n) : RateAction n → ℕ
  | .tick now i => if i = j then ((s.workers j).tick (s.cells j) now).pending else 0
  | _ => 0

/-- The requests that the ticks of a run grant to worker `j`. -/
def grantedBy (j : Fin n) : RateSystem n → List (RateAction n) → ℕ
  | _, [] => 0
  | s, a :: actions =>
      match s.step a with
      | none => 0
      | some s' => s.granted j a + grantedBy j s' actions

/-- The requests granted by all ticks of a run. -/
def totalGranted (s : RateSystem n) (actions : List (RateAction n)) : ℕ :=
  ∑ j, grantedBy j s actions

/-- Every worker's balance covers its pending requests, and no worker is ahead of the clock. -/
structure Sound (s : RateSystem n) : Prop where
  worker : ∀ j, (s.workers j).Sound
  prevTs : ∀ j, (s.workers j).shaper.prevTs ≤ s.clock

theorem new_sound (kinds : Fin n → WorkerKind) (limits : Fin n → ℕ) (now : ℕ) :
    (new kinds limits now).Sound :=
  ⟨fun j => ShapedWorker.new_sound (kinds j) now, fun _ => le_rfl⟩

/-- What an action does to a single worker. -/
theorem step_worker {s s' : RateSystem n} {a : RateAction n} (h : s.step a = some s') (j : Fin n) :
    s.clock ≤ a.now ∧ s'.clock = a.now ∧
    ((s.granted j a = (s'.workers j).pending ∧ (s.workers j).pending = 0 ∧
        s'.workers j = (s.workers j).tick (s.cells j) a.now) ∨
      (s.granted j a = 0 ∧ s'.workers j = (s.workers j).consume) ∨
      (s.granted j a = 0 ∧ s'.workers j = s.workers j)) := by
  unfold step at h
  split_ifs at h with hclock
  refine ⟨Nat.le_of_not_lt hclock, ?_⟩
  cases a with
  | store now i limit =>
      obtain rfl := Option.some.inj h
      exact ⟨rfl, .inr (.inr ⟨rfl, rfl⟩)⟩
  | tick now i =>
      simp only at h
      split_ifs at h with hpending
      obtain rfl := Option.some.inj h
      refine ⟨rfl, ?_⟩
      by_cases hij : i = j
      · subst hij
        have heq := Function.update_self i ((s.workers i).tick (s.cells i) now) s.workers
        exact .inl ⟨(if_pos rfl).trans (congrArg ShapedWorker.pending heq.symm), not_not.mp hpending, heq⟩
      · exact .inr (.inr ⟨if_neg hij, Function.update_of_ne (Ne.symm hij) ..⟩)
  | consume now i =>
      simp only at h
      split_ifs at h with hpending
      obtain rfl := Option.some.inj h
      refine ⟨rfl, ?_⟩
      by_cases hij : i = j
      · subst hij
        exact .inr (.inl ⟨rfl, Function.update_self ..⟩)
      · exact .inr (.inr ⟨rfl, Function.update_of_ne (Ne.symm hij) ..⟩)

theorem Sound.step {s s' : RateSystem n} {a : RateAction n} (hs : s.Sound)
    (h : s.step a = some s') : s'.Sound := by
  refine ⟨fun j => ?_, fun j => ?_⟩
  · obtain ⟨-, -, ⟨-, -, heq⟩ | ⟨-, heq⟩ | ⟨-, heq⟩⟩ := step_worker h j
    · rw [heq]
      exact (hs.worker j).tick _ _
    · rw [heq]
      exact (hs.worker j).consume
    · rw [heq]
      exact hs.worker j
  · obtain ⟨hle, hclock, ⟨-, -, heq⟩ | ⟨-, heq⟩ | ⟨-, heq⟩⟩ := step_worker h j
    · rw [heq, ShapedWorker.tick_prevTs (hs.worker j), hclock]
    · rw [heq, hclock]
      exact (hs.prevTs j).trans hle
    · rw [heq, hclock]
      exact (hs.prevTs j).trans hle

/-- **No balance is ever negative**, whatever is stored into the cells and whenever the workers
tick. -/
theorem Sound.run {s s' : RateSystem n} {actions : List (RateAction n)} (hs : s.Sound)
    (h : Run.run RateSystem.step s actions = some s') : s'.Sound :=
  Run.invariant (fun _ _ _ hs h => Sound.step hs h) hs h

/-! ### Windows -/

/-- The actions of a window: between `start` and `stop`, and storing nothing but `limits`. -/
def Steady (limits : Fin n → ℕ) (start stop : ℕ) (actions : List (RateAction n)) : Prop :=
  ∀ a ∈ actions, start ≤ a.now ∧ a.now ≤ stop ∧
    ∀ now j limit, a = .store now j limit → limit = limits j

theorem step_cells {s s' : RateSystem n} {a : RateAction n} {limits : Fin n → ℕ}
    (h : s.step a = some s') (hcells : s.cells = limits)
    (hstore : ∀ now j limit, a = .store now j limit → limit = limits j) : s'.cells = limits := by
  unfold step at h
  split_ifs at h
  cases a with
  | store now j limit =>
      obtain rfl := Option.some.inj h
      rw [hcells, hstore now j limit rfl]
      exact Function.update_eq_self j limits
  | tick now j =>
      simp only at h
      split_ifs at h
      obtain rfl := Option.some.inj h
      exact hcells
  | consume now j =>
      simp only at h
      split_ifs at h
      obtain rfl := Option.some.inj h
      exact hcells

/-- What the ticks of a worker grant until `stop` is within its budget. -/
theorem grantedBy_le_budget {limits : Fin n → ℕ} {start stop : ℕ} (j : Fin n) {s : RateSystem n}
    {actions : List (RateAction n)} (hs : s.Sound) (hcells : s.cells = limits)
    (hsteady : Steady limits start stop actions) :
    (grantedBy j s actions : ℚ) ≤ (s.workers j).budget (limits j) stop := by
  have hbudget : 0 ≤ (s.workers j).budget (limits j) stop :=
    add_nonneg (sub_nonneg.mpr (hs.worker j).covered)
      (mul_nonneg (Nat.cast_nonneg _) (asSecs_nonneg _))
  induction actions generalizing s with
  | nil => simpa only [grantedBy, Nat.cast_zero] using hbudget
  | cons a actions ih =>
      obtain ⟨-, hstop, hstore⟩ := hsteady a (by simp)
      have hsteady' : Steady limits start stop actions := fun a ha => hsteady a (by simp [ha])
      rw [grantedBy]
      cases hstep : s.step a with
      | none => simpa only [Nat.cast_zero] using hbudget
      | some s' =>
          have hs' := hs.step hstep
          have hrest := ih hs' (step_cells hstep hcells hstore) hsteady'
            (add_nonneg (sub_nonneg.mpr (hs'.worker j).covered)
              (mul_nonneg (Nat.cast_nonneg _) (asSecs_nonneg _)))
          simp only [Nat.cast_add]
          obtain ⟨hle, -, ⟨hgrant, hpending, heq⟩ | ⟨hzero, heq⟩ | ⟨hzero, heq⟩⟩ := step_worker hstep j
          · have hpay := ShapedWorker.tick_budget (hs.worker j) hpending (limits j)
              ((hs.prevTs j).trans hle) hstop
            rw [hcells] at heq
            rw [heq] at hgrant hrest
            rw [hgrant]
            linarith
          · rw [hzero, Nat.cast_zero]
            rw [heq, ShapedWorker.consume_budget] at hrest
            linarith
          · rw [hzero, Nat.cast_zero]
            rw [heq] at hrest
            linarith

/-- One worker in a window: at most its limit for every second, and one second's worth more. -/
theorem grantedBy_le {limits : Fin n → ℕ} {start stop : ℕ} (j : Fin n) {s : RateSystem n}
    {actions : List (RateAction n)} (hs : s.Sound) (hcells : s.cells = limits)
    (hsteady : Steady limits start stop actions) :
    (grantedBy j s actions : ℚ) ≤ limits j * Duration.asSecs (stop - start) + limits j := by
  have hnonneg : 0 ≤ (limits j : ℚ) * Duration.asSecs (stop - start) + limits j :=
    add_nonneg (mul_nonneg (Nat.cast_nonneg _) (asSecs_nonneg _)) (Nat.cast_nonneg _)
  induction actions generalizing s with
  | nil => simpa only [grantedBy, Nat.cast_zero] using hnonneg
  | cons a actions ih =>
      obtain ⟨hstart, hstop, hstore⟩ := hsteady a (by simp)
      have hsteady' : Steady limits start stop actions := fun a ha => hsteady a (by simp [ha])
      rw [grantedBy]
      cases hstep : s.step a with
      | none => simpa only [Nat.cast_zero] using hnonneg
      | some s' =>
          have hs' := hs.step hstep
          have hcells' := step_cells hstep hcells hstore
          simp only [Nat.cast_add]
          obtain ⟨-, -, ⟨hgrant, -, heq⟩ | ⟨hzero, -⟩ | ⟨hzero, -⟩⟩ := step_worker hstep j
          · have hfirst := ShapedWorker.tick_budget_le (hs.worker j) (limits j) stop hstart
            have hrest := grantedBy_le_budget j hs' hcells' hsteady'
            rw [hcells] at heq
            rw [heq] at hgrant hrest
            rw [hgrant]
            linarith
          · rw [hzero, Nat.cast_zero, zero_add]
            exact ih hs' hcells' hsteady'
          · rw [hzero, Nat.cast_zero, zero_add]
            exact ih hs' hcells' hsteady'

/-- **The rate contract.** From any state in which the balances cover the pending requests and the
cells hold the shares of `v`, while nothing but these shares is stored, the ticks between `start` and
`stop` grant at most `v` for every second of the window and one second's worth more; and no balance
is negative at the end of any run, whatever it stores. -/
theorem rate_contract (hn : 0 < n) (v start stop : ℕ) (s : RateSystem n) (hs : s.Sound) :
    (∀ actions s', Run.run step s actions = some s' → ∀ j, 0 ≤ (s'.workers j).shaper.tokens) ∧
    ((∀ j, s.cells j = share v n j) → ∀ actions s', Run.run step s actions = some s' →
      Steady (fun j : Fin n => share v n j) start stop actions →
        (totalGranted s actions : ℚ) ≤ v * Duration.asSecs (stop - start) + v) := by
  refine ⟨fun actions s' hrun j => ((hs.run hrun).worker j).tokens_nonneg, ?_⟩
  intro hcells actions s' _ hsteady
  have hsum : ∑ j : Fin n, (share v n j : ℚ) = v := by
    rw [← Nat.cast_sum, sum_share v hn]
  have hcells' : s.cells = fun j : Fin n => share v n j := funext hcells
  have hworkers : ∑ j, (grantedBy j s actions : ℚ) ≤
      ∑ j : Fin n, ((share v n j : ℚ) * Duration.asSecs (stop - start) + share v n j) := by
    apply Finset.sum_le_sum
    intro j _
    have hworker := grantedBy_le j hs hcells' hsteady
    exact hworker
  rw [Finset.sum_add_distrib, ← Finset.sum_mul, hsum] at hworkers
  rw [totalGranted, Nat.cast_sum]
  exact hworkers

/-- Two workers share a rate of 5 for two seconds; both tick late, and the first one twice. -/
theorem rate_contract_two_workers :
    totalGranted (new (fun _ => WorkerKind.coro) (fun j : Fin 2 => share 5 2 j) 0)
      [.tick 1500000000 0, .store 1600000000 1 2, .tick 1700000000 1, .consume 1800000000 0,
        .tick 2000000000 0] = 6 ∧
    (totalGranted (new (fun _ => WorkerKind.coro) (fun j : Fin 2 => share 5 2 j) 0)
      [.tick 1500000000 0, .store 1600000000 1 2, .tick 1700000000 1, .consume 1800000000 0,
        .tick 2000000000 0] : ℚ) ≤ (5 : ℕ) * Duration.asSecs (2000000000 - 0) + (5 : ℕ) := by
  have hrun : (Run.run step (new (fun _ => WorkerKind.coro) (fun j : Fin 2 => share 5 2 j) 0)
      [.tick 1500000000 0, .store 1600000000 1 2, .tick 1700000000 1, .consume 1800000000 0,
        .tick 2000000000 0]).isSome := by decide +kernel
  obtain ⟨s', hs'⟩ := Option.isSome_iff_exists.mp hrun
  refine ⟨by decide +kernel, ?_⟩
  refine (rate_contract (by decide) 5 0 2000000000 _ (new_sound _ _ 0)).2 (fun _ => rfl) _ s' hs' ?_
  intro a ha
  simp only [List.mem_cons, List.not_mem_nil, or_false] at ha
  rcases ha with rfl | rfl | rfl | rfl | rfl <;> simp [RateAction.now]
  decide

end RateSystem

end Dwd
