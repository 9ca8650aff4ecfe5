import Dwd.LibRing
import Dwd.Suspendable
import Mathlib.Algebra.BigOperators.Fin

/-! The rate-control loop `run_generator`: poll the generator, take at most one control event,
distribute the rate over the limit cells and mirror it for display. The event is applied after the
poll, so it shows in the turn after the one that takes it. -/

namespace Dwd

/-- The share of cell `idx` when `v` is split over `n` cells. -/
def share (v n idx : ℕ) : ℕ :=
  let lb := v / n
  let ub := v % n
  if idx < ub then lb + 1 else lb

/-- The values stored into the limit cells. -/
def distribute (v n : ℕ) : List ℕ := (List.range n).map (share v n)

/-- A rate is dealt out to the cells one unit after the other. -/
theorem share_eq_visits {n t : ℕ} (ht : t < n) (v : ℕ) : share v n t = Ring.visits n t v := by
  rw [Ring.visits_eq ht]
  simp only [share]
  split_ifs with hmore
  · rfl
  · rfl

/-- The shares add up to the whole rate. -/
theorem sum_distribute (v : ℕ) {n : ℕ} (hn : 0 < n) : (distribute v n).sum = v := by
  have hshares : distribute v n = (List.range n).map fun t => Ring.visits n t v :=
    List.map_congr_left fun t ht => share_eq_visits (List.mem_range.mp ht) v
  rw [hshares]
  exact Ring.sum_visits hn v

theorem sum_share (v : ℕ) {n : ℕ} (hn : 0 < n) : ∑ j : Fin n, share v n j = v := by
  rw [Fin.sum_univ_eq_sum_range (share v n) n]
  exact sum_distribute v hn

/-- The state of the loop: the generator, the limit cells, the mirrored rate, the control channel of
capacity one and the run flag. -/
structure RateControl (G : Type) where
  g : SuspendableGenerator G
  limits : List ℕ
  generator : ℕ
  controlRx : Option GeneratorEvent
  isRunning : Bool

/-- How a turn of the loop ends. -/
inductive Turn (S : Type) where
  | again (s : S)
  | finished (s : S)
  | panicked

namespace RateControl

variable {G : Type} [Generator G]

/-- One turn of the loop. The clock is read for the poll, and again when an event is applied. -/
def turn (pollNow eventNow : ℕ) (s : RateControl G) : Turn (RateControl G) :=
  match s.g.currentAt pollNow with
  | none => .panicked
  | some (none, g) => .finished { s with g := g, isRunning := false }
  | some (some v, g) =>
      if !s.isRunning then .finished { s with g := g, isRunning := false }
      else
        let g := match s.controlRx with
          | some ev => g.handle eventNow ev
          | none => g
        if s.limits.length = 0 then .panicked
        else .again
          { s with
            g := g
            controlRx := none
            limits := distribute v s.limits.length
            generator := v }

/-- A turn that goes on has polled a rate, taken what the channel held, and published the rate. -/
theorem turn_again {s s' : RateControl G} {pollNow eventNow : ℕ}
    (h : s.turn pollNow eventNow = .again s') :
    ∃ v g, s.g.currentAt pollNow = some (some v, g) ∧ s.isRunning = true ∧ s.limits ≠ [] ∧
      s' = { s with
        g := s.controlRx.elim g fun ev => g.handle eventNow ev
        controlRx := none
        limits := distribute v s.limits.length
        generator := v } := by
  unfold turn at h
  cases hpoll : s.g.currentAt pollNow with
  | none => simp [hpoll] at h
  | some r =>
      obtain ⟨value, g⟩ := r
      cases value with
      | none => simp [hpoll] at h
      | some v =>
          simp only [hpoll] at h
          split_ifs at h with hstopped hempty
          refine ⟨v, g, rfl, by simpa using hstopped, by simpa using hempty, ?_⟩
          cases hrx : s.controlRx with
          | none => simpa [hrx] using h.symm
          | some ev => simpa [hrx] using h.symm

/-- A running loop publishes the rate it polls. -/
theorem turn_of_some {s : RateControl G} {pollNow eventNow v : ℕ} {g : SuspendableGenerator G}
    (hpoll : s.g.currentAt pollNow = some (some v, g)) (hrunning : s.isRunning = true)
    (hlimits : s.limits ≠ []) :
    s.turn pollNow eventNow = .again { s with
      g := s.controlRx.elim g fun ev => g.handle eventNow ev
      controlRx := none
      limits := distribute v s.limits.length
      generator := v } := by
  unfold turn
  cases hrx : s.controlRx <;> simp [hpoll, hrunning, hlimits]

/-- The loop ends with the profile. -/
theorem turn_of_none {s : RateControl G} {pollNow eventNow : ℕ} {g : SuspendableGenerator G}
    (hpoll : s.g.currentAt pollNow = some (none, g)) :
    s.turn pollNow eventNow = .finished { s with g := g, isRunning := false } := by
  simp only [turn, hpoll]

end RateControl

end Dwd
