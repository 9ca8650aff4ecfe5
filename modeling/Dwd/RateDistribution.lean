import Dwd.Control
import Dwd.EngineStart

/-! What an iteration of the rate-control loop leaves in the limit cells, in any run of the control
path. The cells share out the rate that was polled as evenly as integers can, the mirrored rate is that
rate, and a higher rate lowers no cell. -/

namespace Dwd

theorem share_mono {n t : ℕ} (ht : t < n) : Monotone fun v => share v n t := by
  simp only [share_eq_visits ht]
  exact Ring.visits_mono n t

/-- A share is the quotient, rounded down or up. -/
theorem share_floor_or_ceil (v : ℕ) {n : ℕ} (hn : 0 < n) (t : ℕ) :
    share v n t = v / n ∨ share v n t = (v + n - 1) / n := by
  simp only [share]
  by_cases h : t < v % n
  · rw [if_pos h]
    right
    have hdiv := Nat.div_add_mod v n
    have hmod := Nat.mod_lt v hn
    refine ((Nat.div_eq_iff hn).mpr ⟨?_, ?_⟩).symm
    · rw [Nat.add_mul, Nat.mul_comm]
      omega
    · rw [Nat.add_mul, Nat.mul_comm]
      omega
  · rw [if_neg h]
    exact Or.inl rfl

/-- The cells share out `v` evenly, and the mirror shows it. -/
structure Spread {G : Type} (n v : ℕ) (s : RateControl G) : Prop where
  generator : s.generator = v
  length : s.limits.length = n
  sum : s.limits.sum = v
  even : ∀ limit ∈ s.limits, limit = v / n ∨ limit = (v + n - 1) / n

namespace ControlSystem

variable {G : Type}

theorem length_trySend (ev : GeneratorEvent) (s : ControlSystem G) :
    (s.trySend ev).loop.limits.length = s.loop.limits.length := by
  unfold trySend
  split_ifs
  · rfl
  · rfl

theorem length_control (request : Option Kind) (s : ControlSystem G) :
    (s.control request).loop.limits.length = s.loop.limits.length := by
  rcases request with _ | kind
  · rfl
  · cases kind with
    | stop => rfl
    | suspend => exact length_trySend _ s
    | resume => exact length_trySend _ s
    | set v => exact length_trySend _ s

variable [Generator G]

/-- The state at the end of an iteration that the loop survives, after some run of a system with `n`
limit cells, and the rate that the iteration has polled. -/
def Iterated (n v : ℕ) (s' : ControlSystem G) : Prop :=
  ∃ (g : G) (limits : List ℕ) (t0 : ℕ) (actions : List ControlAction) (s : ControlSystem G)
    (pollNow eventNow : ℕ) (g' : SuspendableGenerator G),
    limits.length = n ∧ Run.run step (new g limits t0) actions = some s ∧
    s.loop.g.currentAt pollNow = some (some v, g') ∧
    s.step (.turn pollNow eventNow) = some s' ∧ s'.live = true

theorem length_turn {s : RateControl G} {pollNow eventNow : ℕ} :
    (∀ s', s.turn pollNow eventNow = .again s' → s'.limits.length = s.limits.length) ∧
    (∀ s', s.turn pollNow eventNow = .finished s' → s'.limits.length = s.limits.length) := by
  refine ⟨fun s' h => ?_, fun s' h => ?_⟩
  · obtain ⟨v, g, -, -, -, rfl⟩ := RateControl.turn_again h
    simp only [distribute, List.length_map, List.length_range]
  · unfold RateControl.turn at h
    split at h
    · cases h
    · cases h
      rfl
    · split_ifs at h
      cases h
      rfl

/-- No action changes the number of the cells. -/
theorem length_step {s s' : ControlSystem G} {a : ControlAction} (h : s.step a = some s') :
    s'.loop.limits.length = s.loop.limits.length := by
  cases a with
  | call request =>
      obtain rfl := Option.some.inj h
      rfl
  | handle i =>
      simp only [step] at h
      cases hrequest : s.inflight[i]? with
      | none =>
          rw [hrequest] at h
          cases h
      | some request =>
          rw [hrequest] at h
          obtain rfl := Option.some.inj h
          exact length_control request s
  | turn pollNow eventNow =>
      simp only [step] at h
      split_ifs at h
      cases hturn : s.loop.turn pollNow eventNow with
      | again loop =>
          rw [hturn] at h
          obtain rfl := Option.some.inj h
          exact length_turn.1 loop hturn
      | finished loop =>
          rw [hturn] at h
          obtain rfl := Option.some.inj h
          exact length_turn.2 loop hturn
      | panicked =>
          rw [hturn] at h
          obtain rfl := Option.some.inj h
          rfl
  | shutdown =>
      obtain rfl := Option.some.inj h
      rfl

theorem length_run {n : ℕ} {s s' : ControlSystem G} {actions : List ControlAction}
    (hs : s.loop.limits.length = n) (hrun : Run.run step s actions = some s') :
    s'.loop.limits.length = n :=
  Run.invariant (I := fun s : ControlSystem G => s.loop.limits.length = n)
    (fun _ _ _ h hstep => (length_step hstep).trans h) hs hrun

/-- An iteration that goes on leaves the split of the rate it has polled. -/
theorem Iterated.loop_eq {n v : ℕ} {s' : ControlSystem G} (h : Iterated n v s') :
    0 < n ∧ s'.loop.generator = v ∧ s'.loop.limits = distribute v n := by
  obtain ⟨g, limits, t0, actions, s, pollNow, eventNow, g', hlength, hrun, hpoll, hstep, hlive⟩ := h
  have hn := length_run hlength hrun
  obtain ⟨-, -, -, loop, hturn, rfl⟩ := turn_of_live hstep hlive
  obtain ⟨v', g'', hpoll', -, hlimits, rfl⟩ := RateControl.turn_again hturn
  rw [hpoll'] at hpoll
  obtain rfl := Option.some.inj (congrArg Prod.fst (Option.some.inj hpoll))
  refine ⟨?_, rfl, by rw [← hn]⟩
  rw [← hn]
  exact List.length_pos_iff.mpr hlimits

/-- At the end of every iteration of the loop, whatever the control events before it, the polled rate is
spread over the cells, and no cell is lower than after an iteration, of this run or of another one, that
has polled less. -/
theorem rate_distributed {n v : ℕ} {s : ControlSystem G} (h : Iterated n v s) :
    Spread n v s.loop ∧
    ∀ (w : ℕ) (s' : ControlSystem G), Iterated n w s' → v ≤ w →
      ∀ t limit limit' : ℕ, s.loop.limits[t]? = some limit → s'.loop.limits[t]? = some limit' →
        limit ≤ limit' := by
  obtain ⟨hn, hgenerator, hlimits⟩ := h.loop_eq
  refine ⟨⟨hgenerator, ?_, ?_, ?_⟩, fun w s' h' hvw t limit limit' ht ht' => ?_⟩
  · rw [hlimits, distribute, List.length_map, List.length_range]
  · rw [hlimits, sum_distribute v hn]
  · intro limit hmem
    rw [hlimits, distribute, List.mem_map] at hmem
    obtain ⟨t, -, rfl⟩ := hmem
    exact share_floor_or_ceil v hn t
  · obtain ⟨-, -, hlimits'⟩ := h'.loop_eq
    rw [hlimits, distribute, List.getElem?_map, Option.map_eq_some_iff] at ht
    rw [hlimits', distribute, List.getElem?_map, Option.map_eq_some_iff] at ht'
    obtain ⟨i, hi, rfl⟩ := ht
    obtain ⟨j, hj, rfl⟩ := ht'
    obtain ⟨hlt, rfl⟩ := List.getElem?_eq_some_iff.mp hi
    obtain ⟨hlt', rfl⟩ := List.getElem?_eq_some_iff.mp hj
    rw [List.length_range] at hlt
    rw [List.getElem_range]
    exact share_mono hlt hvw

/-- Five over two cells after a manual rate of five, and after it six from a line. -/
theorem rate_distributed_five :
    ∃ s : ControlSystem LineGenerator, s.loop.limits = [3, 2] ∧ Spread 2 5 s.loop ∧
      ∀ (w : ℕ) (s' : ControlSystem LineGenerator), Iterated 2 w s' → 5 ≤ w →
        ∀ t limit limit' : ℕ, s.loop.limits[t]? = some limit → s'.loop.limits[t]? = some limit' →
          limit ≤ limit' := by
  refine ⟨_, ?_, rate_distributed ⟨⟨0, 6, 0, 9⟩, [0, 0], 0,
    [.call (some (.set 5)), .handle 0, .turn 1 1], _, 2, 2, _, rfl, rfl, rfl, rfl, rfl⟩⟩
  rfl

end ControlSystem

end Dwd
