import Dwd.LibRun
import Dwd.RateControl

/-! The control path. Clients send requests, a handler of the service forwards each one into the
channel of capacity one and acknowledges it, and the rate-control loop takes one event a turn. Neither
a handler nor a turn of the loop waits in between, and both run on the one thread of the runtime, so
each is a single step; the requests in flight are handled in any order, at any time.

A full channel keeps the queued event and drops the new one, so what the loop ends up with is not
always what the last acknowledged request asked for. -/

namespace Dwd

/-- The kind of a control request. -/
inductive Kind where
  | suspend
  | resume
  | set (rps : ℕ)
  | stop
  deriving DecidableEq, Repr

namespace Kind

/-- The event that a request is forwarded as: `stop` bypasses the channel. -/
def event : Kind → Option GeneratorEvent
  | .suspend => some .suspend
  | .resume => some .resume
  | .set rps => some (.set rps)
  | .stop => none

end Kind

/-- The event of the last request that has one. -/
def lastEvent (requests : List (Option Kind)) : Option GeneratorEvent :=
  (requests.filterMap fun request => request.bind Kind.event).getLast?

/-- The loop with its channel, whether it is still alive, the time of its last turn, the requests
whose handlers have not run, and the acknowledged ones in order. -/
structure ControlSystem (G : Type) where
  loop : RateControl G
  live : Bool
  clock : ℕ
  inflight : List (Option Kind)
  acked : List (Option Kind)

/-- A client sends a request, the handler of a request in flight runs, the loop takes a turn, or
something else (a signal, the end of the TUI) flips the run flag. -/
inductive ControlAction where
  | call (request : Option Kind)
  | handle (i : ℕ)
  | turn (pollNow eventNow : ℕ)
  | shutdown

namespace ControlSystem

variable {G : Type}

/-- `Sender::try_send`: an event that finds the channel full or closed is dropped. -/
def trySend (ev : GeneratorEvent) (s : ControlSystem G) : ControlSystem G :=
  if s.live ∧ s.loop.controlRx = none then { s with loop := { s.loop with controlRx := some ev } }
  else s

/-- `DwdService::control`: forward the request, ignoring whether it was dropped, and acknowledge. -/
def control (request : Option Kind) (s : ControlSystem G) : ControlSystem G :=
  let s := match request with
    | none => s
    | some .stop => { s with loop := { s.loop with isRunning := false } }
    | some .suspend => s.trySend .suspend
    | some .resume => s.trySend .resume
    | some (.set rps) => s.trySend (.set rps)
  { s with acked := s.acked ++ [request] }

/-- The state of the generator that an event demands: the first argument is the last one, if any. -/
def Obeys : Option GeneratorEvent → SuspendableGenerator G → Prop
  | some .suspend, g => g.suspendedAt ≠ none ∧ g.value.getD 0 = 0
  | some (.set v), g => g.suspendedAt ≠ none ∧ g.value = some v
  | some .resume, g => g.suspendedAt = none
  | none, g => g.suspendedAt = none

/-- An event that is handled in time makes the generator obey it. -/
theorem obeys_handle (ev : GeneratorEvent) (g : SuspendableGenerator G) (now : ℕ)
    (hmanual : ev = .suspend → g.value.getD 0 = 0) : Obeys (some ev) (g.handle now ev) := by
  cases ev with
  | suspend =>
      have hvalue := hmanual rfl
      cases hs : g.suspendedAt with
      | none => simp [Obeys, SuspendableGenerator.handle, SuspendableGenerator.suspend, hs]
      | some a => simp [Obeys, SuspendableGenerator.handle, SuspendableGenerator.suspend, hs, hvalue]
  | resume =>
      show (g.resume now).suspendedAt = none
      unfold SuspendableGenerator.resume
      split
      · rfl
      · assumption
  | set v =>
      refine ⟨?_, rfl⟩
      show (g.suspend now).suspendedAt ≠ none
      cases hs : g.suspendedAt with
      | none => simp [SuspendableGenerator.suspend, hs]
      | some a => simp [SuspendableGenerator.suspend, hs]

theorem Obeys.congr {last : Option GeneratorEvent} {g g' : SuspendableGenerator G}
    (h : Obeys last g) (hat : g'.suspendedAt = g.suspendedAt) (hvalue : g'.value = g.value) :
    Obeys last g' := by
  rcases last with _ | ev
  · exact hat.trans h
  · cases ev with
    | suspend => exact ⟨hat ▸ h.1, hvalue ▸ h.2⟩
    | resume => exact hat.trans h
    | set v => exact ⟨hat ▸ h.1, hvalue.trans h.2⟩

/-- The clock of the generator stays readable when an event is handled. -/
theorem duration_handle {g : SuspendableGenerator G} {clock now : ℕ} (ev : GeneratorEvent)
    (hduration : g.suspendedDuration ≤ g.suspendedAt.getD clock)
    (hopened : ∀ a ∈ g.suspendedAt, a ≤ clock) (hnow : clock ≤ now) :
    (g.handle now ev).suspendedDuration ≤ (g.handle now ev).suspendedAt.getD now ∧
      ∀ a ∈ (g.handle now ev).suspendedAt, a ≤ now := by
  obtain ⟨-, hat, hdur⟩ := SuspendableGenerator.handle_eq g now ev
  rw [hat, hdur]
  cases hs : g.suspendedAt with
  | none =>
      rw [hs, Option.getD_none] at hduration
      rw [GeneratorEvent.suspendedTotal_none_cons, GeneratorEvent.suspendedTotal_nil, Nat.add_zero]
      cases ev <;> simp [GeneratorEvent.openInterval, GeneratorEvent.pauses] <;> omega
  | some a =>
      have ha := hopened a hs
      rw [hs, Option.getD_some] at hduration
      rw [GeneratorEvent.suspendedTotal_some_cons, GeneratorEvent.suspendedTotal_nil,
        GeneratorEvent.suspendedTotal_nil]
      cases ev <;> simp [GeneratorEvent.openInterval, GeneratorEvent.pauses] <;> omega

/-- The steps that lose nothing: an event is dropped only where the same event is queued, and a
suspension that is taken finds no manual rate other than zero. -/
def Undisturbed (s : ControlSystem G) : ControlAction → Prop
  | .handle i => ∀ request ev, s.inflight[i]? = some (some request) → request.event = some ev →
      s.live = true → s.loop.controlRx = none ∨ s.loop.controlRx = some ev
  | .turn _ _ => s.loop.controlRx = some .suspend → s.loop.g.value.getD 0 = 0
  | _ => True

/-- While the loop is alive, the generator obeys the last acknowledged event unless that event is
still queued, and its clock can be read: the suspended duration fits before the open interval. -/
structure Coherent (s : ControlSystem G) : Prop where
  limits : s.loop.limits ≠ []
  queued : ∀ ev, s.loop.controlRx = some ev → lastEvent s.acked = some ev
  applied : s.loop.controlRx = none → Obeys (lastEvent s.acked) s.loop.g
  duration : s.loop.g.suspendedDuration ≤ s.loop.g.suspendedAt.getD s.clock
  opened : ∀ a ∈ s.loop.g.suspendedAt, a ≤ s.clock

theorem Coherent.inflight {s : ControlSystem G} (hs : s.Coherent) (requests : List (Option Kind)) :
    ({ s with inflight := requests } : ControlSystem G).Coherent :=
  ⟨hs.limits, hs.queued, hs.applied, hs.duration, hs.opened⟩

theorem Coherent.isRunning {s : ControlSystem G} (hs : s.Coherent) (flag : Bool) :
    ({ s with loop := { s.loop with isRunning := flag } } : ControlSystem G).Coherent :=
  ⟨hs.limits, hs.queued, hs.applied, hs.duration, hs.opened⟩

theorem lastEvent_concat (requests : List (Option Kind)) (request : Option Kind) :
    lastEvent (requests ++ [request]) = (request.bind Kind.event).or (lastEvent requests) := by
  unfold lastEvent
  cases hevent : request.bind Kind.event with
  | none => simp [List.filterMap_append, hevent]
  | some ev => simp [List.filterMap_append, hevent]

/-- A request without an event leaves the generator and the channel alone. -/
theorem Coherent.control_none {s : ControlSystem G} (hs : s.Coherent) {request : Option Kind}
    (hrequest : request.bind Kind.event = none) : (s.control request).Coherent := by
  have hlast : lastEvent (s.acked ++ [request]) = lastEvent s.acked := by
    rw [lastEvent_concat, hrequest, Option.none_or]
  rcases request with _ | kind
  · exact ⟨hs.limits, fun ev h => hlast.trans (hs.queued ev h), fun h => hlast ▸ hs.applied h,
      hs.duration, hs.opened⟩
  · cases kind with
    | stop =>
        exact ⟨hs.limits, fun ev h => hlast.trans (hs.queued ev h), fun h => hlast ▸ hs.applied h,
          hs.duration, hs.opened⟩
    | suspend => cases hrequest
    | resume => cases hrequest
    | set v => cases hrequest

theorem trySend_of_free {s : ControlSystem G} {ev : GeneratorEvent} (hlive : s.live = true)
    (hfree : s.loop.controlRx = none ∨ s.loop.controlRx = some ev) :
    s.trySend ev = { s with loop := { s.loop with controlRx := some ev } } := by
  unfold trySend
  rcases hfree with hfree | hfree
  · rw [if_pos ⟨hlive, hfree⟩]
  · rw [if_neg (by simp [hfree]), ← hfree]

theorem trySend_live (ev : GeneratorEvent) (s : ControlSystem G) : (s.trySend ev).live = s.live := by
  unfold trySend
  split_ifs
  · rfl
  · rfl

theorem control_live (request : Option Kind) (s : ControlSystem G) :
    (s.control request).live = s.live := by
  rcases request with _ | kind
  · rfl
  · cases kind with
    | stop => rfl
    | suspend => exact trySend_live _ s
    | resume => exact trySend_live _ s
    | set v => exact trySend_live _ s

theorem control_of_event {s : ControlSystem G} {kind : Kind} {ev : GeneratorEvent}
    (hevent : kind.event = some ev) :
    s.control (some kind) = { s.trySend ev with acked := (s.trySend ev).acked ++ [some kind] } := by
  cases kind with
  | stop => cases hevent
  | suspend =>
      obtain rfl := Option.some.inj hevent
      rfl
  | resume =>
      obtain rfl := Option.some.inj hevent
      rfl
  | set v =>
      obtain rfl := Option.some.inj hevent
      rfl

/-- An event that is not lost is the queued one. -/
theorem Coherent.control_some {s : ControlSystem G} (hs : s.Coherent) (hlive : s.live = true)
    {kind : Kind} {ev : GeneratorEvent} (hevent : kind.event = some ev)
    (hfree : s.loop.controlRx = none ∨ s.loop.controlRx = some ev) :
    (s.control (some kind)).Coherent := by
  have hlast : lastEvent (s.acked ++ [some kind]) = some ev := by
    rw [lastEvent_concat, Option.bind_some, hevent, Option.some_or]
  rw [control_of_event hevent, trySend_of_free hlive hfree]
  refine ⟨hs.limits, ?_, ?_, hs.duration, hs.opened⟩
  · intro ev' h
    obtain rfl := Option.some.inj h
    exact hlast
  · intro h
    cases h

/-! ### The system -/

variable [Generator G]

/-- The loop as it enters its first turn, at time `t0`. -/
def new (g : G) (limits : List ℕ) (t0 : ℕ) : ControlSystem G :=
  { loop :=
      { g := (SuspendableGenerator.new g).activateAt t0
        limits := limits
        generator := 0
        controlRx := none
        isRunning := true }
    live := true
    clock := t0
    inflight := []
    acked := [] }

def step (s : ControlSystem G) : ControlAction → Option (ControlSystem G)
  | .call request => some { s with inflight := s.inflight ++ [request] }
  | .handle i =>
      match s.inflight[i]? with
      | none => none
      | some request => some { s.control request with inflight := s.inflight.eraseIdx i }
  | .turn pollNow eventNow =>
      if s.live ∧ s.clock ≤ pollNow ∧ pollNow ≤ eventNow then
        match s.loop.turn pollNow eventNow with
        | .again loop => some { s with loop := loop, clock := eventNow }
        | .finished loop => some { s with loop := loop, live := false, clock := eventNow }
        | .panicked => some { s with live := false, clock := eventNow }
      else none
  | .shutdown => some { s with loop := { s.loop with isRunning := false } }

/-- The rate that an event demands at `now`: none when the profile is over. -/
def demandedRate (now : ℕ) : Option GeneratorEvent → SuspendableGenerator G → Option ℕ
  | some .suspend, _ => some 0
  | some (.set v), _ => some v
  | some .resume, g => (Generator.currentAt (now - g.suspendedDuration) g.g).1
  | none, g => (Generator.currentAt (now - g.suspendedDuration) g.g).1

/-- A turn of the loop publishes the rate, or ends when there is none. -/
def Publishes (rate : Option ℕ) (s : RateControl G) (pollNow eventNow : ℕ) : Prop :=
  match rate with
  | some v => ∃ s', s.turn pollNow eventNow = .again s' ∧ s'.generator = v ∧
      s'.limits = distribute v s.limits.length
  | none => ∃ s', s.turn pollNow eventNow = .finished s'

theorem new_coherent (g : G) {limits : List ℕ} (hlimits : limits ≠ []) (t0 : ℕ) :
    (new g limits t0).Coherent where
  limits := hlimits
  queued := by
    intro ev h
    cases h
  applied := fun _ => rfl
  duration := Nat.zero_le _
  opened := by
    intro a h
    cases h

/-- A turn that goes on applies the queued event. -/
theorem Coherent.turn {s : ControlSystem G} (hs : s.Coherent) {pollNow eventNow : ℕ}
    {loop : RateControl G} (hpoll : s.clock ≤ pollNow) (hevent : pollNow ≤ eventNow)
    (hmanual : s.loop.controlRx = some .suspend → s.loop.g.value.getD 0 = 0)
    (hturn : s.loop.turn pollNow eventNow = .again loop) :
    ({ s with loop := loop, clock := eventNow } : ControlSystem G).Coherent := by
  obtain ⟨v, g, hcurrent, -, hlimits, rfl⟩ := RateControl.turn_again hturn
  obtain ⟨hat, hduration, hvalue⟩ := SuspendableGenerator.currentAt_frame hcurrent
  have hle : s.clock ≤ eventNow := hpoll.trans hevent
  have hlength : distribute v s.loop.limits.length ≠ [] := by
    simpa [distribute] using hlimits
  cases hrx : s.loop.controlRx with
  | none =>
      refine ⟨hlength, by simp, fun _ => (hs.applied hrx).congr hat hvalue, ?_, ?_⟩
      · show g.suspendedDuration ≤ g.suspendedAt.getD eventNow
        rw [hat, hduration]
        have := hs.duration
        cases hopen : s.loop.g.suspendedAt with
        | none =>
            rw [hopen] at this
            exact this.trans hle
        | some a =>
            rw [hopen] at this
            exact this
      · intro a ha
        exact (hs.opened a (hat ▸ ha)).trans hle
  | some ev =>
      have hlast : lastEvent s.acked = some ev := hs.queued ev hrx
      have hobeys := obeys_handle ev g eventNow fun hev => by
        rw [hvalue]
        exact hmanual (hev ▸ hrx)
      have hclock := duration_handle ev (hat ▸ hduration ▸ hs.duration) (hat ▸ hs.opened) hle
      refine ⟨hlength, by simp, fun _ => ?_, hclock.1, hclock.2⟩
      show Obeys (lastEvent s.acked) (g.handle eventNow ev)
      rw [hlast]
      exact hobeys

/-- After a turn the loop is alive only when it goes on. -/
theorem turn_of_live {s s' : ControlSystem G} {pollNow eventNow : ℕ}
    (hstep : s.step (.turn pollNow eventNow) = some s') (hlive : s'.live = true) :
    s.live = true ∧ s.clock ≤ pollNow ∧ pollNow ≤ eventNow ∧
      ∃ loop, s.loop.turn pollNow eventNow = .again loop ∧ s' = { s with loop := loop, clock := eventNow } := by
  simp only [step] at hstep
  split_ifs at hstep with hcond
  cases hturn : s.loop.turn pollNow eventNow with
  | again loop =>
      rw [hturn] at hstep
      exact ⟨hcond.1, hcond.2.1, hcond.2.2, loop, rfl, (Option.some.inj hstep).symm⟩
  | finished loop =>
      rw [hturn] at hstep
      obtain rfl := Option.some.inj hstep
      cases hlive
  | panicked =>
      rw [hturn] at hstep
      obtain rfl := Option.some.inj hstep
      cases hlive

/-- The invariant of the guarded runs. -/
theorem coherent_step {s s' : ControlSystem G} {a : ControlAction}
    (hs : s.live = true → s.Coherent) (hguard : s.Undisturbed a) (hstep : s.step a = some s') :
    s'.live = true → s'.Coherent := by
  intro hlive
  cases a with
  | call request =>
      obtain rfl := Option.some.inj hstep
      exact (hs hlive).inflight _
  | handle i =>
      simp only [step] at hstep
      cases hrequest : s.inflight[i]? with
      | none =>
          rw [hrequest] at hstep
          cases hstep
      | some request =>
          rw [hrequest] at hstep
          obtain rfl := Option.some.inj hstep
          have hlive' : s.live = true := (control_live request s).symm.trans hlive
          apply Coherent.inflight
          cases hevent : request.bind Kind.event with
          | none => exact (hs hlive').control_none hevent
          | some ev =>
              obtain ⟨kind, rfl, hkind⟩ := Option.bind_eq_some_iff.mp hevent
              exact (hs hlive').control_some hlive' hkind (hguard kind ev hrequest hkind hlive')
  | turn pollNow eventNow =>
      obtain ⟨hlive', hpoll, hevent, loop, hturn, rfl⟩ := turn_of_live hstep hlive
      exact (hs hlive').turn hpoll hevent hguard hturn
  | shutdown =>
      obtain rfl := Option.some.inj hstep
      exact (hs hlive).isRunning false

/-- What the generator obeys is what it returns. -/
theorem Obeys.currentAt {last : Option GeneratorEvent} {g : SuspendableGenerator G} {clock now : ℕ}
    (h : Obeys last g) (hduration : g.suspendedDuration ≤ g.suspendedAt.getD clock)
    (hnow : clock ≤ now) : ∃ g', g.currentAt now = some (demandedRate now last g, g') := by
  have hrunning : g.suspendedAt = none → ∃ g', g.currentAt now =
      some ((Generator.currentAt (now - g.suspendedDuration) g.g).1, g') := by
    intro hat
    rw [hat, Option.getD_none] at hduration
    exact ⟨_, SuspendableGenerator.currentAt_running hat (hduration.trans hnow)⟩
  rcases last with _ | ev
  · exact hrunning h
  · cases ev with
    | suspend =>
        obtain ⟨a, ha⟩ := Option.ne_none_iff_exists'.mp h.1
        refine ⟨g, ?_⟩
        rw [SuspendableGenerator.currentAt_suspended ha, demandedRate]
        have hvalue := h.2
        cases hv : g.value with
        | none => rfl
        | some v =>
            rw [hv, Option.getD_some] at hvalue
            rw [hvalue]
            rfl
    | resume => exact hrunning h
    | set v =>
        obtain ⟨a, ha⟩ := Option.ne_none_iff_exists'.mp h.1
        refine ⟨g, ?_⟩
        rw [SuspendableGenerator.currentAt_suspended ha, demandedRate, h.2]
        rfl

/-- **No lost control update**, in the runs that disturb none. Whenever the loop is alive and the
channel empty, the generator is in the state that the last acknowledged request demands, and the next
turn of a loop that is not told to stop publishes the demanded rate. -/
theorem no_lost_update (g : G) (limits : List ℕ) (t0 : ℕ) (hlimits : limits ≠ [])
    (actions : List ControlAction) (s : ControlSystem G)
    (hguard : Run.Guarded step Undisturbed (new g limits t0) actions)
    (hrun : Run.run step (new g limits t0) actions = some s) (hlive : s.live = true)
    (hempty : s.loop.controlRx = none) :
    Obeys (lastEvent s.acked) s.loop.g ∧
      ∀ pollNow eventNow, s.clock ≤ pollNow → s.loop.isRunning = true →
        Publishes (demandedRate pollNow (lastEvent s.acked) s.loop.g) s.loop pollNow eventNow := by
  have hinvariant : s.live = true → s.Coherent :=
    Run.invariant_of_guarded (fun _ _ _ => coherent_step) (fun _ => new_coherent g hlimits t0)
      hguard hrun
  have hs := hinvariant hlive
  have hobeys := hs.applied hempty
  refine ⟨hobeys, fun pollNow eventNow hnow hrunning => ?_⟩
  obtain ⟨g', hcurrent⟩ := hobeys.currentAt hs.duration hnow
  cases hrate : demandedRate pollNow (lastEvent s.acked) s.loop.g with
  | none =>
      rw [hrate] at hcurrent
      exact ⟨_, RateControl.turn_of_none hcurrent⟩
  | some v =>
      rw [hrate] at hcurrent
      exact ⟨_, RateControl.turn_of_some hcurrent hrunning hs.limits, rfl, rfl⟩

/-- A manual rate and a resumption, each taken by the loop before the next request. -/
theorem no_lost_update_set_resume :
    ∃ s, Run.run step (new (⟨0, 100, 0, 9⟩ : LineGenerator) [0, 0] 0)
        [.call (some (.set 5)), .handle 0, .turn 1 1, .call (some .resume), .handle 0, .turn 2 3] =
          some s ∧ s.inflight = [] ∧ lastEvent s.acked = some .resume ∧
      Obeys (lastEvent s.acked) s.loop.g ∧
      ∀ pollNow eventNow, s.clock ≤ pollNow → s.loop.isRunning = true →
        Publishes (demandedRate pollNow (lastEvent s.acked) s.loop.g) s.loop pollNow eventNow := by
  refine ⟨_, rfl, rfl, rfl, ?_⟩
  apply no_lost_update (⟨0, 100, 0, 9⟩ : LineGenerator) [0, 0] 0 (by decide)
    [.call (some (.set 5)), .handle 0, .turn 1 1, .call (some .resume), .handle 0, .turn 2 3]
  · apply Run.Guarded.cons trivial rfl
    apply Run.Guarded.cons (fun _ _ _ _ _ => .inl rfl) rfl
    apply Run.Guarded.cons (fun h => by cases h) rfl
    apply Run.Guarded.cons trivial rfl
    apply Run.Guarded.cons (fun _ _ _ _ _ => .inl rfl) rfl
    apply Run.Guarded.cons (fun h => by cases h) rfl
    trivial
  · rfl
  · rfl
  · rfl

/-- The loop has queued a suspension when a resumption is acknowledged: the resumption is dropped, and
the generator stays suspended. -/
theorem resume_lost :
    ∃ s, Run.run step (new (⟨0, 100, 0, 9⟩ : LineGenerator) [0, 0] 0)
        [.call (some .suspend), .call (some .resume), .handle 0, .handle 0, .turn 1 1, .turn 2 2] =
          some s ∧ s.live = true ∧ s.loop.isRunning = true ∧ s.loop.controlRx = none ∧
      s.inflight = [] ∧ s.acked = [some .suspend, some .resume] ∧
      s.loop.g.suspendedAt = some 1 ∧ s.loop.generator = 0 ∧
      ¬ Obeys (lastEvent s.acked) s.loop.g := by
  refine ⟨_, rfl, rfl, rfl, rfl, rfl, rfl, rfl, rfl, ?_⟩
  intro h
  cases h

end ControlSystem

end Dwd
