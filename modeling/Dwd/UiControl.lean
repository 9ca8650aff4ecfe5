import Dwd.Control
import Dwd.Ui

/-! The terminal interface at the end of the control path. A key press sends its event into a channel of
capacity one, a forwarder takes one event after another from there, makes a request of it and waits for the
response, and the handler of the service sends the event on to the rate-control loop. Both channels drop what
they have no room for, and nothing tells the interface, which shows the mode of the last key all the same.

The interface is the only client here: what it shows is compared with the generator. -/

namespace Dwd

/-- `into_control_request`: the kind of the request. -/
def intoControlRequest : GeneratorEvent → Option Kind
  | .suspend => some .suspend
  | .resume => some .resume
  | .set rps => some (.set rps)

@[simp] theorem intoControlRequest_event (ev : GeneratorEvent) :
    (intoControlRequest ev).bind Kind.event = some ev := by
  cases ev <;> rfl

/-- The interface until its loop returns, its channel, the forwarder, which may be waiting for a response,
and the service with the rate-control loop. What follows is not part of the program: the events that the
interface has sent, those that the generator has handled, and how many were dropped. -/
structure UiSystem (G : Type) where
  ui : Option Ui
  uiRx : Option GeneratorEvent
  awaiting : Bool
  control : ControlSystem G
  sent : List GeneratorEvent
  handled : List GeneratorEvent
  dropped : ℕ

/-- A key event is read, the forwarder takes an event, its request is handled, it gets the response, the
rate-control loop takes a turn, or the thread of an interface that has returned flips the run flag. -/
inductive UiAction where
  | key (key : KeyEvent)
  | forward
  | handle
  | respond
  | turn (pollNow eventNow : ℕ)
  | close

namespace UiSystem

variable {G : Type}

/-- `Sender::try_send` of the interface. -/
def trySend (ev : GeneratorEvent) (s : UiSystem G) : UiSystem G :=
  let s := { s with sent := s.sent ++ [ev] }
  if s.uiRx = none then { s with uiRx := some ev } else { s with dropped := s.dropped + 1 }

def onKey (key : KeyEvent) (s : UiSystem G) : Option (UiSystem G) :=
  match s.ui with
  | none => none
  | some ui =>
      match ui.onKey key with
      | none => some { s with ui := none }
      | some (ui, none) => some { s with ui := some ui }
      | some (ui, some ev) => some ({ s with ui := some ui }.trySend ev)

/-- The handler of the service drops the event of a request when it finds the channel full or closed. -/
def drops (s : UiSystem G) : Prop := ¬(s.control.live ∧ s.control.loop.controlRx = none)

instance (s : UiSystem G) : Decidable s.drops := inferInstanceAs (Decidable (¬_))

variable [Generator G]

def new (g : G) (limits : List ℕ) (t0 : ℕ) : UiSystem G :=
  { ui := some .new
    uiRx := none
    awaiting := false
    control := .new g limits t0
    sent := []
    handled := []
    dropped := 0 }

def step (s : UiSystem G) : UiAction → Option (UiSystem G)
  | .key key => s.onKey key
  | .forward =>
      match s.uiRx with
      | some ev =>
          if s.awaiting then none
          else (s.control.step (.call (intoControlRequest ev))).map fun control =>
            { s with uiRx := none, awaiting := true, control := control }
      | none => none
  | .handle =>
      (s.control.step (.handle 0)).map fun control =>
        { s with control := control, dropped := if s.drops then s.dropped + 1 else s.dropped }
  | .respond =>
      if s.awaiting ∧ s.control.inflight = [] then some { s with awaiting := false } else none
  | .turn pollNow eventNow =>
      (s.control.step (.turn pollNow eventNow)).map fun control =>
        { s with
          control := control
          handled := if control.live then s.handled ++ s.control.loop.controlRx.toList else s.handled }
  | .close =>
      if s.ui = none then (s.control.step .shutdown).map fun control => { s with control := control }
      else none

/-- The events that have been neither handled nor dropped, the oldest first. -/
def inTransit (s : UiSystem G) : List GeneratorEvent :=
  s.control.loop.controlRx.toList ++ s.control.inflight.filterMap (fun request => request.bind Kind.event) ++
    s.uiRx.toList

/-- The event before a suspension, if any, is a resumption. -/
def Alternates (sent : List GeneratorEvent) : Prop :=
  ∀ before after, sent = before ++ .suspend :: after → before.getLast? = none ∨ before.getLast? = some .resume

/-- The events keep their order, and each is handled, on its way or dropped. -/
structure Queued (s : UiSystem G) : Prop where
  sublist : (s.handled ++ s.inTransit).Sublist s.sent
  length : (s.handled ++ s.inTransit).length + s.dropped = s.sent.length

/-- Besides, the requests of the forwarder follow one another, and the mode is that of the last event. -/
structure Ordered (s : UiSystem G) : Prop where
  queued : s.Queued
  single : s.control.inflight = [] ∨ ∃ ev, s.control.inflight = [intoControlRequest ev]
  awaiting : s.control.inflight ≠ [] → s.awaiting = true
  alternates : Alternates s.sent
  mode : ∀ ui, s.ui = some ui → ui.head.mode = s.sent.getLast?.elim (.running true) Mode.after

theorem Alternates.concat {sent : List GeneratorEvent} (h : Alternates sent) {ev : GeneratorEvent}
    (hev : ev = .suspend → sent.getLast? = none ∨ sent.getLast? = some .resume) :
    Alternates (sent ++ [ev]) := by
  intro before after heq
  rcases List.eq_nil_or_concat after with rfl | ⟨after, last, rfl⟩
  · obtain ⟨rfl, hlast⟩ := List.append_inj' heq rfl
    exact hev (List.singleton_inj.mp hlast)
  · rw [List.concat_eq_append, ← List.cons_append, ← List.append_assoc] at heq
    exact h before after (List.append_inj' heq rfl).1

theorem new_ordered (g : G) (limits : List ℕ) (t0 : ℕ) : (new g limits t0).Ordered where
  queued := ⟨List.Sublist.refl [], rfl⟩
  single := .inl rfl
  awaiting := fun h => absurd rfl h
  alternates := by
    intro before after h
    simp [new] at h
  mode := by
    rintro ui h
    obtain rfl := Option.some.inj h
    rfl

omit [Generator G] in
/-- An event that the interface sends goes to the end of the events on their way, or is dropped. -/
theorem inTransit_trySend (ev : GeneratorEvent) (s : UiSystem G) :
    ((s.trySend ev).inTransit = s.inTransit ++ [ev] ∧ (s.trySend ev).dropped = s.dropped) ∨
      ((s.trySend ev).inTransit = s.inTransit ∧ (s.trySend ev).dropped = s.dropped + 1) := by
  unfold trySend
  cases hrx : s.uiRx with
  | none => exact .inl ⟨by simp [inTransit, hrx], by simp⟩
  | some queued => exact .inr ⟨by simp [inTransit, hrx], by simp⟩

omit [Generator G] in
theorem trySend_frame (ev : GeneratorEvent) (s : UiSystem G) :
    (s.trySend ev).ui = s.ui ∧ (s.trySend ev).awaiting = s.awaiting ∧ (s.trySend ev).control = s.control ∧
      (s.trySend ev).sent = s.sent ++ [ev] ∧ (s.trySend ev).handled = s.handled := by
  unfold trySend
  simp only
  split_ifs
  · exact ⟨rfl, rfl, rfl, rfl, rfl⟩
  · exact ⟨rfl, rfl, rfl, rfl, rfl⟩

omit [Generator G] in
/-- A key either sends nothing, and keeps the mode of an interface that goes on, or sends an event. -/
theorem onKey_cases {s s' : UiSystem G} {key : KeyEvent} (h : s.onKey key = some s') :
    (∃ ui', s' = { s with ui := ui' } ∧
      ∀ ui, ui' = some ui → ∃ ui₀, s.ui = some ui₀ ∧ ui.head.mode = ui₀.head.mode) ∨
    ∃ ui ui' ev, s.ui = some ui ∧ Ui.Sends ui ui' ev ∧ s' = { s with ui := some ui' }.trySend ev := by
  unfold onKey at h
  cases hui : s.ui with
  | none =>
      rw [hui] at h
      cases h
  | some ui =>
      simp only [hui] at h
      cases hkey : ui.onKey key with
      | none =>
          simp only [hkey, Option.some.injEq] at h
          exact .inl ⟨none, h.symm, fun _ h => (nomatch h)⟩
      | some r =>
          obtain ⟨ui', sent⟩ := r
          rcases Ui.onKey_cases hkey with ⟨rfl, hmode⟩ | ⟨ev, rfl, hsends⟩
          · simp only [hkey, Option.some.injEq] at h
            refine .inl ⟨some ui', h.symm, fun ui'' h'' => ?_⟩
            obtain rfl := Option.some.inj h''
            exact ⟨ui, rfl, hmode⟩
          · simp only [hkey, Option.some.injEq] at h
            exact .inr ⟨ui, ui', ev, rfl, hsends, h.symm⟩

/-- A turn takes the queued event when the loop goes on, and leaves it in the channel otherwise. -/
theorem turn_frame {s s' : ControlSystem G} {pollNow eventNow : ℕ}
    (h : s.step (.turn pollNow eventNow) = some s') :
    s'.inflight = s.inflight ∧
      s'.loop.controlRx = if s'.live then none else s.loop.controlRx := by
  simp only [ControlSystem.step] at h
  split_ifs at h with hcond
  cases hturn : s.loop.turn pollNow eventNow with
  | again loop =>
      rw [hturn] at h
      obtain rfl := Option.some.inj h
      obtain ⟨v, g, -, -, -, rfl⟩ := RateControl.turn_again hturn
      exact ⟨rfl, (if_pos hcond.1).symm⟩
  | finished loop =>
      rw [hturn] at h
      obtain rfl := Option.some.inj h
      refine ⟨rfl, ?_⟩
      unfold RateControl.turn at hturn
      split at hturn
      · cases hturn
      · cases hturn
        rfl
      · split_ifs at hturn
        cases hturn
        rfl
  | panicked =>
      rw [hturn] at h
      obtain rfl := Option.some.inj h
      exact ⟨rfl, rfl⟩

/-- A handler leaves the generator alone, and does not end the loop. -/
theorem handle_generator {s s' : ControlSystem G} (h : s.step (.handle 0) = some s') :
    s'.loop.g = s.loop.g ∧ s'.live = s.live := by
  have htrySend : ∀ ev, (s.trySend ev).loop.g = s.loop.g := by
    intro ev
    unfold ControlSystem.trySend
    split_ifs
    · rfl
    · rfl
  simp only [ControlSystem.step] at h
  split at h
  · cases h
  · rename_i request _
    obtain rfl := Option.some.inj h
    refine ⟨?_, ControlSystem.control_live request s⟩
    rcases request with _ | kind
    · rfl
    · cases kind with
      | stop => rfl
      | suspend => exact htrySend _
      | resume => exact htrySend _
      | set v => exact htrySend _

/-- The handler of the only request queues its event, unless it drops it. -/
theorem handle_frame {s s' : ControlSystem G} {ev : GeneratorEvent}
    (hinflight : s.inflight = [intoControlRequest ev]) (h : s.step (.handle 0) = some s') :
    s'.inflight = [] ∧
      s'.loop.controlRx = if s.live ∧ s.loop.controlRx = none then some ev else s.loop.controlRx := by
  simp only [ControlSystem.step, hinflight, List.getElem?_cons_zero, List.eraseIdx_cons_zero] at h
  obtain rfl := Option.some.inj h
  refine ⟨rfl, ?_⟩
  have hcontrol : s.control (intoControlRequest ev) =
      { s.trySend ev with acked := (s.trySend ev).acked ++ [intoControlRequest ev] } := by
    cases ev <;> rfl
  show (s.control (intoControlRequest ev)).loop.controlRx = _
  rw [hcontrol]
  unfold ControlSystem.trySend
  split_ifs
  · rfl
  · rfl

omit [Generator G] in
theorem Queued.trySend {s : UiSystem G} (h : s.Queued) (ev : GeneratorEvent) : (s.trySend ev).Queued := by
  obtain ⟨-, -, -, hsent, hhandled⟩ := trySend_frame ev s
  rcases inTransit_trySend ev s with ⟨hkept, hdropped⟩ | ⟨hkept, hdropped⟩
  · refine ⟨?_, ?_⟩
    · rw [hhandled, hkept, hsent, ← List.append_assoc]
      exact h.sublist.append (List.Sublist.refl _)
    · have := h.length
      rw [hhandled, hkept, hsent, hdropped, ← List.append_assoc, List.length_append, List.length_append]
      simp only [List.length_append, List.length_singleton] at this ⊢
      omega
  · refine ⟨?_, ?_⟩
    · rw [hhandled, hkept, hsent]
      exact h.sublist.trans (List.sublist_append_left _ _)
    · have := h.length
      rw [hhandled, hkept, hsent, hdropped]
      simp only [List.length_append, List.length_singleton] at this ⊢
      omega

omit [Generator G] in
theorem Ordered.trySend {s : UiSystem G} (h : s.Ordered) {ui ui' : Ui} {ev : GeneratorEvent}
    (hui : s.ui = some ui) (hsends : Ui.Sends ui ui' ev) : ({ s with ui := some ui' }.trySend ev).Ordered := by
  obtain ⟨hui', hawaiting, hcontrol, hsent, -⟩ := trySend_frame ev { s with ui := some ui' }
  have hqueued : ({ s with ui := some ui' } : UiSystem G).Queued := ⟨h.queued.sublist, h.queued.length⟩
  have halternates : Alternates (s.sent ++ [ev]) := by
    refine h.alternates.concat fun hev => ?_
    have hmode := h.mode ui hui
    rw [hsends.suspend hev] at hmode
    cases hlast : s.sent.getLast? with
    | none => exact .inl rfl
    | some last =>
        rw [hlast] at hmode
        cases last with
        | suspend => cases hmode
        | resume => exact .inr rfl
        | set v => cases hmode
  refine ⟨hqueued.trySend ev, by rw [hcontrol]; exact h.single, by rw [hcontrol, hawaiting]; exact h.awaiting,
    by rw [hsent]; exact halternates, ?_⟩
  intro ui'' h''
  obtain rfl := Option.some.inj (hui'.symm.trans h'')
  rw [hsent, List.getLast?_append, List.getLast?_singleton]
  exact hsends.mode

/-- **Every step keeps the order of the events.** -/
theorem Ordered.step {s s' : UiSystem G} (h : s.Ordered) {a : UiAction} (hstep : s.step a = some s') :
    s'.Ordered := by
  cases a with
  | key key =>
      rcases onKey_cases hstep with ⟨ui', rfl, hmode⟩ | ⟨ui, ui', ev, hui, hsends, rfl⟩
      · refine { h with queued := ⟨h.queued.sublist, h.queued.length⟩, mode := fun ui hui => ?_ }
        obtain ⟨ui₀, hui₀, heq⟩ := hmode ui hui
        rw [heq]
        exact h.mode ui₀ hui₀
      · exact h.trySend hui hsends
  | forward =>
      simp only [UiSystem.step] at hstep
      cases hrx : s.uiRx with
      | none =>
          rw [hrx] at hstep
          cases hstep
      | some ev =>
          simp only [hrx] at hstep
          split_ifs at hstep with hawaiting
          obtain rfl := Option.some.inj hstep
          have hinflight : s.control.inflight = [] := by
            by_contra hne
            exact hawaiting (h.awaiting hne)
          have htransit : s.inTransit = s.control.loop.controlRx.toList ++ [ev] := by
            simp [inTransit, hrx, hinflight]
          refine { h with
            queued := ⟨?_, ?_⟩
            single := .inr ⟨ev, by simp [hinflight]⟩
            awaiting := fun _ => rfl }
          · have := h.queued.sublist
            rw [htransit] at this
            simpa [inTransit, hinflight] using this
          · have := h.queued.length
            rw [htransit] at this
            simpa [inTransit, hinflight] using this
  | handle =>
      obtain ⟨control, hcontrol, rfl⟩ := Option.map_eq_some_iff.mp hstep
      have hinflight : ∃ ev, s.control.inflight = [intoControlRequest ev] := by
        refine h.single.resolve_left fun hnil => ?_
        simp [ControlSystem.step, hnil] at hcontrol
      obtain ⟨ev, hinflight⟩ := hinflight
      obtain ⟨hnil, hrx⟩ := handle_frame hinflight hcontrol
      have hsublist := h.queued.sublist
      have hlength := h.queued.length
      simp only [inTransit, hinflight, List.filterMap_cons, List.filterMap_nil,
        intoControlRequest_event] at hsublist hlength
      refine { h with
        queued := ⟨?_, ?_⟩
        single := .inl hnil
        awaiting := fun hne => absurd hnil hne }
      · simp only [inTransit, hnil, hrx, List.filterMap_nil, List.append_nil]
        refine List.Sublist.trans ?_ hsublist
        split_ifs with hroom
        · rw [hroom.2]
          exact List.Sublist.refl _
        · simp
      · by_cases hdrops : s.drops
        · have hfull : ¬(s.control.live = true ∧ s.control.loop.controlRx = none) := hdrops
          simp only [inTransit, hnil, hrx, if_neg hfull, if_pos hdrops, List.length_append, List.length_cons,
            List.filterMap_nil, List.length_nil] at hlength ⊢
          omega
        · have hroom : s.control.live = true ∧ s.control.loop.controlRx = none := not_not.mp hdrops
          rw [hroom.2] at hlength
          simp only [inTransit, hnil, hrx, if_pos hroom, if_neg hdrops, List.length_append, List.length_cons,
            List.filterMap_nil, List.length_nil, Option.toList_some, Option.toList_none] at hlength ⊢
          omega
  | respond =>
      simp only [UiSystem.step] at hstep
      split_ifs at hstep with hcond
      obtain rfl := Option.some.inj hstep
      exact { h with queued := ⟨h.queued.sublist, h.queued.length⟩, awaiting := fun hne => absurd hcond.2 hne }
  | turn pollNow eventNow =>
      obtain ⟨control, hcontrol, rfl⟩ := Option.map_eq_some_iff.mp hstep
      obtain ⟨hinflight, hrx⟩ := turn_frame hcontrol
      have hmoved : (if control.live then s.handled ++ s.control.loop.controlRx.toList else s.handled) ++
          (control.loop.controlRx.toList ++ control.inflight.filterMap (fun request => request.bind Kind.event) ++
            s.uiRx.toList) = s.handled ++ s.inTransit := by
        rw [hinflight, hrx, inTransit]
        split_ifs
        · simp
        · rfl
      refine { h with
        queued := ⟨?_, ?_⟩
        single := hinflight ▸ h.single
        awaiting := hinflight ▸ h.awaiting }
      · show List.Sublist (_ ++ _) _
        exact hmoved ▸ h.queued.sublist
      · show List.length (_ ++ _) + _ = _
        exact hmoved ▸ h.queued.length
  | close =>
      simp only [UiSystem.step] at hstep
      split_ifs at hstep with hclosed
      obtain rfl := Option.some.inj hstep
      exact { h with queued := ⟨h.queued.sublist, h.queued.length⟩ }

omit [Generator G] in
theorem trySend_dropped_le (ev : GeneratorEvent) (s : UiSystem G) : s.dropped ≤ (s.trySend ev).dropped := by
  rcases inTransit_trySend ev s with ⟨-, hdropped⟩ | ⟨-, hdropped⟩
  · exact hdropped.ge
  · exact (Nat.le_succ _).trans hdropped.ge

omit [Generator G] in
/-- What the last event makes sure of, whatever came before it. A suspension may leave a manual value. -/
def Heard : Option GeneratorEvent → SuspendableGenerator G → Prop
  | some .suspend, g => g.suspendedAt ≠ none
  | some (.set v), g => g.suspendedAt ≠ none ∧ g.value = some v
  | some .resume, g => g.suspendedAt = none
  | none, g => g.suspendedAt = none

omit [Generator G] in
theorem heard_handle (ev : GeneratorEvent) (g : SuspendableGenerator G) (now : ℕ) :
    Heard (some ev) (g.handle now ev) := by
  cases hs : g.suspendedAt with
  | none =>
      cases ev <;>
        simp [Heard, SuspendableGenerator.handle, SuspendableGenerator.suspend, SuspendableGenerator.resume,
          SuspendableGenerator.set, hs]
  | some a =>
      cases ev <;>
        simp [Heard, SuspendableGenerator.handle, SuspendableGenerator.suspend, SuspendableGenerator.resume,
          SuspendableGenerator.set, hs]

omit [Generator G] in
theorem Heard.congr {last : Option GeneratorEvent} {g g' : SuspendableGenerator G} (h : Heard last g)
    (hat : g'.suspendedAt = g.suspendedAt) (hvalue : g'.value = g.value) : Heard last g' := by
  rcases last with _ | ev
  · exact hat.trans h
  · cases ev with
    | suspend => exact hat.trans_ne h
    | resume => exact hat.trans h
    | set v => exact ⟨hat.trans_ne h.1, hvalue.trans h.2⟩

omit [Generator G] in
/-- An event that has been heard is obeyed, unless it is a suspension that left a manual value. -/
theorem Heard.obeys {last : Option GeneratorEvent} {g : SuspendableGenerator G} (h : Heard last g)
    (hmanual : last = some .suspend → g.value = none) : ControlSystem.Obeys last g := by
  rcases last with _ | ev
  · exact h
  · cases ev with
    | suspend => exact ⟨h, by rw [hmanual rfl, Option.getD_none]⟩
    | resume => exact h
    | set v => exact h

omit [Generator G] in
/-- Without a loss, all events that were sent are handled or on their way. -/
theorem Queued.eq_sent {s : UiSystem G} (h : s.Queued) (hkept : s.dropped = 0) :
    s.handled ++ s.inTransit = s.sent := by
  refine h.sublist.eq_of_length ?_
  have := h.length
  omega

/-- The generator has heard the last event that was handled; as long as nothing is dropped, it has no manual
value but one that was just typed, and the control path is in the state that the last event demands. -/
structure Tracked (s : UiSystem G) : Prop where
  consistent : s.control.live = true → s.control.loop.g.Consistent
  heard : s.control.live = true → Heard s.handled.getLast? s.control.loop.g
  cleared : s.dropped = 0 → s.control.live = true → s.handled.getLast? = some .suspend →
    s.control.loop.g.value = none
  coherent : s.dropped = 0 → s.control.live = true → s.control.Coherent

theorem new_tracked (g : G) {limits : List ℕ} (hlimits : limits ≠ []) (t0 : ℕ) :
    (new g limits t0).Tracked where
  consistent := fun _ _ => rfl
  heard := fun _ => rfl
  cleared := by
    intro _ _ h
    cases h
  coherent := fun _ _ => ControlSystem.new_coherent g hlimits t0

omit [Generator G] in
/-- A step of the interface leaves the generator alone. -/
theorem Tracked.congr {s s' : UiSystem G} (h : s.Tracked) (hcontrol : s'.control = s.control)
    (hhandled : s'.handled = s.handled) (hdropped : s.dropped ≤ s'.dropped) : s'.Tracked where
  consistent := by rw [hcontrol]; exact h.consistent
  heard := by rw [hcontrol, hhandled]; exact h.heard
  cleared := by
    rw [hcontrol, hhandled]
    exact fun hkept => h.cleared (by omega)
  coherent := by
    rw [hcontrol]
    exact fun hkept => h.coherent (by omega)

omit [Generator G] in
/-- A suspension that waits for its turn finds no manual value, if nothing was dropped. -/
theorem Tracked.value_of_queued {s : UiSystem G} (h : s.Tracked) (horder : s.Ordered) (hkept : s.dropped = 0)
    (hlive : s.control.live = true) (hrx : s.control.loop.controlRx = some .suspend) :
    s.control.loop.g.value = none := by
  have hsent := horder.queued.eq_sent hkept
  rw [inTransit, hrx, Option.toList_some, List.append_assoc, List.singleton_append] at hsent
  have hheard := h.heard hlive
  rcases horder.alternates _ _ hsent.symm with hlast | hlast
  · rw [hlast] at hheard
    exact h.consistent hlive hheard
  · rw [hlast] at hheard
    exact h.consistent hlive hheard

/-- A turn that goes on makes the generator hear the queued event. -/
theorem Tracked.turn {s : UiSystem G} (h : s.Tracked) (horder : s.Ordered) {pollNow eventNow : ℕ}
    {control : ControlSystem G} (hcontrol : s.control.step (.turn pollNow eventNow) = some control) :
    ({ s with
      control := control
      handled := if control.live then s.handled ++ s.control.loop.controlRx.toList else s.handled } :
      UiSystem G).Tracked := by
  have hmanual : s.dropped = 0 → s.control.live = true → s.control.loop.controlRx = some .suspend →
      s.control.loop.g.value = none := h.value_of_queued horder
  have hcoherent : s.dropped = 0 → control.live = true → control.Coherent := by
    intro hkept hlive
    have hlive' := (ControlSystem.turn_of_live hcontrol hlive).1
    have hguard : s.control.Undisturbed (.turn pollNow eventNow) := by
      intro hrx
      rw [hmanual hkept hlive' hrx, Option.getD_none]
    exact ControlSystem.coherent_step (h.coherent hkept) hguard hcontrol hlive
  by_cases hlive : control.live = true
  · obtain ⟨hlive', -, -, loop, hturn, rfl⟩ := ControlSystem.turn_of_live hcontrol hlive
    obtain ⟨v, g, hcurrent, -, -, rfl⟩ := RateControl.turn_again hturn
    obtain ⟨hat, -, hvalue⟩ := SuspendableGenerator.currentAt_frame hcurrent
    have hconsistent : g.Consistent := by
      intro hg
      rw [hvalue]
      exact h.consistent hlive' (hat ▸ hg)
    rw [if_pos hlive]
    cases hrx : s.control.loop.controlRx with
    | none =>
        rw [hrx] at hcoherent
        rw [Option.toList_none, List.append_nil]
        exact ⟨fun _ => hconsistent, fun _ => (h.heard hlive').congr hat hvalue,
          fun hkept _ hlast => hvalue.trans (h.cleared hkept hlive' hlast), hcoherent⟩
    | some ev =>
        rw [hrx] at hcoherent
        rw [Option.toList_some]
        refine ⟨fun _ => (SuspendableGenerator.handle_value hconsistent eventNow ev).1, fun _ => ?_,
          fun hkept _ hlast => ?_, hcoherent⟩
        · rw [List.getLast?_append, List.getLast?_singleton]
          exact heard_handle ev g eventNow
        · rw [List.getLast?_append, List.getLast?_singleton] at hlast
          obtain rfl := Option.some.inj hlast
          show (g.handle eventNow .suspend).value = none
          rw [(SuspendableGenerator.handle_value hconsistent eventNow .suspend).2]
          exact hvalue.trans (hmanual hkept hlive' hrx)
  · exact ⟨fun h => absurd h hlive, fun h => absurd h hlive, fun _ h => absurd h hlive,
      fun _ h => absurd h hlive⟩

/-- **Every step keeps track of the generator.** -/
theorem Tracked.step {s s' : UiSystem G} (h : s.Tracked) (horder : s.Ordered) {a : UiAction}
    (hstep : s.step a = some s') : s'.Tracked := by
  cases a with
  | key key =>
      rcases onKey_cases hstep with ⟨ui', rfl, -⟩ | ⟨ui, ui', ev, -, -, rfl⟩
      · exact h.congr rfl rfl le_rfl
      · obtain ⟨-, -, hcontrol, -, hhandled⟩ := trySend_frame ev { s with ui := some ui' }
        exact h.congr hcontrol hhandled (trySend_dropped_le ev { s with ui := some ui' })
  | forward =>
      simp only [UiSystem.step] at hstep
      cases hrx : s.uiRx with
      | none =>
          rw [hrx] at hstep
          cases hstep
      | some ev =>
          simp only [hrx] at hstep
          split_ifs at hstep
          obtain rfl := Option.some.inj hstep
          exact ⟨h.consistent, h.heard, h.cleared, fun hkept hlive => (h.coherent hkept hlive).inflight _⟩
  | handle =>
      obtain ⟨control, hcontrol, rfl⟩ := Option.map_eq_some_iff.mp hstep
      obtain ⟨hg, hlive⟩ := handle_generator hcontrol
      have hkept : (if s.drops then s.dropped + 1 else s.dropped) = 0 → s.dropped = 0 ∧ ¬s.drops := by
        intro hzero
        split_ifs at hzero with hdrops
        exact ⟨hzero, hdrops⟩
      refine ⟨?_, ?_, ?_, ?_⟩
      · show control.live = true → control.loop.g.Consistent
        rw [hg, hlive]
        exact h.consistent
      · show control.live = true → Heard _ control.loop.g
        rw [hg, hlive]
        exact h.heard
      · show _ → control.live = true → _ → control.loop.g.value = none
        rw [hg, hlive]
        exact fun hzero => h.cleared (hkept hzero).1
      · intro hzero
        obtain ⟨hzero, hroom⟩ := hkept hzero
        refine ControlSystem.coherent_step (h.coherent hzero) ?_ hcontrol
        exact fun request ev _ _ _ => .inl (not_not.mp hroom).2
  | respond =>
      simp only [UiSystem.step] at hstep
      split_ifs at hstep
      obtain rfl := Option.some.inj hstep
      exact h.congr rfl rfl le_rfl
  | turn pollNow eventNow =>
      obtain ⟨control, hcontrol, rfl⟩ := Option.map_eq_some_iff.mp hstep
      exact h.turn horder hcontrol
  | close =>
      simp only [UiSystem.step] at hstep
      split_ifs at hstep
      obtain rfl := Option.some.inj hstep
      exact ⟨h.consistent, h.heard, h.cleared, fun hkept hlive => (h.coherent hkept hlive).isRunning false⟩

/-- What every run of the system keeps. -/
theorem run_tracked {g : G} {limits : List ℕ} (hlimits : limits ≠ []) {t0 : ℕ} {actions : List UiAction}
    {s : UiSystem G} (hrun : Run.run step (new g limits t0) actions = some s) : s.Ordered ∧ s.Tracked :=
  Run.invariant (I := fun s => s.Ordered ∧ s.Tracked)
    (fun _ _ _ h hstep => ⟨h.1.step hstep, h.2.step h.1 hstep⟩)
    ⟨new_ordered g limits t0, new_tracked g hlimits t0⟩ hrun

/-! ### What the interface shows -/

omit [Generator G] in
/-- At most one event waits at each of the three places: in the two channels and in the request between. -/
theorem Ordered.inTransit_length {s : UiSystem G} (h : s.Ordered) : s.inTransit.length ≤ 3 := by
  have hoption : ∀ ev : Option GeneratorEvent, ev.toList.length ≤ 1 := by
    intro ev
    cases ev with
    | none => exact Nat.zero_le 1
    | some ev => exact le_rfl
  have hinflight : (s.control.inflight.filterMap fun request => request.bind Kind.event).length ≤ 1 := by
    rcases h.single with hnil | ⟨ev, hone⟩
    · rw [hnil]
      exact Nat.zero_le 1
    · rw [hone]
      exact List.length_filterMap_le _ _
  have hloop := hoption s.control.loop.controlRx
  have hui := hoption s.uiRx
  rw [inTransit, List.length_append, List.length_append]
  omega

/-- **Events neither overtake one another nor come twice.** In every interleaving of keys, forwarder, handler
and rate-control loop, what the generator has handled is followed, in the order of the keys, by what is on its
way, three events at most; every other event was counted as dropped. -/
theorem events_in_order (g : G) (limits : List ℕ) (t0 : ℕ) (hlimits : limits ≠ [])
    (actions : List UiAction) (s : UiSystem G) (hrun : Run.run step (new g limits t0) actions = some s) :
    (s.handled ++ s.inTransit).Sublist s.sent ∧
      s.handled.length + s.inTransit.length + s.dropped = s.sent.length ∧ s.inTransit.length ≤ 3 := by
  obtain ⟨horder, -⟩ := run_tracked hlimits hrun
  refine ⟨horder.queued.sublist, ?_, horder.inTransit_length⟩
  rw [← List.length_append]
  exact horder.queued.length

/-- Four presses of `s` before anything is forwarded: all but the first are dropped. -/
theorem events_in_order_dropped :
    ∃ s, Run.run step (new (⟨0, 100, 0, 9⟩ : LineGenerator) [0, 0] 0)
        [.key (.pressed (.char 's')), .key (.pressed (.char 's')), .key (.pressed (.char 's')),
          .key (.pressed (.char 's')), .forward] = some s ∧ s.dropped = 3 ∧
      (s.handled ++ s.inTransit).Sublist s.sent ∧
      s.handled.length + s.inTransit.length + s.dropped = s.sent.length ∧ s.inTransit.length ≤ 3 := by
  refine ⟨_, rfl, rfl, ?_⟩
  exact events_in_order (⟨0, 100, 0, 9⟩ : LineGenerator) [0, 0] 0 (by decide)
    [.key (.pressed (.char 's')), .key (.pressed (.char 's')), .key (.pressed (.char 's')),
      .key (.pressed (.char 's')), .forward] _ rfl

/-- **Without a loss the interface tells the truth.** In a run in which no event was dropped, once every event
has been handled, the mode on the screen is that of the last event, the generator is in the state that this
event demands, a suspension leaves no manual rate behind, and the next turn of the loop publishes the rate that the
event demands. -/
theorem mode_without_loss (g : G) (limits : List ℕ) (t0 : ℕ) (hlimits : limits ≠ [])
    (actions : List UiAction) (s : UiSystem G) (hrun : Run.run step (new g limits t0) actions = some s)
    (hkept : s.dropped = 0) (hlive : s.control.live = true) (hidle : s.inTransit = []) :
    (∀ ui, s.ui = some ui → ui.head.mode = s.sent.getLast?.elim (.running true) Mode.after) ∧
      ControlSystem.Obeys s.sent.getLast? s.control.loop.g ∧
      (s.sent.getLast? = some .suspend → s.control.loop.g.value = none) ∧
      ∀ pollNow eventNow, s.control.clock ≤ pollNow → s.control.loop.isRunning = true →
        ControlSystem.Publishes
          (ControlSystem.demandedRate pollNow s.sent.getLast? s.control.loop.g)
          s.control.loop pollNow eventNow := by
  obtain ⟨horder, htracked⟩ := run_tracked hlimits hrun
  have hsent := horder.queued.eq_sent hkept
  rw [hidle, List.append_nil] at hsent
  have hcleared : s.sent.getLast? = some .suspend → s.control.loop.g.value = none :=
    hsent ▸ htracked.cleared hkept hlive
  have hobeys : ControlSystem.Obeys s.sent.getLast? s.control.loop.g :=
    (hsent ▸ htracked.heard hlive : Heard s.sent.getLast? s.control.loop.g).obeys hcleared
  refine ⟨horder.mode, hobeys, hcleared, fun pollNow eventNow hnow hrunning => ?_⟩
  have hcoherent := htracked.coherent hkept hlive
  obtain ⟨g', hcurrent⟩ := hobeys.currentAt hcoherent.duration hnow
  cases hrate : ControlSystem.demandedRate pollNow s.sent.getLast? s.control.loop.g with
  | none =>
      rw [hrate] at hcurrent
      exact ⟨_, RateControl.turn_of_none hcurrent⟩
  | some v =>
      rw [hrate] at hcurrent
      exact ⟨_, RateControl.turn_of_some hcurrent hrunning hcoherent.limits, rfl, rfl⟩

/-- A rate of five is typed, and taken back with `s` once the response has come. -/
theorem mode_without_loss_resumed :
    ∃ s, Run.run step (new (⟨0, 100, 0, 9⟩ : LineGenerator) [0, 0] 0)
        [.key (.pressed (.char '5')), .key (.pressed .enter), .forward, .handle, .turn 1 1, .respond,
          .key (.pressed (.char 's')), .forward, .handle, .turn 2 3] = some s ∧
      s.sent = [.set 5, .resume] ∧
      (∀ ui, s.ui = some ui → ui.head.mode = s.sent.getLast?.elim (.running true) Mode.after) ∧
      ControlSystem.Obeys s.sent.getLast? s.control.loop.g ∧
      (s.sent.getLast? = some .suspend → s.control.loop.g.value = none) ∧
      ∀ pollNow eventNow, s.control.clock ≤ pollNow → s.control.loop.isRunning = true →
        ControlSystem.Publishes
          (ControlSystem.demandedRate pollNow s.sent.getLast? s.control.loop.g)
          s.control.loop pollNow eventNow := by
  refine ⟨_, rfl, rfl, ?_⟩
  exact mode_without_loss (⟨0, 100, 0, 9⟩ : LineGenerator) [0, 0] 0 (by decide)
    [.key (.pressed (.char '5')), .key (.pressed .enter), .forward, .handle, .turn 1 1, .respond,
      .key (.pressed (.char 's')), .forward, .handle, .turn 2 3] _ rfl rfl rfl rfl

/-- **A loss is repaired by the next event that gets through.** Whatever was dropped before, once the last event
of the interface has been handled, the mode on the screen and the generator agree on it again: running, suspended,
or manual with the rate that was typed. -/
theorem mode_after_loss (g : G) (limits : List ℕ) (t0 : ℕ) (hlimits : limits ≠ [])
    (actions : List UiAction) (s : UiSystem G) (hrun : Run.run step (new g limits t0) actions = some s)
    (hlive : s.control.live = true) (hlast : s.handled.getLast? = s.sent.getLast?) :
    (∀ ui, s.ui = some ui → ui.head.mode = s.sent.getLast?.elim (.running true) Mode.after) ∧
      Heard s.sent.getLast? s.control.loop.g := by
  obtain ⟨horder, htracked⟩ := run_tracked hlimits hrun
  exact ⟨horder.mode, hlast ▸ htracked.heard hlive⟩

/-- The second press finds the channel full, and the screen says running while the generator is suspended; after
two presses more it is right again. -/
theorem mode_after_loss_repaired :
    ∃ s, Run.run step (new (⟨0, 100, 0, 9⟩ : LineGenerator) [0, 0] 0)
        [.key (.pressed (.char 's')), .key (.pressed (.char 's')), .forward, .handle, .turn 1 1, .respond,
          .key (.pressed (.char 's')), .forward, .handle, .turn 2 2, .respond, .key (.pressed (.char 's')),
          .forward, .handle, .turn 3 3] = some s ∧ s.dropped = 1 ∧
      (∀ ui, s.ui = some ui → ui.head.mode = s.sent.getLast?.elim (.running true) Mode.after) ∧
      Heard s.sent.getLast? s.control.loop.g := by
  refine ⟨_, rfl, rfl, ?_⟩
  exact mode_after_loss (⟨0, 100, 0, 9⟩ : LineGenerator) [0, 0] 0 (by decide)
    [.key (.pressed (.char 's')), .key (.pressed (.char 's')), .forward, .handle, .turn 1 1, .respond,
      .key (.pressed (.char 's')), .forward, .handle, .turn 2 2, .respond, .key (.pressed (.char 's')),
      .forward, .handle, .turn 3 3] _ rfl rfl rfl

/-- With the second press lost, a manual rate goes on behind a screen that says suspended: a suspension that
finds the generator suspended leaves the rate as it is. -/
example :
    ∃ s ui, Run.run step (new (⟨0, 100, 0, 9⟩ : LineGenerator) [0, 0] 0)
        [.key (.pressed (.char '5')), .key (.pressed .enter), .key (.pressed (.char 's')), .forward, .handle,
          .turn 1 1, .respond, .key (.pressed (.char 's')), .forward, .handle, .turn 2 2, .turn 3 3] = some s ∧
      s.ui = some ui ∧ ui.head.mode = .running false ∧ s.inTransit = [] ∧ s.control.loop.generator = 5 :=
  ⟨_, _, rfl, rfl, rfl, rfl, rfl⟩

end UiSystem

end Dwd
