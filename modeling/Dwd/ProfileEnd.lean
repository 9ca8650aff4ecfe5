import Dwd.Control
import Dwd.GeneratorLifetime
import Dwd.SuspendableTransparency

/-! How long a run lasts. The profile lives on the virtual clock of the generator, which stands still while the
generator is suspended, and the rate-control loop polls it with gaps of a bounded length. So the loop ends with the
profile: not before the profile's duration and the suspended time have passed, and by one gap for each stage of the
profile later at most. A request or a signal that clears the run flag ends it before. -/

namespace Dwd

open GeneratorEvent Polling

namespace RateControl

variable {G : Type} [Generator G]

/-- A turn whose poll does not panic goes on with the rate that it polls, or clears the run flag. -/
theorem turn_of_currentAt {s : RateControl G} {pollNow : ℕ} {v : Option ℕ} {g : SuspendableGenerator G}
    (hpoll : s.g.currentAt pollNow = some (v, g)) (hlimits : s.limits ≠ []) (eventNow : ℕ) :
    (v = none ∨ s.isRunning = false) ∧ s.turn pollNow eventNow = .finished { s with g := g, isRunning := false } ∨
      s.isRunning = true ∧ ∃ w, v = some w ∧ s.turn pollNow eventNow = .again { s with
        g := s.controlRx.elim g fun ev => g.handle eventNow ev
        controlRx := none
        limits := distribute w s.limits.length
        generator := w } := by
  cases hv : v with
  | none => exact .inl ⟨.inl rfl, turn_of_none (hv ▸ hpoll)⟩
  | some w =>
      rw [hv] at hpoll
      by_cases hrunning : s.isRunning = true
      · exact .inr ⟨hrunning, w, rfl, turn_of_some hpoll hrunning hlimits⟩
      · rw [Bool.not_eq_true] at hrunning
        refine .inl ⟨.inr hrunning, ?_⟩
        simp only [turn, hpoll, hrunning, Bool.not_false, if_true]

end RateControl

namespace ControlSystem

variable {G : Type} [Generator G]

/-- The control event that a step applies, with its time. -/
def applied (s : ControlSystem G) : ControlAction → List (ℕ × GeneratorEvent)
  | .turn pollNow eventNow =>
      match s.loop.turn pollNow eventNow with
      | .again _ => (s.loop.controlRx.map fun ev => (eventNow, ev)).toList
      | .finished _ => []
      | .panicked => []
  | .call _ => []
  | .handle _ => []
  | .shutdown => []

/-- The control events that a run applies. -/
def history (s : ControlSystem G) (actions : List ControlAction) : List (ℕ × GeneratorEvent) :=
  Run.outputs step applied s actions

/-- A turn begins at most `pause` after the end of the one before, and takes `work` at most. -/
def Punctual (pause work : ℕ) (s : ControlSystem G) : ControlAction → Prop
  | .turn pollNow eventNow => pollNow ≤ s.clock + pause ∧ eventNow ≤ pollNow + work
  | _ => True

instance (pause work : ℕ) (s : ControlSystem G) : (a : ControlAction) → Decidable (Punctual pause work s a)
  | .turn _ _ => inferInstanceAs (Decidable (_ ∧ _))
  | .call _ => isTrue trivial
  | .handle _ => isTrue trivial
  | .shutdown => isTrue trivial

/-- A step that does not clear the run flag from outside of the loop. -/
def Unstopped (s : ControlSystem G) : ControlAction → Prop
  | .handle i => s.inflight[i]? ≠ some (some .stop)
  | .shutdown => False
  | _ => True

instance (s : ControlSystem G) : (a : ControlAction) → Decidable (Unstopped s a)
  | .handle _ => inferInstanceAs (Decidable (¬_))
  | .shutdown => isFalse id
  | .call _ => isTrue trivial
  | .turn _ _ => isTrue trivial

omit [Generator G] in
/-- A handler leaves the loop alone but for its channel and its flag, which only `stop` clears. -/
theorem control_frame (request : Option Kind) (s : ControlSystem G) :
    (s.control request).loop.g = s.loop.g ∧ (s.control request).loop.limits = s.loop.limits ∧
      (s.control request).clock = s.clock ∧
      (request ≠ some .stop → (s.control request).loop.isRunning = s.loop.isRunning) ∧
      (s.loop.isRunning = false → (s.control request).loop.isRunning = false) := by
  have hsend : ∀ ev : GeneratorEvent, (s.trySend ev).loop.g = s.loop.g ∧
      (s.trySend ev).loop.limits = s.loop.limits ∧ (s.trySend ev).clock = s.clock ∧
      (s.trySend ev).loop.isRunning = s.loop.isRunning := by
    intro ev
    unfold trySend
    split_ifs
    · exact ⟨rfl, rfl, rfl, rfl⟩
    · exact ⟨rfl, rfl, rfl, rfl⟩
  rcases request with _ | kind
  · exact ⟨rfl, rfl, rfl, fun _ => rfl, id⟩
  · cases hkind : kind.event with
    | none =>
        cases kind with
        | stop => exact ⟨rfl, rfl, rfl, fun h => absurd rfl h, fun _ => rfl⟩
        | suspend => cases hkind
        | resume => cases hkind
        | set v => cases hkind
    | some ev =>
        obtain ⟨hg, hlimits, hclock, hflag⟩ := hsend ev
        rw [control_of_event hkind]
        exact ⟨hg, hlimits, hclock, fun _ => hflag, fun h => hflag.trans h⟩

/-- A turn of the loop whose poll does not panic. -/
theorem step_turn {s s' : ControlSystem G} {pollNow eventNow : ℕ} {v : Option ℕ} {g : SuspendableGenerator G}
    (hpoll : s.loop.g.currentAt pollNow = some (v, g)) (hlimits : s.loop.limits ≠ [])
    (hstep : s.step (.turn pollNow eventNow) = some s') :
    s'.clock = eventNow ∧ s'.loop.limits ≠ [] ∧
      ((v = none ∨ s.loop.isRunning = false) ∧ s'.live = false ∧ s'.loop.isRunning = false ∧ s'.loop.g = g ∧
          s.applied (.turn pollNow eventNow) = [] ∨
        s.loop.isRunning = true ∧ v ≠ none ∧ s'.live = true ∧ s'.loop.isRunning = true ∧
          s'.loop.g = (s.loop.controlRx.elim g fun ev => g.handle eventNow ev) ∧
          s.applied (.turn pollNow eventNow) = (s.loop.controlRx.map fun ev => (eventNow, ev)).toList) := by
  simp only [step] at hstep
  split_ifs at hstep with hcond
  rcases RateControl.turn_of_currentAt hpoll hlimits eventNow with ⟨hend, hturn⟩ | ⟨hrunning, w, rfl, hturn⟩
  · rw [hturn] at hstep
    obtain rfl := Option.some.inj hstep
    refine ⟨rfl, hlimits, .inl ⟨hend, rfl, rfl, rfl, ?_⟩⟩
    rw [applied, hturn]
  · rw [hturn] at hstep
    obtain rfl := Option.some.inj hstep
    refine ⟨rfl, ?_, .inr ⟨hrunning, Option.some_ne_none w, hcond.1, hrunning, rfl, ?_⟩⟩
    · simpa [distribute] using hlimits
    · rw [applied, hturn]

/-- The guards of a turn that is taken. -/
theorem turn_enabled {s s' : ControlSystem G} {pollNow eventNow : ℕ}
    (hstep : s.step (.turn pollNow eventNow) = some s') :
    s.live = true ∧ s.clock ≤ pollNow ∧ pollNow ≤ eventNow := by
  simp only [step] at hstep
  split_ifs at hstep with hcond
  exact hcond

end ControlSystem

namespace GeneratorEvent

theorem virtualNow_of_none {earlier : List (ℕ × GeneratorEvent)} (hopen : openInterval none earlier = none)
    (now : ℕ) : virtualNow earlier now = now - suspendedTotal none earlier := by
  rw [virtualNow, hopen, Option.getD_none]

/-- The virtual clock stands still inside an interval. -/
theorem virtualNow_of_some {earlier : List (ℕ × GeneratorEvent)} {a : ℕ}
    (hopen : openInterval none earlier = some a) (t now : ℕ) : virtualNow earlier t = virtualNow earlier now := by
  rw [virtualNow, virtualNow, hopen, Option.getD_some, Option.getD_some]

/-- The virtual clock is not faster than the clock. -/
theorem virtualNow_le_add {earlier : List (ℕ × GeneratorEvent)} {t now w : ℕ} (h : now ≤ t + w) :
    virtualNow earlier now ≤ virtualNow earlier t + w := by
  cases hopen : openInterval none earlier with
  | none =>
      rw [virtualNow_of_none hopen, virtualNow_of_none hopen]
      omega
  | some a =>
      rw [virtualNow_of_some hopen now t]
      exact Nat.le_add_right _ _

theorem chronological_concat {t0 now : ℕ} {earlier : List (ℕ × GeneratorEvent)} {ev : GeneratorEvent}
    (htimes : Chronological (t0 :: earlier.map Prod.fst)) (hpast : ∀ e ∈ earlier, e.1 ≤ now) (hstart : t0 ≤ now) :
    Chronological (t0 :: (earlier ++ [(now, ev)]).map Prod.fst) := by
  rw [List.map_append, ← List.cons_append, Chronological, List.pairwise_append]
  refine ⟨htimes, List.pairwise_singleton _ _, fun x hx y hy => ?_⟩
  rw [List.mem_singleton.mp hy]
  rcases List.mem_cons.mp hx with rfl | hx
  · exact hstart
  · obtain ⟨e, he, rfl⟩ := List.mem_map.mp hx
    exact hpast e he

end GeneratorEvent

namespace ControlSystem

variable {G : Type} [Generator G] {t0 pause work lo hi : ℕ}

/-- The generator, last polled or activated on the virtual clock within `work` of what this shows, ends between
`lo` and `hi`; the loop is over only with the run flag cleared. -/
structure Timed (t0 pause work lo hi : ℕ) (s : ControlSystem G) (earlier : List (ℕ × GeneratorEvent)) : Prop where
  tracks : s.loop.g.Tracks earlier
  times : Chronological (t0 :: earlier.map Prod.fst)
  past : ∀ e ∈ earlier, e.1 ≤ s.clock
  started : t0 ≤ s.clock
  limits : s.loop.limits ≠ []
  due : s.live = true → ∃ p q, Ends Generator.currentAt (pause + work) lo hi s.loop.g.g p q ∧
    p ≤ virtualNow earlier s.clock ∧ virtualNow earlier s.clock + pause ≤ q
  bound : virtualNow earlier s.clock ≤ hi + work
  cleared : s.live = false → s.loop.isRunning = false

/-- **A poll of the loop.** A suspended generator is left alone; one that runs is polled in time, and what is left
of it is due within the pause after the turn. -/
theorem Timed.poll {s : ControlSystem G} {earlier : List (ℕ × GeneratorEvent)} {pollNow eventNow : ℕ}
    (hs : s.Timed t0 pause work lo hi earlier) (hlive : s.live = true) (hclock : s.clock ≤ pollNow)
    (hpause : pollNow ≤ s.clock + pause) (hevent : pollNow ≤ eventNow) (hwork : eventNow ≤ pollNow + work) :
    ∃ v g, s.loop.g.currentAt pollNow = some (v, g) ∧ g.Tracks earlier ∧ virtualNow earlier eventNow ≤ hi + work ∧
      (v = none → openInterval none earlier = none ∧ lo ≤ virtualNow earlier eventNow) ∧
      (v ≠ none → ∃ p q, Ends Generator.currentAt (pause + work) lo hi g.g p q ∧
        p ≤ virtualNow earlier eventNow ∧ virtualNow earlier eventNow + pause ≤ q) := by
  obtain ⟨p, q, hends, hp, hq⟩ := hs.due hlive
  obtain ⟨hat, hduration⟩ := hs.tracks
  cases hopen : openInterval none earlier with
  | some a =>
      refine ⟨_, s.loop.g, SuspendableGenerator.currentAt_suspended (hat.trans hopen), hs.tracks, ?_, ?_, ?_⟩
      · rw [virtualNow_of_some hopen eventNow s.clock]
        exact hs.bound
      · intro hnone
        cases hvalue : s.loop.g.value <;> simp [hvalue] at hnone
      · intro _
        rw [virtualNow_of_some hopen eventNow s.clock]
        exact ⟨p, q, hends, hp, hq⟩
  | none =>
      have hroom : t0 + suspendedTotal none earlier ≤ pollNow :=
        SuspendableGenerator.add_suspendedTotal_le hs.times (fun e he => (hs.past e he).trans hclock)
          (hs.started.trans hclock)
      have hnow : pollNow - s.loop.g.suspendedDuration = virtualNow earlier pollNow := by
        rw [virtualNow_of_none hopen, hduration]
      have hearly : p ≤ virtualNow earlier pollNow := hp.trans (virtualNow_mono earlier hclock)
      have hlate : virtualNow earlier pollNow ≤ q := (virtualNow_le_add hpause).trans hq
      have hmoved : virtualNow earlier pollNow ≤ virtualNow earlier eventNow := virtualNow_mono earlier hevent
      have hturn : virtualNow earlier eventNow ≤ virtualNow earlier pollNow + work := virtualNow_le_add hwork
      have hcurrent := SuspendableGenerator.currentAt_running (hat.trans hopen)
        (show s.loop.g.suspendedDuration ≤ pollNow by omega)
      rw [hnow] at hcurrent
      refine ⟨_, _, hcurrent, ⟨hat, hduration⟩, ?_, ?_, ?_⟩
      · exact hturn.trans (Nat.add_le_add_right (hends.le hearly hlate) work)
      · intro hnone
        exact ⟨rfl, (hends.of_none hearly hlate hnone).1.trans hmoved⟩
      · intro hsome
        refine ⟨_, _, hends.of_some hearly hlate hsome, hmoved, ?_⟩
        omega

/-- A turn of a punctual run. -/
theorem Timed.turn {s s' : ControlSystem G} {earlier : List (ℕ × GeneratorEvent)} {pollNow eventNow : ℕ}
    (hs : s.Timed t0 pause work lo hi earlier) (hguard : s.Punctual pause work (.turn pollNow eventNow))
    (hstep : s.step (.turn pollNow eventNow) = some s') :
    s'.Timed t0 pause work lo hi (earlier ++ s.applied (.turn pollNow eventNow)) := by
  obtain ⟨hlive, hclock, hevent⟩ := turn_enabled hstep
  obtain ⟨v, g, hpoll, htracks, hbound, -, hdue⟩ := hs.poll hlive hclock hguard.1 hevent hguard.2
  have hle : s.clock ≤ eventNow := hclock.trans hevent
  have hpast : ∀ e ∈ earlier, e.1 ≤ eventNow := fun e he => (hs.past e he).trans hle
  obtain ⟨hclock', hlimits, hend | hgo⟩ := step_turn hpoll hs.limits hstep
  · obtain ⟨-, hover, hflag, hg, happlied⟩ := hend
    rw [happlied, List.append_nil]
    refine ⟨hg ▸ htracks, hs.times, hclock' ▸ hpast, hclock' ▸ hs.started.trans hle, hlimits, ?_, hclock' ▸ hbound,
      fun _ => hflag⟩
    intro hlive'
    rw [hover] at hlive'
    cases hlive'
  · obtain ⟨-, hsome, hlive', -, hg, happlied⟩ := hgo
    rw [happlied]
    have hcleared : s'.live = false → s'.loop.isRunning = false := fun h => by rw [hlive'] at h; cases h
    cases hrx : s.loop.controlRx with
    | none =>
        rw [hrx] at hg
        rw [Option.map_none, Option.toList_none, List.append_nil]
        refine ⟨hg ▸ htracks, hs.times, hclock' ▸ hpast, hclock' ▸ hs.started.trans hle, hlimits, fun _ => ?_,
          hclock' ▸ hbound, hcleared⟩
        rw [hg, hclock']
        exact hdue hsome
    | some ev =>
        rw [hrx, Option.elim_some] at hg
        rw [Option.map_some, Option.toList_some]
        have hstill := virtualNow_concat ev hpast
        refine ⟨hg ▸ htracks.handle eventNow ev, chronological_concat hs.times hpast (hs.started.trans hle), ?_,
          hclock' ▸ hs.started.trans hle, hlimits, fun _ => ?_, ?_, hcleared⟩
        · rw [hclock']
          exact List.forall_mem_append.mpr ⟨hpast, List.forall_mem_singleton.mpr le_rfl⟩
        · rw [hg, hclock', hstill, (SuspendableGenerator.handle_eq g eventNow ev).1]
          exact hdue hsome
        · rw [hclock', hstill]
          exact hbound

/-- A step that leaves the generator, the cells and the clock alone, and clears the flag at most. -/
theorem Timed.frame {s s' : ControlSystem G} {earlier : List (ℕ × GeneratorEvent)}
    (hs : s.Timed t0 pause work lo hi earlier) (hg : s'.loop.g = s.loop.g)
    (hlimits : s'.loop.limits = s.loop.limits) (hclock : s'.clock = s.clock) (hlive : s'.live = s.live)
    (hflag : s.loop.isRunning = false → s'.loop.isRunning = false) : s'.Timed t0 pause work lo hi earlier := by
  refine ⟨hg ▸ hs.tracks, hs.times, hclock ▸ hs.past, hclock ▸ hs.started, hlimits ▸ hs.limits, ?_,
    hclock ▸ hs.bound, fun h => hflag (hs.cleared (hlive ▸ h))⟩
  rw [hlive, hg, hclock]
  exact hs.due

theorem timed_step {s s' : ControlSystem G} {earlier : List (ℕ × GeneratorEvent)} {a : ControlAction}
    (hs : s.Timed t0 pause work lo hi earlier) (hguard : s.Punctual pause work a) (hstep : s.step a = some s') :
    s'.Timed t0 pause work lo hi (earlier ++ s.applied a) := by
  cases a with
  | turn pollNow eventNow => exact hs.turn hguard hstep
  | call request =>
      obtain rfl := Option.some.inj hstep
      rw [applied, List.append_nil]
      exact hs.frame rfl rfl rfl rfl id
  | handle i =>
      rw [applied, List.append_nil]
      simp only [step] at hstep
      cases hrequest : s.inflight[i]? with
      | none =>
          rw [hrequest] at hstep
          cases hstep
      | some request =>
          rw [hrequest] at hstep
          obtain rfl := Option.some.inj hstep
          obtain ⟨hg, hlimits, hclock, -, hflag⟩ := control_frame request s
          exact hs.frame hg hlimits hclock (control_live request s) hflag
  | shutdown =>
      obtain rfl := Option.some.inj hstep
      rw [applied, List.append_nil]
      exact hs.frame rfl rfl rfl rfl fun _ => rfl

theorem timed_run {s s' : ControlSystem G} {earlier : List (ℕ × GeneratorEvent)} {actions : List ControlAction}
    (hs : s.Timed t0 pause work lo hi earlier) (hpunctual : Run.Guarded step (Punctual pause work) s actions)
    (hrun : Run.run step s actions = some s') : s'.Timed t0 pause work lo hi (earlier ++ s.history actions) :=
  Run.invariant_with_outputs (fun _ _ _ _ hs hguard hstep => timed_step hs hguard hstep) hs hpunctual hrun

/-- Nobody but the loop has cleared the flag, and the loop has done so outside of the intervals only, at the end of
the profile. -/
structure Finishes (lo : ℕ) (s : ControlSystem G) (earlier : List (ℕ × GeneratorEvent)) : Prop where
  flag : s.loop.isRunning = s.live
  ended : s.live = false → openInterval none earlier = none ∧ lo ≤ virtualNow earlier s.clock

theorem Finishes.turn {s s' : ControlSystem G} {earlier : List (ℕ × GeneratorEvent)} {pollNow eventNow : ℕ}
    (hs : s.Timed t0 pause work lo hi earlier) (hfinishes : s.Finishes lo earlier)
    (hguard : s.Punctual pause work (.turn pollNow eventNow))
    (hstep : s.step (.turn pollNow eventNow) = some s') :
    s'.Finishes lo (earlier ++ s.applied (.turn pollNow eventNow)) := by
  obtain ⟨hlive, hclock, hevent⟩ := turn_enabled hstep
  obtain ⟨v, g, hpoll, -, -, hover, -⟩ := hs.poll hlive hclock hguard.1 hevent hguard.2
  obtain ⟨hclock', -, hend | hgo⟩ := step_turn hpoll hs.limits hstep
  · obtain ⟨hend, hover', hflag, -, happlied⟩ := hend
    rw [happlied, List.append_nil]
    refine ⟨hflag.trans hover'.symm, fun _ => ?_⟩
    have hnone : v = none := hend.resolve_right fun h => by
      rw [hfinishes.flag, hlive] at h
      cases h
    rw [hclock']
    exact hover hnone
  · obtain ⟨-, -, hlive', hflag, -, -⟩ := hgo
    refine ⟨hflag.trans hlive'.symm, fun h => ?_⟩
    rw [hlive'] at h
    cases h

theorem finishes_step {s s' : ControlSystem G} {earlier : List (ℕ × GeneratorEvent)} {a : ControlAction}
    (hs : s.Timed t0 pause work lo hi earlier) (hfinishes : s.Finishes lo earlier)
    (hguard : s.Punctual pause work a) (hunstopped : s.Unstopped a) (hstep : s.step a = some s') :
    s'.Finishes lo (earlier ++ s.applied a) := by
  cases a with
  | turn pollNow eventNow => exact hfinishes.turn hs hguard hstep
  | call request =>
      obtain rfl := Option.some.inj hstep
      rw [applied, List.append_nil]
      exact ⟨hfinishes.flag, hfinishes.ended⟩
  | handle i =>
      rw [applied, List.append_nil]
      simp only [step] at hstep
      cases hrequest : s.inflight[i]? with
      | none =>
          rw [hrequest] at hstep
          cases hstep
      | some request =>
          rw [hrequest] at hstep
          obtain rfl := Option.some.inj hstep
          obtain ⟨-, -, hclock, hflag, -⟩ := control_frame request s
          have hrequest' : request ≠ some .stop := fun h => hunstopped (h ▸ hrequest)
          refine ⟨(hflag hrequest').trans (hfinishes.flag.trans (control_live request s).symm), fun hlive => ?_⟩
          show openInterval none earlier = none ∧ lo ≤ virtualNow earlier (s.control request).clock
          rw [hclock]
          exact hfinishes.ended ((control_live request s).symm.trans hlive)
  | shutdown => exact hunstopped.elim

theorem finishes_run {s s' : ControlSystem G} {earlier : List (ℕ × GeneratorEvent)} {actions : List ControlAction}
    (hs : s.Timed t0 pause work lo hi earlier) (hfinishes : s.Finishes lo earlier)
    (hpunctual : Run.Guarded step (Punctual pause work) s actions) (hunstopped : Run.Guarded step Unstopped s actions)
    (hrun : Run.run step s actions = some s') : s'.Finishes lo (earlier ++ s.history actions) := by
  have hstep : ∀ (s : ControlSystem G) earlier a s', s.Timed t0 pause work lo hi earlier ∧ s.Finishes lo earlier →
      s.Punctual pause work a ∧ s.Unstopped a → s.step a = some s' →
      s'.Timed t0 pause work lo hi (earlier ++ s.applied a) ∧ s'.Finishes lo (earlier ++ s.applied a) := by
    rintro s earlier a s' ⟨hs, hfinishes⟩ ⟨hguard, hunstopped⟩ hstep
    exact ⟨timed_step hs hguard hstep, finishes_step hs hfinishes hguard hunstopped hstep⟩
  exact (Run.invariant_with_outputs hstep ⟨hs, hfinishes⟩ (hpunctual.and hunstopped) hrun).2

/-! ### The end of a run -/

/-- The loop at its start, with a generator that lasts for its duration. -/
theorem timed_new {g : BoxedGenerator} {dur stages : ℕ} (hg : BoxedGenerator.Starts (pause + work) g dur stages)
    {limits : List ℕ} (hlimits : limits ≠ []) (t0 : ℕ) :
    (new g limits t0).Timed t0 pause work (t0 + dur) (t0 + dur + stages * (pause + work) + pause) [] where
  tracks := SuspendableGenerator.new_tracks _
  times := List.pairwise_singleton _ _
  past := by simp
  started := le_rfl
  limits := hlimits
  due := fun _ => by
    have hclock : virtualNow [] t0 = t0 := by
      rw [virtualNow_of_none rfl, suspendedTotal_nil, Nat.sub_zero]
    exact ⟨t0, t0 + pause, hg t0 pause (Nat.le_add_right _ _), hclock.ge, (congrArg (· + pause) hclock).le⟩
  bound := by
    show virtualNow [] t0 ≤ _
    rw [virtualNow_of_none rfl, suspendedTotal_nil]
    omega
  cleared := by
    intro h
    cases h

/-- **A run lasts as long as its profile and the time it is suspended.** In a run whose turns come with pauses of
`pause` at most and take `work` at most, no turn outside of a suspended interval ends later than the duration of the
profile, the suspended time, and one gap for each stage and one more after the start. If nobody else clears the run
flag, it is cleared exactly when the loop is over, which it is outside of the suspended intervals only, and not
before the duration and the suspended time have passed. -/
theorem ends_with_profile {findClosestPhase : SinGeneratorConfig → Option (ℕ → ℕ)} (cfg : Config)
    (created : ℕ) (g : BoxedGenerator) (hcreate : cfg.create findClosestPhase created = .ok g) (limits : List ℕ)
    (hlimits : limits ≠ []) (t0 pause work : ℕ) (actions : List ControlAction) (s : ControlSystem BoxedGenerator)
    (hpunctual : Run.Guarded step (Punctual pause work) (new g limits t0) actions)
    (hrun : Run.run step (new g limits t0) actions = some s) :
    let events := history (new g limits t0) actions
    (openInterval none events).getD s.clock ≤
        t0 + cfg.duration + suspendedTotal none events + (cfg.stages + 1) * (pause + work) ∧
      (s.live = false → s.loop.isRunning = false) ∧
      (Run.Guarded step Unstopped (new g limits t0) actions → s.loop.isRunning = s.live ∧
        (s.live = false → openInterval none events = none ∧
          t0 + cfg.duration + suspendedTotal none events ≤ s.clock)) := by
  intro events
  have hstart := timed_new (Config.create_starts (pause + work) created cfg g hcreate) hlimits t0
  have htimed : s.Timed t0 pause work _ _ events := timed_run hstart hpunctual hrun
  refine ⟨?_, htimed.cleared, fun hunstopped => ?_⟩
  · calc (openInterval none events).getD s.clock
        ≤ t0 + cfg.duration + cfg.stages * (pause + work) + pause + work + suspendedTotal none events :=
          Nat.sub_le_iff_le_add.mp htimed.bound
      _ = t0 + cfg.duration + suspendedTotal none events + (cfg.stages + 1) * (pause + work) := by ring
  · have hfinishes : s.Finishes (t0 + cfg.duration) events :=
      finishes_run hstart ⟨rfl, fun h => by cases h⟩ hpunctual hunstopped hrun
    refine ⟨hfinishes.flag, fun hover => ?_⟩
    obtain ⟨hopen, hlate⟩ := hfinishes.ended hover
    have hroom := SuspendableGenerator.add_suspendedTotal_le htimed.times htimed.past htimed.started
    rw [virtualNow_of_none hopen] at hlate
    exact ⟨hopen, by omega⟩

/-- A second at a constant rate, suspended for another one. -/
def suspendedSecond : List ControlAction :=
  [.turn 500000000 500000000, .call (some .suspend), .handle 0, .turn 600000000 600000000,
    .turn 1100000000 1100000000, .call (some .resume), .handle 0, .turn 1600000000 1600000000,
    .turn 2000000000 2000000000, .turn 2100000000 2100000000]

theorem ends_with_profile_suspended_second :
    let start := new (BoxedGenerator.line ⟨0, 100, 0, 1000000000⟩) [7] 0
    let events := history start suspendedSecond
    ∃ s, Run.run step start suspendedSecond = some s ∧ s.live = false ∧ s.loop.isRunning = false ∧
      suspendedTotal none events = 1000000000 ∧ openInterval none events = none ∧
      0 + 1000000000 + suspendedTotal none events ≤ s.clock ∧
      s.clock ≤ 0 + 1000000000 + suspendedTotal none events + (1 + 1) * (500000000 + 0) := by
  intro start events
  have hover : (Run.run step start suspendedSecond).map (fun s => s.live) = some false := by decide +kernel
  obtain ⟨s, hrun, hlive⟩ := Option.map_eq_some_iff.mp hover
  obtain ⟨hlate, hcleared, hends⟩ := @ends_with_profile (fun _ => none) (Config.const ⟨100, 1⟩) 0 _ rfl [7]
    (by decide) 0 500000000 0 suspendedSecond s (by decide +kernel) hrun
  obtain ⟨hopen, hearly⟩ := (hends (by decide +kernel)).2 hlive
  refine ⟨s, hrun, hlive, hcleared hlive, by decide +kernel, hopen, hearly, ?_⟩
  rw [hopen] at hlate
  exact hlate

end ControlSystem

end Dwd
