import Dwd.Suspendable

/-! Suspension is transparent to the profile. The wrapped generator lives on a virtual clock that
stands still inside a suspended interval: at a time `now` outside of them it shows `now` less the
total length of the closed intervals. A history of control events and polls asks the wrapped
generator for its value at readings of this clock only, and they never go back. -/

namespace Dwd

open GeneratorEvent

/-- One call on the generator: a control event, or `current_at`. -/
inductive Call where
  | control (ev : GeneratorEvent)
  | poll
  deriving DecidableEq, Repr

/-- The control events of a history of calls. -/
def controls : List (ℕ × Call) → List (ℕ × GeneratorEvent)
  | [] => []
  | (t, .control ev) :: history => (t, ev) :: controls history
  | (_, .poll) :: history => controls history

theorem controls_times (history : List (ℕ × Call)) :
    ((controls history).map Prod.fst).Sublist (history.map Prod.fst) := by
  induction history with
  | nil => exact List.Sublist.refl _
  | cons c history ih =>
      obtain ⟨t, call⟩ := c
      cases call with
      | control ev => exact ih.cons_cons t
      | poll => exact ih.cons t

namespace SuspendableGenerator

variable {G : Type} [Generator G]

/-- The calls of a history in order. The values returned by the polls outside suspended intervals
are collected. -/
def run : List (ℕ × Call) → SuspendableGenerator G → Option (List (Option ℕ) × SuspendableGenerator G)
  | [], s => some ([], s)
  | (t, .control ev) :: history, s => run history (s.handle t ev)
  | (t, .poll) :: history, s => do
      let r ← s.currentAt t
      let rest ← run history r.2
      return (if s.suspendedAt.isSome then rest.1 else r.1 :: rest.1, rest.2)

/-- A generator that is only polled, at the given times. -/
def pollAll : List ℕ → G → List (Option ℕ) × G
  | [], g => ([], g)
  | t :: ts, g =>
      let r := Generator.currentAt t g
      let rest := pollAll ts r.2
      (r.1 :: rest.1, rest.2)

end SuspendableGenerator

/-- The virtual times of the polls outside suspended intervals, `earlier` being the control events
before the history. -/
def virtualTimes (earlier : List (ℕ × GeneratorEvent)) : List (ℕ × Call) → List ℕ
  | [] => []
  | (t, .control ev) :: history => virtualTimes (earlier ++ [(t, ev)]) history
  | (t, .poll) :: history =>
      if (openInterval none earlier).isSome then virtualTimes earlier history
      else (t - suspendedTotal none earlier) :: virtualTimes earlier history

namespace GeneratorEvent

theorem openInterval_append (opened : Option ℕ) (first second : List (ℕ × GeneratorEvent)) :
    openInterval opened (first ++ second) = openInterval (openInterval opened first) second := by
  induction first generalizing opened with
  | nil => cases opened <;> rfl
  | cons e first ih => cases opened <;> exact ih _

theorem suspendedTotal_append (opened : Option ℕ) (first second : List (ℕ × GeneratorEvent)) :
    suspendedTotal opened (first ++ second) =
      suspendedTotal opened first + suspendedTotal (openInterval opened first) second := by
  induction first generalizing opened with
  | nil => cases opened <;> simp [suspendedTotal_nil, openInterval]
  | cons e first ih =>
      obtain ⟨t, ev⟩ := e
      cases opened with
      | none =>
          rw [List.cons_append, suspendedTotal_none_cons, suspendedTotal_none_cons, ih]
          rfl
      | some a =>
          rw [List.cons_append, suspendedTotal_some_cons, suspendedTotal_some_cons, ih, ih, openInterval]
          split_ifs
          · rfl
          · rw [Nat.add_assoc]

theorem mem_of_openInterval {opened : Option ℕ} {history : List (ℕ × GeneratorEvent)} {a : ℕ}
    (h : openInterval opened history = some a) : opened = some a ∨ a ∈ history.map Prod.fst := by
  induction history generalizing opened with
  | nil => cases opened <;> exact .inl h
  | cons e history ih =>
      obtain ⟨t, ev⟩ := e
      rw [List.map_cons, List.mem_cons]
      cases opened with
      | none =>
          rcases ih h with h | h
          · split_ifs at h
            exact .inr (.inl (Option.some.inj h).symm)
          · exact .inr (.inr h)
      | some b =>
          rcases ih h with h | h
          · split_ifs at h
            exact .inl h
          · exact .inr (.inr h)

/-- The reading of the virtual clock at `now`. -/
def virtualNow (earlier : List (ℕ × GeneratorEvent)) (now : ℕ) : ℕ :=
  (openInterval none earlier).getD now - suspendedTotal none earlier

theorem virtualNow_mono (earlier : List (ℕ × GeneratorEvent)) {t now : ℕ} (h : t ≤ now) :
    virtualNow earlier t ≤ virtualNow earlier now := by
  apply Nat.sub_le_sub_right
  cases openInterval none earlier with
  | none => exact h
  | some a => exact le_rfl

/-- A control event does not move the virtual clock. -/
theorem virtualNow_concat {earlier : List (ℕ × GeneratorEvent)} {t : ℕ} (ev : GeneratorEvent)
    (hearlier : ∀ e ∈ earlier, e.1 ≤ t) : virtualNow (earlier ++ [(t, ev)]) t = virtualNow earlier t := by
  rw [virtualNow, virtualNow, openInterval_append, suspendedTotal_append]
  cases hopen : openInterval none earlier with
  | none =>
      rw [suspendedTotal_none_cons, suspendedTotal_nil]
      cases hev : ev.pauses <;> simp [openInterval, hev]
  | some a =>
      have hat : a ≤ t := by
        rcases mem_of_openInterval hopen with h | h
        · cases h
        · obtain ⟨e, he, rfl⟩ := List.mem_map.mp h
          exact hearlier e he
      rw [suspendedTotal_some_cons, suspendedTotal_nil, suspendedTotal_nil]
      cases hev : ev.pauses with
      | true => simp [openInterval, hev]
      | false =>
          simp only [openInterval, hev, Bool.false_eq_true, if_false, Option.getD, Nat.add_zero]
          omega

end GeneratorEvent

/-- The virtual times do not go back, from the reading of the virtual clock on. -/
theorem virtualTimes_chronological {earlier : List (ℕ × GeneratorEvent)} {p : ℕ}
    {history : List (ℕ × Call)} (hearlier : ∀ e ∈ earlier, e.1 ≤ p)
    (htimes : Chronological (p :: history.map Prod.fst)) :
    Chronological (virtualNow earlier p :: virtualTimes earlier history) := by
  induction history generalizing earlier p with
  | nil => simp [virtualTimes]
  | cons c history ih =>
      obtain ⟨t, call⟩ := c
      obtain ⟨hle, htail⟩ := List.pairwise_cons.mp htimes
      have hpt : p ≤ t := hle t (by simp)
      have hearlier' : ∀ e ∈ earlier, e.1 ≤ t := fun e he => (hearlier e he).trans hpt
      have hclock := virtualNow_mono earlier hpt
      cases call with
      | control ev =>
          have hall : ∀ e ∈ earlier ++ [(t, ev)], e.1 ≤ t :=
            List.forall_mem_append.mpr ⟨hearlier', List.forall_mem_singleton.mpr le_rfl⟩
          obtain ⟨hfirst, hrest⟩ := List.pairwise_cons.mp (ih hall htail)
          rw [virtualNow_concat ev hearlier'] at hfirst
          exact List.pairwise_cons.mpr ⟨fun x hx => hclock.trans (hfirst x hx), hrest⟩
      | poll =>
          have hrest := ih hearlier' htail
          rw [virtualTimes]
          cases hopen : openInterval none earlier with
          | some a =>
              obtain ⟨hfirst, hrest⟩ := List.pairwise_cons.mp hrest
              exact List.pairwise_cons.mpr ⟨fun x hx => hclock.trans (hfirst x hx), hrest⟩
          | none =>
              have hnow : t - suspendedTotal none earlier = virtualNow earlier t := by
                rw [virtualNow, hopen]
                rfl
              simp only [Option.isSome_none, Bool.false_eq_true, if_false, hnow]
              refine List.pairwise_cons.mpr ⟨fun x hx => ?_, hrest⟩
              rcases List.mem_cons.mp hx with rfl | hx
              · exact hclock
              · exact hclock.trans ((List.pairwise_cons.mp hrest).1 x hx)

namespace SuspendableGenerator

variable {G : Type} [Generator G]

/-- The interval and the suspended duration of the generator are those of the control events. -/
def Tracks (s : SuspendableGenerator G) (earlier : List (ℕ × GeneratorEvent)) : Prop :=
  s.suspendedAt = openInterval none earlier ∧ s.suspendedDuration = suspendedTotal none earlier

omit [Generator G] in
theorem Tracks.handle {s : SuspendableGenerator G} {earlier : List (ℕ × GeneratorEvent)}
    (h : s.Tracks earlier) (t : ℕ) (ev : GeneratorEvent) :
    (s.handle t ev).Tracks (earlier ++ [(t, ev)]) := by
  obtain ⟨hat, hdur⟩ := h
  obtain ⟨-, hat', hdur'⟩ := handle_eq s t ev
  unfold Tracks
  rw [hat', hdur', hat, hdur, openInterval_append, suspendedTotal_append]
  exact ⟨rfl, rfl⟩

/-- The closed intervals of control events between `t0` and `now` leave room for `t0`. -/
theorem add_suspendedTotal_le {t0 now : ℕ} {earlier : List (ℕ × GeneratorEvent)}
    (htimes : Chronological (t0 :: earlier.map Prod.fst)) (hnow : ∀ e ∈ earlier, e.1 ≤ now)
    (hle : t0 ≤ now) : t0 + suspendedTotal none earlier ≤ now := by
  have h := suspendedTotal_le t0 now none htimes (by simp) hle hnow
  simp only [Option.getD] at h
  omega

theorem run_poll_suspended {s : SuspendableGenerator G} {t a : ℕ} {history : List (ℕ × Call)}
    (hs : s.suspendedAt = some a) : run ((t, .poll) :: history) s = run history s := by
  rw [run, currentAt_suspended hs, hs]
  change (run history s).bind (fun rest => some rest) = run history s
  cases run history s with
  | none => rfl
  | some rest => rfl

theorem run_poll_running {s : SuspendableGenerator G} {t : ℕ} {history : List (ℕ × Call)}
    (hs : s.suspendedAt = none) (ht : s.suspendedDuration ≤ t) :
    run ((t, .poll) :: history) s =
      (run history { s with g := (Generator.currentAt (t - s.suspendedDuration) s.g).2 }).map
        fun rest => ((Generator.currentAt (t - s.suspendedDuration) s.g).1 :: rest.1, rest.2) := by
  rw [run, currentAt_running hs ht, hs]
  exact Option.map_eq_bind.symm

/-- The run of a history from any state that tracks the control events before it: it does not
panic, and the wrapped generator is polled at the virtual times and nothing else. -/
theorem run_eq {t0 p : ℕ} {earlier : List (ℕ × GeneratorEvent)} {history : List (ℕ × Call)}
    {s : SuspendableGenerator G} (hs : s.Tracks earlier)
    (hearlier : Chronological (t0 :: earlier.map Prod.fst)) (hp : ∀ e ∈ earlier, e.1 ≤ p)
    (hle : t0 ≤ p) (htimes : Chronological (p :: history.map Prod.fst)) :
    ∃ final, run history s = some ((pollAll (virtualTimes earlier history) s.g).1, final) ∧
      final.g = (pollAll (virtualTimes earlier history) s.g).2 ∧
      final.Tracks (earlier ++ controls history) := by
  induction history generalizing earlier p s with
  | nil => exact ⟨s, rfl, rfl, by rwa [controls, List.append_nil]⟩
  | cons c history ih =>
      obtain ⟨t, call⟩ := c
      obtain ⟨hfirst, htail⟩ := List.pairwise_cons.mp htimes
      have hpt : p ≤ t := hfirst t (by simp)
      have hp' : ∀ e ∈ earlier, e.1 ≤ t := fun e he => (hp e he).trans hpt
      cases call with
      | control ev =>
          have hall : ∀ e ∈ earlier ++ [(t, ev)], e.1 ≤ t :=
            List.forall_mem_append.mpr ⟨hp', List.forall_mem_singleton.mpr le_rfl⟩
          have hchron : Chronological (t0 :: (earlier ++ [(t, ev)]).map Prod.fst) := by
            rw [List.map_append, ← List.cons_append, Chronological, List.pairwise_append]
            refine ⟨hearlier, List.pairwise_singleton _ _, fun x hx y hy => ?_⟩
            rw [List.mem_singleton.mp hy]
            rcases List.mem_cons.mp hx with rfl | hx
            · exact hle.trans hpt
            · obtain ⟨e, he, rfl⟩ := List.mem_map.mp hx
              exact hp' e he
          obtain ⟨final, hrun, hfinal, htracks⟩ := ih (hs.handle t ev) hchron hall (hle.trans hpt) htail
          rw [(handle_eq s t ev).1] at hrun hfinal
          refine ⟨final, hrun, hfinal, ?_⟩
          rwa [List.append_assoc] at htracks
      | poll =>
          cases hopen : openInterval none earlier with
          | some a =>
              obtain ⟨final, hrun, hfinal, htracks⟩ := ih hs hearlier hp' (hle.trans hpt) htail
              rw [run_poll_suspended (hs.1.trans hopen), virtualTimes, hopen]
              exact ⟨final, hrun, hfinal, htracks⟩
          | none =>
              have hroom := add_suspendedTotal_le hearlier hp' (hle.trans hpt)
              have hdur := hs.2
              obtain ⟨final, hrun, hfinal, htracks⟩ := ih
                (s := { s with g := (Generator.currentAt (t - s.suspendedDuration) s.g).2 })
                hs hearlier hp' (hle.trans hpt) htail
              rw [run_poll_running (hs.1.trans hopen) (by omega), virtualTimes, hopen, hrun, ← hdur]
              exact ⟨final, rfl, hfinal, htracks⟩

omit [Generator G] in
theorem new_tracks (g : G) : (new g).Tracks [] := ⟨rfl, by rw [suspendedTotal_nil]; rfl⟩

/-- **Suspension is transparent.** Over any history of control events and polls after the
activation at `t0`, the values returned outside suspended intervals are those of the same generator
never suspended and polled at the virtual times; these start at `t0` and do not go back; and each
such poll asks the wrapped generator for its value at `now` less the closed intervals before it. -/
theorem run_transparent (g : G) (t0 : ℕ) (history : List (ℕ × Call))
    (htimes : Chronological (t0 :: history.map Prod.fst)) :
    (∃ final, run history ((new g).activateAt t0) =
        some ((pollAll (virtualTimes [] history) (Generator.activateAt t0 g)).1, final) ∧
      final.g = (pollAll (virtualTimes [] history) (Generator.activateAt t0 g)).2) ∧
    Chronological (t0 :: virtualTimes [] history) ∧
    ∀ before now after, history = before ++ (now, .poll) :: after →
      ∃ outputs s, run before ((new g).activateAt t0) = some (outputs, s) ∧
        (s.suspendedAt = none ↔ openInterval none (controls before) = none) ∧
        (s.suspendedAt = none → t0 + suspendedTotal none (controls before) ≤ now ∧
          s.currentAt now =
            some ((Generator.currentAt (now - suspendedTotal none (controls before)) s.g).1,
              { s with g := (Generator.currentAt (now - suspendedTotal none (controls before)) s.g).2 })) := by
  have hstart : ((new g).activateAt t0).Tracks [] := new_tracks (Generator.activateAt t0 g)
  refine ⟨?_, ?_, ?_⟩
  · obtain ⟨final, hrun, hfinal, -⟩ := run_eq hstart (List.pairwise_singleton _ t0) (by simp) le_rfl htimes
    exact ⟨final, hrun, hfinal⟩
  · have hclock : virtualNow [] t0 = t0 := by
      rw [virtualNow, suspendedTotal_nil]
      rfl
    have h := @virtualTimes_chronological [] t0 history (by simp) htimes
    rwa [hclock] at h
  · rintro before now after rfl
    rw [List.map_append, ← List.cons_append, Chronological, List.pairwise_append] at htimes
    obtain ⟨hbefore, -, hcross⟩ := htimes
    obtain ⟨final, hrun, -, hat, hdur⟩ := run_eq hstart (List.pairwise_singleton _ t0) (by simp) le_rfl hbefore
    rw [List.nil_append] at hat hdur
    refine ⟨_, final, hrun, by rw [hat], fun hs => ?_⟩
    have hroom : t0 + suspendedTotal none (controls before) ≤ now := by
      have hsub := controls_times before
      refine add_suspendedTotal_le (hbefore.sublist (hsub.cons_cons t0)) (fun e he => ?_)
        (hcross t0 (by simp) now (by simp))
      have hmem := hsub.subset (List.mem_map_of_mem he)
      exact hcross e.1 (List.mem_cons_of_mem _ hmem) now (by simp)
    refine ⟨hroom, ?_⟩
    rw [← hdur]
    exact currentAt_running hs (by omega)

/-- A plateau that is suspended from 3 to 6, with a manual value in between. -/
theorem run_transparent_plateau :
    virtualTimes [] [(2, .poll), (3, .control .suspend), (5, .control (.set 9)), (6, .control .resume),
      (7, .poll)] = [2, 4] ∧
    ∃ final, run [(2, .poll), (3, .control .suspend), (5, .control (.set 9)), (6, .control .resume),
        (7, .poll)] ((new (BoxedGenerator.line ⟨0, 100, 0, 9⟩)).activateAt 1) =
      some ((pollAll [2, 4] (Generator.activateAt 1 (BoxedGenerator.line ⟨0, 100, 0, 9⟩))).1, final) ∧
      final.g = (pollAll [2, 4] (Generator.activateAt 1 (BoxedGenerator.line ⟨0, 100, 0, 9⟩))).2 :=
  ⟨rfl, (run_transparent (BoxedGenerator.line ⟨0, 100, 0, 9⟩) 1
    [(2, .poll), (3, .control .suspend), (5, .control (.set 9)), (6, .control .resume), (7, .poll)]
    (by decide)).1⟩

end SuspendableGenerator

end Dwd
