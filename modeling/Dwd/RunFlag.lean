import Dwd.LibRun
import Dwd.RateControl
import Mathlib.Logic.Function.Basic

/-! The life of `run_generator`, beside the threads that poll the run flag. It creates its generator, goes
through the turns of the loop, and clears the flag when the loop ends. A factory that fails makes it return
before that: the flag is then left as the other threads see it, and only a stop from outside clears it. -/

namespace Dwd

/-- The threads that go on until they read a cleared flag: those of the engine, the sampler of the summary,
and the streams of statistics. -/
inductive Poller where
  | worker (i : ℕ)
  | sampler
  | stats (i : ℕ)
  deriving DecidableEq, Repr

/-- What `run_generator` shares with the other threads, and which of these still go on. -/
structure Cells where
  limits : List ℕ
  generator : ℕ
  controlRx : Option GeneratorEvent
  isRunning : Bool
  polling : Poller → Bool

namespace Cells

/-- `Sender::try_send`, on an open channel. -/
def trySend (ev : GeneratorEvent) (cells : Cells) : Cells :=
  if cells.controlRx = none then { cells with controlRx := some ev } else cells

/-- A thread reads the flag, and ends when it is cleared. -/
def poll (poller : Poller) (cells : Cells) : Cells :=
  if cells.isRunning then cells else { cells with polling := Function.update cells.polling poller false }

/-- The flag is cleared, and a thread that reads it ends. -/
structure Cleared (cells : Cells) : Prop where
  isRunning : cells.isRunning = false
  ends : ∀ poller, (cells.poll poller).polling poller = false

theorem cleared_iff (cells : Cells) : cells.Cleared ↔ cells.isRunning = false := by
  refine ⟨fun h => h.isRunning, fun h => ⟨h, fun poller => ?_⟩⟩
  rw [poll, h, if_neg Bool.false_ne_true]
  exact Function.update_self _ _ _

end Cells

/-- Where `run_generator` is. -/
inductive Phase (G E : Type) where
  | starting
  | looping (g : SuspendableGenerator G)
  | returned (result : Except E Unit)
  | panicked

structure RunGenerator (G E : Type) where
  phase : Phase G E
  cells : Cells

/-- A control event is sent, something outside clears the flag, a thread reads it; `run_generator` creates
and activates its generator, or takes a turn of its loop. -/
inductive RunAction where
  | control (ev : GeneratorEvent)
  | stop
  | poll (poller : Poller)
  | create (createNow activateNow : ℕ)
  | turn (pollNow eventNow : ℕ)

namespace RunGenerator

variable {G E : Type}

def start (cells : Cells) : RunGenerator G E := { phase := .starting, cells := cells }

/-- The receiver of the channel is dropped at the end. -/
def Listens (s : RunGenerator G E) : Prop :=
  match s.phase with
  | .returned _ => False
  | .panicked => False
  | _ => True

instance (s : RunGenerator G E) : Decidable s.Listens :=
  match h : s.phase with
  | .starting => isTrue (by simp [Listens, h])
  | .looping g => isTrue (by simp [Listens, h])
  | .returned result => isFalse (by simp [Listens, h])
  | .panicked => isFalse (by simp [Listens, h])

/-- The state of the loop. -/
def loop (g : SuspendableGenerator G) (cells : Cells) : RateControl G :=
  { g := g
    limits := cells.limits
    generator := cells.generator
    controlRx := cells.controlRx
    isRunning := cells.isRunning }

def store (cells : Cells) (loop : RateControl G) : Cells :=
  { cells with
    limits := loop.limits
    generator := loop.generator
    controlRx := loop.controlRx
    isRunning := loop.isRunning }

/-- Once `run_generator` has returned, whatever it has returned, the flag is cleared. -/
def Cleared (s : RunGenerator G E) : Prop := ∀ result, s.phase = .returned result → s.cells.Cleared

theorem Cleared.congr {s s' : RunGenerator G E} (h : s.Cleared) (hphase : s'.phase = s.phase)
    (hflag : s'.cells.isRunning = s.cells.isRunning) : s'.Cleared := by
  intro result hreturned
  rw [Cells.cleared_iff, hflag, ← Cells.cleared_iff]
  exact h result (hphase ▸ hreturned)

theorem cleared_start (cells : Cells) : (start cells : RunGenerator G E).Cleared := by
  intro result h
  cases h

variable [Generator G] (factory : ℕ → Option (Except E G))

/-- The call of the factory, which may panic. An error is returned at once. -/
def create (createNow activateNow : ℕ) (cells : Cells) : RunGenerator G E :=
  match factory createNow with
  | none => { phase := .panicked, cells := cells }
  | some (.error e) => { phase := .returned (.error e), cells := cells }
  | some (.ok g) => { phase := .looping ((SuspendableGenerator.new g).activateAt activateNow), cells := cells }

/-- A turn of the loop, which clears the flag when it ends. -/
def turn (pollNow eventNow : ℕ) (g : SuspendableGenerator G) (cells : Cells) : RunGenerator G E :=
  match (loop g cells).turn pollNow eventNow with
  | .again s => { phase := .looping s.g, cells := store cells s }
  | .finished s => { phase := .returned (.ok ()), cells := store cells s }
  | .panicked => { phase := .panicked, cells := cells }

def step (s : RunGenerator G E) : RunAction → Option (RunGenerator G E)
  | .control ev => some (if s.Listens then { s with cells := s.cells.trySend ev } else s)
  | .stop => some { s with cells := { s.cells with isRunning := false } }
  | .poll poller => some { s with cells := s.cells.poll poller }
  | .create createNow activateNow =>
      match s.phase with
      | .starting => some (create factory createNow activateNow s.cells)
      | _ => none
  | .turn pollNow eventNow =>
      match s.phase with
      | .looping g => some (turn pollNow eventNow g s.cells)
      | _ => none

/-- The factory does not fail, unless the flag is already cleared. -/
def CreatesOrStopped (factory : ℕ → Option (Except E G)) (s : RunGenerator G E) : RunAction → Prop
  | .create createNow _ =>
      s.phase = .starting → ∀ e, factory createNow = some (.error e) → s.cells.isRunning = false
  | _ => True

variable {factory}

theorem isRunning_trySend (ev : GeneratorEvent) (cells : Cells) :
    (cells.trySend ev).isRunning = cells.isRunning := by
  unfold Cells.trySend
  split_ifs
  · rfl
  · rfl

theorem isRunning_poll (poller : Poller) (cells : Cells) : (cells.poll poller).isRunning = cells.isRunning := by
  unfold Cells.poll
  split_ifs
  · rfl
  · rfl

/-- A loop that ends has cleared the flag. -/
theorem isRunning_of_finished {s s' : RateControl G} {pollNow eventNow : ℕ}
    (h : s.turn pollNow eventNow = .finished s') : s'.isRunning = false := by
  unfold RateControl.turn at h
  split at h
  · cases h
  · cases h
    rfl
  · split_ifs at h
    · cases h
      rfl

theorem cleared_turn (pollNow eventNow : ℕ) (g : SuspendableGenerator G) (cells : Cells) :
    (turn pollNow eventNow g cells : RunGenerator G E).Cleared := by
  intro result hreturned
  unfold turn at hreturned ⊢
  cases hturn : (loop g cells).turn pollNow eventNow with
  | again s =>
      rw [hturn] at hreturned
      cases hreturned
  | finished s => exact (Cells.cleared_iff _).mpr (isRunning_of_finished hturn)
  | panicked =>
      rw [hturn] at hreturned
      cases hreturned

theorem cleared_create_iff (createNow activateNow : ℕ) (cells : Cells) :
    (create factory createNow activateNow cells).Cleared ↔
      ∀ e, factory createNow = some (.error e) → cells.isRunning = false := by
  unfold create Cleared
  rcases hfactory : factory createNow with _ | e | g
  · exact iff_of_true (fun _ h => nomatch h) (fun _ h => nomatch h)
  · rw [← Cells.cleared_iff]
    exact ⟨fun h _ _ => h _ rfl, fun h _ _ => h e rfl⟩
  · exact iff_of_true (fun _ h => nomatch h) (fun _ h => nomatch h)

/-- Each step keeps the promise, but that of a factory which fails while the flag is set. -/
theorem cleared_step_iff {s s' : RunGenerator G E} {a : RunAction} (h : s.Cleared)
    (hstep : s.step factory a = some s') : s'.Cleared ↔ s.CreatesOrStopped factory a := by
  cases a with
  | control ev =>
      obtain rfl := Option.some.inj hstep
      refine iff_of_true ?_ trivial
      split_ifs
      · exact h.congr rfl (isRunning_trySend ev s.cells)
      · exact h
  | stop =>
      obtain rfl := Option.some.inj hstep
      exact iff_of_true (fun _ _ => (Cells.cleared_iff _).mpr rfl) trivial
  | poll poller =>
      obtain rfl := Option.some.inj hstep
      exact iff_of_true (h.congr rfl (isRunning_poll poller s.cells)) trivial
  | create createNow activateNow =>
      cases hphase : s.phase with
      | starting =>
          simp only [step, hphase, Option.some.injEq] at hstep
          rw [← hstep, cleared_create_iff, CreatesOrStopped, forall_prop_of_true hphase]
      | looping g => simp [step, hphase] at hstep
      | returned result => simp [step, hphase] at hstep
      | panicked => simp [step, hphase] at hstep
  | turn pollNow eventNow =>
      cases hphase : s.phase with
      | looping g =>
          simp only [step, hphase, Option.some.injEq] at hstep
          rw [← hstep]
          exact iff_of_true (cleared_turn pollNow eventNow g s.cells) trivial
      | starting => simp [step, hphase] at hstep
      | returned result => simp [step, hphase] at hstep
      | panicked => simp [step, hphase] at hstep

theorem createsOrStopped_of_disabled {s : RunGenerator G E} {a : RunAction} (h : s.step factory a = none) :
    s.CreatesOrStopped factory a := by
  cases a with
  | create createNow activateNow =>
      intro hphase
      simp [step, hphase] at h
  | _ => trivial

/-- In all states of a run, the flag is cleared if `run_generator` has returned, exactly when the factory is
not called in vain while the flag is set. -/
theorem cleared_along_iff (factory : ℕ → Option (Except E G)) (cells : Cells) (actions : List RunAction) :
    (∀ k s, Run.run (step factory) (start cells) (actions.take k) = some s → s.Cleared) ↔
      Run.Guarded (step factory) (CreatesOrStopped factory) (start cells) actions :=
  Run.along_iff_guarded (fun _ _ _ => cleared_step_iff) (fun _ _ => createsOrStopped_of_disabled)
    (cleared_start cells) actions

/-- A sine that does not oscillate, for which there is no phase. -/
def flatSine : Config :=
  .sin { pps := (1000, 1000), ppsMin := 1000, ppsMax := 1000, approximatePeriod := 10, duration := 60 }

/-- One limit cell, an empty channel, the flag set, and every thread going on. -/
def oneCell : Cells :=
  { limits := [0], generator := 0, controlRx := none, isRunning := true, polling := fun _ => true }

/-- The sine without a phase makes `run_generator` return with the flag set, and the sampler goes on. -/
theorem flat_sine_keeps_running :
    ∃ s, Run.run (step fun now => some (Config.create (fun _ => none) now flatSine)) (start oneCell)
        [.create 0 0, .poll .sampler] = some s ∧
      s.phase = .returned (.error .noPhase) ∧ s.cells.isRunning = true ∧ s.cells.polling .sampler = true ∧
      ¬s.Cleared := by
  refine ⟨{ phase := .returned (.error .noPhase), cells := oneCell }, rfl, rfl, rfl, rfl, fun h => ?_⟩
  exact absurd (h _ rfl).isRunning (by decide)

end RunGenerator

end Dwd
