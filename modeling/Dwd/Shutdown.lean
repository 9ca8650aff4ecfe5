import Dwd.RunFlag

/-! A whole run of the program, from the thread of the summary to the joins at the end. The main thread starts
the sampler, the engine and the interface, goes through `run_generator`, and then joins what it has started; the
engine starts its workers and joins them in their order. The threads have one flag in common: a worker and the
sampler end when they read it cleared, the interface clears it when it returns.

What it takes to end is counted: once the flag is cleared and the interface is gone, every thread comes closer
to its end with each step, and some thread has a step until `run` returns. -/

namespace Dwd

/-- A thread: not started, going on, or at its end. -/
inductive ThreadState (E : Type) where
  | idle
  | running
  | ended (result : Except E Unit)
  | panicked

/-- The thread of the engine, in `ThreadPool::run`: it starts the workers, then it has joined the first `k`. -/
inductive PoolState (E : Type) where
  | idle
  | spawning
  | joining (k : ℕ)
  | ended (result : Except E Unit)
  | panicked

/-- Where `Runtime::run` is. -/
inductive MainState (E : Type) where
  | spawnSummary
  | spawnEngine
  | spawnUi
  | generating
  | joinUi
  | joinEngine
  | joinSummary
  | returned (result : Except E Unit)
  | panicked

/-- `Runtime::run` with the threads that it starts; `noUi` is the option of the command line, and `workers` are
those that the engine has started so far. -/
structure Runtime (G E : Type) where
  noUi : Bool
  main : MainState E
  generator : RunGenerator G E
  summary : ThreadState E
  engine : PoolState E
  workers : List (ThreadState E)
  ui : ThreadState E

/-- The main thread starts the next thread, which may fail, or `run_generator` does a step, or something outside
does one that it sees; the main thread goes on after `run_generator` or a thread that has ended; the engine
starts a worker, which may fail or panic, or joins one; a worker ends; the sampler reads the flag; the interface
returns, or panics. -/
inductive RuntimeAction (E : Type) where
  | spawn (failure : Option E)
  | generator (a : RunAction)
  | join
  | pool (failure : Option (Option E))
  | worker (i : ℕ) (outcome : ThreadState E)
  | summary
  | ui (outcome : ThreadState E)

namespace Runtime

variable {G E : Type}

def start (noUi : Bool) (cells : Cells) : Runtime G E :=
  { noUi := noUi
    main := .spawnSummary
    generator := .start cells
    summary := .idle
    engine := .idle
    workers := []
    ui := .idle }

def isRunning (s : Runtime G E) : Bool := s.generator.cells.isRunning

/-- `Recorder::spawn`, and the two calls of `Builder::spawn`: an error is returned at once. -/
def spawn (failure : Option E) (s : Runtime G E) : Option (Runtime G E) :=
  match s.main, failure with
  | .spawnSummary, none => some { s with main := .spawnEngine, summary := .running }
  | .spawnEngine, none =>
      some { s with main := if s.noUi then .generating else .spawnUi, engine := .spawning }
  | .spawnUi, none => some { s with main := .generating, ui := .running }
  | .spawnSummary, some e => some { s with main := .returned (.error e) }
  | .spawnEngine, some e => some { s with main := .returned (.error e) }
  | .spawnUi, some e => some { s with main := .returned (.error e) }
  | _, _ => none

/-- What the main thread does once `run_generator` has returned, or the thread that it joins has ended. -/
def join (s : Runtime G E) : Option (Runtime G E) :=
  match s.main with
  | .generating =>
      match s.generator.phase with
      | .returned (.ok _) => some { s with main := if s.noUi then .joinEngine else .joinUi }
      | .returned (.error e) => some { s with main := .returned (.error e) }
      | .panicked => some { s with main := .panicked }
      | _ => none
  | .joinUi =>
      match s.ui with
      | .ended (.ok _) => some { s with main := .joinEngine }
      | .ended (.error _) => some { s with main := .panicked }
      | .panicked => some { s with main := .panicked }
      | _ => none
  | .joinEngine =>
      match s.engine with
      | .ended (.ok _) => some { s with main := .joinSummary }
      | .ended (.error e) => some { s with main := .returned (.error e) }
      | .panicked => some { s with main := .panicked }
      | _ => none
  | .joinSummary =>
      match s.summary with
      | .ended _ => some { s with main := .returned (.ok ()) }
      | .panicked => some { s with main := .panicked }
      | _ => none
  | _ => none

/-- `ThreadPool::run`, with `threads` workers. An error of a worker is returned without joining the others. -/
def pool (threads : ℕ) (failure : Option (Option E)) (s : Runtime G E) : Option (Runtime G E) :=
  match s.engine, failure with
  | .spawning, some (some e) => some { s with engine := .ended (.error e) }
  | .spawning, some none => some { s with engine := .panicked }
  | .spawning, none =>
      if s.workers.length < threads then some { s with workers := s.workers ++ [.running] }
      else some { s with engine := .joining 0 }
  | .joining k, none =>
      match s.workers[k]? with
      | none => some { s with engine := .ended (.ok ()) }
      | some (.ended (.ok _)) => some { s with engine := .joining (k + 1) }
      | some (.ended (.error e)) => some { s with engine := .ended (.error e) }
      | some .panicked => some { s with engine := .panicked }
      | some _ => none
  | _, _ => none

/-- A worker may fail or panic at any time, but its loop ends in no other way than by a cleared flag. -/
def MayEnd (isRunning : Bool) : ThreadState E → Prop
  | .ended (.ok _) => isRunning = false
  | .ended (.error _) => True
  | .panicked => True
  | _ => False

instance (isRunning : Bool) : (outcome : ThreadState E) → Decidable (MayEnd isRunning outcome)
  | .idle => isFalse fun h => h
  | .running => isFalse fun h => h
  | .ended (.ok _) => inferInstanceAs (Decidable (isRunning = false))
  | .ended (.error _) => isTrue trivial
  | .panicked => isTrue trivial

def worker (i : ℕ) (outcome : ThreadState E) (s : Runtime G E) : Option (Runtime G E) :=
  match s.workers[i]? with
  | some .running =>
      if MayEnd s.isRunning outcome then some { s with workers := s.workers.set i outcome } else none
  | _ => none

/-- The closure of the thread of the interface: the flag is cleared when `ui::run` returns, whatever it returns. -/
def closeUi (outcome : ThreadState E) (s : Runtime G E) : Option (Runtime G E) :=
  match s.ui, outcome with
  | .running, .ended result =>
      some { s with
        ui := .ended result
        generator := { s.generator with cells := { s.generator.cells with isRunning := false } } }
  | .running, .panicked => some { s with ui := .panicked }
  | _, _ => none

variable [Generator G] (factory : ℕ → Option (Except E G)) (threads : ℕ)

/-- The threads of the model read the flag themselves. -/
def step (s : Runtime G E) : RuntimeAction E → Option (Runtime G E)
  | .spawn failure => s.spawn failure
  | .generator (.control ev) =>
      (s.generator.step factory (.control ev)).map fun generator => { s with generator := generator }
  | .generator .stop =>
      (s.generator.step factory .stop).map fun generator => { s with generator := generator }
  | .generator (.poll _) => none
  | .generator (.create createNow activateNow) =>
      match s.main with
      | .generating =>
          (s.generator.step factory (.create createNow activateNow)).map fun generator =>
            { s with generator := generator }
      | _ => none
  | .generator (.turn pollNow eventNow) =>
      match s.main with
      | .generating =>
          (s.generator.step factory (.turn pollNow eventNow)).map fun generator =>
            { s with generator := generator }
      | _ => none
  | .join => s.join
  | .pool failure => s.pool threads failure
  | .worker i outcome => s.worker i outcome
  | .summary =>
      match s.summary with
      | .running => if s.isRunning then none else some { s with summary := .ended (.ok ()) }
      | _ => none
  | .ui outcome => s.closeUi outcome

end Runtime

namespace RunGenerator

variable {G E : Type} [Generator G] {factory : ℕ → Option (Except E G)}

theorem create_of_step {s s' : RunGenerator G E} {createNow activateNow : ℕ}
    (h : s.step factory (.create createNow activateNow) = some s') :
    s.phase = .starting ∧ s' = create factory createNow activateNow s.cells := by
  simp only [step] at h
  split at h
  · rename_i hphase
    exact ⟨hphase, (Option.some.inj h).symm⟩
  · cases h

theorem turn_of_step {s s' : RunGenerator G E} {pollNow eventNow : ℕ}
    (h : s.step factory (.turn pollNow eventNow) = some s') :
    ∃ g, s.phase = .looping g ∧ s' = turn pollNow eventNow g s.cells := by
  simp only [step] at h
  split at h
  · rename_i g hphase
    exact ⟨g, hphase, (Option.some.inj h).symm⟩
  · cases h

/-- A turn with the flag cleared is the last one. -/
theorem turn_of_cleared (pollNow eventNow : ℕ) (g : SuspendableGenerator G) {cells : Cells}
    (hcells : cells.isRunning = false) :
    (turn pollNow eventNow g cells : RunGenerator G E).cells.isRunning = false ∧
      ((turn pollNow eventNow g cells : RunGenerator G E).phase = .panicked ∨
        ∃ result, (turn pollNow eventNow g cells : RunGenerator G E).phase = .returned result) := by
  unfold turn
  cases hturn : (loop g cells).turn pollNow eventNow with
  | again s =>
      obtain ⟨v, g', -, hrunning, -⟩ := RateControl.turn_again hturn
      exact absurd (hcells.symm.trans hrunning) Bool.false_ne_true
  | finished s => exact ⟨isRunning_of_finished hturn, .inr ⟨_, rfl⟩⟩
  | panicked => exact ⟨hcells, .inl rfl⟩

theorem create_cells (createNow activateNow : ℕ) (cells : Cells) :
    (create factory createNow activateNow cells).cells = cells := by
  unfold create
  split
  · rfl
  · rfl
  · rfl

theorem create_phase (createNow activateNow : ℕ) (cells : Cells) (result : Unit) :
    (create factory createNow activateNow cells).phase ≠ .returned (.ok result) := by
  unfold create
  split
  · exact fun h => nomatch h
  · exact fun h => nomatch h
  · exact fun h => nomatch h

theorem control_phase {s s' : RunGenerator G E} {ev : GeneratorEvent}
    (h : s.step factory (.control ev) = some s') : s'.phase = s.phase := by
  obtain rfl := Option.some.inj h
  split_ifs
  · rfl
  · rfl

/-- Nothing sets the flag again. -/
theorem isRunning_step {s s' : RunGenerator G E} {a : RunAction} (h : s.step factory a = some s')
    (hflag : s.cells.isRunning = false) : s'.cells.isRunning = false := by
  cases a with
  | control ev =>
      obtain rfl := Option.some.inj h
      split_ifs
      · exact (isRunning_trySend ev s.cells).trans hflag
      · exact hflag
  | stop =>
      obtain rfl := Option.some.inj h
      rfl
  | poll poller =>
      obtain rfl := Option.some.inj h
      exact (isRunning_poll poller s.cells).trans hflag
  | create createNow activateNow =>
      obtain ⟨-, rfl⟩ := create_of_step h
      rw [create_cells]
      exact hflag
  | turn pollNow eventNow =>
      obtain ⟨g, -, rfl⟩ := turn_of_step h
      exact (turn_of_cleared pollNow eventNow g hflag).1

/-- `Ok` is returned with the flag cleared. -/
def Stopped (s : RunGenerator G E) : Prop :=
  ∀ result, s.phase = .returned (.ok result) → s.cells.isRunning = false

theorem Stopped.step {s s' : RunGenerator G E} (hs : s.Stopped) {a : RunAction}
    (h : s.step factory a = some s') : s'.Stopped := by
  intro result hreturned
  cases a with
  | control ev => exact isRunning_step h (hs result (control_phase h ▸ hreturned))
  | stop =>
      obtain rfl := Option.some.inj h
      rfl
  | poll poller =>
      obtain rfl := Option.some.inj h
      exact (isRunning_poll poller s.cells).trans (hs result hreturned)
  | create createNow activateNow =>
      obtain ⟨-, rfl⟩ := create_of_step h
      exact absurd hreturned (create_phase createNow activateNow s.cells result)
  | turn pollNow eventNow =>
      obtain ⟨g, -, rfl⟩ := turn_of_step h
      exact (Cells.cleared_iff _).mp (cleared_turn pollNow eventNow g s.cells _ hreturned)

end RunGenerator

namespace Runtime

variable {G E : Type}

/-- How far the main thread has come. Nothing is promised once it has failed. -/
def stage : MainState E → ℕ
  | .spawnSummary => 0
  | .spawnEngine => 1
  | .spawnUi => 2
  | .generating => 3
  | .joinUi => 4
  | .joinEngine => 5
  | .joinSummary => 6
  | .returned (.ok _) => 7
  | .returned (.error _) => 0
  | .panicked => 0

/-- The engine has started no more than its workers, and when it joins them, all of them; those that it has
joined have returned `Ok`. -/
structure PoolSound (threads : ℕ) (engine : PoolState E) (workers : List (ThreadState E)) : Prop where
  size : workers.length ≤ threads
  started : ∀ w ∈ workers, w ≠ .idle
  joining : ∀ k, engine = .joining k → workers.length = threads ∧ k ≤ threads ∧
    ∀ w ∈ workers.take k, w = .ended (.ok ())
  ended : engine = .ended (.ok ()) → workers.length = threads ∧ ∀ w ∈ workers, w = .ended (.ok ())

/-- What the main thread has waited for when it has come to a stage. -/
structure Joined (k : ℕ) (s : Runtime G E) : Prop where
  generator : 4 ≤ k → ∃ result, s.generator.phase = .returned (.ok result)
  ui : 5 ≤ k → s.noUi = true ∨ s.ui = .ended (.ok ())
  engine : 6 ≤ k → s.engine = .ended (.ok ())
  summary : 7 ≤ k → ∃ result, s.summary = .ended result

theorem joined_of_le {k : ℕ} (hk : k ≤ 3) (s : Runtime G E) : s.Joined k where
  generator := fun h => absurd (h.trans hk) (by decide)
  ui := fun h => absurd (h.trans hk) (by decide)
  engine := fun h => absurd (h.trans hk) (by decide)
  summary := fun h => absurd (h.trans hk) (by decide)

/-- The main thread starts its threads before it joins them, and goes on after the joins that succeed. -/
structure Sound (threads : ℕ) (s : Runtime G E) : Prop where
  pool : PoolSound threads s.engine s.workers
  stopped : s.generator.Stopped
  headless : s.noUi = true → s.main ≠ .spawnUi ∧ s.main ≠ .joinUi
  uiStarted : s.ui ≠ .idle → s.main ≠ .spawnSummary ∧ s.main ≠ .spawnEngine ∧ s.main ≠ .spawnUi
  engineFresh : s.engine ≠ .idle → s.main ≠ .spawnSummary ∧ s.main ≠ .spawnEngine
  summaryStarted : 1 ≤ stage s.main → s.summary ≠ .idle
  engineStarted : 2 ≤ stage s.main → s.engine ≠ .idle
  joined : s.Joined (stage s.main)

theorem start_sound (threads : ℕ) (noUi : Bool) (cells : Cells) :
    (start noUi cells : Runtime G E).Sound threads where
  pool := ⟨Nat.zero_le threads, nofun, nofun, nofun⟩
  stopped := nofun
  headless := fun _ => ⟨nofun, nofun⟩
  uiStarted := fun h => absurd rfl h
  engineFresh := fun h => absurd rfl h
  summaryStarted := fun h => absurd h (by decide : ¬1 ≤ 0)
  engineStarted := fun h => absurd h (by decide : ¬2 ≤ 0)
  joined := joined_of_le (Nat.zero_le 3) _

/-- After a failure of the main thread there is nothing left to promise. -/
theorem Sound.failed {threads : ℕ} {s : Runtime G E} (h : s.Sound threads) {main : MainState E}
    (hmain : main = .panicked ∨ ∃ e, main = .returned (.error e)) :
    ({ s with main := main } : Runtime G E).Sound threads := by
  have hstage : stage main = 0 := by
    rcases hmain with rfl | ⟨e, rfl⟩
    · rfl
    · rfl
  have hfresh : (main ≠ .spawnSummary ∧ main ≠ .spawnEngine ∧ main ≠ .spawnUi) ∧ main ≠ .joinUi := by
    rcases hmain with rfl | ⟨e, rfl⟩
    · exact ⟨⟨nofun, nofun, nofun⟩, nofun⟩
    · exact ⟨⟨nofun, nofun, nofun⟩, nofun⟩
  exact
    { pool := h.pool
      stopped := h.stopped
      headless := fun _ => ⟨hfresh.1.2.2, hfresh.2⟩
      uiStarted := fun _ => hfresh.1
      engineFresh := fun _ => ⟨hfresh.1.1, hfresh.1.2.1⟩
      summaryStarted := fun hk => absurd (hstage ▸ hk) (by decide : ¬1 ≤ 0)
      engineStarted := fun hk => absurd (hstage ▸ hk) (by decide : ¬2 ≤ 0)
      joined := joined_of_le (hstage.le.trans (Nat.zero_le 3)) _ }

theorem Sound.spawn {threads : ℕ} {s s' : Runtime G E} (h : s.Sound threads) {failure : Option E}
    (hstep : s.spawn failure = some s') : s'.Sound threads := by
  -- an interface that has not been started yet
  have hidle : s.main = .spawnSummary ∨ s.main = .spawnEngine → s.ui = .idle := by
    intro hmain
    by_contra hne
    rcases hmain with hmain | hmain
    · exact (h.uiStarted hne).1 hmain
    · exact (h.uiStarted hne).2.1 hmain
  have hengine : s.main = .spawnSummary → s.engine = .idle := by
    intro hmain
    by_contra hne
    exact (h.engineFresh hne).1 hmain
  unfold Runtime.spawn at hstep
  split at hstep
  · rename_i hmain
    obtain rfl := Option.some.inj hstep
    exact { h with
      headless := fun _ => ⟨nofun, nofun⟩
      uiStarted := fun hne => absurd (hidle (.inl hmain)) hne
      engineFresh := fun hne => absurd (hengine hmain) hne
      summaryStarted := fun _ => nofun
      engineStarted := fun hk => absurd hk (by decide : ¬2 ≤ 1)
      joined := joined_of_le (by decide : 1 ≤ 3) _ }
  · rename_i hmain
    obtain rfl := Option.some.inj hstep
    have hstage : stage (if s.noUi then .generating else .spawnUi : MainState E) ≤ 3 := by
      split_ifs
      · exact le_rfl
      · exact Nat.le_succ 2
    exact
      { pool := ⟨h.pool.size, h.pool.started, nofun, nofun⟩
        stopped := h.stopped
        headless := by
          intro hnoUi
          have hnoUi : s.noUi = true := hnoUi
          exact ⟨by simp [hnoUi], by simp [hnoUi]⟩
        uiStarted := fun hne => absurd (hidle (.inr hmain)) hne
        engineFresh := by
          intro _
          show (if s.noUi then .generating else .spawnUi : MainState E) ≠ _ ∧
            (if s.noUi then .generating else .spawnUi : MainState E) ≠ _
          split_ifs
          · exact ⟨nofun, nofun⟩
          · exact ⟨nofun, nofun⟩
        summaryStarted := fun _ => h.summaryStarted (by rw [hmain]; exact le_rfl)
        engineStarted := fun _ => nofun
        joined := joined_of_le hstage _ }
  · rename_i hmain
    obtain rfl := Option.some.inj hstep
    exact { h with
      headless := fun _ => ⟨nofun, nofun⟩
      uiStarted := fun _ => ⟨nofun, nofun, nofun⟩
      engineFresh := fun _ => ⟨nofun, nofun⟩
      summaryStarted := fun _ => h.summaryStarted (by rw [hmain]; exact Nat.le_succ 1)
      engineStarted := fun _ => h.engineStarted (by rw [hmain]; exact le_rfl)
      joined := joined_of_le le_rfl _ }
  · obtain rfl := Option.some.inj hstep
    exact h.failed (.inr ⟨_, rfl⟩)
  · obtain rfl := Option.some.inj hstep
    exact h.failed (.inr ⟨_, rfl⟩)
  · obtain rfl := Option.some.inj hstep
    exact h.failed (.inr ⟨_, rfl⟩)
  · cases hstep

/-- The main thread goes on with its joins. -/
theorem Sound.advance {threads : ℕ} {s : Runtime G E} (h : s.Sound threads) {main : MainState E} {k : ℕ}
    (hmain : 3 ≤ stage s.main) (hui : s.noUi = true → main ≠ .joinUi) (hlate : stage main = k + 4)
    (hjoined : s.Joined (k + 4)) : ({ s with main := main } : Runtime G E).Sound threads := by
  have hspawn : main ≠ .spawnSummary ∧ main ≠ .spawnEngine ∧ main ≠ .spawnUi := by
    refine ⟨?_, ?_, ?_⟩
    · rintro rfl
      exact absurd hlate (by simp [stage])
    · rintro rfl
      exact absurd hlate (by simp [stage])
    · rintro rfl
      exact absurd hlate (by simp [stage])
  rw [← hlate] at hjoined
  exact
    { pool := h.pool
      stopped := h.stopped
      headless := fun hno => ⟨hspawn.2.2, hui hno⟩
      uiStarted := fun _ => hspawn
      engineFresh := fun _ => ⟨hspawn.1, hspawn.2.1⟩
      summaryStarted := fun _ => h.summaryStarted (by omega)
      engineStarted := fun _ => h.engineStarted (by omega)
      joined := ⟨hjoined.generator, hjoined.ui, hjoined.engine, hjoined.summary⟩ }

theorem Sound.join {threads : ℕ} {s s' : Runtime G E} (h : s.Sound threads) (hstep : s.join = some s') :
    s'.Sound threads := by
  have hjoined := h.joined
  unfold Runtime.join at hstep
  split at hstep
  · rename_i hmain
    have hstage : stage s.main = 3 := congrArg stage hmain
    split at hstep
    · rename_i result hphase
      obtain rfl := Option.some.inj hstep
      by_cases hno : s.noUi = true
      · rw [if_pos hno]
        refine h.advance (k := 1) (by omega) (fun _ => nofun) rfl ?_
        exact ⟨fun _ => ⟨result, hphase⟩, fun _ => .inl hno, by omega, by omega⟩
      · rw [if_neg hno]
        refine h.advance (k := 0) (by omega) (fun hno' => absurd hno' hno) rfl ?_
        exact ⟨fun _ => ⟨result, hphase⟩, by omega, by omega, by omega⟩
    · obtain rfl := Option.some.inj hstep
      exact h.failed (.inr ⟨_, rfl⟩)
    · obtain rfl := Option.some.inj hstep
      exact h.failed (.inl rfl)
    · cases hstep
  · rename_i hmain
    have hstage : stage s.main = 4 := congrArg stage hmain
    split at hstep
    · rename_i hui
      obtain rfl := Option.some.inj hstep
      refine h.advance (k := 1) (by omega) (fun _ => nofun) rfl ?_
      exact ⟨fun _ => hjoined.generator (by omega), fun _ => .inr hui, by omega, by omega⟩
    · obtain rfl := Option.some.inj hstep
      exact h.failed (.inl rfl)
    · obtain rfl := Option.some.inj hstep
      exact h.failed (.inl rfl)
    · cases hstep
  · rename_i hmain
    have hstage : stage s.main = 5 := congrArg stage hmain
    split at hstep
    · rename_i hengine
      obtain rfl := Option.some.inj hstep
      refine h.advance (k := 2) (by omega) (fun _ => nofun) rfl ?_
      exact ⟨fun _ => hjoined.generator (by omega), fun _ => hjoined.ui (by omega), fun _ => hengine, by omega⟩
    · obtain rfl := Option.some.inj hstep
      exact h.failed (.inr ⟨_, rfl⟩)
    · obtain rfl := Option.some.inj hstep
      exact h.failed (.inl rfl)
    · cases hstep
  · rename_i hmain
    have hstage : stage s.main = 6 := congrArg stage hmain
    split at hstep
    · rename_i result hsummary
      obtain rfl := Option.some.inj hstep
      refine h.advance (k := 3) (by omega) (fun _ => nofun) rfl ?_
      exact ⟨fun _ => hjoined.generator (by omega), fun _ => hjoined.ui (by omega),
        fun _ => hjoined.engine (by omega), fun _ => ⟨result, hsummary⟩⟩
    · obtain rfl := Option.some.inj hstep
      exact h.failed (.inl rfl)
    · cases hstep
  · cases hstep

/-- The engine goes on, which nobody has joined yet. -/
theorem Sound.engine {threads : ℕ} {s : Runtime G E} (h : s.Sound threads) {engine : PoolState E}
    {workers : List (ThreadState E)} (hrunning : s.engine = .spawning ∨ ∃ k, s.engine = .joining k)
    (hengine : engine ≠ .idle)
    (hpool : PoolSound threads engine workers) :
    ({ s with engine := engine, workers := workers } : Runtime G E).Sound threads := by
  have hold : s.engine ≠ .idle ∧ s.engine ≠ .ended (.ok ()) := by
    rcases hrunning with heq | ⟨k, heq⟩
    · exact ⟨by rw [heq]; nofun, by rw [heq]; nofun⟩
    · exact ⟨by rw [heq]; nofun, by rw [heq]; nofun⟩
  exact { h with
    pool := hpool
    engineFresh := fun _ => h.engineFresh hold.1
    engineStarted := fun _ => hengine
    joined := ⟨h.joined.generator, h.joined.ui, fun hk => absurd (h.joined.engine hk) hold.2, h.joined.summary⟩ }

theorem Sound.pool_step {threads : ℕ} {s s' : Runtime G E} (h : s.Sound threads)
    {failure : Option (Option E)} (hstep : s.pool threads failure = some s') : s'.Sound threads := by
  have hpool := h.pool
  unfold Runtime.pool at hstep
  split at hstep
  · rename_i hengine
    obtain rfl := Option.some.inj hstep
    exact h.engine (.inl hengine) nofun ⟨hpool.size, hpool.started, nofun, nofun⟩
  · rename_i hengine
    obtain rfl := Option.some.inj hstep
    exact h.engine (.inl hengine) nofun ⟨hpool.size, hpool.started, nofun, nofun⟩
  · rename_i hengine
    split_ifs at hstep with hmore
    · obtain rfl := Option.some.inj hstep
      refine h.engine (.inl hengine) (by rw [hengine]; nofun) ?_
      rw [hengine]
      refine ⟨?_, fun w hw => ?_, nofun, nofun⟩
      · rw [List.length_append, List.length_singleton]
        exact hmore
      · rcases List.mem_append.mp hw with hw | hw
        · exact hpool.started w hw
        · rw [List.mem_singleton.mp hw]
          nofun
    · obtain rfl := Option.some.inj hstep
      refine h.engine (.inl hengine) nofun ⟨hpool.size, hpool.started, ?_, nofun⟩
      intro k hk
      obtain rfl := PoolState.joining.inj hk
      exact ⟨by have := hpool.size; omega, Nat.zero_le _, by simp⟩
  · rename_i k hengine
    have hjoining : s.engine = .spawning ∨ ∃ k, s.engine = .joining k := .inr ⟨k, hengine⟩
    obtain ⟨hall, hk, htaken⟩ := hpool.joining k hengine
    split at hstep
    · rename_i hnone
      obtain rfl := Option.some.inj hstep
      refine h.engine hjoining nofun ⟨hpool.size, hpool.started, nofun, fun _ => ⟨hall, ?_⟩⟩
      rw [List.take_of_length_le (List.getElem?_eq_none_iff.mp hnone)] at htaken
      exact htaken
    · rename_i result hsome
      obtain rfl := Option.some.inj hstep
      refine h.engine hjoining nofun ⟨hpool.size, hpool.started, ?_, nofun⟩
      intro k' hk'
      obtain rfl := PoolState.joining.inj hk'
      obtain ⟨hlt, -⟩ := List.getElem?_eq_some_iff.mp hsome
      refine ⟨hall, by omega, fun w hw => ?_⟩
      rw [List.take_add_one, hsome] at hw
      rcases List.mem_append.mp hw with hw | hw
      · exact htaken w hw
      · exact List.mem_singleton.mp hw
    · obtain rfl := Option.some.inj hstep
      exact h.engine hjoining nofun ⟨hpool.size, hpool.started, nofun, nofun⟩
    · obtain rfl := Option.some.inj hstep
      exact h.engine hjoining nofun ⟨hpool.size, hpool.started, nofun, nofun⟩
    · cases hstep
  · cases hstep

/-- A worker ends, which nobody has joined yet. -/
theorem PoolSound.set {threads : ℕ} {engine : PoolState E} {workers : List (ThreadState E)}
    (h : PoolSound threads engine workers) {i : ℕ} (hi : workers[i]? = some .running)
    {outcome : ThreadState E} (houtcome : outcome ≠ .idle) :
    PoolSound threads engine (workers.set i outcome) where
  size := by
    rw [List.length_set]
    exact h.size
  started := by
    intro w hw
    rcases List.mem_or_eq_of_mem_set hw with hw | rfl
    · exact h.started w hw
    · exact houtcome
  joining := by
    intro k hk
    obtain ⟨hall, hle, htaken⟩ := h.joining k hk
    refine ⟨by rw [List.length_set]; exact hall, hle, ?_⟩
    have hik : k ≤ i := by
      by_contra hlt
      have hmem : (workers.take k)[i]? = some .running := by
        rw [List.getElem?_take_of_lt (Nat.lt_of_not_le hlt)]
        exact hi
      exact nomatch htaken _ (List.mem_of_getElem? hmem)
    rw [List.take_set_of_le hik]
    exact htaken
  ended := fun hended => nomatch (h.ended hended).2 _ (List.mem_of_getElem? hi)

theorem worker_eq_some {s s' : Runtime G E} {i : ℕ} {outcome : ThreadState E}
    (h : s.worker i outcome = some s') :
    s.workers[i]? = some .running ∧ MayEnd s.isRunning outcome ∧
      s' = { s with workers := s.workers.set i outcome } := by
  unfold worker at h
  split at h
  · rename_i hi
    split_ifs at h with hmay
    exact ⟨hi, hmay, (Option.some.inj h).symm⟩
  · cases h

theorem Sound.worker {threads : ℕ} {s s' : Runtime G E} (h : s.Sound threads) {i : ℕ}
    {outcome : ThreadState E} (hstep : s.worker i outcome = some s') : s'.Sound threads := by
  obtain ⟨hi, hmay, rfl⟩ := worker_eq_some hstep
  refine { h with pool := h.pool.set hi ?_, joined := ⟨h.joined.generator, h.joined.ui, h.joined.engine,
    h.joined.summary⟩ }
  rintro rfl
  exact hmay

theorem Sound.closeUi {threads : ℕ} {s s' : Runtime G E} (h : s.Sound threads) {outcome : ThreadState E}
    (hstep : s.closeUi outcome = some s') : s'.Sound threads := by
  unfold Runtime.closeUi at hstep
  split at hstep
  · rename_i result hui
    obtain rfl := Option.some.inj hstep
    refine { h with
      stopped := fun _ _ => rfl
      uiStarted := fun _ => h.uiStarted (by rw [hui]; nofun)
      joined := ⟨h.joined.generator, fun hk => .inl ?_, h.joined.engine, h.joined.summary⟩ }
    exact (h.joined.ui hk).resolve_right (by rw [hui]; nofun)
  · rename_i hui
    obtain rfl := Option.some.inj hstep
    refine { h with
      uiStarted := fun _ => h.uiStarted (by rw [hui]; nofun)
      joined := ⟨h.joined.generator, fun hk => .inl ?_, h.joined.engine, h.joined.summary⟩ }
    exact (h.joined.ui hk).resolve_right (by rw [hui]; nofun)
  · cases hstep

variable [Generator G] {factory : ℕ → Option (Except E G)} {threads : ℕ}

theorem summary_step {s s' : Runtime G E} (h : s.step factory threads .summary = some s') :
    s.summary = .running ∧ s.isRunning = false ∧ s' = { s with summary := .ended (.ok ()) } := by
  simp only [step] at h
  split at h
  · rename_i hrunning
    split_ifs at h with hflag
    exact ⟨hrunning, Bool.eq_false_iff.mpr hflag, (Option.some.inj h).symm⟩
  · cases h

/-- What is seen of `run_generator`: it is the main thread that creates the generator and takes the turns. -/
theorem generator_step {s s' : Runtime G E} {a : RunAction}
    (h : s.step factory threads (.generator a) = some s') :
    ∃ generator, s.generator.step factory a = some generator ∧ s' = { s with generator := generator } ∧
      (s.main = .generating ∨ generator.phase = s.generator.phase) := by
  cases a with
  | control ev =>
      simp only [step] at h
      obtain ⟨generator, hgenerator, rfl⟩ := Option.map_eq_some_iff.mp h
      exact ⟨generator, hgenerator, rfl, .inr (RunGenerator.control_phase hgenerator)⟩
  | stop =>
      simp only [step] at h
      obtain ⟨generator, hgenerator, rfl⟩ := Option.map_eq_some_iff.mp h
      refine ⟨generator, hgenerator, rfl, .inr ?_⟩
      obtain rfl := Option.some.inj hgenerator
      rfl
  | poll poller => cases h
  | create createNow activateNow =>
      simp only [step] at h
      split at h
      · rename_i hmain
        obtain ⟨generator, hgenerator, rfl⟩ := Option.map_eq_some_iff.mp h
        exact ⟨generator, hgenerator, rfl, .inl hmain⟩
      · cases h
  | turn pollNow eventNow =>
      simp only [step] at h
      split at h
      · rename_i hmain
        obtain ⟨generator, hgenerator, rfl⟩ := Option.map_eq_some_iff.mp h
        exact ⟨generator, hgenerator, rfl, .inl hmain⟩
      · cases h

/-- **Every step keeps the order of starts and joins.** -/
theorem Sound.step {s s' : Runtime G E} (h : s.Sound threads) {a : RuntimeAction E}
    (hstep : s.step factory threads a = some s') : s'.Sound threads := by
  cases a with
  | spawn failure => exact h.spawn hstep
  | generator a =>
      obtain ⟨generator, hgenerator, rfl, hmain⟩ := generator_step hstep
      refine { h with
        stopped := h.stopped.step hgenerator
        joined := ⟨fun hk => ?_, h.joined.ui, h.joined.engine, h.joined.summary⟩ }
      rcases hmain with hmain | hphase
      · have hstage : stage s.main = 3 := congrArg stage hmain
        exact absurd (hstage ▸ hk) (by decide : ¬4 ≤ 3)
      · obtain ⟨result, hreturned⟩ := h.joined.generator hk
        exact ⟨result, hphase.trans hreturned⟩
  | join => exact h.join hstep
  | pool failure => exact h.pool_step hstep
  | worker i outcome => exact h.worker hstep
  | summary =>
      obtain ⟨hrunning, -, rfl⟩ := summary_step hstep
      exact { h with
        summaryStarted := fun _ => nofun
        joined := ⟨h.joined.generator, h.joined.ui, h.joined.engine, fun _ => ⟨_, rfl⟩⟩ }
  | ui outcome => exact h.closeUi hstep

theorem run_sound {noUi : Bool} {cells : Cells} {actions : List (RuntimeAction E)} {s : Runtime G E}
    (hrun : Run.run (step factory threads) (start noUi cells) actions = some s) : s.Sound threads :=
  Run.invariant (fun _ _ _ h hstep => h.step hstep) (start_sound threads noUi cells) hrun

/-- **`Ok` means that everything is down.** However the threads take turns, when `Runtime::run` returns `Ok` the
flag is cleared, `run_generator` has returned, the engine has started and joined all of its workers, the sampler
has ended, and so has the interface, if there was one; and none of them with an error. -/
theorem returned_ok (factory : ℕ → Option (Except E G)) (threads : ℕ) (noUi : Bool) (cells : Cells)
    (actions : List (RuntimeAction E)) (s : Runtime G E)
    (hrun : Run.run (step factory threads) (start noUi cells) actions = some s)
    (hreturned : s.main = .returned (.ok ())) :
    s.isRunning = false ∧ s.generator.phase = .returned (.ok ()) ∧ s.engine = .ended (.ok ()) ∧
      (s.workers.length = threads ∧ ∀ w ∈ s.workers, w = .ended (.ok ())) ∧
      (∃ result, s.summary = .ended result) ∧ (s.noUi = true ∨ s.ui = .ended (.ok ())) := by
  have h := run_sound hrun
  have hstage : stage s.main = 7 := congrArg stage hreturned
  obtain ⟨result, hphase⟩ := h.joined.generator (by omega)
  have hengine := h.joined.engine (by omega)
  exact ⟨h.stopped result hphase, hphase, hengine, h.pool.ended hengine, h.joined.summary (by omega),
    h.joined.ui (by omega)⟩

/-- A load that grows for a hundred units of time. -/
def lineFactory : ℕ → Option (Except Unit LineGenerator) := fun _ => some (.ok ⟨0, 100, 0, 9⟩)

/-- The profile ends, the user presses a key, and both workers end. -/
theorem returned_ok_two_workers :
    ∃ s, Run.run (step lineFactory 2) (start false RunGenerator.oneCell)
        [.spawn none, .spawn none, .spawn none, .pool none, .generator (.create 0 0), .pool none, .pool none,
          .generator (.turn 200 200), .worker 1 (.ended (.ok ())), .summary, .join, .ui (.ended (.ok ())), .join,
          .worker 0 (.ended (.ok ())), .pool none, .pool none, .pool none, .join, .join] = some s ∧
      s.isRunning = false ∧ s.generator.phase = .returned (.ok ()) ∧ s.engine = .ended (.ok ()) ∧
      (s.workers.length = 2 ∧ ∀ w ∈ s.workers, w = .ended (.ok ())) ∧
      (∃ result, s.summary = .ended result) ∧ (s.noUi = true ∨ s.ui = .ended (.ok ())) := by
  refine ⟨_, rfl, ?_⟩
  exact returned_ok lineFactory 2 false RunGenerator.oneCell
    [.spawn none, .spawn none, .spawn none, .pool none, .generator (.create 0 0), .pool none, .pool none,
      .generator (.turn 200 200), .worker 1 (.ended (.ok ())), .summary, .join, .ui (.ended (.ok ())), .join,
      .worker 0 (.ended (.ok ())), .pool none, .pool none, .pool none, .join, .join] _ rfl rfl

/-! ### What is left to do -/

/-- The steps of the program itself: the others are those of its user, its clients and its signals. -/
def Own : RuntimeAction E → Prop
  | .generator (.control _) => False
  | .generator .stop => False
  | .generator (.poll _) => False
  | .ui _ => False
  | _ => True

/-- Those of its steps in which nothing fails: in particular a worker returns `Ok`, as its loop does when it reads
the flag cleared. -/
def Succeeds : RuntimeAction E → Prop
  | .spawn failure => failure = none
  | .pool failure => failure = none
  | .worker _ outcome => outcome = .ended (.ok ())
  | a => Own a

omit [Generator G] in
theorem Succeeds.own {a : RuntimeAction E} (h : Succeeds a) : Own a := by
  cases a with
  | spawn failure => trivial
  | generator a => exact h
  | join => trivial
  | pool failure => trivial
  | worker i outcome => trivial
  | summary => trivial
  | ui outcome => exact h

/-- There is no interface, or its thread has ended. -/
def UiGone (s : Runtime G E) : Prop := s.noUi = true ∨ s.ui = .panicked ∨ ∃ result, s.ui = .ended result

/-- Nothing keeps the program from ending. -/
structure Closing (s : Runtime G E) : Prop where
  flag : s.isRunning = false
  ui : s.UiGone

def mainToGo : MainState E → ℕ
  | .spawnSummary => 8
  | .spawnEngine => 6
  | .spawnUi => 5
  | .generating => 4
  | .joinUi => 3
  | .joinEngine => 2
  | .joinSummary => 1
  | .returned _ => 0
  | .panicked => 0

/-- With the flag cleared, one turn is the last. -/
def phaseToGo : Phase G E → ℕ
  | .starting => 2
  | .looping _ => 1
  | .returned _ => 0
  | .panicked => 0

def threadToGo : ThreadState E → ℕ
  | .idle => 1
  | .running => 1
  | .ended _ => 0
  | .panicked => 0

/-- Each worker is started, ends and is joined. -/
def poolToGo (threads started : ℕ) : PoolState E → ℕ
  | .idle => 2 * (threads - started) + threads + 2
  | .spawning => 2 * (threads - started) + threads + 2
  | .joining k => threads - k + 1
  | .ended _ => 0
  | .panicked => 0

def remaining (threads : ℕ) (s : Runtime G E) : ℕ :=
  mainToGo s.main + phaseToGo s.generator.phase + threadToGo s.summary +
    poolToGo threads s.workers.length s.engine + (s.workers.map threadToGo).sum

theorem sum_threadToGo_le (workers : List (ThreadState E)) :
    (workers.map threadToGo).sum ≤ workers.length := by
  induction workers with
  | nil => exact Nat.zero_le _
  | cons w workers ih =>
      have hw : threadToGo w ≤ 1 := by
        cases w <;> simp [threadToGo]
      rw [List.map_cons, List.sum_cons, List.length_cons]
      omega

theorem sum_threadToGo_set {workers : List (ThreadState E)} {i : ℕ} {outcome : ThreadState E}
    (hi : workers[i]? = some .running) (houtcome : threadToGo outcome = 0) :
    ((workers.set i outcome).map threadToGo).sum + 1 = (workers.map threadToGo).sum := by
  induction workers generalizing i with
  | nil => cases hi
  | cons w workers ih =>
      cases i with
      | zero =>
          obtain rfl : w = .running := Option.some.inj hi
          rw [List.set_cons_zero, List.map_cons, List.sum_cons, List.map_cons, List.sum_cons, houtcome,
            threadToGo]
          omega
      | succ i =>
          have := ih hi
          rw [List.set_cons_succ, List.map_cons, List.sum_cons, List.map_cons, List.sum_cons]
          omega

omit [Generator G] in
theorem remaining_le {s : Runtime G E} (h : s.Sound threads) : remaining threads s ≤ 3 * threads + 13 := by
  have hmain : mainToGo s.main ≤ 8 := by
    cases s.main <;> simp [mainToGo]
  have hphase : phaseToGo s.generator.phase ≤ 2 := by
    cases s.generator.phase <;> simp [phaseToGo]
  have hsummary : threadToGo s.summary ≤ 1 := by
    cases s.summary <;> simp [threadToGo]
  have hsize := h.pool.size
  have hworkers := sum_threadToGo_le s.workers
  have hpool : poolToGo threads s.workers.length s.engine + s.workers.length ≤ 3 * threads + 2 := by
    cases s.engine <;> simp only [poolToGo] <;> omega
  rw [remaining]
  omega

omit [Generator G] in
theorem Closing.join {s s' : Runtime G E} (hc : s.Closing) (hstep : s.join = some s') :
    s'.Closing ∧ remaining threads s' < remaining threads s := by
  have hmoved : ∃ main, s' = { s with main := main } ∧ mainToGo main < mainToGo s.main := by
    unfold Runtime.join at hstep
    split at hstep
    · rename_i hmain
      split at hstep
      · refine ⟨_, (Option.some.inj hstep).symm, ?_⟩
        rw [hmain]
        split_ifs <;> simp [mainToGo]
      · exact ⟨_, (Option.some.inj hstep).symm, by simp [hmain, mainToGo]⟩
      · exact ⟨_, (Option.some.inj hstep).symm, by simp [hmain, mainToGo]⟩
      · cases hstep
    · rename_i hmain
      split at hstep
      · exact ⟨_, (Option.some.inj hstep).symm, by simp [hmain, mainToGo]⟩
      · exact ⟨_, (Option.some.inj hstep).symm, by simp [hmain, mainToGo]⟩
      · exact ⟨_, (Option.some.inj hstep).symm, by simp [hmain, mainToGo]⟩
      · cases hstep
    · rename_i hmain
      split at hstep
      · exact ⟨_, (Option.some.inj hstep).symm, by simp [hmain, mainToGo]⟩
      · exact ⟨_, (Option.some.inj hstep).symm, by simp [hmain, mainToGo]⟩
      · exact ⟨_, (Option.some.inj hstep).symm, by simp [hmain, mainToGo]⟩
      · cases hstep
    · rename_i hmain
      split at hstep
      · exact ⟨_, (Option.some.inj hstep).symm, by simp [hmain, mainToGo]⟩
      · exact ⟨_, (Option.some.inj hstep).symm, by simp [hmain, mainToGo]⟩
      · cases hstep
    · cases hstep
  obtain ⟨main, rfl, hlt⟩ := hmoved
  refine ⟨⟨hc.flag, hc.ui⟩, ?_⟩
  simp only [remaining]
  omega

omit [Generator G] in
/-- No interface is started any more. -/
theorem Closing.spawn {s s' : Runtime G E} (hc : s.Closing) (h : s.Sound threads) {failure : Option E}
    (hstep : s.spawn failure = some s') : s'.Closing ∧ remaining threads s' < remaining threads s := by
  unfold Runtime.spawn at hstep
  split at hstep
  · rename_i hmain
    obtain rfl := Option.some.inj hstep
    refine ⟨⟨hc.flag, hc.ui⟩, ?_⟩
    simp only [remaining, hmain, mainToGo, threadToGo]
    omega
  · rename_i hmain
    obtain rfl := Option.some.inj hstep
    have hengine : s.engine = .idle := by
      by_contra hne
      exact (h.engineFresh hne).2 hmain
    refine ⟨⟨hc.flag, hc.ui⟩, ?_⟩
    have hlt : mainToGo (if s.noUi then .generating else .spawnUi : MainState E) < 6 := by
      split_ifs <;> simp [mainToGo]
    simp only [remaining, hmain, hengine, mainToGo, poolToGo] at hlt ⊢
    omega
  · rename_i hmain
    rcases hc.ui with hno | hui | ⟨result, hui⟩
    · exact absurd hmain (h.headless hno).1
    · exact absurd hmain (h.uiStarted (by rw [hui]; nofun)).2.2
    · exact absurd hmain (h.uiStarted (by rw [hui]; nofun)).2.2
  · rename_i hmain
    obtain rfl := Option.some.inj hstep
    refine ⟨⟨hc.flag, hc.ui⟩, ?_⟩
    simp only [remaining, hmain, mainToGo]
    omega
  · rename_i hmain
    obtain rfl := Option.some.inj hstep
    refine ⟨⟨hc.flag, hc.ui⟩, ?_⟩
    simp only [remaining, hmain, mainToGo]
    omega
  · rename_i hmain
    obtain rfl := Option.some.inj hstep
    refine ⟨⟨hc.flag, hc.ui⟩, ?_⟩
    simp only [remaining, hmain, mainToGo]
    omega
  · cases hstep

omit [Generator G] in
theorem Closing.pool {s s' : Runtime G E} (hc : s.Closing) (h : s.Sound threads)
    {failure : Option (Option E)} (hstep : s.pool threads failure = some s') :
    s'.Closing ∧ remaining threads s' < remaining threads s := by
  have hsize := h.pool.size
  unfold Runtime.pool at hstep
  split at hstep
  · rename_i hengine
    obtain rfl := Option.some.inj hstep
    refine ⟨⟨hc.flag, hc.ui⟩, ?_⟩
    simp only [remaining, hengine, poolToGo]
    omega
  · rename_i hengine
    obtain rfl := Option.some.inj hstep
    refine ⟨⟨hc.flag, hc.ui⟩, ?_⟩
    simp only [remaining, hengine, poolToGo]
    omega
  · rename_i hengine
    split_ifs at hstep with hmore
    · obtain rfl := Option.some.inj hstep
      refine ⟨⟨hc.flag, hc.ui⟩, ?_⟩
      simp only [remaining, hengine, poolToGo, List.map_append, List.sum_append, List.length_append,
        List.map_cons, List.map_nil, List.sum_cons, List.sum_nil, List.length_cons, List.length_nil,
        threadToGo]
      omega
    · obtain rfl := Option.some.inj hstep
      refine ⟨⟨hc.flag, hc.ui⟩, ?_⟩
      simp only [remaining, hengine, poolToGo]
      omega
  · rename_i k hengine
    obtain ⟨hall, hk, -⟩ := h.pool.joining k hengine
    split at hstep
    · obtain rfl := Option.some.inj hstep
      refine ⟨⟨hc.flag, hc.ui⟩, ?_⟩
      simp only [remaining, hengine, poolToGo]
      omega
    · rename_i hsome
      obtain rfl := Option.some.inj hstep
      obtain ⟨hlt, -⟩ := List.getElem?_eq_some_iff.mp hsome
      refine ⟨⟨hc.flag, hc.ui⟩, ?_⟩
      simp only [remaining, hengine, poolToGo]
      omega
    · obtain rfl := Option.some.inj hstep
      refine ⟨⟨hc.flag, hc.ui⟩, ?_⟩
      simp only [remaining, hengine, poolToGo]
      omega
    · obtain rfl := Option.some.inj hstep
      refine ⟨⟨hc.flag, hc.ui⟩, ?_⟩
      simp only [remaining, hengine, poolToGo]
      omega
    · cases hstep
  · cases hstep

omit [Generator G] in
theorem Closing.worker {s s' : Runtime G E} (hc : s.Closing) {i : ℕ} {outcome : ThreadState E}
    (hstep : s.worker i outcome = some s') : s'.Closing ∧ remaining threads s' < remaining threads s := by
  obtain ⟨hi, hmay, rfl⟩ := worker_eq_some hstep
  refine ⟨⟨hc.flag, hc.ui⟩, ?_⟩
  have houtcome : threadToGo outcome = 0 := by
    cases outcome with
    | idle => exact absurd hmay id
    | running => exact absurd hmay id
    | ended result => rfl
    | panicked => rfl
  have := sum_threadToGo_set hi houtcome
  simp only [remaining, List.length_set]
  omega

theorem Closing.generator {s s' : Runtime G E} (hc : s.Closing) {a : RunAction}
    (ha : Own (.generator a : RuntimeAction E)) (hstep : s.step factory threads (.generator a) = some s') :
    s'.Closing ∧ remaining threads s' < remaining threads s := by
  obtain ⟨generator, hgenerator, rfl, -⟩ := generator_step hstep
  refine ⟨⟨RunGenerator.isRunning_step hgenerator hc.flag, hc.ui⟩, ?_⟩
  suffices phaseToGo generator.phase < phaseToGo s.generator.phase by
    simp only [remaining]
    omega
  cases a with
  | control ev => exact absurd ha id
  | stop => exact absurd ha id
  | poll poller => exact absurd ha id
  | create createNow activateNow =>
      obtain ⟨hphase, rfl⟩ := RunGenerator.create_of_step hgenerator
      rw [hphase, RunGenerator.create]
      split <;> simp [phaseToGo]
  | turn pollNow eventNow =>
      obtain ⟨g, hphase, rfl⟩ := RunGenerator.turn_of_step hgenerator
      rw [hphase]
      rcases (RunGenerator.turn_of_cleared (E := E) pollNow eventNow g hc.flag).2 with hlast | ⟨result, hlast⟩
      · rw [hlast]
        exact Nat.zero_lt_one
      · rw [hlast]
        exact Nat.zero_lt_one

/-- **Every step of the program itself brings the end closer.** -/
theorem Closing.step {s s' : Runtime G E} (hc : s.Closing) (h : s.Sound threads) {a : RuntimeAction E}
    (ha : Own a) (hstep : s.step factory threads a = some s') :
    s'.Closing ∧ remaining threads s' < remaining threads s := by
  cases a with
  | spawn failure => exact hc.spawn h hstep
  | generator a => exact hc.generator ha hstep
  | join => exact hc.join hstep
  | pool failure => exact hc.pool h hstep
  | worker i outcome => exact hc.worker hstep
  | summary =>
      obtain ⟨hrunning, -, rfl⟩ := summary_step hstep
      refine ⟨⟨hc.flag, hc.ui⟩, ?_⟩
      simp only [remaining, hrunning, threadToGo]
      omega
  | ui outcome => exact absurd ha id

/-- `Runtime::run` is over. -/
def Done (s : Runtime G E) : Prop := s.main = .panicked ∨ ∃ result, s.main = .returned result

/-- An engine that runs while its main thread waits for it always has a step, or a worker of it has one. -/
theorem Closing.engine_step {s : Runtime G E} (hc : s.Closing) (h : s.Sound threads)
    (hmain : s.main = .joinEngine) : ∃ a, Succeeds a ∧ (s.step factory threads a).isSome := by
  have hstage : stage s.main = 5 := congrArg stage hmain
  cases hengine : s.engine with
  | idle => exact absurd hengine (h.engineStarted (by omega))
  | spawning =>
      refine ⟨.pool none, rfl, ?_⟩
      simp only [Runtime.step, Runtime.pool, hengine]
      split_ifs
      · rfl
      · rfl
  | joining k =>
      cases hk : s.workers[k]? with
      | none =>
          refine ⟨.pool none, rfl, ?_⟩
          simp only [Runtime.step, Runtime.pool, hengine, hk]
          rfl
      | some w =>
          cases w with
          | idle => exact absurd rfl (h.pool.started _ (List.mem_of_getElem? hk))
          | running =>
              refine ⟨.worker k (.ended (.ok ())), rfl, ?_⟩
              have hmay : MayEnd s.isRunning (.ended (.ok ()) : ThreadState E) := hc.flag
              simp only [Runtime.step, Runtime.worker, hk, if_pos hmay]
              rfl
          | ended result =>
              refine ⟨.pool none, rfl, ?_⟩
              cases result with
              | ok result =>
                  simp only [Runtime.step, Runtime.pool, hengine, hk]
                  rfl
              | error e =>
                  simp only [Runtime.step, Runtime.pool, hengine, hk]
                  rfl
          | panicked =>
              refine ⟨.pool none, rfl, ?_⟩
              simp only [Runtime.step, Runtime.pool, hengine, hk]
              rfl
  | ended result =>
      refine ⟨.join, trivial, ?_⟩
      cases result with
      | ok result =>
          simp only [Runtime.step, Runtime.join, hmain, hengine]
          rfl
      | error e =>
          simp only [Runtime.step, Runtime.join, hmain, hengine]
          rfl
  | panicked =>
      refine ⟨.join, trivial, ?_⟩
      simp only [Runtime.step, Runtime.join, hmain, hengine]
      rfl

/-- **The threads do not wait for one another in a circle.** -/
theorem Closing.progress {s : Runtime G E} (hc : s.Closing) (h : s.Sound threads) :
    s.Done ∨ ∃ a, Succeeds a ∧ (s.step factory threads a).isSome := by
  cases hmain : s.main with
  | spawnSummary => exact .inr ⟨.spawn none, rfl, by simp only [Runtime.step, Runtime.spawn, hmain]; rfl⟩
  | spawnEngine => exact .inr ⟨.spawn none, rfl, by simp only [Runtime.step, Runtime.spawn, hmain]; rfl⟩
  | spawnUi => exact .inr ⟨.spawn none, rfl, by simp only [Runtime.step, Runtime.spawn, hmain]; rfl⟩
  | generating =>
      right
      cases hphase : s.generator.phase with
      | starting =>
          refine ⟨.generator (.create 0 0), trivial, ?_⟩
          simp only [Runtime.step, hmain, RunGenerator.step, hphase]
          rfl
      | looping g =>
          refine ⟨.generator (.turn 0 0), trivial, ?_⟩
          simp only [Runtime.step, hmain, RunGenerator.step, hphase]
          rfl
      | returned result =>
          refine ⟨.join, trivial, ?_⟩
          cases result with
          | ok result =>
              simp only [Runtime.step, Runtime.join, hmain, hphase]
              rfl
          | error e =>
              simp only [Runtime.step, Runtime.join, hmain, hphase]
              rfl
      | panicked =>
          refine ⟨.join, trivial, ?_⟩
          simp only [Runtime.step, Runtime.join, hmain, hphase]
          rfl
  | joinUi =>
      refine .inr ⟨.join, trivial, ?_⟩
      rcases hc.ui with hno | hui | ⟨result, hui⟩
      · exact absurd hmain (h.headless hno).2
      · simp only [Runtime.step, Runtime.join, hmain, hui]
        rfl
      · cases result with
        | ok result =>
            simp only [Runtime.step, Runtime.join, hmain, hui]
            rfl
        | error e =>
            simp only [Runtime.step, Runtime.join, hmain, hui]
            rfl
  | joinEngine => exact .inr (hc.engine_step h hmain)
  | joinSummary =>
      right
      have hstage : stage s.main = 6 := congrArg stage hmain
      cases hsummary : s.summary with
      | idle => exact absurd hsummary (h.summaryStarted (by omega))
      | running =>
          refine ⟨.summary, trivial, ?_⟩
          simp only [Runtime.step, hsummary, hc.flag]
          rfl
      | ended result =>
          refine ⟨.join, trivial, ?_⟩
          simp only [Runtime.step, Runtime.join, hmain, hsummary]
          rfl
      | panicked =>
          refine ⟨.join, trivial, ?_⟩
          simp only [Runtime.step, Runtime.join, hmain, hsummary]
          rfl
  | returned result => exact .inl (.inr ⟨result, hmain⟩)
  | panicked => exact .inl (.inl hmain)

/-- **A stopped program ends.** From every state that a run leads to, once the flag is cleared and there is no
interface left, the program itself takes a bounded number of steps, whatever their order, and as long as
`Runtime::run` is not over some thread has a step in which nothing fails; such steps lead to the end within the same
bound. -/
theorem shuts_down (factory : ℕ → Option (Except E G)) (threads : ℕ) (noUi : Bool) (cells : Cells)
    (actions own : List (RuntimeAction E)) (s s' : Runtime G E)
    (hrun : Run.run (step factory threads) (start noUi cells) actions = some s)
    (hflag : s.isRunning = false) (hui : s.UiGone)
    (hown : Run.Guarded (step factory threads) (fun _ => Own) s own)
    (hrun' : Run.run (step factory threads) s own = some s') :
    own.length ≤ 3 * threads + 13 ∧ (s'.Done ∨ ∃ a, Succeeds a ∧ (s'.step factory threads a).isSome) ∧
      ∃ rest s'', (∀ a ∈ rest, Succeeds a) ∧ Run.run (step factory threads) s' rest = some s'' ∧ s''.Done ∧
        own.length + rest.length ≤ 3 * threads + 13 := by
  have hstep : ∀ s a s', (s.Sound threads ∧ s.Closing) → Own a → step factory threads s a = some s' →
      (s'.Sound threads ∧ s'.Closing) ∧ remaining threads s' < remaining threads s := by
    rintro s a s' ⟨hs, hc⟩ ha hstep
    obtain ⟨hc', hlt⟩ := hc.step hs ha hstep
    exact ⟨⟨hs.step hstep, hc'⟩, hlt⟩
  have hs : s.Sound threads := run_sound hrun
  have hlength := Run.length_add_le_of_decreasing hstep ⟨hs, hflag, hui⟩ hown hrun'
  have hinvariant : s'.Sound threads ∧ s'.Closing :=
    Run.invariant_of_guarded (fun s a s' h ha h' => (hstep s a s' h ha h').1) ⟨hs, hflag, hui⟩ hown hrun'
  have hbound := remaining_le hs
  obtain ⟨rest, s'', hrest, hrun'', hdone, hle⟩ := Run.exists_run_of_progress
    (fun s a s' h ha => hstep s a s' h (Succeeds.own ha)) (fun s h => h.2.progress h.1) hinvariant
  exact ⟨by omega, hinvariant.2.progress hinvariant.1, rest, s'', hrest, hrun'', hdone, by omega⟩

/-- A signal stops a run without an interface while a worker is under way: the main thread waits for the engine. -/
theorem shuts_down_headless :
    ∃ s s', Run.run (step lineFactory 1) (start true RunGenerator.oneCell)
        [.spawn none, .spawn none, .generator (.create 0 0), .pool none, .generator .stop] = some s ∧
      Run.run (step lineFactory 1) s [.summary, .generator (.turn 1 1), .join] = some s' ∧
      s'.main = .joinEngine ∧ s'.workers = [.running] ∧
      3 ≤ 3 * 1 + 13 ∧ (s'.Done ∨ ∃ a, Succeeds a ∧ (s'.step lineFactory 1 a).isSome) ∧
      ∃ rest s'', (∀ a ∈ rest, Succeeds a) ∧ Run.run (step lineFactory 1) s' rest = some s'' ∧ s''.Done ∧
        3 + rest.length ≤ 3 * 1 + 13 := by
  refine ⟨_, _, rfl, rfl, rfl, rfl, ?_⟩
  exact shuts_down lineFactory 1 true RunGenerator.oneCell
    [.spawn none, .spawn none, .generator (.create 0 0), .pool none, .generator .stop]
    [.summary, .generator (.turn 1 1), .join] _ _ rfl rfl (.inl rfl)
    ⟨trivial, fun _ _ => ⟨trivial, fun _ _ => ⟨trivial, fun _ _ => trivial⟩⟩⟩ rfl

/-- With an interface, the profile alone does not end the run: everything else is down, and the main thread waits
for a key. -/
example :
    ∃ s, Run.run (step lineFactory 1) (start false RunGenerator.oneCell)
        [.spawn none, .spawn none, .spawn none, .generator (.create 0 0), .pool none, .generator (.turn 200 200),
          .join, .pool none, .worker 0 (.ended (.ok ())), .pool none, .pool none, .summary] = some s ∧
      s.main = .joinUi ∧ s.engine = .ended (.ok ()) ∧ s.isRunning = false ∧
      s.step lineFactory 1 .join = none :=
  ⟨_, rfl, rfl, rfl, rfl, rfl⟩

end Runtime

end Dwd
