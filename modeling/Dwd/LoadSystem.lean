import Dwd.RateBound
import Dwd.RateDistribution
import Dwd.UiControl

/-! The whole way from a key press to the requests of the workers: the interface with its control path, the
rate-control loop, whose turn stores one limit cell after the other while the workers read them, and the workers
over their shapers. A worker may tick between two stores of a turn, and finds limits of two turns in the cells
then. All the same, what the workers are granted stays below what was published, and a suspension that has
reached the cells stops the load until the next key. -/

namespace Dwd

namespace ControlSystem

variable {G : Type} [Generator G]

/-- A handler leaves what was published alone. -/
theorem handle_published {s s' : ControlSystem G} (h : s.step (.handle 0) = some s') :
    s'.loop.limits = s.loop.limits ∧ s'.loop.generator = s.loop.generator := by
  have htrySend : ∀ ev, (s.trySend ev).loop.limits = s.loop.limits ∧
      (s.trySend ev).loop.generator = s.loop.generator := by
    intro ev
    unfold ControlSystem.trySend
    split_ifs
    · exact ⟨rfl, rfl⟩
    · exact ⟨rfl, rfl⟩
  simp only [ControlSystem.step] at h
  split at h
  · cases h
  · rename_i request _
    obtain rfl := Option.some.inj h
    rcases request with _ | kind
    · exact ⟨rfl, rfl⟩
    · cases kind with
      | stop => exact ⟨rfl, rfl⟩
      | suspend => exact htrySend .suspend
      | resume => exact htrySend .resume
      | set v => exact htrySend (.set v)

/-- A turn publishes the rate that it polls, or the loop does not go on and publishes nothing. -/
theorem turn_published {s s' : ControlSystem G} {pollNow eventNow : ℕ}
    (h : s.step (.turn pollNow eventNow) = some s') :
    (s'.live = true ∧ s.live = true ∧ ∃ v g, s.loop.g.currentAt pollNow = some (some v, g) ∧
        s'.loop.g = s.loop.controlRx.elim g (fun ev => g.handle eventNow ev) ∧ s'.loop.generator = v ∧
        s'.loop.limits = distribute v s.loop.limits.length) ∨
      (s'.live = false ∧ s'.loop.generator = s.loop.generator ∧ s'.loop.limits = s.loop.limits) := by
  by_cases hlive : s'.live = true
  · obtain ⟨hlive', -, -, loop, hturn, rfl⟩ := turn_of_live h hlive
    obtain ⟨v, g, hpoll, -, -, rfl⟩ := RateControl.turn_again hturn
    exact .inl ⟨hlive, hlive', v, g, hpoll, rfl, rfl, rfl⟩
  · refine .inr ⟨Bool.eq_false_iff.mpr hlive, ?_⟩
    simp only [step] at h
    split_ifs at h with hcond
    cases hturn : s.loop.turn pollNow eventNow with
    | again loop =>
        rw [hturn] at h
        obtain rfl := Option.some.inj h
        exact absurd hcond.1 hlive
    | finished loop =>
        rw [hturn] at h
        obtain rfl := Option.some.inj h
        unfold RateControl.turn at hturn
        split at hturn
        · cases hturn
        · cases hturn
          exact ⟨rfl, rfl⟩
        · split_ifs at hturn
          cases hturn
          exact ⟨rfl, rfl⟩
    | panicked =>
        rw [hturn] at h
        obtain rfl := Option.some.inj h
        exact ⟨rfl, rfl⟩

end ControlSystem

namespace UiSystem

variable {G : Type} [Generator G]

/-- Only a turn publishes anything, ends the loop or changes the generator. -/
theorem step_published {s s' : UiSystem G} {a : UiAction} (ha : ∀ pollNow eventNow, a ≠ .turn pollNow eventNow)
    (h : s.step a = some s') :
    s'.control.live = s.control.live ∧ s'.control.loop.g = s.control.loop.g ∧
      s'.control.loop.generator = s.control.loop.generator ∧ s'.control.loop.limits = s.control.loop.limits := by
  cases a with
  | key key =>
      rcases onKey_cases h with ⟨ui', rfl, -⟩ | ⟨ui, ui', ev, -, -, rfl⟩
      · exact ⟨rfl, rfl, rfl, rfl⟩
      · obtain ⟨-, -, hcontrol, -⟩ := trySend_frame ev { s with ui := some ui' }
        rw [hcontrol]
        exact ⟨rfl, rfl, rfl, rfl⟩
  | forward =>
      simp only [UiSystem.step] at h
      split at h
      · split_ifs at h
        obtain ⟨control, hcall, rfl⟩ := Option.map_eq_some_iff.mp h
        obtain rfl := Option.some.inj hcall
        exact ⟨rfl, rfl, rfl, rfl⟩
      · cases h
  | handle =>
      obtain ⟨control, hcontrol, rfl⟩ := Option.map_eq_some_iff.mp h
      obtain ⟨hg, hlive⟩ := handle_generator hcontrol
      obtain ⟨hlimits, hgenerator⟩ := ControlSystem.handle_published hcontrol
      exact ⟨hlive, hg, hgenerator, hlimits⟩
  | respond =>
      simp only [UiSystem.step] at h
      split_ifs at h
      obtain rfl := Option.some.inj h
      exact ⟨rfl, rfl, rfl, rfl⟩
  | turn pollNow eventNow => exact absurd rfl (ha pollNow eventNow)
  | close =>
      simp only [UiSystem.step] at h
      split_ifs at h
      obtain rfl := Option.some.inj h
      exact ⟨rfl, rfl, rfl, rfl⟩

end UiSystem

/-- The interface with the control path and the loop, the stores that the turn of the loop has still to make, and
the cells with their workers. -/
structure LoadSystem (G : Type) (n : ℕ) where
  ui : UiSystem G
  toStore : List (Fin n × ℕ)
  rates : RateSystem n

/-- A step of the interface, the control path or the loop, the next store of a turn, or an action of a worker. -/
inductive LoadAction (n : ℕ) where
  | ui (a : UiAction)
  | store (now : ℕ)
  | tick (now : ℕ) (j : Fin n)
  | consume (now : ℕ) (j : Fin n)

namespace LoadSystem

variable {G : Type} {n : ℕ}

/-- The stores of a turn, cell after cell. -/
def stores (n : ℕ) (limits : List ℕ) : List (Fin n × ℕ) :=
  (List.finRange n).map fun j => (j, limits.getD j 0)

variable [Generator G]

def new (g : G) (kinds : Fin n → WorkerKind) (t0 : ℕ) : LoadSystem G n :=
  { ui := .new g (List.replicate n 0) t0
    toStore := []
    rates := .new kinds (fun _ => 0) t0 }

/-- The loop takes a turn only when it has made the stores of the last one. -/
def step (s : LoadSystem G n) : LoadAction n → Option (LoadSystem G n)
  | .ui (.turn pollNow eventNow) =>
      if s.toStore = [] then
        (s.ui.step (.turn pollNow eventNow)).map fun ui =>
          { s with ui := ui, toStore := if ui.control.live then stores n ui.control.loop.limits else [] }
      else none
  | .ui a => (s.ui.step a).map fun ui => { s with ui := ui }
  | .store now =>
      match s.toStore with
      | [] => none
      | (j, limit) :: toStore =>
          (s.rates.step (.store now j limit)).map fun rates => { s with toStore := toStore, rates := rates }
  | .tick now j => (s.rates.step (.tick now j)).map fun rates => { s with rates := rates }
  | .consume now j => (s.rates.step (.consume now j)).map fun rates => { s with rates := rates }

omit [Generator G] in
/-- The action of the cells or of a worker, if it is one. -/
def rateAction (s : LoadSystem G n) : LoadAction n → Option (RateAction n)
  | .ui _ => none
  | .store now => s.toStore.head?.map fun p => .store now p.1 p.2
  | .tick now j => some (.tick now j)
  | .consume now j => some (.consume now j)

/-- What the cells and the workers see of a run. -/
def rateActions : LoadSystem G n → List (LoadAction n) → List (RateAction n)
  | _, [] => []
  | s, a :: actions =>
      (s.rateAction a).toList ++
        match s.step a with
        | none => []
        | some s' => rateActions s' actions

/-- The requests that the ticks of a run grant to the workers. -/
def totalGranted (s : LoadSystem G n) (actions : List (LoadAction n)) : ℕ :=
  s.rates.totalGranted (s.rateActions actions)

/-- What a step can do. -/
inductive Moves (s : LoadSystem G n) : LoadAction n → LoadSystem G n → Prop where
  | turned (pollNow eventNow : ℕ) (ui : UiSystem G) (hstored : s.toStore = [])
      (hui : s.ui.step (.turn pollNow eventNow) = some ui) :
      Moves s (.ui (.turn pollNow eventNow))
        { s with ui := ui, toStore := if ui.control.live then stores n ui.control.loop.limits else [] }
  | moved (a : UiAction) (ui : UiSystem G) (ha : ∀ pollNow eventNow, a ≠ .turn pollNow eventNow)
      (hui : s.ui.step a = some ui) : Moves s (.ui a) { s with ui := ui }
  | stored (now : ℕ) (j : Fin n) (limit : ℕ) (toStore : List (Fin n × ℕ)) (rates : RateSystem n)
      (hnext : s.toStore = (j, limit) :: toStore) (hrates : s.rates.step (.store now j limit) = some rates) :
      Moves s (.store now) { s with toStore := toStore, rates := rates }
  | worked (a : LoadAction n) (b : RateAction n) (rates : RateSystem n) (hb : s.rateAction a = some b)
      (hstore : ∀ now j limit, b ≠ .store now j limit) (hrates : s.rates.step b = some rates)
      (hui : ∀ b, a ≠ .ui b) : Moves s a { s with rates := rates }

theorem moves_of_step {s s' : LoadSystem G n} {a : LoadAction n} (h : s.step a = some s') : Moves s a s' := by
  cases a with
  | ui a =>
      cases a with
      | turn pollNow eventNow =>
          simp only [step] at h
          split_ifs at h with hstored
          obtain ⟨ui, hui, rfl⟩ := Option.map_eq_some_iff.mp h
          exact .turned pollNow eventNow ui hstored hui
      | _ =>
          obtain ⟨ui, hui, rfl⟩ := Option.map_eq_some_iff.mp h
          exact .moved _ ui nofun hui
  | store now =>
      simp only [step] at h
      split at h
      · cases h
      · rename_i j limit toStore hnext
        obtain ⟨rates, hrates, rfl⟩ := Option.map_eq_some_iff.mp h
        exact .stored now j limit toStore rates hnext hrates
  | tick now j =>
      obtain ⟨rates, hrates, rfl⟩ := Option.map_eq_some_iff.mp h
      exact .worked _ _ rates rfl nofun hrates nofun
  | consume now j =>
      obtain ⟨rates, hrates, rfl⟩ := Option.map_eq_some_iff.mp h
      exact .worked _ _ rates rfl nofun hrates nofun

theorem length_distribute (v n : ℕ) : (distribute v n).length = n := by
  rw [distribute, List.length_map, List.length_range]

omit [Generator G] in
theorem mem_stores_distribute {v : ℕ} {p : Fin n × ℕ} :
    p ∈ stores n (distribute v n) ↔ p.2 = share v n p.1 := by
  have hlimit : ∀ j : Fin n, (distribute v n).getD j 0 = share v n j := by
    intro j
    rw [List.getD_eq_getElem?_getD, distribute, List.getElem?_map, List.getElem?_range j.isLt]
    rfl
  rw [stores, List.mem_map]
  constructor
  · rintro ⟨j, -, rfl⟩
    exact hlimit j
  · intro hp
    refine ⟨p.1, List.mem_finRange p.1, ?_⟩
    rw [hlimit, ← hp]

/-- The loop has distributed the rate that it shows, and every cell has its share or will get it. -/
structure Settled (s : LoadSystem G n) : Prop where
  limits : s.ui.control.loop.limits = distribute s.ui.control.loop.generator n
  toStore : ∀ p ∈ s.toStore, p.2 = share s.ui.control.loop.generator n p.1
  cells : ∀ j, s.rates.cells j = share s.ui.control.loop.generator n j ∨
    (j, share s.ui.control.loop.generator n j) ∈ s.toStore
  rates : s.rates.Sound
  ui : s.ui.Ordered ∧ s.ui.Tracked

theorem share_zero (n idx : ℕ) : share 0 n idx = 0 := by
  simp only [share, Nat.zero_div, Nat.zero_mod, Nat.not_lt_zero, if_false]

theorem new_settled (hn : 0 < n) (g : G) (kinds : Fin n → WorkerKind) (t0 : ℕ) :
    (new g kinds t0).Settled where
  limits := by
    show List.replicate n 0 = (List.range n).map (share 0 n)
    have hzero : share 0 n = fun _ => 0 := funext (share_zero n)
    rw [hzero, List.map_const', List.length_range]
  toStore := by
    intro p hp
    cases hp
  cells := fun j => .inl (share_zero n j).symm
  rates := RateSystem.new_sound kinds (fun _ => 0) t0
  ui := by
    have hlimits : List.replicate n 0 ≠ [] := by
      rw [ne_eq, List.replicate_eq_nil_iff]
      exact hn.ne'
    exact ⟨UiSystem.new_ordered g _ t0, UiSystem.new_tracked g hlimits t0⟩

/-- **Every step keeps the cells behind the loop.** -/
theorem Settled.step {s s' : LoadSystem G n} {a : LoadAction n} (h : s.Settled) (hstep : s.step a = some s') :
    s'.Settled := by
  cases moves_of_step hstep with
  | turned pollNow eventNow ui hstored hui =>
      have hui' : ui.Ordered ∧ ui.Tracked := ⟨h.ui.1.step hui, h.ui.2.step h.ui.1 hui⟩
      obtain ⟨control, hcontrol, rfl⟩ := Option.map_eq_some_iff.mp hui
      rcases ControlSystem.turn_published hcontrol with
        ⟨hlive, -, v, g, -, -, hgenerator, hlimits⟩ | ⟨hlive, hgenerator, hlimits⟩
      · have hspread : control.loop.limits = distribute control.loop.generator n := by
          rw [hlimits, hgenerator, h.limits, length_distribute]
        have htoStore : ∀ p : Fin n × ℕ, p ∈ (if control.live then stores n control.loop.limits else []) ↔
            p.2 = share control.loop.generator n p.1 := by
          intro p
          rw [if_pos hlive, hspread]
          exact mem_stores_distribute
        exact
          { limits := hspread
            toStore := fun p hp => (htoStore p).mp hp
            cells := fun j => .inr ((htoStore _).mpr rfl)
            rates := h.rates
            ui := hui' }
      · have hcells : ∀ j, s.rates.cells j = share s.ui.control.loop.generator n j := by
          intro j
          refine (h.cells j).resolve_right fun hmem => ?_
          rw [hstored] at hmem
          cases hmem
        refine ⟨?_, ?_, ?_, h.rates, hui'⟩
        · show control.loop.limits = distribute control.loop.generator n
          rw [hlimits, hgenerator]
          exact h.limits
        · show ∀ p ∈ (if control.live then stores n control.loop.limits else []), _
          rw [hlive]
          intro p hp
          cases hp
        · show ∀ j, s.rates.cells j = share control.loop.generator n j ∨ _
          rw [hgenerator]
          exact fun j => .inl (hcells j)
  | moved a ui ha hui =>
      obtain ⟨-, -, hgenerator, hlimits⟩ := UiSystem.step_published ha hui
      have hui' : ui.Ordered ∧ ui.Tracked := ⟨h.ui.1.step hui, h.ui.2.step h.ui.1 hui⟩
      refine ⟨?_, ?_, ?_, h.rates, hui'⟩
      · show ui.control.loop.limits = distribute ui.control.loop.generator n
        rw [hlimits, hgenerator]
        exact h.limits
      · show ∀ p ∈ s.toStore, p.2 = share ui.control.loop.generator n p.1
        rw [hgenerator]
        exact h.toStore
      · show ∀ j, s.rates.cells j = share ui.control.loop.generator n j ∨
          (j, share ui.control.loop.generator n j) ∈ s.toStore
        rw [hgenerator]
        exact h.cells
  | stored now j limit toStore rates hnext hrates =>
      have hlimit : limit = share s.ui.control.loop.generator n j :=
        h.toStore (j, limit) (hnext ▸ List.mem_cons_self)
      have hrest : ∀ p ∈ toStore, p ∈ s.toStore := fun p hp => hnext ▸ List.mem_cons_of_mem _ hp
      refine ⟨h.limits, fun p hp => h.toStore p (hrest p hp), fun i => ?_, h.rates.step hrates, h.ui⟩
      show rates.cells i = _ ∨ _ ∈ toStore
      rw [RateSystem.cells_of_store hrates]
      by_cases hi : i = j
      · subst hi
        left
        rw [Function.update_self, hlimit]
      · rw [Function.update_of_ne hi]
        refine (h.cells i).imp_right fun hmem => ?_
        rw [hnext] at hmem
        rcases List.mem_cons.mp hmem with heq | hmem
        · exact absurd (congrArg Prod.fst heq) hi
        · exact hmem
  | worked a b rates hb hstore hrates hui =>
      refine ⟨h.limits, h.toStore, fun i => ?_, h.rates.step hrates, h.ui⟩
      show rates.cells i = _ ∨ _
      rw [RateSystem.step_cells hrates rfl fun now j limit heq => absurd heq (hstore now j limit)]
      exact h.cells i

theorem run_settled (hn : 0 < n) {g : G} {kinds : Fin n → WorkerKind} {t0 : ℕ} {actions : List (LoadAction n)}
    {s : LoadSystem G n} (hrun : Run.run LoadSystem.step (new g kinds t0) actions = some s) : s.Settled :=
  Run.invariant (fun _ _ _ h hstep => Settled.step h hstep) (new_settled hn g kinds t0) hrun

/-! ### The load stays below what is published -/

/-- The loop polls no rate above `v`. -/
def Polls (v : ℕ) (s : LoadSystem G n) : LoadAction n → Prop
  | .ui (.turn pollNow _) =>
      s.ui.control.live = true → ∀ rate ∈ (s.ui.control.loop.g.currentAt pollNow).bind Prod.fst, rate ≤ v
  | _ => True

instance (v : ℕ) (s : LoadSystem G n) : (a : LoadAction n) → Decidable (s.Polls v a)
  | .ui (.turn _ _) => inferInstanceAs (Decidable (_ → ∀ rate ∈ Option.bind _ _, rate ≤ v))
  | .ui (.key _) => isTrue trivial
  | .ui .forward => isTrue trivial
  | .ui .handle => isTrue trivial
  | .ui .respond => isTrue trivial
  | .ui .close => isTrue trivial
  | .store _ => isTrue trivial
  | .tick _ _ => isTrue trivial
  | .consume _ _ => isTrue trivial

/-- The cells are stored into and the workers act between `start` and `stop`. -/
def InWindow (start stop : ℕ) : LoadAction n → Prop
  | .ui _ => True
  | .store now => start ≤ now ∧ now ≤ stop
  | .tick now _ => start ≤ now ∧ now ≤ stop
  | .consume now _ => start ≤ now ∧ now ≤ stop

instance (start stop : ℕ) : (a : LoadAction n) → Decidable (InWindow start stop a)
  | .ui _ => isTrue trivial
  | .store _ => inferInstanceAs (Decidable (_ ∧ _))
  | .tick _ _ => inferInstanceAs (Decidable (_ ∧ _))
  | .consume _ _ => inferInstanceAs (Decidable (_ ∧ _))

/-- The loop polls only rates that meet `P`. -/
def PollsOnly (P : ℕ → Prop) (s : LoadSystem G n) : LoadAction n → Prop
  | .ui (.turn pollNow _) =>
      s.ui.control.live = true → ∀ rate ∈ (s.ui.control.loop.g.currentAt pollNow).bind Prod.fst, P rate
  | _ => True

instance (P : ℕ → Prop) [DecidablePred P] (s : LoadSystem G n) : (a : LoadAction n) → Decidable (s.PollsOnly P a)
  | .ui (.turn _ _) => inferInstanceAs (Decidable (_ → ∀ rate ∈ Option.bind _ _, P rate))
  | .ui (.key _) => isTrue trivial
  | .ui .forward => isTrue trivial
  | .ui .handle => isTrue trivial
  | .ui .respond => isTrue trivial
  | .ui .close => isTrue trivial
  | .store _ => isTrue trivial
  | .tick _ _ => isTrue trivial
  | .consume _ _ => isTrue trivial

theorem Polls.only {v : ℕ} {s : LoadSystem G n} {a : LoadAction n} (h : s.Polls v a) : s.PollsOnly (· ≤ v) a := by
  cases a with
  | ui a =>
      cases a with
      | turn pollNow eventNow => exact h
      | _ => trivial
  | _ => trivial

/-- Every cell has its share of a rate that meets `P`, and no store will take that from it. -/
structure Kept (P : ℕ → Prop) (s : LoadSystem G n) : Prop where
  cells : ∀ j, ∃ rate, P rate ∧ s.rates.cells j = share rate n j
  toStore : ∀ p ∈ s.toStore, ∃ rate, P rate ∧ p.2 = share rate n p.1

omit [Generator G] in
theorem Settled.cells_eq {s : LoadSystem G n} (h : s.Settled) (hstored : s.toStore = []) (j : Fin n) :
    s.rates.cells j = share s.ui.control.loop.generator n j := by
  refine (h.cells j).resolve_right fun hmem => ?_
  rw [hstored] at hmem
  cases hmem

omit [Generator G] in
theorem Settled.kept {s : LoadSystem G n} (h : s.Settled) (hstored : s.toStore = []) {P : ℕ → Prop}
    (hP : P s.ui.control.loop.generator) : s.Kept P where
  cells := fun j => ⟨_, hP, h.cells_eq hstored j⟩
  toStore := by
    rw [hstored]
    intro p hp
    cases hp

/-- A step of a loop that polls only such rates keeps the cells. -/
theorem Kept.step {P : ℕ → Prop} {s s' : LoadSystem G n} {a : LoadAction n} (h : s.Kept P) (hs : s.Settled)
    (hpolls : s.PollsOnly P a) (hstep : s.step a = some s') : s'.Kept P := by
  have hs' := hs.step hstep
  cases moves_of_step hstep with
  | turned pollNow eventNow ui hstored hui =>
      obtain ⟨control, hcontrol, rfl⟩ := Option.map_eq_some_iff.mp hui
      refine ⟨h.cells, ?_⟩
      rcases ControlSystem.turn_published hcontrol with
        ⟨-, hlive, rate, g, hpoll, -, hgenerator, -⟩ | ⟨hlive, -, -⟩
      · intro p hp
        refine ⟨rate, hpolls hlive rate (by rw [hpoll]; rfl), ?_⟩
        rw [← hgenerator]
        exact hs'.toStore p hp
      · show ∀ p ∈ (if control.live then stores n control.loop.limits else []), _
        rw [hlive]
        intro p hp
        cases hp
  | moved a ui ha hui => exact ⟨h.cells, h.toStore⟩
  | stored now j limit toStore rates hnext hrates =>
      refine ⟨fun i => ?_, fun p hp => h.toStore p (hnext ▸ List.mem_cons_of_mem _ hp)⟩
      show ∃ rate, P rate ∧ rates.cells i = share rate n i
      rw [RateSystem.cells_of_store hrates]
      by_cases hi : i = j
      · subst hi
        rw [Function.update_self]
        exact h.toStore (i, limit) (hnext ▸ List.mem_cons_self)
      · rw [Function.update_of_ne hi]
        exact h.cells i
  | worked a b rates hb hstore hrates hui =>
      refine ⟨?_, h.toStore⟩
      rw [RateSystem.step_cells hrates rfl fun now j limit heq => absurd heq (hstore now j limit)]
      exact h.cells

omit [Generator G] in
theorem Kept.cells_le {v : ℕ} {s : LoadSystem G n} (h : s.Kept (· ≤ v)) :
    s.rates.cells ≤ fun j : Fin n => share v n j := by
  intro j
  obtain ⟨rate, hrate, heq⟩ := h.cells j
  rw [heq]
  exact share_mono j.isLt hrate

omit [Generator G] in
theorem Kept.within {v start stop : ℕ} {s : LoadSystem G n} {a : LoadAction n} {b : RateAction n}
    (h : s.Kept (· ≤ v)) (ha : InWindow start stop a) (hb : s.rateAction a = some b) :
    RateSystem.Within (fun j : Fin n => share v n j) start stop b := by
  cases a with
  | ui a => cases hb
  | store now =>
      obtain ⟨p, hp, rfl⟩ := Option.map_eq_some_iff.mp hb
      refine ⟨ha.1, ha.2, fun now' j limit heq => ?_⟩
      cases heq
      obtain ⟨rate, hrate, heq⟩ := h.toStore p (List.mem_of_mem_head? hp)
      rw [heq]
      exact share_mono p.1.isLt hrate
  | tick now j =>
      obtain rfl := Option.some.inj hb
      exact ⟨ha.1, ha.2, nofun⟩
  | consume now j =>
      obtain rfl := Option.some.inj hb
      exact ⟨ha.1, ha.2, nofun⟩

/-- What a step of such a loop shows of the cells and the workers, its whole run does. -/
theorem forall_rateActions {P : ℕ → Prop} {Q : RateAction n → Prop} {s : LoadSystem G n}
    {actions : List (LoadAction n)} (hs : s.Settled) (hkept : s.Kept P)
    (hpolls : Run.Guarded LoadSystem.step (PollsOnly P) s actions)
    (hshows : ∀ (s : LoadSystem G n) (a : LoadAction n) b, s.Kept P → a ∈ actions → s.rateAction a = some b → Q b) :
    ∀ b ∈ s.rateActions actions, Q b := by
  induction actions generalizing s with
  | nil =>
      intro b hb
      cases hb
  | cons a actions ih =>
      intro b hb
      rw [rateActions] at hb
      rcases List.mem_append.mp hb with hb | hb
      · exact hshows s a b hkept List.mem_cons_self (Option.mem_toList.mp hb)
      · cases hstep : s.step a with
        | none =>
            rw [hstep] at hb
            cases hb
        | some s' =>
            rw [hstep] at hb
            exact ih (hs.step hstep) (hkept.step hs hpolls.1 hstep) (hpolls.2 s' hstep)
              (fun s a b hkept ha => hshows s a b hkept (List.mem_cons_of_mem _ ha)) b hb

theorem totalGranted_le (hn : 0 < n) {v start stop : ℕ} {s : LoadSystem G n} {actions : List (LoadAction n)}
    (hs : s.Settled) (hkept : s.Kept (· ≤ v)) (hpolls : Run.Guarded LoadSystem.step (Polls v) s actions)
    (hwindow : ∀ a ∈ actions, InWindow start stop a) :
    (s.totalGranted actions : ℚ) ≤ v * Duration.asSecs (stop - start) + v :=
  RateSystem.totalGranted_le_of_within hn hs.rates hkept.cells_le
    (forall_rateActions hs hkept
      (hpolls.of_invariant (I := fun _ => True) (fun _ _ _ _ _ _ => trivial) (fun _ _ _ h => h.only) trivial)
      fun _ a _ hkept ha hb => hkept.within (hwindow a ha) hb)

/-- **The load stays below what is published.** From any state that a run leads to, between two turns of the loop,
in which the published rate is at most `v`: as long as the loop polls no rate above `v`, whatever profile and
control events the rates come from, and however the stores of the turns and the ticks of the workers interleave,
the workers are granted at most `v` requests for every second and one second's worth more. -/
theorem load_below_published (hn : 0 < n) (g : G) (kinds : Fin n → WorkerKind) (t0 : ℕ)
    (before actions : List (LoadAction n)) (s : LoadSystem G n)
    (hbefore : Run.run LoadSystem.step (new g kinds t0) before = some s) (hstored : s.toStore = [])
    (v start stop : ℕ) (hpublished : s.ui.control.loop.generator ≤ v)
    (hpolls : Run.Guarded LoadSystem.step (Polls v) s actions)
    (hwindow : ∀ a ∈ actions, InWindow start stop a) :
    (∀ j, s.rates.cells j = share s.ui.control.loop.generator n j) ∧
      (s.totalGranted actions : ℚ) ≤ v * Duration.asSecs (stop - start) + v := by
  have hs := run_settled hn hbefore
  exact ⟨hs.cells_eq hstored, totalGranted_le hn hs (hs.kept hstored hpublished) hpolls hwindow⟩

/-- A rate of five, typed while the first worker ticks between the two stores of a turn. -/
theorem load_below_published_five :
    ∃ s, Run.run LoadSystem.step (new (⟨5, 5, 0, 9⟩ : LineGenerator) (fun _ : Fin 2 => WorkerKind.coro) 0)
        [.ui (.turn 1 1), .store 1, .tick 1 0, .store 1] = some s ∧
      s.totalGranted [.tick 1000000001 0, .ui (.turn 2 2), .store 1000000002, .tick 1000000003 1,
        .store 1000000004, .consume 1000000005 0, .tick 1500000001 0] = 6 ∧
      (∀ j, s.rates.cells j = share s.ui.control.loop.generator 2 j) ∧
      (s.totalGranted [.tick 1000000001 0, .ui (.turn 2 2), .store 1000000002, .tick 1000000003 1,
        .store 1000000004, .consume 1000000005 0, .tick 1500000001 0] : ℚ) ≤
          (5 : ℕ) * Duration.asSecs (2000000000 - 1000000000) + (5 : ℕ) := by
  refine ⟨_, rfl, by decide +kernel, ?_⟩
  refine load_below_published (by decide) (⟨5, 5, 0, 9⟩ : LineGenerator) (fun _ : Fin 2 => WorkerKind.coro) 0
    [.ui (.turn 1 1), .store 1, .tick 1 0, .store 1] _ _ rfl rfl 5 1000000000 2000000000 (by decide) ?_ ?_
  · decide +kernel
  · intro a ha
    simp only [List.mem_cons, List.not_mem_nil, or_false] at ha
    rcases ha with rfl | rfl | rfl | rfl | rfl | rfl | rfl <;> simp [InWindow]

/-- The rate at which an event holds the load. -/
def heldRate : GeneratorEvent → Option ℕ
  | .suspend => some 0
  | .set v => some v
  | .resume => none

def Silent : LoadAction n → Prop
  | .ui (.key _) => False
  | _ => True

/-- Nothing is on its way to the loop, and its generator is held at `v`. -/
structure Held (v : ℕ) (s : LoadSystem G n) : Prop where
  uiRx : s.ui.uiRx = none
  inflight : s.ui.control.inflight = []
  controlRx : s.ui.control.loop.controlRx = none
  suspended : s.ui.control.live = true →
    s.ui.control.loop.g.suspendedAt ≠ none ∧ s.ui.control.loop.g.value.getD 0 = v

/-- As long as the loop is alive, `v` is what it has published. -/
def Published (v : ℕ) (s : LoadSystem G n) : Prop :=
  s.ui.control.live = true → s.ui.control.loop.generator = v

omit [Generator G] in
/-- Once the last event of the interface has been handled, the generator is held at its rate. -/
theorem held_of_last {s : LoadSystem G n} (hs : s.Settled) (hkept : s.ui.dropped = 0)
    (hidle : s.ui.inTransit = []) {ev : GeneratorEvent} {v : ℕ} (hlast : s.ui.sent.getLast? = some ev)
    (hheld : heldRate ev = some v) : s.Held v := by
  obtain ⟨horder, htracked⟩ := hs.ui
  have hhandled := horder.queued.eq_sent hkept
  rw [hidle, List.append_nil] at hhandled
  rw [← hhandled] at hlast
  obtain ⟨hloop, huiRx⟩ := List.append_eq_nil_iff.mp hidle
  obtain ⟨hcontrolRx, hrequests⟩ := List.append_eq_nil_iff.mp hloop
  refine ⟨?_, ?_, ?_, fun hlive => ?_⟩
  · exact Option.toList_eq_nil_iff.mp huiRx
  · rcases horder.single with hnil | ⟨ev', hone⟩
    · exact hnil
    · rw [hone, List.filterMap_cons, intoControlRequest_event] at hrequests
      cases hrequests
  · exact Option.toList_eq_nil_iff.mp hcontrolRx
  · have hheard := htracked.heard hlive
    rw [hlast] at hheard
    cases ev with
    | suspend =>
        refine ⟨hheard, ?_⟩
        rw [htracked.cleared hkept hlive hlast]
        exact Option.some.inj hheld
    | resume => cases hheld
    | set w =>
        refine ⟨hheard.1, ?_⟩
        rw [hheard.2]
        exact Option.some.inj hheld

/-- What a held generator is polled for. -/
theorem Held.polled {v : ℕ} {s : LoadSystem G n} (h : s.Held v) (hlive : s.ui.control.live = true)
    {pollNow rate : ℕ} {g : SuspendableGenerator G}
    (hpoll : s.ui.control.loop.g.currentAt pollNow = some (some rate, g)) : rate = v := by
  obtain ⟨hsuspended, hvalue⟩ := h.suspended hlive
  obtain ⟨a, ha⟩ := Option.ne_none_iff_exists'.mp hsuspended
  rw [SuspendableGenerator.currentAt_suspended ha] at hpoll
  have hrate := congrArg Prod.fst (Option.some.inj hpoll)
  rw [← hvalue]
  cases hv : s.ui.control.loop.g.value with
  | none =>
      rw [hv] at hrate
      exact (Option.some.inj hrate).symm
  | some w =>
      rw [hv] at hrate
      exact (Option.some.inj hrate).symm

theorem Held.polls {v : ℕ} {s : LoadSystem G n} (h : s.Held v) (a : LoadAction n) : s.Polls v a := by
  cases a with
  | ui a =>
      cases a with
      | turn pollNow eventNow =>
          intro hlive rate hrate
          obtain ⟨⟨value, g⟩, hpoll, hvalue⟩ := Option.bind_eq_some_iff.mp hrate
          obtain rfl : value = some rate := hvalue
          exact (h.polled hlive hpoll).le
      | _ => trivial
  | _ => trivial

/-- **Without a key, the generator stays held**, and a turn publishes its rate. -/
theorem Held.step {v : ℕ} {s s' : LoadSystem G n} {a : LoadAction n} (h : s.Held v) (ha : Silent a)
    (hstep : s.step a = some s') :
    s'.Held v ∧ ((∃ pollNow eventNow, a = .ui (.turn pollNow eventNow)) ∨ s.Published v → s'.Published v) := by
  cases moves_of_step hstep with
  | turned pollNow eventNow ui hstored hui =>
      obtain ⟨control, hcontrol, rfl⟩ := Option.map_eq_some_iff.mp hui
      obtain ⟨hinflight, hcontrolRx⟩ := UiSystem.turn_frame hcontrol
      have hrx : control.loop.controlRx = none := by
        rw [hcontrolRx, h.controlRx, ite_self]
      rcases ControlSystem.turn_published hcontrol with
        ⟨hlive', hlive, rate, g, hpoll, hg, hgenerator, -⟩ | ⟨hdead, -, -⟩
      · rw [h.controlRx] at hg
        obtain ⟨hat, -, hvalue⟩ := SuspendableGenerator.currentAt_frame hpoll
        have hgen : control.loop.g = g := hg
        refine ⟨⟨h.uiRx, hinflight.trans h.inflight, hrx, fun _ => ?_⟩, fun _ _ => ?_⟩
        · show control.loop.g.suspendedAt ≠ none ∧ control.loop.g.value.getD 0 = v
          rw [hgen, hat, hvalue]
          exact h.suspended hlive
        · exact hgenerator.trans (h.polled hlive hpoll)
      · have hnot : ¬control.live = true := by rw [hdead]; exact Bool.false_ne_true
        exact ⟨⟨h.uiRx, hinflight.trans h.inflight, hrx, fun hlive => absurd hlive hnot⟩,
          fun _ hlive => absurd hlive hnot⟩
  | moved a ui hturn hui =>
      obtain ⟨hlive, hg, hgenerator, -⟩ := UiSystem.step_published hturn hui
      have hpublished : s.Published v → Published v ({ s with ui := ui } : LoadSystem G n) := by
        intro hs hlive'
        exact hgenerator.trans (hs (hlive.symm.trans hlive'))
      refine ⟨?_, fun hor => hpublished (hor.resolve_left ?_)⟩
      · have hsuspended : ui.control.live = true →
            ui.control.loop.g.suspendedAt ≠ none ∧ ui.control.loop.g.value.getD 0 = v := by
          rw [hlive, hg]
          exact h.suspended
        cases a with
        | key key => exact ha.elim
        | forward =>
            simp only [UiSystem.step, h.uiRx] at hui
            cases hui
        | handle =>
            simp only [UiSystem.step, ControlSystem.step, h.inflight] at hui
            cases hui
        | respond =>
            simp only [UiSystem.step] at hui
            split_ifs at hui
            obtain rfl := Option.some.inj hui
            exact ⟨h.uiRx, h.inflight, h.controlRx, hsuspended⟩
        | turn pollNow eventNow => exact absurd rfl (hturn pollNow eventNow)
        | close =>
            simp only [UiSystem.step] at hui
            split_ifs at hui
            obtain rfl := Option.some.inj hui
            exact ⟨h.uiRx, h.inflight, h.controlRx, hsuspended⟩
      · rintro ⟨pollNow, eventNow, heq⟩
        cases heq
        exact hturn pollNow eventNow rfl
  | stored now j limit toStore rates hnext hrates =>
      refine ⟨⟨h.uiRx, h.inflight, h.controlRx, h.suspended⟩, fun hor => hor.resolve_left ?_⟩
      rintro ⟨pollNow, eventNow, heq⟩
      cases heq
  | worked a b rates hb hstore hrates hui =>
      refine ⟨⟨h.uiRx, h.inflight, h.controlRx, h.suspended⟩, fun hor => hor.resolve_left ?_⟩
      rintro ⟨pollNow, eventNow, heq⟩
      exact hui _ heq

/-- After a silent run with a turn, the rate at which the generator is held is published. -/
theorem Held.run {v : ℕ} {s s' : LoadSystem G n} {actions : List (LoadAction n)} (h : s.Held v)
    (hsilent : ∀ a ∈ actions, Silent a)
    (hturn : (∃ pollNow eventNow, .ui (.turn pollNow eventNow) ∈ actions) ∨ s.Published v)
    (hrun : Run.run LoadSystem.step s actions = some s') : s'.Held v ∧ s'.Published v := by
  induction actions generalizing s with
  | nil =>
      obtain rfl := Option.some.inj hrun
      refine ⟨h, hturn.resolve_left ?_⟩
      rintro ⟨pollNow, eventNow, hmem⟩
      cases hmem
  | cons a actions ih =>
      obtain ⟨s₁, hstep, hrest⟩ := Run.run_cons_eq_some hrun
      obtain ⟨hheld, hpublished⟩ := h.step (hsilent a List.mem_cons_self) hstep
      refine ih hheld (fun b hb => hsilent b (List.mem_cons_of_mem _ hb)) ?_ hrest
      rcases hturn with ⟨pollNow, eventNow, hmem⟩ | hs
      · rcases List.mem_cons.mp hmem with heq | hmem
        · exact .inr (hpublished (.inl ⟨pollNow, eventNow, heq.symm⟩))
        · exact .inl ⟨pollNow, eventNow, hmem⟩
      · exact .inr (hpublished (.inr hs))

/-- **A suspension stops the load, and a manual rate holds it.** When the last event that the interface has sent
is a suspension or a rate that was typed, no event was dropped and all have been handled: after a further turn of
the loop with its stores, and until the next key, the workers are granted nothing if the load is suspended, and at
most the typed rate for every second, and one second's worth more, if it is manual; however the interface, the
service, the loop and the workers take turns meanwhile. -/
theorem load_held (hn : 0 < n) (g : G) (kinds : Fin n → WorkerKind) (t0 : ℕ)
    (before settle after : List (LoadAction n)) (s s' : LoadSystem G n)
    (hbefore : Run.run LoadSystem.step (new g kinds t0) before = some s) (hkept : s.ui.dropped = 0)
    (hidle : s.ui.inTransit = []) (ev : GeneratorEvent) (v : ℕ) (hlast : s.ui.sent.getLast? = some ev)
    (hheld : heldRate ev = some v) (hsettle : Run.run LoadSystem.step s settle = some s')
    (hturn : ∃ pollNow eventNow, .ui (.turn pollNow eventNow) ∈ settle)
    (hsilent : ∀ a ∈ settle ++ after, Silent a) (hlive : s'.ui.control.live = true) (hstored : s'.toStore = [])
    (start stop : ℕ) (hwindow : ∀ a ∈ after, InWindow start stop a) :
    (s'.totalGranted after : ℚ) ≤ v * Duration.asSecs (stop - start) + v ∧
      (v = 0 → s'.totalGranted after = 0) := by
  have hs := run_settled hn hbefore
  have hs' : s'.Settled := Run.invariant (fun _ _ _ h hstep => Settled.step h hstep) hs hsettle
  obtain ⟨hheld', hpublished⟩ := (held_of_last hs hkept hidle hlast hheld).run
    (fun a ha => hsilent a (List.mem_append_left _ ha)) (.inl hturn) hsettle
  have hpolls : Run.Guarded LoadSystem.step (Polls v) s' after := by
    have hguard : Run.Guarded LoadSystem.step (fun (_ : LoadSystem G n) a => Silent a) s' after :=
      Run.guarded_of_forall s' fun a ha => hsilent a (List.mem_append_right _ ha)
    exact hguard.of_invariant (fun _ _ _ h ha hstep => (Held.step h ha hstep).1) (fun _ a h _ => h.polls a) hheld'
  have hbound := totalGranted_le hn hs' (hs'.kept hstored (hpublished hlive).le) hpolls hwindow
  refine ⟨hbound, fun hzero => ?_⟩
  subst hzero
  rw [Nat.cast_zero, zero_mul, zero_add] at hbound
  exact Nat.le_zero.mp (Nat.cast_le.mp (hbound.trans_eq Nat.cast_zero.symm))

/-- The load is suspended while two workers have tokens for five requests a second. -/
theorem load_held_suspended :
    ∃ s, Run.run LoadSystem.step (new (⟨5, 5, 0, 9⟩ : LineGenerator) (fun _ : Fin 2 => WorkerKind.coro) 0)
        [.ui (.turn 1 1), .store 1, .store 1, .ui (.key (.pressed (.char 's'))), .ui .forward, .ui .handle,
          .ui (.turn 2 2), .store 1000000002, .store 1000000002] = some s ∧
      ∃ s', Run.run LoadSystem.step s [.ui .respond, .ui (.turn 3 3), .tick 1500000002 0, .store 1500000003,
          .store 1500000003] = some s' ∧
      (s'.totalGranted [.tick 2000000000 1, .ui (.turn 4 4), .store 2000000001, .tick 2000000002 1] : ℚ) ≤
          (0 : ℕ) * Duration.asSecs (3000000000 - 2000000000) + (0 : ℕ) ∧
      s'.totalGranted [.tick 2000000000 1, .ui (.turn 4 4), .store 2000000001, .tick 2000000002 1] = 0 := by
  refine ⟨_, rfl, _, rfl, ?_⟩
  refine (load_held (by decide) (⟨5, 5, 0, 9⟩ : LineGenerator) (fun _ : Fin 2 => WorkerKind.coro) 0
    [.ui (.turn 1 1), .store 1, .store 1, .ui (.key (.pressed (.char 's'))), .ui .forward, .ui .handle,
      .ui (.turn 2 2), .store 1000000002, .store 1000000002]
    [.ui .respond, .ui (.turn 3 3), .tick 1500000002 0, .store 1500000003, .store 1500000003] _ _ _ rfl rfl rfl
    .suspend 0 rfl rfl rfl ⟨3, 3, by simp⟩ ?_ rfl rfl 2000000000 3000000000
    ?_).imp_right fun hzero => hzero rfl
  · intro a ha
    simp only [List.cons_append, List.nil_append, List.mem_cons, List.not_mem_nil, or_false] at ha
    rcases ha with rfl | rfl | rfl | rfl | rfl | rfl | rfl | rfl | rfl <;> trivial
  · intro a ha
    simp only [List.mem_cons, List.not_mem_nil, or_false] at ha
    rcases ha with rfl | rfl | rfl | rfl <;> simp [InWindow]

end LoadSystem

end Dwd
