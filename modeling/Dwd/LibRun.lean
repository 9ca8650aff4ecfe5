import Mathlib.Order.Basic

/-! Runs of a machine whose step is a partial function of the state and an action. An action that is
not enabled has no step. The rules carry an invariant, or a bound on what the actions add up to, from
one step to a whole run; a guard restricts the steps that a run may take. -/

namespace Run

variable {S A : Type} (step : S → A → Option S)

def run : S → List A → Option S
  | s, [] => some s
  | s, a :: as => (step s a).bind fun s' => run s' as

/-- What the steps of a run put out, in order. -/
def outputs {O : Type} (out : S → A → List O) : S → List A → List O
  | _, [] => []
  | s, a :: as => out s a ++ (step s a).elim [] fun s' => outputs out s' as

/-- Every step of the run meets the guard, in the state before it. -/
def Guarded (guard : S → A → Prop) : S → List A → Prop
  | _, [] => True
  | s, a :: as => guard s a ∧ ∀ s', step s a = some s' → Guarded guard s' as

variable {step}

theorem run_cons_eq_some {s s'' : S} {a : A} {as : List A} (h : run step s (a :: as) = some s'') :
    ∃ s', step s a = some s' ∧ run step s' as = some s'' := Option.bind_eq_some_iff.mp h

theorem Guarded.cons {guard : S → A → Prop} {s s' : S} {a : A} {as : List A} (ha : guard s a)
    (hstep : step s a = some s') (h : Guarded step guard s' as) : Guarded step guard s (a :: as) := by
  refine ⟨ha, fun s'' hstep' => ?_⟩
  obtain rfl : s' = s'' := Option.some.inj (hstep.symm.trans hstep')
  exact h

theorem guarded_cons_iff {guard : S → A → Prop} {s s' : S} {a : A} {as : List A}
    (hstep : step s a = some s') : Guarded step guard s (a :: as) ↔ guard s a ∧ Guarded step guard s' as := by
  constructor
  · rintro ⟨ha, h⟩
    exact ⟨ha, h s' hstep⟩
  · rintro ⟨ha, h⟩
    exact Guarded.cons ha hstep h

theorem guarded_cons_iff_of_none {guard : S → A → Prop} {s : S} {a : A} {as : List A}
    (hstep : step s a = none) : Guarded step guard s (a :: as) ↔ guard s a := by
  refine ⟨fun h => h.1, fun ha => ⟨ha, fun s' hs' => ?_⟩⟩
  rw [hstep] at hs'
  cases hs'

instance decidableGuarded {guard : S → A → Prop} [∀ s a, Decidable (guard s a)] :
    ∀ (s : S) (as : List A), Decidable (Guarded step guard s as)
  | _, [] => isTrue trivial
  | s, a :: as =>
      match hstep : step s a with
      | none => decidable_of_iff _ (guarded_cons_iff_of_none hstep).symm
      | some s' =>
          have : Decidable (Guarded step guard s' as) := decidableGuarded s' as
          decidable_of_iff _ (guarded_cons_iff hstep).symm

/-- A guarded run is guarded up to any of its steps. -/
theorem Guarded.take {guard : S → A → Prop} {s : S} {as : List A} (h : Guarded step guard s as) (k : ℕ) :
    Guarded step guard s (as.take k) := by
  induction as generalizing s k with
  | nil =>
      rw [List.take_nil]
      trivial
  | cons a as ih =>
      cases k with
      | zero => trivial
      | succ k => exact ⟨h.1, fun s' hs' => ih (h.2 s' hs') k⟩

/-- What every guarded step preserves, every guarded run preserves. -/
theorem invariant_of_guarded {guard : S → A → Prop} {I : S → Prop}
    (hstep : ∀ s a s', I s → guard s a → step s a = some s' → I s') {s s' : S} {as : List A}
    (hs : I s) (hguard : Guarded step guard s as) (hrun : run step s as = some s') : I s' := by
  induction as generalizing s with
  | nil =>
      obtain rfl : s = s' := Option.some.inj hrun
      exact hs
  | cons a as ih =>
      obtain ⟨s₁, hs₁, hrest⟩ := run_cons_eq_some hrun
      exact ih (hstep s a s₁ hs hguard.1 hs₁) (hguard.2 s₁ hs₁) hrest

/-- The states along a run are good exactly when the run is guarded, if a guarded step is one that leads
from a good state to a good one, and a step that is not enabled is guarded. -/
theorem along_iff_guarded {guard : S → A → Prop} {I : S → Prop}
    (hstep : ∀ s a s', I s → step s a = some s' → (I s' ↔ guard s a))
    (hdisabled : ∀ s a, step s a = none → guard s a) {s : S} (hs : I s) (as : List A) :
    (∀ k s', run step s (as.take k) = some s' → I s') ↔ Guarded step guard s as := by
  constructor
  · intro halong
    induction as generalizing s with
    | nil => trivial
    | cons a as ih =>
        cases hnext : step s a with
        | none => exact (guarded_cons_iff_of_none hnext).mpr (hdisabled s a hnext)
        | some s₁ =>
            have hshift : ∀ k s', run step s₁ (as.take k) = some s' → I s' := by
              intro k s' hrun
              refine halong (k + 1) s' ?_
              rw [List.take_succ_cons, run, hnext, Option.bind_some, hrun]
            have hgood : I s₁ := hshift 0 s₁ (by rw [List.take_zero]; rfl)
            exact Guarded.cons ((hstep s a s₁ hs hnext).mp hgood) hnext (ih hgood hshift)
  · intro hguard k s' hrun
    refine invariant_of_guarded (fun s a s' hI hg hs' => (hstep s a s' hI hs').mpr hg) hs ?_ hrun
    exact hguard.take k

theorem Guarded.and {guard guard' : S → A → Prop} {s : S} {as : List A} (h : Guarded step guard s as)
    (h' : Guarded step guard' s as) : Guarded step (fun s a => guard s a ∧ guard' s a) s as := by
  induction as generalizing s with
  | nil => trivial
  | cons a as ih => exact ⟨⟨h.1, h'.1⟩, fun s' hs' => ih (h.2 s' hs') (h'.2 s' hs')⟩

theorem guarded_true (s : S) (as : List A) : Guarded step (fun _ _ => True) s as := by
  induction as generalizing s with
  | nil => trivial
  | cons a as ih => exact ⟨trivial, fun s' _ => ih s'⟩

/-- What an invariant of the guarded runs makes sure of guards them too. -/
theorem Guarded.of_invariant {guard guard' : S → A → Prop} {I : S → Prop}
    (hstep : ∀ s a s', I s → guard s a → step s a = some s' → I s')
    (hguard' : ∀ s a, I s → guard s a → guard' s a) {s : S} {as : List A} (hs : I s)
    (hguard : Guarded step guard s as) : Guarded step guard' s as := by
  induction as generalizing s with
  | nil => trivial
  | cons a as ih =>
      refine ⟨hguard' s a hs hguard.1, fun s' hs' => ?_⟩
      exact ih (hstep s a s' hs hguard.1 hs') (hguard.2 s' hs')

/-- A guard on the actions alone. -/
theorem guarded_of_forall {P : A → Prop} (s : S) {as : List A} (h : ∀ a ∈ as, P a) :
    Guarded step (fun _ a => P a) s as := by
  induction as generalizing s with
  | nil => trivial
  | cons a as ih =>
      exact ⟨h a List.mem_cons_self, fun s' _ => ih s' fun b hb => h b (List.mem_cons_of_mem _ hb)⟩

/-- What every step preserves, every run preserves. -/
theorem invariant {I : S → Prop} (hstep : ∀ s a s', I s → step s a = some s' → I s') {s s' : S}
    {as : List A} (hs : I s) (hrun : run step s as = some s') : I s' :=
  invariant_of_guarded (fun s a s' h _ => hstep s a s' h) hs (guarded_true s as) hrun

/-- An invariant of the state and of what has been put out before it. -/
theorem invariant_with_outputs {O : Type} {out : S → A → List O} {guard : S → A → Prop}
    {I : S → List O → Prop}
    (hstep : ∀ s os a s', I s os → guard s a → step s a = some s' → I s' (os ++ out s a)) {s s' : S}
    {os : List O} {as : List A} (hs : I s os) (hguard : Guarded step guard s as) (hrun : run step s as = some s') :
    I s' (os ++ outputs step out s as) := by
  induction as generalizing s os with
  | nil =>
      obtain rfl : s = s' := Option.some.inj hrun
      rwa [outputs, List.append_nil]
  | cons a as ih =>
      obtain ⟨s₁, hs₁, hrest⟩ := run_cons_eq_some hrun
      have h := ih (hstep s os a s₁ hs hguard.1 hs₁) (hguard.2 s₁ hs₁) hrest
      rw [outputs, hs₁, Option.elim_some, ← List.append_assoc]
      exact h

/-- A run never stops when every action is enabled in every good state, and leads to a good state. -/
theorem run_isSome {I : S → Prop} (hstep : ∀ s a, I s → ∃ s', step s a = some s' ∧ I s') {s : S} (hs : I s)
    (as : List A) : (run step s as).isSome := by
  induction as generalizing s with
  | nil => rfl
  | cons a as ih =>
      obtain ⟨s', hs', hinv⟩ := hstep s a hs
      rw [run, hs', Option.bind_some]
      exact ih hinv

/-- A run in which every step lowers a measure is no longer than what it takes off the measure. -/
theorem length_add_le_of_decreasing {guard : S → A → Prop} {I : S → Prop} {measure : S → ℕ}
    (hstep : ∀ s a s', I s → guard s a → step s a = some s' → I s' ∧ measure s' < measure s) {s s' : S}
    {as : List A} (hs : I s) (hguard : Guarded step guard s as) (hrun : run step s as = some s') :
    as.length + measure s' ≤ measure s := by
  induction as generalizing s with
  | nil =>
      obtain rfl : s = s' := Option.some.inj hrun
      exact Nat.le_of_eq (Nat.zero_add _)
  | cons a as ih =>
      obtain ⟨s₁, hs₁, hrest⟩ := run_cons_eq_some hrun
      obtain ⟨hinv, hlt⟩ := hstep s a s₁ hs hguard.1 hs₁
      have hle := ih hinv (hguard.2 s₁ hs₁) hrest
      rw [List.length_cons]
      omega

/-- Steps of a kind that lower a measure, one of which is enabled as long as the machine is not done, lead to a state
in which it is done. -/
theorem exists_run_of_progress {guard : A → Prop} {I done : S → Prop} {measure : S → ℕ}
    (hstep : ∀ s a s', I s → guard a → step s a = some s' → I s' ∧ measure s' < measure s)
    (hprogress : ∀ s, I s → done s ∨ ∃ a, guard a ∧ (step s a).isSome) {s : S} (hs : I s) :
    ∃ as s', (∀ a ∈ as, guard a) ∧ run step s as = some s' ∧ done s' ∧ as.length ≤ measure s := by
  induction hm : measure s using Nat.strongRecOn generalizing s with
  | ind m ih =>
      rcases hprogress s hs with hdone | ⟨a, ha, hsome⟩
      · exact ⟨[], s, nofun, rfl, hdone, Nat.zero_le m⟩
      · obtain ⟨s₁, hs₁⟩ := Option.isSome_iff_exists.mp hsome
        obtain ⟨hinv, hlt⟩ := hstep s a s₁ hs ha hs₁
        obtain ⟨as, s', has, hrun, hdone, hle⟩ := ih (measure s₁) (hm ▸ hlt) hinv rfl
        refine ⟨a :: as, s', List.forall_mem_cons.mpr ⟨ha, has⟩, ?_, hdone, ?_⟩
        · rw [run, hs₁, Option.bind_some, hrun]
        · rw [List.length_cons]
          omega

end Run
