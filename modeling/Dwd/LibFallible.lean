import Mathlib.Logic.Basic

/-! Computations that return a value or an error. A sequence of them returns a value exactly when each of
its parts does. -/

namespace Fallible

variable {ε α β : Type} {x : Except ε α}

theorem bind_eq_ok_iff {f : α → Except ε β} {b : β} :
    x >>= f = .ok b ↔ ∃ a, x = .ok a ∧ f a = .ok b := by
  cases x with
  | error e => exact ⟨fun h => (nomatch h), fun ⟨_, h, _⟩ => (nomatch h)⟩
  | ok a =>
      constructor
      · intro h
        exact ⟨a, rfl, h⟩
      · rintro ⟨a', ha, h⟩
        obtain rfl := Except.ok.inj ha
        exact h

theorem bind_pure_eq_ok_iff {f : α → β} {b : β} :
    (do let a ← x; return f a) = Except.ok b ↔ ∃ a, x = .ok a ∧ f a = b := by
  rw [bind_eq_ok_iff]
  exact exists_congr fun a => and_congr_right fun _ => ⟨fun h => Except.ok.inj h, congrArg Except.ok⟩

theorem exists_bind_pure_iff {f : α → β} :
    (∃ b, (do let a ← x; return f a) = Except.ok b) ↔ ∃ a, x = .ok a := by
  simp only [bind_pure_eq_ok_iff]
  exact ⟨fun ⟨_, a, ha, _⟩ => ⟨a, ha⟩, fun ⟨a, ha⟩ => ⟨f a, a, ha, rfl⟩⟩

/-- A condition that the computation needs. -/
def ensure (success : Bool) (e : ε) : Except ε Unit := if success then .ok () else .error e

/-- A value that the computation needs. -/
def orFail (a? : Option α) (e : ε) : Except ε α := a?.elim (.error e) .ok

theorem ensure_eq_ok_iff {success : Bool} {e : ε} {u : Unit} : ensure success e = .ok u ↔ success = true := by
  cases success with
  | false => exact ⟨fun h => (nomatch h), fun h => (nomatch h)⟩
  | true => exact ⟨fun _ => rfl, fun _ => rfl⟩

theorem orFail_eq_ok_iff {a? : Option α} {e : ε} {a : α} : orFail a? e = .ok a ↔ a? = some a := by
  cases a? with
  | none => exact ⟨fun h => (nomatch h), fun h => (nomatch h)⟩
  | some a' => rw [orFail, Option.elim_some, Except.ok.injEq, Option.some.injEq]

/-- What every step of a fold keeps, the items before it taken, the fold keeps. -/
theorem foldlM_invariant {f : β → α → Except ε β} {I : List α → β → Prop} {xs : List α}
    (hstep : ∀ done a rest b b', done ++ a :: rest = xs → I done b → f b a = .ok b' → I (done ++ [a]) b')
    {b b' : β} (h : I [] b) (hfold : xs.foldlM f b = .ok b') : I xs b' := by
  have hfrom : ∀ (rest done : List α) (b : β), done ++ rest = xs → I done b →
      rest.foldlM f b = .ok b' → I xs b' := by
    intro rest
    induction rest with
    | nil =>
        intro done b heq hdone hfold
        obtain rfl : b = b' := Except.ok.inj hfold
        rwa [← heq, List.append_nil]
    | cons a rest ih =>
        intro done b heq hdone hfold
        rw [List.foldlM_cons] at hfold
        obtain ⟨b₁, hfirst, hrest⟩ := bind_eq_ok_iff.mp hfold
        exact ih (done ++ [a]) b₁ (by rw [List.append_assoc, List.singleton_append, heq])
          (hstep done a rest b b₁ heq hdone hfirst) hrest
  exact hfrom xs [] b rfl h hfold

theorem toOption_eq_some_iff {a : α} : x.toOption = some a ↔ x = .ok a := by
  cases x with
  | error e => exact ⟨fun h => (nomatch h), fun h => (nomatch h)⟩
  | ok b => rw [Except.toOption, Option.some.injEq, Except.ok.injEq]

theorem exists_eq_ok (h : x.toOption.isSome) : ∃ a, x = .ok a := by
  obtain ⟨a, ha⟩ := Option.isSome_iff_exists.mp h
  exact ⟨a, toOption_eq_some_iff.mp ha⟩

end Fallible
