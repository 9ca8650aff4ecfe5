import Mathlib.Data.List.Count
import Mathlib.Data.List.Nodup
import Mathlib.Logic.Function.Basic

/-! References to shared objects that are given back one after another. An object whose last reference has been
given back is gone, and a reference too many is an error. -/

namespace Refcount

variable {α : Type} [DecidableEq α]

def free (refs : α → ℕ) (a : α) : Option (α → ℕ) :=
  if refs a = 0 then none else some (Function.update refs a (refs a - 1))

def freeAll (refs : α → ℕ) (as : List α) : Option (α → ℕ) := as.foldlM free refs

theorem freeAll_cons (refs : α → ℕ) (a : α) (as : List α) :
    freeAll refs (a :: as) =
      if refs a = 0 then none else freeAll (Function.update refs a (refs a - 1)) as := by
  rw [freeAll, List.foldlM_cons, free]
  split_ifs
  · rfl
  · rfl

/-- All references can be given back exactly when there are enough of each; then each count is lower by what was
given back. -/
theorem freeAll_eq_some_iff {refs refs' : α → ℕ} {as : List α} :
    freeAll refs as = some refs' ↔ (∀ a, as.count a ≤ refs a) ∧ refs' = fun a => refs a - as.count a := by
  induction as generalizing refs with
  | nil =>
      simp only [List.count_nil, Nat.zero_le, implies_true, true_and, Nat.sub_zero]
      exact ⟨fun h => (Option.some.inj h).symm, fun h => congrArg some h.symm⟩
  | cons a as ih =>
      rw [freeAll_cons]
      by_cases hzero : refs a = 0
      · rw [if_pos hzero]
        refine ⟨nofun, fun h => ?_⟩
        have hcount := h.1 a
        rw [List.count_cons_self, hzero] at hcount
        omega
      · have hcount : ∀ b, (a :: as).count b ≤ refs b ↔ as.count b ≤ Function.update refs a (refs a - 1) b := by
          intro b
          by_cases hb : b = a
          · subst hb
            rw [List.count_cons_self, Function.update_self]
            omega
          · rw [List.count_cons_of_ne (Ne.symm hb), Function.update_of_ne hb]
        have hrest : (fun b => Function.update refs a (refs a - 1) b - as.count b) =
            fun b => refs b - (a :: as).count b := by
          funext b
          by_cases hb : b = a
          · subst hb
            rw [List.count_cons_self, Function.update_self]
            omega
          · rw [List.count_cons_of_ne (Ne.symm hb), Function.update_of_ne hb]
        rw [if_neg hzero, ih, hrest]
        simp only [hcount]

theorem freeAll_isSome_iff {refs : α → ℕ} {as : List α} :
    (freeAll refs as).isSome ↔ ∀ a, as.count a ≤ refs a := by
  rw [Option.isSome_iff_exists]
  constructor
  · rintro ⟨refs', h⟩
    exact (freeAll_eq_some_iff.mp h).1
  · intro h
    exact ⟨_, freeAll_eq_some_iff.mpr ⟨h, rfl⟩⟩

end Refcount
