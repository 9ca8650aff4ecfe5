import Mathlib.Data.List.Chain
import Mathlib.Order.Basic

/-! Machines that are polled. A poll at a time returns a value, or `none` when the machine is over,
and moves the machine to its next state. `Over` and `Ends` are greatest fixed points: they are shown
by exhibiting a set of states that the polls do not leave, and used one poll at a time. -/

namespace Polling

variable {S V : Type} (poll : ℕ → S → Option V × S)

/-- The polls at the given times, in order: each time with what the poll returned. -/
def observed : S → List ℕ → List (ℕ × Option V)
  | _, [] => []
  | s, t :: ts => (t, (poll t s).1) :: observed (poll t s).2 ts

/-- From time `p` on, every poll of `s` returns `none`. -/
def Over (s : S) (p : ℕ) : Prop :=
  ∃ I : S → ℕ → Prop, I s p ∧
    ∀ s p, I s p → ∀ t, p ≤ t → (poll t s).1 = none ∧ I (poll t s).2 t

/-- The machine `s` runs, is next polled between `p` and `q`, and from then on at most `d` after the
poll before. No poll of the running machine comes after `hi`, and the poll that ends it does not
come before `lo`. -/
def Ends (d lo hi : ℕ) (s : S) (p q : ℕ) : Prop :=
  ∃ I : S → ℕ → ℕ → Prop, I s p q ∧
    ∀ s p q, I s p q → ∀ t, p ≤ t → t ≤ q → t ≤ hi ∧
      ((poll t s).1 = none → lo ≤ t ∧ Over poll (poll t s).2 t) ∧
      ((poll t s).1 ≠ none → I (poll t s).2 t (t + d))

/-- Times at which a machine is polled: none before the one before it, and none more than `d` after
it. -/
def Schedule (d : ℕ) : ℕ → List ℕ → Prop
  | _, [] => True
  | p, t :: ts => p ≤ t ∧ t ≤ p + d ∧ Schedule d t ts

variable {poll} {d lo hi p q : ℕ} {s : S}

theorem Over.next (h : Over poll s p) {t : ℕ} (ht : p ≤ t) :
    (poll t s).1 = none ∧ Over poll (poll t s).2 t := by
  obtain ⟨I, hI, hclosed⟩ := h
  obtain ⟨hnone, hnext⟩ := hclosed s p hI t ht
  exact ⟨hnone, I, hnext, hclosed⟩

/-- A state that every poll leaves unchanged, returning `none`. -/
theorem Over.of_fixed (h : ∀ t, p ≤ t → poll t s = (none, s)) : Over poll s p := by
  refine ⟨fun s' p' => s' = s ∧ p ≤ p', ⟨rfl, le_rfl⟩, ?_⟩
  rintro _ p' ⟨rfl, hp⟩ t ht
  rw [h t (hp.trans ht)]
  exact ⟨rfl, rfl, hp.trans ht⟩

theorem Ends.le (h : Ends poll d lo hi s p q) {t : ℕ} (hp : p ≤ t) (hq : t ≤ q) : t ≤ hi := by
  obtain ⟨I, hI, hclosed⟩ := h
  exact (hclosed s p q hI t hp hq).1

theorem Ends.of_none (h : Ends poll d lo hi s p q) {t : ℕ} (hp : p ≤ t) (hq : t ≤ q)
    (hnone : (poll t s).1 = none) : lo ≤ t ∧ Over poll (poll t s).2 t := by
  obtain ⟨I, hI, hclosed⟩ := h
  exact (hclosed s p q hI t hp hq).2.1 hnone

theorem Ends.of_some (h : Ends poll d lo hi s p q) {t : ℕ} (hp : p ≤ t) (hq : t ≤ q)
    (hsome : (poll t s).1 ≠ none) : Ends poll d lo hi (poll t s).2 t (t + d) := by
  obtain ⟨I, hI, hclosed⟩ := h
  exact ⟨I, (hclosed s p q hI t hp hq).2.2 hsome, hclosed⟩

/-- A later bound on the end is also one. -/
theorem Ends.mono_hi (h : Ends poll d lo hi s p q) {hi' : ℕ} (hhi : hi ≤ hi') :
    Ends poll d lo hi' s p q := by
  obtain ⟨I, hI, hclosed⟩ := h
  refine ⟨I, hI, fun s p q hs t hp hq => ?_⟩
  obtain ⟨hle, hrest⟩ := hclosed s p q hs t hp hq
  exact ⟨hle.trans hhi, hrest⟩

theorem observed_of_over (h : Over poll s p) {ts : List ℕ} (hts : Schedule d p ts) :
    ∀ o ∈ observed poll s ts, o.2 = none := by
  induction ts generalizing s p with
  | nil =>
      intro o ho
      cases ho
  | cons t ts ih =>
      obtain ⟨hp, -, hts⟩ := hts
      obtain ⟨hnone, hover⟩ := h.next hp
      intro o ho
      rcases List.mem_cons.mp ho with rfl | ho
      · exact hnone
      · exact ih hover hts o ho

theorem le_of_mem_observed {ts : List ℕ} (hts : Schedule d p ts) :
    ∀ o ∈ observed poll s ts, p ≤ o.1 := by
  induction ts generalizing s p with
  | nil =>
      intro o ho
      cases ho
  | cons t ts ih =>
      obtain ⟨hp, -, hts⟩ := hts
      intro o ho
      rcases List.mem_cons.mp ho with rfl | ho
      · exact hp
      · exact hp.trans (ih hts o ho)

/-- A poll that returns `none` does not come before `lo`, and every later poll returns `none`. -/
theorem Ends.observed_none (h : Ends poll d lo hi s p (p + d)) {ts : List ℕ} (hts : Schedule d p ts)
    {before after : List (ℕ × Option V)} {t : ℕ}
    (hobs : observed poll s ts = before ++ (t, none) :: after) :
    lo ≤ t ∧ ∀ o ∈ after, o.2 = none := by
  induction ts generalizing s p before with
  | nil => exact absurd hobs (by simp [observed])
  | cons u ts ih =>
      obtain ⟨hp, hq, hts⟩ := hts
      rw [observed] at hobs
      by_cases hfirst : (poll u s).1 = none
      · obtain ⟨hlo, hover⟩ := h.of_none hp hq hfirst
        have hall := observed_of_over hover hts
        have hle : ∀ o ∈ observed poll (poll u s).2 ts, u ≤ o.1 := le_of_mem_observed hts
        cases before with
        | nil =>
            obtain ⟨hhead, rfl⟩ := List.cons.inj hobs
            obtain rfl : u = t := congrArg Prod.fst hhead
            exact ⟨hlo, hall⟩
        | cons o before =>
            obtain ⟨-, htail⟩ := List.cons.inj hobs
            rw [htail] at hall hle
            exact ⟨hlo.trans (hle (t, none) (by simp)), fun o ho => hall o (by simp [ho])⟩
      · cases before with
        | nil => exact absurd (congrArg Prod.snd (List.cons.inj hobs).1) hfirst
        | cons o before => exact ih (h.of_some hp hq hfirst) hts (List.cons.inj hobs).2

/-- No poll up to the first one that returns `none` comes after `hi`. -/
theorem Ends.observed_le (h : Ends poll d lo hi s p (p + d)) {ts : List ℕ} (hts : Schedule d p ts)
    {before after : List (ℕ × Option V)} {o : ℕ × Option V}
    (hobs : observed poll s ts = before ++ o :: after) (hbefore : ∀ b ∈ before, b.2 ≠ none) :
    o.1 ≤ hi := by
  induction ts generalizing s p before with
  | nil => exact absurd hobs (by simp [observed])
  | cons u ts ih =>
      obtain ⟨hp, hq, hts⟩ := hts
      rw [observed] at hobs
      cases before with
      | nil =>
          obtain ⟨rfl, -⟩ := List.cons.inj hobs
          exact h.le hp hq
      | cons b before =>
          obtain ⟨rfl, htail⟩ := List.cons.inj hobs
          have hsome : (poll u s).1 ≠ none := hbefore (u, (poll u s).1) (by simp)
          exact ih (h.of_some hp hq hsome) hts htail fun b hb => hbefore b (by simp [hb])

end Polling
