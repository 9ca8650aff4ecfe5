import Mathlib.Data.Int.GCD
import Mathlib.Data.Nat.GCD.Basic
import Mathlib.Data.Int.ModEq
import Mathlib.Tactic.Linarith
import Mathlib.Tactic.LinearCombination
import Mathlib.Tactic.Ring

/-! A ramp in integers. A value climbs by `d` in `D` ticks; its slope is first divided out to a whole
number of `M`-ths a tick, and multiplied back by the ticks elapsed. Both divisions truncate. The ramp
stays under `d` and never falls; how far it may lag behind the straight line depends on the remainder
of the first division alone. -/

namespace Ramp

variable (d D M : ℕ)

/-- The slope, in `M`-ths a tick. -/
def slope : ℕ := d * M / D

/-- What the first division leaves. -/
def rest : ℕ := d * M % D

/-- The climb after `e` ticks. -/
def climb (e : ℕ) : ℕ := slope d D M * e / M

/-- The ramp is never more than one below the straight line. -/
def Close : Prop := ∀ e ≤ D, d * e ≤ D * (climb d D M e + 1)

theorem slope_mul_add_rest : D * slope d D M + rest d D M = d * M := Nat.div_add_mod _ _

variable {d D M}

theorem slope_mul_le {e : ℕ} (he : e ≤ D) : slope d D M * e ≤ d * M := by
  calc slope d D M * e ≤ slope d D M * D := Nat.mul_le_mul_left _ he
    _ ≤ d * M := Nat.div_mul_le_self _ _

theorem climb_le {e : ℕ} (he : e ≤ D) : climb d D M e ≤ d :=
  Nat.div_le_of_le_mul (by rw [Nat.mul_comm M]; exact slope_mul_le he)

theorem climb_mono {e f : ℕ} (hef : e ≤ f) : climb d D M e ≤ climb d D M f :=
  Nat.div_le_div_right (Nat.mul_le_mul_left _ hef)

/-- The straight line, the ramp below it, and the two remainders between them. -/
theorem line_eq (e : ℕ) :
    M * (d * e) =
      M * (D * climb d D M e) + D * (slope d D M * e % M) + rest d D M * e := by
  have hclimb : M * climb d D M e + slope d D M * e % M = slope d D M * e := Nat.div_add_mod _ _
  calc M * (d * e) = (D * slope d D M + rest d D M) * e := by rw [slope_mul_add_rest]; ring
    _ = D * (slope d D M * e) + rest d D M * e := by ring
    _ = D * (M * climb d D M e + slope d D M * e % M) + rest d D M * e := by rw [hclimb]
    _ = _ := by ring

theorem climb_mul_le (hM : 0 < M) (e : ℕ) : D * climb d D M e ≤ d * e := by
  refine Nat.le_of_mul_le_mul_left ?_ hM
  rw [line_eq (d := d) (D := D) e]
  omega

theorem close_at_iff (hM : 0 < M) (e : ℕ) :
    d * e ≤ D * (climb d D M e + 1) ↔ D * (slope d D M * e % M) + rest d D M * e ≤ D * M := by
  rw [← Nat.mul_le_mul_left_iff hM, line_eq (d := d) (D := D) e]
  have h : M * (D * (climb d D M e + 1)) = M * (D * climb d D M e) + D * M := by ring
  omega

/-- When the ramp stays close to its line: the first division leaves nothing, or what it leaves
divides both the scale and the slope, or it divides the rise and the ticks and the ticks run out
before the lag adds up. -/
def Steady (d D M : ℕ) : Prop :=
  d * M % D = 0 ∨
  (d * M % D ∣ M ∧ d * M % D * D ∣ d * M - d * M % D) ∨
  (d * M % D ∣ D ∧ d * M % D ∣ d ∧ (d * M % D - 1) * D < d * M % D * M)

instance : Decidable (Steady d D M) := inferInstanceAs (Decidable (_ ∨ _ ∨ _))

theorem rest_dvd_slope_iff (hD : 0 < D) :
    rest d D M * D ∣ d * M - rest d D M ↔ rest d D M ∣ slope d D M := by
  have h : d * M - rest d D M = slope d D M * D := by
    rw [← slope_mul_add_rest d D M, Nat.add_sub_cancel, Nat.mul_comm]
  rw [h, Nat.mul_dvd_mul_iff_right hD]

/-- A remainder that divides both the scale and the slope divides what the second division leaves. -/
theorem close_of_dvd (hM : 0 < M) (hscale : rest d D M ∣ M) (hslope : rest d D M ∣ slope d D M) :
    Close d D M := by
  intro e he
  rw [close_at_iff hM]
  have hdvd : rest d D M ∣ slope d D M * e % M :=
    (Nat.dvd_mod_iff hscale).mpr (hslope.mul_right e)
  obtain ⟨t, ht⟩ := hscale
  obtain ⟨s, hs⟩ := hdvd
  have hlt : slope d D M * e % M < M := Nat.mod_lt _ hM
  generalize slope d D M * e % M = m at hs hlt
  generalize rest d D M = r at ht hs
  subst ht hs
  have hst : s < t := Nat.lt_of_mul_lt_mul_left hlt
  calc D * (r * s) + r * e ≤ D * (r * s) + r * D := by gcongr
    _ = D * (r * (s + 1)) := by ring
    _ ≤ D * (r * t) := by gcongr; omega

/-- What the second division leaves at tick `e`, where it is fixed by `e` up to whole scales, is small
enough as long as the ticks run out before a whole scale is lagged behind. -/
theorem left_add_le {r x s e : ℕ} (hr : 0 < r) (hx : (r - 1) * x < M) (hs : s < M) (he : e ≤ r * x)
    (hdvd : M ∣ x * s + e) : x * s + e ≤ x * M := by
  by_contra hgt
  obtain ⟨u, hu⟩ := hdvd
  have hux : x + 1 ≤ u := by
    by_contra h
    have : M * u ≤ M * x := Nat.mul_le_mul_left _ (by omega)
    rw [Nat.mul_comm x M] at hgt
    omega
  have hlong : M * x + M ≤ x * s + e := by
    rw [hu]
    calc M * x + M = M * (x + 1) := by ring
      _ ≤ M * u := Nat.mul_le_mul_left _ hux
  have hsx : x * s + x ≤ M * x := by
    calc x * s + x = x * (s + 1) := by ring
      _ ≤ x * M := Nat.mul_le_mul_left _ hs
      _ = M * x := Nat.mul_comm _ _
  have hrx : r * x = (r - 1) * x + x := by
    obtain ⟨t, rfl⟩ : ∃ t, r = t + 1 := ⟨r - 1, by omega⟩
    simp [Nat.add_mul]
  omega

/-- A ramp whose lag comes back to a whole step once every `D / rest` ticks, and ends before the
steps outrun the scale. -/
theorem close_of_short (hM : 0 < M) (hticks : rest d D M ∣ D) (hrise : rest d D M ∣ d)
    (hlt : (rest d D M - 1) * D < rest d D M * M) : Close d D M := by
  intro e he
  rw [close_at_iff hM]
  have hsum := slope_mul_add_rest d D M
  have hdiv : M * (slope d D M * e / M) + slope d D M * e % M = slope d D M * e :=
    Nat.div_add_mod _ _
  have hs : slope d D M * e % M < M := Nat.mod_lt _ hM
  generalize slope d D M * e / M = q at hdiv
  generalize slope d D M * e % M = s at hdiv hs ⊢
  generalize slope d D M = k at hdiv hsum
  generalize rest d D M = r at *
  obtain ⟨x, rfl⟩ := hticks
  obtain ⟨y, rfl⟩ := hrise
  have hr : 0 < r := by
    by_contra h
    obtain rfl : r = 0 := by omega
    simp at hlt
  have hone : y * M = x * k + 1 := by
    refine Nat.eq_of_mul_eq_mul_left hr ?_
    calc r * (y * M) = r * x * k + r := by rw [hsum]; ring
      _ = r * (x * k + 1) := by ring
  have hx : (r - 1) * x < M := by
    refine Nat.lt_of_mul_lt_mul_left (a := r) ?_
    calc r * ((r - 1) * x) = (r - 1) * (r * x) := by ring
      _ < r * M := hlt
  -- the ticks that leave `s` are those congruent to `x * (M - s)`
  have hmod : M * (y * e) = M * (x * q) + (x * s + e) := by
    calc M * (y * e) = y * M * e := by ring
      _ = (x * k + 1) * e := by rw [hone]
      _ = x * (k * e) + e := by ring
      _ = x * (M * q + s) + e := by rw [hdiv]
      _ = _ := by ring
  have hdvd : M ∣ x * s + e := (Nat.dvd_add_right (Dvd.intro _ rfl)).mp (hmod ▸ Dvd.intro _ rfl)
  have hbound : x * s + e ≤ x * M := left_add_le hr hx hs he hdvd
  calc r * x * s + r * e = r * (x * s + e) := by ring
    _ ≤ r * (x * M) := Nat.mul_le_mul_left _ hbound
    _ = r * x * M := by ring

/-- The ticks at which what the second division leaves is largest. -/
theorem exists_lagging (a b : ℕ) (hb : 0 < b) (hab : a.Coprime b) :
    ∃ x q, 0 < x ∧ x ≤ b ∧ a * x + 1 = b * q := by
  obtain ⟨y, hy⟩ := Int.mod_coprime hab
  have hmod : (a : ℤ) * y ≡ 1 [ZMOD b] := hy
  have hb' : (b : ℤ) ≠ 0 := by omega
  refine ⟨b - (y % b).toNat, ?_⟩
  have hlt := Int.emod_lt_of_pos y (by omega : (0 : ℤ) < b)
  have hnn := Int.emod_nonneg y hb'
  have hdvd : (b : ℤ) ∣ a * ((b : ℤ) - y % b) + 1 := by
    have h1 : (b : ℤ) ∣ 1 - a * y := Int.modEq_iff_dvd.mp hmod
    have h2 : (a : ℤ) * (b - y % b) + 1 = b * a + (1 - a * y) + b * (a * (y / b)) := by
      have := Int.emod_add_mul_ediv y b
      linear_combination (-(a : ℤ)) * this
    rw [h2]
    exact Int.dvd_add (Int.dvd_add (Dvd.intro _ rfl) h1) (Dvd.intro _ rfl)
  have hcast : ((b - (y % b).toNat : ℕ) : ℤ) = b - y % b := by omega
  obtain ⟨q, hq⟩ : b ∣ a * (b - (y % b).toNat) + 1 := by
    rw [← Int.natCast_dvd_natCast]
    push_cast [hcast]
    exact hdvd
  exact ⟨q, by omega, by omega, hq⟩

theorem mod_of_add_eq {a b g q : ℕ} (hg : 0 < g) (hgb : g ≤ b) (h : a + g = b * q) :
    a % b = b - g := by
  obtain ⟨p, rfl⟩ : ∃ p, q = p + 1 := by
    rcases q with - | p
    · omega
    · exact ⟨p, rfl⟩
  have ha : a = b * p + (b - g) := by
    rw [Nat.mul_add, Nat.mul_one] at h
    omega
  rw [ha, Nat.mul_add_mod, Nat.mod_eq_of_lt (by omega)]

/-- Where what the second division leaves is largest, a ramp that stays close has little else to lag. -/
theorem lag_mul_le {g k b r x q : ℕ} (hg : 0 < g) (hb : 0 < b) (hq : k * x + 1 = b * q)
    (hclose : ∀ e ≤ D, D * (k * g * e % (b * g)) + g * r * e ≤ D * (b * g)) :
    ∀ t, x + t * b ≤ D → r * (x + t * b) ≤ D := by
  intro t ht
  have hmod : k * g * (x + t * b) + g = b * g * (q + k * t) := by
    calc k * g * (x + t * b) + g = g * (k * x + 1) + g * (k * (t * b)) := by ring
      _ = g * (b * q) + g * (k * (t * b)) := by rw [hq]
      _ = _ := by ring
  have hleft : k * g * (x + t * b) % (b * g) = b * g - g :=
    mod_of_add_eq hg (Nat.le_mul_of_pos_left g hb) hmod
  have hat := hclose _ ht
  rw [hleft] at hat
  have hsplit : D * (b * g) = D * (b * g - g) + D * g := by
    rw [← Nat.mul_add, Nat.sub_add_cancel (Nat.le_mul_of_pos_left g hb)]
  refine Nat.le_of_mul_le_mul_left (?_ : g * (r * (x + t * b)) ≤ g * D) hg
  calc g * (r * (x + t * b)) = g * r * (x + t * b) := by ring
    _ ≤ D * g := by omega
    _ = g * D := Nat.mul_comm _ _

/-- A lag of at least two parts a tick must not be met a second time, and fixes the ticks and the
rise. -/
theorem ticks_eq_of_lag {k r b x q : ℕ} (hr : 1 < r) (hx : 0 < x) (hxb : x ≤ b) (hbD : b ≤ D)
    (hsum : D * k + r = d * b) (hq : k * x + 1 = b * q)
    (hlag : ∀ t, x + t * b ≤ D → r * (x + t * b) ≤ D) :
    D = r * x ∧ d = r * q ∧ D < x + b := by
  have hb : 0 < b := by omega
  obtain ⟨m, rfl⟩ := Nat.exists_eq_add_of_le (show r * x ≤ D by simpa using hlag 0 (by omega))
  have hwhole : d * x * b + m = (r * x + m) * q * b := by
    have hone : (r * x + m) * (k * x + 1) = (r * x + m) * q * b := by rw [hq]; ring
    have hall : ((r * x + m) * k + r) * x = d * x * b := by rw [hsum]; ring
    have : (r * x + m) * (k * x + 1) = ((r * x + m) * k + r) * x + m := by ring
    omega
  obtain ⟨t, rfl⟩ : b ∣ m :=
    (Nat.dvd_add_right (Dvd.intro_left (d * x) rfl)).mp (hwhole ▸ Dvd.intro_left _ rfl)
  have hxrx : x ≤ r * x := Nat.le_mul_of_pos_left x (by omega)
  -- a second meeting, `t` periods on, would come too late
  have ht : t = 0 := by
    by_contra hne
    have := hlag t (by rw [Nat.mul_comm t b]; omega)
    have hbt : 0 < b * t := Nat.mul_pos hb (Nat.pos_of_ne_zero hne)
    have h2 : 2 * (t * b) ≤ r * (t * b) := Nat.mul_le_mul_right _ hr
    rw [Nat.mul_add] at this
    rw [Nat.mul_comm t b] at *
    omega
  subst ht
  refine ⟨by omega, ?_, ?_⟩
  · refine Nat.eq_of_mul_eq_mul_right hb ?_
    calc d * b = (r * x + b * 0) * k + r := hsum.symm
      _ = r * (k * x + 1) := by ring
      _ = r * q * b := by rw [hq]; ring
  · by_contra hge
    have := hlag 1 (by omega)
    have h2 : 0 < r * b := Nat.mul_pos (by omega) hb
    rw [Nat.mul_add, Nat.one_mul] at this
    omega

/-- A ramp that stays close to its line is steady. -/
theorem steady_of_close (hM : 0 < M) (hDM : M ≤ D) (hclose : Close d D M) : Steady d D M := by
  have hD : 0 < D := by omega
  have hclose' := fun e he => (close_at_iff hM e).mp (hclose e he)
  have hsum := slope_mul_add_rest d D M
  change rest d D M = 0 ∨ (rest d D M ∣ M ∧ rest d D M * D ∣ d * M - rest d D M) ∨
    (rest d D M ∣ D ∧ rest d D M ∣ d ∧ (rest d D M - 1) * D < rest d D M * M)
  rw [rest_dvd_slope_iff hD]
  generalize slope d D M = k at *
  generalize rest d D M = r at *
  rcases Nat.eq_zero_or_pos r with h0 | hr
  · exact Or.inl h0
  refine Or.inr ?_
  have hg : 0 < Nat.gcd k M := Nat.gcd_pos_of_pos_right _ hM
  obtain ⟨k', M', hcop, hk, hM'⟩ := Nat.exists_coprime k M
  generalize Nat.gcd k M = g at hg hk hM'
  subst hk hM'
  obtain ⟨r', rfl⟩ : g ∣ r := by
    refine (Nat.dvd_add_right (Dvd.intro_left (D * k') rfl)).mp (?_ : g ∣ D * k' * g + r)
    rw [Nat.mul_assoc, hsum]
    exact Dvd.intro_left (d * M') (by ring)
  rcases Nat.lt_or_ge 1 r' with hr' | hr'
  · refine Or.inr ?_
    have hM'0 : 0 < M' := Nat.pos_of_mul_pos_right hM
    obtain ⟨x, q, hx, hxM, hq⟩ := exists_lagging k' M' hM'0 hcop
    have hlag := lag_mul_le hg hM'0 hq hclose'
    have hsum' : D * k' + r' = d * M' := by
      refine Nat.eq_of_mul_eq_mul_left hg ?_
      calc g * (D * k' + r') = D * (k' * g) + g * r' := by ring
        _ = d * (M' * g) := hsum
        _ = g * (d * M') := by ring
    have hM'D : M' ≤ D := (Nat.le_mul_of_pos_right M' hg).trans hDM
    obtain ⟨hticks, hrise, hshort⟩ := ticks_eq_of_lag hr' hx hxM hM'D hsum' hq hlag
    have hg1 : g = 1 := by
      by_contra hne
      have : M' * 2 ≤ M' * g := Nat.mul_le_mul_left _ (by omega)
      omega
    subst hg1
    rw [Nat.one_mul, Nat.mul_one]
    refine ⟨hticks ▸ Dvd.intro _ rfl, hrise ▸ Dvd.intro _ rfl, ?_⟩
    calc (r' - 1) * D = r' * ((r' - 1) * x) := by rw [hticks]; ring
      _ < r' * M' := by
        refine Nat.mul_lt_mul_of_pos_left ?_ (by omega)
        rw [Nat.sub_mul]
        omega
  · have : r' = 1 := by
      have := Nat.pos_of_mul_pos_left hr
      omega
    subst this
    exact Or.inl ⟨by simp, by simp⟩

theorem close_iff_steady (hM : 0 < M) (hDM : M ≤ D) : Close d D M ↔ Steady d D M := by
  have hD : 0 < D := by omega
  refine ⟨steady_of_close hM hDM, ?_⟩
  rintro (hnone | ⟨hscale, hslope⟩ | ⟨hticks, hrise, hlt⟩)
  · intro e _
    rw [close_at_iff hM, show rest d D M = 0 from hnone, Nat.zero_mul, Nat.add_zero]
    exact Nat.mul_le_mul_left _ (Nat.mod_lt _ hM).le
  · exact close_of_dvd hM hscale ((rest_dvd_slope_iff hD).mp hslope)
  · exact close_of_short hM hticks hrise hlt

end Ramp
