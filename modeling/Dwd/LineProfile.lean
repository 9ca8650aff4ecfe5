import Dwd.Generator
import Dwd.LibSlope

/-! The line generator of a build that checks its integer operations, where `Generator.lean` has the one
that wraps. Within the documented limits no operation overflows, the two builds agree, and the value is
a ramp between the two rates. -/

namespace Dwd

namespace I64

/-- An `i64` operation of exact result `x`, `none` when it overflows. -/
def exact (x : ℤ) : Option ℤ := if -2 ^ 63 ≤ x ∧ x < 2 ^ 63 then some x else none

/-- `i64::checked_sub`. -/
def checkedSub (x y : ℤ) : Option ℤ := exact (x - y)

/-- `i64::checked_mul`. -/
def checkedMul (x y : ℤ) : Option ℤ := exact (x * y)

/-- `i64::checked_add`. -/
def checkedAdd (x y : ℤ) : Option ℤ := exact (x + y)

/-- `i64::checked_div`, `none` also for a zero divisor. -/
def checkedDiv (x y : ℤ) : Option ℤ := if y = 0 then none else exact (x.tdiv y)

theorem exact_eq_some_iff {x y : ℤ} : exact x = some y ↔ (-2 ^ 63 ≤ x ∧ x < 2 ^ 63) ∧ x = y := by
  unfold exact
  by_cases h : -2 ^ 63 ≤ x ∧ x < 2 ^ 63
  · rw [if_pos h, Option.some.injEq, and_iff_right h]
  · rw [if_neg h]
    exact ⟨fun hx => (Option.some_ne_none y hx.symm).elim, fun hx => absurd hx.1 h⟩

theorem exact_of_abs_lt {x : ℤ} (h : |x| < 2 ^ 63) : exact x = some x :=
  exact_eq_some_iff.mpr ⟨⟨(abs_lt.mp h).1.le, (abs_lt.mp h).2⟩, rfl⟩

theorem wrapI64_of_exact {x y : ℤ} (h : exact x = some y) : wrapI64 x = y := by
  obtain ⟨hx, rfl⟩ := exact_eq_some_iff.mp h
  exact Int.bmod_eq_of_le_mul_two (by norm_num; omega) (by norm_num; omega)

end I64

theorem wrapI64_of_lt {x : ℤ} (hlo : -2 ^ 63 ≤ x) (hhi : x < 2 ^ 63) : wrapI64 x = x :=
  I64.wrapI64_of_exact (I64.exact_eq_some_iff.mpr ⟨⟨hlo, hhi⟩, rfl⟩)

theorem asI64_of_lt {n : ℕ} (h : n < 2 ^ 63) : asI64 n = n :=
  wrapI64_of_lt (by omega) (by omega)

theorem asU64_of_lt {n : ℕ} (h : n < 2 ^ 64) : asU64 n = n := by
  unfold asU64
  omega

namespace LineGenerator

/-- `LineGenerator::new`, with overflow checks: `none` when it panics. -/
def checkedNew (rps0 rps1 : ℕ) (duration : ℕ) (now : ℕ) : Option LineGenerator := do
  let diff ← I64.checkedSub (asI64 rps1) (asI64 rps0)
  let rise ← I64.checkedMul diff 1000000000
  let k ← I64.checkedDiv rise (asI64 duration)
  return { k := k, b := rps0, t0 := now, duration := duration }

/-- `current_at` of a line, with overflow checks: the outer `none` when it panics. -/
def checkedCurrentAt (now : ℕ) (g : LineGenerator) : Option (Option ℕ) :=
  let elapsed := Instant.durationSince now g.t0
  if g.duration < elapsed then some none
  else do
    let climbed ← I64.checkedMul g.k (asI64 elapsed)
    let whole ← I64.checkedDiv climbed 1000000000
    let v ← I64.checkedAdd whole (asI64 g.b)
    return some (asU64 v)

/-- What a checked build computes without a panic, a release build computes too. -/
theorem new_of_checkedNew {rps0 rps1 duration now : ℕ} {g : LineGenerator}
    (h : checkedNew rps0 rps1 duration now = some g) : new rps0 rps1 duration now = .ok g := by
  simp only [checkedNew, Option.bind_eq_bind, Option.bind_eq_some_iff, Option.pure_def,
    Option.some.injEq] at h
  obtain ⟨diff, hdiff, rise, hrise, k, hk, rfl⟩ := h
  have hw1 := I64.wrapI64_of_exact hdiff
  have hw2 := I64.wrapI64_of_exact hrise
  unfold I64.checkedDiv at hk
  split at hk
  · cases hk
  · rename_i hnz
    obtain ⟨hrange, rfl⟩ := I64.exact_eq_some_iff.mp hk
    have hmin : ¬ (rise = -2 ^ 63 ∧ asI64 duration = -1) := by
      rintro ⟨rfl, hm⟩
      rw [hm] at hrange
      norm_num at hrange
    simp only [new, hw1, hw2, if_neg hnz, if_neg hmin]

theorem currentAt_of_checkedCurrentAt {now : ℕ} {g : LineGenerator} {v : Option ℕ}
    (h : g.checkedCurrentAt now = some v) : g.currentAt now = v := by
  unfold checkedCurrentAt at h
  unfold currentAt
  by_cases hover : g.duration < Instant.durationSince now g.t0
  · simp only [if_pos hover, Option.some.injEq] at h ⊢
    exact h
  · simp only [if_neg hover, Option.bind_eq_bind, Option.bind_eq_some_iff, Option.pure_def,
      Option.some.injEq] at h ⊢
    obtain ⟨climbed, hclimbed, whole, hwhole, sum, hsum, rfl⟩ := h
    have hw1 := I64.wrapI64_of_exact hclimbed
    have hw2 := I64.wrapI64_of_exact hsum
    obtain ⟨-, rfl⟩ := I64.exact_eq_some_iff.mp hwhole
    rw [hw1, hw2]

/-- The documented limits of a line: both rates are 63-bit, and at most 1 Grps apart. -/
structure Limits (rps0 rps1 : ℕ) : Prop where
  rps0_lt : rps0 < 2 ^ 63
  rps1_lt : rps1 < 2 ^ 63
  rise_le : rps1 ≤ rps0 + 1000000000
  fall_le : rps0 ≤ rps1 + 1000000000

/-- The rates differ by `d` in the direction `s`. -/
structure Heads (rps0 rps1 : ℕ) (s : ℤ) (d : ℕ) : Prop where
  sign : s = 1 ∨ s = -1
  diff : (rps1 : ℤ) - rps0 = s * d

theorem exists_heads (rps0 rps1 : ℕ) :
    ∃ s, Heads rps0 rps1 s ((rps1 : ℤ) - rps0).natAbs := by
  rcases Nat.le_total rps0 rps1 with h | h
  · exact ⟨1, Or.inl rfl, by omega⟩
  · exact ⟨-1, Or.inr rfl, by omega⟩

namespace Heads

variable {rps0 rps1 d : ℕ} {s : ℤ}

theorem abs_mul (h : Heads rps0 rps1 s d) (n : ℕ) : |s * n| = n := by
  rcases h.sign with rfl | rfl
  · rw [one_mul, Nat.abs_cast]
  · rw [neg_one_mul, abs_neg, Nat.abs_cast]

theorem tdiv (h : Heads rps0 rps1 s d) (n m : ℕ) : (s * n).tdiv m = s * (n / m : ℕ) := by
  rcases h.sign with rfl | rfl
  · rw [one_mul, one_mul]
    exact Int.natCast_tdiv_eq_ediv.trans (Int.natCast_ediv n m).symm
  · rw [neg_one_mul, neg_one_mul, Int.neg_tdiv]
    exact congrArg Neg.neg (Int.natCast_tdiv_eq_ediv.trans (Int.natCast_ediv n m).symm)

theorem le_grps (h : Heads rps0 rps1 s d) (hlim : Limits rps0 rps1) : d ≤ 1000000000 := by
  have hrise := hlim.rise_le
  have hfall := hlim.fall_le
  have hdiff := h.diff
  rcases h.sign with rfl | rfl <;> omega

/-- A point on the way from `rps0` to `rps1`. -/
theorem between (h : Heads rps0 rps1 s d) {c : ℕ} (hc : c ≤ d) :
    ∃ v : ℕ, (rps0 : ℤ) + s * c = v ∧ min rps0 rps1 ≤ v ∧ v ≤ max rps0 rps1 := by
  have hdiff := h.diff
  rcases h.sign with rfl | rfl
  · exact ⟨rps0 + c, by omega, by omega, by omega⟩
  · exact ⟨rps0 - c, by omega, by omega, by omega⟩

end Heads

theorem checkedNew_eq {rps0 rps1 d : ℕ} {s : ℤ} (h : Heads rps0 rps1 s d)
    (hlim : Limits rps0 rps1) {duration : ℕ} (hpos : 0 < duration) (hmax : duration < 2 ^ 63)
    (now : ℕ) :
    checkedNew rps0 rps1 duration now =
      some { k := s * Ramp.slope d duration 1000000000, b := rps0, t0 := now,
             duration := duration } := by
  have hd := h.le_grps hlim
  have hsub : I64.checkedSub rps1 rps0 = some (s * d) := by
    rw [I64.checkedSub, h.diff]
    exact I64.exact_of_abs_lt (by rw [h.abs_mul]; omega)
  have hmul : I64.checkedMul (s * d) 1000000000 = some (s * (d * 1000000000 : ℕ)) := by
    have hassoc : s * d * 1000000000 = s * (d * 1000000000 : ℕ) := by push_cast; ring
    rw [I64.checkedMul, hassoc]
    exact I64.exact_of_abs_lt (by rw [h.abs_mul]; omega)
  have hdiv : I64.checkedDiv (s * (d * 1000000000 : ℕ)) duration =
      some (s * Ramp.slope d duration 1000000000) := by
    have hle : Ramp.slope d duration 1000000000 ≤ d * 1000000000 := Nat.div_le_self _ _
    rw [I64.checkedDiv, if_neg (by omega)]
    refine (congrArg I64.exact (h.tdiv _ _)).trans (I64.exact_of_abs_lt ?_)
    rw [h.abs_mul]
    exact_mod_cast (by omega : Ramp.slope d duration 1000000000 < 2 ^ 63)
  rw [checkedNew, asI64_of_lt hlim.rps0_lt, asI64_of_lt hlim.rps1_lt, asI64_of_lt hmax, hsub]
  simp only [Option.bind_eq_bind, Option.bind_some, hmul, hdiv, Option.pure_def]

theorem checkedCurrentAt_eq {rps0 rps1 d : ℕ} {s : ℤ} (h : Heads rps0 rps1 s d)
    (hlim : Limits rps0 rps1) {duration : ℕ} (hmax : duration < 2 ^ 63) {e : ℕ}
    (he : e ≤ duration) (t0 : ℕ) :
    checkedCurrentAt (t0 + e) { k := s * Ramp.slope d duration 1000000000, b := rps0, t0 := t0,
                                duration := duration } =
      some (some (asU64 (rps0 + s * Ramp.climb d duration 1000000000 e))) := by
  have hd := h.le_grps hlim
  have hclimb : Ramp.climb d duration 1000000000 e ≤ d := Ramp.climb_le he
  have hmul : I64.checkedMul (s * Ramp.slope d duration 1000000000) e =
      some (s * (Ramp.slope d duration 1000000000 * e : ℕ)) := by
    have hle : Ramp.slope d duration 1000000000 * e ≤ d * 1000000000 := Ramp.slope_mul_le he
    have hassoc : s * Ramp.slope d duration 1000000000 * e =
        s * (Ramp.slope d duration 1000000000 * e : ℕ) := by push_cast; ring
    rw [I64.checkedMul, hassoc]
    exact I64.exact_of_abs_lt (by rw [h.abs_mul]; exact_mod_cast by omega)
  have hdiv : I64.checkedDiv (s * (Ramp.slope d duration 1000000000 * e : ℕ)) 1000000000 =
      some (s * Ramp.climb d duration 1000000000 e) := by
    have htdiv := h.tdiv (Ramp.slope d duration 1000000000 * e) 1000000000
    rw [I64.checkedDiv, if_neg (by omega)]
    refine (congrArg I64.exact htdiv).trans (I64.exact_of_abs_lt ?_)
    rw [h.abs_mul]
    exact_mod_cast (by omega : Ramp.climb d duration 1000000000 e < 2 ^ 63)
  have hadd : I64.checkedAdd (s * Ramp.climb d duration 1000000000 e) rps0 =
      some (rps0 + s * Ramp.climb d duration 1000000000 e) := by
    obtain ⟨v, hv, hmin, hv'⟩ := h.between hclimb
    have h0 := hlim.rps0_lt
    have h1 := hlim.rps1_lt
    rw [I64.checkedAdd, add_comm, hv]
    exact I64.exact_of_abs_lt (by rw [Nat.abs_cast]; omega)
  have helapsed : Instant.durationSince (t0 + e) t0 = e := Nat.add_sub_cancel_left t0 e
  simp only [checkedCurrentAt, helapsed, if_neg (Nat.not_lt.mpr he), asI64_of_lt hlim.rps0_lt,
    asI64_of_lt (he.trans_lt hmax), hmul, hdiv, hadd, Option.bind_eq_bind, Option.bind_some,
    Option.pure_def]

/-- The value of a line generator `e` nanoseconds after its activation, as the integer formula has it. -/
theorem exists_value {rps0 rps1 d : ℕ} {s : ℤ} (h : Heads rps0 rps1 s d)
    (hlim : Limits rps0 rps1) {duration : ℕ} (hpos : 0 < duration) (hmax : duration < 2 ^ 63)
    (now t0 : ℕ) :
    ∃ g, checkedNew rps0 rps1 duration now = some g ∧ ∀ e ≤ duration, ∃ v : ℕ,
      (v : ℤ) = rps0 + s * Ramp.climb d duration 1000000000 e ∧
      min rps0 rps1 ≤ v ∧ v ≤ max rps0 rps1 ∧
      (g.activateAt t0).checkedCurrentAt (t0 + e) = some (some v) := by
  refine ⟨_, checkedNew_eq h hlim hpos hmax now, fun e he => ?_⟩
  obtain ⟨v, hv, hmin, hle⟩ := h.between (Ramp.climb_le (M := 1000000000) he)
  refine ⟨v, hv.symm, hmin, hle, ?_⟩
  have h0 := hlim.rps0_lt
  have h1 := hlim.rps1_lt
  refine (checkedCurrentAt_eq h hlim hmax he t0).trans ?_
  rw [hv, asU64_of_lt (by omega)]

/-- A line within the limits is built and polled without an overflow, stays between its rates, and
moves from the first to the second. -/
theorem line_bounded {rps0 rps1 duration : ℕ} (hlim : Limits rps0 rps1) (hpos : 0 < duration)
    (hmax : duration < 2 ^ 63) (now t0 : ℕ) :
    ∃ g, checkedNew rps0 rps1 duration now = some g ∧ new rps0 rps1 duration now = .ok g ∧
      ∃ v : ℕ → ℕ,
        (∀ e ≤ duration,
          (g.activateAt t0).checkedCurrentAt (t0 + e) = some (some (v e)) ∧
          (g.activateAt t0).currentAt (t0 + e) = some (v e) ∧
          min rps0 rps1 ≤ v e ∧ v e ≤ max rps0 rps1) ∧
        ∀ e f, e ≤ f → f ≤ duration →
          (rps0 ≤ rps1 → v e ≤ v f) ∧ (rps1 ≤ rps0 → v f ≤ v e) := by
  obtain ⟨s, h⟩ := exists_heads rps0 rps1
  obtain ⟨g, hg, hvalue⟩ := exists_value h hlim hpos hmax now t0
  choose! v hv hmin hle hcur using hvalue
  refine ⟨g, hg, new_of_checkedNew hg, v, fun e he => ?_, fun e f hef hf => ?_⟩
  · exact ⟨hcur e he, currentAt_of_checkedCurrentAt (hcur e he), hmin e he, hle e he⟩
  · have hmono : Ramp.climb ((rps1 : ℤ) - rps0).natAbs duration 1000000000 e ≤
        Ramp.climb ((rps1 : ℤ) - rps0).natAbs duration 1000000000 f := Ramp.climb_mono hef
    have hcf : Ramp.climb ((rps1 : ℤ) - rps0).natAbs duration 1000000000 f ≤
        ((rps1 : ℤ) - rps0).natAbs := Ramp.climb_le hf
    have hve := hv e (hef.trans hf)
    have hvf := hv f hf
    have hdiff := h.diff
    rcases h.sign with rfl | rfl <;> constructor <;> intro hdir <;> omega

theorem line_bounded_down :
    ∃ g, checkedNew 1000000000 0 1 5 = some g ∧ new 1000000000 0 1 5 = .ok g ∧
      ∃ v : ℕ → ℕ,
        (∀ e ≤ 1,
          (g.activateAt 7).checkedCurrentAt (7 + e) = some (some (v e)) ∧
          (g.activateAt 7).currentAt (7 + e) = some (v e) ∧
          min 1000000000 0 ≤ v e ∧ v e ≤ max 1000000000 0) ∧
        ∀ e f, e ≤ f → f ≤ 1 →
          (1000000000 ≤ 0 → v e ≤ v f) ∧ (0 ≤ 1000000000 → v f ≤ v e) :=
  line_bounded ⟨by decide, by decide, by decide, by decide⟩ (by decide) (by decide) 5 7

/-- The straight line from `rps0` to `rps1`. -/
def lineAt (rps0 rps1 duration e : ℕ) : ℚ := rps0 + ((rps1 : ℚ) - rps0) * e / duration

theorem abs_sub_lineAt_le_one_iff {rps0 rps1 d : ℕ} {s : ℤ} (h : Heads rps0 rps1 s d)
    {duration : ℕ} (hpos : 0 < duration) {e v : ℕ}
    (hv : (v : ℤ) = rps0 + s * Ramp.climb d duration 1000000000 e) :
    |(v : ℚ) - lineAt rps0 rps1 duration e| ≤ 1 ↔
      d * e ≤ duration * (Ramp.climb d duration 1000000000 e + 1) := by
  have hpos' : (0 : ℚ) < duration := Nat.cast_pos.mpr hpos
  have hlag : duration * Ramp.climb d duration 1000000000 e ≤ d * e :=
    Ramp.climb_mul_le (by decide) e
  have hlag' : (0 : ℚ) ≤ d * e / duration - Ramp.climb d duration 1000000000 e := by
    rw [sub_nonneg, le_div_iff₀ hpos', mul_comm]
    exact_mod_cast hlag
  have hvq : (v : ℚ) = rps0 + s * Ramp.climb d duration 1000000000 e := by exact_mod_cast hv
  have hdq : (rps1 : ℚ) - rps0 = s * d := by exact_mod_cast h.diff
  have hsub : (v : ℚ) - lineAt rps0 rps1 duration e =
      -s * (d * e / duration - Ramp.climb d duration 1000000000 e) := by
    rw [lineAt, hvq, hdq]
    ring
  have habs : |(-s : ℚ)| = 1 := by
    rcases h.sign with rfl | rfl <;> norm_num
  rw [hsub, abs_mul, habs, one_mul, abs_of_nonneg hlag', sub_le_iff_le_add, div_le_iff₀ hpos',
    mul_comm _ (duration : ℚ), add_comm]
  exact_mod_cast Iff.rfl

/-- A line generator is within one of its line, at every instant of its life, exactly when the
truncated slope divides evenly. -/
theorem line_follows_iff {rps0 rps1 duration : ℕ} (hlim : Limits rps0 rps1)
    (hmin : nanosPerSec ≤ duration) (hmax : duration < 2 ^ 63) (now t0 : ℕ) :
    (∃ g, new rps0 rps1 duration now = .ok g ∧ ∀ e ≤ duration, ∃ v,
      (g.activateAt t0).currentAt (t0 + e) = some v ∧
      |(v : ℚ) - lineAt rps0 rps1 duration e| ≤ 1) ↔
    Ramp.Steady ((rps1 : ℤ) - rps0).natAbs duration nanosPerSec := by
  have hpos : 0 < duration := lt_of_lt_of_le (by decide) hmin
  obtain ⟨s, h⟩ := exists_heads rps0 rps1
  obtain ⟨g, hg, hvalue⟩ := exists_value h hlim hpos hmax now t0
  rw [← Ramp.close_iff_steady (by decide) hmin]
  constructor
  · rintro ⟨g', hg', hclose⟩ e he
    rw [new_of_checkedNew hg, Except.ok.injEq] at hg'
    subst hg'
    obtain ⟨v, hv, -, -, hcur⟩ := hvalue e he
    obtain ⟨v', hcur', habs⟩ := hclose e he
    rw [currentAt_of_checkedCurrentAt hcur, Option.some.injEq] at hcur'
    subst hcur'
    exact (abs_sub_lineAt_le_one_iff h hpos hv).mp habs
  · intro hclose
    refine ⟨g, new_of_checkedNew hg, fun e he => ?_⟩
    obtain ⟨v, hv, -, -, hcur⟩ := hvalue e he
    exact ⟨v, currentAt_of_checkedCurrentAt hcur,
      (abs_sub_lineAt_le_one_iff h hpos hv).mpr (hclose e he)⟩

/-- From 0 to 600 in a minute: ten more a second. -/
theorem line_follows_steady :
    ∃ g, new 0 600 (Duration.fromSecs 60) 0 = .ok g ∧ ∀ e ≤ Duration.fromSecs 60, ∃ v,
      (g.activateAt 3).currentAt (3 + e) = some v ∧
      |(v : ℚ) - lineAt 0 600 (Duration.fromSecs 60) e| ≤ 1 :=
  (line_follows_iff ⟨by decide, by decide, by decide, by decide⟩ (by decide) (by decide) 0 3).mpr (by decide)

/-- The line of the README, from 0 to 5'000'000 in 300 s, ends at 4'999'800. -/
theorem line_readme_misses :
    Limits 0 5000000 ∧ nanosPerSec ≤ Duration.fromSecs 300 ∧ Duration.fromSecs 300 < 2 ^ 63 ∧
    ∃ g, new 0 5000000 (Duration.fromSecs 300) 0 = .ok g ∧
      g.currentAt (Duration.fromSecs 300) = some 4999800 ∧
      lineAt 0 5000000 (Duration.fromSecs 300) (Duration.fromSecs 300) = 5000000 ∧
      ¬ |((4999800 : ℕ) : ℚ) -
        lineAt 0 5000000 (Duration.fromSecs 300) (Duration.fromSecs 300)| ≤ 1 := by
  have hline : lineAt 0 5000000 (Duration.fromSecs 300) (Duration.fromSecs 300) = 5000000 := by
    norm_num [lineAt, Duration.fromSecs, nanosPerSec]
  refine ⟨⟨by decide, by decide, by decide, by decide⟩, by decide, by decide,
    { k := 16666, b := 0, t0 := 0, duration := Duration.fromSecs 300 }, by rfl, by rfl, hline, ?_⟩
  rw [hline]
  norm_num

end LineGenerator

end Dwd
