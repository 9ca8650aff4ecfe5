import Mathlib.Algebra.BigOperators.Ring.Finset
import Mathlib.Algebra.BigOperators.Ring.List
import Mathlib.Algebra.Order.BigOperators.Group.List
import Mathlib.Algebra.Order.Field.Basic
import Mathlib.Data.Nat.Cast.Order.Field

/-! Rates of a counter that is looked at from time to time. Of the looks, those are samples which come an
interval or more after the sample before them, and the rate of a sample is what was counted since then, divided
by the time since then. The rates are values and the spans between the samples their weights: what they add up to
is the whole count, and a mean lies between the bounds of the values. -/

namespace Sampling

section Mean

variable {K : Type} [Field K]

/-- What values add up to, each with its weight. -/
def weighted (ps : List (K × K)) : K := (ps.map fun p => p.1 * p.2).sum

def weight (ps : List (K × K)) : K := (ps.map Prod.snd).sum

theorem weighted_cons (p : K × K) (ps : List (K × K)) : weighted (p :: ps) = p.1 * p.2 + weighted ps := by
  rw [weighted, List.map_cons, List.sum_cons]
  rfl

theorem weight_zip {values weights : List K} (h : weights.length ≤ values.length) :
    weight (values.zip weights) = weights.sum := by
  rw [weight, List.map_snd_zip h]

variable [LinearOrder K] [IsStrictOrderedRing K]

/-- A bound of the values bounds what they add up to. -/
theorem mul_weight_le {low : K} {ps : List (K × K)} (h : ∀ p ∈ ps, low ≤ p.1 ∧ 0 ≤ p.2) :
    low * weight ps ≤ weighted ps := by
  rw [weight, weighted, ← List.sum_map_mul_left]
  exact List.sum_le_sum fun p hp => mul_le_mul_of_nonneg_right (h p hp).1 (h p hp).2

theorem weighted_le_mul {high : K} {ps : List (K × K)} (h : ∀ p ∈ ps, p.1 ≤ high ∧ 0 ≤ p.2) :
    weighted ps ≤ high * weight ps := by
  rw [weight, weighted, ← List.sum_map_mul_left]
  exact List.sum_le_sum fun p hp => mul_le_mul_of_nonneg_right (h p hp).1 (h p hp).2

/-- **A mean lies between the bounds of the values.** -/
theorem mean_mem_bounds {low high : K} {ps : List (K × K)} (hpos : 0 < weight ps)
    (h : ∀ p ∈ ps, (low ≤ p.1 ∧ p.1 ≤ high) ∧ 0 ≤ p.2) :
    low ≤ weighted ps / weight ps ∧ weighted ps / weight ps ≤ high := by
  constructor
  · rw [le_div_iff₀ hpos]
    exact mul_weight_le fun p hp => ⟨(h p hp).1.1, (h p hp).2⟩
  · rw [div_le_iff₀ hpos]
    exact weighted_le_mul fun p hp => ⟨(h p hp).1.2, (h p hp).2⟩

end Mean

variable {A : Type} (time count : A → ℕ) (interval : ℕ)

/-- The looks that are samples, when the sample before them was at `prev`. -/
def sampled : ℕ → List A → List A
  | _, [] => []
  | prev, a :: looks =>
      if prev + interval ≤ time a then a :: sampled (time a) looks else sampled prev looks

/-- Each sample comes an interval or more after the one before it. -/
def Spaced : ℕ → List A → Prop
  | _, [] => True
  | prev, a :: samples => prev + interval ≤ time a ∧ Spaced (time a) samples

/-- The counter does not go back. -/
def Counts : ℕ → List A → Prop
  | _, [] => True
  | prev, a :: looks => prev ≤ count a ∧ Counts (count a) looks

/-- What the last of the samples found, or `prev` before there was any. -/
def last (f : A → ℕ) (prev : ℕ) (samples : List A) : ℕ := (samples.getLast?.map f).getD prev

variable {time count interval}

theorem last_cons (f : A → ℕ) (prev : ℕ) (a : A) (samples : List A) :
    last f prev (a :: samples) = last f (f a) samples := by
  rw [last, last, List.getLast?_cons]
  cases samples.getLast? with
  | none => rfl
  | some a' => rfl

theorem last_append (f : A → ℕ) (prev : ℕ) (samples : List A) (a : A) : last f prev (samples ++ [a]) = f a := by
  rw [last, List.getLast?_concat]
  rfl

theorem spaced_append {prev : ℕ} {samples : List A} {a : A} :
    Spaced time interval prev (samples ++ [a]) ↔
      Spaced time interval prev samples ∧ last time prev samples + interval ≤ time a := by
  induction samples generalizing prev with
  | nil => exact and_comm
  | cons a' samples ih =>
      rw [List.cons_append, last_cons]
      exact (and_congr_right fun _ => ih).trans and_assoc.symm

theorem counts_append {prev : ℕ} {samples : List A} {a : A} :
    Counts count prev (samples ++ [a]) ↔ Counts count prev samples ∧ last count prev samples ≤ count a := by
  induction samples generalizing prev with
  | nil => exact and_comm
  | cons a' samples ih =>
      rw [List.cons_append, last_cons]
      exact (and_congr_right fun _ => ih).trans and_assoc.symm

theorem sampled_spaced (prev : ℕ) (looks : List A) :
    Spaced time interval prev (sampled time interval prev looks) := by
  induction looks generalizing prev with
  | nil => trivial
  | cons a looks ih =>
      rw [sampled]
      split_ifs with h
      · exact ⟨h, ih (time a)⟩
      · exact ih prev

theorem Counts.weaken {low high : ℕ} {looks : List A} (h : Counts count high looks) (hle : low ≤ high) :
    Counts count low looks := by
  cases looks with
  | nil => trivial
  | cons a looks => exact ⟨hle.trans h.1, h.2⟩

theorem sampled_counts {prevCount : ℕ} {looks : List A} (h : Counts count prevCount looks) (prev : ℕ) :
    Counts count prevCount (sampled time interval prev looks) := by
  induction looks generalizing prev prevCount with
  | nil => trivial
  | cons a looks ih =>
      rw [sampled]
      split_ifs
      · exact ⟨h.1, ih h.2 (time a)⟩
      · exact (ih h.2 prev).weaken h.1

theorem Spaced.le_last {prev : ℕ} {samples : List A} (h : Spaced time interval prev samples) :
    prev + samples.length * interval ≤ last time prev samples := by
  induction samples generalizing prev with
  | nil => simp [last]
  | cons a samples ih =>
      have hle := ih h.2
      have ha := h.1
      rw [last_cons, List.length_cons, Nat.add_mul, Nat.one_mul]
      omega

theorem Counts.le_last {prev : ℕ} {samples : List A} (h : Counts count prev samples) :
    prev ≤ last count prev samples := by
  induction samples generalizing prev with
  | nil => exact le_rfl
  | cons a samples ih =>
      rw [last_cons]
      exact h.1.trans (ih h.2)

/-- What a counter, or the clock, goes forward by from each sample to the next. -/
def increments (f : A → ℕ) : ℕ → List A → List ℕ
  | _, [] => []
  | prev, a :: samples => (f a - prev) :: increments f (f a) samples

theorem length_increments (f : A → ℕ) (prev : ℕ) (samples : List A) :
    (increments f prev samples).length = samples.length := by
  induction samples generalizing prev with
  | nil => rfl
  | cons a samples ih => rw [increments, List.length_cons, List.length_cons, ih]

/-- **The increments of a counter that does not go back add up to the last of it.** -/
theorem sum_increments {f : A → ℕ} {prev : ℕ} {samples : List A} (h : Counts f prev samples) :
    (increments f prev samples).sum = last f prev samples - prev := by
  induction samples generalizing prev with
  | nil => exact (Nat.sub_self prev).symm
  | cons a samples ih =>
      have ha := h.1
      have hle := h.2.le_last
      rw [increments, List.sum_cons, ih h.2, last_cons]
      omega

theorem Spaced.counts {prev : ℕ} {samples : List A} (h : Spaced time interval prev samples) :
    Counts time prev samples := by
  induction samples generalizing prev with
  | nil => trivial
  | cons a samples ih => exact ⟨le_of_add_le_left h.1, ih h.2⟩

theorem le_of_mem_increments {prev : ℕ} {samples : List A} (h : Spaced time interval prev samples) :
    ∀ d ∈ increments time prev samples, interval ≤ d := by
  induction samples generalizing prev with
  | nil => exact List.forall_mem_nil _
  | cons a samples ih => exact List.forall_mem_cons.mpr ⟨Nat.le_sub_of_add_le' h.1, ih h.2⟩

variable (time count) {K : Type} [Field K] (unit : K)

/-- The spans between the samples, in units. -/
def spans : ℕ → List A → List K
  | _, [] => []
  | prev, a :: samples => ((time a - prev : ℕ) : K) / unit :: spans (time a) samples

/-- The rates between the samples. -/
def rates : ℕ → ℕ → List A → List K
  | _, _, [] => []
  | prev, prevCount, a :: samples =>
      ((count a - prevCount : ℕ) : K) / (((time a - prev : ℕ) : K) / unit) ::
        rates (time a) (count a) samples

variable {time count unit}

theorem spans_eq_map (prev : ℕ) (samples : List A) :
    spans time unit prev samples = (increments time prev samples).map fun (d : ℕ) => (d : K) / unit := by
  induction samples generalizing prev with
  | nil => rfl
  | cons a samples ih => rw [spans, increments, List.map_cons, ih]

/-- Each rate is an increment of the counter over the increment of the clock. -/
theorem rates_eq_zipWith (prev prevCount : ℕ) (samples : List A) :
    rates time count unit prev prevCount samples =
      List.zipWith (fun (c d : ℕ) => (c : K) / ((d : K) / unit)) (increments count prevCount samples)
        (increments time prev samples) := by
  induction samples generalizing prev prevCount with
  | nil => rfl
  | cons a samples ih => rw [rates, increments, increments, List.zipWith_cons_cons, ih]

theorem length_spans (prev : ℕ) (samples : List A) : (spans time unit prev samples).length = samples.length := by
  induction samples generalizing prev with
  | nil => rfl
  | cons a samples ih => rw [spans, List.length_cons, List.length_cons, ih]

theorem length_rates (prev prevCount : ℕ) (samples : List A) :
    (rates time count unit prev prevCount samples).length = samples.length := by
  induction samples generalizing prev prevCount with
  | nil => rfl
  | cons a samples ih => rw [rates, List.length_cons, List.length_cons, ih]

/-- One more sample adds the rate since the last one. -/
theorem rates_append (prev prevCount : ℕ) (samples : List A) (a : A) :
    rates time count unit prev prevCount (samples ++ [a]) =
      rates time count unit prev prevCount samples ++
        [((count a - last count prevCount samples : ℕ) : K) /
          (((time a - last time prev samples : ℕ) : K) / unit)] := by
  induction samples generalizing prev prevCount with
  | nil => rfl
  | cons a' samples ih =>
      rw [List.cons_append, rates, rates, ih, last_cons, last_cons]
      rfl

/-- The spans follow one another. -/
theorem sum_spans {prev : ℕ} {samples : List A} (h : Spaced time interval prev samples) :
    (spans time unit prev samples).sum = ((last time prev samples - prev : ℕ) : K) / unit := by
  simp only [spans_eq_map, div_eq_mul_inv]
  rw [List.sum_map_mul_right, ← Nat.cast_list_sum, sum_increments h.counts]

variable [LinearOrder K] [IsStrictOrderedRing K]

theorem le_of_mem_spans {prev : ℕ} {samples : List A} (h : Spaced time interval prev samples)
    (hunit : 0 < unit) : ∀ d ∈ spans time unit prev samples, (interval : K) / unit ≤ d := by
  rw [spans_eq_map]
  refine List.forall_mem_map.mpr fun d hd => ?_
  exact div_le_div_of_nonneg_right (Nat.cast_le.mpr (le_of_mem_increments h d hd)) hunit.le

/-- **The rates account for the whole count.** -/
theorem weighted_rates {prev prevCount : ℕ} {samples : List A} (hspaced : Spaced time interval prev samples)
    (hcounts : Counts count prevCount samples) (hinterval : 0 < interval) (hunit : 0 < unit) :
    weighted ((rates time count unit prev prevCount samples).zip (spans time unit prev samples)) =
      ((last count prevCount samples - prevCount : ℕ) : K) := by
  induction samples generalizing prev prevCount with
  | nil => simp [rates, spans, weighted, last]
  | cons a samples ih =>
      have hspan : 0 < ((time a - prev : ℕ) : K) / unit := by
        have := hspaced.1
        exact div_pos (Nat.cast_pos.mpr (by omega)) hunit
      have hle := hcounts.2.le_last
      have ha := hcounts.1
      have hsplit : last count (count a) samples - prevCount =
          (count a - prevCount) + (last count (count a) samples - count a) := by
        omega
      rw [rates, spans, List.zip_cons_cons, weighted_cons, ih hspaced.2 hcounts.2, last_cons, hsplit,
        Nat.cast_add, div_mul_cancel₀ _ hspan.ne']

/-- **The mean rate lies between bounds of the rates.** -/
theorem mean_rate_mem_bounds {prev prevCount : ℕ} {samples : List A}
    (hspaced : Spaced time interval prev samples) (hcounts : Counts count prevCount samples)
    (hinterval : 0 < interval) (hunit : 0 < unit) (hsamples : samples ≠ []) {low high : K}
    (h : ∀ r ∈ rates time count unit prev prevCount samples, low ≤ r ∧ r ≤ high) :
    low ≤ ((last count prevCount samples - prevCount : ℕ) : K) / (((last time prev samples - prev : ℕ) : K) / unit) ∧
      ((last count prevCount samples - prevCount : ℕ) : K) / (((last time prev samples - prev : ℕ) : K) / unit) ≤
        high := by
  have hlengths : (spans time unit prev samples).length ≤ (rates time count unit prev prevCount samples).length := by
    rw [length_spans, length_rates]
  have hweight := weight_zip hlengths
  rw [sum_spans hspaced] at hweight
  have hpos : 0 < ((last time prev samples - prev : ℕ) : K) / unit := by
    have hle := hspaced.le_last
    have hlength := List.length_pos_of_ne_nil hsamples
    have hmul : interval ≤ samples.length * interval := Nat.le_mul_of_pos_left interval hlength
    exact div_pos (Nat.cast_pos.mpr (by omega)) hunit
  rw [← weighted_rates hspaced hcounts hinterval hunit, ← hweight]
  refine mean_mem_bounds (hweight.symm ▸ hpos) fun p hp => ?_
  obtain ⟨hrate, hspan⟩ := List.of_mem_zip hp
  refine ⟨h _ hrate, le_trans ?_ (le_of_mem_spans hspaced hunit _ hspan)⟩
  exact div_nonneg (Nat.cast_nonneg interval) hunit.le

end Sampling
