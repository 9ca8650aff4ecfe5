import Dwd.Metrics

/-! The recorder and the exporter read a bucket index differently. The recorder puts a latency into
the bucket of the largest power that does not exceed it, and the exporter takes that same power for the
upper bound of the bucket. -/

namespace Dwd

open LogHistogram

/-- For the indices of a real histogram the cast changes nothing. -/
theorem upperUs_eq {idx : ℕ} (h : idx < 2 ^ 31) : upperUs idx = factor ^ idx := by
  have hcast : wrapI32 idx = idx := by
    unfold wrapI32
    rw [Int.bmod_eq_of_le]
    · omega
    · omega
  rw [upperUs, hcast, zpow_natCast]

/-- What the exporter sums up for a bound are the samples whose bucket it takes to end there. -/
theorem countBelow_tally {α : Type} (bucket : α → ℕ) (len : ℕ) (xs : List α) (bound : ℚ) :
    countBelow (Tally.tally bucket len xs) bound =
      xs.countP fun x => bucket x ∈ (List.range len).filter fun idx => upperSec idx ≤ bound := by
  rw [← Tally.sum_countP bucket (List.nodup_range.filter _)]
  induction len with
  | zero => rfl
  | succ len ih =>
      have hconcat : Tally.tally bucket (len + 1) xs =
          Tally.tally bucket len xs ++ [xs.countP fun x => bucket x = len] := by
        rw [Tally.tally, List.range_succ, List.map_append]
        rfl
      rw [hconcat, countBelow_concat, Tally.length_tally, ih, List.range_succ, List.filter_append,
        List.map_append, List.sum_append]
      congr 1
      by_cases h : upperSec len ≤ bound
      · rw [if_pos h, List.filter_cons_of_pos (by simpa using h)]
        rfl
      · rw [if_neg h, List.filter_cons_of_neg (by simpa using h)]
        rfl

/-- The recorder and the exporter agree on the latencies: a bucket other than the last one contains
what is recorded into it, and no latency slower than a bound is attributed to it. -/
structure BoundariesAgree (samples : List ℕ) : Prop where
  contains : ∀ us ∈ samples,
    bucketIndex PerCpuLogHistogram.default.buckets.length us ≠
        PerCpuLogHistogram.default.buckets.length - 1 →
      lowerUs (bucketIndex PerCpuLogHistogram.default.buckets.length us) ≤ us ∧
        us ≤ upperUs (bucketIndex PerCpuLogHistogram.default.buckets.length us)
  attributed : ∀ us ∈ samples, ∀ bound ∈ latencyBuckets,
    upperSec (bucketIndex PerCpuLogHistogram.default.buckets.length us) ≤ bound →
      (us : ℚ) / 1000000 ≤ bound
  counted : ∀ splits : List (List ℕ), splits ≠ [] → splits.flatten.Perm samples →
    ∀ bound ∈ latencyBuckets,
      countBelow (merge (splits.map PerCpuLogHistogram.default.recordAll)).snapshot bound ≤
        samples.countP fun us : ℕ => (us : ℚ) / 1000000 ≤ bound

/-- No power of the factor but the first is a whole number. -/
theorem factor_pow_ne {k : ℕ} (hk : k ≠ 0) (us : ℕ) : factor ^ k ≠ us := by
  intro h
  rw [factor, div_pow, div_eq_iff (by positivity)] at h
  have hnat : 3 ^ k = us * 2 ^ k := by exact_mod_cast h
  have hodd : Odd (3 ^ k) := Odd.pow (by decide)
  rw [hnat] at hodd
  have heven : Even (us * 2 ^ k) := Even.mul_left (Nat.even_pow.mpr ⟨even_two, hk⟩) us
  exact Nat.not_even_iff_odd.mpr hodd heven

/-- The exporter's upper bound of a latency's bucket is below the latency, where the recorder does not
clamp. -/
theorem upperUs_lt {us : ℕ} (htwo : 2 ≤ us) (hus : (us : ℚ) < factor ^ 44) :
    bucketIndex 45 us ≠ 44 ∧ upperUs (bucketIndex 45 us) < us := by
  have hlow := factor_pow_logIndex_le (by omega : 1 ≤ us)
  have hlt : logIndex us < 44 := (pow_lt_pow_iff_right₀ one_lt_factor).mp (hlow.trans_lt hus)
  have hidx : bucketIndex 45 us = logIndex us := min_eq_left (by omega)
  rw [hidx, upperUs_eq (by omega)]
  refine ⟨by omega, lt_of_le_of_ne hlow ?_⟩
  apply factor_pow_ne
  intro hzero
  have hhigh := lt_factor_pow_succ_logIndex us
  rw [hzero, Nat.zero_add, pow_one] at hhigh
  have htwo' : (2 : ℚ) ≤ us := by exact_mod_cast htwo
  have hfactor : factor < 2 := by norm_num [factor]
  linarith

theorem bucketIndex_of_le_one {us : ℕ} (h : us ≤ 1) : bucketIndex 45 us = 0 := by
  rcases Nat.le_one_iff_eq_zero_or_eq_one.mp h with rfl | rfl
  · decide
  · decide

theorem bucketIndex_of_pow_le {us : ℕ} (h : factor ^ 44 ≤ us) : bucketIndex 45 us = 44 := by
  have hpos : 1 ≤ us := by
    have hone : (1 : ℚ) ≤ us := (one_le_pow₀ one_le_factor).trans h
    exact_mod_cast hone
  exact min_eq_right ((le_logIndex_iff hpos).mpr h)

/-- **The recorder and the exporter agree exactly on latencies of at most a microsecond and on those
of the last bucket.** -/
theorem boundariesAgree_iff (samples : List ℕ) :
    BoundariesAgree samples ↔ ∀ us ∈ samples, us ≤ 1 ∨ factor ^ 44 ≤ us := by
  have hlen : PerCpuLogHistogram.default.buckets.length = 45 := by
    rw [PerCpuLogHistogram.default_buckets, List.length_replicate]
  constructor
  · intro h us hmem
    by_contra hneither
    obtain ⟨hone, hpow⟩ := not_or.mp hneither
    obtain ⟨hidx, hlt⟩ := upperUs_lt (by omega) (not_le.mp hpow)
    have hcontains := h.contains us hmem
    rw [hlen] at hcontains
    exact absurd (hcontains hidx).2 (not_le.mpr hlt)
  · intro h
    have hattributed : ∀ us ∈ samples, ∀ bound ∈ latencyBuckets,
        upperSec (bucketIndex 45 us) ≤ bound → (us : ℚ) / 1000000 ≤ bound := by
      intro us hmem bound hbound hupper
      rcases h us hmem with hone | hpow
      · have hone' : (us : ℚ) ≤ 1 := by exact_mod_cast hone
        rw [bucketIndex_of_le_one hone, upperSec, upperUs_eq (by decide), pow_zero] at hupper
        linarith
      · have hten : bound ≤ 10 := by
          rcases le_five_of_before_last hbound with rfl | hfive
          · exact le_rfl
          · linarith
        have hlast : (10 : ℚ) * 1000000 < factor ^ 44 := by norm_num [factor]
        rw [bucketIndex_of_pow_le hpow, upperSec, upperUs_eq (by decide)] at hupper
        linarith
    refine ⟨?_, ?_, ?_⟩
    · rw [hlen]
      intro us hmem hidx
      rcases h us hmem with hone | hpow
      · rw [bucketIndex_of_le_one hone, lowerUs, if_pos rfl, upperUs_eq (by decide), pow_zero]
        exact ⟨Nat.cast_nonneg us, by exact_mod_cast hone⟩
      · exact absurd (bucketIndex_of_pow_le hpow) hidx
    · rw [hlen]
      exact hattributed
    · intro splits hsplits hperm bound hbound
      rw [merge_recordAll hsplits, Tally.tally_perm _ _ hperm, countBelow_tally]
      apply List.countP_mono_left
      intro us hmem hin
      rw [decide_eq_true_eq] at hin ⊢
      have hupper := (List.mem_filter.mp hin).2
      exact hattributed us hmem bound hbound (by simpa using hupper)

/-- Two microseconds are recorded into bucket 1, which the exporter takes to end at 1.5; and 11
microseconds are attributed to the bucket of 10. -/
theorem boundariesAgree_not_two :
    bucketIndex 45 2 = 1 ∧ lowerUs 1 = 1 ∧ upperUs 1 = 3 / 2 ∧ ¬ BoundariesAgree [2] ∧
      upperSec (bucketIndex 45 11) ≤ 10 / 1000000 ∧ ¬ BoundariesAgree [11] := by
  have hlen : PerCpuLogHistogram.default.buckets.length = 45 := by
    rw [PerCpuLogHistogram.default_buckets, List.length_replicate]
  refine ⟨by decide, by decide +kernel, by decide +kernel, fun h => ?_, by decide +kernel, fun h => ?_⟩
  · have hcontains := h.contains 2 (by simp)
    rw [hlen] at hcontains
    exact absurd (hcontains (by decide)).2 (by decide +kernel)
  · have hattributed := h.attributed 11 (by simp) (10 / 1000000) (by decide +kernel)
    rw [hlen] at hattributed
    exact absurd (hattributed (by decide +kernel)) (by decide +kernel)

end Dwd
