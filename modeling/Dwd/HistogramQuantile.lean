import Dwd.Histogram

/-! The accuracy of the quantiles. The search stops at the bucket of the sample quantile itself, the
interpolation stays inside the bucket, and a bucket spans a factor of 3/2. -/

namespace Dwd

namespace LogHistogram

/-- Where the search stops, the running sum reaches the threshold and did not reach it before. -/
theorem search_eq_some {q : ℚ} {size idx sum : ℕ} {buckets : List ℕ} {hit : Hit}
    (h : search q size idx sum buckets = some hit) (hsum : (sum : ℚ) < q * size) :
    ∃ i, hit.idx = idx + i ∧ buckets[i]? = some hit.b ∧ hit.sum = sum + (buckets.take i).sum ∧
      (hit.sum : ℚ) < q * size ∧ q * size ≤ (hit.sum + hit.b : ℕ) := by
  induction buckets generalizing idx sum with
  | nil => cases h
  | cons b buckets ih =>
      rw [search] at h
      split_ifs at h with hreached
      · obtain rfl := Option.some.inj h
        exact ⟨0, rfl, rfl, rfl, hsum, hreached⟩
      · obtain ⟨i, hidx, hb, hbefore, hlt, hle⟩ := ih h (not_le.mp hreached)
        refine ⟨i + 1, by omega, hb, ?_, hlt, hle⟩
        rw [hbefore, List.take_succ_cons, List.sum_cons, Nat.add_assoc]

/-- A threshold that the whole sum reaches is reached. -/
theorem exists_search_eq_some {q : ℚ} {size : ℕ} (idx sum : ℕ) {buckets : List ℕ}
    (hsum : (sum : ℚ) < q * size) (htotal : q * size ≤ (sum + buckets.sum : ℕ)) :
    ∃ hit, search q size idx sum buckets = some hit := by
  induction buckets generalizing idx sum with
  | nil => exact absurd htotal (not_le.mpr hsum)
  | cons b buckets ih =>
      rw [search]
      split_ifs with hreached
      · exact ⟨_, rfl⟩
      · apply ih
        · exact not_le.mp hreached
        · rw [List.sum_cons, ← Nat.add_assoc] at htotal
          exact htotal

/-- What is known of a hit in a snapshot. -/
structure Found (q : ℚ) (h : LogHistogram) (hit : Hit) : Prop where
  bucket : h.snapshot[hit.idx]? = some hit.b
  before : hit.sum = (h.snapshot.take hit.idx).sum
  below : (hit.sum : ℚ) < q * h.size
  reached : q * h.size ≤ (hit.sum + hit.b : ℕ)

theorem hit_found {q : ℚ} {h : LogHistogram} (hq : 0 < q) (hq1 : q ≤ 1) (hsize : 0 < h.size) :
    ∃ hit, h.hit q = some hit ∧ Found q h hit := by
  have hsize' : (0 : ℚ) < h.size := Nat.cast_pos.mpr hsize
  have hstart : ((0 : ℕ) : ℚ) < q * h.size := by
    rw [Nat.cast_zero]
    exact mul_pos hq hsize'
  have htotal : q * h.size ≤ (0 + h.snapshot.sum : ℕ) := by
    rw [Nat.zero_add]
    calc q * h.size ≤ 1 * h.size := mul_le_mul_of_nonneg_right hq1 hsize'.le
      _ = (h.snapshot.sum : ℚ) := one_mul _
  obtain ⟨hit, hhit⟩ := exists_search_eq_some 0 0 hstart htotal
  obtain ⟨i, hidx, hb, hbefore, hlt, hle⟩ := search_eq_some hhit hstart
  rw [Nat.zero_add] at hidx hbefore
  subst hidx
  exact ⟨hit, hhit, hb, hbefore, hlt, hle⟩

namespace Found

variable {q : ℚ} {h : LogHistogram} {hit : Hit}

theorem b_pos (hf : Found q h hit) : 0 < hit.b := by
  have hlt := hf.below.trans_le hf.reached
  have : hit.sum < hit.sum + hit.b := by exact_mod_cast hlt
  omega

/-- The interpolation stays inside the bucket. -/
theorem exponent_mem (hf : Found q h hit) :
    (hit.idx : ℚ) < hit.exponent q h.size ∧ hit.exponent q h.size ≤ hit.idx + 1 := by
  have hb : (0 : ℚ) < hit.b := Nat.cast_pos.mpr hf.b_pos
  have hreached := hf.reached
  push_cast at hreached
  have hpos : 0 < (q * h.size - hit.sum) / hit.b := div_pos (sub_pos.mpr hf.below) hb
  have hle : (q * h.size - hit.sum) / hit.b ≤ 1 := by
    rw [div_le_one hb]
    linarith
  unfold Hit.exponent
  constructor
  · linarith
  · linarith

theorem sum_take_succ (hf : Found q h hit) :
    (h.snapshot.take (hit.idx + 1)).sum = hit.sum + hit.b := by
  rw [List.take_add_one, hf.bucket, Option.toList_some, List.sum_append, List.sum_singleton,
    ← hf.before]

/-- The search stops at the bucket of the sample quantile. -/
theorem idx_eq {len : ℕ} {bucket : ℕ → ℕ} {samples : List ℕ} {x : ℕ} (hf : Found q h hit)
    (hbucket : Monotone bucket) (hsnapshot : h.snapshot = Tally.tally bucket len samples)
    (hx : Tally.orderStatistic samples (⌈q * h.size⌉₊ - 1) = some x) : hit.idx = bucket x := by
  have hidx : hit.idx < len := by
    have := (List.getElem?_eq_some_iff.mp hf.bucket).1
    rwa [hsnapshot, Tally.length_tally] at this
  have hbelow : hit.sum < ⌈q * h.size⌉₊ := Nat.lt_ceil.mpr hf.below
  have hreached : ⌈q * h.size⌉₊ ≤ hit.sum + hit.b := Nat.ceil_le.mpr hf.reached
  have hnot : ¬ bucket x < hit.idx := by
    rw [← Tally.lt_sum_take_iff bucket hbucket hidx.le hx, ← hsnapshot, ← hf.before]
    omega
  have hlt : bucket x < hit.idx + 1 := by
    rw [← Tally.lt_sum_take_iff bucket hbucket hidx hx, ← hsnapshot, hf.sum_take_succ]
    omega
  omega

/-- A greater quantile is found no earlier, and inside a bucket no lower. -/
theorem exponent_mono {q' : ℚ} {hit' : Hit} (hf : Found q h hit) (hf' : Found q' h hit')
    (hq : q ≤ q') : hit.exponent q h.size ≤ hit'.exponent q' h.size := by
  have hthreshold : q * h.size ≤ q' * h.size := mul_le_mul_of_nonneg_right hq (Nat.cast_nonneg _)
  have hsum : hit.sum < hit'.sum + hit'.b := by
    exact_mod_cast hf.below.trans_le (hthreshold.trans hf'.reached)
  have hidx : hit.idx ≤ hit'.idx := by
    by_contra hlt
    have hsublist : (h.snapshot.take (hit'.idx + 1)).Sublist (h.snapshot.take hit.idx) :=
      List.take_sublist_take_left (by omega)
    have hle := hsublist.sum_le_sum fun _ _ => Nat.zero_le _
    rw [hf'.sum_take_succ, ← hf.before] at hle
    omega
  rcases hidx.lt_or_eq with hidx | hidx
  · have hidx' : (hit.idx : ℚ) + 1 ≤ hit'.idx := by exact_mod_cast hidx
    linarith [hf.exponent_mem.2, hf'.exponent_mem.1]
  · have hb : hit.b = hit'.b := by
      have := hf.bucket
      rw [hidx, hf'.bucket] at this
      exact (Option.some.inj this).symm
    have hsum' : hit.sum = hit'.sum := by rw [hf.before, hf'.before, hidx]
    unfold Hit.exponent
    rw [hb, hsum', hidx]
    gcongr

/-- The estimate is within one factor of a latency that is in the bucket of the hit. -/
theorem estimate_mem {len x : ℕ} (hf : Found q h hit) (hidx : hit.idx = bucketIndex len x)
    (hx : (x : ℚ) < factor ^ len) (hone : 1 ≤ hit.idx) :
    (x : ℝ) / factor ≤ hit.estimate q h.size ∧ hit.estimate q h.size ≤ x * factor := by
  have hpos : 1 ≤ x := by
    rw [Nat.one_le_iff_ne_zero]
    rintro rfl
    rw [hidx, bucketIndex, logIndex_zero, Nat.zero_min] at hone
    exact absurd hone (by decide)
  have hlow := factor_pow_logIndex_le hpos
  have hlen : logIndex x < len := (pow_lt_pow_iff_right₀ one_lt_factor).mp (hlow.trans_lt hx)
  have hidx' : hit.idx = logIndex x := by
    rw [hidx, bucketIndex]
    exact min_eq_left (by omega)
  have hhigh := lt_factor_pow_succ_logIndex x
  rw [← hidx'] at hlow hhigh
  have hlow' : (factor : ℝ) ^ hit.idx ≤ x := by exact_mod_cast hlow
  have hhigh' : (x : ℝ) < (factor : ℝ) ^ (hit.idx + 1) := by exact_mod_cast hhigh
  have hfactor : (1 : ℝ) ≤ factor := by exact_mod_cast one_le_factor
  have hfpos : (0 : ℝ) < factor := by exact_mod_cast factor_pos
  obtain ⟨hgt, hle⟩ := hf.exponent_mem
  have hgt' : ((hit.idx : ℕ) : ℝ) ≤ (hit.exponent q h.size : ℝ) := by exact_mod_cast hgt.le
  have hle' : (hit.exponent q h.size : ℝ) ≤ ((hit.idx + 1 : ℕ) : ℝ) := by exact_mod_cast hle
  unfold Hit.estimate
  constructor
  · rw [div_le_iff₀ hfpos]
    calc (x : ℝ) ≤ (factor : ℝ) ^ (hit.idx + 1) := hhigh'.le
      _ = (factor : ℝ) ^ ((hit.idx : ℕ) : ℝ) * factor := by rw [Real.rpow_natCast, pow_succ]
      _ ≤ (factor : ℝ) ^ (hit.exponent q h.size : ℝ) * factor := by
          gcongr
  · calc (factor : ℝ) ^ (hit.exponent q h.size : ℝ)
        ≤ (factor : ℝ) ^ ((hit.idx + 1 : ℕ) : ℝ) := Real.rpow_le_rpow_of_exponent_le hfactor hle'
      _ = (factor : ℝ) ^ hit.idx * factor := by rw [Real.rpow_natCast, pow_succ]
      _ ≤ x * factor := by gcongr

end Found

/-- The latencies of all workers, merged, count every latency once. -/
theorem size_merge {splits : List (List ℕ)} (hsplits : splits ≠ []) :
    (merge (splits.map PerCpuLogHistogram.default.recordAll)).size = splits.flatten.length := by
  rw [size, merge_recordAll hsplits]
  apply Tally.sum_tally
  intro us _
  exact (min_le_right _ _).trans_lt (by decide)

theorem merge_eq_of_perm {splits splits' : List (List ℕ)} (hsplits : splits ≠ [])
    (hsplits' : splits' ≠ []) (h : splits'.flatten.Perm splits.flatten) :
    merge (splits'.map PerCpuLogHistogram.default.recordAll) =
      merge (splits.map PerCpuLogHistogram.default.recordAll) := by
  have hsnapshot := Tally.tally_perm (bucketIndex 45) 45 h
  rw [← merge_recordAll hsplits, ← merge_recordAll hsplits'] at hsnapshot
  exact congrArg LogHistogram.mk hsnapshot

/-- **Quantile accuracy, end to end.** The search of a non-empty snapshot stops, at a bucket that is
not empty and holds the sample quantile; the exponent lies inside the bucket and grows with `q`; the
estimate is within a factor of 3/2 of the sample quantile; and none of it depends on the split of the
latencies over the workers. -/
theorem quantile_accuracy (splits : List (List ℕ)) (hsamples : splits.flatten ≠ []) (q : ℚ)
    (hq : 0 < q) (hq1 : q ≤ 1) :
    (∀ splits' : List (List ℕ), splits'.flatten.Perm splits.flatten →
      merge (splits'.map PerCpuLogHistogram.default.recordAll) =
        merge (splits.map PerCpuLogHistogram.default.recordAll)) ∧
    ∃ h hit x, h = merge (splits.map PerCpuLogHistogram.default.recordAll) ∧
      h.hit q = some hit ∧ h.quantile q = some (hit.value q h.size) ∧ hit.b ≠ 0 ∧
      Tally.orderStatistic splits.flatten (⌈q * splits.flatten.length⌉₊ - 1) = some x ∧
      hit.idx = bucketIndex PerCpuLogHistogram.default.buckets.length x ∧
      (hit.idx : ℚ) < hit.exponent q h.size ∧ hit.exponent q h.size ≤ hit.idx + 1 ∧
      (∀ q', q ≤ q' → q' ≤ 1 →
        ∃ hit', h.hit q' = some hit' ∧ hit.exponent q h.size ≤ hit'.exponent q' h.size) ∧
      ((x : ℚ) < factor ^ PerCpuLogHistogram.default.buckets.length → 1 ≤ hit.idx →
        (x : ℝ) / factor ≤ hit.estimate q h.size ∧ hit.estimate q h.size ≤ x * factor) := by
  have hne : ∀ splits : List (List ℕ), splits.flatten ≠ [] → splits ≠ [] := by
    rintro splits h rfl
    exact h rfl
  have hsplits := hne splits hsamples
  refine ⟨fun splits' hperm => ?_, ?_⟩
  · apply merge_eq_of_perm hsplits _ hperm
    apply hne
    intro hnil
    rw [hnil] at hperm
    exact hsamples hperm.nil_eq.symm
  · have hsize := size_merge hsplits
    have hpos : 0 < splits.flatten.length := List.length_pos_iff_ne_nil.mpr hsamples
    have hlen : PerCpuLogHistogram.default.buckets.length = 45 := by
      rw [PerCpuLogHistogram.default_buckets, List.length_replicate]
    have hrank : ⌈q * splits.flatten.length⌉₊ - 1 < splits.flatten.length := by
      have hle : ⌈q * splits.flatten.length⌉₊ ≤ splits.flatten.length :=
        Nat.ceil_le.mpr (mul_le_of_le_one_left (Nat.cast_nonneg _) hq1)
      omega
    obtain ⟨hit, hhit, hf⟩ := hit_found hq hq1 (hsize ▸ hpos)
    obtain ⟨x, -, hx⟩ := Tally.orderStatistic_isSome hrank
    have hidx := hf.idx_eq (bucketIndex_mono 45) (merge_recordAll hsplits) (hsize.symm ▸ hx)
    rw [hlen]
    refine ⟨_, hit, x, rfl, hhit, ?_, hf.b_pos.ne', hx, hidx, hf.exponent_mem.1, hf.exponent_mem.2,
      fun q' hle hq1' => ?_, hf.estimate_mem hidx⟩
    · rw [quantile, if_pos ⟨hq.le, hq1⟩, hhit]
    · obtain ⟨hit', hhit', hf'⟩ := hit_found (hq.trans_le hle) hq1' (hsize ▸ hpos)
      exact ⟨hit', hhit', hf.exponent_mono hf' hle⟩

/-- The median of 3, 7 and 100 microseconds, recorded by two workers, is in the bucket of 7. -/
theorem quantile_accuracy_median :
    ∃ h hit, h = merge ([[100, 3], [7]].map PerCpuLogHistogram.default.recordAll) ∧
      h.hit (1 / 2) = some hit ∧ hit.b ≠ 0 ∧ hit.idx = 4 ∧
      (hit.idx : ℚ) < hit.exponent (1 / 2) h.size ∧ hit.exponent (1 / 2) h.size ≤ hit.idx + 1 := by
  obtain ⟨-, h, hit, x, hh, hhit, -, hb, hx, hidx, hgt, hle, -⟩ :=
    quantile_accuracy [[100, 3], [7]] (by decide) (1 / 2) (by norm_num) (by norm_num)
  have hrank : ⌈(1 / 2 : ℚ) * ([[100, 3], [7]] : List (List ℕ)).flatten.length⌉₊ - 1 = 1 := by
    rw [Nat.sub_eq_iff_eq_add (Nat.one_le_ceil_iff.mpr (by norm_num)), Nat.ceil_eq_iff (by norm_num)]
    norm_num
  rw [hrank] at hx
  obtain rfl : 7 = x := Option.some.inj (Eq.trans (by decide) hx)
  refine ⟨h, hit, hh, hhit, hb, ?_, hgt, hle⟩
  rw [hidx, PerCpuLogHistogram.default_buckets]
  decide

end LogHistogram

end Dwd
