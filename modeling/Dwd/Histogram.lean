import Dwd.LibTally
import Mathlib.Analysis.SpecialFunctions.Pow.Real

/-! The logarithmic latency histogram, in exact arithmetic. Each worker records its latencies into
buckets of its own, whose bounds grow by the factor 3/2; a snapshot adds the buckets of all workers up,
and quantiles are read off a snapshot by a search along the running sum and an interpolation inside the
bucket where it stops. -/

namespace Dwd

/-- `FACTOR`. -/
def factor : ℚ := 3 / 2

theorem factor_pos : 0 < factor := by norm_num [factor]

theorem one_le_factor : 1 ≤ factor := by norm_num [factor]

theorem one_lt_factor : 1 < factor := by norm_num [factor]

/-- The integral part of the logarithm of `us` to the base `factor`; it is `0` for `us = 0`, where the
logarithm is minus infinity and the cast saturates. -/
def logIndex (us : ℕ) : ℕ := Nat.findGreatest (fun k => 3 ^ k ≤ us * 2 ^ k) (2 * us.log2 + 1)

theorem factor_pow_le_iff (k us : ℕ) : factor ^ k ≤ us ↔ 3 ^ k ≤ us * 2 ^ k := by
  rw [factor, div_pow, div_le_iff₀ (by positivity)]
  exact_mod_cast Iff.rfl

/-- No power above the searched range is below the latency. -/
theorem le_of_factor_pow_le {k us : ℕ} (h : factor ^ k ≤ us) : k ≤ 2 * us.log2 + 1 := by
  by_contra hlt
  have hpow : (factor ^ 2) ^ (us.log2 + 1) ≤ us := by
    rw [← pow_mul]
    exact (pow_le_pow_right₀ one_le_factor (by omega)).trans h
  have htwo : (2 : ℚ) ^ (us.log2 + 1) ≤ (factor ^ 2) ^ (us.log2 + 1) :=
    pow_le_pow_left₀ (by norm_num) (by norm_num [factor]) _
  have hus : us < 2 ^ (us.log2 + 1) := Nat.lt_log2_self
  have hus' : (us : ℚ) < 2 ^ (us.log2 + 1) := by exact_mod_cast hus
  linarith

/-- A latency of at least 1 lies between its power and the next one. -/
theorem factor_pow_logIndex_le {us : ℕ} (h : 1 ≤ us) : factor ^ logIndex us ≤ us := by
  rw [factor_pow_le_iff]
  exact Nat.findGreatest_spec (P := fun k => 3 ^ k ≤ us * 2 ^ k) (Nat.zero_le _) (by simpa using h)

theorem lt_factor_pow_succ_logIndex (us : ℕ) : (us : ℚ) < factor ^ (logIndex us + 1) := by
  by_contra hle
  have hle := not_lt.mp hle
  have hbound := le_of_factor_pow_le hle
  have hgreatest : logIndex us + 1 ≤ logIndex us :=
    Nat.le_findGreatest (P := fun k => 3 ^ k ≤ us * 2 ^ k) hbound ((factor_pow_le_iff _ _).mp hle)
  exact absurd hgreatest (Nat.not_succ_le_self _)

/-- The index of a latency of at least 1 is the largest exponent whose power does not exceed it. -/
theorem le_logIndex_iff {k us : ℕ} (h : 1 ≤ us) : k ≤ logIndex us ↔ factor ^ k ≤ us := by
  constructor
  · intro hk
    exact (pow_le_pow_right₀ one_le_factor hk).trans (factor_pow_logIndex_le h)
  · intro hk
    have hlt := hk.trans_lt (lt_factor_pow_succ_logIndex us)
    exact Nat.le_of_lt_succ ((pow_lt_pow_iff_right₀ one_lt_factor).mp hlt)

theorem logIndex_zero : logIndex 0 = 0 := by decide

theorem logIndex_mono : Monotone logIndex := by
  intro a b hab
  rcases Nat.eq_zero_or_pos a with rfl | ha
  · rw [logIndex_zero]
    exact Nat.zero_le _
  · rw [le_logIndex_iff (ha.trans_le hab)]
    exact (factor_pow_logIndex_le ha).trans (by exact_mod_cast hab)

/-- The search computes what the recorder does: a logarithm, a multiplication and a truncation. -/
theorem logIndex_eq_floor (us : ℕ) :
    logIndex us = ⌊Real.log us * (Real.log (factor : ℝ))⁻¹⌋₊ := by
  have hfactor : 0 < Real.log (factor : ℝ) := Real.log_pos (by exact_mod_cast one_lt_factor)
  rcases Nat.eq_zero_or_pos us with rfl | hus
  · simp [logIndex_zero]
  · have hpos : (0 : ℝ) < us := by exact_mod_cast hus
    have hle : (factor : ℝ) ^ logIndex us ≤ us := by exact_mod_cast factor_pow_logIndex_le hus
    have hlt : (us : ℝ) < (factor : ℝ) ^ (logIndex us + 1) := by
      exact_mod_cast lt_factor_pow_succ_logIndex us
    have hfpos : (0 : ℝ) < factor := by exact_mod_cast factor_pos
    symm
    rw [Nat.floor_eq_iff (mul_nonneg (Real.log_natCast_nonneg us) (inv_nonneg.mpr hfactor.le)),
      ← div_eq_mul_inv, le_div_iff₀ hfactor, div_lt_iff₀ hfactor]
    refine ⟨?_, ?_⟩
    · rw [← Real.log_pow]
      exact Real.log_le_log (pow_pos hfpos _) hle
    · have hlog := Real.log_lt_log hpos hlt
      rw [Real.log_pow] at hlog
      exact_mod_cast hlog

/-- The buckets of one worker. There is at least one, so the last index exists. -/
structure PerCpuLogHistogram where
  buckets : List ℕ
  nonempty : buckets ≠ []

/-- The bucket of a latency among `len` buckets. -/
def bucketIndex (len us : ℕ) : ℕ := min (logIndex us) (len - 1)

theorem bucketIndex_mono (len : ℕ) : Monotone (bucketIndex len) := by
  intro a b hab
  exact min_le_min_right _ (logIndex_mono hab)

namespace PerCpuLogHistogram

def record (us : ℕ) (h : PerCpuLogHistogram) : PerCpuLogHistogram where
  buckets := h.buckets.modify (bucketIndex h.buckets.length us) (· + 1)
  nonempty := by
    rw [← List.length_pos_iff_ne_nil, List.length_modify]
    exact List.length_pos_iff_ne_nil.mpr h.nonempty

/-- The loop of `default`: one bucket for every power of the factor below a minute. -/
def defaultBuckets : ℕ → ℚ → List ℕ
  | 0, _ => []
  | fuel + 1, curr => if 60000000 ≤ curr then [] else 0 :: defaultBuckets fuel (curr * factor)

/-- With enough fuel the loop makes 45 buckets. -/
theorem defaultBuckets_eq {fuel : ℕ} (hfuel : 45 < fuel) : defaultBuckets fuel 1 = List.replicate 45 0 := by
  have hloop : ∀ n k fuel, n + k = 45 → n < fuel →
      defaultBuckets fuel (factor ^ k) = List.replicate n 0 := by
    intro n
    induction n with
    | zero =>
        intro k fuel hk hfuel
        obtain ⟨fuel, rfl⟩ := Nat.exists_eq_add_one.mpr hfuel
        obtain rfl : k = 45 := by omega
        rw [defaultBuckets, if_pos (by norm_num [factor])]
        rfl
    | succ n ih =>
        intro k fuel hk hfuel
        obtain ⟨fuel, rfl⟩ := Nat.exists_eq_add_one.mpr (Nat.zero_lt_of_lt hfuel)
        have hlt : factor ^ k < 60000000 :=
          (pow_le_pow_right₀ one_le_factor (by omega : k ≤ 44)).trans_lt (by norm_num [factor])
        rw [defaultBuckets, if_neg (not_le.mpr hlt), ← pow_succ, ih (k + 1) fuel (by omega) (by omega)]
        rfl
  rw [← pow_zero factor]
  exact hloop 45 0 fuel rfl hfuel

def default : PerCpuLogHistogram where
  buckets := defaultBuckets 64 1
  nonempty := by
    rw [defaultBuckets_eq (by decide)]
    decide

theorem default_buckets : default.buckets = List.replicate 45 0 := defaultBuckets_eq (by decide)

def recordAll (samples : List ℕ) (h : PerCpuLogHistogram) : PerCpuLogHistogram :=
  samples.foldl (fun h us => h.record us) h

/-- What a worker has recorded is the tally of its latencies. -/
theorem recordAll_buckets (samples : List ℕ) :
    (default.recordAll samples).buckets = Tally.tally (bucketIndex 45) 45 samples := by
  induction samples using List.reverseRecOn with
  | nil => rw [Tally.tally_nil, ← default_buckets, recordAll, List.foldl_nil]
  | append_singleton samples us ih =>
      have hstep : default.recordAll (samples ++ [us]) = (default.recordAll samples).record us := by
        rw [recordAll, List.foldl_append]
        rfl
      rw [hstep, Tally.tally_concat, ← ih]
      show (default.recordAll samples).buckets.modify _ _ = _
      rw [ih, Tally.length_tally]

end PerCpuLogHistogram

/-- The bucket counts of all workers together. -/
structure LogHistogram where
  snapshot : List ℕ

namespace LogHistogram

/-- `snapshot[idx] += b` for every bucket. -/
def addBuckets : List ℕ → List ℕ → List ℕ
  | count :: snapshot, b :: buckets => (count + b) :: addBuckets snapshot buckets
  | snapshot, [] => snapshot
  | [], _ :: _ => []

/-- The body of the loop: the snapshot grows where the histogram is longer, and takes up its buckets. -/
def addHist (snapshot : List ℕ) (h : PerCpuLogHistogram) : List ℕ :=
  let snapshot :=
    if snapshot.length < h.buckets.length then
      snapshot ++ List.replicate (h.buckets.length - snapshot.length) 0
    else snapshot
  addBuckets snapshot h.buckets

/-- The loop of `RxStat::hist` over the histograms of the workers. -/
def merge (hists : List PerCpuLogHistogram) : LogHistogram := { snapshot := hists.foldl addHist [] }

theorem addBuckets_eq {snapshot buckets : List ℕ} (h : snapshot.length = buckets.length) :
    addBuckets snapshot buckets = List.zipWith (· + ·) snapshot buckets := by
  induction snapshot generalizing buckets with
  | nil =>
      cases buckets with
      | nil => rfl
      | cons b buckets => cases h
  | cons count snapshot ih =>
      cases buckets with
      | nil => cases h
      | cons b buckets =>
          rw [addBuckets, ih (Nat.succ.inj h)]
          rfl

theorem addBuckets_replicate (buckets : List ℕ) :
    addBuckets (List.replicate buckets.length 0) buckets = buckets := by
  induction buckets with
  | nil => rfl
  | cons b buckets ih =>
      rw [List.length_cons, List.replicate_succ, addBuckets, ih, Nat.zero_add]

theorem addHist_nil (h : PerCpuLogHistogram) : addHist [] h = h.buckets := by
  have hpos : ([] : List ℕ).length < h.buckets.length := List.length_pos_iff_ne_nil.mpr h.nonempty
  rw [addHist, if_pos hpos]
  exact addBuckets_replicate h.buckets

theorem addHist_eq {snapshot : List ℕ} {h : PerCpuLogHistogram}
    (hlength : snapshot.length = h.buckets.length) :
    addHist snapshot h = List.zipWith (· + ·) snapshot h.buckets := by
  rw [addHist, if_neg (by omega)]
  exact addBuckets_eq hlength

/-- **However the latencies are split over the workers**, the snapshot is the tally of all of them. -/
theorem merge_recordAll {splits : List (List ℕ)} (hsplits : splits ≠ []) :
    (merge (splits.map PerCpuLogHistogram.default.recordAll)).snapshot =
      Tally.tally (bucketIndex 45) 45 splits.flatten := by
  have hfold : ∀ (splits : List (List ℕ)) (earlier : List ℕ),
      (splits.map PerCpuLogHistogram.default.recordAll).foldl addHist
          (Tally.tally (bucketIndex 45) 45 earlier) =
        Tally.tally (bucketIndex 45) 45 (earlier ++ splits.flatten) := by
    intro splits
    induction splits with
    | nil =>
        intro earlier
        rw [List.flatten_nil, List.append_nil]
        rfl
    | cons samples splits ih =>
        intro earlier
        rw [List.map_cons, List.foldl_cons, List.flatten_cons, ← List.append_assoc,
          ← ih (earlier ++ samples), Tally.tally_append, addHist_eq,
          PerCpuLogHistogram.recordAll_buckets]
        rw [PerCpuLogHistogram.recordAll_buckets, Tally.length_tally, Tally.length_tally]
  obtain ⟨samples, splits, rfl⟩ := List.exists_cons_of_ne_nil hsplits
  rw [List.flatten_cons, ← hfold splits samples, ← PerCpuLogHistogram.recordAll_buckets, ← addHist_nil]
  rfl

/-- Where the search for a quantile stops: the bucket, its count and the counts before it. -/
structure Hit where
  idx : ℕ
  b : ℕ
  sum : ℕ

/-- The loop of `quantile`. -/
def search (q : ℚ) (size : ℕ) : ℕ → ℕ → List ℕ → Option Hit
  | _, _, [] => none
  | idx, sum, b :: buckets =>
      if q * size ≤ (sum + b : ℕ) then some { idx := idx, b := b, sum := sum }
      else search q size (idx + 1) (sum + b) buckets

def size (h : LogHistogram) : ℕ := h.snapshot.sum

def hit (q : ℚ) (h : LogHistogram) : Option Hit := search q h.size 0 0 h.snapshot

namespace Hit

/-- The exponent that the interpolation raises the factor to. -/
def exponent (q : ℚ) (size : ℕ) (hit : Hit) : ℚ := (q * size - hit.sum) / hit.b + hit.idx

/-- The estimate before it is truncated. -/
noncomputable def estimate (q : ℚ) (size : ℕ) (hit : Hit) : ℝ :=
  (factor : ℝ) ^ (hit.exponent q size : ℝ)

/-- The returned value. An empty bucket is hit only where zero is divided by zero, and the cast of
what comes out of that is zero. -/
noncomputable def value (q : ℚ) (size : ℕ) (hit : Hit) : ℕ :=
  if hit.b = 0 then 0 else min ⌊hit.estimate q size⌋₊ (2 ^ 64 - 1)

end Hit

/-- `quantile`; it is undefined where the assertion fails. -/
noncomputable def quantile (q : ℚ) (h : LogHistogram) : Option ℕ :=
  if 0 ≤ q ∧ q ≤ 1 then
    match h.hit q with
    | some hit => some (hit.value q h.size)
    | none => some (2 ^ 64 - 1)
  else none

end LogHistogram

end Dwd
