import Dwd.Histogram
import Dwd.Machine

/-! The Prometheus encoding of the latency histogram, with bucket bounds as exact rationals. The
exporter takes the snapshot of the logarithmic buckets, adds each one to the Prometheus buckets that
can hold it, and then accumulates those once more while printing. -/

namespace Dwd

/-- `LATENCY_BUCKETS`, in seconds. -/
def latencyBuckets : List ℚ :=
  [5 / 1000000, 10 / 1000000, 25 / 1000000, 50 / 1000000, 100 / 1000000, 250 / 1000000, 500 / 1000000,
    1 / 1000, 25 / 10000, 5 / 1000, 10 / 1000, 25 / 1000, 50 / 1000, 100 / 1000, 250 / 1000, 500 / 1000,
    1, 25 / 10, 5, 10]

/-- The upper bound of a logarithmic bucket in microseconds; the index is cast to `i32`. -/
def upperUs (idx : ℕ) : ℚ := factor ^ wrapI32 idx

/-- The lower bound of a logarithmic bucket in microseconds. -/
def lowerUs (idx : ℕ) : ℚ := if idx = 0 then 0 else factor ^ wrapI32 (wrapI32 idx - 1)

def upperSec (idx : ℕ) : ℚ := upperUs idx / 1000000

def midpointSec (idx : ℕ) : ℚ := (lowerUs idx + upperUs idx) / 2 / 1000000

/-- The accumulators of the first loop of `encode_histogram`. -/
structure HistogramTotals where
  bucketCounts : List ℕ
  totalCount : ℕ
  totalSum : ℚ

namespace HistogramTotals

def new : HistogramTotals :=
  { bucketCounts := List.replicate latencyBuckets.length 0, totalCount := 0, totalSum := 0 }

/-- One turn of the loop: a bucket that is not empty is counted, and added to every Prometheus bucket
whose bound is not below its own. -/
def add (totals : HistogramTotals) (entry : ℕ × ℕ) : HistogramTotals :=
  let count := entry.1
  let idx := entry.2
  if count = 0 then totals
  else
    { bucketCounts := List.zipWith (fun bucketCount bucketBound =>
        if upperSec idx ≤ bucketBound then bucketCount + count else bucketCount)
        totals.bucketCounts latencyBuckets
      totalCount := totals.totalCount + count
      totalSum := totals.totalSum + midpointSec idx * count }

def ofSnapshot (snapshot : List ℕ) : HistogramTotals := snapshot.zipIdx.foldl add new

end HistogramTotals

/-- A line of the output. -/
inductive MetricLine where
  | help
  | type
  | bucket (le : ℚ) (cumulative : ℕ)
  | bucketInf (total : ℕ)
  | sum (value : ℚ)
  | count (total : ℕ)
  deriving DecidableEq

namespace MetricLine

/-- The text of a line, `fixed` being the formatting of a float with six decimals. -/
def render (fixed : ℚ → String) : MetricLine → String
  | .help => "# HELP dwd_latency_seconds Response latency histogram in seconds\n"
  | .type => "# TYPE dwd_latency_seconds histogram\n"
  | .bucket le cumulative =>
      "dwd_latency_seconds_bucket\x7ble=\"" ++ fixed le ++ "\"\x7d " ++ toString cumulative ++ "\n"
  | .bucketInf total => "dwd_latency_seconds_bucket\x7ble=\"+Inf\"\x7d " ++ toString total ++ "\n"
  | .sum value => "dwd_latency_seconds_sum " ++ fixed value ++ "\n"
  | .count total => "dwd_latency_seconds_count " ++ toString total ++ "\n"

end MetricLine

/-- The second loop: the bucket lines, with what has been accumulated before them. -/
def bucketLines : ℕ → List (ℚ × ℕ) → List MetricLine
  | _, [] => []
  | cumulative, (bound, bucketCount) :: rest =>
      .bucket bound (cumulative + bucketCount) :: bucketLines (cumulative + bucketCount) rest

/-- The lines that `encode_histogram` writes. -/
def histogramLines (hist : LogHistogram) : List MetricLine :=
  let totals := HistogramTotals.ofSnapshot hist.snapshot
  [.help, .type] ++ bucketLines 0 (latencyBuckets.zip totals.bucketCounts) ++
    [.bucketInf totals.totalCount, .sum totals.totalSum, .count totals.totalCount]

/-- `encode_histogram`. -/
def encodeHistogram (fixed : ℚ → String) (hist : LogHistogram) : String :=
  String.join ((histogramLines hist).map (MetricLine.render fixed))

/-- The counts of exactly those logarithmic buckets whose upper bound is at most `bound`. -/
def countBelow (snapshot : List ℕ) (bound : ℚ) : ℕ :=
  ((snapshot.zipIdx.filter fun entry => upperSec entry.2 ≤ bound).map Prod.fst).sum

theorem countBelow_nil (bound : ℚ) : countBelow [] bound = 0 := rfl

theorem countBelow_concat (snapshot : List ℕ) (count : ℕ) (bound : ℚ) :
    countBelow (snapshot ++ [count]) bound =
      countBelow snapshot bound + if upperSec snapshot.length ≤ bound then count else 0 := by
  rw [countBelow, countBelow, List.zipIdx_append, List.filter_append, List.map_append, List.sum_append,
    Nat.zero_add, List.zipIdx_singleton]
  congr 1
  by_cases h : upperSec snapshot.length ≤ bound
  · rw [List.filter_cons_of_pos (by simpa using h), if_pos h]
    rfl
  · rw [List.filter_cons_of_neg (by simpa using h), if_neg h]
    rfl

theorem countBelow_mono (snapshot : List ℕ) : Monotone (countBelow snapshot) := by
  intro bound bound' h
  induction snapshot using List.reverseRecOn with
  | nil => rw [countBelow_nil, countBelow_nil]
  | append_singleton snapshot count ih =>
      rw [countBelow_concat, countBelow_concat]
      split_ifs with hlow hhigh
      · exact Nat.add_le_add_right ih count
      · exact absurd (hlow.trans h) hhigh
      · exact ih.trans (Nat.le_add_right _ _)
      · exact ih

theorem countBelow_le_sum (snapshot : List ℕ) (bound : ℚ) : countBelow snapshot bound ≤ snapshot.sum := by
  induction snapshot using List.reverseRecOn with
  | nil =>
      rw [countBelow_nil]
      exact Nat.zero_le _
  | append_singleton snapshot count ih =>
      rw [countBelow_concat, List.sum_append, List.sum_singleton]
      split_ifs
      · omega
      · omega

/-- The counts below a bound are all zero when no bucket that is not empty ends below it. -/
theorem countBelow_eq_zero_iff (snapshot : List ℕ) (bound : ℚ) :
    countBelow snapshot bound = 0 ↔
      ∀ idx count, snapshot[idx]? = some count → count ≠ 0 → bound < upperSec idx := by
  induction snapshot using List.reverseRecOn with
  | nil => simp [countBelow_nil]
  | append_singleton snapshot count ih =>
      rw [countBelow_concat, Nat.add_eq_zero_iff, ih]
      constructor
      · rintro ⟨hbefore, hlast⟩ idx c hidx hc
        by_cases hlt : idx < snapshot.length
        · rw [List.getElem?_append_left hlt] at hidx
          exact hbefore idx c hidx hc
        · rw [List.getElem?_append_right (not_lt.mp hlt), List.getElem?_singleton] at hidx
          split_ifs at hidx with hzero
          obtain rfl := Option.some.inj hidx
          obtain rfl : idx = snapshot.length := by omega
          by_contra hle
          rw [if_pos (not_lt.mp hle)] at hlast
          exact hc hlast
      · intro h
        refine ⟨fun idx c hidx => h idx c ?_, ?_⟩
        · rw [List.getElem?_append_left (List.getElem?_eq_some_iff.mp hidx).1]
          exact hidx
        · split_ifs with hle
          · by_contra hc
            exact absurd hle (not_le.mpr (h snapshot.length count (by simp) hc))
          · rfl

namespace HistogramTotals

theorem ofSnapshot_concat (snapshot : List ℕ) (count : ℕ) :
    ofSnapshot (snapshot ++ [count]) = (ofSnapshot snapshot).add (count, snapshot.length) := by
  rw [ofSnapshot, List.zipIdx_append, List.foldl_append]
  simp [ofSnapshot]

/-- The first loop adds up what is asked for. -/
theorem ofSnapshot_bucketCounts (snapshot : List ℕ) :
    (ofSnapshot snapshot).bucketCounts = latencyBuckets.map (countBelow snapshot) := by
  induction snapshot using List.reverseRecOn with
  | nil => rfl
  | append_singleton snapshot count ih =>
      rw [ofSnapshot_concat, add]
      by_cases hcount : count = 0
      · rw [if_pos hcount, ih]
        congr 1
        funext bound
        rw [countBelow_concat, hcount, ite_self, Nat.add_zero]
      · rw [if_neg hcount]
        show List.zipWith _ (ofSnapshot snapshot).bucketCounts latencyBuckets = _
        rw [ih, List.zipWith_map_left, List.zipWith_self]
        congr 1
        funext bound
        rw [countBelow_concat]
        split_ifs
        · rfl
        · rfl

theorem ofSnapshot_totalCount (snapshot : List ℕ) : (ofSnapshot snapshot).totalCount = snapshot.sum := by
  induction snapshot using List.reverseRecOn with
  | nil => rfl
  | append_singleton snapshot count ih =>
      rw [ofSnapshot_concat, add, List.sum_append, List.sum_singleton]
      by_cases hcount : count = 0
      · rw [if_pos hcount, ih, hcount, Nat.add_zero]
      · rw [if_neg hcount, ih]

end HistogramTotals

/-- A bucket line shows its own count and everything before it. -/
theorem mem_bucketLines {f : ℚ → ℕ} {cumulative v : ℕ} {bounds : List ℚ} {le : ℚ} :
    .bucket le v ∈ bucketLines cumulative (bounds.zip (bounds.map f)) ↔
      ∃ before after, bounds = before ++ le :: after ∧ v = cumulative + (before.map f).sum + f le := by
  induction bounds generalizing cumulative with
  | nil => simp [bucketLines]
  | cons bound bounds ih =>
      rw [List.map_cons, List.zip_cons_cons, bucketLines, List.mem_cons, ih]
      constructor
      · rintro (h | ⟨before, after, rfl, rfl⟩)
        · obtain ⟨rfl, rfl⟩ := MetricLine.bucket.inj h
          exact ⟨[], bounds, rfl, by simp⟩
        · refine ⟨bound :: before, after, rfl, ?_⟩
          rw [List.map_cons, List.sum_cons]
          omega
      · rintro ⟨before, after, heq, rfl⟩
        cases before with
        | nil =>
            obtain ⟨rfl, rfl⟩ := List.cons.inj heq
            exact .inl (by simp)
        | cons b before =>
            obtain ⟨rfl, rfl⟩ := List.cons.inj heq
            refine .inr ⟨before, after, rfl, ?_⟩
            rw [List.map_cons, List.sum_cons]
            omega

/-- The printed bounds and values, in order. -/
def printed (lines : List MetricLine) : List (ℚ × ℕ) :=
  lines.filterMap fun
    | .bucket le v => some (le, v)
    | _ => none

theorem mem_printed {lines : List MetricLine} {le : ℚ} {v : ℕ} :
    (le, v) ∈ printed lines ↔ .bucket le v ∈ lines := by
  unfold printed
  rw [List.mem_filterMap]
  constructor
  · rintro ⟨line, hline, h⟩
    cases line with
    | bucket le' v' =>
        obtain ⟨rfl, rfl⟩ := Prod.mk.inj (Option.some.inj h)
        exact hline
    | _ => cases h
  · intro h
    exact ⟨_, h, rfl⟩

theorem printed_bucketLines_sorted (cumulative : ℕ) (counts : List (ℚ × ℕ)) :
    (∀ p ∈ printed (bucketLines cumulative counts), cumulative ≤ p.2) ∧
      (printed (bucketLines cumulative counts)).Pairwise fun p p' => p.2 ≤ p'.2 := by
  induction counts generalizing cumulative with
  | nil => exact ⟨by simp [printed, bucketLines], List.Pairwise.nil⟩
  | cons entry counts ih =>
      obtain ⟨bound, count⟩ := entry
      obtain ⟨hle, hsorted⟩ := ih (cumulative + count)
      have hcons : printed (bucketLines cumulative ((bound, count) :: counts)) =
          (bound, cumulative + count) :: printed (bucketLines (cumulative + count) counts) := rfl
      rw [hcons]
      refine ⟨?_, List.pairwise_cons.mpr ⟨hle, hsorted⟩⟩
      intro p hp
      rcases List.mem_cons.mp hp with rfl | hp
      · exact Nat.le_add_right _ _
      · exact (Nat.le_add_right _ _).trans (hle p hp)

theorem printed_histogramLines (hist : LogHistogram) :
    printed (histogramLines hist) =
      printed (bucketLines 0 (latencyBuckets.zip (latencyBuckets.map (countBelow hist.snapshot)))) := by
  rw [histogramLines, HistogramTotals.ofSnapshot_bucketCounts]
  simp only [printed, List.filterMap_append]
  simp

/-! ### The histogram law -/

/-- What a Prometheus histogram is to show: each bound its own buckets, in a series that does not
decrease and stays within the `+Inf` bucket and the count. -/
structure HistogramLaw (hist : LogHistogram) : Prop where
  exact : ∀ le v, .bucket le v ∈ histogramLines hist → v = countBelow hist.snapshot le
  sorted : (printed (histogramLines hist)).Pairwise fun p p' => p.1 < p'.1 ∧ p.2 ≤ p'.2
  inf : ∀ le v total, .bucket le v ∈ histogramLines hist → .bucketInf total ∈ histogramLines hist →
    v ≤ total
  count : ∀ le v total, .bucket le v ∈ histogramLines hist → .count total ∈ histogramLines hist →
    v ≤ total

/-- What is printed for a bound: the counts below it, and the counts below every bound before it. -/
theorem mem_histogramLines {hist : LogHistogram} {le : ℚ} {v : ℕ} :
    .bucket le v ∈ histogramLines hist ↔ ∃ before after, latencyBuckets = before ++ le :: after ∧
      v = (before.map (countBelow hist.snapshot)).sum + countBelow hist.snapshot le := by
  rw [← mem_printed, printed_histogramLines, mem_printed, mem_bucketLines]
  simp only [Nat.zero_add]

theorem eq_bucket_of_mem_bucketLines {cumulative : ℕ} {counts : List (ℚ × ℕ)} {line : MetricLine}
    (h : line ∈ bucketLines cumulative counts) : ∃ le v, line = .bucket le v := by
  induction counts generalizing cumulative with
  | nil => cases h
  | cons entry counts ih =>
      rcases List.mem_cons.mp h with rfl | h
      · exact ⟨_, _, rfl⟩
      · exact ih h

/-- The `+Inf` bucket and the count are the whole histogram. -/
theorem total_of_mem_histogramLines {hist : LogHistogram} {total : ℕ} {line : MetricLine}
    (hline : line = .bucketInf total ∨ line = .count total) (h : line ∈ histogramLines hist) :
    total = hist.snapshot.sum := by
  have hbucket : ∀ counts, line ∉ bucketLines 0 counts := by
    intro counts hmem
    obtain ⟨le, v, rfl⟩ := eq_bucket_of_mem_bucketLines hmem
    rcases hline with h | h <;> cases h
  rw [histogramLines, HistogramTotals.ofSnapshot_totalCount, List.mem_append, List.mem_append] at h
  rcases h with (h | h) | h
  · rcases hline with rfl | rfl <;> simp at h
  · exact absurd h (hbucket _)
  · rcases hline with rfl | rfl <;> simpa using h

theorem printed_bounds (cumulative : ℕ) {bounds : List ℚ} {counts : List ℕ}
    (h : bounds.length = counts.length) :
    (printed (bucketLines cumulative (bounds.zip counts))).map Prod.fst = bounds := by
  induction bounds generalizing cumulative counts with
  | nil => rfl
  | cons bound bounds ih =>
      cases counts with
      | nil => cases h
      | cons count counts =>
          show bound :: _ = bound :: bounds
          exact congrArg (bound :: ·) (ih (cumulative + count) (Nat.succ.inj h))

theorem latencyBuckets_sorted : latencyBuckets.Pairwise (· < ·) := by
  decide +kernel

theorem le_five_of_before_last {bound : ℚ} (h : bound ∈ latencyBuckets) : bound = 10 ∨ bound ≤ 5 := by
  revert bound
  decide +kernel

/-- Whatever the counts are, the series does not decrease. -/
theorem printed_sorted (hist : LogHistogram) :
    (printed (histogramLines hist)).Pairwise fun p p' => p.1 < p'.1 ∧ p.2 ≤ p'.2 := by
  rw [printed_histogramLines]
  apply List.Pairwise.and
  · rw [← List.pairwise_map (f := Prod.fst) (R := (· < ·)), printed_bounds _ (by simp)]
    exact latencyBuckets_sorted
  · exact (printed_bucketLines_sorted _ _).2

/-- **The histogram law holds exactly of the histograms that have nothing at or below 5 seconds**: a
count below a bound is counted again for every bound before it, so it must be below none but the last
one. -/
theorem histogramLaw_iff (hist : LogHistogram) :
    HistogramLaw hist ↔
      ∀ idx count, hist.snapshot[idx]? = some count → count ≠ 0 → 5 < upperSec idx := by
  rw [← countBelow_eq_zero_iff]
  constructor
  · intro h
    have hlast : latencyBuckets = latencyBuckets.dropLast ++ 10 :: [] := rfl
    have hten := h.exact 10 _ (mem_histogramLines.mpr ⟨_, _, hlast, rfl⟩)
    have hmem : countBelow hist.snapshot 5 ∈ latencyBuckets.dropLast.map (countBelow hist.snapshot) :=
      List.mem_map_of_mem (by decide +kernel)
    have hle := List.single_le_sum (fun _ _ => Nat.zero_le _) _ hmem
    omega
  · intro hzero
    have hexact : ∀ le v, .bucket le v ∈ histogramLines hist → v = countBelow hist.snapshot le := by
      intro le v h
      obtain ⟨before, after, heq, rfl⟩ := mem_histogramLines.mp h
      have hsum : (before.map (countBelow hist.snapshot)).sum = 0 := by
        rw [List.sum_eq_zero_iff]
        intro c hc
        obtain ⟨bound, hbound, rfl⟩ := List.mem_map.mp hc
        have hsorted := latencyBuckets_sorted
        rw [heq] at hsorted
        have hlt : bound < le := (List.pairwise_append.mp hsorted).2.2 bound hbound le (by simp)
        have hle : le ≤ 10 := by
          rcases le_five_of_before_last (heq ▸ by simp : le ∈ latencyBuckets) with rfl | hle
          · exact le_rfl
          · linarith
        have hfive : bound ≤ 5 := by
          rcases le_five_of_before_last (heq ▸ by simp [hbound] : bound ∈ latencyBuckets) with rfl | hfive
          · linarith
          · exact hfive
        exact Nat.le_zero.mp (hzero ▸ countBelow_mono hist.snapshot hfive)
      rw [hsum, Nat.zero_add]
    have hbound : ∀ le v, .bucket le v ∈ histogramLines hist → v ≤ hist.snapshot.sum := by
      intro le v h
      rw [hexact le v h]
      exact countBelow_le_sum _ _
    refine ⟨hexact, printed_sorted hist, fun le v total h htotal => ?_, fun le v total h htotal => ?_⟩
    · rw [total_of_mem_histogramLines (.inl rfl) htotal]
      exact hbound le v h
    · rw [total_of_mem_histogramLines (.inr rfl) htotal]
      exact hbound le v h

/-- One latency of a microsecond: two are printed for `le="0.000010"`, and one for `le="+Inf"`. -/
theorem histogramLaw_not_single :
    .bucket (10 / 1000000) 2 ∈ histogramLines ⟨[1]⟩ ∧ countBelow [1] (10 / 1000000) = 1 ∧
      .bucketInf 1 ∈ histogramLines ⟨[1]⟩ ∧ ¬ HistogramLaw ⟨[1]⟩ := by
  have hmem : .bucket (10 / 1000000) 2 ∈ histogramLines ⟨[1]⟩ := by decide +kernel
  have hcount : countBelow [1] (10 / 1000000) = 1 := by decide +kernel
  refine ⟨hmem, hcount, by decide +kernel, fun h => ?_⟩
  have := h.exact _ _ hmem
  rw [hcount] at this
  exact absurd this (by decide)

end Dwd
