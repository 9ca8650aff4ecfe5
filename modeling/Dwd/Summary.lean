import Dwd.LibSampling
import Dwd.LibTally
import Dwd.Snapshot
import Mathlib.Data.List.GetD
import Mathlib.Data.List.Sort

/-! The summary at the end of a run. A thread of its own wakes up every fifty milliseconds, and once a second it
takes a snapshot and notes the rate since the last one; what is reported are the median, the least and the
greatest of these rates, and the mean of the targets. Floating-point numbers are exact here. -/

namespace Dwd

/-- What the sampler finds when it wakes up: the time, and the snapshot if it takes one. -/
structure Wake where
  now : ℕ
  snapshot : StatsSnapshot

def Wake.requests (w : Wake) : ℕ := (w.snapshot.tx.map fun tx => tx.numRequests).getD 0

/-- `Sampler`, without its source. -/
structure Sampler where
  started : ℕ
  stopped : ℕ
  prevAt : ℕ
  prevRequests : ℕ
  rates : List ℚ
  targets : List ℕ

/-- `SAMPLE_INTERVAL`. -/
def sampleInterval : ℕ := Duration.fromSecs 1

namespace Sampler

def new (now : ℕ) : Sampler :=
  { started := now
    stopped := now
    prevAt := now
    prevRequests := 0
    rates := []
    targets := [] }

def sample (w : Wake) (s : Sampler) : Sampler :=
  let elapsed := Duration.asSecs (Instant.durationSince w.now s.prevAt)
  { s with
    rates := if 0 < elapsed then s.rates ++ [((w.requests - s.prevRequests : ℕ) : ℚ) / elapsed] else s.rates
    targets := s.targets ++ [w.snapshot.generatorRps]
    prevAt := w.now
    prevRequests := w.requests }

/-- The loop of `run`, until the flag is found cleared. -/
def loop : List Wake → ℕ → Sampler → Sampler
  | [], _, s => s
  | w :: wakes, nextSample, s =>
      if nextSample ≤ w.now then loop wakes (w.now + sampleInterval) (s.sample w)
      else loop wakes nextSample s

/-- `run`: the instant at which the flag is found cleared is noted. -/
def run (wakes : List Wake) (stopped : ℕ) (s : Sampler) : Sampler :=
  { loop wakes (s.started + sampleInterval) s with stopped := stopped }

end Sampler

/-- `f64::round` and a cast to `u64`, of a number that is not negative. -/
def roundU64 (x : ℚ) : ℕ := truncU64 (x + 1 / 2)

/-- `distribution`: the median, the least and the greatest of the rates. -/
def distribution (rates : List ℚ) : Option (ℕ × ℕ × ℕ) :=
  if rates = [] then none
  else
    let sorted := rates.insertionSort (· ≤ ·)
    let mid := sorted.length / 2
    let median :=
      if sorted.length % 2 = 1 then sorted.getD mid 0 else (sorted.getD (mid - 1) 0 + sorted.getD mid 0) / 2
    some (roundU64 median, roundU64 (sorted.getD 0 0), roundU64 (sorted.getD (sorted.length - 1) 0))

/-- `mean`: the sum of the samples wraps. -/
def mean (samples : List ℕ) : Option ℕ :=
  if samples = [] then none else some (samples.sum % 2 ^ 64 / samples.length)

def pct (part whole : ℕ) : ℚ := if whole = 0 then 0 else 100 * part / whole

namespace Sampler

/-- The samples of a sampler that starts at `t0`. -/
abbrev samples (t0 : ℕ) (wakes : List Wake) : List Wake := Sampling.sampled Wake.now sampleInterval t0 wakes

/-- What the loop notes, in terms of its samples. -/
theorem loop_eq (wakes : List Wake) (s : Sampler) :
    loop wakes (s.prevAt + sampleInterval) s =
      { s with
        rates := s.rates ++
          Sampling.rates Wake.now Wake.requests (nanosPerSec : ℚ) s.prevAt s.prevRequests (samples s.prevAt wakes)
        targets := s.targets ++ (samples s.prevAt wakes).map fun w => w.snapshot.generatorRps
        prevAt := Sampling.last Wake.now s.prevAt (samples s.prevAt wakes)
        prevRequests := Sampling.last Wake.requests s.prevRequests (samples s.prevAt wakes) } := by
  induction wakes generalizing s with
  | nil => simp [loop, Sampling.sampled, Sampling.rates, Sampling.last]
  | cons w wakes ih =>
      rw [loop, samples, Sampling.sampled]
      split_ifs with hnow
      · have hpos : 0 < Duration.asSecs (Instant.durationSince w.now s.prevAt) := by
          have hlt : 0 < w.now - s.prevAt := by
            have : 0 < sampleInterval := by decide
            omega
          exact div_pos (Nat.cast_pos.mpr hlt) nanosPerSec_pos
        have hrest := ih (s.sample w)
        rw [show (s.sample w).prevAt = w.now from rfl] at hrest
        rw [hrest]
        simp only [sample, if_pos hpos, Sampling.rates, List.append_assoc, List.singleton_append, List.map_cons,
          Sampling.last_cons]
        rfl
      · exact ih s

/-- What `run` notes. -/
theorem run_eq (wakes : List Wake) (t0 stopped : ℕ) :
    (new t0).run wakes stopped =
      { started := t0
        stopped := stopped
        prevAt := Sampling.last Wake.now t0 (samples t0 wakes)
        prevRequests := Sampling.last Wake.requests 0 (samples t0 wakes)
        rates := Sampling.rates Wake.now Wake.requests (nanosPerSec : ℚ) t0 0 (samples t0 wakes)
        targets := (samples t0 wakes).map fun w => w.snapshot.generatorRps } := by
  have hloop : loop wakes (t0 + sampleInterval) (new t0) = _ := loop_eq wakes (new t0)
  show { loop wakes (t0 + sampleInterval) (new t0) with stopped := stopped } = _
  rw [hloop]
  rfl

/-- **The samples account for the whole count.** Whenever the sampler wakes up, if the counter that it reads does
not go back: there is a target for each rate; each rate is what was counted over how long it took, whole numbers
which add up to the last count and to the time up to the last sample, a second at least for each; and so the rates
times their spans add up to the last count. -/
theorem rates_account (wakes : List Wake) (t0 stopped : ℕ) (hcounts : Sampling.Counts Wake.requests 0 wakes) :
    let s := (new t0).run wakes stopped
    s.rates.length = s.targets.length ∧ t0 + s.rates.length * sampleInterval ≤ s.prevAt ∧
      ∃ counted nanos : List ℕ, counted.length = s.rates.length ∧ nanos.length = s.rates.length ∧
        s.rates = List.zipWith (fun (c d : ℕ) => (c : ℚ) / Duration.asSecs d) counted nanos ∧
        (∀ d ∈ nanos, sampleInterval ≤ d) ∧ nanos.sum = Instant.durationSince s.prevAt t0 ∧
        counted.sum = s.prevRequests ∧
        Sampling.weighted (s.rates.zip (nanos.map Duration.asSecs)) = s.prevRequests := by
  rw [run_eq]
  have hspaced : Sampling.Spaced Wake.now sampleInterval t0 (samples t0 wakes) :=
    Sampling.sampled_spaced t0 wakes
  have hsampled : Sampling.Counts Wake.requests 0 (samples t0 wakes) := Sampling.sampled_counts hcounts t0
  refine ⟨?_, ?_, Sampling.increments Wake.requests 0 (samples t0 wakes),
    Sampling.increments Wake.now t0 (samples t0 wakes), ?_, ?_, Sampling.rates_eq_zipWith t0 0 (samples t0 wakes),
    Sampling.le_of_mem_increments hspaced, Sampling.sum_increments hspaced.counts,
    Sampling.sum_increments hsampled, ?_⟩
  · rw [Sampling.length_rates, List.length_map]
  · rw [Sampling.length_rates]
    exact hspaced.le_last
  · rw [Sampling.length_increments, Sampling.length_rates]
  · rw [Sampling.length_increments, Sampling.length_rates]
  · have hweighted := Sampling.weighted_rates hspaced hsampled (by decide) nanosPerSec_pos
    rw [Sampling.spans_eq_map] at hweighted
    exact hweighted

/-- Two seconds and a half of a sampler that wakes up twice a second. -/
def twoSamples : List Wake :=
  [(500000000, 40), (1000000000, 100), (1500000000, 220), (2000000000, 400), (2500000000, 500)].map fun w =>
    { now := w.1
      snapshot :=
        { generatorRps := 200
          tx := some { numRequests := w.2, bytesTx := 0 }
          rx := none
          socket := none
          http := none
          burstTx := none } }

theorem twoSamples_counts : Sampling.Counts Wake.requests 0 twoSamples := by
  simp [twoSamples, Sampling.Counts, Wake.requests]

theorem rates_account_twoSamples :
    let s := (new 0).run twoSamples 3000000000
    s.rates.length = s.targets.length ∧ 0 + s.rates.length * sampleInterval ≤ s.prevAt ∧
      ∃ counted nanos : List ℕ, counted.length = s.rates.length ∧ nanos.length = s.rates.length ∧
        s.rates = List.zipWith (fun (c d : ℕ) => (c : ℚ) / Duration.asSecs d) counted nanos ∧
        (∀ d ∈ nanos, sampleInterval ≤ d) ∧ nanos.sum = Instant.durationSince s.prevAt 0 ∧
        counted.sum = s.prevRequests ∧
        Sampling.weighted (s.rates.zip (nanos.map Duration.asSecs)) = s.prevRequests :=
  rates_account twoSamples 0 3000000000 twoSamples_counts

end Sampler

theorem roundU64_mono : Monotone roundU64 := fun x y h =>
  min_le_min_right _ (Nat.floor_mono (by linarith))

/-- In a sorted list, what stands earlier is smaller. -/
theorem getD_le_getD {sorted : List ℚ} (h : sorted.Pairwise (· ≤ ·)) {i j : ℕ} (hij : i ≤ j)
    (hj : j < sorted.length) : sorted.getD i 0 ≤ sorted.getD j 0 := by
  rw [List.getD_eq_getElem _ _ (by omega), List.getD_eq_getElem _ _ hj]
  rcases hij.lt_or_eq with hlt | rfl
  · exact List.pairwise_iff_getElem.mp h i j _ hj hlt
  · exact le_rfl

theorem mem_bounds {sorted : List ℚ} (h : sorted.Pairwise (· ≤ ·)) {r : ℚ} (hr : r ∈ sorted) :
    sorted.getD 0 0 ≤ r ∧ r ≤ sorted.getD (sorted.length - 1) 0 := by
  obtain ⟨i, hi, rfl⟩ := List.mem_iff_getElem.mp hr
  rw [← List.getD_eq_getElem _ 0 hi]
  exact ⟨getD_le_getD h (Nat.zero_le i) hi, getD_le_getD h (by omega) (by omega)⟩

theorem orderStatistic_eq_getD {rates : List ℚ} {k : ℕ} (hk : k < rates.length) :
    Tally.orderStatistic rates k = some ((rates.insertionSort (· ≤ ·)).getD k 0) := by
  have hk' : k < (rates.insertionSort (· ≤ ·)).length := by rwa [List.length_insertionSort]
  rw [List.getD_eq_getElem _ _ hk']
  exact List.getElem?_eq_getElem hk'

/-- The one in the middle, or halfway between the two in the middle. -/
theorem halves_median {rates : List ℚ} (hnil : rates ≠ []) :
    Tally.Halves rates (if rates.length % 2 = 1 then (rates.insertionSort (· ≤ ·)).getD (rates.length / 2) 0
      else ((rates.insertionSort (· ≤ ·)).getD (rates.length / 2 - 1) 0 +
        (rates.insertionSort (· ≤ ·)).getD (rates.length / 2) 0) / 2) := by
  have hlength : 0 < rates.length := List.length_pos_of_ne_nil hnil
  have hmid := orderStatistic_eq_getD (show rates.length / 2 < rates.length by omega)
  split_ifs with hodd
  · exact Tally.halves_of_orderStatistic hmid hmid (by omega) (by omega) le_rfl le_rfl
  · have hbefore := orderStatistic_eq_getD (show rates.length / 2 - 1 < rates.length by omega)
    have hle := getD_le_getD (List.pairwise_insertionSort (· ≤ ·) rates)
      (show rates.length / 2 - 1 ≤ rates.length / 2 by omega) (by rw [List.length_insertionSort]; omega)
    exact Tally.halves_of_orderStatistic hbefore hmid (by omega) (by omega) (by linarith) (by linarith)

/-- The numbers of a report, before they are rounded: a median, and the least and the greatest of the rates. -/
structure Reported (rates : List ℚ) (m l u : ℚ) : Prop where
  least : l ∈ rates ∧ ∀ r ∈ rates, l ≤ r
  greatest : u ∈ rates ∧ ∀ r ∈ rates, r ≤ u
  between : l ≤ m ∧ m ≤ u
  halves : Tally.Halves rates m

theorem distribution_eq_some {rates : List ℚ} {median low high : ℕ}
    (h : distribution rates = some (median, low, high)) :
    ∃ m l u : ℚ, Reported rates m l u ∧ median = roundU64 m ∧ low = roundU64 l ∧ high = roundU64 u := by
  unfold distribution at h
  split_ifs at h with hnil
  have hlength : 0 < rates.length := List.length_pos_of_ne_nil hnil
  have hbounds : ∀ r ∈ rates, _ := fun r hr =>
    mem_bounds (List.pairwise_insertionSort (· ≤ ·) rates) ((List.mem_insertionSort _).mpr hr)
  have hmem : ∀ k < rates.length, (rates.insertionSort (· ≤ ·)).getD k 0 ∈ rates := by
    intro k hk
    obtain ⟨r, hr, hstatistic⟩ := Tally.orderStatistic_isSome hk
    rw [orderStatistic_eq_getD hk] at hstatistic
    exact Option.some.inj hstatistic ▸ hr
  simp only [Option.some.injEq, Prod.mk.injEq, List.length_insertionSort] at h hbounds
  obtain ⟨rfl, rfl, rfl⟩ := h
  have hmid := hbounds _ (hmem (rates.length / 2) (by omega))
  have hbefore := hbounds _ (hmem (rates.length / 2 - 1) (by omega))
  refine ⟨_, _, _, ⟨⟨hmem 0 hlength, fun r hr => (hbounds r hr).1⟩,
    ⟨hmem (rates.length - 1) (by omega), fun r hr => (hbounds r hr).2⟩, ?_, halves_median hnil⟩, rfl, rfl, rfl⟩
  split_ifs
  · exact hmid
  · exact ⟨by linarith [hmid.1, hbefore.1], by linarith [hmid.2, hbefore.2]⟩

namespace Sampler

/-- **What is reported of the rates.** Whenever the sampler wakes up, if the counter that it reads does not go back:
the least and the greatest rate that are reported are the least and the greatest of the rounded rates, half of these
at least are on either side of the median, which lies between the two, and so does the rate of the whole time up to
the last sample, rounded as they are. -/
theorem reported_rates (wakes : List Wake) (t0 stopped : ℕ) (hcounts : Sampling.Counts Wake.requests 0 wakes)
    (median low high : ℕ) (h : distribution ((new t0).run wakes stopped).rates = some (median, low, high)) :
    let s := (new t0).run wakes stopped
    let rounded := s.rates.map roundU64
    let average := roundU64 (s.prevRequests / Duration.asSecs (Instant.durationSince s.prevAt t0))
    (low ∈ rounded ∧ ∀ r ∈ rounded, low ≤ r) ∧ (high ∈ rounded ∧ ∀ r ∈ rounded, r ≤ high) ∧
      Tally.Halves rounded median ∧ (low ≤ median ∧ median ≤ high) ∧ low ≤ average ∧ average ≤ high := by
  obtain ⟨m, l, u, hreported, rfl, rfl, rfl⟩ := distribution_eq_some h
  obtain ⟨⟨hl, hleast⟩, ⟨hu, hgreatest⟩, ⟨hlm, hmu⟩, hhalves⟩ := hreported
  refine ⟨⟨List.mem_map_of_mem hl, ?_⟩, ⟨List.mem_map_of_mem hu, ?_⟩, hhalves.map roundU64_mono,
    ⟨roundU64_mono hlm, roundU64_mono hmu⟩, ?_⟩
  · exact List.forall_mem_map.mpr fun r hr => roundU64_mono (hleast r hr)
  · exact List.forall_mem_map.mpr fun r hr => roundU64_mono (hgreatest r hr)
  have hbounds : ∀ r ∈ ((new t0).run wakes stopped).rates, l ≤ r ∧ r ≤ u := fun r hr => ⟨hleast r hr, hgreatest r hr⟩
  rw [run_eq] at h hbounds ⊢
  have hspaced : Sampling.Spaced Wake.now sampleInterval t0 (samples t0 wakes) :=
    Sampling.sampled_spaced t0 wakes
  have hsampled : Sampling.Counts Wake.requests 0 (samples t0 wakes) := Sampling.sampled_counts hcounts t0
  have hsamples : samples t0 wakes ≠ [] := by
    intro hnil
    rw [hnil] at h
    cases h
  have hmean := Sampling.mean_rate_mem_bounds hspaced hsampled (by decide) nanosPerSec_pos hsamples hbounds
  rw [Nat.sub_zero] at hmean
  exact ⟨roundU64_mono hmean.1, roundU64_mono hmean.2⟩

/-- A hundred requests in the first second, three hundred in the next one. -/
theorem reported_rates_twoSamples :
    let s := (new 0).run twoSamples 3000000000
    let rounded := s.rates.map roundU64
    let average := roundU64 (s.prevRequests / Duration.asSecs (Instant.durationSince s.prevAt 0))
    (100 ∈ rounded ∧ ∀ r ∈ rounded, 100 ≤ r) ∧ (300 ∈ rounded ∧ ∀ r ∈ rounded, r ≤ 300) ∧
      Tally.Halves rounded 200 ∧ (100 ≤ 200 ∧ 200 ≤ 300) ∧ 100 ≤ average ∧ average ≤ 300 :=
  reported_rates twoSamples 0 3000000000 twoSamples_counts 200 100 300 (by decide +kernel)

end Sampler

end Dwd
