import Dwd.DpdkTransmit
import Dwd.Summary

/-! The report on the bursts of a DPDK run. Each worker counts its bursts by their size; the last snapshot adds the
counters of the workers up, and the summary prints how many bursts there were, their mean size, and how many percent
of them were full. The mean size is that of the packets sent, and it is between two bounds that the share of the full
bursts sets. Floating-point numbers are exact here. -/

namespace Dwd

/-- `burst_stats`: the number of bursts, their mean size, and the percentage of the full ones. -/
def burstStats (counts : List ℕ) : Option (ℕ × ℚ × ℚ) :=
  let total := counts.sum
  if total = 0 then none
  else
    let weighted : ℕ := (counts.mapIdx fun idx c => (idx + 1) * c).sum
    let full := counts.getLast?.getD 0
    some (total, (weighted : ℚ) / total, 100 * full / total)

namespace Dpdk

/-- `num_bursts_tx` of all workers. -/
def numBurstsTx (workers : List State) (idx : ℕ) : ℕ :=
  (workers.map fun s => s.worker.stat.burstsTx.hist.getD idx 0).sum

/-- `num_requests` of all workers. -/
def numRequests (workers : List State) : ℕ := (workers.map fun s => s.worker.stat.tx.numRequests).sum

/-- `burst_tx_stats`. -/
def burstTxStats (workers : List State) : List ℕ := (List.range LiveStat.burstTxBuckets).map (numBurstsTx workers)

theorem weighted_append (counts : List ℕ) (c : ℕ) :
    weighted (counts ++ [c]) = weighted counts + (counts.length + 1) * c := by
  rw [weighted, List.mapIdx_append, List.sum_append, List.mapIdx_singleton, List.sum_singleton, Nat.zero_add]
  rfl

/-- A burst has one packet at least. -/
theorem sum_le_weighted (counts : List ℕ) : counts.sum ≤ weighted counts := by
  induction counts using List.reverseRecOn with
  | nil => exact le_rfl
  | append_singleton counts c ih =>
      rw [weighted_append, List.sum_append, List.sum_singleton, Nat.add_mul, Nat.one_mul]
      exact Nat.add_le_add ih (Nat.le_add_left c _)

/-- A burst has no more packets than there are counters. -/
theorem weighted_le_length_mul (counts : List ℕ) : weighted counts ≤ counts.length * counts.sum := by
  induction counts using List.reverseRecOn with
  | nil => exact le_rfl
  | append_singleton counts c ih =>
      rw [weighted_append, List.sum_append, List.sum_singleton, List.length_append, List.length_singleton]
      calc weighted counts + (counts.length + 1) * c
          ≤ counts.length * counts.sum + (counts.length + 1) * c := Nat.add_le_add_right ih _
        _ ≤ (counts.length + 1) * (counts.sum + c) := by rw [Nat.mul_add]; gcongr; omega

theorem weighted_map_range (n : ℕ) (f : ℕ → ℕ) :
    weighted ((List.range n).map f) = ((List.range n).map fun idx => (idx + 1) * f idx).sum := by
  induction n with
  | zero => rfl
  | succ n ih =>
      rw [List.range_succ, List.map_append, List.map_append, List.sum_append, ← ih, List.map_singleton,
        weighted_append, List.length_map, List.length_range, List.map_singleton, List.sum_singleton]

theorem map_range_getD {hist : List ℕ} {n : ℕ} (h : hist.length = n) :
    (List.range n).map (fun idx => hist.getD idx 0) = hist := by
  subst h
  refine List.ext_getElem (by simp) fun idx hidx hidx' => ?_
  rw [List.getElem_map, List.getElem_range, List.getD_eq_getElem hist 0 hidx']

/-- **What the counters of all workers weigh, the workers' own counters do.** -/
theorem weighted_burstTxStats {workers : List State}
    (hlength : ∀ s ∈ workers, s.worker.stat.burstsTx.hist.length = LiveStat.burstTxBuckets) :
    weighted (burstTxStats workers) = (workers.map fun s => weighted s.worker.stat.burstsTx.hist).sum := by
  induction workers with
  | nil =>
      rw [burstTxStats, weighted_map_range]
      rfl
  | cons s workers ih =>
      have hsplit : (fun idx => (idx + 1) * numBurstsTx (s :: workers) idx) =
          fun idx => (idx + 1) * s.worker.stat.burstsTx.hist.getD idx 0 + (idx + 1) * numBurstsTx workers idx := by
        funext idx
        rw [numBurstsTx, List.map_cons, List.sum_cons, Nat.mul_add]
        rfl
      have hrest := ih fun s hs => hlength s (List.mem_cons_of_mem _ hs)
      rw [burstTxStats, weighted_map_range] at hrest
      rw [burstTxStats, weighted_map_range, hsplit, List.sum_map_add, ← weighted_map_range, hrest,
        map_range_getD (hlength s List.mem_cons_self), List.map_cons, List.sum_cons]

/-- A run of a worker leads to the state, from a buffer with some packets in it. -/
def Reached (s : State) : Prop :=
  ∃ packets now w refcnt actions, packets ≠ [] ∧ (Worker.new now).loadAll packets = some w ∧
    Run.run State.step (State.start w refcnt) actions = some s

theorem Reached.counters {s : State} (h : Reached s) :
    s.worker.stat.burstsTx.hist.length = LiveStat.burstTxBuckets ∧
      weighted s.worker.stat.burstsTx.hist = s.worker.stat.tx.numRequests := by
  obtain ⟨packets, now, w, refcnt, actions, hpackets, hload, hrun⟩ := h
  obtain ⟨walk, htransmits⟩ := Transmits.run hpackets (Worker.loaded_of_loadAll hload) hrun
  exact ⟨htransmits.histLength, htransmits.bursts.trans htransmits.requests.symm⟩

theorem weighted_eq_numRequests {workers : List State} (h : ∀ s ∈ workers, Reached s) :
    weighted (burstTxStats workers) = numRequests workers := by
  rw [weighted_burstTxStats fun s hs => (h s hs).counters.1, numRequests]
  exact congrArg List.sum (List.map_congr_left fun s hs => (h s hs).counters.2)

/-- The full bursts weigh as much as they can, and every other burst less. -/
theorem weighted_mem_bounds (workers : List State) :
    let counts := burstTxStats workers
    let full := counts.getLast?.getD 0
    full ≤ counts.sum ∧ counts.sum + 31 * full ≤ weighted counts ∧ weighted counts ≤ 31 * counts.sum + full := by
  intro counts full
  have hrange : List.range LiveStat.burstTxBuckets = List.range 31 ++ [31] := List.range_succ
  have hcounts : counts = (List.range 31).map (numBurstsTx workers) ++ [numBurstsTx workers 31] := by
    show (List.range LiveStat.burstTxBuckets).map (numBurstsTx workers) = _
    rw [hrange, List.map_append, List.map_singleton]
  have hfull : full = numBurstsTx workers 31 := by
    show counts.getLast?.getD 0 = _
    rw [hcounts, List.getLast?_concat]
    rfl
  have hlow := sum_le_weighted ((List.range 31).map (numBurstsTx workers))
  have hhigh := weighted_le_length_mul ((List.range 31).map (numBurstsTx workers))
  rw [List.length_map, List.length_range] at hhigh
  rw [hfull, hcounts, weighted_append, List.sum_append, List.sum_singleton, List.length_map, List.length_range]
  omega

/-- The bounds of the weight, as bounds of the mean size and the percentage. -/
theorem report_bounds {total packets full : ℕ} (hpos : 0 < total) (hfull : full ≤ total)
    (hlow : total + 31 * full ≤ packets) (hhigh : packets ≤ 31 * total + full) :
    (0 ≤ (100 * full / total : ℚ) ∧ (100 * full / total : ℚ) ≤ 100) ∧
      1 + 31 * ((100 * full / total : ℚ) / 100) ≤ (packets : ℚ) / total ∧
      (packets : ℚ) / total ≤ 31 + (100 * full / total : ℚ) / 100 ∧
      ((packets : ℚ) / total = 32 ↔ (100 * full / total : ℚ) = 100) := by
  have htotal : (0 : ℚ) < total := Nat.cast_pos.mpr hpos
  have hpct : (100 * full / total : ℚ) / 100 = full / total := by ring
  refine ⟨⟨by positivity, ?_⟩, ?_, ?_, ?_⟩
  · rw [div_le_iff₀ htotal]
    exact_mod_cast Nat.mul_le_mul_left 100 hfull
  · have hone : (1 : ℚ) = total / total := (div_self htotal.ne').symm
    rw [hpct, hone, ← mul_div_assoc, ← add_div]
    exact div_le_div_of_nonneg_right (by exact_mod_cast hlow) htotal.le
  · have hmost : (31 : ℚ) = 31 * total / total := (mul_div_cancel_right₀ 31 htotal.ne').symm
    rw [hpct, hmost, ← add_div]
    exact div_le_div_of_nonneg_right (by exact_mod_cast hhigh) htotal.le
  · rw [div_eq_iff htotal.ne', div_eq_iff htotal.ne']
    have hnat : packets = 32 * total ↔ 100 * full = 100 * total := by omega
    exact_mod_cast hnat

/-- **The report on the bursts.** After any runs of any number of workers, whatever the driver has accepted: there is
a report exactly if a packet was sent; the number of bursts times their mean size is the number of packets sent; and
the mean size fits the share of the full bursts, so that it is 32 exactly if all of them are full. -/
theorem burst_report (workers : List State) (h : ∀ s ∈ workers, Reached s) :
    (burstStats (burstTxStats workers) = none ↔ numRequests workers = 0) ∧
      ∀ total avgSize fullPct, burstStats (burstTxStats workers) = some (total, avgSize, fullPct) →
        total * avgSize = numRequests workers ∧ (0 ≤ fullPct ∧ fullPct ≤ 100) ∧
          1 + 31 * (fullPct / 100) ≤ avgSize ∧ avgSize ≤ 31 + fullPct / 100 ∧ (avgSize = 32 ↔ fullPct = 100) := by
  obtain ⟨hfull, hlow, hhigh⟩ := weighted_mem_bounds workers
  have hweighted := weighted_eq_numRequests h
  constructor
  · rw [burstStats, ite_eq_left_iff]
    simp only [reduceCtorEq, imp_false, not_not]
    omega
  · intro total avgSize fullPct hstats
    rw [burstStats] at hstats
    split_ifs at hstats with hzero
    obtain ⟨rfl, rfl, rfl⟩ : _ ∧ _ ∧ _ := by simpa only [Option.some.injEq, Prod.mk.injEq] using hstats
    exact ⟨by rw [mul_div_cancel₀ _ (Nat.cast_ne_zero.mpr hzero), ← hweighted]; rfl,
      report_bounds (Nat.pos_of_ne_zero hzero) hfull hlow hhigh⟩

/-- A burst of both packets, and one of the first alone. -/
theorem burst_report_two_packets :
    ∃ s, Reached s ∧ burstStats (burstTxStats [s]) = some (2, 3 / 2, 0) ∧
      ((2 : ℕ) : ℚ) * (3 / 2) = numRequests [s] ∧ ((0 : ℚ) ≤ 0 ∧ (0 : ℚ) ≤ 100) ∧
      1 + 31 * ((0 : ℚ) / 100) ≤ 3 / 2 ∧ (3 / 2 : ℚ) ≤ 31 + 0 / 100 ∧ ((3 / 2 : ℚ) = 32 ↔ (0 : ℚ) = 100) := by
  have hload := Worker.loadAll_new 0 [⟨0, 60⟩, ⟨1, 100⟩]
  rw [if_pos (by decide)] at hload
  have hstats : (Run.run State.step (State.start (Worker.filled 0 [⟨0, 60⟩, ⟨1, 100⟩]) fun _ => 1)
      [.refresh, .tick 3 1000000000, .accept 2, .refresh, .tick 1 2000000000, .release, .accept 1]).map
        (fun s => burstStats (burstTxStats [s])) = some (some (2, 3 / 2, 0)) := by decide +kernel
  obtain ⟨s, hrun, hs⟩ := Option.map_eq_some_iff.mp hstats
  have hreached : Reached s := ⟨_, 0, _, _, _, by decide, hload, hrun⟩
  exact ⟨s, hreached, hs, (burst_report [s] fun s' hs' => List.mem_singleton.mp hs' ▸ hreached).2 2 (3 / 2) 0 hs⟩

end Dpdk

end Dwd
