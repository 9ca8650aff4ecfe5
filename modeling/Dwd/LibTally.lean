import Mathlib.Algebra.BigOperators.Group.List.Basic
import Mathlib.Algebra.GroupWithZero.Nat
import Mathlib.Data.List.Sort
import Mathlib.Order.Nat

/-! Samples counted into numbered buckets. A tally holds, for each bucket, how many samples fall into
it. Tallies add up when the samples are put together and do not depend on the order of the samples;
when the bucket is monotone in the sample, the running sum of a tally finds the bucket of each order
statistic. -/

namespace Tally

variable {α : Type} (bucket : α → ℕ)

/-- How many of the samples fall into each of the buckets below `len`. -/
def tally (len : ℕ) (xs : List α) : List ℕ :=
  (List.range len).map fun i => xs.countP fun x => bucket x = i

@[simp] theorem length_tally (len : ℕ) (xs : List α) : (tally bucket len xs).length = len := by
  rw [tally, List.length_map, List.length_range]

theorem getElem?_tally {len i : ℕ} (hi : i < len) (xs : List α) :
    (tally bucket len xs)[i]? = some (xs.countP fun x => bucket x = i) := by
  rw [tally, List.getElem?_map, List.getElem?_range hi, Option.map_some]

theorem tally_nil (len : ℕ) : tally bucket len ([] : List α) = List.replicate len 0 := by
  simp only [tally, List.countP_nil, List.map_const', List.length_range]

/-- One more sample counts one more in its bucket. -/
theorem tally_concat (len : ℕ) (xs : List α) (x : α) :
    tally bucket len (xs ++ [x]) = (tally bucket len xs).modify (bucket x) (· + 1) := by
  apply List.ext_getElem?
  intro i
  rw [List.getElem?_modify]
  by_cases hi : i < len
  · rw [getElem?_tally bucket hi, getElem?_tally bucket hi, List.countP_append]
    by_cases hx : bucket x = i
    · simp [hx]
    · simp [hx]
  · rw [List.getElem?_eq_none (by simpa using hi), List.getElem?_eq_none (by simpa using hi)]
    rfl

theorem tally_append (len : ℕ) (xs ys : List α) :
    tally bucket len (xs ++ ys) = List.zipWith (· + ·) (tally bucket len xs) (tally bucket len ys) := by
  apply List.ext_getElem?
  intro i
  rw [List.getElem?_zipWith]
  by_cases hi : i < len
  · rw [getElem?_tally bucket hi, getElem?_tally bucket hi, getElem?_tally bucket hi,
      List.countP_append]
  · rw [List.getElem?_eq_none (by simpa using hi), List.getElem?_eq_none (by simpa using hi)]

theorem tally_perm (len : ℕ) {xs ys : List α} (h : xs.Perm ys) :
    tally bucket len xs = tally bucket len ys := by
  unfold tally
  congr 1
  funext i
  exact h.countP_eq _

/-- The counts of different buckets add up to the count of the samples in any of them. -/
theorem sum_countP {indices : List ℕ} (h : indices.Nodup) (xs : List α) :
    (indices.map fun i => xs.countP fun x => bucket x = i).sum =
      xs.countP fun x => bucket x ∈ indices := by
  induction indices with
  | nil => simp
  | cons i indices ih =>
      obtain ⟨hi, hrest⟩ := List.nodup_cons.mp h
      rw [List.map_cons, List.sum_cons, ih hrest]
      clear ih
      induction xs with
      | nil => rfl
      | cons x xs ihx =>
          by_cases hx : bucket x = i
          · simp [hx, hi] at ihx ⊢
            omega
          · by_cases hmem : bucket x ∈ indices
            · simp [hx, hmem] at ihx ⊢
              omega
            · simpa [hx, hmem] using ihx

/-- The running sum of a tally counts the samples in the buckets before it. -/
theorem sum_take_tally {len i : ℕ} (hi : i ≤ len) (xs : List α) :
    ((tally bucket len xs).take i).sum = xs.countP fun x => bucket x < i := by
  have htake : (tally bucket len xs).take i =
      (List.range i).map fun j => xs.countP fun x => bucket x = j := by
    rw [tally, ← List.map_take, List.take_range, min_eq_left hi]
  rw [htake, sum_countP bucket List.nodup_range]
  congr 1
  funext x
  rw [decide_eq_decide]
  exact List.mem_range

/-- The tally of samples that all have a bucket counts them all. -/
theorem sum_tally {len : ℕ} {xs : List α} (hxs : ∀ x ∈ xs, bucket x < len) :
    (tally bucket len xs).sum = xs.length := by
  have htake : (tally bucket len xs).take len = tally bucket len xs := List.take_of_length_le (by simp)
  rw [← htake, sum_take_tally bucket le_rfl, List.countP_eq_length]
  intro x hx
  exact decide_eq_true (hxs x hx)

variable [LinearOrder α]

/-- In a sorted list, the entries that meet a downward closed predicate come first. -/
theorem lt_countP_iff {l : List α} (hl : l.Pairwise (· ≤ ·)) {p : α → Bool}
    (hp : ∀ a b, a ≤ b → p b = true → p a = true) (k : ℕ) :
    k < l.countP p ↔ ∃ x, l[k]? = some x ∧ p x = true := by
  induction l generalizing k with
  | nil => simp
  | cons a l ih =>
      obtain ⟨hle, htail⟩ := List.pairwise_cons.mp hl
      by_cases ha : p a = true
      · rw [List.countP_cons_of_pos ha]
        cases k with
        | zero => simp [ha]
        | succ k =>
            rw [Nat.add_lt_add_iff_right, ih htail k, List.getElem?_cons_succ]
      · have hzero : l.countP p = 0 := by
          rw [List.countP_eq_zero]
          intro b hb hpb
          exact ha (hp a b (hle b hb) hpb)
        rw [List.countP_cons_of_neg ha, hzero]
        refine ⟨fun h => absurd h (Nat.not_lt_zero k), ?_⟩
        rintro ⟨x, hx, hpx⟩
        have hmem := List.mem_of_getElem? hx
        rcases List.mem_cons.mp hmem with rfl | hmem
        · exact absurd hpx ha
        · exact absurd (hp a x (hle x hmem) hpx) ha

/-- The `k`-th smallest sample, counted from zero. -/
def orderStatistic (xs : List α) (k : ℕ) : Option α := (xs.insertionSort (· ≤ ·))[k]?

theorem orderStatistic_isSome {xs : List α} {k : ℕ} (hk : k < xs.length) :
    ∃ x ∈ xs, orderStatistic xs k = some x := by
  have hk' : k < (xs.insertionSort (· ≤ ·)).length := by rwa [List.length_insertionSort]
  refine ⟨_, ?_, List.getElem?_eq_getElem hk'⟩
  rw [← List.mem_insertionSort (· ≤ ·)]
  exact List.getElem_mem hk'

/-- The running sum passes `k` exactly from the bucket of the `k`-th smallest sample on. -/
theorem lt_sum_take_iff (hbucket : Monotone bucket) {len i k : ℕ} (hi : i ≤ len) {xs : List α} {x : α}
    (hx : orderStatistic xs k = some x) :
    k < ((tally bucket len xs).take i).sum ↔ bucket x < i := by
  have hclosed : ∀ a b, a ≤ b → decide (bucket b < i) = true → decide (bucket a < i) = true := by
    intro a b hab hb
    rw [decide_eq_true_eq] at hb ⊢
    exact (hbucket hab).trans_lt hb
  rw [sum_take_tally bucket hi, ← (List.perm_insertionSort (· ≤ ·) xs).countP_eq,
    lt_countP_iff (List.pairwise_insertionSort (· ≤ ·) xs) hclosed k]
  unfold orderStatistic at hx
  simp [hx]

/-- On either side of `m` is half of the samples at least. -/
def Halves (xs : List α) (m : α) : Prop :=
  xs.length ≤ 2 * xs.countP (· ≤ m) ∧ xs.length ≤ 2 * xs.countP (m ≤ ·)

/-- What lies between two order statistics in the middle halves the samples. -/
theorem halves_of_orderStatistic {xs : List α} {i j : ℕ} {x y m : α} (hx : orderStatistic xs i = some x)
    (hy : orderStatistic xs j = some y) (hi : xs.length ≤ 2 * (i + 1)) (hj : 2 * j ≤ xs.length) (hxm : x ≤ m)
    (hmy : m ≤ y) : Halves xs m := by
  have hsorted := List.pairwise_insertionSort (· ≤ ·) xs
  have hperm := List.perm_insertionSort (· ≤ ·) xs
  constructor
  · have hclosed : ∀ a b, a ≤ b → decide (b ≤ m) = true → decide (a ≤ m) = true := fun a b hab hb =>
      decide_eq_true (hab.trans (of_decide_eq_true hb))
    have hlt : i < xs.countP (· ≤ m) := by
      rw [← hperm.countP_eq, lt_countP_iff hsorted hclosed]
      exact ⟨x, hx, decide_eq_true hxm⟩
    omega
  · have hclosed : ∀ a b, a ≤ b → decide (b < m) = true → decide (a < m) = true := fun a b hab hb =>
      decide_eq_true (hab.trans_lt (of_decide_eq_true hb))
    have hle : ¬j < xs.countP (· < m) := by
      rw [← hperm.countP_eq, lt_countP_iff hsorted hclosed]
      rintro ⟨y', hy', hlt⟩
      obtain rfl : y = y' := Option.some.inj (hy.symm.trans hy')
      exact absurd (of_decide_eq_true hlt) (not_lt.mpr hmy)
    have hsplit := List.length_eq_countP_add_countP (l := xs) (· < m)
    have hrest : (xs.countP fun a => ¬decide (a < m)) = xs.countP (m ≤ ·) := by
      refine List.countP_congr fun a _ => ?_
      simp only [decide_eq_true_eq, not_lt]
    omega

theorem Halves.map {β : Type} [LinearOrder β] {f : α → β} (hf : Monotone f) {xs : List α} {m : α} (h : Halves xs m) :
    Halves (xs.map f) (f m) := by
  have hbelow : xs.countP (· ≤ m) ≤ (xs.map f).countP (· ≤ f m) := by
    rw [List.countP_map]
    exact List.countP_mono_left fun x _ hx => decide_eq_true (hf (of_decide_eq_true hx))
  have habove : xs.countP (m ≤ ·) ≤ (xs.map f).countP (f m ≤ ·) := by
    rw [List.countP_map]
    exact List.countP_mono_left fun x _ hx => decide_eq_true (hf (of_decide_eq_true hx))
  obtain ⟨hle, hge⟩ := h
  rw [Halves, List.length_map]
  omega

end Tally
