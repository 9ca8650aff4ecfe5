import Mathlib.Algebra.BigOperators.Intervals
import Mathlib.Algebra.Order.Floor.Div
import Mathlib.Data.List.Induction
import Mathlib.Data.Nat.Count
import Mathlib.Order.Basic

/-! Walks around a ring of items. A walk takes one window of the ring after the other, each from where
the one before it ended and none past the end of the ring. So the walk visits the items in turn, it
never steps over the end of a lap, and how often it has visited an item depends on its length only. -/

namespace Ring

/-- Inside a window that does not pass the end of the ring, positions do not wrap. -/
theorem add_mod_of_lt {m p j : ℕ} (h : p % m + j < m) : (p + j) % m = p % m + j := by
  rw [Nat.add_mod, Nat.mod_eq_of_lt (show j < m by omega), Nat.mod_eq_of_lt h]

/-- A window that does not pass the end of the ring does not pass the end of a lap. -/
theorem add_le_of_window {m p n lap : ℕ} (hn : p % m + n ≤ m) (hp : p < m * lap) : p + n ≤ m * lap := by
  have hdiv : p / m < lap := Nat.div_lt_of_lt_mul hp
  have hmod := Nat.div_add_mod p m
  have hlap : m * (p / m + 1) ≤ m * lap := Nat.mul_le_mul_left m hdiv
  rw [Nat.mul_add, Nat.mul_one] at hlap
  omega

section Walks

variable {α : Type} {items walk : List α}

/-- The walk takes the items of the ring in turn. -/
def Follows (items walk : List α) : Prop := ∀ k < walk.length, walk[k]? = items[k % items.length]?

theorem follows_nil (items : List α) : Follows items [] := fun _ h => absurd h (Nat.not_lt_zero _)

/-- A walk goes on with the window at its position. -/
theorem Follows.append_window (h : Follows items walk) {n : ℕ}
    (hn : walk.length % items.length + n ≤ items.length) :
    Follows items (walk ++ (items.drop (walk.length % items.length)).take n) := by
  intro k hk
  by_cases hold : k < walk.length
  · rw [List.getElem?_append_left hold]
    exact h k hold
  · have hkn : k - walk.length < n := by
      rw [List.length_append, List.length_take, List.length_drop] at hk
      omega
    have hmod : k % items.length = walk.length % items.length + (k - walk.length) := by
      rw [← add_mod_of_lt (by omega), Nat.add_sub_cancel' (not_lt.mp hold)]
    rw [List.getElem?_append_right (not_lt.mp hold), List.getElem?_take_of_lt hkn, List.getElem?_drop, hmod]

/-- What is left of a walk has no item twice exactly when it is no longer than a lap. -/
theorem Follows.nodup_drop_iff (h : Follows items walk) (hitems : items.Nodup) (hpos : items ≠ []) (r : ℕ) :
    (walk.drop r).Nodup ↔ walk.length - r ≤ items.length := by
  have hlen : 0 < items.length := List.length_pos_iff.mpr hpos
  rw [List.nodup_iff_getElem?_ne_getElem?, List.length_drop]
  constructor
  · intro hne
    by_contra hlong
    refine hne 0 items.length hlen (by omega) ?_
    rw [List.getElem?_drop, List.getElem?_drop, h _ (by omega), h _ (by omega), Nat.add_zero, Nat.add_mod_right]
  · intro hle i j hij hj heq
    rw [List.getElem?_drop, List.getElem?_drop, h _ (by omega), h _ (by omega)] at heq
    have hmod := (List.getElem?_inj (Nat.mod_lt _ hlen) hitems).mp heq
    have hdvd : items.length ∣ r + j - (r + i) :=
      Nat.dvd_of_mod_eq_zero (Nat.sub_mod_eq_zero_of_mod_eq hmod.symm)
    have := Nat.le_of_dvd (by omega) hdvd
    omega

theorem length_window {p n : ℕ} (hn : p + n ≤ items.length) : ((items.drop p).take n).length = n := by
  rw [List.length_take, List.length_drop]
  omega

end Walks

/-- How often a walk of length `n` around a ring of `m` items has visited item `i`. -/
def visits (m i n : ℕ) : ℕ := Nat.count (fun k => k % m = i) n

theorem visits_succ (m i n : ℕ) : visits m i (n + 1) = visits m i n + if n % m = i then 1 else 0 :=
  Nat.count_succ _ _

theorem visits_mono (m i : ℕ) : Monotone (visits m i) := Nat.count_monotone _

theorem visits_add_le (m i n j : ℕ) : visits m i (n + j) ≤ visits m i n + j := by
  rw [visits, Nat.count_add]
  exact Nat.add_le_add_left (Nat.count_le _) _

/-- Within a lap, an item is visited once the walk is past it. -/
theorem visits_of_le {m i n : ℕ} (hn : n ≤ m) : visits m i n = if i < n then 1 else 0 := by
  induction n with
  | zero => rfl
  | succ n ih =>
      rw [visits_succ, ih (by omega), Nat.mod_eq_of_lt hn]
      split_ifs <;> omega

/-- A lap visits every item once. -/
theorem visits_lap {m i : ℕ} (hi : i < m) : visits m i m = 1 := by
  rw [visits_of_le le_rfl, if_pos hi]

theorem visits_add_laps {m i : ℕ} (hi : i < m) (n laps : ℕ) :
    visits m i (m * laps + n) = laps + visits m i n := by
  induction laps with
  | zero => rw [Nat.mul_zero, Nat.zero_add, Nat.zero_add]
  | succ laps ih =>
      rw [Nat.mul_add, Nat.mul_one, Nat.add_comm (m * laps), Nat.add_assoc, visits, Nat.count_add]
      simp only [Nat.add_mod_left]
      change visits m i m + visits m i (m * laps + n) = _
      rw [visits_lap hi, ih]
      omega

/-- The visits before the last lap, one for each lap, and that of the last lap. -/
theorem visits_eq {m i : ℕ} (hi : i < m) (n : ℕ) : visits m i n = n / m + if i < n % m then 1 else 0 := by
  have hle : n % m ≤ m := (Nat.mod_lt n (by omega)).le
  calc visits m i n = visits m i (m * (n / m) + n % m) := by rw [Nat.div_add_mod]
    _ = n / m + visits m i (n % m) := visits_add_laps hi _ _
    _ = n / m + if i < n % m then 1 else 0 := by rw [visits_of_le hle]

/-- The walk visits item `i` at its positions `i`, `i + m` and so on. -/
theorem visits_eq_ceilDiv {m i : ℕ} (hi : i < m) (n : ℕ) :
    visits m i n = if i < n then (n - i) ⌈/⌉ m else 0 := by
  have hm : 0 < m := by omega
  have hmod := Nat.mod_lt n hm
  have hn := Nat.div_add_mod n m
  rw [visits_eq hi]
  by_cases hreached : i < n
  · rw [if_pos hreached, Nat.ceilDiv_eq_add_pred_div]
    by_cases hlast : i < n % m
    · have hsum : n - i + m - 1 = m * (n / m + 1) + (n % m - i - 1) := by
        rw [Nat.mul_succ]
        omega
      have hrest : (n % m - i - 1) / m = 0 := Nat.div_eq_of_lt (by omega)
      rw [if_pos hlast, hsum, Nat.mul_add_div hm, hrest, Nat.add_zero]
    · have hsum : n - i + m - 1 = m * (n / m) + (n % m + m - 1 - i) := by omega
      have hrest : (n % m + m - 1 - i) / m = 0 := Nat.div_eq_of_lt (by omega)
      rw [if_neg hlast, hsum, Nat.mul_add_div hm, hrest]
  · rw [if_neg hreached, Nat.div_eq_of_lt (by omega), Nat.mod_eq_of_lt (by omega), if_neg hreached]

/-- No item is visited twice more than another. -/
theorem visits_le_succ {m i j : ℕ} (hi : i < m) (hj : j < m) (n : ℕ) : visits m i n ≤ visits m j n + 1 := by
  rw [visits_eq hi, visits_eq hj]
  split_ifs <;> omega

/-- Every position of the walk is a visit. -/
theorem sum_visits {m : ℕ} (hm : 0 < m) (n : ℕ) : ∑ i ∈ Finset.range m, visits m i n = n := by
  induction n with
  | zero => exact Finset.sum_eq_zero fun i _ => rfl
  | succ n ih =>
      simp only [visits_succ]
      rw [Finset.sum_add_distrib, ih, Finset.sum_ite_eq, if_pos (Finset.mem_range.mpr (Nat.mod_lt n hm))]

section Dealing

variable {α : Type}

/-- The items that come to seat `i` when they are dealt out around a table of `m` seats, in order. -/
def dealtTo (m i : ℕ) (items : List α) : List α := (items.zipIdx.filter fun p => p.2 % m = i).map Prod.fst

theorem dealtTo_concat (m i : ℕ) (items : List α) (item : α) :
    dealtTo m i (items ++ [item]) = dealtTo m i items ++ if items.length % m = i then [item] else [] := by
  rw [dealtTo, List.zipIdx_append, List.filter_append, List.map_append, Nat.zero_add, dealtTo]
  by_cases hturn : items.length % m = i
  · rw [if_pos hturn, List.zipIdx_singleton, List.filter_cons_of_pos (by simpa using hturn), List.filter_nil]
    rfl
  · rw [if_neg hturn, List.zipIdx_singleton, List.filter_cons_of_neg (by simpa using hturn), List.filter_nil]
    rfl

/-- A seat gets as many items as a walk around the table visits it. -/
theorem length_dealtTo (m i : ℕ) (items : List α) : (dealtTo m i items).length = visits m i items.length := by
  induction items using List.reverseRecOn with
  | nil => rfl
  | append_singleton items item ih =>
      rw [dealtTo_concat, List.length_append, ih, List.length_append, List.length_singleton, visits_succ]
      split_ifs <;> rfl

end Dealing

end Ring
