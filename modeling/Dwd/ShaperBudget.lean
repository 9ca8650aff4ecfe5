import Dwd.RateContract

/-! The UDP worker's loop over its shaper: every turn ticks once and consumes all that the tick grants.
What the turns have consumed and what is left in the balance add up to what the limits have accrued, less
what the cap throws away; the balance never holds a whole token, so nothing else is lost. -/

namespace Dwd

/-- What a turn reads: the limit cell, and the nanoseconds since the turn before it. -/
structure Reading where
  limit : UInt64
  elapsed : ℕ

namespace Reading

/-- The tokens that accrue before the turn. -/
def accrued (r : Reading) : ℚ := r.limit.toNat * Duration.asSecs r.elapsed

theorem accrued_nonneg (r : Reading) : 0 ≤ r.accrued :=
  mul_nonneg (Nat.cast_nonneg _) (asSecs_nonneg _)

end Reading

namespace Shaper

/-- A turn of `Worker::run`, and the requests it performs and consumes. -/
def turn (r : Reading) (s : Shaper) : ℕ × Shaper :=
  match s.tick r.limit.toNat (s.prevTs + r.elapsed) with
  | (0, s) => (0, s)
  | (n, s) => (n, s.consume n)

/-- The requests of all turns of a run. -/
def consumed : Shaper → List Reading → ℕ
  | _, [] => 0
  | s, r :: readings => (s.turn r).1 + consumed (s.turn r).2 readings

/-- A fraction of a token is left, at most. -/
structure Fraction (s : Shaper) : Prop where
  burstSize : s.burstSize = 0
  nonneg : 0 ≤ s.tokens
  lt_one : s.tokens < 1

theorem new_fraction (now : ℕ) : (new 0 now).Fraction := ⟨rfl, le_rfl, zero_lt_one⟩

/-- The turn of the UDP worker in the rate contract. -/
theorem turn_eq_udp (r : Reading) (s : Shaper) :
    let w := ShapedWorker.tick r.limit.toNat (s.prevTs + r.elapsed)
      { kind := .udp, shaper := s, pending := 0 }
    s.turn r = (w.pending, w.consume.shaper) := by
  intro w
  unfold turn
  split
  · rename_i s' htick
    simp only [w, ShapedWorker.tick, ShapedWorker.consume, WorkerKind.batch, htick, consume,
      Nat.cast_zero, sub_zero]
  · rename_i n s' _ htick
    simp only [w, ShapedWorker.tick, ShapedWorker.consume, WorkerKind.batch, htick]

/-- The balance that a tick leaves and the grant is the integral part of. -/
def capped (r : Reading) (s : Shaper) : ℚ := min (s.tokens + r.accrued) r.limit.toNat

theorem turn_eq {s : Shaper} (hs : s.burstSize = 0) (r : Reading) :
    s.turn r = (truncU64 (s.capped r),
      { s with tokens := s.capped r - truncU64 (s.capped r), prevTs := s.prevTs + r.elapsed }) := by
  have htick := tick_of_burstSize_zero hs r.limit.toNat (s.prevTs + r.elapsed)
  rw [Nat.add_sub_cancel_left] at htick
  unfold turn
  split
  · rename_i s' h
    obtain ⟨hgrant, rfl⟩ := Prod.mk.inj (htick.symm.trans h)
    rw [capped, Reading.accrued, hgrant, Nat.cast_zero, sub_zero]
  · rename_i n s' _ h
    obtain ⟨rfl, rfl⟩ := Prod.mk.inj (htick.symm.trans h)
    rfl

/-- A limit is a `u64`, so the integral part of a capped balance never saturates. -/
theorem truncU64_capped (r : Reading) (s : Shaper) : truncU64 (s.capped r) = ⌊s.capped r⌋₊ := by
  have hle : ⌊s.capped r⌋₊ ≤ r.limit.toNat := by
    calc ⌊s.capped r⌋₊ ≤ ⌊(r.limit.toNat : ℚ)⌋₊ := Nat.floor_le_floor (min_le_right _ _)
      _ = r.limit.toNat := Nat.floor_natCast _
  have hlimit := r.limit.toNat_lt
  exact min_eq_left (by omega)

theorem Fraction.capped_nonneg {s : Shaper} (h : s.Fraction) (r : Reading) : 0 ≤ s.capped r :=
  le_min (add_nonneg h.nonneg r.accrued_nonneg) (Nat.cast_nonneg _)

theorem Fraction.turn {s : Shaper} (h : s.Fraction) (r : Reading) : (s.turn r).2.Fraction := by
  rw [turn_eq h.burstSize, truncU64_capped]
  have hfloor := Nat.floor_le (h.capped_nonneg r)
  have hlt := Nat.lt_floor_add_one (s.capped r)
  exact ⟨h.burstSize, by show 0 ≤ s.capped r - _; linarith, by show s.capped r - _ < 1; linarith⟩

/-- A turn moves what accrues into the grant and the balance, less what is above the cap. -/
theorem Fraction.turn_add {s : Shaper} (h : s.Fraction) (r : Reading) :
    ((s.turn r).1 : ℚ) + (s.turn r).2.tokens = s.capped r := by
  rw [turn_eq h.burstSize]
  exact add_sub_cancel _ _

theorem capped_le (r : Reading) (s : Shaper) : s.capped r ≤ s.tokens + r.accrued := min_le_left _ _

/-- The cap does not bite when the limit leaves room for a token more than what accrues. -/
theorem Fraction.capped_eq {s : Shaper} (h : s.Fraction) {r : Reading}
    (hroom : r.accrued ≤ r.limit.toNat - 1) : s.capped r = s.tokens + r.accrued := by
  have := h.lt_one
  exact min_eq_left (by linarith)

theorem Fraction.consumed_le {s : Shaper} (h : s.Fraction) (readings : List Reading) :
    (s.consumed readings : ℚ) ≤ s.tokens + (readings.map Reading.accrued).sum := by
  induction readings generalizing s with
  | nil =>
      simp only [consumed, List.map_nil, List.sum_nil, Nat.cast_zero, add_zero]
      exact h.nonneg
  | cons r readings ih =>
      have hrest := ih (h.turn r)
      have hturn := h.turn_add r
      have hcap := capped_le r s
      rw [consumed, List.map_cons, List.sum_cons, Nat.cast_add]
      linarith

theorem Fraction.lt_consumed_add_one {s : Shaper} (h : s.Fraction) {readings : List Reading}
    (hroom : ∀ r ∈ readings, r.accrued ≤ r.limit.toNat - 1) :
    s.tokens + (readings.map Reading.accrued).sum < s.consumed readings + 1 := by
  induction readings generalizing s with
  | nil =>
      simp only [consumed, List.map_nil, List.sum_nil, Nat.cast_zero, add_zero, zero_add]
      exact h.lt_one
  | cons r readings ih =>
      have hrest := ih (h.turn r) fun r' hr' => hroom r' (List.mem_cons_of_mem r hr')
      have hturn := h.turn_add r
      have hcap := h.capped_eq (hroom r List.mem_cons_self)
      rw [consumed, List.map_cons, List.sum_cons, Nat.cast_add]
      linarith

/-- A fresh shaper delivers the accrued budget: never more than its integral part, and exactly that
when the cap cannot bite. -/
theorem consumed_eq_floor (now : ℕ) (readings : List Reading) :
    (new 0 now).consumed readings ≤ ⌊(readings.map Reading.accrued).sum⌋₊ ∧
    ((∀ r ∈ readings, r.accrued ≤ r.limit.toNat - 1) →
      (new 0 now).consumed readings = ⌊(readings.map Reading.accrued).sum⌋₊) := by
  have hle := (new_fraction now).consumed_le readings
  have hzero : (new 0 now).tokens = 0 := rfl
  rw [hzero, zero_add] at hle
  refine ⟨Nat.le_floor hle, fun hroom => ?_⟩
  have hlt := (new_fraction now).lt_consumed_add_one hroom
  rw [hzero, zero_add] at hlt
  exact ((Nat.floor_eq_iff ((Nat.cast_nonneg _).trans hle)).mpr ⟨hle, hlt⟩).symm

/-- Three a second for half a second, then four a second for a quarter: two of two and a half. -/
theorem consumed_eq_floor_two :
    (new 0 7).consumed [⟨3, 500000000⟩, ⟨4, 250000000⟩] ≤
      ⌊([⟨3, 500000000⟩, ⟨4, 250000000⟩].map Reading.accrued).sum⌋₊ ∧
    (new 0 7).consumed [⟨3, 500000000⟩, ⟨4, 250000000⟩] =
      ⌊([⟨3, 500000000⟩, ⟨4, 250000000⟩].map Reading.accrued).sum⌋₊ := by
  have h := consumed_eq_floor 7 [⟨3, 500000000⟩, ⟨4, 250000000⟩]
  refine ⟨h.1, h.2 fun r hr => ?_⟩
  have hlimit : (3 : UInt64).toNat = 3 ∧ (4 : UInt64).toNat = 4 := by decide
  rcases List.mem_pair.mp hr with rfl | rfl
  · norm_num [Reading.accrued, Duration.asSecs, nanosPerSec, hlimit.1]
  · norm_num [Reading.accrued, Duration.asSecs, nanosPerSec, hlimit.2]

end Shaper

end Dwd
