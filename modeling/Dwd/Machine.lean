import Mathlib.Algebra.Order.Field.Rat
import Mathlib.Data.Rat.Floor

/-! Clock readings, durations and the fixed-width casts of the Rust sources. An `Instant` is the
number of nanoseconds since the origin of the monotonic clock and a `Duration` a number of
nanoseconds; seconds taken as a float are the exact rational. Integer casts wrap as in a release
build. -/

namespace Dwd

def nanosPerSec : ℕ := 1000000000

theorem nanosPerSec_pos : (0 : ℚ) < nanosPerSec := by norm_num [nanosPerSec]

namespace Duration

/-- `Duration::from_secs`. -/
def fromSecs (secs : ℕ) : ℕ := secs * nanosPerSec

/-- `Duration::as_secs_f64`, without rounding. -/
def asSecs (d : ℕ) : ℚ := (d : ℚ) / nanosPerSec

end Duration

namespace Instant

/-- `Instant::duration_since`, zero when the argument is the later one. -/
def durationSince (now earlier : ℕ) : ℕ := now - earlier

/-- `Instant - Duration`, which panics below the origin of the clock. -/
def checkedSub (now : ℕ) (d : ℕ) : Option ℕ :=
  if d ≤ now then some (now - d) else none

theorem checkedSub_of_le {now : ℕ} {d : ℕ} (h : d ≤ now) :
    Instant.checkedSub now d = some (now - d) := if_pos h

end Instant

/-- The value of an `i64` operation whose exact result is `x`. -/
def wrapI64 (x : ℤ) : ℤ := Int.bmod x (2 ^ 64)

/-- The value of an `i32` operation whose exact result is `x`. -/
def wrapI32 (x : ℤ) : ℤ := Int.bmod x (2 ^ 32)

/-- The value of a `u64` operation whose exact result is `n`. -/
def wrapU64 (n : ℕ) : ℕ := n % 2 ^ 64

/-- `n as i64`, for an unsigned `n` of any width. -/
def asI64 (n : ℕ) : ℤ := wrapI64 n

/-- `x as u64`, for an `i64`. -/
def asU64 (x : ℤ) : ℕ := (x % 2 ^ 64).toNat

/-- `x as u64`, for a non-negative float: truncated, and saturating at the top. -/
def truncU64 (x : ℚ) : ℕ := min ⌊x⌋₊ (2 ^ 64 - 1)

theorem truncU64_le {x : ℚ} (hx : 0 ≤ x) : (truncU64 x : ℚ) ≤ x :=
  (Nat.cast_le.mpr (min_le_left _ _)).trans (Nat.floor_le hx)

theorem asSecs_add (d e : ℕ) :
    Duration.asSecs (d + e) = Duration.asSecs d + Duration.asSecs e := by
  rw [Duration.asSecs, Duration.asSecs, Duration.asSecs, Nat.cast_add, add_div]

theorem asSecs_nonneg (d : ℕ) : 0 ≤ Duration.asSecs d :=
  div_nonneg (Nat.cast_nonneg _) (Nat.cast_nonneg _)

end Dwd
