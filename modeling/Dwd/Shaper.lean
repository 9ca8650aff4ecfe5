import Dwd.Machine
import Mathlib.Tactic.Linarith

/-! The token-bucket shaper, in exact arithmetic. A tick adds the tokens accrued since the tick
before it, caps the balance at one second's worth and grants its integral part; what is used of a
grant is consumed afterwards. -/

namespace Dwd

structure Shaper where
  tokens : ℚ
  burstSize : ℕ
  prevTs : ℕ

namespace Shaper

def new (burstSize now : ℕ) : Shaper := { tokens := 0, burstSize := burstSize, prevTs := now }

/-- `Shaper::tick`, with the value `limit` read from the limit cell. -/
def tick (limit now : ℕ) (s : Shaper) : ℕ × Shaper :=
  let elapsed := Instant.durationSince now s.prevTs
  let tokens := s.tokens + limit * Duration.asSecs elapsed
  if truncU64 tokens < s.burstSize then (0, { s with tokens := tokens, prevTs := now })
  else
    let tokens := min tokens limit
    (truncU64 tokens, { s with tokens := tokens, prevTs := now })

def consume (num : ℕ) (s : Shaper) : Shaper := { s with tokens := s.tokens - num }

/-- With no burst size, a tick accrues, caps and grants the integral part of the balance. -/
theorem tick_of_burstSize_zero {s : Shaper} (hs : s.burstSize = 0) (limit now : ℕ) :
    s.tick limit now =
      (truncU64 (min (s.tokens + limit * Duration.asSecs (now - s.prevTs)) limit),
        { s with
          tokens := min (s.tokens + limit * Duration.asSecs (now - s.prevTs)) limit
          prevTs := now }) := by
  simp only [tick, hs, Nat.not_lt_zero, if_false]
  rfl

theorem tick_tokens_nonneg {s : Shaper} (hs : 0 ≤ s.tokens) (limit now : ℕ) :
    0 ≤ (s.tick limit now).2.tokens := by
  have haccrued : 0 ≤ s.tokens + limit * Duration.asSecs (Instant.durationSince now s.prevTs) :=
    add_nonneg hs (mul_nonneg (Nat.cast_nonneg _) (asSecs_nonneg _))
  rw [tick]
  split_ifs with hburst
  · exact haccrued
  · exact le_min haccrued (Nat.cast_nonneg _)

/-- A tick never grants more than the balance it leaves. -/
theorem tick_granted_le {s : Shaper} (hs : 0 ≤ s.tokens) (limit now : ℕ) :
    ((s.tick limit now).1 : ℚ) ≤ (s.tick limit now).2.tokens := by
  have hnonneg := tick_tokens_nonneg hs limit now
  rw [tick] at hnonneg ⊢
  split_ifs at hnonneg ⊢ with hburst
  · simpa using hnonneg
  · exact truncU64_le hnonneg

end Shaper

end Dwd
