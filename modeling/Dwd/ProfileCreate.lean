import Dwd.LibFallible
import Dwd.LineProfile

/-! Building the generators of a configuration in a build that checks its integer operations. A tree
without a sine is built exactly when each of its leaves is: the seconds of a leaf do not vanish from
its 64 bits of nanoseconds, and its rates are close enough for their difference to be scaled. -/

namespace Dwd

/-- Why a checked `create` does not return a generator: a panic of its arithmetic, or an error. -/
inductive CreateFailure where
  | panic
  | error (e : CreateError)
  deriving DecidableEq, Repr

/-- The value of a checked computation, or its panic. -/
def orPanic {α : Type} : Option α → Except CreateFailure α
  | some a => .ok a
  | none => .error .panic

theorem orPanic_eq_ok_iff {α : Type} {x : Option α} {a : α} : orPanic x = .ok a ↔ x = some a := by
  cases x with
  | none => exact ⟨fun h => (nomatch h), fun h => (nomatch h)⟩
  | some b => rw [orPanic, Except.ok.injEq, Option.some.injEq]

namespace LineGenerator

/-- The rates and the seconds a line generator can be built from. -/
def Buildable (rps0 rps1 secs : ℕ) : Prop :=
  secs % 2 ^ 55 ≠ 0 ∧ |asI64 rps1 - asI64 rps0| ≤ 9223372036

instance (rps0 rps1 secs : ℕ) : Decidable (Buildable rps0 rps1 secs) :=
  inferInstanceAs (Decidable (_ ∧ _))

theorem asI64_fromSecs_eq_zero_iff (secs : ℕ) :
    asI64 (Duration.fromSecs secs) = 0 ↔ secs % 2 ^ 55 = 0 := by
  have hsplit : Duration.fromSecs secs = 2 ^ 9 * (5 ^ 9 * secs) := by
    rw [Duration.fromSecs, nanosPerSec]
    omega
  rw [asI64, wrapI64, ← Int.dvd_iff_bmod_eq_zero, Int.natCast_dvd_natCast, hsplit,
    show 2 ^ 64 = 2 ^ 9 * 2 ^ 55 by norm_num, Nat.mul_dvd_mul_iff_left (by norm_num),
    (Nat.Coprime.pow 55 9 (by decide)).dvd_mul_left, Nat.dvd_iff_mod_eq_zero]

theorem exact_scaled_iff (diff : ℤ) :
    (∃ rise, I64.checkedMul diff 1000000000 = some rise) ↔ |diff| ≤ 9223372036 := by
  simp only [I64.checkedMul, I64.exact_eq_some_iff]
  constructor
  · rintro ⟨_, hrange, -⟩
    exact abs_le.mpr (by omega)
  · intro h
    obtain ⟨hlo, hhi⟩ := abs_le.mp h
    exact ⟨_, by omega, rfl⟩

theorem checkedDiv_isSome {rise nanos : ℤ} (hnz : nanos ≠ 0) (hrise : |rise| < 2 ^ 63) :
    ∃ k, I64.checkedDiv rise nanos = some k := by
  rw [I64.checkedDiv, if_neg hnz]
  refine ⟨_, I64.exact_of_abs_lt (lt_of_le_of_lt ?_ hrise)⟩
  rw [Int.abs_eq_natAbs, Int.abs_eq_natAbs]
  exact_mod_cast Int.natAbs_tdiv_le_natAbs rise nanos

theorem checkedNew_eq_some_iff (rps0 rps1 duration now : ℕ) :
    (∃ g, checkedNew rps0 rps1 duration now = some g) ↔
      asI64 duration ≠ 0 ∧ |asI64 rps1 - asI64 rps0| ≤ 9223372036 := by
  rw [← exact_scaled_iff]
  constructor
  · rintro ⟨g, hg⟩
    simp only [checkedNew, Option.bind_eq_bind, Option.bind_eq_some_iff] at hg
    obtain ⟨diff, hdiff, rise, hrise, k, hk, -⟩ := hg
    obtain ⟨-, rfl⟩ := I64.exact_eq_some_iff.mp hdiff
    refine ⟨fun hz => ?_, rise, hrise⟩
    rw [I64.checkedDiv, if_pos hz] at hk
    cases hk
  · rintro ⟨hnz, rise, hrise⟩
    have hdiff : |asI64 rps1 - asI64 rps0| ≤ 9223372036 := (exact_scaled_iff _).mp ⟨rise, hrise⟩
    have hsub : I64.checkedSub (asI64 rps1) (asI64 rps0) = some (asI64 rps1 - asI64 rps0) :=
      I64.exact_of_abs_lt (hdiff.trans_lt (by norm_num))
    obtain ⟨-, rfl⟩ := I64.exact_eq_some_iff.mp hrise
    have hlt : |(asI64 rps1 - asI64 rps0) * 1000000000| < 2 ^ 63 := by
      calc |(asI64 rps1 - asI64 rps0) * 1000000000| = |asI64 rps1 - asI64 rps0| * 1000000000 := by
            rw [abs_mul, abs_of_pos (by norm_num : (0 : ℤ) < 1000000000)]
        _ ≤ 9223372036 * 1000000000 := by gcongr
        _ < 2 ^ 63 := by norm_num
    obtain ⟨k, hk⟩ := checkedDiv_isSome hnz hlt
    refine ⟨{ k := k, b := rps0, t0 := now, duration := duration }, ?_⟩
    rw [checkedNew, hsub, Option.bind_eq_bind, Option.bind_some, hrise, Option.bind_some, hk,
      Option.bind_some, Option.pure_def]

theorem buildable_iff (rps0 rps1 secs now : ℕ) :
    (∃ g, checkedNew rps0 rps1 (Duration.fromSecs secs) now = some g) ↔
      Buildable rps0 rps1 secs := by
  rw [checkedNew_eq_some_iff, Buildable, Ne, asI64_fromSecs_eq_zero_iff]

end LineGenerator

namespace Config

open Fallible

mutual

/-- A configuration of constants and lines, in any nesting. -/
def NoSin : Config → Prop
  | .const _ => True
  | .line _ => True
  | .sin _ => False
  | .seq generators => NoSinAll generators
  | .sum generators => NoSinAll generators

def NoSinAll : List Config → Prop
  | [] => True
  | gen :: generators => gen.NoSin ∧ NoSinAll generators

end

mutual

/-- Every constant and every line of the configuration can be built. -/
def Buildable : Config → Prop
  | .const c => LineGenerator.Buildable c.rps c.rps c.duration
  | .line c => LineGenerator.Buildable c.rps.1 c.rps.2 c.duration
  | .sin _ => True
  | .seq generators => BuildableAll generators
  | .sum generators => BuildableAll generators

def BuildableAll : List Config → Prop
  | [] => True
  | gen :: generators => gen.Buildable ∧ BuildableAll generators

end

variable (findClosestPhase : SinGeneratorConfig → Option (ℕ → ℕ))

mutual

/-- `GeneratorFactory::create`, with overflow checks. -/
def checkedCreate (now : ℕ) : Config → Except CreateFailure BoxedGenerator
  | .const c => do
      let g ← orPanic (LineGenerator.checkedNew c.rps c.rps (Duration.fromSecs c.duration) now)
      return .line g
  | .line c => do
      let g ← orPanic (LineGenerator.checkedNew c.rps.1 c.rps.2 (Duration.fromSecs c.duration) now)
      return .line g
  | .sin c =>
      match findClosestPhase c with
      | none => .error (.error .noPhase)
      | some wave => .ok (.sin { wave := wave, t0 := now, duration := Duration.fromSecs c.duration })
  | .seq generators => do
      let generators ← checkedCreateAll now generators
      return .seq 0 generators
  | .sum generators => do
      let generators ← checkedCreateAll now generators
      return .sum generators

def checkedCreateAll (now : ℕ) : List Config → Except CreateFailure (List BoxedGenerator)
  | [] => return []
  | gen :: generators => do
      let g ← gen.checkedCreate now
      let gs ← checkedCreateAll now generators
      return g :: gs

end

theorem exists_line_iff (rps0 rps1 secs now : ℕ) :
    (∃ g, (do
      let g ← orPanic (LineGenerator.checkedNew rps0 rps1 (Duration.fromSecs secs) now)
      return BoxedGenerator.line g) = Except.ok g) ↔ LineGenerator.Buildable rps0 rps1 secs := by
  rw [exists_bind_pure_iff, ← LineGenerator.buildable_iff rps0 rps1 secs now]
  exact exists_congr fun _ => orPanic_eq_ok_iff

mutual

theorem checkedCreate_eq_ok_iff (now : ℕ) : ∀ c : Config, c.NoSin →
    ((∃ g, c.checkedCreate findClosestPhase now = .ok g) ↔ c.Buildable)
  | .const _, _ => by
      rw [checkedCreate, Buildable]
      exact exists_line_iff _ _ _ now
  | .line _, _ => by
      rw [checkedCreate, Buildable]
      exact exists_line_iff _ _ _ now
  | .seq generators, h => by
      rw [checkedCreate, Buildable, exists_bind_pure_iff]
      exact checkedCreateAll_eq_ok_iff now generators h
  | .sum generators, h => by
      rw [checkedCreate, Buildable, exists_bind_pure_iff]
      exact checkedCreateAll_eq_ok_iff now generators h

theorem checkedCreateAll_eq_ok_iff (now : ℕ) : ∀ generators : List Config, NoSinAll generators →
    ((∃ gs, checkedCreateAll findClosestPhase now generators = .ok gs) ↔ BuildableAll generators)
  | [], _ => by
      rw [checkedCreateAll, BuildableAll]
      exact ⟨fun _ => trivial, fun _ => ⟨[], rfl⟩⟩
  | gen :: generators, h => by
      have hgen := checkedCreate_eq_ok_iff now gen h.1
      have hall := checkedCreateAll_eq_ok_iff now generators h.2
      rw [checkedCreateAll, BuildableAll, ← hgen, ← hall]
      constructor
      · rintro ⟨gs, hgs⟩
        obtain ⟨g, hg, hrest⟩ := bind_eq_ok_iff.mp hgs
        obtain ⟨gs', hgs', -⟩ := bind_pure_eq_ok_iff.mp hrest
        exact ⟨⟨g, hg⟩, gs', hgs'⟩
      · rintro ⟨⟨g, hg⟩, gs, hgs⟩
        refine ⟨g :: gs, ?_⟩
        rw [hg, hgs]
        rfl

end

mutual

/-- What a checked build creates, a release build creates too. -/
theorem create_of_checkedCreate (now : ℕ) : ∀ (c : Config) (g : BoxedGenerator),
    c.checkedCreate findClosestPhase now = .ok g → c.create findClosestPhase now = .ok g
  | .const _ => by
      intro _ h
      rw [checkedCreate] at h
      obtain ⟨l, hl, rfl⟩ := bind_pure_eq_ok_iff.mp h
      rw [create, LineGenerator.new_of_checkedNew (orPanic_eq_ok_iff.mp hl)]
      rfl
  | .line _ => by
      intro _ h
      rw [checkedCreate] at h
      obtain ⟨l, hl, rfl⟩ := bind_pure_eq_ok_iff.mp h
      rw [create, LineGenerator.new_of_checkedNew (orPanic_eq_ok_iff.mp hl)]
      rfl
  | .sin c => by
      intro _ h
      rw [checkedCreate] at h
      rw [create]
      cases hwave : findClosestPhase c with
      | none =>
          rw [hwave] at h
          cases h
      | some wave =>
          rw [hwave] at h
          cases h
          rfl
  | .seq generators => by
      intro _ h
      rw [checkedCreate] at h
      obtain ⟨gs, hgs, rfl⟩ := bind_pure_eq_ok_iff.mp h
      rw [create, createAll_of_checkedCreateAll now generators _ hgs]
      rfl
  | .sum generators => by
      intro _ h
      rw [checkedCreate] at h
      obtain ⟨gs, hgs, rfl⟩ := bind_pure_eq_ok_iff.mp h
      rw [create, createAll_of_checkedCreateAll now generators _ hgs]
      rfl

theorem createAll_of_checkedCreateAll (now : ℕ) :
    ∀ (generators : List Config) (gs : List BoxedGenerator),
    checkedCreateAll findClosestPhase now generators = .ok gs →
      createAll findClosestPhase now generators = .ok gs
  | [] => by
      intro _ h
      rw [checkedCreateAll] at h
      rw [createAll]
      cases h
      rfl
  | gen :: generators => by
      intro _ h
      rw [checkedCreateAll] at h
      obtain ⟨g, hg, hrest⟩ := bind_eq_ok_iff.mp h
      obtain ⟨gs, hgs, rfl⟩ := bind_pure_eq_ok_iff.mp hrest
      rw [createAll, create_of_checkedCreate now gen _ hg,
        createAll_of_checkedCreateAll now generators _ hgs]
      rfl

end

/-- A configuration of constants and lines is created without a panic, whatever its nesting, exactly
when each of its leaves can be built. -/
theorem create_total_iff (now : ℕ) (c : Config) (h : c.NoSin) :
    (∃ g, c.checkedCreate findClosestPhase now = .ok g ∧ c.create findClosestPhase now = .ok g) ↔
      c.Buildable := by
  rw [← checkedCreate_eq_ok_iff findClosestPhase now c h]
  exact ⟨fun ⟨g, hg, _⟩ => ⟨g, hg⟩,
    fun ⟨g, hg⟩ => ⟨g, hg, create_of_checkedCreate findClosestPhase now c g hg⟩⟩

theorem create_total_nested :
    ∃ g, (Config.seq [.const ⟨5, 1⟩, .sum [.line ⟨(9, 0), 2⟩]]).checkedCreate (fun _ => none) 0 = .ok g ∧
      (Config.seq [.const ⟨5, 1⟩, .sum [.line ⟨(9, 0), 2⟩]]).create (fun _ => none) 0 = .ok g := by
  have hconst : LineGenerator.Buildable 5 5 1 := by decide
  have hline : LineGenerator.Buildable 9 0 2 := by decide
  exact (create_total_iff _ 0 _ (by simp [NoSin, NoSinAll])).mpr ⟨hconst, ⟨hline, trivial⟩, trivial⟩

/-- A constant profile of no seconds divides by zero. -/
theorem create_zero_duration_panics :
    (Config.const ⟨1000, 0⟩).NoSin ∧
    (Config.const ⟨1000, 0⟩).create (fun _ => none) 0 = .error .divideByZero ∧
    (Config.const ⟨1000, 0⟩).checkedCreate (fun _ => none) 0 = .error .panic := by
  refine ⟨?_, ?_, ?_⟩
  · simp only [NoSin]
  · rw [create]
    rfl
  · rw [checkedCreate]
    rfl

end Config

end Dwd
