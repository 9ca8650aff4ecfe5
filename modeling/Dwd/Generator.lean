import Dwd.Machine

/-! Load profiles: the configuration tree, the generators it creates and their two operations,
activation at an instant and the value at an instant. A generator is polled: `currentAt` returns the
rate to generate, or `none` once the profile is over, together with the generator's next state. -/

namespace Dwd

structure ConstGeneratorConfig where
  rps : ℕ
  duration : ℕ
  deriving DecidableEq, Repr

structure LineGeneratorConfig where
  rps : ℕ × ℕ
  duration : ℕ
  deriving DecidableEq, Repr

structure SinGeneratorConfig where
  pps : ℕ × ℕ
  ppsMin : ℕ
  ppsMax : ℕ
  approximatePeriod : ℕ
  duration : ℕ
  deriving DecidableEq, Repr

inductive Config where
  | const (c : ConstGeneratorConfig)
  | line (c : LineGeneratorConfig)
  | sin (c : SinGeneratorConfig)
  | seq (generators : List Config)
  | sum (generators : List Config)

namespace Config

mutual

/-- `GeneratorFactory::duration`. -/
def duration : Config → ℕ
  | .const c => Duration.fromSecs c.duration
  | .line c => Duration.fromSecs c.duration
  | .sin c => Duration.fromSecs c.duration
  | .seq generators => durationSeq generators
  | .sum generators => durationSum generators

def durationSeq : List Config → ℕ
  | [] => 0
  | gen :: generators => gen.duration + durationSeq generators

def durationSum : List Config → ℕ
  | [] => 0
  | gen :: generators => max gen.duration (durationSum generators)

end

end Config

/-- The two operations of the `Generator` trait that take the time as an argument. -/
class Generator (G : Type) where
  activateAt : ℕ → G → G
  currentAt : ℕ → G → Option ℕ × G

/-- Why `create` does not return a generator: a panic of the integer division in
`LineGenerator::new`, or the error of `find_closest_phase`. -/
inductive CreateError where
  | divideByZero
  | divideOverflow
  | noPhase
  deriving DecidableEq, Repr

structure LineGenerator where
  k : ℤ
  b : ℕ
  t0 : ℕ
  duration : ℕ

namespace LineGenerator

/-- `LineGenerator::new`. The only checked operation of a release build is the division. -/
def new (rps0 rps1 : ℕ) (duration : ℕ) (now : ℕ) : Except CreateError LineGenerator :=
  let rise := wrapI64 (wrapI64 (asI64 rps1 - asI64 rps0) * 1000000000)
  let nanos := asI64 duration
  if nanos = 0 then .error .divideByZero
  else if rise = -2 ^ 63 ∧ nanos = -1 then .error .divideOverflow
  else .ok { k := rise.tdiv nanos, b := rps0, t0 := now, duration := duration }

def activateAt (now : ℕ) (g : LineGenerator) : LineGenerator := { g with t0 := now }

def currentAt (now : ℕ) (g : LineGenerator) : Option ℕ :=
  let elapsed := Instant.durationSince now g.t0
  if g.duration < elapsed then none
  else some (asU64 (wrapI64
    ((wrapI64 (g.k * asI64 elapsed)).tdiv 1000000000 + asI64 g.b)))

instance : Generator LineGenerator where
  activateAt := activateAt
  currentAt now g := (g.currentAt now, g)

end LineGenerator

/-- The sine generator. Its value is computed in floating point from the elapsed time and is left
as the function `wave`. -/
structure SinGenerator where
  wave : ℕ → ℕ
  t0 : ℕ
  duration : ℕ

namespace SinGenerator

def activateAt (now : ℕ) (g : SinGenerator) : SinGenerator := { g with t0 := now }

def currentAt (now : ℕ) (g : SinGenerator) : Option ℕ :=
  let elapsed := Instant.durationSince now g.t0
  if g.duration < elapsed then none else some (g.wave elapsed)

instance : Generator SinGenerator where
  activateAt := activateAt
  currentAt now g := (g.currentAt now, g)

end SinGenerator

/-- `Box<dyn Generator>`, for the generators a configuration can create. -/
inductive BoxedGenerator where
  | line (g : LineGenerator)
  | sin (g : SinGenerator)
  | seq (idx : ℕ) (generators : List BoxedGenerator)
  | sum (generators : List BoxedGenerator)

namespace BoxedGenerator

mutual

def activateAt (now : ℕ) : BoxedGenerator → BoxedGenerator
  | .line g => .line (g.activateAt now)
  | .sin g => .sin (g.activateAt now)
  | .seq idx generators => .seq idx (activateNth now idx generators)
  | .sum generators => .sum (activateAll now generators)

/-- `self.generators[self.idx].activate_at(now)`, or nothing when the index is past the end. -/
def activateNth (now : ℕ) : ℕ → List BoxedGenerator → List BoxedGenerator
  | _, [] => []
  | 0, g :: generators => activateAt now g :: generators
  | idx + 1, g :: generators => g :: activateNth now idx generators

def activateAll (now : ℕ) : List BoxedGenerator → List BoxedGenerator
  | [] => []
  | g :: generators => activateAt now g :: activateAll now generators

end

mutual

def nodes : BoxedGenerator → ℕ
  | .line _ => 1
  | .sin _ => 1
  | .seq _ generators => nodesAll generators + 1
  | .sum generators => nodesAll generators + 1

def nodesAll : List BoxedGenerator → ℕ
  | [] => 1
  | g :: generators => g.nodes + nodesAll generators + 1

end

mutual

theorem nodes_activateAt (now : ℕ) : ∀ g : BoxedGenerator, (g.activateAt now).nodes = g.nodes
  | .line _ => by simp only [activateAt, nodes]
  | .sin _ => by simp only [activateAt, nodes]
  | .seq idx generators => by simp only [activateAt, nodes, nodesAll_activateNth now idx generators]
  | .sum generators => by simp only [activateAt, nodes, nodesAll_activateAll now generators]

theorem nodesAll_activateNth (now : ℕ) : ∀ (idx : ℕ) (generators : List BoxedGenerator),
    nodesAll (activateNth now idx generators) = nodesAll generators
  | _, [] => by simp only [activateNth]
  | 0, g :: _ => by simp only [activateNth, nodesAll, nodes_activateAt now g]
  | idx + 1, _ :: generators => by
      simp only [activateNth, nodesAll, nodesAll_activateNth now idx generators]

theorem nodesAll_activateAll (now : ℕ) : ∀ generators : List BoxedGenerator,
    nodesAll (activateAll now generators) = nodesAll generators
  | [] => by simp only [activateAll]
  | g :: generators => by
      simp only [activateAll, nodesAll, nodes_activateAt now g, nodesAll_activateAll now generators]

end

mutual

/-- `Generator::current_at`. -/
def currentAt (now : ℕ) : BoxedGenerator → Option ℕ × BoxedGenerator
  | .line g => (g.currentAt now, .line g)
  | .sin g => (g.currentAt now, .sin g)
  | .seq idx generators =>
      let r := seqCurrentAt now idx generators
      (r.1, .seq r.2.1 r.2.2)
  | .sum generators =>
      let r := sumCurrentAt now none generators
      (r.1, .sum r.2)
termination_by g => g.nodes
decreasing_by all_goals simp only [nodes]; omega

/-- The chain from its current index on: a finished generator hands over to the next one, which is
activated and polled at the same instant. -/
def seqCurrentAt (now : ℕ) :
    ℕ → List BoxedGenerator → Option ℕ × ℕ × List BoxedGenerator
  | idx, [] => (none, idx, [])
  | idx + 1, g :: generators =>
      let r := seqCurrentAt now idx generators
      (r.1, r.2.1 + 1, g :: r.2.2)
  | 0, g :: generators =>
      match currentAt now g with
      | (some v, g) => (some v, 0, g :: generators)
      | (none, g) =>
          let r := seqCurrentAt now 0 (activateNth now 0 generators)
          (r.1, r.2.1 + 1, g :: r.2.2)
termination_by _ generators => nodesAll generators
decreasing_by all_goals simp only [nodesAll, nodesAll_activateNth]; omega

/-- The sum of the values of the generators that are still running. -/
def sumCurrentAt (now : ℕ) (out : Option ℕ) :
    List BoxedGenerator → Option ℕ × List BoxedGenerator
  | [] => (out, [])
  | g :: generators =>
      match currentAt now g with
      | (none, g) =>
          let r := sumCurrentAt now out generators
          (r.1, g :: r.2)
      | (some v, g) =>
          let r := sumCurrentAt now (some (match out with
            | none => v
            | some o => wrapU64 (o + v))) generators
          (r.1, g :: r.2)
termination_by generators => nodesAll generators
decreasing_by all_goals simp only [nodesAll]; omega

end

instance : Generator BoxedGenerator where
  activateAt := activateAt
  currentAt := currentAt

end BoxedGenerator

namespace Config

variable (findClosestPhase : SinGeneratorConfig → Option (ℕ → ℕ))

mutual

/-- `GeneratorFactory::create`. The floating-point search of `find_closest_phase` is the parameter:
it fails, or fixes the wave. -/
def create (now : ℕ) : Config → Except CreateError BoxedGenerator
  | .const c => do
      let g ← LineGenerator.new c.rps c.rps (Duration.fromSecs c.duration) now
      return .line g
  | .line c => do
      let g ← LineGenerator.new c.rps.1 c.rps.2 (Duration.fromSecs c.duration) now
      return .line g
  | .sin c =>
      match findClosestPhase c with
      | none => .error .noPhase
      | some wave => .ok (.sin { wave := wave, t0 := now, duration := Duration.fromSecs c.duration })
  | .seq generators => do
      let generators ← createAll now generators
      return .seq 0 generators
  | .sum generators => do
      let generators ← createAll now generators
      return .sum generators

def createAll (now : ℕ) : List Config → Except CreateError (List BoxedGenerator)
  | [] => return []
  | gen :: generators => do
      let g ← gen.create now
      let gs ← createAll now generators
      return g :: gs

end

end Config

end Dwd
