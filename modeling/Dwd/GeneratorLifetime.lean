import Dwd.Generator
import Dwd.LibFallible
import Dwd.LibPolling

/-! The lifetime of a load profile. A generator activated at `a` ends no earlier than the duration
its configuration states, and at most one polling gap per stage later, plus the gap before the first
poll. A leaf is measured against its own start; a chain restarts the measure at the poll that ends a
stage, which is where the gaps add up; a parallel combination waits for its last generator. -/

namespace Dwd

open Polling

namespace Config

mutual

/-- The number of stages a profile can go through: one for a leaf, the sum over a chain, the
maximum over a parallel combination. -/
def stages : Config → ℕ
  | .const _ => 1
  | .line _ => 1
  | .sin _ => 1
  | .seq generators => stagesSeq generators
  | .sum generators => stagesSum generators

def stagesSeq : List Config → ℕ
  | [] => 0
  | gen :: generators => gen.stages + stagesSeq generators

def stagesSum : List Config → ℕ
  | [] => 0
  | gen :: generators => max gen.stages (stagesSum generators)

end

end Config

namespace BoxedGenerator

/-- Activated at `a` and first polled within `e`, the generator ends between `dur` and
`dur + stages * d + e` after `a`. -/
def Starts (d : ℕ) (g : BoxedGenerator) (dur stages : ℕ) : Prop :=
  ∀ a e, e ≤ d → Ends currentAt d (a + dur) (a + dur + stages * d + e) (g.activateAt a) a (a + e)

/-- A generator that returns a value exactly while no more than `dur` has elapsed since `t0` and is
left unchanged by a poll. -/
def Leaf (g : BoxedGenerator) (t0 dur : ℕ) : Prop :=
  ∀ now : ℕ, (g.currentAt now).2 = g ∧ ((g.currentAt now).1 = none ↔ dur < Instant.durationSince now t0)

theorem line_leaf (g : LineGenerator) : Leaf (.line g) g.t0 g.duration := by
  intro now
  rw [currentAt, LineGenerator.currentAt]
  simp only [ite_eq_left_iff, reduceCtorEq, imp_false, not_not, and_self]

theorem sin_leaf (g : SinGenerator) : Leaf (.sin g) g.t0 g.duration := by
  intro now
  rw [currentAt, SinGenerator.currentAt]
  simp only [ite_eq_left_iff, reduceCtorEq, imp_false, not_not, and_self]

theorem Leaf.ends {g : BoxedGenerator} {a dur d e : ℕ} (hleaf : Leaf g a dur) (he : e ≤ d) :
    Ends currentAt d (a + dur) (a + dur + d) g a (a + e) := by
  refine ⟨fun g' p q => g' = g ∧ q ≤ a + dur + d ∧ a ≤ p, ⟨rfl, by omega, le_rfl⟩, ?_⟩
  rintro _ p q ⟨rfl, hq, hp⟩ t hpt htq
  obtain ⟨hstate, hnone⟩ := hleaf t
  rw [hstate, ne_eq, hnone, Instant.durationSince]
  refine ⟨htq.trans hq, fun hlate => ⟨by omega, ?_⟩, fun hrun => ⟨rfl, by omega, hp.trans hpt⟩⟩
  refine Over.of_fixed fun u hu => ?_
  obtain ⟨hstate, hnone⟩ := hleaf u
  exact Prod.ext (hnone.mpr (by rw [Instant.durationSince]; omega)) hstate

theorem line_starts (d : ℕ) (g : LineGenerator) : Starts d (.line g) g.duration 1 := by
  intro a e he
  rw [activateAt]
  exact (Leaf.ends (line_leaf (g.activateAt a)) he).mono_hi (by simp only [LineGenerator.activateAt]; omega)

theorem sin_starts (d : ℕ) (g : SinGenerator) : Starts d (.sin g) g.duration 1 := by
  intro a e he
  rw [activateAt]
  exact (Leaf.ends (sin_leaf (g.activateAt a)) he).mono_hi (by simp only [SinGenerator.activateAt]; omega)

theorem seqCurrentAt_append (now : ℕ) (done generators : List BoxedGenerator) :
    seqCurrentAt now done.length (done ++ generators) =
      ((seqCurrentAt now 0 generators).1, done.length + (seqCurrentAt now 0 generators).2.1,
        done ++ (seqCurrentAt now 0 generators).2.2) := by
  induction done with
  | nil => simp
  | cons g done ih =>
      rw [List.length_cons, List.cons_append, seqCurrentAt, ih]
      simp only [List.cons_append, Nat.add_right_comm]

/-- A chain whose index is past its last generator is over. -/
theorem seq_over (generators : List BoxedGenerator) (p : ℕ) :
    Over currentAt (.seq generators.length generators) p := by
  refine Over.of_fixed fun t _ => ?_
  have h := seqCurrentAt_append t generators []
  rw [List.append_nil, seqCurrentAt] at h
  simp only [Nat.add_zero, List.append_nil] at h
  rw [currentAt, h]

/-- The generators of a chain that are still to come, with the durations and stages they run for. -/
abbrev Pending (d : ℕ) (generators : List BoxedGenerator) (terms : List (ℕ × ℕ)) : Prop :=
  List.Forall₂ (fun g term => Starts d g term.1 term.2) generators terms

def totalDuration (terms : List (ℕ × ℕ)) : ℕ := (terms.map Prod.fst).sum

def totalStages (terms : List (ℕ × ℕ)) : ℕ := (terms.map Prod.snd).sum

/-- A chain inside its stage `idx`: the generator there runs, the ones after it are pending, and
`lo` and `hi` are bounds for the whole. -/
def SeqRunning (d lo hi : ℕ) (idx : ℕ) (generators : List BoxedGenerator) (p q : ℕ) : Prop :=
  ∃ done g rest terms lo' hi', generators = done ++ g :: rest ∧ idx = done.length ∧
    Ends currentAt d lo' hi' g p q ∧ Pending d rest terms ∧
    lo ≤ lo' + totalDuration terms ∧ hi' + totalDuration terms + totalStages terms * d ≤ hi

/-- One poll of the chain, from its current generator on. The induction follows the hand-over from
a finished generator to the next one. -/
theorem seqCurrentAt_running {d lo hi p q t : ℕ} {g : BoxedGenerator} {rest : List BoxedGenerator}
    {terms : List (ℕ × ℕ)} (hg : Ends currentAt d lo hi g p q) (hrest : Pending d rest terms)
    (hp : p ≤ t) (hq : t ≤ q) :
    ((seqCurrentAt t 0 (g :: rest)).1 = none →
      lo + totalDuration terms ≤ t ∧
        (seqCurrentAt t 0 (g :: rest)).2.1 = (seqCurrentAt t 0 (g :: rest)).2.2.length) ∧
    ((seqCurrentAt t 0 (g :: rest)).1 ≠ none →
      SeqRunning d (lo + totalDuration terms) (hi + totalDuration terms + totalStages terms * d)
        (seqCurrentAt t 0 (g :: rest)).2.1 (seqCurrentAt t 0 (g :: rest)).2.2 t (t + d)) := by
  obtain ⟨v, g', hpoll⟩ : ∃ v g', currentAt t g = (v, g') := ⟨_, _, rfl⟩
  have hv : (currentAt t g).1 = v := by rw [hpoll]
  cases v with
  | some v =>
      have hstep : seqCurrentAt t 0 (g :: rest) = (some v, 0, g' :: rest) := by rw [seqCurrentAt, hpoll]
      rw [hstep]
      refine ⟨fun h => (Option.some_ne_none v h).elim, fun _ => ?_⟩
      have hnext := hg.of_some hp hq (by rw [hv]; exact Option.some_ne_none v)
      rw [hpoll] at hnext
      exact ⟨[], g', rest, terms, lo, hi, rfl, rfl, hnext, hrest, le_rfl, le_rfl⟩
  | none =>
      obtain ⟨hlo, -⟩ := hg.of_none hp hq hv
      have hhi := hg.le hp hq
      have hstep : seqCurrentAt t 0 (g :: rest) =
          ((seqCurrentAt t 0 (activateNth t 0 rest)).1, (seqCurrentAt t 0 (activateNth t 0 rest)).2.1 + 1,
            g' :: (seqCurrentAt t 0 (activateNth t 0 rest)).2.2) := by rw [seqCurrentAt, hpoll]
      rw [hstep]
      cases hrest with
      | nil =>
          rw [activateNth, seqCurrentAt]
          exact ⟨fun _ => ⟨hlo, rfl⟩, fun h => absurd rfl h⟩
      | @cons next term rest terms hnext hrest =>
          rw [activateNth]
          have hactive := hnext t 0 (Nat.zero_le d)
          obtain ⟨hover, hrun⟩ := seqCurrentAt_running hactive hrest le_rfl le_rfl
          have hdur : totalDuration (term :: terms) = term.1 + totalDuration terms := rfl
          have hstages : totalStages (term :: terms) * d = term.2 * d + totalStages terms * d := by
            rw [← Nat.add_mul]
            rfl
          refine ⟨fun h => ?_, fun h => ?_⟩
          · obtain ⟨hle, hlen⟩ := hover h
            exact ⟨by omega, by rw [hlen, List.length_cons]⟩
          · obtain ⟨done, h', rest', terms', lo', hi', hgens, hidx, hends, hpend, hlo', hhi'⟩ := hrun h
            exact ⟨g' :: done, h', rest', terms', lo', hi', by rw [hgens, List.cons_append],
              by rw [hidx, List.length_cons], hends, hpend, by omega, by omega⟩
termination_by rest.length

theorem SeqRunning.ends {d lo hi idx p q : ℕ} {generators : List BoxedGenerator}
    (h : SeqRunning d lo hi idx generators p q) : Ends currentAt d lo hi (.seq idx generators) p q := by
  refine ⟨fun g p q => ∃ idx generators, g = .seq idx generators ∧
    SeqRunning d lo hi idx generators p q, ⟨idx, generators, rfl, h⟩, ?_⟩
  rintro _ p q ⟨idx, generators, rfl, done, g, rest, terms, lo', hi', rfl, rfl, hg, hrest, hlo, hhi⟩ t
    hp hq
  obtain ⟨hnone, hsome⟩ := seqCurrentAt_running hg hrest hp hq
  have hle := hg.le hp hq
  rw [currentAt, seqCurrentAt_append]
  refine ⟨by omega, fun h => ?_, fun h => ?_⟩
  · obtain ⟨hend, hlen⟩ := hnone h
    refine ⟨by omega, ?_⟩
    rw [hlen, ← List.length_append]
    exact seq_over _ _
  · obtain ⟨done', g', rest', terms', lo'', hi'', hgens, hidx, hends, hpend, hlo', hhi'⟩ := hsome h
    refine ⟨_, _, rfl, done ++ done', g', rest', terms', lo'', hi'', ?_, ?_, hends, hpend, ?_, ?_⟩
    · rw [hgens, List.append_assoc]
    · rw [hidx, List.length_append]
    · omega
    · omega

theorem seq_starts {d : ℕ} {generators : List BoxedGenerator} {terms : List (ℕ × ℕ)}
    (h : Pending d generators terms) :
    Starts d (.seq 0 generators) (totalDuration terms) (totalStages terms) := by
  intro a e he
  cases h with
  | nil =>
      rw [activateAt, activateNth]
      refine ⟨fun g p q => g = .seq 0 [] ∧ a ≤ p ∧ q ≤ a + e, ⟨rfl, le_rfl, le_rfl⟩, ?_⟩
      rintro _ p q ⟨rfl, hap, hqe⟩ t hp hq
      rw [currentAt, seqCurrentAt]
      refine ⟨by omega, fun _ => ⟨?_, seq_over [] t⟩, fun h => absurd rfl h⟩
      exact hap.trans hp
  | @cons g term rest terms hg hrest =>
      rw [activateAt, activateNth]
      have hdur : totalDuration (term :: terms) = term.1 + totalDuration terms := rfl
      have hstages : totalStages (term :: terms) * d = term.2 * d + totalStages terms * d := by
        rw [← Nat.add_mul]
        rfl
      exact SeqRunning.ends ⟨[], g.activateAt a, rest, terms, _, _, rfl, rfl, hg a e he, hrest,
        by omega, by omega⟩

theorem sumCurrentAt_snd (now : ℕ) (out : Option ℕ) (generators : List BoxedGenerator) :
    (sumCurrentAt now out generators).2 = generators.map fun g => (g.currentAt now).2 := by
  induction generators generalizing out with
  | nil => rw [sumCurrentAt, List.map_nil]
  | cons g generators ih =>
      rw [sumCurrentAt, List.map_cons]
      obtain ⟨v, g', hpoll⟩ : ∃ v g', currentAt now g = (v, g') := ⟨_, _, rfl⟩
      rw [hpoll]
      cases v with
      | none => exact congrArg (g' :: ·) (ih _)
      | some v => exact congrArg (g' :: ·) (ih _)

theorem sumCurrentAt_eq_none (now : ℕ) (out : Option ℕ) (generators : List BoxedGenerator) :
    (sumCurrentAt now out generators).1 = none ↔
      out = none ∧ ∀ g ∈ generators, (g.currentAt now).1 = none := by
  induction generators generalizing out with
  | nil => simp [sumCurrentAt]
  | cons g generators ih =>
      obtain ⟨v, g', hpoll⟩ : ∃ v g', currentAt now g = (v, g') := ⟨_, _, rfl⟩
      rw [sumCurrentAt, hpoll]
      cases v with
      | none => simp [ih, hpoll]
      | some v => simp [ih, hpoll]

/-- A generator of a parallel combination: over, after its own earliest end, or running. -/
def Member (d p q : ℕ) (g : BoxedGenerator) (window : ℕ × ℕ) : Prop :=
  (Over currentAt g p ∧ window.1 ≤ p) ∨ Ends currentAt d window.1 window.2 g p q

theorem Member.next {d p q t : ℕ} {g : BoxedGenerator} {window : ℕ × ℕ} (h : Member d p q g window)
    (hp : p ≤ t) (hq : t ≤ q) :
    Member d t (t + d) (g.currentAt t).2 window ∧
      ((g.currentAt t).1 = none → window.1 ≤ t ∧ Over currentAt (g.currentAt t).2 t) ∧
      ((g.currentAt t).1 ≠ none → Ends currentAt d window.1 window.2 (g.currentAt t).2 t (t + d)) := by
  rcases h with ⟨hover, hle⟩ | hends
  · obtain ⟨hnone, hover'⟩ := hover.next hp
    exact ⟨.inl ⟨hover', hle.trans hp⟩, fun _ => ⟨hle.trans hp, hover'⟩, fun h => absurd hnone h⟩
  · by_cases hnone : (g.currentAt t).1 = none
    · obtain ⟨hlo, hover⟩ := hends.of_none hp hq hnone
      exact ⟨.inl ⟨hover, hlo⟩, fun _ => ⟨hlo, hover⟩, fun h => absurd hnone h⟩
    · have hrun := hends.of_some hp hq hnone
      exact ⟨.inr hrun, fun h => absurd h hnone, fun _ => hrun⟩

theorem sum_over {generators : List BoxedGenerator} {p : ℕ}
    (h : ∀ g ∈ generators, Over currentAt g p) : Over currentAt (.sum generators) p := by
  refine ⟨fun g p => ∃ generators, g = .sum generators ∧ ∀ g ∈ generators, Over currentAt g p,
    ⟨generators, rfl, h⟩, ?_⟩
  rintro _ p ⟨generators, rfl, h⟩ t ht
  rw [currentAt, sumCurrentAt_snd, sumCurrentAt_eq_none]
  refine ⟨⟨rfl, fun g hg => ((h g hg).next ht).1⟩, _, rfl, fun g' hg' => ?_⟩
  obtain ⟨g, hg, rfl⟩ := List.mem_map.mp hg'
  exact ((h g hg).next ht).2

/-- A parallel combination whose last generator ends between `lo` and `hi`. Before its first poll,
where all generators may be missing, the bound is on that poll itself. -/
def SumRunning (d lo hi : ℕ) (generators : List BoxedGenerator) (p q : ℕ) : Prop :=
  ∃ members : List (BoxedGenerator × ℕ × ℕ), generators = members.map Prod.fst ∧
    (∀ m ∈ members, Member d p q m.1 m.2 ∧ m.2.2 ≤ hi) ∧
    (lo ≤ p ∨ ∃ m ∈ members, lo ≤ m.2.1) ∧
    (q ≤ hi ∨ ∃ m ∈ members, Ends currentAt d m.2.1 m.2.2 m.1 p q)

theorem SumRunning.ends {d lo hi p q : ℕ} {generators : List BoxedGenerator}
    (h : SumRunning d lo hi generators p q) : Ends currentAt d lo hi (.sum generators) p q := by
  refine ⟨fun g p q => ∃ generators, g = .sum generators ∧ SumRunning d lo hi generators p q,
    ⟨generators, rfl, h⟩, ?_⟩
  rintro _ p q ⟨_, rfl, members, rfl, hmembers, hlo, hlive⟩ t hp hq
  have hnext := fun m hm => (hmembers m hm).1.next hp hq
  rw [currentAt, sumCurrentAt_snd, ne_eq, sumCurrentAt_eq_none, List.map_map]
  refine ⟨?_, fun h => ⟨?_, sum_over fun g hg => ?_⟩, fun h => ?_⟩
  · rcases hlive with hle | ⟨m, hm, hends⟩
    · exact hq.trans hle
    · exact (hends.le hp hq).trans (hmembers m hm).2
  · rcases hlo with hlo | ⟨m, hm, hlo⟩
    · exact hlo.trans hp
    · exact hlo.trans ((hnext m hm).2.1 (h.2 _ (List.mem_map_of_mem hm))).1
  · obtain ⟨m, hm, rfl⟩ := List.mem_map.mp hg
    exact ((hnext m hm).2.1 (h.2 _ (List.mem_map_of_mem hm))).2
  · have hsome : ∃ m ∈ members, (m.1.currentAt t).1 ≠ none := by
      by_contra hall
      push Not at hall
      refine h ⟨rfl, fun g hg => ?_⟩
      obtain ⟨m, hm, rfl⟩ := List.mem_map.mp hg
      exact hall m hm
    obtain ⟨m, hm, hm'⟩ := hsome
    refine ⟨_, rfl, members.map fun m => ((m.1.currentAt t).2, m.2), ?_, ?_, ?_, .inr ?_⟩
    · rw [List.map_map]
      rfl
    · intro m' hm'
      obtain ⟨m, hm, rfl⟩ := List.mem_map.mp hm'
      exact ⟨(hnext m hm).1, (hmembers m hm).2⟩
    · rcases hlo with hlo | ⟨m, hm, hlo⟩
      · exact Or.inl (hlo.trans hp)
      · exact Or.inr ⟨_, List.mem_map_of_mem hm, hlo⟩
    · exact ⟨_, List.mem_map_of_mem hm, (hnext m hm).2.2 hm'⟩

theorem exists_members {d a e D L : ℕ} (he : e ≤ d) {generators : List BoxedGenerator}
    {terms : List (ℕ × ℕ)} (h : Pending d generators terms)
    (hterms : ∀ term ∈ terms, term.1 ≤ D ∧ term.2 ≤ L) :
    ∃ members : List (BoxedGenerator × ℕ × ℕ), activateAll a generators = members.map Prod.fst ∧
      (∀ m ∈ members, Ends currentAt d m.2.1 m.2.2 m.1 a (a + e) ∧ m.2.2 ≤ a + D + L * d + e) ∧
      ∀ term ∈ terms, ∃ m ∈ members, m.2.1 = a + term.1 := by
  induction h with
  | nil => exact ⟨[], by rw [activateAll, List.map_nil], by simp, by simp⟩
  | @cons g term generators terms hg _ ih =>
      obtain ⟨members, hmap, hmembers, hcover⟩ := ih fun term ht => hterms term (by simp [ht])
      obtain ⟨hdur, hstages⟩ := hterms term (by simp)
      have hmul : term.2 * d ≤ L * d := Nat.mul_le_mul_right d hstages
      refine ⟨(g.activateAt a, a + term.1, a + term.1 + term.2 * d + e) :: members, ?_, ?_, ?_⟩
      · rw [activateAll, hmap, List.map_cons]
      · intro m hm
        rcases List.mem_cons.mp hm with rfl | hm
        · refine ⟨hg a e he, ?_⟩
          show a + term.1 + term.2 * d + e ≤ _
          omega
        · exact hmembers m hm
      · intro term' ht
        rcases List.mem_cons.mp ht with rfl | ht
        · exact ⟨_, List.mem_cons_self, rfl⟩
        · obtain ⟨m, hm, heq⟩ := hcover term' ht
          exact ⟨m, List.mem_cons_of_mem _ hm, heq⟩

theorem sum_starts {d D L : ℕ} {generators : List BoxedGenerator} {terms : List (ℕ × ℕ)}
    (h : Pending d generators terms) (hterms : ∀ term ∈ terms, term.1 ≤ D ∧ term.2 ≤ L)
    (hmax : D = 0 ∨ ∃ term ∈ terms, D ≤ term.1) : Starts d (.sum generators) D L := by
  intro a e he
  obtain ⟨members, hmap, hmembers, hcover⟩ := exists_members (a := a) he h hterms
  rw [activateAt]
  refine SumRunning.ends ⟨members, hmap, fun m hm => ⟨.inr (hmembers m hm).1, (hmembers m hm).2⟩, ?_,
    .inl (by omega)⟩
  rcases hmax with rfl | ⟨term, hterm, hle⟩
  · exact .inl le_rfl
  · obtain ⟨m, hm, heq⟩ := hcover term hterm
    exact .inr ⟨m, hm, by omega⟩

end BoxedGenerator

namespace Config

open BoxedGenerator

variable {findClosestPhase : SinGeneratorConfig → Option (ℕ → ℕ)}

/-- The duration and the stages of every generator of a list. -/
def terms (generators : List Config) : List (ℕ × ℕ) :=
  generators.map fun gen => (gen.duration, gen.stages)

theorem totalDuration_terms (generators : List Config) :
    totalDuration (terms generators) = durationSeq generators := by
  induction generators with
  | nil => rw [durationSeq]; rfl
  | cons gen generators ih => rw [durationSeq, ← ih]; rfl

theorem totalStages_terms (generators : List Config) :
    totalStages (terms generators) = stagesSeq generators := by
  induction generators with
  | nil => rw [stagesSeq]; rfl
  | cons gen generators ih => rw [stagesSeq, ← ih]; rfl

theorem terms_le (generators : List Config) : ∀ term ∈ terms generators,
    term.1 ≤ durationSum generators ∧ term.2 ≤ stagesSum generators := by
  induction generators with
  | nil => simp [terms]
  | cons gen generators ih =>
      intro term hterm
      rw [durationSum, stagesSum]
      rcases List.mem_cons.mp hterm with rfl | hterm
      · exact ⟨le_max_left _ _, le_max_left _ _⟩
      · exact ⟨le_max_of_le_right (ih term hterm).1, le_max_of_le_right (ih term hterm).2⟩

theorem durationSum_attained (generators : List Config) :
    durationSum generators = 0 ∨ ∃ term ∈ terms generators, durationSum generators ≤ term.1 := by
  induction generators with
  | nil => exact .inl (by rw [durationSum])
  | cons gen generators ih =>
      rw [durationSum]
      rcases le_total (durationSum generators) gen.duration with hle | hle
      · exact .inr ⟨_, List.mem_cons_self, max_le le_rfl hle⟩
      · rcases ih with hzero | ⟨term, hterm, hle'⟩
        · exact .inl (by rw [max_eq_right hle, hzero])
        · exact .inr ⟨term, List.mem_cons_of_mem _ hterm, by rwa [max_eq_right hle]⟩

theorem duration_of_new {rps0 rps1 : ℕ} {duration : ℕ} {now : ℕ} {g : LineGenerator}
    (h : LineGenerator.new rps0 rps1 duration now = .ok g) : g.duration = duration := by
  simp only [LineGenerator.new] at h
  split_ifs at h
  rw [← Except.ok.inj h]

theorem new_starts (d : ℕ) {rps0 rps1 : ℕ} {duration : ℕ} {now : ℕ} {g : LineGenerator}
    (h : LineGenerator.new rps0 rps1 duration now = .ok g) : Starts d (.line g) duration 1 := by
  have hstarts := line_starts d g
  rwa [duration_of_new h] at hstarts

/-- Every generator that a configuration creates runs for the configuration's own duration. The
induction is on the tree, with the pending generators of a list as its second motive. -/
theorem create_starts (d : ℕ) (now : ℕ) (cfg : Config) : ∀ g : BoxedGenerator,
    cfg.create findClosestPhase now = .ok g → Starts d g cfg.duration cfg.stages := by
  refine @Config.rec
    (fun cfg => ∀ g, cfg.create findClosestPhase now = .ok g → Starts d g cfg.duration cfg.stages)
    (fun generators => ∀ gs, createAll findClosestPhase now generators = .ok gs →
      Pending d gs (terms generators)) ?const ?line ?sin ?seq ?sum ?nil ?cons cfg
  case const =>
    intro c g h
    rw [create] at h
    obtain ⟨line, hline, h⟩ := Fallible.bind_eq_ok_iff.mp h
    rw [← Except.ok.inj h, duration, stages]
    exact new_starts d hline
  case line =>
    intro c g h
    rw [create] at h
    obtain ⟨line, hline, h⟩ := Fallible.bind_eq_ok_iff.mp h
    rw [← Except.ok.inj h, duration, stages]
    exact new_starts d hline
  case sin =>
    intro c g h
    rw [create] at h
    cases hphase : findClosestPhase c with
    | none => rw [hphase] at h; cases h
    | some wave =>
        rw [hphase] at h
        rw [← Except.ok.inj h, duration, stages]
        exact sin_starts d _
  case seq =>
    intro generators ih g h
    rw [create] at h
    obtain ⟨gs, hgs, h⟩ := Fallible.bind_eq_ok_iff.mp h
    rw [← Except.ok.inj h, duration, stages, ← totalDuration_terms, ← totalStages_terms]
    exact seq_starts (ih gs hgs)
  case sum =>
    intro generators ih g h
    rw [create] at h
    obtain ⟨gs, hgs, h⟩ := Fallible.bind_eq_ok_iff.mp h
    rw [← Except.ok.inj h, duration, stages]
    exact sum_starts (ih gs hgs) (terms_le generators) (durationSum_attained generators)
  case nil =>
    intro gs h
    rw [createAll] at h
    rw [← Except.ok.inj h]
    exact .nil
  case cons =>
    intro gen generators hgen hgens gs h
    rw [createAll] at h
    obtain ⟨g, hg, h⟩ := Fallible.bind_eq_ok_iff.mp h
    obtain ⟨gs', hgs', h⟩ := Fallible.bind_eq_ok_iff.mp h
    rw [← Except.ok.inj h]
    exact .cons (hgen g hg) (hgens gs' hgs')

/-- **A profile ends on time.** Activated at `t0` and polled with gaps of at most `d`, a profile
returns `none` no earlier than its duration after `t0` and from then on, and no poll up to the first
`none` comes more than its duration and one gap per stage, plus one, after `t0`. -/
theorem create_lifetime (cfg : Config) (created t0 : ℕ) (g : BoxedGenerator)
    (hcreate : cfg.create findClosestPhase created = .ok g) (d : ℕ) (polls : List ℕ)
    (hpolls : Schedule d t0 polls) :
    (∀ before after T, observed currentAt (g.activateAt t0) polls = before ++ (T, none) :: after →
      t0 ≤ T ∧ cfg.duration ≤ T - t0 ∧ ∀ o ∈ after, o.2 = none) ∧
    (∀ before after T v, observed currentAt (g.activateAt t0) polls = before ++ (T, v) :: after →
      (∀ b ∈ before, b.2 ≠ none) → T - t0 ≤ cfg.duration + (cfg.stages + 1) * d) := by
  have hends := create_starts d created cfg g hcreate t0 d le_rfl
  refine ⟨fun before after T hobs => ?_, fun before after T v hobs hbefore => ?_⟩
  · obtain ⟨hlo, hrest⟩ := hends.observed_none hpolls hobs
    exact ⟨by omega, by omega, hrest⟩
  · have hhi := hends.observed_le hpolls hobs hbefore
    rw [Nat.add_mul, Nat.one_mul]
    simp only at hhi
    omega

/-- A ramp of one second followed by a plateau of one second, polled every half second: it is over a second late,
which is within the one and a half that two stages may take. -/
theorem create_lifetime_ramp_plateau :
    ∃ g, (Config.seq [.line ⟨(0, 100), 1⟩, .const ⟨100, 1⟩]).create (fun _ => none) 0 = .ok g ∧
      observed currentAt (g.activateAt 7)
          [500000007, 1000000007, 1500000007, 2000000007, 2500000007, 3000000007, 3500000007] =
        [(500000007, some 50), (1000000007, some 100), (1500000007, some 100), (2000000007, some 100),
          (2500000007, some 100)] ++ (3000000007, none) :: [(3500000007, none)] ∧
      (7 ≤ 3000000007 ∧ 2000000000 ≤ 3000000007 - 7 ∧ ∀ o ∈ [((3500000007 : ℕ), (none : Option ℕ))], o.2 = none) ∧
      3000000007 - 7 ≤ 2000000000 + (2 + 1) * 500000000 := by
  obtain ⟨g, hcreate, hobs⟩ :
      ∃ g, (Config.seq [.line ⟨(0, 100), 1⟩, .const ⟨100, 1⟩]).create (fun _ => none) 0 = .ok g ∧
        observed currentAt (g.activateAt 7)
            [500000007, 1000000007, 1500000007, 2000000007, 2500000007, 3000000007, 3500000007] =
          [(500000007, some 50), (1000000007, some 100), (1500000007, some 100), (2000000007, some 100),
            (2500000007, some 100)] ++ (3000000007, none) :: [(3500000007, none)] := ⟨_, rfl, by decide +kernel⟩
  obtain ⟨hnone, hfirst⟩ := create_lifetime _ 0 7 g hcreate 500000000
    [500000007, 1000000007, 1500000007, 2000000007, 2500000007, 3000000007, 3500000007] (by simp [Schedule])
  exact ⟨g, hcreate, hobs, hnone _ _ _ hobs, hfirst _ _ _ _ hobs (by simp)⟩

end Config

end Dwd
