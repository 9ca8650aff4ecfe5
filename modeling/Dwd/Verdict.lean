import Dwd.HttpConservation
import Dwd.Summary

/-! The verdict of the summary. Once the engine has drained, a last snapshot is compared with what a run without
anomalies would have counted; the verdict is OK when no kind of anomaly is found. What it says about the calls of
an HTTP run follows from what every such run conserves. Percentages and rates are exact here. -/

namespace Dwd

/-- The anomalies that `issues` reports, with the numbers in their texts. -/
inductive Issue where
  | timeouts (numTimeouts : ℕ) (percent : ℚ)
  | unanswered (unanswered : ℕ) (percent : ℚ)
  | http5xx (num5xx : ℕ)
  | http4xx (num4xx : ℕ)
  | socketErrors (numSockErrors : ℕ)
  | retransmits (numRetransmits : ℕ)
  | underachieved (avg target : ℕ) (percent : ℚ)

/-- `RunSummary`, without the name of the engine, which only its texts mention. -/
structure RunSummary where
  duration : ℕ
  rates : List ℚ
  targets : List ℕ
  snapshot : StatsSnapshot

/-- `Recorder::finish`. -/
def Sampler.finish (snapshot : StatsSnapshot) (s : Sampler) : RunSummary :=
  { duration := Instant.durationSince s.stopped s.started
    rates := s.rates
    targets := s.targets
    snapshot := snapshot }

namespace RunSummary

/-- `UNANSWERED_THRESHOLD_PCT`. -/
def unansweredThresholdPct : ℚ := 1

/-- `UNDERACHIEVED_THRESHOLD`. -/
def underachievedThreshold : ℚ := 95 / 100

/-- The duration, and at least `f64::EPSILON`. -/
def secs (s : RunSummary) : ℚ := max (Duration.asSecs s.duration) (1 / 2 ^ 52)

def requests (s : RunSummary) : ℕ := (s.snapshot.tx.map fun tx => tx.numRequests).getD 0

def rxIssues (s : RunSummary) : List Issue :=
  match s.snapshot.rx with
  | none => []
  | some rx =>
      let unanswered := s.requests - (rx.numResponses + rx.numTimeouts)
      (if 0 < rx.numTimeouts then [.timeouts rx.numTimeouts (pct rx.numTimeouts s.requests)] else []) ++
        if unansweredThresholdPct < pct unanswered s.requests then
          [.unanswered unanswered (pct unanswered s.requests)]
        else []

def httpIssues (s : RunSummary) : List Issue :=
  match s.snapshot.http with
  | none => []
  | some http =>
      (if 0 < http.num5xx then [.http5xx http.num5xx] else []) ++
        if 0 < http.num4xx then [.http4xx http.num4xx] else []

def socketIssues (s : RunSummary) : List Issue :=
  match s.snapshot.socket with
  | none => []
  | some socket =>
      (if 0 < socket.numSockErrors then [.socketErrors socket.numSockErrors] else []) ++
        if 0 < socket.numRetransmits then [.retransmits socket.numRetransmits] else []

def targetIssues (s : RunSummary) : List Issue :=
  match mean s.targets with
  | none => []
  | some target =>
      let avg := s.requests / s.secs
      if 0 < target ∧ avg < underachievedThreshold * target then
        [.underachieved (roundU64 avg) target (100 * avg / target)]
      else []

/-- `issues`: the verdict is OK when there are none. -/
def issues (s : RunSummary) : List Issue := s.rxIssues ++ s.httpIssues ++ s.socketIssues ++ s.targetIssues

/-- The target is met if there was one. -/
def OnTarget (s : RunSummary) : Prop :=
  ∀ target, mean s.targets = some target → underachievedThreshold * target ≤ s.requests / s.secs

theorem secs_pos (s : RunSummary) : 0 < s.secs := lt_max_of_lt_right (by norm_num)

theorem targetIssues_eq_nil_iff (s : RunSummary) : s.targetIssues = [] ↔ s.OnTarget := by
  unfold targetIssues OnTarget
  cases mean s.targets with
  | none => simp
  | some target =>
      have havg : 0 ≤ (s.requests : ℚ) / s.secs := div_nonneg (Nat.cast_nonneg _) s.secs_pos.le
      simp only [Option.some.injEq, forall_eq', ite_eq_right_iff, List.cons_ne_nil, imp_false, not_and, not_lt]
      refine ⟨fun h => ?_, fun h _ => h⟩
      rcases Nat.eq_zero_or_pos target with rfl | hpos
      · rw [Nat.cast_zero, mul_zero]
        exact havg
      · exact h hpos

/-- At most one percent. -/
theorem not_threshold_lt_iff (part whole : ℕ) (h : part ≤ whole) :
    ¬unansweredThresholdPct < pct part whole ↔ 100 * part ≤ whole := by
  unfold unansweredThresholdPct pct
  split_ifs with hwhole
  · subst hwhole
    obtain rfl := Nat.le_zero.mp h
    simp
  · have hpos : (0 : ℚ) < whole := Nat.cast_pos.mpr (Nat.pos_of_ne_zero hwhole)
    rw [not_lt, div_le_one hpos]
    exact_mod_cast Iff.rfl

end RunSummary

/-- `snapshot` of a drained HTTP engine. -/
def Stat.finalSnapshot (generator : ℕ) (stat : Stat) : StatsSnapshot :=
  { generatorRps := generator
    tx := some { numRequests := stat.numRequests, bytesTx := stat.bytesTx }
    rx := some
      { numResponses := stat.numResponses
        numTimeouts := stat.numTimeouts
        bytesRx := stat.bytesRx
        histogramBuckets := stat.hist.snapshot }
    socket := some
      { numSockCreated := stat.numSockCreated
        numSockErrors := stat.numSockErrors
        numRetransmits := stat.numRetransmits }
    http := some
      { num2xx := stat.num2xx, num3xx := stat.num3xx, num4xx := stat.num4xx, num5xx := stat.num5xx }
    burstTx := none }

/-- What the verdict stands for: every call that has completed got a response, at most one request in a hundred
is left without one, no response was an error, the network had to repeat nothing, and the target was met. -/
structure Clean (completed : ℕ) (stat : Stat) (s : RunSummary) : Prop where
  responses : completed = stat.numResponses
  unanswered : 100 * (stat.numRequests - stat.numResponses) ≤ stat.numRequests
  num5xx : stat.num5xx = 0
  num4xx : stat.num4xx = 0
  retransmits : stat.numRetransmits = 0
  target : s.OnTarget

/-- The verdict in terms of the counters. -/
theorem issues_eq_nil_iff {s : RunSummary} {stat : Stat} {generator : ℕ}
    (hsnapshot : s.snapshot = stat.finalSnapshot generator) :
    s.issues = [] ↔
      stat.numTimeouts = 0 ∧ stat.numSockErrors = 0 ∧
        100 * (stat.numRequests - stat.numResponses) ≤ stat.numRequests ∧
        stat.num5xx = 0 ∧ stat.num4xx = 0 ∧ stat.numRetransmits = 0 ∧ s.OnTarget := by
  have hrequests : s.requests = stat.numRequests := by
    rw [RunSummary.requests, hsnapshot]
    rfl
  have hrx : s.rxIssues = [] ↔
      stat.numTimeouts = 0 ∧ 100 * (stat.numRequests - stat.numResponses) ≤ stat.numRequests := by
    simp only [RunSummary.rxIssues, hsnapshot, Stat.finalSnapshot, hrequests, List.append_eq_nil_iff,
      ite_eq_right_iff, List.cons_ne_nil, imp_false]
    rw [RunSummary.not_threshold_lt_iff _ _ (Nat.sub_le _ _), Nat.not_lt, Nat.le_zero]
    constructor
    · rintro ⟨htimeouts, hle⟩
      rw [htimeouts, Nat.add_zero] at hle
      exact ⟨htimeouts, hle⟩
    · rintro ⟨htimeouts, hle⟩
      rw [htimeouts, Nat.add_zero]
      exact ⟨rfl, hle⟩
  have hhttp : s.httpIssues = [] ↔ stat.num5xx = 0 ∧ stat.num4xx = 0 := by
    simp only [RunSummary.httpIssues, hsnapshot, Stat.finalSnapshot, List.append_eq_nil_iff,
      ite_eq_right_iff, List.cons_ne_nil, imp_false, Nat.not_lt, Nat.le_zero]
  have hsocket : s.socketIssues = [] ↔ stat.numSockErrors = 0 ∧ stat.numRetransmits = 0 := by
    simp only [RunSummary.socketIssues, hsnapshot, Stat.finalSnapshot, List.append_eq_nil_iff,
      ite_eq_right_iff, List.cons_ne_nil, imp_false, Nat.not_lt, Nat.le_zero]
  rw [RunSummary.issues, List.append_eq_nil_iff, List.append_eq_nil_iff, List.append_eq_nil_iff, hrx, hhttp,
    hsocket, RunSummary.targetIssues_eq_nil_iff]
  tauto

/-- What the verdict says about every run of an engine. -/
def VerdictIsClean {P A S : Type} (job : Job P A S Unit) : Prop :=
  ∀ (threads : List (List (S × List (ExecuteCall A)))) (effects : List (List Effect)) (generator : ℕ)
    (sampler : Sampler), Interleaves job effects threads →
      let stat := statOf effects
      let s := sampler.finish (stat.finalSnapshot generator)
      (s.issues = [] ↔ Clean (threads.map (completedCalls job)).sum stat s) ∧
        (s.issues = [] → (∀ thread ∈ effects, CodesInRange thread) →
          (threads.map (completedCalls job)).sum = stat.num2xx + stat.num3xx)

theorem verdictIsClean_of_conserves {P A S : Type} {job : Job P A S Unit} (hjob : ConservesOutcomes job) :
    VerdictIsClean job := by
  intro threads effects generator sampler hinterleaves
  obtain ⟨houtcomes, -, -, -, hall⟩ := hjob threads effects hinterleaves
  have hissues := issues_eq_nil_iff (s := sampler.finish ((statOf effects).finalSnapshot generator)) rfl
  have hiff : (sampler.finish ((statOf effects).finalSnapshot generator)).issues = [] ↔
      Clean (threads.map (completedCalls job)).sum (statOf effects)
        (sampler.finish ((statOf effects).finalSnapshot generator)) := by
    refine hissues.trans ⟨?_, fun h => ?_⟩
    · rintro ⟨htimeouts, herrors, hunanswered, h5xx, h4xx, hretransmits, htarget⟩
      exact ⟨by omega, hunanswered, h5xx, h4xx, hretransmits, htarget⟩
    · have hresponses := h.responses
      exact ⟨by omega, by omega, h.unanswered, h.num5xx, h.num4xx, h.retransmits, h.target⟩
  refine ⟨hiff, fun hok hcodes => ?_⟩
  have hclean := hiff.mp hok
  have hclasses := hall hcodes
  rw [hclean.num4xx, hclean.num5xx] at hclasses
  rw [hclean.responses]
  omega

/-- **The verdict is OK exactly for a clean run**, of any of the three HTTP engines, whatever the threads have
done in whatever order; and in a clean run whose codes all have a class, every completed call got a 2xx or 3xx
response. -/
theorem verdict_ok_iff :
    VerdictIsClean Http.CoroWorker.doExecute ∧
      (∀ parse, VerdictIsClean (HttpRaw.CoroWorker.doExecute parse)) ∧
      VerdictIsClean Http3.CoroWorker.doExecute :=
  ⟨verdictIsClean_of_conserves (conservesOutcomes_of_wp Http.CoroWorker.wp_execute),
    fun parse => verdictIsClean_of_conserves (conservesOutcomes_of_wp (HttpRaw.CoroWorker.wp_execute parse)),
    verdictIsClean_of_conserves (conservesOutcomes_of_wp Http3.CoroWorker.wp_execute)⟩

/-- One worker with one call, which gets a response. -/
def Http.oneCall : List (Http.CoroWorker × List (ExecuteCall Http.Answers)) :=
  [(.new false (.fixed 10) none false 0,
    [⟨⟨0, .allOk⟩, [⟨1, .allOk⟩, ⟨2, .allOk⟩, ⟨5, .allOk⟩, ⟨9, .allOk⟩], none⟩])]

def Http.oneCallEffects : List (List Effect) :=
  [[.stat .onSockCreated, .stat (.onRequests 1), .stat (.onResponse 9), .received 200, .stat .on2xx]]

/-- A second with one sample, the target being one request a second. -/
def Sampler.oneSecond : Sampler := { Sampler.new 0 with stopped := 1000000000, targets := [1] }

theorem verdict_ok_iff_one_call :
    Interleaves Http.CoroWorker.doExecute Http.oneCallEffects [Http.oneCall] ∧
      (Sampler.oneSecond.finish ((statOf Http.oneCallEffects).finalSnapshot 1)).issues = [] ∧
      1 = (statOf Http.oneCallEffects).num2xx + (statOf Http.oneCallEffects).num3xx := by
  have hinterleaves : Interleaves Http.CoroWorker.doExecute Http.oneCallEffects [Http.oneCall] :=
    List.Forall₂.cons (List.Perm.refl _) List.Forall₂.nil
  obtain ⟨hiff, hclasses⟩ := verdict_ok_iff.1 _ _ 1 Sampler.oneSecond hinterleaves
  have hok := hiff.mpr
    { responses := rfl
      unanswered := by decide +kernel
      num5xx := rfl
      num4xx := rfl
      retransmits := rfl
      target := by
        intro target htarget
        obtain rfl := Option.some.inj htarget
        decide +kernel }
  refine ⟨hinterleaves, hok, hclasses hok fun thread hthread code hcode => ?_⟩
  obtain rfl := List.mem_singleton.mp hthread
  simp only [List.mem_cons, reduceCtorEq, Effect.received.injEq, List.not_mem_nil, or_false, false_or] at hcode
  omega

end Dwd
