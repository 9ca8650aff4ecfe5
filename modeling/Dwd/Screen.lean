import Dwd.LibSampling
import Dwd.StatsStream

/-! The statistics on the screen. The service describes the groups of counters that its engine has, the client
builds a widget for each, and at every tick of the screen the metrics of the widgets are updated one after another
from the mirror of the statistics, which the consumer of the stream replaces whenever a snapshot arrives. A meter
and a throughput divide what was counted since they last looked by the time since then; floating-point numbers are
exact here. -/

namespace Dwd

open Sampling Scan

/-- A closure of a metric loads the mirror once for each getter that it calls. -/
inductive Load where
  | generator
  | count (c : StatCell)
  | quantile (q : ℚ)

/-- The assertion of `quantile` can fail. -/
noncomputable def Load.value (remote : RemoteStat) : Load → Option ℕ
  | .generator => some remote.generator
  | .count c => some (remote.count c)
  | .quantile q => remote.hist.quantile q

structure Meter where
  rate : ℚ
  prevV : ℕ
  prevTs : ℕ

namespace Meter

def new (now : ℕ) : Meter := { rate := 0, prevV := 0, prevTs := now }

/-- The early return of `update`. -/
def skips (now : ℕ) (m : Meter) : Bool := Duration.asSecs (Instant.durationSince now m.prevTs) < 1 / 20

def update (now v : ℕ) (m : Meter) : Meter :=
  let dt := Duration.asSecs (Instant.durationSince now m.prevTs)
  let dv : ℕ := v - m.prevV
  { rate := dv / dt, prevV := v, prevTs := now }

end Meter

structure Throughput where
  prevV : ℕ
  prevTs : ℕ
  value : ℚ × Char

namespace Throughput

def new (now : ℕ) : Throughput := { prevV := 0, prevTs := now, value := (0, ' ') }

def fmtSi (v : ℚ) : ℚ × Char :=
  if 10 ^ 9 ≤ v then (v / 10 ^ 9, 'G')
  else if 10 ^ 6 ≤ v then (v / 10 ^ 6, 'M')
  else if 10 ^ 3 ≤ v then (v / 10 ^ 3, 'K')
  else (v, ' ')

def update (now v : ℕ) (t : Throughput) : Throughput :=
  let dv : ℕ := (v - t.prevV) * 8 % 2 ^ 64
  let dt := Duration.asSecs (Instant.durationSince now t.prevTs)
  { prevV := v, prevTs := now, value := fmtSi (dv / dt) }

end Throughput

/-- The fields of a metric, apart from its closure. -/
inductive MetricState where
  | gauge (value : ℕ)
  | quantile (v : ℕ)
  | meter (m : Meter)
  | throughput (t : Throughput)

namespace MetricState

def skips (now : ℕ) : MetricState → Bool
  | .meter m => m.skips now
  | _ => false

def update (now v : ℕ) : MetricState → MetricState
  | .gauge _ => .gauge v
  | .quantile _ => .quantile v
  | .meter m => .meter (m.update now v)
  | .throughput t => .throughput (t.update now v)

end MetricState

structure Metric where
  f : List Load
  state : MetricState

namespace Metric

/-- The constructors of the four kinds. Two of them read the clock. -/
def gauge (f : List Load) (_ : ℕ) : Metric := { f := f, state := .gauge 0 }

def quantile (q : ℚ) (_ : ℕ) : Metric := { f := [.quantile q], state := .quantile 0 }

def meter (c : StatCell) (now : ℕ) : Metric := { f := [.count c], state := .meter (Meter.new now) }

def throughput (c : StatCell) (now : ℕ) : Metric := { f := [.count c], state := .throughput (Throughput.new now) }

def update (now v : ℕ) (m : Metric) : Metric := { m with state := m.state.update now v }

end Metric

inductive StatGroup where
  | unspecified
  | common
  | tx
  | rx
  | rxTimings
  | socket
  | http
  | burstTx
  deriving DecidableEq, Repr

namespace StatGroup

/-- The number of a group on the wire. -/
def toWire : StatGroup → ℤ
  | .unspecified => 0
  | .common => 1
  | .tx => 2
  | .rx => 3
  | .rxTimings => 4
  | .socket => 5
  | .http => 6
  | .burstTx => 7

def tryFrom : ℤ → Option StatGroup
  | 0 => some .unspecified
  | 1 => some .common
  | 2 => some .tx
  | 3 => some .rx
  | 4 => some .rxTimings
  | 5 => some .socket
  | 6 => some .http
  | 7 => some .burstTx
  | _ => none

theorem tryFrom_toWire (g : StatGroup) : tryFrom g.toWire = some g := by
  cases g <;> rfl

/-- The metrics of the widget that `Ui::with_*` adds for a group, in the order in which they are updated. -/
def widget : StatGroup → List (ℕ → Metric)
  | .unspecified => []
  | .common => [Metric.gauge [.generator]]
  | .tx => [Metric.meter .numRequests, Metric.gauge [.count .numRequests], Metric.throughput .bytesTx]
  | .rx => [Metric.gauge [.count .numResponses], Metric.gauge [.count .numTimeouts], Metric.throughput .bytesRx]
  | .rxTimings => [1 / 2, 3 / 4, 9 / 10, 95 / 100, 99 / 100, 1].map Metric.quantile
  | .socket =>
      [Metric.gauge [.count .numSockCreated], Metric.meter .numSockCreated, Metric.gauge [.count .numSockErrors],
        Metric.gauge [.count .numRetransmits]]
  | .http =>
      [Metric.gauge [.count .num2xx], Metric.gauge [.count .num3xx], Metric.gauge [.count .num4xx],
        Metric.gauge [.count .num5xx]]
  | .burstTx =>
      (List.range 16).map fun idx => Metric.gauge [.count (.burstsTx (2 * idx)), .count (.burstsTx (2 * idx + 1))]

end StatGroup

/-- `describe`, and `EngineDescriptor::into_response`. -/
def EngineKind.describe : EngineKind → List ℤ
  | .http => [StatGroup.common, .tx, .rx, .http, .socket, .rxTimings].map StatGroup.toWire
  | .udp => [StatGroup.common, .tx, .socket].map StatGroup.toWire
  | .dpdk => [StatGroup.common, .tx, .burstTx].map StatGroup.toWire

/-- A group of an unknown number has no widget. -/
def buildUi (groups : List ℤ) : List (ℕ → Metric) :=
  groups.flatMap fun group => ((StatGroup.tryFrom group).map StatGroup.widget).getD []

/-- `Ui::run` looks at the time, or `on_tick` is at a metric: before its update, or in its closure, which has still
to make some loads. -/
inductive UiPhase where
  | polling
  | updating (idx : ℕ)
  | loading (idx now sum : ℕ) (rest : List Load)

/-- The stream of statistics with the mirror, the metrics on the screen, and the loop, with the time that it has
last read from the clock. What the metrics have found, and when, is kept for the statements. -/
structure Screen where
  stream : StatsStream
  metrics : List Metric
  phase : UiPhase
  clock : ℕ
  prevTs : ℕ
  samples : ℕ → List (ℕ × ℕ)

/-- The stream takes a step; the loop looks at the time; the next metric reads the clock, if it does, or there is
none and the tick is over; a closure loads the mirror, or returns. -/
inductive ScreenAction where
  | stream (a : StreamAction)
  | poll (now : ℕ)
  | stamp (now : ℕ)
  | load

/-- The time between two ticks. -/
def fps : ℕ := 25000000

namespace Screen

/-- The metrics are created one after another, each at its own time. -/
def start (groups : List ℤ) (created : ℕ → ℕ) (now : ℕ) : Screen :=
  { stream := .new
    metrics := (buildUi groups).mapIdx fun idx new => new (created idx)
    phase := .polling
    clock := now
    prevTs := now
    samples := fun _ => [] }

def poll (now : ℕ) (s : Screen) : Option Screen :=
  match s.phase with
  | .polling =>
      if now < s.clock then none
      else if fps ≤ Instant.durationSince now s.prevTs then some { s with clock := now, phase := .updating 0 }
      else some { s with clock := now }
  | _ => none

def stamp (now : ℕ) (s : Screen) : Option Screen :=
  match s.phase with
  | .updating idx =>
      if now < s.clock then none
      else
        match s.metrics[idx]? with
        | none => some { s with clock := now, phase := .polling, prevTs := now }
        | some m =>
            if m.state.skips now then some { s with clock := now, phase := .updating (idx + 1) }
            else some { s with clock := now, phase := .loading idx now 0 m.f }
  | _ => none

noncomputable def load (s : Screen) : Option Screen :=
  match s.phase with
  | .loading idx now sum (l :: rest) =>
      (l.value s.stream.remote).map fun v => { s with phase := .loading idx now ((sum + v) % 2 ^ 64) rest }
  | .loading idx now sum [] =>
      some
        { s with
          metrics := s.metrics.modify idx (Metric.update now sum)
          phase := .updating (idx + 1)
          samples := Function.update s.samples idx (s.samples idx ++ [(now, sum)]) }
  | _ => none

noncomputable def step (live : LiveStat) (kind : EngineKind) (s : Screen) : ScreenAction → Option Screen
  | .stream a => (s.stream.step live kind a).map fun stream => { s with stream := stream }
  | .poll now => s.poll now
  | .stamp now => s.stamp now
  | .load => s.load

end Screen

/-! ### What a metric shows -/

/-- The least time between two updates of a metric. -/
def MetricState.interval : MetricState → ℕ
  | .meter _ => 50000000
  | _ => fps

/-- The rate after the last of the samples. -/
def lastRate (created : ℕ) (samples : List (ℕ × ℕ)) : ℚ :=
  (rates Prod.fst Prod.snd (nanosPerSec : ℚ) created 0 samples).getLast?.getD 0

/-- The fields are what follows from the samples; the product of the throughput has to fit. -/
def MetricState.Shows (created : ℕ) (samples : List (ℕ × ℕ)) : MetricState → Prop
  | .gauge value => value = last Prod.snd 0 samples
  | .quantile v => v = last Prod.snd 0 samples
  | .meter m =>
      m.rate = lastRate created samples ∧ m.prevV = last Prod.snd 0 samples ∧ m.prevTs = last Prod.fst created samples
  | .throughput t =>
      (8 * t.prevV < 2 ^ 64 → t.value = Throughput.fmtSi (8 * lastRate created samples)) ∧
        t.prevV = last Prod.snd 0 samples ∧ t.prevTs = last Prod.fst created samples

/-- A meter and a throughput look at one counter. -/
def Metric.Wired (m : Metric) : Prop :=
  match m.state with
  | .meter _ => ∃ c, m.f = [.count c]
  | .throughput _ => ∃ c, m.f = [.count c]
  | _ => True

structure Metric.Tracks (created : ℕ) (m : Metric) (samples : List (ℕ × ℕ)) : Prop where
  spaced : Spaced Prod.fst m.state.interval created samples
  shows : m.state.Shows created samples
  wired : m.Wired

theorem MetricState.interval_pos (state : MetricState) : 0 < state.interval := by
  cases state <;> norm_num [interval, fps]

theorem lastRate_append (created now v : ℕ) (samples : List (ℕ × ℕ)) :
    lastRate created (samples ++ [(now, v)]) =
      ((v - last Prod.snd 0 samples : ℕ) : ℚ) /
        Duration.asSecs (Instant.durationSince now (last Prod.fst created samples)) := by
  rw [lastRate, rates_append, List.getLast?_concat]
  rfl

theorem MetricState.interval_update (now v : ℕ) (state : MetricState) :
    (state.update now v).interval = state.interval := by
  cases state <;> rfl

theorem Metric.wired_update (now v : ℕ) {m : Metric} (h : m.Wired) : (m.update now v).Wired := by
  obtain ⟨f, state⟩ := m
  cases state <;> exact h

/-- **An update shows the rate since the update before it.** -/
theorem MetricState.Shows.update {created : ℕ} {samples : List (ℕ × ℕ)} {state : MetricState}
    (h : state.Shows created samples) (now v : ℕ) : (state.update now v).Shows created (samples ++ [(now, v)]) := by
  cases state with
  | gauge value => exact (last_append Prod.snd 0 samples (now, v)).symm
  | quantile value => exact (last_append Prod.snd 0 samples (now, v)).symm
  | meter m =>
      obtain ⟨-, hv, hts⟩ := h
      refine ⟨?_, (last_append Prod.snd 0 samples (now, v)).symm, (last_append Prod.fst created samples (now, v)).symm⟩
      rw [lastRate_append, ← hv, ← hts]
      rfl
  | throughput t =>
      obtain ⟨-, hv, hts⟩ := h
      refine ⟨fun hfit => ?_, (last_append Prod.snd 0 samples (now, v)).symm,
        (last_append Prod.fst created samples (now, v)).symm⟩
      have hdv : (v - t.prevV) * 8 % 2 ^ 64 = (v - t.prevV) * 8 := by
        have hv' : 8 * v < 2 ^ 64 := hfit
        exact Nat.mod_eq_of_lt (by omega)
      rw [lastRate_append, ← hv, ← hts, ← mul_div_assoc, mul_comm (8 : ℚ)]
      show Throughput.fmtSi ((((v - t.prevV) * 8 % 2 ^ 64 : ℕ) : ℚ) / _) = _
      rw [hdv, Nat.cast_mul]
      rfl

theorem Metric.Tracks.update {created : ℕ} {samples : List (ℕ × ℕ)} {m : Metric} (h : m.Tracks created samples)
    {now : ℕ} (hnow : last Prod.fst created samples + m.state.interval ≤ now) (v : ℕ) :
    (m.update now v).Tracks created (samples ++ [(now, v)]) where
  spaced := by
    show Spaced Prod.fst (m.state.update now v).interval created _
    rw [MetricState.interval_update]
    exact spaced_append.mpr ⟨h.spaced, hnow⟩
  shows := h.shows.update now v
  wired := m.wired_update now v h.wired

/-- A metric that does not skip its update looks late enough. -/
theorem Metric.Tracks.late {created : ℕ} {samples : List (ℕ × ℕ)} {m : Metric} (h : m.Tracks created samples)
    {now : ℕ} (hfps : last Prod.fst created samples + fps ≤ now) (hskips : ¬ m.state.skips now) :
    last Prod.fst created samples + m.state.interval ≤ now := by
  obtain ⟨f, state⟩ := m
  cases state with
  | meter meter =>
      obtain ⟨-, -, hts⟩ := h.shows
      have hdt : 1 / 20 ≤ Duration.asSecs (now - meter.prevTs) := by
        simpa [MetricState.skips, Meter.skips, Instant.durationSince] using hskips
      rw [Duration.asSecs, div_le_div_iff₀ (by norm_num) nanosPerSec_pos] at hdt
      have hnat : 1 * nanosPerSec ≤ (now - meter.prevTs) * 20 := by exact_mod_cast hdt
      have hpos : nanosPerSec = 1000000000 := rfl
      rw [← hts]
      show meter.prevTs + 50000000 ≤ now
      omega
  | _ => exact hfps

/-- What a metric has found when it was last updated. -/
def MetricState.found : MetricState → ℕ
  | .gauge value => value
  | .quantile v => v
  | .meter m => m.prevV
  | .throughput t => t.prevV

theorem MetricState.Shows.found_eq {created : ℕ} {samples : List (ℕ × ℕ)} {state : MetricState}
    (h : state.Shows created samples) : state.found = last Prod.snd 0 samples := by
  cases state with
  | gauge value => exact h
  | quantile v => exact h
  | meter m => exact h.2.1
  | throughput t => exact h.2.1

/-- The rates between the samples are over spans that follow one another, and they account for what was found. -/
theorem Metric.Tracks.accounts {created : ℕ} {samples : List (ℕ × ℕ)} {m : Metric} (h : m.Tracks created samples)
    (hcounts : Counts Prod.snd 0 samples) :
    (∀ d ∈ spans Prod.fst (nanosPerSec : ℚ) created samples, Duration.asSecs m.state.interval ≤ d) ∧
      (spans Prod.fst (nanosPerSec : ℚ) created samples).sum =
        Duration.asSecs (last Prod.fst created samples - created) ∧
      weighted ((rates Prod.fst Prod.snd (nanosPerSec : ℚ) created 0 samples).zip
          (spans Prod.fst (nanosPerSec : ℚ) created samples)) = last Prod.snd 0 samples := by
  exact ⟨le_of_mem_spans h.spaced nanosPerSec_pos, sum_spans h.spaced,
    weighted_rates h.spaced hcounts m.state.interval_pos nanosPerSec_pos⟩

/-- A new metric has shown nothing yet. -/
theorem Metric.gauge_tracks (f : List Load) (now : ℕ) : (Metric.gauge f now).Tracks now [] := ⟨trivial, rfl, trivial⟩

theorem Metric.quantile_tracks (q : ℚ) (now : ℕ) : (Metric.quantile q now).Tracks now [] := ⟨trivial, rfl, trivial⟩

theorem Metric.meter_tracks (c : StatCell) (now : ℕ) : (Metric.meter c now).Tracks now [] :=
  ⟨trivial, ⟨rfl, rfl, rfl⟩, c, rfl⟩

theorem Metric.throughput_tracks (c : StatCell) (now : ℕ) : (Metric.throughput c now).Tracks now [] := by
  refine ⟨trivial, ⟨fun _ => ?_, rfl, rfl⟩, c, rfl⟩
  have hzero : lastRate now [] = 0 := rfl
  rw [hzero, mul_zero]
  norm_num [Metric.throughput, Throughput.new, Throughput.fmtSi]

theorem StatGroup.widget_tracks (g : StatGroup) : ∀ new ∈ g.widget, ∀ now, (new now).Tracks now [] := by
  intro new hnew now
  cases g with
  | unspecified => cases hnew
  | common =>
      obtain rfl := List.mem_singleton.mp hnew
      exact Metric.gauge_tracks _ now
  | tx =>
      simp only [widget, List.mem_cons, List.not_mem_nil, or_false] at hnew
      obtain rfl | rfl | rfl := hnew
      · exact Metric.meter_tracks _ now
      · exact Metric.gauge_tracks _ now
      · exact Metric.throughput_tracks _ now
  | rx =>
      simp only [widget, List.mem_cons, List.not_mem_nil, or_false] at hnew
      obtain rfl | rfl | rfl := hnew
      · exact Metric.gauge_tracks _ now
      · exact Metric.gauge_tracks _ now
      · exact Metric.throughput_tracks _ now
  | rxTimings =>
      obtain ⟨q, -, rfl⟩ := List.mem_map.mp hnew
      exact Metric.quantile_tracks q now
  | socket =>
      simp only [widget, List.mem_cons, List.not_mem_nil, or_false] at hnew
      obtain rfl | rfl | rfl | rfl := hnew
      · exact Metric.gauge_tracks _ now
      · exact Metric.meter_tracks _ now
      · exact Metric.gauge_tracks _ now
      · exact Metric.gauge_tracks _ now
  | http =>
      simp only [widget, List.mem_cons, List.not_mem_nil, or_false] at hnew
      obtain rfl | rfl | rfl | rfl := hnew <;> exact Metric.gauge_tracks _ now
  | burstTx =>
      obtain ⟨idx, -, rfl⟩ := List.mem_map.mp hnew
      exact Metric.gauge_tracks _ now

theorem buildUi_tracks {groups : List ℤ} {new : ℕ → Metric} (hnew : new ∈ buildUi groups) (now : ℕ) :
    (new now).Tracks now [] := by
  obtain ⟨group, -, hwidget⟩ := List.mem_flatMap.mp hnew
  cases hgroup : StatGroup.tryFrom group with
  | none =>
      rw [hgroup] at hwidget
      cases hwidget
  | some g =>
      rw [hgroup] at hwidget
      exact g.widget_tracks new hwidget now

theorem buildUi_toWire (groups : List StatGroup) :
    buildUi (groups.map StatGroup.toWire) = groups.flatMap StatGroup.widget := by
  rw [buildUi, List.flatMap_map]
  refine List.flatMap_congr fun g _ => ?_
  rw [StatGroup.tryFrom_toWire]
  rfl

/-- The widget of the group has a metric for the counter. -/
def StatGroup.Displays (c : StatCell) (g : StatGroup) : Prop := ∃ new ∈ g.widget, Load.count c ∈ (new 0).f

theorem displays_buildUi_iff (groups : List StatGroup) (c : StatCell) :
    (∃ new ∈ buildUi (groups.map StatGroup.toWire), Load.count c ∈ (new 0).f) ↔ ∃ g ∈ groups, g.Displays c := by
  rw [buildUi_toWire]
  simp only [List.mem_flatMap, StatGroup.Displays]
  constructor
  · rintro ⟨new, ⟨g, hg, hnew⟩, hc⟩
    exact ⟨g, hg, new, hnew, hc⟩
  · rintro ⟨g, hg, new, hnew, hc⟩
    exact ⟨new, ⟨g, hg, hnew⟩, hc⟩

/-- The counters of a group. -/
def StatGroup.counters : StatGroup → List StatCell
  | .tx => [.numRequests, .bytesTx]
  | .rx => [.numResponses, .numTimeouts, .bytesRx]
  | .socket => [.numSockCreated, .numSockErrors, .numRetransmits]
  | .http => [.num2xx, .num3xx, .num4xx, .num5xx]
  | .burstTx => (List.range LiveStat.burstTxBuckets).map .burstsTx
  | .unspecified | .common | .rxTimings => []

/-- The bars take the counters of the bursts in pairs. -/
theorem StatGroup.displays_burstTx_iff (c : StatCell) :
    StatGroup.burstTx.Displays c ↔ c ∈ StatGroup.burstTx.counters := by
  simp only [Displays, widget, counters, LiveStat.burstTxBuckets, List.mem_map, List.mem_range]
  constructor
  · rintro ⟨new, ⟨idx, hidx, rfl⟩, hc⟩
    simp only [Metric.gauge, List.mem_cons, List.not_mem_nil, or_false, Load.count.injEq] at hc
    rcases hc with rfl | rfl
    · exact ⟨2 * idx, by omega, rfl⟩
    · exact ⟨2 * idx + 1, by omega, rfl⟩
  · rintro ⟨idx, hidx, rfl⟩
    refine ⟨_, ⟨idx / 2, by omega, rfl⟩, ?_⟩
    simp only [Metric.gauge, List.mem_cons, List.not_mem_nil, or_false, Load.count.injEq, StatCell.burstsTx.injEq]
    omega

theorem StatGroup.displays_iff (c : StatCell) (g : StatGroup) : g.Displays c ↔ c ∈ g.counters := by
  cases g with
  | burstTx => exact displays_burstTx_iff c
  | rxTimings => simp [Displays, widget, counters, Metric.quantile]
  | _ => simp [Displays, widget, counters, Metric.gauge, Metric.meter, Metric.throughput]

/-- **The groups that an engine describes are those that it has**: there is a metric for a counter exactly if the
snapshots of the engine have the counter. The buckets of the histogram are not shown one by one. -/
theorem EngineKind.describe_displays_iff (live : LiveStat) (kind : EngineKind) (log : List (Share StatCell))
    {c : StatCell} (hc : ∀ idx, c ≠ .bucket idx) :
    (∃ new ∈ buildUi kind.describe, Load.count c ∈ (new 0).f) ↔ ((live.snapshot kind log).1.value c).isSome := by
  cases kind with
  | http =>
      rw [EngineKind.describe, displays_buildUi_iff]
      simp only [StatGroup.displays_iff]
      cases c with
      | bucket idx => exact absurd rfl (hc idx)
      | _ =>
          simp [StatGroup.counters]
          all_goals rfl
  | udp =>
      rw [EngineKind.describe, displays_buildUi_iff]
      simp only [StatGroup.displays_iff]
      cases c <;> simp [StatGroup.counters]
      all_goals rfl
  | dpdk =>
      rw [EngineKind.describe, displays_buildUi_iff]
      simp only [StatGroup.displays_iff]
      cases c with
      | burstsTx idx =>
          have hvalue : (live.snapshot .dpdk log).1.value (.burstsTx idx) =
              (live.burstsTx (List.range LiveStat.burstTxBuckets) _).1[idx]? := rfl
          rw [hvalue, Option.isSome_iff_ne_none, ne_eq, List.getElem?_eq_none_iff, not_le, live.length_burstsTx,
            List.length_range]
          simp [StatGroup.counters]
      | _ =>
          simp [StatGroup.counters]
          all_goals rfl

namespace RemoteStat

def sum (remote : RemoteStat) (cs : List StatCell) : ℕ := (cs.map remote.count).sum

theorem sum_le {remote remote' : RemoteStat} (h : ∀ c, remote.count c ≤ remote'.count c) (cs : List StatCell) :
    remote.sum cs ≤ remote'.sum cs := List.sum_le_sum fun c _ => h c

theorem sum_append (remote : RemoteStat) (cs cs' : List StatCell) :
    remote.sum (cs ++ cs') = remote.sum cs + remote.sum cs' := by
  rw [sum, List.map_append, List.sum_append]
  rfl

theorem sum_singleton (remote : RemoteStat) (c : StatCell) : remote.sum [c] = remote.count c := List.sum_singleton

end RemoteStat

/-- The counters of a metric together stay below the bound of a machine word. -/
def LiveStat.Fits (live : LiveStat) (cs : List StatCell) : Prop :=
  ∀ n, (cs.map fun c => Scan.total live.incs live.workers c n).sum < 2 ^ 64

theorem LiveStat.Bounded.fits {live : LiveStat} (h : live.Bounded) (c : StatCell) : live.Fits [c] := fun n =>
  List.sum_singleton.trans_lt (h c n)

/-- The metric has its update of this tick still before it. -/
def UiPhase.Due (idx : ℕ) : UiPhase → Prop
  | .polling => True
  | .updating k => k ≤ idx
  | .loading k _ _ _ => k ≤ idx

namespace Screen

variable {live : LiveStat} {kind : EngineKind} {created : ℕ → ℕ} {s s' : Screen}

/-- The closure of a metric has made some of its loads. What it has added up is between the last value of the
metric and the sum in the mirror. -/
def Loading (live : LiveStat) (s : Screen) (idx sum : ℕ) (rest : List Load) (m : Metric) : Prop :=
  ∀ cs, m.f = cs.map .count → live.Fits cs →
    ∃ loaded left, cs = loaded ++ left ∧ rest = left.map .count ∧ sum ≤ s.stream.remote.sum loaded ∧
      last Prod.snd 0 (s.samples idx) ≤ sum + s.stream.remote.sum left

/-- What holds on the screen. Updates of one metric are a tick apart, since `prev_ts` is set after the last of
them and the next tick waits from there. -/
structure Accurate (live : LiveStat) (kind : EngineKind) (created : ℕ → ℕ) (s : Screen) : Prop where
  ascending : s.stream.Ascending live kind
  tracks : ∀ idx (m : Metric), s.metrics[idx]? = some m → m.Tracks (created idx) (s.samples idx)
  past : ∀ idx, last Prod.fst (created idx) (s.samples idx) ≤ s.clock
  due : ∀ idx, s.phase.Due idx → last Prod.fst (created idx) (s.samples idx) ≤ s.prevTs
  ticked : s.phase ≠ .polling → s.prevTs + fps ≤ s.clock
  counted : ∀ idx (m : Metric) cs, s.metrics[idx]? = some m → m.f = cs.map .count → live.Fits cs →
    Counts Prod.snd 0 (s.samples idx) ∧ last Prod.snd 0 (s.samples idx) ≤ s.stream.remote.sum cs
  loading : ∀ idx now sum rest, s.phase = .loading idx now sum rest →
    ∃ m, s.metrics[idx]? = some m ∧ now ≤ s.clock ∧
      last Prod.fst (created idx) (s.samples idx) + m.state.interval ≤ now ∧ s.Loading live idx sum rest m

/-- What a step can do. -/
inductive Moves (live : LiveStat) (kind : EngineKind) (s : Screen) : Screen → Prop where
  | streamed (stream : StatsStream) (hmoves : StatsStream.Moves live kind s.stream stream) :
      Moves live kind s { s with stream := stream }
  | idle (now : ℕ) (hphase : s.phase = .polling) (hnow : s.clock ≤ now) : Moves live kind s { s with clock := now }
  | ticked (now : ℕ) (hphase : s.phase = .polling) (hnow : s.clock ≤ now) (hfps : s.prevTs + fps ≤ now) :
      Moves live kind s { s with clock := now, phase := .updating 0 }
  | finished (idx now : ℕ) (hphase : s.phase = .updating idx) (hnow : s.clock ≤ now) :
      Moves live kind s { s with clock := now, phase := .polling, prevTs := now }
  | skipped (idx now : ℕ) (hphase : s.phase = .updating idx) (hnow : s.clock ≤ now) :
      Moves live kind s { s with clock := now, phase := .updating (idx + 1) }
  | stamped (idx now : ℕ) (m : Metric) (hphase : s.phase = .updating idx) (hnow : s.clock ≤ now)
      (hm : s.metrics[idx]? = some m) (hskips : ¬ m.state.skips now) :
      Moves live kind s { s with clock := now, phase := .loading idx now 0 m.f }
  | loaded (idx now sum v : ℕ) (l : Load) (rest : List Load) (hphase : s.phase = .loading idx now sum (l :: rest))
      (hv : l.value s.stream.remote = some v) :
      Moves live kind s { s with phase := .loading idx now ((sum + v) % 2 ^ 64) rest }
  | updated (idx now sum : ℕ) (hphase : s.phase = .loading idx now sum []) :
      Moves live kind s
        { s with
          metrics := s.metrics.modify idx (Metric.update now sum)
          phase := .updating (idx + 1)
          samples := Function.update s.samples idx (s.samples idx ++ [(now, sum)]) }

theorem moves_of_step {a : ScreenAction} (hstep : s.step live kind a = some s') : Moves live kind s s' := by
  cases a with
  | stream a =>
      obtain ⟨stream, hstream, rfl⟩ := Option.map_eq_some_iff.mp hstep
      exact .streamed stream (StatsStream.moves_of_step hstream)
  | poll now =>
      simp only [step, poll] at hstep
      split at hstep
      · rename_i hphase
        split_ifs at hstep with hnow hfps
        · obtain rfl := Option.some.inj hstep
          refine .ticked now hphase (not_lt.mp hnow) ?_
          have hpos : fps = 25000000 := rfl
          rw [Instant.durationSince] at hfps
          omega
        · obtain rfl := Option.some.inj hstep
          exact .idle now hphase (not_lt.mp hnow)
      · cases hstep
  | stamp now =>
      simp only [step, stamp] at hstep
      split at hstep
      · rename_i idx hphase
        split_ifs at hstep with hnow
        split at hstep
        · obtain rfl := Option.some.inj hstep
          exact .finished idx now hphase (not_lt.mp hnow)
        · rename_i m hm
          split_ifs at hstep with hskips
          · obtain rfl := Option.some.inj hstep
            exact .skipped idx now hphase (not_lt.mp hnow)
          · obtain rfl := Option.some.inj hstep
            exact .stamped idx now m hphase (not_lt.mp hnow) hm hskips
      · cases hstep
  | load =>
      simp only [step, load] at hstep
      split at hstep
      · rename_i idx now sum l rest hphase
        obtain ⟨v, hv, rfl⟩ := Option.map_eq_some_iff.mp hstep
        exact .loaded idx now sum v l rest hphase hv
      · rename_i idx now sum hphase
        obtain rfl := Option.some.inj hstep
        exact .updated idx now sum hphase
      · cases hstep

/-- The sum of a closure does not wrap, and one more load keeps it between its bounds. -/
theorem Loading.load {idx sum v : ℕ} {l : Load} {rest : List Load} {m : Metric}
    (h : s.Loading live idx sum (l :: rest) m) (hascending : s.stream.Ascending live kind)
    (hv : l.value s.stream.remote = some v) (phase : UiPhase) :
    ({ s with phase := phase } : Screen).Loading live idx ((sum + v) % 2 ^ 64) rest m := by
  intro cs hcs hfits
  obtain ⟨loaded, left, rfl, hrest, hsum, hlast⟩ := h cs hcs hfits
  cases left with
  | nil => cases hrest
  | cons c left =>
      obtain ⟨rfl, hrest'⟩ := List.cons.inj hrest
      obtain rfl : s.stream.remote.count c = v := Option.some.inj hv
      have hcons : s.stream.remote.sum (c :: left) = s.stream.remote.count c + s.stream.remote.sum left :=
        List.sum_cons
      have hloaded : s.stream.remote.sum (loaded ++ [c]) = s.stream.remote.sum loaded + s.stream.remote.count c := by
        rw [RemoteStat.sum_append, RemoteStat.sum_singleton]
      have hall : s.stream.remote.sum (loaded ++ c :: left) < 2 ^ 64 :=
        (List.sum_le_sum fun c _ => hascending.count_le_total c).trans_lt (hfits s.stream.log.length)
      rw [RemoteStat.sum_append, hcons] at hall
      rw [hcons] at hlast
      have hmod : (sum + s.stream.remote.count c) % 2 ^ 64 = sum + s.stream.remote.count c :=
        Nat.mod_eq_of_lt (by omega)
      rw [hmod]
      refine ⟨loaded ++ [c], left, List.append_cons .., hrest', ?_, ?_⟩
      · show sum + s.stream.remote.count c ≤ s.stream.remote.sum (loaded ++ [c])
        omega
      · show last Prod.snd 0 (s.samples idx) ≤ sum + s.stream.remote.count c + s.stream.remote.sum left
        omega

/-- What a closure returns is between the last value of the metric and the sum in the mirror. -/
theorem Loading.bounds {idx sum : ℕ} {m : Metric} (h : s.Loading live idx sum [] m) {cs : List StatCell}
    (hcs : m.f = cs.map .count) (hfits : live.Fits cs) :
    last Prod.snd 0 (s.samples idx) ≤ sum ∧ sum ≤ s.stream.remote.sum cs := by
  obtain ⟨loaded, left, rfl, hrest, hsum, hlast⟩ := h cs hcs hfits
  obtain rfl : left = [] := List.map_eq_nil_iff.mp hrest.symm
  rw [List.append_nil]
  exact ⟨hlast, hsum⟩

/-- **A step of the stream.** -/
theorem Accurate.streamed (h : s.Accurate live kind created) (hlive : live.Bounded) {stream : StatsStream}
    (hmoves : StatsStream.Moves live kind s.stream stream) :
    ({ s with stream := stream } : Screen).Accurate live kind created := by
  have hremote : ∀ cs, s.stream.remote.sum cs ≤ stream.remote.sum cs :=
    RemoteStat.sum_le fun c => h.ascending.count_le hmoves c
  refine
    { h with
      ascending := h.ascending.moves hlive hmoves
      counted := fun idx m cs hm hcs hfits => ?_
      loading := fun idx now sum rest hphase => ?_ }
  · obtain ⟨hcounts, hle⟩ := h.counted idx m cs hm hcs hfits
    exact ⟨hcounts, hle.trans (hremote cs)⟩
  · obtain ⟨m, hm, hnow, hlate, hloading⟩ := h.loading idx now sum rest hphase
    refine ⟨m, hm, hnow, hlate, fun cs hcs hfits => ?_⟩
    obtain ⟨loaded, left, hsplit, hrest, hsum, hlast⟩ := hloading cs hcs hfits
    exact ⟨loaded, left, hsplit, hrest, hsum.trans (hremote loaded),
      hlast.trans (Nat.add_le_add_left (hremote left) sum)⟩

/-- **A metric reads the clock, and its closure begins.** -/
theorem Accurate.stamped (h : s.Accurate live kind created) {idx now : ℕ} {m : Metric}
    (hphase : s.phase = .updating idx) (hnow : s.clock ≤ now) (hm : s.metrics[idx]? = some m)
    (hskips : ¬ m.state.skips now) :
    ({ s with clock := now, phase := .loading idx now 0 m.f } : Screen).Accurate live kind created := by
  have hticked := (h.ticked (by rw [hphase]; nofun)).trans hnow
  have hdue := h.due idx (by rw [hphase]; exact le_rfl)
  refine
    { h with
      past := fun k => (h.past k).trans hnow
      due := fun k hk => h.due k (by rw [hphase]; exact hk)
      ticked := fun _ => hticked
      loading := fun idx' now' sum' rest' hloading => ?_ }
  cases hloading
  refine ⟨m, hm, le_rfl, (h.tracks idx m hm).late (by omega) hskips, fun cs hcs hfits => ?_⟩
  refine ⟨[], cs, rfl, hcs, Nat.zero_le _, ?_⟩
  rw [Nat.zero_add]
  exact (h.counted idx m cs hm hcs hfits).2

/-- **A metric is updated.** -/
theorem Accurate.updated (h : s.Accurate live kind created) {idx now sum : ℕ}
    (hphase : s.phase = .loading idx now sum []) :
    ({ s with
        metrics := s.metrics.modify idx (Metric.update now sum)
        phase := .updating (idx + 1)
        samples := Function.update s.samples idx (s.samples idx ++ [(now, sum)]) } : Screen).Accurate
      live kind created := by
  obtain ⟨m, hm, hnow, hlate, hloading⟩ := h.loading idx now sum [] hphase
  have hother : ∀ k, k ≠ idx →
      (s.metrics.modify idx (Metric.update now sum))[k]? = s.metrics[k]? ∧
        Function.update s.samples idx (s.samples idx ++ [(now, sum)]) k = s.samples k := fun k hk =>
    ⟨List.getElem?_modify_ne _ _ hk.symm, Function.update_of_ne hk _ _⟩
  have hself : (s.metrics.modify idx (Metric.update now sum))[idx]? = some (m.update now sum) := by
    rw [List.getElem?_modify_eq, hm]
    rfl
  refine
    { ascending := h.ascending
      tracks := fun k m' hm' => ?_
      past := fun k => ?_
      due := fun k hk => ?_
      ticked := fun _ => h.ticked (by rw [hphase]; nofun)
      counted := fun k m' cs hm' hcs hfits => ?_
      loading := fun _ _ _ _ hloading' => nomatch hloading' }
  · dsimp only at hm' ⊢
    by_cases hk : k = idx
    · subst hk
      obtain rfl := Option.some.inj (hself.symm.trans hm')
      rw [Function.update_self]
      exact (h.tracks k m hm).update hlate sum
    · rw [(hother k hk).2]
      exact h.tracks k m' ((hother k hk).1.symm.trans hm')
  · dsimp only
    by_cases hk : k = idx
    · subst hk
      rw [Function.update_self, last_append]
      exact hnow
    · rw [(hother k hk).2]
      exact h.past k
  · have hlt : idx + 1 ≤ k := hk
    dsimp only
    rw [(hother k (by omega)).2]
    refine h.due k ?_
    rw [hphase]
    exact Nat.le_of_succ_le hlt
  · dsimp only at hm' ⊢
    by_cases hk : k = idx
    · subst hk
      obtain rfl := Option.some.inj (hself.symm.trans hm')
      obtain ⟨hlast, hsum⟩ := hloading.bounds hcs hfits
      rw [Function.update_self, counts_append, last_append]
      exact ⟨⟨(h.counted k m cs hm hcs hfits).1, hlast⟩, hsum⟩
    · rw [(hother k hk).2]
      exact h.counted k m' cs ((hother k hk).1.symm.trans hm') hcs hfits

/-- **Every step keeps the screen accurate.** -/
theorem Accurate.moves (h : s.Accurate live kind created) (hlive : live.Bounded) (hmoves : Moves live kind s s') :
    s'.Accurate live kind created := by
  cases hmoves with
  | streamed stream hmoves => exact h.streamed hlive hmoves
  | idle now hphase hnow =>
      refine
        { h with
          past := fun k => (h.past k).trans hnow
          ticked := fun hne => absurd hphase hne
          loading := fun idx now' sum rest hloading => ?_ }
      rw [hphase] at hloading
      cases hloading
  | ticked now hphase hnow hfps =>
      exact
        { h with
          past := fun k => (h.past k).trans hnow
          due := fun k _ => h.due k (by rw [hphase]; trivial)
          ticked := fun _ => hfps
          loading := fun _ _ _ _ hloading => nomatch hloading }
  | finished idx now hphase hnow =>
      exact
        { h with
          past := fun k => (h.past k).trans hnow
          due := fun k _ => (h.past k).trans hnow
          ticked := fun hne => absurd rfl hne
          loading := fun _ _ _ _ hloading => nomatch hloading }
  | skipped idx now hphase hnow =>
      exact
        { h with
          past := fun k => (h.past k).trans hnow
          due := fun k hk => h.due k (by rw [hphase]; exact Nat.le_of_succ_le hk)
          ticked := fun _ => (h.ticked (by rw [hphase]; nofun)).trans hnow
          loading := fun _ _ _ _ hloading => nomatch hloading }
  | stamped idx now m hphase hnow hm hskips => exact h.stamped hphase hnow hm hskips
  | loaded idx now sum v l rest hphase hv =>
      refine
        { h with
          due := fun k hk => h.due k (by rw [hphase]; exact hk)
          ticked := fun _ => h.ticked (by rw [hphase]; nofun)
          loading := fun idx' now' sum' rest' hloading => ?_ }
      cases hloading
      obtain ⟨m, hm, hnow, hlate, hload⟩ := h.loading idx now sum (l :: rest) hphase
      exact ⟨m, hm, hnow, hlate, hload.load h.ascending hv _⟩
  | updated idx now sum hphase => exact h.updated hphase

theorem start_accurate (live : LiveStat) (kind : EngineKind) (groups : List ℤ) {now : ℕ}
    (hcreated : ∀ idx, created idx ≤ now) : (start groups created now).Accurate live kind created where
  ascending := StatsStream.new_ascending live kind
  tracks := by
    intro idx m hm
    rw [start, List.getElem?_mapIdx] at hm
    obtain ⟨new, hnew, rfl⟩ := Option.map_eq_some_iff.mp hm
    exact buildUi_tracks (List.mem_of_getElem? hnew) (created idx)
  past := hcreated
  due := fun idx _ => hcreated idx
  ticked := fun hne => absurd rfl hne
  counted := fun _ _ _ _ _ _ => ⟨trivial, Nat.zero_le _⟩
  loading := fun _ _ _ _ hloading => nomatch hloading

theorem run_accurate (hlive : live.Bounded) {actions : List ScreenAction} (h : s.Accurate live kind created)
    (hrun : Run.run (step live kind) s actions = some s') : s'.Accurate live kind created :=
  Run.invariant (fun _ _ _ ht hstep => ht.moves hlive (moves_of_step hstep)) h hrun

/-- **The rates on the screen account for the counters.** In every run of the screen, whatever groups are described,
whenever the snapshots are taken and stored between the loads, and whatever the workers count in the meantime: the
rates that a meter or a throughput has shown are over spans which follow one another from its creation to its last
update, each of them a twentieth, or a fortieth, of a second or longer, so that no rate is divided by zero; the
rates times their spans add up to the counter as it was last found; and what is on the screen is the last of them.
What a metric finds never goes back and is not above the true total, also when it is the sum of two counters. -/
theorem screen_accounts (live : LiveStat) (hlive : live.Bounded) (kind : EngineKind) (groups : List ℤ)
    (created : ℕ → ℕ) (now : ℕ) (hcreated : ∀ idx, created idx ≤ now) (actions : List ScreenAction) (s : Screen)
    (hrun : Run.run (step live kind) (start groups created now) actions = some s) (idx : ℕ) (m : Metric)
    (hm : s.metrics[idx]? = some m) :
    let samples := s.samples idx
    let shown : List ℚ := rates Prod.fst Prod.snd (nanosPerSec : ℚ) (created idx) 0 samples
    let seconds : List ℚ := spans Prod.fst (nanosPerSec : ℚ) (created idx) samples
    (∀ meter, m.state = .meter meter →
      meter.rate = shown.getLast?.getD 0 ∧ (∀ d ∈ seconds, 1 / 20 ≤ d) ∧
        seconds.sum = Duration.asSecs (meter.prevTs - created idx) ∧
        weighted (shown.zip seconds) = meter.prevV) ∧
      (∀ throughput, m.state = .throughput throughput →
        (8 * throughput.prevV < 2 ^ 64 → throughput.value = Throughput.fmtSi (8 * shown.getLast?.getD 0)) ∧
          (∀ d ∈ seconds, 1 / 40 ≤ d) ∧
          seconds.sum = Duration.asSecs (throughput.prevTs - created idx) ∧
          weighted (shown.zip seconds) = throughput.prevV) ∧
      ∀ cs, m.f = cs.map .count → live.Fits cs →
        Counts Prod.snd 0 samples ∧ m.state.found = last Prod.snd 0 samples ∧
          m.state.found ≤ (cs.map fun c => Scan.total live.incs live.workers c s.stream.log.length).sum := by
  intro samples shown seconds
  have haccurate : s.Accurate live kind created := run_accurate hlive (start_accurate live kind groups hcreated) hrun
  have htracks := haccurate.tracks idx m hm
  have hcounted : ∀ c, m.f = [.count c] → Counts Prod.snd 0 samples := fun c hf =>
    (haccurate.counted idx m [c] hm hf (hlive.fits c)).1
  refine ⟨fun meter hmeter => ?_, fun throughput hthroughput => ?_, fun cs hcs hfits => ?_⟩
  · have hshows := htracks.shows
    have hwired := htracks.wired
    rw [Metric.Wired, hmeter] at hwired
    obtain ⟨c, hf⟩ := hwired
    obtain ⟨hspans, hsum, hweighted⟩ := htracks.accounts (hcounted c hf)
    rw [hmeter] at hshows hspans
    obtain ⟨hrate, hv, hts⟩ := hshows
    refine ⟨hrate, fun d hd => le_trans ?_ (hspans d hd), ?_, ?_⟩
    · norm_num [MetricState.interval, Duration.asSecs, nanosPerSec]
    · rw [hts]
      exact hsum
    · rw [hv]
      exact hweighted
  · have hshows := htracks.shows
    have hwired := htracks.wired
    rw [Metric.Wired, hthroughput] at hwired
    obtain ⟨c, hf⟩ := hwired
    obtain ⟨hspans, hsum, hweighted⟩ := htracks.accounts (hcounted c hf)
    rw [hthroughput] at hshows hspans
    obtain ⟨hrate, hv, hts⟩ := hshows
    refine ⟨hrate, fun d hd => le_trans ?_ (hspans d hd), ?_, ?_⟩
    · norm_num [MetricState.interval, fps, Duration.asSecs, nanosPerSec]
    · rw [hts]
      exact hsum
    · rw [hv]
      exact hweighted
  · obtain ⟨hcounts, hle⟩ := haccurate.counted idx m cs hm hcs hfits
    have hfound := htracks.shows.found_eq
    refine ⟨hcounts, hfound, ?_⟩
    rw [hfound]
    exact hle.trans (List.sum_le_sum fun c _ => haccurate.ascending.count_le_total c)

/-- The first snapshot of two workers, and the first two metrics of the tick after it. -/
def firstTick : List ScreenAction :=
  [.stream .tick, .stream .send, .stream .transmit, .poll 10000000, .stream .deliver, .poll 50000000, .stamp 50000000,
    .load, .load, .stamp 50000000, .load, .load]

theorem screen_accounts_first_tick :
    ∃ s m meter, Run.run (step twoWorkers .udp) (start EngineKind.udp.describe (fun _ => 0) 0) firstTick = some s ∧
      s.metrics[1]? = some m ∧ m.state = .meter meter ∧ (meter.rate = 240 ∧ meter.prevV = 12) ∧
      meter.rate = (rates Prod.fst Prod.snd (nanosPerSec : ℚ) 0 0 (s.samples 1)).getLast?.getD 0 ∧
      (∀ d ∈ spans Prod.fst (nanosPerSec : ℚ) 0 (s.samples 1), 1 / 20 ≤ d) ∧
      (spans Prod.fst (nanosPerSec : ℚ) 0 (s.samples 1)).sum = Duration.asSecs (meter.prevTs - 0) ∧
      weighted ((rates Prod.fst Prod.snd (nanosPerSec : ℚ) 0 0 (s.samples 1)).zip
        (spans Prod.fst (nanosPerSec : ℚ) 0 (s.samples 1))) = meter.prevV := by
  have hmeter : ((Run.run (step twoWorkers .udp) (start EngineKind.udp.describe (fun _ => 0) 0) firstTick).bind
      fun s => s.metrics[1]?.bind fun m =>
        match m.state with
        | .meter meter => some (meter.rate, meter.prevV)
        | _ => none) = some (240, 12) := by decide +kernel
  obtain ⟨s, hrun, hs⟩ := Option.bind_eq_some_iff.mp hmeter
  obtain ⟨m, hm, hstate⟩ := Option.bind_eq_some_iff.mp hs
  split at hstate
  · rename_i meter hmeter
    obtain ⟨hrate, hv⟩ := Prod.mk.inj (Option.some.inj hstate)
    exact ⟨s, m, meter, hrun, hm, hmeter, ⟨hrate, hv⟩,
      (screen_accounts twoWorkers twoWorkers_bounded .udp EngineKind.udp.describe (fun _ => 0) 0 (fun _ => le_rfl)
        firstTick s hrun 1 m hm).1 meter hmeter⟩
  · cases hstate

end Screen

end Dwd
