import Dwd.LibRun
import Dwd.SnapshotBounds

/-! The stream of statistics, from the workers to the screen. A task of the service takes a snapshot at every
tick and puts it into a channel, waiting while the channel is full; the transport carries the snapshots on in
their order; the consumer publishes each one in `RemoteStat`, where the widgets read it whenever they are updated.
So a widget may miss snapshots, and two widgets may show different ones, but no number on the screen goes back. -/

namespace Dwd

open Scan

/-- `StatsSnapshot::default`. -/
def StatsSnapshot.default : StatsSnapshot :=
  { generatorRps := 0, tx := none, rx := none, socket := none, http := none, burstTx := none }

structure RemoteStat where
  snapshot : StatsSnapshot

namespace RemoteStat

def new : RemoteStat := { snapshot := .default }

def store (snapshot : StatsSnapshot) (_ : RemoteStat) : RemoteStat := { snapshot := snapshot }

variable (s : RemoteStat)

def generator : ℕ := s.snapshot.generatorRps

def numRequests : ℕ := (s.snapshot.tx.map fun tx => tx.numRequests).getD 0

def bytesTx : ℕ := (s.snapshot.tx.map fun tx => tx.bytesTx).getD 0

def numResponses : ℕ := (s.snapshot.rx.map fun rx => rx.numResponses).getD 0

def numTimeouts : ℕ := (s.snapshot.rx.map fun rx => rx.numTimeouts).getD 0

def bytesRx : ℕ := (s.snapshot.rx.map fun rx => rx.bytesRx).getD 0

def hist : LogHistogram := { snapshot := (s.snapshot.rx.map fun rx => rx.histogramBuckets).getD [] }

def numSockCreated : ℕ := (s.snapshot.socket.map fun socket => socket.numSockCreated).getD 0

def numSockErrors : ℕ := (s.snapshot.socket.map fun socket => socket.numSockErrors).getD 0

def numRetransmits : ℕ := (s.snapshot.socket.map fun socket => socket.numRetransmits).getD 0

def num2xx : ℕ := (s.snapshot.http.map fun http => http.num2xx).getD 0

def num3xx : ℕ := (s.snapshot.http.map fun http => http.num3xx).getD 0

def num4xx : ℕ := (s.snapshot.http.map fun http => http.num4xx).getD 0

def num5xx : ℕ := (s.snapshot.http.map fun http => http.num5xx).getD 0

def numBurstsTx (idx : ℕ) : ℕ := (s.snapshot.burstTx.bind fun burstTx => burstTx.numBurstsTx[idx]?).getD 0

/-- The getter of a counter. -/
def count : StatCell → ℕ
  | .numRequests => s.numRequests
  | .bytesTx => s.bytesTx
  | .numResponses => s.numResponses
  | .numTimeouts => s.numTimeouts
  | .bytesRx => s.bytesRx
  | .bucket idx => (s.hist.snapshot[idx]?).getD 0
  | .numSockCreated => s.numSockCreated
  | .numSockErrors => s.numSockErrors
  | .numRetransmits => s.numRetransmits
  | .num2xx => s.num2xx
  | .num3xx => s.num3xx
  | .num4xx => s.num4xx
  | .num5xx => s.num5xx
  | .burstsTx idx => s.numBurstsTx idx

/-- A getter finds what the snapshot has, and zero if it has nothing. -/
theorem count_eq (c : StatCell) : s.count c = (s.snapshot.value c).getD 0 := by
  cases c with
  | bucket idx =>
      simp only [count, hist, StatsSnapshot.value]
      cases s.snapshot.rx with
      | none => rfl
      | some rx => rfl
  | _ => rfl

end RemoteStat

/-- The task of `stream_stats`: it waits for the next tick, or for room in the channel, or has ended. -/
inductive StatsTask where
  | waiting
  | sending (snapshot : StatsSnapshot)
  | ended

/-- The reads that the task has made of the statistics, the run flag, the task with its channel, what the
transport carries, whether the consumer still reads the stream, its mirror, and the value of the gauge of each
counter. What follows is not part of the program: the snapshots that were taken, and those that were stored. -/
structure StatsStream where
  log : List (Share StatCell)
  isRunning : Bool
  task : StatsTask
  channel : List StatsSnapshot
  wire : List StatsSnapshot
  consuming : Bool
  remote : RemoteStat
  gauges : StatCell → ℕ
  taken : List StatsSnapshot
  stored : List StatsSnapshot

/-- The task finds its timer run out, or gets rid of the snapshot that it sends; the transport takes a snapshot
from the channel, and the consumer one from the transport; the consumer ends; the flag is cleared; a gauge is
updated. -/
inductive StreamAction where
  | tick
  | send
  | transmit
  | deliver
  | disconnect
  | stop
  | update (c : StatCell)

/-- `STATS_CHANNEL_CAP`. -/
def statsChannelCap : ℕ := 4

namespace StatsStream

def new : StatsStream :=
  { log := []
    isRunning := true
    task := .waiting
    channel := []
    wire := []
    consuming := true
    remote := .new
    gauges := fun _ => 0
    taken := []
    stored := [] }

/-- The loop of the task, after `interval.tick()`. -/
def tick (live : LiveStat) (kind : EngineKind) (s : StatsStream) : Option StatsStream :=
  match s.task with
  | .waiting =>
      if s.isRunning then
        let (snapshot, log) := live.snapshot kind s.log
        some { s with task := .sending snapshot, log := log, taken := s.taken ++ [snapshot] }
      else some { s with task := .ended }
  | _ => none

/-- `tx.send`, which waits for room, and fails when the subscriber has dropped the stream. -/
def send (s : StatsStream) : Option StatsStream :=
  match s.task with
  | .sending snapshot =>
      if s.consuming then
        if s.channel.length < statsChannelCap then
          some { s with task := .waiting, channel := s.channel ++ [snapshot] }
        else none
      else some { s with task := .ended }
  | _ => none

def transmit (s : StatsStream) : Option StatsStream :=
  match s.channel with
  | [] => none
  | snapshot :: channel => some { s with channel := channel, wire := s.wire ++ [snapshot] }

/-- The loop of `spawn_stats_consumer`. -/
def deliver (s : StatsStream) : Option StatsStream :=
  if s.consuming then
    match s.wire with
    | [] => none
    | snapshot :: wire =>
        some { s with wire := wire, remote := s.remote.store snapshot, stored := s.stored ++ [snapshot] }
  else none

/-- `Gauge::update`. -/
def update (c : StatCell) (s : StatsStream) : StatsStream :=
  { s with gauges := Function.update s.gauges c (s.remote.count c) }

def step (live : LiveStat) (kind : EngineKind) (s : StatsStream) : StreamAction → Option StatsStream
  | .tick => s.tick live kind
  | .send => s.send
  | .transmit => s.transmit
  | .deliver => s.deliver
  | .disconnect => some { s with consuming := false }
  | .stop => some { s with isRunning := false }
  | .update c => some (s.update c)

/-- The snapshots on their way, the oldest first. -/
def inTransit (s : StatsStream) : List StatsSnapshot :=
  s.wire ++ s.channel ++
    match s.task with
    | .sending snapshot => [snapshot]
    | _ => []

end StatsStream

namespace LiveStat

variable (live : LiveStat)

theorem length_addBuckets (worker idx : ℕ) (snapshot : List ℕ) (log : List (Share StatCell)) :
    (live.addBuckets worker idx snapshot log).1.length = snapshot.length := by
  induction snapshot generalizing idx log with
  | nil => rfl
  | cons count snapshot ih => exact congrArg Nat.succ (ih (idx + 1) _)

/-- The number of buckets does not depend on what is read. -/
theorem length_addWorkers_congr (workers : List ℕ) {snapshot snapshot' : List ℕ}
    (hlength : snapshot.length = snapshot'.length) (log log' : List (Share StatCell)) :
    (live.addWorkers workers snapshot log).1.length = (live.addWorkers workers snapshot' log').1.length := by
  induction workers generalizing snapshot snapshot' log log' with
  | nil => exact hlength
  | cons worker workers ih =>
      refine ih ?_ _ _
      rw [length_addBuckets, length_addBuckets, List.length_append, List.length_append, List.length_replicate,
        List.length_replicate, hlength]

theorem length_burstsTx (idxs : List ℕ) (log : List (Share StatCell)) :
    (live.burstsTx idxs log).1.length = idxs.length := by
  induction idxs generalizing log with
  | nil => rfl
  | cons idx idxs ih => exact congrArg Nat.succ (ih _)

theorem isSome_getElem?_congr {l l' : List ℕ} (h : l.length = l'.length) (idx : ℕ) :
    (l[idx]?).isSome = (l'[idx]?).isSome := by
  rw [Bool.eq_iff_iff, Option.isSome_iff_ne_none, Option.isSome_iff_ne_none, ne_eq, ne_eq,
    List.getElem?_eq_none_iff, List.getElem?_eq_none_iff, h]

/-- **Every snapshot of an engine has the same counters.** -/
theorem isSome_value_congr (kind : EngineKind) (c : StatCell) (log log' : List (Share StatCell)) :
    ((live.snapshot kind log).1.value c).isSome = ((live.snapshot kind log').1.value c).isSome := by
  cases kind with
  | http =>
      cases c with
      | bucket idx => exact isSome_getElem?_congr (live.length_addWorkers_congr _ rfl _ _) idx
      | _ => rfl
  | udp =>
      cases c with
      | _ => rfl
  | dpdk =>
      cases c with
      | burstsTx idx =>
          refine isSome_getElem?_congr (Eq.trans ?_ (live.length_burstsTx (List.range burstTxBuckets) _).symm) idx
          exact live.length_burstsTx (List.range burstTxBuckets) _
      | _ => rfl

end LiveStat

namespace StatsStream

variable {live : LiveStat} {kind : EngineKind}

/-! ### Nothing goes back -/

/-- No counter of the first snapshot is above that of the second. -/
def NotAbove (a b : StatsSnapshot) : Prop := ∀ c, (a.value c).getD 0 ≤ (b.value c).getD 0

/-- The snapshot shows counters that the snapshots of the engine have, as they were at some time before the end
of the log. -/
def Shows (live : LiveStat) (kind : EngineKind) (log : List (Share StatCell)) (snapshot : StatsSnapshot) : Prop :=
  ∀ c v, snapshot.value c = some v →
    ((live.snapshot kind []).1.value c).isSome ∧ v ≤ Scan.total live.incs live.workers c log.length

theorem Shows.mono {log log' : List (Share StatCell)} {snapshot : StatsSnapshot}
    (h : Shows live kind log snapshot) (hlog : log <+: log') : Shows live kind log' snapshot := by
  intro c v hv
  obtain ⟨hhas, hle⟩ := h c v hv
  exact ⟨hhas, hle.trans (total_mono _ _ _ hlog.length_le)⟩

theorem Shows.count_le {log : List (Share StatCell)} {snapshot : StatsSnapshot}
    (h : Shows live kind log snapshot) (c : StatCell) :
    (snapshot.value c).getD 0 ≤ Scan.total live.incs live.workers c log.length := by
  cases hvalue : snapshot.value c with
  | none => exact Nat.zero_le _
  | some v => exact (h c v hvalue).2

/-- A new snapshot shows its counters, none of them below what was shown before. -/
theorem shows_snapshot (hlive : live.Bounded) (kind : EngineKind) (log : List (Share StatCell)) :
    log <+: (live.snapshot kind log).2 ∧ Shows live kind (live.snapshot kind log).2 (live.snapshot kind log).1 ∧
      ∀ older, Shows live kind log older → NotAbove older (live.snapshot kind log).1 := by
  obtain ⟨hextends, hreads⟩ := (hlive.yields_snapshot kind).reads (List.prefix_refl log)
  refine ⟨hextends, fun c v hv => ⟨?_, (hreads c v hv).le_total⟩, fun older holder c => ?_⟩
  · rw [live.isSome_value_congr kind c [] log, hv]
    rfl
  · cases holder' : older.value c with
    | none => exact Nat.zero_le _
    | some v =>
        obtain ⟨hhas, hle⟩ := holder c v holder'
        rw [live.isSome_value_congr kind c [] log] at hhas
        obtain ⟨v', hv'⟩ := Option.isSome_iff_exists.mp hhas
        rw [hv']
        exact hle.trans (hreads c v' hv').total_le

/-- The gauges are not above the mirror, the mirror is not above what is on its way, and that is in order. -/
structure Ascending (live : LiveStat) (kind : EngineKind) (s : StatsStream) : Prop where
  shown : ∀ c, s.gauges c ≤ s.remote.count c
  ordered : (s.remote.snapshot :: s.inTransit).Pairwise NotAbove
  shows : ∀ snapshot ∈ s.remote.snapshot :: s.inTransit, Shows live kind s.log snapshot

/-- What was stored comes before what is on its way, in the order in which it was taken; only what the task still
holds when the consumer has gone is lost. -/
structure InOrder (s : StatsStream) : Prop where
  stored : s.stored ++ s.inTransit <+: s.taken
  complete : s.task ≠ .ended ∨ s.consuming = true → s.stored ++ s.inTransit = s.taken
  room : s.channel.length ≤ statsChannelCap

theorem new_ascending (live : LiveStat) (kind : EngineKind) : new.Ascending live kind where
  shown := fun _ => Nat.zero_le _
  ordered := List.pairwise_singleton _ _
  shows := by
    intro snapshot hsnapshot
    obtain rfl := List.mem_singleton.mp hsnapshot
    intro c v hv
    cases c <;> cases hv

theorem new_inOrder : new.InOrder where
  stored := List.prefix_rfl
  complete := fun _ => rfl
  room := Nat.zero_le _

/-- What a step can do. -/
inductive Moves (live : LiveStat) (kind : EngineKind) (s : StatsStream) : StatsStream → Prop where
  | taken (htask : s.task = .waiting) :
      Moves live kind s
        { s with
          task := .sending (live.snapshot kind s.log).1
          log := (live.snapshot kind s.log).2
          taken := s.taken ++ [(live.snapshot kind s.log).1] }
  | ended (htask : s.task = .waiting ∨ s.consuming = false) : Moves live kind s { s with task := .ended }
  | sent (snapshot : StatsSnapshot) (htask : s.task = .sending snapshot)
      (hroom : s.channel.length < statsChannelCap) :
      Moves live kind s { s with task := .waiting, channel := s.channel ++ [snapshot] }
  | transmitted (snapshot : StatsSnapshot) (channel : List StatsSnapshot)
      (hchannel : s.channel = snapshot :: channel) :
      Moves live kind s { s with channel := channel, wire := s.wire ++ [snapshot] }
  | delivered (snapshot : StatsSnapshot) (wire : List StatsSnapshot) (hwire : s.wire = snapshot :: wire) :
      Moves live kind s
        { s with wire := wire, remote := s.remote.store snapshot, stored := s.stored ++ [snapshot] }
  | disconnected : Moves live kind s { s with consuming := false }
  | stopped : Moves live kind s { s with isRunning := false }
  | updated (c : StatCell) : Moves live kind s (s.update c)

theorem moves_of_step {s s' : StatsStream} {a : StreamAction} (hstep : s.step live kind a = some s') :
    Moves live kind s s' := by
  cases a with
  | tick =>
      simp only [step, tick] at hstep
      split at hstep
      · rename_i htask
        split_ifs at hstep
        · obtain rfl := Option.some.inj hstep
          exact .taken htask
        · obtain rfl := Option.some.inj hstep
          exact .ended (.inl htask)
      · cases hstep
  | send =>
      simp only [step, send] at hstep
      split at hstep
      · rename_i snapshot htask
        split_ifs at hstep with hconsuming hroom
        · obtain rfl := Option.some.inj hstep
          exact .sent snapshot htask hroom
        · obtain rfl := Option.some.inj hstep
          exact .ended (.inr (Bool.eq_false_iff.mpr hconsuming))
      · cases hstep
  | transmit =>
      simp only [step, transmit] at hstep
      split at hstep
      · cases hstep
      · rename_i snapshot channel hchannel
        obtain rfl := Option.some.inj hstep
        exact .transmitted snapshot channel hchannel
  | deliver =>
      simp only [step, deliver] at hstep
      split_ifs at hstep
      split at hstep
      · cases hstep
      · rename_i snapshot wire hwire
        obtain rfl := Option.some.inj hstep
        exact .delivered snapshot wire hwire
  | disconnect =>
      obtain rfl := Option.some.inj hstep
      exact .disconnected
  | stop =>
      obtain rfl := Option.some.inj hstep
      exact .stopped
  | update c =>
      obtain rfl := Option.some.inj hstep
      exact .updated c

/-- What is on its way after each kind of step. -/
theorem inTransit_taken {s : StatsStream} (htask : s.task = .waiting) (log : List (Share StatCell))
    (snapshot : StatsSnapshot) (taken : List StatsSnapshot) :
    ({ s with task := .sending snapshot, log := log, taken := taken } : StatsStream).inTransit =
      s.inTransit ++ [snapshot] := by
  simp [inTransit, htask]

theorem inTransit_ended (s : StatsStream) :
    ({ s with task := .ended } : StatsStream).inTransit <+: s.inTransit := by
  simp [inTransit]

theorem inTransit_sent {s : StatsStream} {snapshot : StatsSnapshot} (htask : s.task = .sending snapshot) :
    ({ s with task := .waiting, channel := s.channel ++ [snapshot] } : StatsStream).inTransit =
      s.inTransit := by
  simp [inTransit, htask]

theorem inTransit_transmitted {s : StatsStream} {snapshot : StatsSnapshot} {channel : List StatsSnapshot}
    (hchannel : s.channel = snapshot :: channel) :
    ({ s with channel := channel, wire := s.wire ++ [snapshot] } : StatsStream).inTransit = s.inTransit := by
  simp [inTransit, hchannel]

theorem inTransit_delivered {s : StatsStream} {snapshot : StatsSnapshot} {wire : List StatsSnapshot}
    (hwire : s.wire = snapshot :: wire) (remote : RemoteStat) (stored : List StatsSnapshot) :
    s.inTransit =
      snapshot :: ({ s with wire := wire, remote := remote, stored := stored } : StatsStream).inTransit := by
  simp [inTransit, hwire]

/-- **Every step keeps the order of what is shown and what will be.** -/
theorem Ascending.moves {s s' : StatsStream} (h : s.Ascending live kind) (hlive : live.Bounded)
    (hmoves : Moves live kind s s') : s'.Ascending live kind := by
  cases hmoves with
  | taken htask =>
      obtain ⟨hlog, hshows, habove⟩ := shows_snapshot hlive kind s.log
      refine ⟨h.shown, ?_, ?_⟩
      · rw [inTransit_taken htask, ← List.cons_append]
        refine List.pairwise_append.mpr ⟨h.ordered, List.pairwise_singleton _ _, fun older holder new hnew => ?_⟩
        rw [List.mem_singleton.mp hnew]
        exact habove older (h.shows older holder)
      · rw [inTransit_taken htask, ← List.cons_append]
        intro snapshot hsnapshot
        rcases List.mem_append.mp hsnapshot with hmem | hmem
        · exact (h.shows snapshot hmem).mono hlog
        · rw [List.mem_singleton.mp hmem]
          exact hshows
  | ended htask =>
      have hsublist := (inTransit_ended s).sublist.cons_cons s.remote.snapshot
      exact ⟨h.shown, h.ordered.sublist hsublist, fun snapshot hmem => h.shows snapshot (hsublist.subset hmem)⟩
  | sent snapshot htask hroom =>
      have htransit := inTransit_sent htask
      exact ⟨h.shown, htransit ▸ h.ordered, htransit ▸ h.shows⟩
  | transmitted snapshot channel hchannel =>
      have htransit := inTransit_transmitted hchannel
      exact ⟨h.shown, htransit ▸ h.ordered, htransit ▸ h.shows⟩
  | delivered snapshot wire hwire =>
      have hordered := h.ordered
      have hall := h.shows
      rw [inTransit_delivered hwire (s.remote.store snapshot) (s.stored ++ [snapshot])] at hordered hall
      obtain ⟨hfirst, hrest⟩ := List.pairwise_cons.mp hordered
      refine ⟨fun c => ?_, hrest, fun older holder => hall older (List.mem_cons_of_mem _ holder)⟩
      have hle := hfirst snapshot List.mem_cons_self c
      rw [RemoteStat.count_eq]
      exact (h.shown c).trans ((RemoteStat.count_eq s.remote c).le.trans hle)
  | disconnected => exact ⟨h.shown, h.ordered, h.shows⟩
  | stopped => exact ⟨h.shown, h.ordered, h.shows⟩
  | updated c =>
      refine ⟨fun c' => ?_, h.ordered, h.shows⟩
      show Function.update s.gauges c (s.remote.count c) c' ≤ s.remote.count c'
      by_cases hc : c' = c
      · subst hc
        rw [Function.update_self]
      · rw [Function.update_of_ne hc]
        exact h.shown c'

/-- A step lowers no gauge. -/
theorem Ascending.gauges_le {s s' : StatsStream} (h : s.Ascending live kind) (hmoves : Moves live kind s s')
    (c : StatCell) : s.gauges c ≤ s'.gauges c := by
  cases hmoves with
  | updated c' =>
      show s.gauges c ≤ Function.update s.gauges c' (s.remote.count c') c
      by_cases hc : c = c'
      · subst hc
        rw [Function.update_self]
        exact h.shown c
      · rw [Function.update_of_ne hc]
  | _ => exact le_rfl

/-- A step lowers no counter of the mirror. -/
theorem Ascending.count_le {s s' : StatsStream} (h : s.Ascending live kind) (hmoves : Moves live kind s s')
    (c : StatCell) : s.remote.count c ≤ s'.remote.count c := by
  cases hmoves with
  | delivered snapshot wire hwire =>
      have hordered := h.ordered
      rw [inTransit_delivered hwire (s.remote.store snapshot) (s.stored ++ [snapshot])] at hordered
      rw [RemoteStat.count_eq, RemoteStat.count_eq]
      exact (List.pairwise_cons.mp hordered).1 snapshot List.mem_cons_self c
  | _ => exact le_rfl

/-- The mirror is not above the true totals. -/
theorem Ascending.count_le_total {s : StatsStream} (h : s.Ascending live kind) (c : StatCell) :
    s.remote.count c ≤ Scan.total live.incs live.workers c s.log.length :=
  (RemoteStat.count_eq s.remote c).le.trans ((h.shows _ List.mem_cons_self).count_le c)

/-- **Every step keeps the order of the snapshots.** -/
theorem InOrder.moves {s s' : StatsStream} (h : s.InOrder) (hmoves : Moves live kind s s') : s'.InOrder := by
  obtain ⟨hstored, hcomplete, hroom⟩ := h
  cases hmoves with
  | taken htask =>
      have hall := hcomplete (.inl (by rw [htask]; nofun))
      have hnew : s.stored ++ (s.inTransit ++ [(live.snapshot kind s.log).1]) =
          s.taken ++ [(live.snapshot kind s.log).1] := by
        rw [← List.append_assoc, hall]
      rw [← inTransit_taken htask] at hnew
      exact ⟨hnew ▸ List.prefix_rfl, fun _ => hnew, hroom⟩
  | ended htask =>
      refine ⟨((List.prefix_append_right_inj s.stored).mpr (inTransit_ended s)).trans hstored, ?_, hroom⟩
      rintro (hended | hconsuming)
      · exact absurd rfl hended
      · rcases htask with htask | hgone
        · have hall := hcomplete (.inr hconsuming)
          rw [inTransit, htask] at hall
          exact hall
        · exact absurd (hgone.symm.trans hconsuming) Bool.false_ne_true
  | sent snapshot htask hlt =>
      rw [← inTransit_sent htask] at hstored hcomplete
      refine ⟨hstored, fun _ => hcomplete (.inl (by rw [htask]; nofun)), ?_⟩
      rw [List.length_append, List.length_singleton]
      exact hlt
  | transmitted snapshot channel hchannel =>
      rw [← inTransit_transmitted hchannel] at hstored hcomplete
      refine ⟨hstored, hcomplete, ?_⟩
      rw [hchannel, List.length_cons] at hroom
      exact Nat.le_of_succ_le hroom
  | delivered snapshot wire hwire =>
      rw [inTransit_delivered hwire (s.remote.store snapshot) (s.stored ++ [snapshot]), List.append_cons]
        at hstored hcomplete
      exact ⟨hstored, hcomplete, hroom⟩
  | disconnected => exact ⟨hstored, fun h => hcomplete (.inl (h.resolve_right nofun)), hroom⟩
  | stopped => exact ⟨hstored, hcomplete, hroom⟩
  | updated c => exact ⟨hstored, hcomplete, hroom⟩

theorem run_ascending (hlive : live.Bounded) {s s' : StatsStream} {actions : List StreamAction}
    (h : s.Ascending live kind ∧ s.InOrder) (hrun : Run.run (step live kind) s actions = some s') :
    (s'.Ascending live kind ∧ s'.InOrder) ∧ ∀ c, s.gauges c ≤ s'.gauges c := by
  refine Run.invariant (I := fun t => (t.Ascending live kind ∧ t.InOrder) ∧ ∀ c, s.gauges c ≤ t.gauges c)
    (fun t a t' ht hstep => ?_) ⟨h, fun c => le_rfl⟩ hrun
  have hmoves := moves_of_step hstep
  exact ⟨⟨ht.1.1.moves hlive hmoves, ht.1.2.moves hmoves⟩, fun c => (ht.2 c).trans (ht.1.1.gauges_le hmoves c)⟩

/-- **No number on the screen goes back.** In every run of the stream, whatever the workers count in the meantime
and whenever the task, the transport, the consumer and the widgets get their turns: from any state on, the gauge of
a counter does not fall, and it is never above the true total of the counter; the snapshots are stored in the order
in which they were taken, and none is lost as long as the consumer reads; and no more than four wait in the
channel. -/
theorem screen_never_back (live : LiveStat) (hlive : live.Bounded) (kind : EngineKind)
    (before after : List StreamAction) (s s' : StatsStream)
    (hbefore : Run.run (step live kind) new before = some s)
    (hafter : Run.run (step live kind) s after = some s') :
    (∀ c, s.gauges c ≤ s'.gauges c ∧ s'.gauges c ≤ Scan.total live.incs live.workers c s'.log.length) ∧
      s'.stored <+: s'.taken ∧ (s'.consuming = true → s'.stored ++ s'.inTransit = s'.taken) ∧
      s'.channel.length ≤ statsChannelCap := by
  obtain ⟨hs, -⟩ := run_ascending hlive ⟨new_ascending live kind, new_inOrder⟩ hbefore
  obtain ⟨⟨hascending, horder⟩, hgauges⟩ := run_ascending hlive hs hafter
  refine ⟨fun c => ⟨hgauges c, ?_⟩, (List.prefix_append _ _).trans horder.stored,
    fun hconsuming => horder.complete (.inr hconsuming), horder.room⟩
  calc s'.gauges c ≤ s'.remote.count c := hascending.shown c
    _ ≤ Scan.total live.incs live.workers c s'.log.length := hascending.count_le_total c

/-- The request gauge of two workers after one snapshot and after the next. -/
theorem screen_never_back_two_workers :
    ∃ s s', Run.run (step twoWorkers .udp) new
        [.tick, .send, .transmit, .tick, .deliver, .update .numRequests, .send] = some s ∧
      Run.run (step twoWorkers .udp) s [.stop, .transmit, .tick, .deliver, .update .numRequests] = some s' ∧
      (s.gauges .numRequests = 12 ∧ s'.gauges .numRequests = 22) ∧
      (∀ c, s.gauges c ≤ s'.gauges c ∧
        s'.gauges c ≤ Scan.total twoWorkers.incs twoWorkers.workers c s'.log.length) ∧
      s'.stored <+: s'.taken ∧ (s'.consuming = true → s'.stored ++ s'.inTransit = s'.taken) ∧
      s'.channel.length ≤ statsChannelCap := by
  refine ⟨_, _, rfl, rfl, ⟨by decide +kernel, by decide +kernel⟩, ?_⟩
  exact screen_never_back twoWorkers twoWorkers_bounded .udp
    [.tick, .send, .transmit, .tick, .deliver, .update .numRequests, .send]
    [.stop, .transmit, .tick, .deliver, .update .numRequests] _ _ rfl rfl

end StatsStream

end Dwd
