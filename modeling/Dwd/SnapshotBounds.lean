import Dwd.Snapshot

/-! What the exported counters are. Every value in a snapshot, and every counter of the collector after a
scrape, is a sum of what was just read from the workers, one by one; so it lies between the true total at
the first of these reads and the true total at the last, and from one snapshot or scrape to the next it
does not decrease. -/

namespace Dwd

open Scan

namespace LiveStat

variable {s : LiveStat} {known : StatCell → ℕ → Prop}

/-- The totals stay below `2 ^ 64`. -/
def Bounded (s : LiveStat) : Prop := ∀ c t, total s.incs s.workers c t < 2 ^ 64

theorem Bounded.yields_sum (hs : s.Bounded) (c : StatCell) :
    Yields s.incs s.workers known (s.sum c) fun v c' v' => c' = c ∧ v' = v := yields_sumFrom (hs c)

/-- The buckets are sums over the first `m` workers. -/
def BucketsRead (s : LiveStat) (m idx : ℕ) (log log' : List (Share StatCell)) (buckets : List ℕ) : Prop :=
  ∀ i v, buckets[i]? = some v → Reads s.incs m (.bucket (idx + i)) log log' v

theorem Bounded.addBuckets (hs : s.Bounded) {m idx : ℕ} (hm : m < s.workers)
    {log log' : List (Share StatCell)} {snapshot : List ℕ} (hlog : log <+: log')
    (h : s.BucketsRead m idx log log' snapshot) :
    log' <+: (s.addBuckets m idx snapshot log').2 ∧
      (s.addBuckets m idx snapshot log').1.length = snapshot.length ∧
      s.BucketsRead (m + 1) idx log (s.addBuckets m idx snapshot log').2
        (s.addBuckets m idx snapshot log').1 := by
  induction snapshot generalizing idx log' with
  | nil => exact ⟨List.prefix_rfl, rfl, by simp [BucketsRead, LiveStat.addBuckets, pure]⟩
  | cons count snapshot ih =>
      have hlonger : log' <+: log' ++ [(m, StatCell.bucket idx)] := List.prefix_append _ _
      have hcount := (h 0 count rfl).succ hlog
      have hword := Nat.mod_eq_of_lt (hcount.lt_of_total hm (hs _))
      obtain ⟨hextends, hlength, hrest⟩ := ih (hlog.trans hlonger) (fun i v hv => by
        have hi := (h (i + 1) v hv).mono List.prefix_rfl hlonger
        rwa [Nat.add_comm i, ← Nat.add_assoc] at hi)
      refine ⟨hlonger.trans hextends, congrArg Nat.succ hlength, ?_⟩
      intro i v hv
      cases i with
      | zero =>
          obtain rfl := Option.some.inj hv
          rw [← hword] at hcount
          exact hcount.mono List.prefix_rfl hextends
      | succ i =>
          have hi := hrest i v hv
          rwa [Nat.add_assoc, Nat.add_comm 1] at hi

/-- A snapshot that is too short is filled up with empty buckets. -/
theorem BucketsRead.resize {m : ℕ} {log log' : List (Share StatCell)} {snapshot : List ℕ}
    (h : s.BucketsRead m 0 log log' snapshot) (hshort : m = 0 ∨ snapshot.length = numBuckets) :
    s.BucketsRead m 0 log log' (snapshot ++ List.replicate (numBuckets - snapshot.length) 0) := by
  rcases hshort with rfl | hlength
  · intro i v hv
    by_cases hi : i < snapshot.length
    · rw [List.getElem?_append_left hi] at hv
      exact h i v hv
    · rw [List.getElem?_append_right (not_lt.mp hi)] at hv
      obtain rfl : v = 0 := (List.mem_replicate.mp (List.mem_of_getElem? hv)).2
      exact Reads.zero
  · rw [hlength, Nat.sub_self, List.replicate_zero, List.append_nil]
    exact h

theorem Bounded.addWorkers (hs : s.Bounded) {m r : ℕ} (hr : m + r ≤ s.workers)
    {log log' : List (Share StatCell)} {snapshot : List ℕ} (hlog : log <+: log')
    (h : s.BucketsRead m 0 log log' snapshot)
    (hlength : snapshot.length ≤ numBuckets ∧ (m = 0 ∨ snapshot.length = numBuckets)) :
    log' <+: (s.addWorkers (List.range' m r) snapshot log').2 ∧
      s.BucketsRead (m + r) 0 log (s.addWorkers (List.range' m r) snapshot log').2
        (s.addWorkers (List.range' m r) snapshot log').1 := by
  induction r generalizing m log' snapshot with
  | zero => exact ⟨List.prefix_rfl, h⟩
  | succ r ih =>
      obtain ⟨hextends, hlength', hread⟩ := hs.addBuckets (by omega) hlog (h.resize hlength.2)
      have hfull : (s.addBuckets m 0 (snapshot ++ List.replicate (numBuckets - snapshot.length) 0)
          log').1.length = numBuckets := by
        rw [hlength', List.length_append, List.length_replicate]
        omega
      obtain ⟨hextends', hreads⟩ := ih (by omega) (hlog.trans hextends) hread ⟨hfull.le, .inr hfull⟩
      rw [Nat.add_right_comm, Nat.add_assoc] at hreads
      exact ⟨hextends.trans hextends', hreads⟩

theorem Bounded.yields_hist (hs : s.Bounded) : Yields s.incs s.workers known s.hist
    fun buckets c v => ∃ idx, c = .bucket idx ∧ buckets[idx]? = some v := by
  intro log₀ log hlog _
  have hempty : s.BucketsRead 0 0 log₀ log [] := by simp [BucketsRead]
  obtain ⟨hextends, hreads⟩ := hs.addWorkers (Nat.zero_add s.workers).le hlog hempty
    ⟨Nat.zero_le _, .inl rfl⟩
  rw [← List.range_eq_range'] at hextends hreads
  refine ⟨hextends, ?_⟩
  rintro c v ⟨idx, rfl, hv⟩
  have hidx := hreads idx v hv
  rwa [Nat.zero_add, Nat.zero_add] at hidx

end LiveStat

/-- The counters of a message, with their values. -/
def TxStats.Has (tx : TxStats) (c : StatCell) (v : ℕ) : Prop :=
  (c = .numRequests ∧ v = tx.numRequests) ∨ (c = .bytesTx ∧ v = tx.bytesTx)

def RxStats.Has (rx : RxStats) (c : StatCell) (v : ℕ) : Prop :=
  (c = .numResponses ∧ v = rx.numResponses) ∨ (c = .numTimeouts ∧ v = rx.numTimeouts) ∨
    (c = .bytesRx ∧ v = rx.bytesRx) ∨ ∃ idx, c = .bucket idx ∧ rx.histogramBuckets[idx]? = some v

def SocketStats.Has (socket : SocketStats) (c : StatCell) (v : ℕ) : Prop :=
  (c = .numSockCreated ∧ v = socket.numSockCreated) ∨ (c = .numSockErrors ∧ v = socket.numSockErrors) ∨
    (c = .numRetransmits ∧ v = socket.numRetransmits)

def HttpStats.Has (http : HttpStats) (c : StatCell) (v : ℕ) : Prop :=
  (c = .num2xx ∧ v = http.num2xx) ∨ (c = .num3xx ∧ v = http.num3xx) ∨ (c = .num4xx ∧ v = http.num4xx) ∨
    (c = .num5xx ∧ v = http.num5xx)

def BurstTxStats.Has (burstTx : BurstTxStats) (c : StatCell) (v : ℕ) : Prop :=
  ∃ idx, c = .burstsTx idx ∧ burstTx.numBurstsTx[idx]? = some v

/-- A value of a snapshot is in one of its messages. -/
theorem StatsSnapshot.value_cases {snapshot : StatsSnapshot} {c : StatCell} {v : ℕ}
    (h : snapshot.value c = some v) :
    (∃ tx, snapshot.tx = some tx ∧ tx.Has c v) ∨ (∃ rx, snapshot.rx = some rx ∧ rx.Has c v) ∨
    (∃ socket, snapshot.socket = some socket ∧ socket.Has c v) ∨
    (∃ http, snapshot.http = some http ∧ http.Has c v) ∨
    (∃ burstTx, snapshot.burstTx = some burstTx ∧ burstTx.Has c v) := by
  cases c with
  | numRequests | bytesTx =>
      obtain ⟨tx, htx, rfl⟩ := Option.map_eq_some_iff.mp h
      exact .inl ⟨tx, htx, by simp [TxStats.Has]⟩
  | numResponses | numTimeouts | bytesRx =>
      obtain ⟨rx, hrx, rfl⟩ := Option.map_eq_some_iff.mp h
      exact .inr (.inl ⟨rx, hrx, by simp [RxStats.Has]⟩)
  | bucket idx =>
      obtain ⟨rx, hrx, hv⟩ := Option.bind_eq_some_iff.mp h
      exact .inr (.inl ⟨rx, hrx, .inr (.inr (.inr ⟨idx, rfl, hv⟩))⟩)
  | numSockCreated | numSockErrors | numRetransmits =>
      obtain ⟨socket, hsocket, rfl⟩ := Option.map_eq_some_iff.mp h
      exact .inr (.inr (.inl ⟨socket, hsocket, by simp [SocketStats.Has]⟩))
  | num2xx | num3xx | num4xx | num5xx =>
      obtain ⟨http, hhttp, rfl⟩ := Option.map_eq_some_iff.mp h
      exact .inr (.inr (.inr (.inl ⟨http, hhttp, by simp [HttpStats.Has]⟩)))
  | burstsTx idx =>
      obtain ⟨burstTx, hburstTx, hv⟩ := Option.bind_eq_some_iff.mp h
      exact .inr (.inr (.inr (.inr ⟨burstTx, hburstTx, idx, rfl, hv⟩)))

namespace LiveStat

variable {s : LiveStat} {known : StatCell → ℕ → Prop}

theorem Bounded.yields_txStats (hs : s.Bounded) :
    Yields s.incs s.workers known s.txStats TxStats.Has := by
  refine (hs.yields_sum _).bind fun numRequests => ?_
  refine (hs.yields_sum _).bind fun bytesTx => ?_
  apply yields_pure
  unfold TxStats.Has
  tauto

theorem Bounded.yields_rxStats (hs : s.Bounded) :
    Yields s.incs s.workers known s.rxStats RxStats.Has := by
  refine (hs.yields_sum _).bind fun numResponses => ?_
  refine (hs.yields_sum _).bind fun numTimeouts => ?_
  refine (hs.yields_sum _).bind fun bytesRx => ?_
  refine hs.yields_hist.bind fun histogramBuckets => ?_
  apply yields_pure
  unfold RxStats.Has
  tauto

theorem Bounded.yields_socketStats (hs : s.Bounded) :
    Yields s.incs s.workers known s.socketStats SocketStats.Has := by
  refine (hs.yields_sum _).bind fun numSockCreated => ?_
  refine (hs.yields_sum _).bind fun numSockErrors => ?_
  refine (hs.yields_sum _).bind fun numRetransmits => ?_
  apply yields_pure
  unfold SocketStats.Has
  tauto

theorem Bounded.yields_httpStats (hs : s.Bounded) :
    Yields s.incs s.workers known s.httpStats HttpStats.Has := by
  refine (hs.yields_sum _).bind fun num2xx => ?_
  refine (hs.yields_sum _).bind fun num3xx => ?_
  refine (hs.yields_sum _).bind fun num4xx => ?_
  refine (hs.yields_sum _).bind fun num5xx => ?_
  apply yields_pure
  unfold HttpStats.Has
  tauto

theorem Bounded.yields_burstsTx (hs : s.Bounded) (idx r : ℕ) :
    Yields s.incs s.workers known (s.burstsTx (List.range' idx r))
      fun counts c v => ∃ i, c = .burstsTx (idx + i) ∧ counts[i]? = some v := by
  induction r generalizing idx known with
  | zero =>
      apply yields_pure
      simp
  | succ r ih =>
      refine (hs.yields_sum _).bind fun count => ?_
      refine (ih (idx + 1)).bind fun rest => ?_
      apply yields_pure
      rintro c v ⟨i, rfl, hv⟩
      cases i with
      | zero =>
          left
          right
          exact ⟨rfl, (Option.some.inj hv).symm⟩
      | succ i =>
          right
          exact ⟨i, by rw [Nat.add_assoc, Nat.add_comm 1], hv⟩

theorem Bounded.yields_burstTxStats (hs : s.Bounded) :
    Yields s.incs s.workers known s.burstTxStats BurstTxStats.Has := by
  unfold burstTxStats
  rw [List.range_eq_range']
  refine (hs.yields_burstsTx 0 burstTxBuckets).bind fun numBurstsTx => ?_
  apply yields_pure
  rintro c v ⟨idx, rfl, hv⟩
  right
  exact ⟨idx, by rw [Nat.zero_add], hv⟩

/-- Every value of a snapshot has just been read. -/
theorem Bounded.yields_snapshot (hs : s.Bounded) (kind : EngineKind) :
    Yields s.incs s.workers known (s.snapshot kind) fun snapshot c v => snapshot.value c = some v := by
  cases kind with
  | http =>
      refine yields_ask.bind fun generatorRps => ?_
      refine hs.yields_txStats.bind fun tx => ?_
      refine hs.yields_rxStats.bind fun rx => ?_
      refine hs.yields_socketStats.bind fun socket => ?_
      refine hs.yields_httpStats.bind fun http => ?_
      apply yields_pure
      intro c v hv
      rcases StatsSnapshot.value_cases hv with
        ⟨_, ⟨⟩, h⟩ | ⟨_, ⟨⟩, h⟩ | ⟨_, ⟨⟩, h⟩ | ⟨_, ⟨⟩, h⟩ | ⟨_, ⟨⟩, h⟩
      · exact .inl (.inl (.inl (.inr h)))
      · exact .inl (.inl (.inr h))
      · exact .inl (.inr h)
      · exact .inr h
  | udp =>
      refine yields_ask.bind fun generatorRps => ?_
      refine hs.yields_txStats.bind fun tx => ?_
      refine hs.yields_socketStats.bind fun socket => ?_
      apply yields_pure
      intro c v hv
      rcases StatsSnapshot.value_cases hv with
        ⟨_, ⟨⟩, h⟩ | ⟨_, ⟨⟩, h⟩ | ⟨_, ⟨⟩, h⟩ | ⟨_, ⟨⟩, h⟩ | ⟨_, ⟨⟩, h⟩
      · exact .inl (.inr h)
      · exact .inr h
  | dpdk =>
      refine yields_ask.bind fun generatorRps => ?_
      refine hs.yields_txStats.bind fun tx => ?_
      refine hs.yields_burstTxStats.bind fun burstTx => ?_
      apply yields_pure
      intro c v hv
      rcases StatsSnapshot.value_cases hv with
        ⟨_, ⟨⟩, h⟩ | ⟨_, ⟨⟩, h⟩ | ⟨_, ⟨⟩, h⟩ | ⟨_, ⟨⟩, h⟩ | ⟨_, ⟨⟩, h⟩
      · exact .inl (.inr h)
      · exact .inr h

/-- The values of a stream have been read for their own message, after the messages before it. -/
theorem Bounded.streamStats (hs : s.Bounded) (kind : EngineKind) (k : ℕ) (log : List (Share StatCell)) :
    (∀ m ∈ s.streamStats kind k log, log <+: m.before ∧
      ∀ c v, m.snapshot.value c = some v → Reads s.incs s.workers c m.before m.after v) ∧
    (s.streamStats kind k log).Pairwise fun m m' => m.after <+: m'.before := by
  induction k generalizing log with
  | zero => exact ⟨by simp [LiveStat.streamStats], List.Pairwise.nil⟩
  | succ k ih =>
      obtain ⟨hextends, hreads⟩ := (hs.yields_snapshot kind).reads (List.prefix_refl log)
      obtain ⟨hrest, hpairwise⟩ := ih (s.snapshot kind log).2
      constructor
      · intro m hm
        rcases List.mem_cons.mp hm with rfl | hm
        · exact ⟨List.prefix_rfl, hreads⟩
        · obtain ⟨hafter, hvalues⟩ := hrest m hm
          exact ⟨hextends.trans hafter, hvalues⟩
      · exact List.Pairwise.cons (fun m hm => (hrest m hm).1) hpairwise

end LiveStat

/-! ### Scrapes -/

namespace MetricsCollector

variable {s : LiveStat} {collector collector₀ : MetricsCollector} {log log₀ : List (Share StatCell)}

theorem counters_raise (collector : MetricsCollector) (c : StatCell) (v : ℕ) :
    (collector.raise c v).counters =
      Function.update collector.counters c (max (collector.counters c) v) := by
  unfold raise
  by_cases hlt : collector.counters c < v
  · simp only [if_pos hlt, Nat.add_sub_of_le hlt.le, max_eq_right hlt.le]
  · simp only [if_neg hlt, max_eq_left (not_lt.mp hlt), Function.update_eq_self]

/-- Raising several counters raises each one. -/
theorem counters_raiseAll {values : List (StatCell × ℕ)} (hnodup : (values.map Prod.fst).Nodup)
    (collector : MetricsCollector) :
    (∀ c v, (c, v) ∈ values →
      (values.foldl (fun collector cv => collector.raise cv.1 cv.2) collector).counters c =
        max (collector.counters c) v) ∧
    (∀ c, c ∉ values.map Prod.fst →
      (values.foldl (fun collector cv => collector.raise cv.1 cv.2) collector).counters c =
        collector.counters c) := by
  induction values generalizing collector with
  | nil => simp
  | cons first values ih =>
      obtain ⟨hfirst, hnodup⟩ := List.nodup_cons.mp hnodup
      obtain ⟨hin, hout⟩ := ih hnodup (collector.raise first.1 first.2)
      simp only [List.foldl_cons]
      constructor
      · intro c v hmem
        rcases List.mem_cons.mp hmem with rfl | hmem
        · rw [hout c hfirst, counters_raise, Function.update_self]
        · have hne : c ≠ first.1 := by
            rintro rfl
            exact hfirst (List.mem_map.mpr ⟨_, hmem, rfl⟩)
          rw [hin c v hmem, counters_raise, Function.update_of_ne hne]
      · intro c hc
        obtain ⟨hne, hc⟩ := not_or.mp (mt List.mem_cons.mpr hc)
        rw [hout c hc, counters_raise, Function.update_of_ne hne]

theorem map_fst_readAll (s : LiveStat) (cells : List StatCell) (log : List (Share StatCell)) :
    (readAll s cells log).1.map Prod.fst = cells := by
  induction cells generalizing log with
  | nil => rfl
  | cons c cells ih => exact congrArg (c :: ·) (ih (s.sum c log).2)

theorem yields_readAll {known : StatCell → ℕ → Prop} (hs : s.Bounded) (cells : List StatCell) :
    Yields s.incs s.workers known (readAll s cells) fun values c v => (c, v) ∈ values := by
  induction cells generalizing known with
  | nil =>
      apply yields_pure
      simp
  | cons c cells ih =>
      refine (hs.yields_sum c).bind fun v => ?_
      refine ih.bind fun rest => ?_
      apply yields_pure
      intro c' v' hmem
      rcases List.mem_cons.mp hmem with heq | hmem
      · obtain ⟨rfl, rfl⟩ := Prod.mk.inj heq
        exact .inl (.inr ⟨rfl, rfl⟩)
      · exact .inr hmem

/-- The counters are within the totals. -/
def Below (s : LiveStat) (collector : MetricsCollector) (log : List (Share StatCell)) : Prop :=
  ∀ c, collector.counters c ≤ total s.incs s.workers c log.length

/-- Within a scrape that began with `collector₀`, some counters are what was just read, and the others
are as they were. -/
structure Settled (s : LiveStat) (collector₀ collector : MetricsCollector) (cells : List StatCell)
    (log₀ log : List (Share StatCell)) : Prop where
  extends_log : log₀ <+: log
  read : ∀ c ∈ cells, Reads s.incs s.workers c log₀ log (collector.counters c)
  kept : ∀ c, c ∉ cells → collector.counters c = collector₀.counters c

theorem Settled.update {cells : List StatCell} (h : Settled s collector₀ collector cells log₀ log)
    (group : List StatCell) (hs : s.Bounded) (hbelow : Below s collector₀ log₀) (hnodup : (cells ++ group).Nodup) :
    Settled s collector₀ (update s group collector log).1 (cells ++ group) log₀
      (update s group collector log).2 := by
  obtain ⟨-, hgroup, hdisjoint⟩ := List.nodup_append.mp hnodup
  obtain ⟨hextends, hvalues⟩ := (yields_readAll hs group).reads h.extends_log
  have hkeys := map_fst_readAll s group log
  have hraise := counters_raiseAll (by rwa [hkeys]) collector
  rw [hkeys] at hraise
  obtain ⟨hin, hout⟩ := hraise
  refine ⟨h.extends_log.trans hextends, fun c hc => ?_, fun c hc => ?_⟩
  · rcases List.mem_append.mp hc with hc | hc
    · have hsame := hout c fun hmem => hdisjoint c hc c hmem rfl
      exact hsame ▸ (h.read c hc).mono List.prefix_rfl hextends
    · -- the counter was not touched before, so it is at most what is read
      have hkept := h.kept c fun hmem => hdisjoint c hmem c hc rfl
      rw [← hkeys] at hc
      obtain ⟨⟨_, v⟩, hmem, rfl⟩ := List.mem_map.mp hc
      have hread := hvalues _ v hmem
      have hle : collector.counters _ ≤ v := (hkept.trans_le (hbelow _)).trans hread.total_le
      have hraised := hin _ v hmem
      rw [max_eq_right hle] at hraised
      exact hraised ▸ hread
  · obtain ⟨hcells, hgroup⟩ := not_or.mp (mt List.mem_append.mpr hc)
    exact (hout c hgroup).trans (h.kept c hcells)

/-- After a scrape, the counters of the engine are what was just read. -/
theorem settled_collect (hs : s.Bounded) (hbelow : Below s collector log) (kind : EngineKind) :
    Settled s collector (s.collect kind collector log).1 kind.collected log
      (s.collect kind collector log).2 := by
  have hcommon : Settled s collector (updateCommon s collector log).1 [] log
      (updateCommon s collector log).2 := ⟨List.prefix_rfl, by simp, fun _ _ => rfl⟩
  cases kind with
  | http =>
      have htx := hcommon.update [.numRequests, .bytesTx] hs hbelow (by decide)
      have hrx := htx.update [.numResponses, .numTimeouts, .bytesRx] hs hbelow (by decide)
      have hhttp := hrx.update [.num2xx, .num3xx, .num4xx, .num5xx] hs hbelow (by decide)
      exact hhttp.update [.numSockCreated, .numSockErrors, .numRetransmits] hs hbelow (by decide)
  | udp =>
      have htx := hcommon.update [.numRequests, .bytesTx] hs hbelow (by decide)
      exact htx.update [.numSockCreated, .numSockErrors, .numRetransmits] hs hbelow (by decide)
  | dpdk => exact hcommon.update [.numRequests, .bytesTx] hs hbelow (by decide)

theorem Settled.below {cells : List StatCell} (h : Settled s collector₀ collector cells log₀ log)
    (hbelow : Below s collector₀ log₀) : Below s collector log := by
  intro c
  by_cases hc : c ∈ cells
  · exact (h.read c hc).le_total
  · rw [h.kept c hc]
    exact (hbelow c).trans (total_mono s.incs s.workers c h.extends_log.length_le)

theorem Settled.le {cells : List StatCell} (h : Settled s collector₀ collector cells log₀ log)
    (hbelow : Below s collector₀ log₀) (c : StatCell) : collector₀.counters c ≤ collector.counters c := by
  by_cases hc : c ∈ cells
  · exact (hbelow c).trans (h.read c hc).total_le
  · exact (h.kept c hc).ge

/-- The counters of the engine are what each scrape has just read, and no counter ever decreases. -/
theorem scrapes_settled (hs : s.Bounded) (kind : EngineKind) (k : ℕ) (hbelow : Below s collector log) :
    (∀ sc ∈ s.scrapes kind k collector log, (∀ c, collector.counters c ≤ sc.collector.counters c) ∧
      ∀ c ∈ kind.collected, Reads s.incs s.workers c sc.before sc.after (sc.collector.counters c)) ∧
    (s.scrapes kind k collector log).Pairwise fun sc sc' =>
      ∀ c, sc.collector.counters c ≤ sc'.collector.counters c := by
  induction k generalizing collector log with
  | zero => exact ⟨by simp [LiveStat.scrapes], List.Pairwise.nil⟩
  | succ k ih =>
      have hsettled := settled_collect hs hbelow kind
      obtain ⟨hrest, hpairwise⟩ := ih (hsettled.below hbelow)
      constructor
      · intro sc hsc
        rcases List.mem_cons.mp hsc with rfl | hsc
        · exact ⟨hsettled.le hbelow, hsettled.read⟩
        · obtain ⟨hle, hread⟩ := hrest sc hsc
          exact ⟨fun c => (hsettled.le hbelow c).trans (hle c), hread⟩
      · exact List.Pairwise.cons (fun sc hsc => (hrest sc hsc).1) hpairwise

end MetricsCollector

/-- The value lies between the true total of the counter when its reads began, after `before`, and the
true total when they ended: every time `a` up to the first of them, and every time `b` from the last of
them on. -/
def LiveStat.Between (s : LiveStat) (c : StatCell) (before after : List (Share StatCell)) (v : ℕ) : Prop :=
  ∀ a b, (∀ i worker, before.length ≤ i → after[i]? = some (worker, c) → a ≤ i ∧ i ≤ b) →
    total s.incs s.workers c a ≤ v ∧ v ≤ total s.incs s.workers c b

/-- **The exported counters are consistent snapshots of growing totals.** For any number of workers and
whatever they count between the reads, every value of a stream of snapshots and every counter after a
scrape lies between the true totals at the first and at the last of its reads; the values of a stream and
the counters of the collector do not decrease; and after a scrape a counter is the sum of what the scrape
has read from the workers. -/
theorem exported_counters (s : LiveStat) (hs : s.Bounded) (kind : EngineKind) (k : ℕ) :
    (∀ m ∈ s.streamStats kind k [], ∀ c v, m.snapshot.value c = some v → s.Between c m.before m.after v) ∧
    (s.streamStats kind k []).Pairwise (fun m m' => ∀ c v v', m.snapshot.value c = some v →
      m'.snapshot.value c = some v' → v ≤ v') ∧
    (∀ sc ∈ s.scrapes kind k .new [], ∀ c ∈ kind.collected,
      Reads s.incs s.workers c sc.before sc.after (sc.collector.counters c) ∧
      s.Between c sc.before sc.after (sc.collector.counters c)) ∧
    (s.scrapes kind k .new []).Pairwise (fun sc sc' =>
      ∀ c, sc.collector.counters c ≤ sc'.collector.counters c) := by
  obtain ⟨hstream, hordered⟩ := hs.streamStats kind k []
  have hbelow : MetricsCollector.Below s .new [] := fun c => Nat.zero_le _
  obtain ⟨hscrapes, hgrow⟩ := MetricsCollector.scrapes_settled hs kind k hbelow
  refine ⟨fun m hm c v hv a b hreads => ((hstream m hm).2 c v hv).between hreads, ?_, ?_, hgrow⟩
  · refine hordered.imp_of_mem fun hm hm' hbefore c v v' hv hv' => ?_
    exact ((hstream _ hm).2 c v hv).le_of_before ((hstream _ hm').2 c v' hv') hbefore
  · intro sc hsc c hc
    have hread := (hscrapes sc hsc).2 c hc
    exact ⟨hread, fun a b hreads => hread.between hreads⟩

/-- Two workers that have made three and four requests, and then ten and five more while they are read. -/
def twoWorkers : LiveStat where
  workers := 2
  incs
    | 0 => [((0, .numRequests), 3), ((1, .numRequests), 4)]
    | 1 => [((0, .numRequests), 10), ((1, .numRequests), 5)]
    | _ => []
  generator _ := 0

theorem twoWorkers_bounded : twoWorkers.Bounded := by
  have hgained : ∀ (share : Share StatCell) incs, gained share incs ≤ (incs.map Prod.snd).sum :=
    fun share incs => (List.filter_sublist.map Prod.snd).sum_le_sum fun _ _ => Nat.zero_le _
  have hcell : ∀ share t, cell twoWorkers.incs share t ≤ 22 := by
    intro share t
    have hfirst := hgained share (twoWorkers.incs 0)
    have hsecond := hgained share (twoWorkers.incs 1)
    induction t with
    | zero => exact hfirst.trans (by decide)
    | succ t ih =>
        cases t with
        | zero => exact (Nat.add_le_add hfirst hsecond).trans (by decide)
        | succ t => exact ih
  intro c t
  calc total twoWorkers.incs 2 c t ≤ ∑ _ ∈ Finset.range 2, 22 := Finset.sum_le_sum fun o _ => hcell (o, c) t
    _ < 2 ^ 64 := by simp

/-- A snapshot finds twelve requests, between the seven at its first read and the twenty-two at its
last. -/
theorem exported_counters_two_workers :
    (∀ m ∈ twoWorkers.streamStats .udp 2 [], ∀ c v, m.snapshot.value c = some v →
      twoWorkers.Between c m.before m.after v) ∧
    ((twoWorkers.streamStats .udp 2 []).map fun m => m.snapshot.value .numRequests) =
      [some 12, some 22] ∧
    ((twoWorkers.scrapes .udp 2 .new []).map fun sc => sc.collector.counters .numRequests) = [12, 22] :=
  ⟨(exported_counters twoWorkers twoWorkers_bounded .udp 2).1, by decide +kernel, by decide +kernel⟩

end Dwd
