import Dwd.LoadReached
import Dwd.Udp

/-! The UDP engine under load. Each worker ticks its shaper, calls `execute` once for each request that the tick
grants, and consumes the grant after that; a call sends one datagram and counts it, or counts an error. So the
statistics of the engine follow what is published: what the ticks grant is what the workers have tried to send, but
for what is left of their last grants. -/

namespace Dwd

/-- The engine with all that decides its load: the sockets of its workers, how many requests of its grant each worker
has performed, and the statistics of the workers. -/
structure UdpEngine (G : Type) (n : ℕ) where
  load : LoadSystem G n
  workers : Fin n → Udp.Worker
  performed : Fin n → ℕ
  stats : Fin n → PerCpuStat

/-- A tick, the end of a grant, or a step that is none of a worker; or a call of `execute`, with the answers of the
outside. -/
inductive UdpAction (n : ℕ) where
  | load (a : LoadAction n)
  | execute (j : Fin n) (bind connect send : Bool)

namespace UdpEngine

variable {G : Type} {n : ℕ}

/-- What every datagram carries. -/
def data : List Char := "GET / HTTP/1.1\r\n\r\n".toList

/-- The statistics of all workers. -/
def stat (s : UdpEngine G n) : Stat := { stats := List.ofFn s.stats }

variable [Generator G]

def new (g : G) (requestsPerSock : Fin n → ℕ) (t0 : ℕ) : UdpEngine G n :=
  { load := .new g (fun _ => .udp) t0
    workers := fun j => .new (requestsPerSock j)
    performed := fun _ => 0
    stats := fun _ => .default }

/-- `Worker::run` of every worker. -/
def step (s : UdpEngine G n) : UdpAction n → Option (UdpEngine G n)
  | .load (.consume now j) =>
      -- after the `n` calls of the loop
      if s.performed j = (s.load.rates.workers j).pending then
        (s.load.step (.consume now j)).map fun load =>
          { s with load := load, performed := Function.update s.performed j 0 }
      else none
  | .load a => (s.load.step a).map fun load => { s with load := load }
  | .execute j bind connect send =>
      if s.performed j < (s.load.rates.workers j).pending then
        let r := (s.workers j).execute { bind := bind, connect := connect, send := send, dataLen := data.length }
        some { s with
          workers := Function.update s.workers j r.1
          performed := Function.update s.performed j (s.performed j + 1)
          stats := Function.update s.stats j ((s.stats j).applyAll r.2) }
      else none

/-- What a step can do. -/
inductive Moves (s : UdpEngine G n) : UdpAction n → UdpEngine G n → Prop where
  | consumed (now : ℕ) (j : Fin n) (load : LoadSystem G n)
      (hperformed : s.performed j = (s.load.rates.workers j).pending)
      (hload : s.load.step (.consume now j) = some load) :
      Moves s (.load (.consume now j)) { s with load := load, performed := Function.update s.performed j 0 }
  | loaded (a : LoadAction n) (load : LoadSystem G n) (ha : ∀ now j, a ≠ .consume now j)
      (hload : s.load.step a = some load) : Moves s (.load a) { s with load := load }
  | executed (j : Fin n) (answers : Udp.Answers) (bind connect send : Bool)
      (hanswers : answers = { bind := bind, connect := connect, send := send, dataLen := data.length })
      (hleft : s.performed j < (s.load.rates.workers j).pending) :
      Moves s (.execute j bind connect send)
        { s with
          workers := Function.update s.workers j ((s.workers j).execute answers).1
          performed := Function.update s.performed j (s.performed j + 1)
          stats := Function.update s.stats j ((s.stats j).applyAll ((s.workers j).execute answers).2) }

theorem moves_of_step {s s' : UdpEngine G n} {a : UdpAction n} (h : s.step a = some s') : Moves s a s' := by
  cases a with
  | load a =>
      cases a with
      | consume now j =>
          simp only [step] at h
          split_ifs at h with hperformed
          obtain ⟨load, hload, rfl⟩ := Option.map_eq_some_iff.mp h
          exact .consumed now j load hperformed hload
      | _ =>
          obtain ⟨load, hload, rfl⟩ := Option.map_eq_some_iff.mp h
          exact .loaded _ load nofun hload
  | execute j bind connect send =>
      simp only [step] at h
      split_ifs at h with hleft
      obtain rfl := Option.some.inj h
      exact .executed j _ bind connect send rfl hleft

/-- The steps of the load in a run. -/
def loads (actions : List (UdpAction n)) : List (LoadAction n) :=
  actions.filterMap fun
    | .load a => some a
    | .execute _ _ _ _ => none

/-- A guard for the steps of the load. -/
def OfLoad (guard : LoadSystem G n → LoadAction n → Prop) (s : UdpEngine G n) : UdpAction n → Prop
  | .load a => guard s.load a
  | .execute _ _ _ _ => True

omit [Generator G] in
instance (guard : LoadSystem G n → LoadAction n → Prop) [∀ s a, Decidable (guard s a)] (s : UdpEngine G n) :
    (a : UdpAction n) → Decidable (OfLoad guard s a)
  | .load a => inferInstanceAs (Decidable (guard s.load a))
  | .execute _ _ _ _ => isTrue trivial

/-- The steps of the load in a run are a run of the load. -/
theorem run_load {s s' : UdpEngine G n} {actions : List (UdpAction n)}
    (h : Run.run step s actions = some s') : Run.run LoadSystem.step s.load (loads actions) = some s'.load := by
  induction actions generalizing s with
  | nil =>
      obtain rfl := Option.some.inj h
      rfl
  | cons a actions ih =>
      obtain ⟨s₁, hstep, hrest⟩ := Run.run_cons_eq_some h
      have hrun := ih hrest
      cases moves_of_step hstep with
      | consumed now j load hperformed hload =>
          show (s.load.step (.consume now j)).bind _ = some s'.load
          rw [hload]
          exact hrun
      | loaded a load ha hload =>
          show (s.load.step a).bind _ = some s'.load
          rw [hload]
          exact hrun
      | executed j answers bind connect send hanswers hleft => exact hrun

theorem guarded_load {guard : LoadSystem G n → LoadAction n → Prop} {s s' : UdpEngine G n}
    {actions : List (UdpAction n)} (h : Run.run step s actions = some s')
    (hguard : Run.Guarded step (OfLoad guard) s actions) :
    Run.Guarded LoadSystem.step guard s.load (loads actions) := by
  induction actions generalizing s with
  | nil => trivial
  | cons a actions ih =>
      obtain ⟨s₁, hstep, hrest⟩ := Run.run_cons_eq_some h
      have hrun := ih hrest (hguard.2 s₁ hstep)
      cases moves_of_step hstep with
      | consumed now j load hperformed hload => exact Run.Guarded.cons hguard.1 hload hrun
      | loaded a load ha hload => exact Run.Guarded.cons hguard.1 hload hrun
      | executed j answers bind connect send hanswers hleft => exact hrun

end UdpEngine

namespace Udp.Worker

/-- A socket that is opened is counted, and nothing else. -/
theorem currSock_updates (self : Worker) (answers : Answers) :
    (self.currSock answers).2.1 = [] ∨ (self.currSock answers).2.1 = [.onSockCreated] := by
  unfold currSock
  cases self.sock with
  | some sock => exact .inl rfl
  | none =>
      by_cases hopen : (answers.bind && answers.connect) = true
      · rw [if_pos hopen]
        exact .inr rfl
      · rw [if_neg hopen]
        exact .inl rfl

/-- The updates of a call, the last ones after a datagram that is sent or after an error. -/
theorem execute_updates (self : Worker) (answers : Answers) :
    (self.execute answers).2 = (self.currSock answers).2.1 ++ [.onRequests 1, .onSend answers.dataLen] ∨
      (self.execute answers).2 = (self.currSock answers).2.1 ++ [.onSockErr] := by
  rcases hcurr : self.currSock answers with ⟨taken, updates, sock⟩
  rw [execute, hcurr]
  cases sock with
  | none => exact .inr rfl
  | some sock =>
      by_cases hsend : answers.send = true
      · simp only [hsend, if_true, true_or]
      · simp only [hsend, Bool.false_eq_true, if_false, or_true]

/-- A call counts one request with its bytes, or one error. -/
theorem execute_counts (self : Worker) (answers : Answers) :
    total .requests (self.execute answers).2 + total .sockErrors (self.execute answers).2 = 1 ∧
      total .bytesTx (self.execute answers).2 = answers.dataLen * total .requests (self.execute answers).2 := by
  have huncounted : ∀ c : Counter, c ≠ .sockCreated → total c (self.currSock answers).2.1 = 0 := by
    intro c hc
    rcases self.currSock_updates answers with hupdates | hupdates
    · rw [hupdates]
      rfl
    · rw [hupdates]
      cases c <;> first | rfl | exact absurd rfl hc
  have hrequests := huncounted .requests (by decide)
  have herrors := huncounted .sockErrors (by decide)
  have hbytes := huncounted .bytesTx (by decide)
  rcases self.execute_updates answers with hupdates | hupdates
  · simp only [hupdates, total_append, hrequests, herrors, hbytes]
    simp [total, StatOp.weight]
  · simp only [hupdates, total_append, hrequests, herrors, hbytes]
    simp [total, StatOp.weight]

end Udp.Worker

namespace RateSystem

variable {n : ℕ} {s s' : RateSystem n}

theorem pending_add {a : RateAction n} {j : Fin n} (ha : ∀ now, a ≠ .consume now j) (h : s.step a = some s') :
    (s'.workers j).pending = (s.workers j).pending + s.granted j a := by
  rcases worker_cases h j with ⟨now, rfl, -, hpending, heq⟩ | ⟨now, rfl, -⟩ | ⟨-, hzero, heq⟩
  · have hgranted : s.granted j (.tick now j) = ((s.workers j).tick (s.cells j) now).pending := if_pos rfl
    rw [heq, hgranted, hpending, Nat.zero_add]
  · exact absurd rfl (ha now)
  · rw [heq, hzero]
    rfl

theorem pending_consume {now : ℕ} {i : Fin n} (h : s.step (.consume now i) = some s') (j : Fin n) :
    (s'.workers j).pending = if j = i then 0 else (s.workers j).pending := by
  rcases worker_cases h j with ⟨_, htick, -⟩ | ⟨_, hconsume, heq⟩ | ⟨hne, -, heq⟩
  · cases htick
  · obtain ⟨-, rfl⟩ := RateAction.consume.inj hconsume
    rw [heq, if_pos rfl]
    rfl
  · have hji : j ≠ i := fun hji => hne now (congrArg (RateAction.consume now) hji.symm)
    rw [heq, if_neg hji]

end RateSystem

namespace LoadSystem

variable {G : Type} {n : ℕ} [Generator G] {s s' : LoadSystem G n} {actions : List (LoadAction n)}

omit [Generator G] in
/-- The requests that a step grants to worker `j`. -/
def granted (j : Fin n) (s : LoadSystem G n) (a : LoadAction n) : ℕ :=
  ((s.rateAction a).map (s.rates.granted j)).getD 0

theorem grantedBy_cons {a : LoadAction n} (hstep : s.step a = some s') (j : Fin n) :
    s.rates.grantedBy j (s.rateActions (a :: actions)) =
      s.granted j a + s'.rates.grantedBy j (s'.rateActions actions) := by
  rw [rateActions, hstep, granted]
  rcases step_rates hstep with ⟨hnone, hrates⟩ | ⟨b, hb, hrates⟩
  · rw [hnone, hrates]
    exact (Nat.zero_add _).symm
  · rw [hb]
    show RateSystem.grantedBy j s.rates (b :: _) = _
    rw [RateSystem.grantedBy, hrates]
    rfl

theorem PollsOnly.below {P : ℕ → Prop} {v : ℕ} {a : LoadAction n} (h : s.PollsOnly P a)
    (hP : ∀ rate, P rate → rate ≤ v) : s.Polls v a := by
  cases a with
  | ui a =>
      cases a with
      | turn pollNow eventNow => exact fun hlive rate hrate => hP rate (h hlive rate hrate)
      | _ => trivial
  | _ => trivial

/-- Only the end of a grant takes requests from a worker. -/
theorem pending_add {a : LoadAction n} {j : Fin n} (ha : ∀ now, a ≠ .consume now j) (hstep : s.step a = some s') :
    (s'.rates.workers j).pending = (s.rates.workers j).pending + s.granted j a := by
  unfold granted
  rcases step_rates hstep with ⟨hnone, hrates⟩ | ⟨b, hb, hrates⟩
  · rw [hnone, hrates]
    rfl
  · rw [hb]
    refine RateSystem.pending_add (fun now heq => ?_) hrates
    rw [heq] at hb
    cases a with
    | ui a => cases hb
    | store now =>
        obtain ⟨p, -, heq⟩ := Option.map_eq_some_iff.mp hb
        cases heq
    | tick now i => cases hb
    | consume now' i =>
        obtain ⟨-, rfl⟩ := RateAction.consume.inj (Option.some.inj hb)
        exact ha now' rfl

theorem pending_consume {now : ℕ} {i : Fin n} (hstep : s.step (.consume now i) = some s') (j : Fin n) :
    (s'.rates.workers j).pending = if j = i then 0 else (s.rates.workers j).pending := by
  obtain ⟨rates, hrates, rfl⟩ := Option.map_eq_some_iff.mp hstep
  exact RateSystem.pending_consume hrates j

end LoadSystem

namespace UdpEngine

variable {G : Type} {n : ℕ} [Generator G] {s s' : UdpEngine G n} {actions : List (UdpAction n)}

omit [Generator G] in
/-- The calls of a worker, by what they have counted. -/
def attempts (s : UdpEngine G n) (j : Fin n) : ℕ := (s.stats j).count .requests + (s.stats j).count .sockErrors

/-- The calls that a worker has still to make for its last grant. -/
def left (s : UdpEngine G n) (j : Fin n) : ℕ := (s.load.rates.workers j).pending - s.performed j

/-- The requests that a step grants to worker `j`. -/
def granted (j : Fin n) (s : UdpEngine G n) : UdpAction n → ℕ
  | .load a => s.load.granted j a
  | .execute _ _ _ _ => 0

/-- No worker performs more than it is granted, and every request that is counted has its bytes counted. -/
structure Sound (s : UdpEngine G n) : Prop where
  performed : ∀ j, s.performed j ≤ (s.load.rates.workers j).pending
  bytesTx : ∀ j, (s.stats j).count .bytesTx = data.length * (s.stats j).count .requests

/-- **A step spends what it is granted on calls.** -/
theorem Sound.step {a : UdpAction n} (hs : s.Sound) (h : s.step a = some s') :
    s'.Sound ∧ ∀ j, s'.attempts j + s'.left j = s.attempts j + s.left j + s.granted j a := by
  cases moves_of_step h with
  | consumed now i load hperformed hload =>
      have hworker : ∀ j, Function.update s.performed i 0 j ≤ (load.rates.workers j).pending ∧
          (load.rates.workers j).pending - Function.update s.performed i 0 j = s.left j := by
        intro j
        rw [LoadSystem.pending_consume hload j, left]
        by_cases hji : j = i
        · subst hji
          rw [Function.update_self, if_pos rfl, hperformed]
          exact ⟨le_rfl, (Nat.sub_self _).symm⟩
        · rw [Function.update_of_ne hji, if_neg hji]
          exact ⟨hs.performed j, rfl⟩
      exact ⟨⟨fun j => (hworker j).1, hs.bytesTx⟩, fun j => congrArg (s.attempts j + ·) (hworker j).2⟩
  | loaded a load ha hload =>
      have hworker : ∀ j, s.performed j ≤ (load.rates.workers j).pending ∧
          (load.rates.workers j).pending - s.performed j = s.left j + s.load.granted j a := by
        intro j
        have hle := hs.performed j
        rw [LoadSystem.pending_add (fun now => ha now j) hload, left]
        omega
      refine ⟨⟨fun j => (hworker j).1, hs.bytesTx⟩, fun j => ?_⟩
      show s.attempts j + _ = _
      rw [Nat.add_assoc]
      exact congrArg (s.attempts j + ·) (hworker j).2
  | executed i answers bind connect send hanswers hleft =>
      obtain ⟨hone, hbytes⟩ := Udp.Worker.execute_counts (s.workers i) answers
      have hlen : answers.dataLen = data.length := by rw [hanswers]
      refine ⟨⟨fun j => ?_, fun j => ?_⟩, fun j => ?_⟩
      · show Function.update s.performed i (s.performed i + 1) j ≤ _
        by_cases hji : j = i
        · subst hji
          rw [Function.update_self]
          exact hleft
        · rw [Function.update_of_ne hji]
          exact hs.performed j
      · show (Function.update s.stats i _ j).count .bytesTx =
          data.length * (Function.update s.stats i _ j).count .requests
        by_cases hji : j = i
        · subst hji
          rw [Function.update_self, PerCpuStat.count_applyAll, PerCpuStat.count_applyAll, hs.bytesTx, hbytes, hlen,
            Nat.mul_add]
        · rw [Function.update_of_ne hji]
          exact hs.bytesTx j
      · show (Function.update s.stats i _ j).count .requests + (Function.update s.stats i _ j).count .sockErrors +
          ((s.load.rates.workers j).pending - Function.update s.performed i (s.performed i + 1) j) =
            s.attempts j + s.left j + 0
        unfold attempts left
        by_cases hji : j = i
        · subst hji
          rw [Function.update_self, Function.update_self, PerCpuStat.count_applyAll, PerCpuStat.count_applyAll]
          omega
        · rw [Function.update_of_ne hji, Function.update_of_ne hji]
          rfl

/-- A run spends what its ticks grant on calls, but for what is left of the last grants. -/
theorem Sound.run (hs : s.Sound) (h : Run.run UdpEngine.step s actions = some s') :
    s'.Sound ∧ ∀ j, s'.attempts j + s'.left j =
      s.attempts j + s.left j + s.load.rates.grantedBy j (s.load.rateActions (loads actions)) := by
  induction actions generalizing s with
  | nil =>
      obtain rfl := Option.some.inj h
      exact ⟨hs, fun _ => rfl⟩
  | cons a actions ih =>
      obtain ⟨s₁, hstep, hrest⟩ := Run.run_cons_eq_some h
      obtain ⟨hs₁, hfirst⟩ := hs.step hstep
      obtain ⟨hs', hrun⟩ := ih hs₁ hrest
      refine ⟨hs', fun j => ?_⟩
      rw [hrun, hfirst, Nat.add_assoc]
      congr 1
      cases moves_of_step hstep with
      | consumed now i load hperformed hload => exact (LoadSystem.grantedBy_cons hload j).symm
      | loaded a load ha hload => exact (LoadSystem.grantedBy_cons hload j).symm
      | executed i answers bind connect send hanswers hleft => exact Nat.zero_add _

omit [Generator G] in
theorem stat_count (s : UdpEngine G n) (c : Counter) : s.stat.count c = ∑ j, (s.stats j).count c := by
  rw [Stat.count, stat, List.map_ofFn, List.sum_ofFn]
  rfl

theorem new_sound (g : G) (requestsPerSock : Fin n → ℕ) (t0 : ℕ) : (new g requestsPerSock t0).Sound where
  performed := fun _ => le_rfl
  bytesTx := fun _ => rfl

/-- The datagrams and the errors that the statistics count. -/
def counted (s : UdpEngine G n) : ℕ := s.stat.numRequests + s.stat.numSockErrors

/-- What the workers have still to send. -/
def toSend (s : UdpEngine G n) : ℕ := ∑ j, s.left j

/-- The statistics grow by what the ticks grant, but for what is left of the grants. -/
theorem Sound.counted_run (hs : s.Sound) (h : Run.run UdpEngine.step s actions = some s') :
    s'.counted + s'.toSend = s.counted + s.toSend + s.load.totalGranted (loads actions) := by
  have hattempts : ∀ s : UdpEngine G n, s.counted = ∑ j, s.attempts j := by
    intro s
    have hrequests : s.stat.numRequests = ∑ j, (s.stats j).count .requests := s.stat_count .requests
    have herrors : s.stat.numSockErrors = ∑ j, (s.stats j).count .sockErrors := s.stat_count .sockErrors
    rw [counted, hrequests, herrors, ← Finset.sum_add_distrib]
    rfl
  rw [hattempts, hattempts, toSend, toSend, LoadSystem.totalGranted, RateSystem.totalGranted,
    ← Finset.sum_add_distrib, ← Finset.sum_add_distrib, ← Finset.sum_add_distrib]
  exact Finset.sum_congr rfl fun j _ => (hs.run h).2 j

/-- **The datagrams follow what is published.** From any state that a run leads to, between two turns of the loop, in
which the published rate is between `u` and `v`, as long as the loop polls only rates between these: every datagram is
counted with its bytes; the datagrams and the errors that are counted are at most what the workers had still to send,
`v` for every second, and one second's worth more; and if no tick is cut, they are, with what is then left to send, at
least what the workers had still to send and `u` for every second, but for one second's worth. -/
theorem datagrams_follow_published (hn : 0 < n) (g : G) (requestsPerSock : Fin n → ℕ) (t0 : ℕ)
    (before actions : List (UdpAction n)) (s s' : UdpEngine G n)
    (hbefore : Run.run UdpEngine.step (new g requestsPerSock t0) before = some s) (hstored : s.load.toStore = [])
    (hrun : Run.run UdpEngine.step s actions = some s') (u v start stop : ℕ)
    (hpublished : u ≤ s.load.ui.control.loop.generator ∧ s.load.ui.control.loop.generator ≤ v)
    (hpolls : Run.Guarded UdpEngine.step (OfLoad (LoadSystem.PollsOnly fun rate => u ≤ rate ∧ rate ≤ v)) s actions) :
    s'.stat.bytesTx = data.length * s'.stat.numRequests ∧
      ((∀ a ∈ loads actions, LoadSystem.InWindow start stop a) →
        (s'.counted : ℚ) ≤ s.counted + s.toSend + (v * Duration.asSecs (stop - start) + v)) ∧
      (Run.Guarded UdpEngine.step (OfLoad LoadSystem.Uncut) s actions →
        (∀ j, (s.load.rates.workers j).shaper.prevTs ≤ start) →
        (∀ j, stop ≤ (s'.load.rates.workers j).shaper.prevTs) →
        (s.counted : ℚ) + s.toSend + u * Duration.asSecs (stop - start) ≤ s'.counted + s'.toSend + v) := by
  have hsound := ((new_sound g requestsPerSock t0).run hbefore).1
  have hsettled := LoadSystem.run_settled hn (run_load hbefore)
  have hguard := guarded_load hrun hpolls
  have hcounted : (s'.counted : ℚ) + s'.toSend = s.counted + s.toSend + s.load.totalGranted (loads actions) :=
    mod_cast hsound.counted_run hrun
  refine ⟨?_, fun hwindow => ?_, fun huncut hstart hstop => ?_⟩
  · have hbytes : s'.stat.bytesTx = ∑ j, (s'.stats j).count .bytesTx := s'.stat_count .bytesTx
    have hrequests : s'.stat.numRequests = ∑ j, (s'.stats j).count .requests := s'.stat_count .requests
    rw [hbytes, hrequests, Finset.mul_sum]
    exact Finset.sum_congr rfl fun j _ => (hsound.run hrun).1.bytesTx j
  · have hbelow : Run.Guarded LoadSystem.step (LoadSystem.Polls v) s.load (loads actions) :=
      hguard.of_invariant (I := fun _ => True) (fun _ _ _ _ _ _ => trivial)
        (fun _ _ _ hpolls => hpolls.below fun _ hrate => hrate.2) trivial
    have hgranted := LoadSystem.totalGranted_le hn hsettled (hsettled.kept hstored hpublished.2) hbelow hwindow
    have hleft : (0 : ℚ) ≤ s'.toSend := Nat.cast_nonneg _
    linarith
  · have hkept := hsettled.kept hstored (P := fun rate => u ≤ rate ∧ rate ≤ v) hpublished
    obtain ⟨hlow, hhigh⟩ := hkept.le_cells
    obtain ⟨hrates, hcut⟩ := LoadSystem.run_rates (run_load hrun) (guarded_load hrun huncut)
    have hkeeps := LoadSystem.forall_rateActions hsettled hkept hguard fun _ _ _ hkept _ hb => hkept.keeps hb
    have hgranted : (u : ℚ) * Duration.asSecs (stop - start) ≤ s.load.totalGranted (loads actions) + v :=
      RateSystem.le_totalGranted hn hsettled.rates hlow hhigh hkeeps hcut hrates hstart hstop
    linarith

/-- The first second of two workers. The second one fails to send its first datagram, and both have one left. -/
def firstDatagrams (i j : Fin n) : List (UdpAction n) :=
  [.load (.tick 500000000 i), .execute i true true true, .load (.consume 500000001 i), .load (.tick 500000002 j),
    .execute j true true false, .load (.consume 500000003 j), .load (.tick 1000000000 i), .execute i false false true,
    .load (.tick 1000000000 j)]

theorem datagrams_follow_published_five :
    ∃ s s', Run.run UdpEngine.step (new (⟨5, 5, 0, 9⟩ : LineGenerator) (fun _ : Fin 2 => 7) 0)
        [.load (.ui (.turn 1 1)), .load (.store 1), .load (.store 1)] = some s ∧
      Run.run UdpEngine.step s (firstDatagrams 0 1) = some s' ∧
      s'.stat.numRequests = 2 ∧ s'.counted = 3 ∧ s'.toSend = 2 ∧
      s'.stat.bytesTx = data.length * s'.stat.numRequests ∧
      (s'.counted : ℚ) ≤ s.counted + s.toSend + ((5 : ℕ) * Duration.asSecs (1000000000 - 0) + (5 : ℕ)) ∧
      (s.counted : ℚ) + s.toSend + (5 : ℕ) * Duration.asSecs (1000000000 - 0) ≤
        s'.counted + s'.toSend + (5 : ℕ) := by
  have hruns : ((Run.run UdpEngine.step (new (⟨5, 5, 0, 9⟩ : LineGenerator) (fun _ : Fin 2 => 7) 0)
      [.load (.ui (.turn 1 1)), .load (.store 1), .load (.store 1)]).bind fun s =>
        (Run.run UdpEngine.step s (firstDatagrams 0 1)).map fun s' =>
          decide ((s.load.toStore = [] ∧ 5 ≤ s.load.ui.control.loop.generator ∧
              s.load.ui.control.loop.generator ≤ 5) ∧
            Run.Guarded UdpEngine.step (OfLoad (LoadSystem.PollsOnly fun rate => 5 ≤ rate ∧ rate ≤ 5)) s
              (firstDatagrams 0 1) ∧
            Run.Guarded UdpEngine.step (OfLoad LoadSystem.Uncut) s (firstDatagrams 0 1) ∧
            (∀ j, (s.load.rates.workers j).shaper.prevTs ≤ 0) ∧
            (∀ j, 1000000000 ≤ (s'.load.rates.workers j).shaper.prevTs) ∧
            s'.stat.numRequests = 2 ∧ s'.counted = 3 ∧ s'.toSend = 2)) = some true := by decide +kernel
  obtain ⟨s, hbefore, hs⟩ := Option.bind_eq_some_iff.mp hruns
  obtain ⟨s', hrun, hfacts⟩ := Option.map_eq_some_iff.mp hs
  obtain ⟨⟨hstored, hpublished⟩, hpolls, huncut, hstart, hstop, hrequests, hcounted, htoSend⟩ :=
    of_decide_eq_true hfacts
  obtain ⟨hbytes, habove, hbelow⟩ := datagrams_follow_published (by decide) (⟨5, 5, 0, 9⟩ : LineGenerator)
    (fun _ : Fin 2 => 7) 0 [.load (.ui (.turn 1 1)), .load (.store 1), .load (.store 1)] (firstDatagrams 0 1)
    s s' hbefore hstored hrun 5 5 0 1000000000 hpublished hpolls
  exact ⟨s, s', hbefore, hrun, hrequests, hcounted, htoSend, hbytes, habove (by decide +kernel),
    hbelow huncut hstart hstop⟩

end UdpEngine

end Dwd
