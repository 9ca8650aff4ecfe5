import Dwd.RateControl
import Mathlib.Data.PNat.Basic

/-! How the http, http/raw and http3 engines start. `new` deals the limit cells out to the threads, and
`run` starts the threads, each with one shaped worker for each of its cells. A thread without a cell has
a task pool of no size, which is no `NonZero`: starting it panics. So an engine starts cleanly only when
it has as many cells as threads. -/

namespace Dwd

/-- The part of the configuration that decides how an engine starts. The command line has `NonZero`
numbers only. -/
structure EngineConfig where
  threads : ℕ+
  concurrency : ℕ+
  tls : Bool

/-- A shaped worker: its thread, and the limit cell that its shaper follows. -/
structure StartedWorker where
  thread : ℕ
  cell : ℕ
  deriving DecidableEq, Repr

/-- How `run` goes: it ends with an error before it starts anything; or the workers run; or it panics,
when the workers of some threads run already. -/
inductive Startup where
  | error
  | running (workers : List StartedWorker)
  | panicked (workers : List StartedWorker)
  deriving DecidableEq, Repr

namespace Engine

/-- The loop of `new`: `jobs` cells more, from the cell `idx` on. -/
def deal (len : ℕ) : ℕ → ℕ → List (List ℕ) → List (List ℕ)
  | 0, _, limits => limits
  | jobs + 1, idx, limits => deal len jobs (idx + 1) (limits.modify (idx % len) (· ++ [idx]))

/-- The `limits` of `new`. A cell is known by its number, in the order in which they are created. -/
def newLimits (cfg : EngineConfig) : List (List ℕ) :=
  deal cfg.threads cfg.concurrency 0 (List.replicate cfg.threads [])

/-- `LocalTaskPool::new` and what it runs on a thread: one worker for each of the thread's cells. The
number of tasks is unwrapped. -/
def taskPool (tid : ℕ) (limits : List ℕ) : Option (List StartedWorker) :=
  if limits.length = 0 then none else some (limits.map fun cell => ⟨tid, cell⟩)

/-- The loop of `ThreadPool::run`: `threads` threads more, from the thread `tid` on. The pool of a thread
is made by the thread that starts it. -/
def spawnThreads (limits : List (List ℕ)) : ℕ → ℕ → List StartedWorker → Startup
  | 0, _, workers => .running workers
  | threads + 1, tid, workers =>
      match limits[tid]?.bind (taskPool tid) with
      | none => .panicked workers
      | some pool => spawnThreads limits threads (tid + 1) (workers ++ pool)

/-- `Engine::run` of the http engine, `tlsNew` saying whether the TLS client can be made. -/
def runHttp (tlsNew : Bool) (cfg : EngineConfig) : Startup :=
  if cfg.tls && !tlsNew then .error else spawnThreads (newLimits cfg) cfg.threads 0 []

/-- `EngineRaw::run`: there is no TLS in the http/raw mode. -/
def runHttpRaw (cfg : EngineConfig) : Startup :=
  if cfg.tls then .error else spawnThreads (newLimits cfg) cfg.threads 0 []

/-- `Engine::run` of the http3 engine, `quicConfig` saying whether the TLS configuration is valid. -/
def runHttp3 (quicConfig : Bool) (cfg : EngineConfig) : Startup :=
  if !quicConfig then .error else spawnThreads (newLimits cfg) cfg.threads 0 []

/-- What `run_generator` stores into the cells, in the order in which the engine hands them out. -/
def published (limits : List (List ℕ)) (v : ℕ) : List (ℕ × ℕ) :=
  limits.flatten.zip (distribute v limits.flatten.length)

/-- What is stored into the cells of these workers. -/
def owned (workers : List StartedWorker) (stored : List (ℕ × ℕ)) : ℕ :=
  ((stored.filter fun p => workers.any fun w => w.cell = p.1).map Prod.snd).sum

end Engine

open Engine

/-- A clean start: as many lists of cells as threads, with all cells in them, of sizes that differ by at
most one; on each thread one worker for each cell of its list, and no other worker; and the whole target
goes to cells that running workers follow. -/
structure StartsCleanly (cfg : EngineConfig) (startup : Startup) : Prop where
  lists : (newLimits cfg).length = cfg.threads
  cells : (newLimits cfg).flatten.Perm (List.range cfg.concurrency)
  balanced : ∀ cells ∈ newLimits cfg, ∀ cells' ∈ newLimits cfg, cells.length ≤ cells'.length + 1
  workers : ∃ workers, startup = .running workers ∧
    (∀ tid cells, (newLimits cfg)[tid]? = some cells →
      (workers.filter fun w => w.thread = tid).map StartedWorker.cell = cells) ∧
    (∀ w ∈ workers, w.thread < cfg.threads) ∧ ∀ v, owned workers (published (newLimits cfg) v) = v

namespace Engine

/-- Another cell goes to one list. -/
theorem share_succ {n t : ℕ} (v : ℕ) (ht : t < n) :
    share (v + 1) n t = share v n t + if v % n = t then 1 else 0 := by
  rw [share_eq_visits ht, share_eq_visits ht, Ring.visits_succ]

/-- Every list has a cell when there are as many cells as lists, and only then. -/
theorem share_pos_iff {n v : ℕ} (hn : 0 < n) : (∀ t < n, 0 < share v n t) ↔ n ≤ v := by
  have hmod := Nat.mod_lt v hn
  constructor
  · intro h
    have hlast := h (n - 1) (by omega)
    unfold share at hlast
    rw [if_neg (by omega)] at hlast
    exact (Nat.div_pos_iff.mp hlast).2
  · intro h t _
    have hdiv := Nat.div_pos h hn
    simp only [share]
    split_ifs <;> omega

theorem share_le_succ (v n t t' : ℕ) : share v n t ≤ share v n t' + 1 := by
  simp only [share]
  split_ifs <;> omega

/-- After `idx` cells: the lists have the sizes that a rate of `idx` would be split into, and each cell
is in one of them. -/
structure Dealt (n idx : ℕ) (limits : List (List ℕ)) : Prop where
  length : limits.length = n
  sizes : ∀ t (h : t < limits.length), limits[t].length = share idx n t
  cells : limits.flatten.Perm (List.range idx)

theorem flatten_modify_concat {limits : List (List ℕ)} {t : ℕ} (ht : t < limits.length) (cell : ℕ) :
    (limits.modify t (· ++ [cell])).flatten.Perm (limits.flatten ++ [cell]) := by
  induction limits generalizing t with
  | nil => cases ht
  | cons cells limits ih =>
      cases t with
      | zero =>
          simp only [List.modify_zero_cons, List.flatten_cons, List.append_assoc]
          exact (List.perm_append_comm).append_left cells
      | succ t =>
          simp only [List.modify_succ_cons, List.flatten_cons, List.append_assoc]
          exact (ih (Nat.lt_of_succ_lt_succ ht)).append_left cells

theorem Dealt.push {n idx : ℕ} {limits : List (List ℕ)} (hn : 0 < n) (h : Dealt n idx limits) :
    Dealt n (idx + 1) (limits.modify (idx % n) (· ++ [idx])) := by
  have hlt : idx % n < limits.length := by
    rw [h.length]
    exact Nat.mod_lt idx hn
  refine ⟨by rw [List.length_modify, h.length], fun t ht => ?_, ?_⟩
  · rw [List.length_modify] at ht
    rw [List.getElem_modify, share_succ idx (h.length ▸ ht)]
    split_ifs with heq
    · rw [List.length_append, h.sizes t ht, List.length_singleton]
    · rw [h.sizes t ht, Nat.add_zero]
  · rw [List.range_succ]
    exact (flatten_modify_concat hlt idx).trans (h.cells.append_right [idx])

theorem Dealt.deal {n jobs idx : ℕ} {limits : List (List ℕ)} (hn : 0 < n) (h : Dealt n idx limits) :
    Dealt n (idx + jobs) (Engine.deal n jobs idx limits) := by
  induction jobs generalizing idx limits with
  | zero => exact h
  | succ jobs ih =>
      have hrest := ih (h.push hn)
      rwa [Nat.add_right_comm, Nat.add_assoc] at hrest

theorem newLimits_dealt (cfg : EngineConfig) : Dealt cfg.threads cfg.concurrency (newLimits cfg) := by
  have hempty : Dealt cfg.threads 0 (List.replicate cfg.threads []) :=
    ⟨List.length_replicate, by simp [share], by simp⟩
  have hdealt : Dealt cfg.threads (0 + cfg.concurrency) (newLimits cfg) := hempty.deal cfg.threads.pos
  rwa [Nat.zero_add] at hdealt

/-- The workers of the threads from `tid` on, whose lists these are. -/
def workersFrom : ℕ → List (List ℕ) → List StartedWorker
  | _, [] => []
  | tid, cells :: limits => cells.map (fun cell => ⟨tid, cell⟩) ++ workersFrom (tid + 1) limits

theorem map_cell_workersFrom (tid : ℕ) (limits : List (List ℕ)) :
    (workersFrom tid limits).map StartedWorker.cell = limits.flatten := by
  induction limits generalizing tid with
  | nil => rfl
  | cons cells limits ih =>
      rw [workersFrom, List.map_append, List.map_map, ih, List.flatten_cons]
      congr 1
      exact List.map_id cells

theorem thread_of_mem_workersFrom {tid : ℕ} {limits : List (List ℕ)} {w : StartedWorker}
    (h : w ∈ workersFrom tid limits) : tid ≤ w.thread ∧ w.thread < tid + limits.length := by
  induction limits generalizing tid with
  | nil => cases h
  | cons cells limits ih =>
      rw [List.length_cons]
      rcases List.mem_append.mp h with h | h
      · obtain ⟨cell, -, rfl⟩ := List.mem_map.mp h
        exact ⟨le_rfl, by simp only; omega⟩
      · obtain ⟨hle, hlt⟩ := ih h
        omega

/-- The workers of one of the threads have the cells of its list. -/
theorem filter_workersFrom (tid t : ℕ) (limits : List (List ℕ)) :
    ((workersFrom tid limits).filter fun w => w.thread = tid + t).map StartedWorker.cell =
      (limits[t]?).getD [] := by
  induction limits generalizing tid t with
  | nil => rfl
  | cons cells limits ih =>
      rw [workersFrom, List.filter_append, List.map_append]
      cases t with
      | zero =>
          have hfirst : (cells.map fun cell => (⟨tid, cell⟩ : StartedWorker)).filter
              (fun w => w.thread = tid + 0) = cells.map fun cell => ⟨tid, cell⟩ :=
            List.filter_eq_self.mpr (by simp)
          have hothers : (workersFrom (tid + 1) limits).filter (fun w => w.thread = tid + 0) = [] := by
            apply List.filter_eq_nil_iff.mpr
            intro w hw
            have hle := (thread_of_mem_workersFrom hw).1
            simp only [decide_eq_true_eq]
            omega
          rw [hfirst, hothers, List.map_nil, List.append_nil, List.map_map]
          exact List.map_id cells
      | succ t =>
          have hfirst : (cells.map fun cell => (⟨tid, cell⟩ : StartedWorker)).filter
              (fun w => w.thread = tid + (t + 1)) = [] := List.filter_eq_nil_iff.mpr (by simp)
          have hothers := ih (tid + 1) t
          rw [Nat.add_right_comm, Nat.add_assoc] at hothers
          rw [hfirst, List.map_nil, List.nil_append, hothers]
          rfl

/-- When every thread has a cell, all threads are started. -/
theorem spawnThreads_eq_running {limits rest : List (List ℕ)} {tid : ℕ} (workers : List StartedWorker)
    (hrest : limits.drop tid = rest) (hcells : ∀ cells ∈ rest, cells ≠ []) :
    spawnThreads limits rest.length tid workers = .running (workers ++ workersFrom tid rest) := by
  induction rest generalizing tid workers with
  | nil => rw [workersFrom, List.append_nil]; rfl
  | cons cells rest ih =>
      have hget : limits[tid]? = some cells := by rw [← List.head?_drop, hrest]; rfl
      have hdrop : limits.drop (tid + 1) = rest := by rw [← List.tail_drop, hrest]; rfl
      have hpool : taskPool tid cells = some (cells.map fun cell => ⟨tid, cell⟩) := by
        have hlength : cells.length ≠ 0 := mt List.length_eq_zero_iff.mp (hcells cells List.mem_cons_self)
        rw [taskPool, if_neg hlength]
      rw [List.length_cons, spawnThreads, hget, Option.bind_some, hpool]
      simp only
      rw [ih _ hdrop fun cells hmem => hcells cells (List.mem_cons_of_mem _ hmem), workersFrom,
        List.append_assoc]

/-- When the threads are started, every one has a cell. -/
theorem cells_of_running {limits : List (List ℕ)} {threads tid : ℕ} {workers workers' : List StartedWorker}
    (h : spawnThreads limits threads tid workers = .running workers') :
    ∀ t, tid ≤ t → t < tid + threads → ∃ cells, limits[t]? = some cells ∧ cells ≠ [] := by
  induction threads generalizing tid workers with
  | zero =>
      intro t hle hlt
      omega
  | succ threads ih =>
      rw [spawnThreads] at h
      cases hpool : limits[tid]?.bind (taskPool tid) with
      | none =>
          rw [hpool] at h
          cases h
      | some pool =>
          rw [hpool] at h
          obtain ⟨cells, hget, htask⟩ := Option.bind_eq_some_iff.mp hpool
          intro t hle hlt
          by_cases ht : t = tid
          · subst ht
            refine ⟨cells, hget, ?_⟩
            rintro rfl
            cases htask
          · exact ih h t (by omega) (by omega)

/-- All that is stored goes to running workers when they have all the cells. -/
theorem owned_published {limits : List (List ℕ)} {workers : List StartedWorker}
    (hworkers : workers.map StartedWorker.cell = limits.flatten) (hcells : 0 < limits.flatten.length) (v : ℕ) :
    owned workers (published limits v) = v := by
  have hall : (published limits v).filter (fun p => workers.any fun w => w.cell = p.1) =
      published limits v := by
    apply List.filter_eq_self.mpr
    rintro ⟨cell, value⟩ hmem
    have hcell : cell ∈ workers.map StartedWorker.cell := hworkers ▸ (List.of_mem_zip hmem).1
    obtain ⟨w, hw, heq⟩ := List.mem_map.mp hcell
    exact List.any_eq_true.mpr ⟨w, hw, by simpa using heq⟩
  calc owned workers (published limits v) = ((published limits v).map Prod.snd).sum := by rw [owned, hall]
    _ = (distribute v limits.flatten.length).sum := by
      rw [published, List.map_snd_zip]
      simp [distribute]
    _ = v := sum_distribute v hcells

/-- The threads start cleanly when there are as many cells as threads, and only then. -/
theorem spawnThreads_startsCleanly_iff (cfg : EngineConfig) :
    StartsCleanly cfg (spawnThreads (newLimits cfg) cfg.threads 0 []) ↔ cfg.threads ≤ cfg.concurrency := by
  obtain ⟨hlength, hsizes, hcells⟩ := newLimits_dealt cfg
  rw [← PNat.coe_le_coe, ← share_pos_iff cfg.threads.pos]
  constructor
  · intro h t ht
    obtain ⟨workers, hrunning, -⟩ := h.workers
    obtain ⟨cells, hget, hne⟩ := cells_of_running hrunning t (Nat.zero_le t) (by omega)
    obtain ⟨hlt, rfl⟩ := List.getElem?_eq_some_iff.mp hget
    rw [← hsizes t hlt]
    exact List.length_pos_iff.mpr hne
  · intro hpos
    have hne : ∀ cells ∈ newLimits cfg, cells ≠ [] := by
      intro cells hmem
      obtain ⟨t, ht, rfl⟩ := List.mem_iff_getElem.mp hmem
      apply List.length_pos_iff.mp
      rw [hsizes t ht]
      exact hpos t (hlength ▸ ht)
    have hrunning : spawnThreads (newLimits cfg) (newLimits cfg).length 0 [] =
        .running ([] ++ workersFrom 0 (newLimits cfg)) := spawnThreads_eq_running [] List.drop_zero hne
    rw [hlength, List.nil_append] at hrunning
    refine ⟨hlength, hcells, fun cells hmem cells' hmem' => ?_, _, hrunning, fun tid cells hget => ?_,
      fun w hw => ?_, fun v => ?_⟩
    · obtain ⟨t, ht, rfl⟩ := List.mem_iff_getElem.mp hmem
      obtain ⟨t', ht', rfl⟩ := List.mem_iff_getElem.mp hmem'
      rw [hsizes t ht, hsizes t' ht']
      exact share_le_succ _ _ t t'
    · have hfilter := filter_workersFrom 0 tid (newLimits cfg)
      rwa [Nat.zero_add, hget] at hfilter
    · rw [← hlength]
      have hthread := (thread_of_mem_workersFrom hw).2
      rwa [Nat.zero_add] at hthread
    · apply owned_published (map_cell_workersFrom 0 (newLimits cfg))
      rw [hcells.length_eq, List.length_range]
      exact cfg.concurrency.pos

theorem not_startsCleanly_error (cfg : EngineConfig) : ¬ StartsCleanly cfg .error := by
  intro h
  obtain ⟨workers, hrunning, -⟩ := h.workers
  cases hrunning

end Engine

/-- **An engine starts cleanly exactly when it has at least as many cells as threads**, and does not
refuse its TLS configuration. -/
theorem startsCleanly_iff (cfg : EngineConfig) (tlsNew quicConfig : Bool) :
    (StartsCleanly cfg (runHttp tlsNew cfg) ↔
      (cfg.tls = true → tlsNew = true) ∧ cfg.threads ≤ cfg.concurrency) ∧
    (StartsCleanly cfg (runHttpRaw cfg) ↔ cfg.tls = false ∧ cfg.threads ≤ cfg.concurrency) ∧
    (StartsCleanly cfg (runHttp3 quicConfig cfg) ↔
      quicConfig = true ∧ cfg.threads ≤ cfg.concurrency) := by
  have hiff := spawnThreads_startsCleanly_iff cfg
  have herror := not_startsCleanly_error cfg
  unfold runHttp runHttpRaw runHttp3
  refine ⟨?_, ?_, ?_⟩
  · cases cfg.tls <;> cases tlsNew <;> simp [hiff, herror]
  · cases cfg.tls <;> simp [hiff, herror]
  · cases quicConfig <;> simp [hiff, herror]

/-- Two threads and one cell: the second thread has none. -/
theorem not_startsCleanly_two_threads : ¬ StartsCleanly ⟨2, 1, false⟩ (runHttp true ⟨2, 1, false⟩) := by
  intro h
  obtain ⟨workers, hrunning, -⟩ := h.workers
  have hpanicked : runHttp true ⟨2, 1, false⟩ = .panicked [⟨0, 0⟩] := by decide +kernel
  rw [hpanicked] at hrunning
  cases hrunning

end Dwd
