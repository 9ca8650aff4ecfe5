import Dwd.Histogram

/-! The statistics of the HTTP engines. Every thread has counters and a latency histogram of its own,
which the workers of the thread update; what is shown is added up over the threads. All updates only
add, so what a counter holds is the sum of what the updates weigh in it, in whatever order they came. -/

namespace Dwd

structure TxWorkerStat where
  numRequests : ℕ
  bytesTx : ℕ

structure RxWorkerStat where
  numResponses : ℕ
  bytesRx : ℕ
  numTimeouts : ℕ
  hist : PerCpuLogHistogram

structure SockWorkerStat where
  numSockCreated : ℕ
  numSockErrors : ℕ
  numRetransmits : ℕ

structure HttpWorkerStat where
  num2xx : ℕ
  num3xx : ℕ
  num4xx : ℕ
  num5xx : ℕ

structure PerCpuStat where
  tx : TxWorkerStat
  rx : RxWorkerStat
  sock : SockWorkerStat
  http : HttpWorkerStat

namespace PerCpuStat

def default : PerCpuStat where
  tx := { numRequests := 0, bytesTx := 0 }
  rx := { numResponses := 0, bytesRx := 0, numTimeouts := 0, hist := PerCpuLogHistogram.default }
  sock := { numSockCreated := 0, numSockErrors := 0, numRetransmits := 0 }
  http := { num2xx := 0, num3xx := 0, num4xx := 0, num5xx := 0 }

def onRequests (v : ℕ) (s : PerCpuStat) : PerCpuStat :=
  { s with tx := { s.tx with numRequests := s.tx.numRequests + v } }

def onSend (n : ℕ) (s : PerCpuStat) : PerCpuStat :=
  { s with tx := { s.tx with bytesTx := s.tx.bytesTx + n } }

/-- `on_response`, the elapsed time being `us` microseconds. -/
def onResponse (us : ℕ) (s : PerCpuStat) : PerCpuStat :=
  { s with rx := { s.rx with numResponses := s.rx.numResponses + 1, hist := s.rx.hist.record us } }

def onRecv (n : ℕ) (s : PerCpuStat) : PerCpuStat :=
  { s with rx := { s.rx with bytesRx := s.rx.bytesRx + n } }

/-- `on_timeout`, the elapsed time being `us` microseconds. -/
def onTimeout (us : ℕ) (s : PerCpuStat) : PerCpuStat :=
  { s with rx := { s.rx with numTimeouts := s.rx.numTimeouts + 1, hist := s.rx.hist.record us } }

def onSockCreated (s : PerCpuStat) : PerCpuStat :=
  { s with sock := { s.sock with numSockCreated := s.sock.numSockCreated + 1 } }

def onSockErr (s : PerCpuStat) : PerCpuStat :=
  { s with sock := { s.sock with numSockErrors := s.sock.numSockErrors + 1 } }

def onRetransmits (v : ℕ) (s : PerCpuStat) : PerCpuStat :=
  { s with sock := { s.sock with numRetransmits := s.sock.numRetransmits + v } }

def on2xx (s : PerCpuStat) : PerCpuStat :=
  { s with http := { s.http with num2xx := s.http.num2xx + 1 } }

def on3xx (s : PerCpuStat) : PerCpuStat :=
  { s with http := { s.http with num3xx := s.http.num3xx + 1 } }

def on4xx (s : PerCpuStat) : PerCpuStat :=
  { s with http := { s.http with num4xx := s.http.num4xx + 1 } }

def on5xx (s : PerCpuStat) : PerCpuStat :=
  { s with http := { s.http with num5xx := s.http.num5xx + 1 } }

end PerCpuStat

/-- An update of the statistics of a thread. -/
inductive StatOp where
  | onRequests (v : ℕ)
  | onSend (n : ℕ)
  | onResponse (us : ℕ)
  | onRecv (n : ℕ)
  | onTimeout (us : ℕ)
  | onSockCreated
  | onSockErr
  | onRetransmits (v : ℕ)
  | on2xx
  | on3xx
  | on4xx
  | on5xx
  deriving DecidableEq, Repr

def StatOp.apply (s : PerCpuStat) : StatOp → PerCpuStat
  | .onRequests v => s.onRequests v
  | .onSend n => s.onSend n
  | .onResponse us => s.onResponse us
  | .onRecv n => s.onRecv n
  | .onTimeout us => s.onTimeout us
  | .onSockCreated => s.onSockCreated
  | .onSockErr => s.onSockErr
  | .onRetransmits v => s.onRetransmits v
  | .on2xx => s.on2xx
  | .on3xx => s.on3xx
  | .on4xx => s.on4xx
  | .on5xx => s.on5xx

def PerCpuStat.applyAll (ops : List StatOp) (s : PerCpuStat) : PerCpuStat := ops.foldl StatOp.apply s

/-- The statistics of all threads. -/
structure Stat where
  stats : List PerCpuStat

namespace Stat

def numRequests (s : Stat) : ℕ := (s.stats.map fun v => v.tx.numRequests).sum

def bytesTx (s : Stat) : ℕ := (s.stats.map fun v => v.tx.bytesTx).sum

def numResponses (s : Stat) : ℕ := (s.stats.map fun v => v.rx.numResponses).sum

def numTimeouts (s : Stat) : ℕ := (s.stats.map fun v => v.rx.numTimeouts).sum

def bytesRx (s : Stat) : ℕ := (s.stats.map fun v => v.rx.bytesRx).sum

def hist (s : Stat) : LogHistogram := LogHistogram.merge (s.stats.map fun v => v.rx.hist)

def numSockCreated (s : Stat) : ℕ := (s.stats.map fun v => v.sock.numSockCreated).sum

def numSockErrors (s : Stat) : ℕ := (s.stats.map fun v => v.sock.numSockErrors).sum

def numRetransmits (s : Stat) : ℕ := (s.stats.map fun v => v.sock.numRetransmits).sum

def num2xx (s : Stat) : ℕ := (s.stats.map fun v => v.http.num2xx).sum

def num3xx (s : Stat) : ℕ := (s.stats.map fun v => v.http.num3xx).sum

def num4xx (s : Stat) : ℕ := (s.stats.map fun v => v.http.num4xx).sum

def num5xx (s : Stat) : ℕ := (s.stats.map fun v => v.http.num5xx).sum

end Stat

/-- What is counted; `recorded` is the number of latencies in the histogram. -/
inductive Counter where
  | requests
  | bytesTx
  | responses
  | timeouts
  | bytesRx
  | recorded
  | sockCreated
  | sockErrors
  | retransmits
  | num2xx
  | num3xx
  | num4xx
  | num5xx
  deriving DecidableEq, Repr

def PerCpuStat.count (s : PerCpuStat) : Counter → ℕ
  | .requests => s.tx.numRequests
  | .bytesTx => s.tx.bytesTx
  | .responses => s.rx.numResponses
  | .timeouts => s.rx.numTimeouts
  | .bytesRx => s.rx.bytesRx
  | .recorded => s.rx.hist.buckets.sum
  | .sockCreated => s.sock.numSockCreated
  | .sockErrors => s.sock.numSockErrors
  | .retransmits => s.sock.numRetransmits
  | .num2xx => s.http.num2xx
  | .num3xx => s.http.num3xx
  | .num4xx => s.http.num4xx
  | .num5xx => s.http.num5xx

/-- What an update adds to a counter. -/
def StatOp.weight : StatOp → Counter → ℕ
  | .onRequests v, .requests => v
  | .onSend n, .bytesTx => n
  | .onResponse _, .responses => 1
  | .onResponse _, .recorded => 1
  | .onRecv n, .bytesRx => n
  | .onTimeout _, .timeouts => 1
  | .onTimeout _, .recorded => 1
  | .onSockCreated, .sockCreated => 1
  | .onSockErr, .sockErrors => 1
  | .onRetransmits v, .retransmits => v
  | .on2xx, .num2xx => 1
  | .on3xx, .num3xx => 1
  | .on4xx, .num4xx => 1
  | .on5xx, .num5xx => 1
  | _, _ => 0

theorem sum_modify_succ {buckets : List ℕ} {idx : ℕ} (h : idx < buckets.length) :
    (buckets.modify idx (· + 1)).sum = buckets.sum + 1 := by
  induction buckets generalizing idx with
  | nil => cases h
  | cons b buckets ih =>
      cases idx with
      | zero =>
          rw [List.modify_zero_cons, List.sum_cons, List.sum_cons]
          omega
      | succ idx =>
          rw [List.modify_succ_cons, List.sum_cons, List.sum_cons, ih (by simpa using h)]
          omega

theorem PerCpuLogHistogram.sum_record (us : ℕ) (h : PerCpuLogHistogram) :
    (h.record us).buckets.sum = h.buckets.sum + 1 := by
  have hpos : 0 < h.buckets.length := List.length_pos_iff_ne_nil.mpr h.nonempty
  have hle : bucketIndex h.buckets.length us ≤ h.buckets.length - 1 := min_le_right _ _
  apply sum_modify_succ
  omega

theorem StatOp.count_apply (op : StatOp) (s : PerCpuStat) (c : Counter) :
    (op.apply s).count c = s.count c + op.weight c := by
  cases op with
  | onResponse us =>
      cases c with
      | recorded => exact PerCpuLogHistogram.sum_record us s.rx.hist
      | _ => rfl
  | onTimeout us =>
      cases c with
      | recorded => exact PerCpuLogHistogram.sum_record us s.rx.hist
      | _ => rfl
  | _ => cases c <;> rfl

/-- What a list of updates adds to a counter. -/
def total (c : Counter) (ops : List StatOp) : ℕ := (ops.map fun op => op.weight c).sum

theorem total_cons (c : Counter) (op : StatOp) (ops : List StatOp) :
    total c (op :: ops) = op.weight c + total c ops := by
  rw [total, List.map_cons, List.sum_cons]
  rfl

theorem total_append (c : Counter) (ops ops' : List StatOp) :
    total c (ops ++ ops') = total c ops + total c ops' := by
  rw [total, List.map_append, List.sum_append]
  rfl

theorem total_perm (c : Counter) {ops ops' : List StatOp} (h : ops.Perm ops') :
    total c ops = total c ops' := (h.map _).sum_eq

theorem PerCpuStat.count_applyAll (ops : List StatOp) (s : PerCpuStat) (c : Counter) :
    (s.applyAll ops).count c = s.count c + total c ops := by
  induction ops generalizing s with
  | nil => rfl
  | cons op ops ih =>
      show ((op.apply s).applyAll ops).count c = _
      rw [ih, StatOp.count_apply, total_cons, Nat.add_assoc]

theorem PerCpuStat.count_default (c : Counter) : default.count c = 0 := by
  cases c with
  | recorded =>
      show PerCpuLogHistogram.default.buckets.sum = 0
      rw [PerCpuLogHistogram.default_buckets]
      rfl
  | _ => rfl

namespace LogHistogram

theorem sum_addBuckets {snapshot buckets : List ℕ} (h : buckets.length ≤ snapshot.length) :
    (addBuckets snapshot buckets).sum = snapshot.sum + buckets.sum := by
  induction snapshot generalizing buckets with
  | nil =>
      obtain rfl : buckets = [] := List.length_eq_zero_iff.mp (Nat.le_zero.mp h)
      rfl
  | cons count snapshot ih =>
      cases buckets with
      | nil => rfl
      | cons b buckets =>
          rw [addBuckets, List.sum_cons, List.sum_cons, List.sum_cons, ih (by simpa using h)]
          omega

theorem sum_addHist (snapshot : List ℕ) (h : PerCpuLogHistogram) :
    (addHist snapshot h).sum = snapshot.sum + h.buckets.sum := by
  unfold addHist
  by_cases hlt : snapshot.length < h.buckets.length
  · simp only [hlt, if_true]
    rw [sum_addBuckets, List.sum_append, List.sum_replicate, smul_zero, Nat.add_zero]
    rw [List.length_append, List.length_replicate]
    omega
  · simp only [hlt, if_false]
    exact sum_addBuckets (not_lt.mp hlt)

/-- The merged histogram holds as many latencies as the histograms together. -/
theorem size_merge_eq (hists : List PerCpuLogHistogram) :
    (merge hists).size = (hists.map fun h => h.buckets.sum).sum := by
  have hfold : ∀ snapshot : List ℕ,
      (hists.foldl addHist snapshot).sum = snapshot.sum + (hists.map fun h => h.buckets.sum).sum := by
    induction hists with
    | nil =>
        intro snapshot
        rfl
    | cons h hists ih =>
        intro snapshot
        rw [List.foldl_cons, ih, sum_addHist, List.map_cons, List.sum_cons, Nat.add_assoc]
  exact (hfold []).trans (Nat.zero_add _)

end LogHistogram

/-- What all threads together have counted. -/
def Stat.count (s : Stat) (c : Counter) : ℕ := (s.stats.map fun v => v.count c).sum

theorem Stat.hist_size (s : Stat) : s.hist.size = s.count .recorded := by
  rw [hist, LogHistogram.size_merge_eq, List.map_map]
  rfl

end Dwd
