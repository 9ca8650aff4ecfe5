import Dwd.HttpEngine
import Dwd.HttpOutcome
import Dwd.LibRun
import Mathlib.Algebra.BigOperators.Group.Finset.Basic
import Mathlib.Algebra.Order.BigOperators.Group.Finset

/-! The byte counters of the http engine. A monitor is made for a socket, remembers the number of its
descriptor, and adds what has come since its last reading. It does not own the descriptor: the socket
belongs to the connection task, which may close it, and then the system may give the number to another
socket. A monitor that reads then reads the counters of that one.

While every monitor that reads finds its own socket under the number, or none, the counters are within
what the connections have transferred. -/

namespace Dwd

namespace Http

/-- The counters that a monitor adds to. -/
inductive TcpCounter where
  | bytesTx
  | bytesRx
  | retransmits

def TcpCounter.counter : TcpCounter → Counter
  | .bytesTx => .bytesTx
  | .bytesRx => .bytesRx
  | .retransmits => .retransmits

namespace TcpInfo

/-- What a reading says for a counter. -/
def get (tcpi : TcpInfo) : TcpCounter → ℕ
  | .bytesTx => tcpi.bytesAcked
  | .bytesRx => tcpi.bytesReceived
  | .retransmits => tcpi.totalRetrans

/-- The counters of a connection only grow. -/
def Grows (tcpi tcpi' : TcpInfo) : Prop :=
  tcpi.bytesAcked ≤ tcpi'.bytesAcked ∧ tcpi.bytesReceived ≤ tcpi'.bytesReceived ∧
    tcpi.totalRetrans ≤ tcpi'.totalRetrans

instance (tcpi tcpi' : TcpInfo) : Decidable (tcpi.Grows tcpi') := inferInstanceAs (Decidable (_ ∧ _))

theorem Grows.get_le {tcpi tcpi' : TcpInfo} (h : tcpi.Grows tcpi') (k : TcpCounter) :
    tcpi.get k ≤ tcpi'.get k := by
  cases k with
  | bytesTx => exact h.1
  | bytesRx => exact h.2.1
  | retransmits => exact h.2.2

end TcpInfo

theorem TcpStatMonitor.added_update (m : TcpStatMonitor) (tcpi : TcpInfo) (k : TcpCounter) :
    added k.counter (m.update tcpi) = tcpi.get k - m.tcpInfo.get k := by
  cases k with
  | bytesTx => rfl
  | bytesRx => simp [added, total, statOps, update, StatOp.weight, TcpInfo.get, TcpCounter.counter]
  | retransmits => simp [added, total, statOps, update, StatOp.weight, TcpInfo.get, TcpCounter.counter]

/-- A connection: the number of its descriptor, whether it is open, its counters, and the monitor that
was made for it, until it is dropped. -/
structure Connection where
  fd : ℕ
  isOpen : Bool
  tcpInfo : TcpInfo
  monitor : Option TcpStatMonitor

/-- All connections of the process, in the order in which they were opened, and what the monitors have
done. -/
structure Process where
  conns : List Connection
  effects : List Effect

namespace Process

def new : Process := { conns := [], effects := [] }

/-- `TcpInfo::new`: the counters of the open socket with that number; all zeros when there is none. -/
def readTcpInfo (s : Process) (fd : ℕ) : TcpInfo :=
  match s.conns.find? fun conn => conn.isOpen && conn.fd == fd with
  | some conn => conn.tcpInfo
  | none => .default

end Process

/-- What can happen: a worker opens a socket, and monitors it when it could be bound; a connection
transfers data; a socket is closed, after a failed connect or by the connection task; and the monitor of
a connection is updated or dropped. -/
inductive Action where
  | socket (fd : ℕ) (bound : Bool)
  | transfer (c : ℕ) (tcpInfo : TcpInfo)
  | close (c : ℕ)
  | update (c : ℕ)
  | drop (c : ℕ)

/-- One step of the process. The system gives a number to a new socket only when no open socket has it;
dropping a monitor updates it once more. -/
def step (s : Process) : Action → Option Process
  | .socket fd bound =>
      if s.conns.any fun conn => conn.isOpen && conn.fd == fd then none
      else
        let monitor := if bound then some TcpStatMonitor.new else none
        some { s with conns := s.conns ++ [⟨fd, true, .default, monitor⟩] }
  | .transfer c tcpInfo => do
      let conn ← s.conns[c]?
      if conn.tcpInfo.Grows tcpInfo then
        some { s with conns := s.conns.set c { conn with tcpInfo := tcpInfo } }
      else none
  | .close c => do
      let conn ← s.conns[c]?
      some { s with conns := s.conns.set c { conn with isOpen := false } }
  | .update c => do
      let conn ← s.conns[c]?
      let m ← conn.monitor
      let tcpi := s.readTcpInfo conn.fd
      some { conns := s.conns.set c { conn with monitor := some { tcpInfo := tcpi } }
             effects := s.effects ++ m.update tcpi }
  | .drop c => do
      let conn ← s.conns[c]?
      let m ← conn.monitor
      let tcpi := s.readTcpInfo conn.fd
      some { conns := s.conns.set c { conn with monitor := none }
             effects := s.effects ++ m.update tcpi }

/-- The sum of the connections' own counters. -/
def Process.own (s : Process) (k : TcpCounter) : ℕ := (s.conns.map fun conn => conn.tcpInfo.get k).sum

/-- A monitor that reads finds no open socket but its own under its number. -/
def ReadsOwn (s : Process) : Action → Prop
  | .update c | .drop c => ∀ conn ∈ s.conns[c]?, ∀ i (h : i < s.conns.length),
      s.conns[i].isOpen = true → s.conns[i].fd = conn.fd → i = c
  | _ => True

instance decidableReadsOwn (s : Process) : ∀ a, Decidable (ReadsOwn s a)
  | .update c | .drop c => inferInstanceAs (Decidable (∀ conn ∈ s.conns[c]?, ∀ i (h : i < s.conns.length),
      s.conns[i].isOpen = true → s.conns[i].fd = conn.fd → i = c))
  | .socket .. | .transfer .. | .close .. => isTrue trivial

/-- Of a connection's counter, `n` have been added: no more than there is, and exactly what its monitor
remembers while it is open. -/
structure Covers (k : TcpCounter) (n : ℕ) (conn : Connection) : Prop where
  le : n ≤ conn.tcpInfo.get k
  remembered : ∀ m, conn.monitor = some m → conn.isOpen = true → m.tcpInfo.get k = n

/-- What the monitors have added is what has been added of each connection. -/
def Accounted (k : TcpCounter) (s : Process) : Prop :=
  ∃ counted : ℕ → ℕ, added k.counter s.effects = ∑ i ∈ Finset.range s.conns.length, counted i ∧
    ∀ i conn, s.conns[i]? = some conn → Covers k (counted i) conn

variable {k : TcpCounter} {s s' : Process} {c : ℕ} {conn conn' : Connection}

theorem Accounted.le_own (h : Accounted k s) : added k.counter s.effects ≤ s.own k := by
  obtain ⟨counted, hadded, hcovers⟩ := h
  have hown : s.own k = ∑ i : Fin s.conns.length, s.conns[i].tcpInfo.get k :=
    (Fin.sum_univ_fun_getElem s.conns fun conn => conn.tcpInfo.get k).symm
  rw [hadded, hown, Finset.sum_range]
  apply Finset.sum_le_sum
  intro i _
  exact (hcovers i s.conns[i] (List.getElem?_eq_getElem i.isLt)).le

/-- A change of one connection, and of what is counted of it by as much as is added. -/
theorem Accounted.set (h : Accounted k s) (hconn : s.conns[c]? = some conn) (more : List Effect)
    (hchange : ∀ n, Covers k n conn → Covers k (n + added k.counter more) conn') :
    Accounted k { conns := s.conns.set c conn', effects := s.effects ++ more } := by
  obtain ⟨counted, hadded, hcovers⟩ := h
  have hlt : c < s.conns.length := (List.getElem?_eq_some_iff.mp hconn).1
  refine ⟨Function.update counted c (counted c + added k.counter more), ?_, ?_⟩
  · have hmem : c ∈ Finset.range s.conns.length := Finset.mem_range.mpr hlt
    rw [added_append, hadded, List.length_set, Finset.sum_update_of_mem hmem,
      Finset.sum_eq_add_sum_sdiff_singleton_of_mem hmem counted]
    omega
  · intro i conn'' hi
    rw [List.getElem?_set] at hi
    by_cases hic : c = i
    · subst hic
      rw [if_pos rfl, if_pos hlt] at hi
      obtain rfl : conn' = conn'' := Option.some.inj hi
      rw [Function.update_self]
      exact hchange _ (hcovers c conn hconn)
    · rw [if_neg hic] at hi
      rw [Function.update_of_ne (Ne.symm hic)]
      exact hcovers i conn'' hi

/-- A monitor that finds no open socket but its own reads its own counters, or zeros. -/
theorem readTcpInfo_of_readsOwn (hconn : s.conns[c]? = some conn)
    (hown : ∀ i (h : i < s.conns.length), s.conns[i].isOpen = true → s.conns[i].fd = conn.fd → i = c) :
    s.readTcpInfo conn.fd = if conn.isOpen then conn.tcpInfo else .default := by
  unfold Process.readTcpInfo
  cases hfind : s.conns.find? fun other => other.isOpen && other.fd == conn.fd with
  | some other =>
      have hfound := List.find?_some hfind
      simp only [Bool.and_eq_true, beq_iff_eq] at hfound
      obtain ⟨hopen, hfd⟩ := hfound
      obtain ⟨i, hlt, rfl⟩ := List.mem_iff_getElem.mp (List.mem_of_find?_eq_some hfind)
      obtain rfl : i = c := hown i hlt hopen hfd
      obtain rfl : s.conns[i] = conn := (List.getElem?_eq_some_iff.mp hconn).2
      rw [if_pos hopen]
  | none =>
      have hclosed := List.find?_eq_none.mp hfind conn (List.mem_of_getElem? hconn)
      simp only [beq_self_eq_true, Bool.and_true] at hclosed
      rw [if_neg hclosed]

/-- A reading of the own counters adds what is not counted yet; a reading of a closed socket adds
nothing, and what it makes the monitor remember is of no account. -/
theorem Covers.read {n : ℕ} {m : TcpStatMonitor} {tcpi : TcpInfo} (h : Covers k n conn)
    (hm : conn.monitor = some m) (htcpi : tcpi = if conn.isOpen then conn.tcpInfo else .default)
    (monitor : Option TcpStatMonitor) (hmonitor : ∀ m', monitor = some m' → m'.tcpInfo = tcpi) :
    Covers k (n + added k.counter (m.update tcpi)) { conn with monitor := monitor } := by
  rw [TcpStatMonitor.added_update]
  have hle := h.le
  by_cases hopen : conn.isOpen = true
  · rw [if_pos hopen] at htcpi
    have hremembered := h.remembered m hm hopen
    rw [htcpi, hremembered]
    refine ⟨?_, fun m' hm' _ => ?_⟩
    · show n + (conn.tcpInfo.get k - n) ≤ conn.tcpInfo.get k
      omega
    · rw [hmonitor m' hm', htcpi]
      omega
  · rw [if_neg hopen] at htcpi
    have hzero : tcpi.get k = 0 := by
      rw [htcpi]
      cases k <;> rfl
    rw [hzero, Nat.zero_sub, Nat.add_zero]
    exact ⟨hle, fun m' _ hopen' => absurd hopen' hopen⟩

theorem Accounted.new : Accounted k .new := ⟨fun _ => 0, rfl, by simp [Process.new]⟩

theorem Accounted.socket (h : Accounted k s) (fd : ℕ) (monitor : Option TcpStatMonitor)
    (hmonitor : ∀ m, monitor = some m → m = .new) :
    Accounted k { s with conns := s.conns ++ [⟨fd, true, .default, monitor⟩] } := by
  obtain ⟨counted, hadded, hcovers⟩ := h
  have hzero : TcpInfo.default.get k = 0 := by cases k <;> rfl
  refine ⟨Function.update counted s.conns.length 0, ?_, ?_⟩
  · rw [hadded, List.length_append, List.length_singleton, Finset.sum_range_succ, Function.update_self,
      Nat.add_zero]
    apply Finset.sum_congr rfl
    intro i hi
    rw [Function.update_of_ne (Finset.mem_range.mp hi).ne]
  · intro i conn hi
    by_cases hlt : i < s.conns.length
    · rw [List.getElem?_append_left hlt] at hi
      rw [Function.update_of_ne hlt.ne]
      exact hcovers i conn hi
    · rw [List.getElem?_append_right (not_lt.mp hlt), List.getElem?_singleton] at hi
      split_ifs at hi with hlast
      obtain rfl : i = s.conns.length := by omega
      obtain rfl := Option.some.inj hi
      rw [Function.update_self]
      refine ⟨Nat.zero_le _, fun m hm _ => ?_⟩
      rw [hmonitor m hm]
      exact hzero

/-- A step keeps the account when the monitor that reads, if there is one, finds its own socket or
none. -/
theorem Accounted.step {a : Action} (h : Accounted k s) (hown : ReadsOwn s a)
    (hstep : Http.step s a = some s') : Accounted k s' := by
  cases a with
  | socket fd bound =>
      simp only [Http.step] at hstep
      split_ifs at hstep with hused
      · obtain rfl := Option.some.inj hstep
        exact h.socket fd _ (by simp)
      · obtain rfl := Option.some.inj hstep
        exact h.socket fd _ (by simp)
  | transfer c tcpInfo =>
      simp only [Http.step] at hstep
      obtain ⟨conn, hconn, hstep⟩ := Option.bind_eq_some_iff.mp hstep
      split_ifs at hstep with hgrows
      obtain rfl := Option.some.inj hstep
      have hset := h.set hconn [] fun n hn =>
        (⟨hn.le.trans (hgrows.get_le k), hn.remembered⟩ : Covers k n { conn with tcpInfo := tcpInfo })
      rwa [List.append_nil] at hset
  | close c =>
      simp only [Http.step] at hstep
      obtain ⟨conn, hconn, hstep⟩ := Option.bind_eq_some_iff.mp hstep
      obtain rfl := Option.some.inj hstep
      have hset := h.set hconn [] fun n hn =>
        (⟨hn.le, fun m _ hopen => by cases hopen⟩ : Covers k n { conn with isOpen := false })
      rwa [List.append_nil] at hset
  | update c =>
      simp only [Http.step] at hstep
      obtain ⟨conn, hconn, hstep⟩ := Option.bind_eq_some_iff.mp hstep
      obtain ⟨m, hm, hstep⟩ := Option.bind_eq_some_iff.mp hstep
      obtain rfl := Option.some.inj hstep
      have hread := readTcpInfo_of_readsOwn hconn (hown conn hconn)
      refine h.set hconn _ fun n hn => hn.read hm hread _ ?_
      rintro m' ⟨rfl⟩
      rfl
  | drop c =>
      simp only [Http.step] at hstep
      obtain ⟨conn, hconn, hstep⟩ := Option.bind_eq_some_iff.mp hstep
      obtain ⟨m, hm, hstep⟩ := Option.bind_eq_some_iff.mp hstep
      obtain rfl := Option.some.inj hstep
      have hread := readTcpInfo_of_readsOwn hconn (hown conn hconn)
      refine h.set hconn _ fun n hn => hn.read hm hread _ ?_
      rintro m' ⟨⟩

/-- **The byte counters are within what the connections have transferred**, in every run in which a
monitor reads only while its number belongs to its own connection or to none. -/
theorem added_le_own (k : TcpCounter) {actions : List Action} {s : Process}
    (hown : Run.Guarded step ReadsOwn .new actions) (hrun : Run.run step .new actions = some s) :
    added k.counter s.effects ≤ s.own k := by
  have haccounted : Accounted k s :=
    Run.invariant_of_guarded (fun _ _ _ h hown hstep => h.step hown hstep) Accounted.new hown hrun
  exact haccounted.le_own

/-- A reading in which only bytes were sent. -/
def TcpInfo.sent (bytesAcked : ℕ) : TcpInfo := { TcpInfo.default with bytesAcked := bytesAcked }

/-- A connection is closed by its task, another one is opened, and then the two monitors are dropped. -/
def twoConnections (fd : ℕ) : List Action :=
  [.socket 5 true, .transfer 0 (.sent 100), .update 0, .close 0, .socket fd true, .transfer 1 (.sent 300),
    .update 1, .drop 0]

/-- The second connection has a number of its own. -/
theorem added_le_own_two_connections : Run.Guarded step ReadsOwn .new (twoConnections 6) ∧
    ∃ s, Run.run step .new (twoConnections 6) = some s ∧
      added TcpCounter.bytesTx.counter s.effects ≤ s.own .bytesTx := by
  have hown : Run.Guarded step ReadsOwn .new (twoConnections 6) := by decide +kernel
  exact ⟨hown, _, rfl, added_le_own .bytesTx hown rfl⟩

/-- The second connection has the number of the first: its bytes are counted by both monitors. -/
theorem own_lt_added_of_reuse : ∃ s, Run.run step .new (twoConnections 5) = some s ∧
    s.own .bytesTx = 400 ∧ added TcpCounter.bytesTx.counter s.effects = 600 :=
  ⟨_, rfl, by decide +kernel, by decide +kernel⟩

end Http

end Dwd
