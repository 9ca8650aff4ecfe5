import Dwd.LibQuota
import Dwd.Stat

/-! The worker of the UDP engine. A call of `execute` sends one datagram, without waiting: it takes the
socket out, or opens a new one, and puts it back after a send that leaves some of the quota. Addresses
and the contents of the datagrams are left out: no branch depends on them. -/

namespace Dwd

open Quota

namespace Udp

/-- The answers of the outside to one call, and the length of the data it sends. -/
structure Answers where
  bind : Bool
  connect : Bool
  send : Bool
  dataLen : ℕ

/-- The socket has no data that the worker looks at. -/
structure UdpSocket where

structure Worker where
  sock : Option UdpSocket
  requestsPerSock : ℕ
  requestsPerSockDone : ℕ

namespace Worker

def new (requestsPerSock : ℕ) : Worker :=
  { sock := none
    requestsPerSock := requestsPerSock
    requestsPerSockDone := 0 }

/-- `curr_sock`: the worker after it, the updates, and the socket, if it could be had. -/
def currSock (self : Worker) (answers : Answers) : Worker × List StatOp × Option UdpSocket :=
  match self.sock with
  | some sock => ({ self with sock := none }, [], some sock)
  | none =>
      if answers.bind && answers.connect then
        ({ self with requestsPerSockDone := 0 }, [.onSockCreated], some {})
      else (self, [], none)

def execute (self : Worker) (answers : Answers) : Worker × List StatOp :=
  match self.currSock answers with
  | (self, ops, none) => (self, ops ++ [.onSockErr])
  | (self, ops, some sock) =>
      if answers.send then
        let self := { self with requestsPerSockDone := self.requestsPerSockDone + 1 }
        let self :=
          if self.requestsPerSockDone < self.requestsPerSock then { self with sock := some sock } else self
        (self, ops ++ [.onRequests 1, .onSend answers.dataLen])
      else (self, ops ++ [.onSockErr])

/-- The worker as the holder of a socket. The count of a lost socket is of no account: a new one starts
from zero. -/
def holder (self : Worker) : Holder :=
  if self.sock.isSome then ⟨true, self.requestsPerSock - self.requestsPerSockDone⟩
  else ⟨false, self.requestsPerSock⟩

def rule (self : Worker) : Rule where
  draws d := d = self.requestsPerSock
  lost _ := self.requestsPerSock

/-- What a call does with a socket: no request is attempted when the worker gets none. -/
def outcome (self : Worker) (answers : Answers) : Outcome :=
  match (self.currSock answers).2.2 with
  | none => .unopened
  | some _ => if answers.send then .served else .lost

/-- The uses that a worker makes of its sockets in a sequence of calls. -/
def uses : Worker → List Answers → List Use
  | _, [] => []
  | self, answers :: calls =>
      ⟨self.holder, self.outcome answers, (self.execute answers).1.holder⟩ ::
        uses (self.execute answers).1 calls

theorem execute_of_none {self taken : Worker} {answers : Answers} {ops : List StatOp}
    (h : self.currSock answers = (taken, ops, none)) : (self.execute answers).1 = taken := by
  rw [execute, h]

theorem execute_of_some {self taken : Worker} {answers : Answers} {ops : List StatOp} {sock : UdpSocket}
    (h : self.currSock answers = (taken, ops, some sock)) : (self.execute answers).1 =
      if answers.send then
        if taken.requestsPerSockDone + 1 < taken.requestsPerSock then
          { taken with requestsPerSockDone := taken.requestsPerSockDone + 1, sock := some sock }
        else { taken with requestsPerSockDone := taken.requestsPerSockDone + 1 }
      else taken := by
  rw [execute, h]
  by_cases hsend : answers.send = true
  · simp only [hsend, if_true]
  · simp only [hsend]
    rfl

/-- `curr_sock` leaves the worker without a socket. It finds one there or opens one, and then the count
is what is left of the quota; or there is none. -/
theorem currSock_cases (self : Worker) (answers : Answers) :
    (∃ taken ops sock, self.currSock answers = (taken, ops, some sock) ∧ taken.sock = none ∧
      taken.requestsPerSock = self.requestsPerSock ∧
      self.holder.left = self.requestsPerSock - taken.requestsPerSockDone) ∨
    (self.sock = none ∧ self.currSock answers = (self, [], none)) := by
  unfold currSock holder
  cases hsock : self.sock with
  | some sock =>
      left
      exact ⟨_, _, sock, rfl, rfl, rfl, rfl⟩
  | none =>
      by_cases hopen : (answers.bind && answers.connect) = true
      · left
        rw [if_pos hopen]
        exact ⟨_, _, _, rfl, rfl, rfl, rfl⟩
      · right
        rw [if_neg hopen]
        exact ⟨rfl, rfl⟩

theorem requestsPerSock_execute (self : Worker) (answers : Answers) :
    (self.execute answers).1.requestsPerSock = self.requestsPerSock := by
  rcases self.currSock_cases answers with ⟨taken, ops, sock, hcurr, -, hquota, -⟩ | ⟨-, hcurr⟩
  · rw [execute_of_some hcurr]
    split_ifs
    · exact hquota
    · exact hquota
    · exact hquota
  · rw [execute_of_none hcurr]

/-- A call is a lawful use of a socket. -/
theorem lawful_execute (self : Worker) (answers : Answers) :
    Lawful self.rule ⟨self.holder, self.outcome answers, (self.execute answers).1.holder⟩ := by
  rcases self.currSock_cases answers with ⟨taken, ops, sock, hcurr, hnone, hquota, hleft⟩ | ⟨hnone, hcurr⟩
  · have hholder : ∀ w : Worker, w.sock = none → w.requestsPerSock = self.requestsPerSock →
        w.holder = ⟨false, self.requestsPerSock⟩ := by
      intro w hw hq
      rw [holder, hw, hq]
      rfl
    rw [execute_of_some hcurr, outcome, hcurr]
    dsimp only
    split_ifs with hsend hmore
    · -- the socket is put back with one request less
      have hafter : taken.requestsPerSock - (taken.requestsPerSockDone + 1) = self.holder.left - 1 := by
        omega
      show Lawful self.rule ⟨self.holder, .served,
        ⟨true, taken.requestsPerSock - (taken.requestsPerSockDone + 1)⟩⟩
      rw [hafter]
      exact Lawful.kept self.holder.held self.holder.left (by omega)
    · rw [hholder { taken with requestsPerSockDone := taken.requestsPerSockDone + 1 } hnone hquota]
      exact Lawful.spent self.holder.held self.holder.left _ (by omega) rfl
    · rw [hholder taken hnone hquota]
      exact Lawful.lost self.holder.held self.holder.left
  · have hholder : self.holder = ⟨false, self.requestsPerSock⟩ := by
      rw [holder, hnone]
      rfl
    rw [execute_of_none hcurr, outcome, hcurr, hholder]
    exact Lawful.unopened self.requestsPerSock

/-- The calls of a worker are a history of lawful uses. -/
theorem history (self : Worker) (calls : List Answers) : History self.rule self.holder (self.uses calls) := by
  induction calls generalizing self with
  | nil => exact .nil _
  | cons answers calls ih =>
      have hrest := ih (self.execute answers).1
      rw [rule, requestsPerSock_execute, ← rule] at hrest
      exact .cons (lawful_execute self answers) hrest

end Worker

end Udp

end Dwd
