import Dwd.LibCoro
import Dwd.Stat

/-! What the workers of the three HTTP engines have in common. `execute` runs `do_execute` under a
timeout: it obtains a socket, performs one request on it, accounts for the response and keeps or drops
the socket. A call of it is run on the script of what the outside does: which calls succeed, what the
server sends, and whether the timer fires while the worker waits. -/

namespace Dwd

/-- The outside as a worker sees it when it is woken up: the microseconds since the call began, and
the answers of the engine's environment. -/
structure Moment (A : Type) where
  elapsed : ℕ
  answer : A

/-- What a worker does to the outside. The received response code is no update of the statistics: what
it updates depends on its class. -/
inductive Effect where
  | stat (op : StatOp)
  | received (code : ℕ)
  deriving DecidableEq, Repr

/-- The updates among the effects. -/
def statOps (effects : List Effect) : List StatOp :=
  effects.filterMap fun
    | .stat op => some op
    | .received _ => none

/-- A worker's program, with its await points `P`, answers `A` and state `S`. -/
abbrev Job (P A S α : Type) : Type := Coro P (Moment A) Effect S α

namespace Job

variable {P A S K : Type}

def update (op : StatOp) : Job P A S Unit := Coro.emit (.stat op)

/-- A synchronous call that may fail. -/
def require (f : A → Bool) : Job P A S Unit := Coro.require fun m => f m.answer

/-- An asynchronous call that may fail. -/
def await {α : Type} (point : P) (f : A → Option α) : Job P A S α := Coro.await point fun m => f m.answer

/-- An asynchronous call that may fail and returns nothing else. -/
def awaitOk (point : P) (f : A → Bool) : Job P A S Unit :=
  await point fun answer => if f answer then some () else none

/-- `if condition { job }`. -/
def when (condition : Bool) (job : Job P A S Unit) : Job P A S Unit := if condition then job else pure ()

/-- The `match code` of `do_execute`: other codes are only logged. -/
def classify (code : ℕ) : Job P A S Unit :=
  if 200 ≤ code ∧ code < 300 then update .on2xx
  else if 300 ≤ code ∧ code < 400 then update .on3xx
  else if 400 ≤ code ∧ code < 500 then update .on4xx
  else if 500 ≤ code ∧ code < 600 then update .on5xx
  else pure ()

/-- `do_execute`, for an engine's way to obtain a socket, to perform a request on it, to drop it, and to
keep it or replace its quota after a response. -/
def doExecute (currSock : Job P A S K) (performRequest : K → Job P A S ℕ)
    (drop : K → Moment A → List Effect) (settle : K → Job P A S Unit) : Job P A S Unit := do
  match ← Coro.attempt currSock with
  | none => update .onSockErr
  | some sock =>
      match ← Coro.attempt (Coro.holding (drop sock) (performRequest sock)) with
      | none =>
          update .onSockErr
          let dropped ← Coro.ask (drop sock)
          Coro.emitAll dropped
      | some code =>
          let us ← Coro.ask Moment.elapsed
          update (.onResponse us)
          Coro.emit (.received code)
          classify code
          settle sock

end Job

/-- One call of `execute`: the outside when it begins and each time the worker is woken up, and, when
the timer fires after that, the outside at that time. -/
structure ExecuteCall (A : Type) where
  start : Moment A
  script : List (Moment A)
  timer : Option (Moment A)

/-- Where a call stands at the end of its script. It is completed when `do_execute` has returned, or
when the timer has fired at some await point; otherwise the worker waits. -/
inductive Execution (P S : Type) where
  | completed (w : S) (effects : List Effect) (expired : Option P)
  | pending (point : P) (w : S) (effects : List Effect)

section Runs

variable {P A S : Type} (job : Job P A S Unit)

/-- `execute`: `tokio::time::timeout` over the job, and `on_timeout` when it expires. -/
def execute (w : S) (call : ExecuteCall A) : Execution P S :=
  match job w call.start call.script with
  | .done _ w _ effects _ => .completed w effects none
  | .failed w _ effects _ => .completed w effects none
  | .waiting point w effects dropped =>
      match call.timer with
      | none => .pending point w effects
      | some m =>
          .completed w (effects ++ dropped m ++ [.stat (.onTimeout m.elapsed)]) (some point)

/-- A sequence of calls of one worker: how many have completed, and the effects so far. Nothing follows
a call that is pending. -/
def runCalls : S → List (ExecuteCall A) → ℕ × List Effect
  | _, [] => (0, [])
  | w, call :: calls =>
      match execute job w call with
      | .completed w effects _ => ((runCalls w calls).1 + 1, effects ++ (runCalls w calls).2)
      | .pending _ _ effects => (0, effects)

/-- The workers of one thread, each from its own state through its own calls. -/
def completedCalls (workers : List (S × List (ExecuteCall A))) : ℕ :=
  (workers.map fun w => (runCalls job w.1 w.2).1).sum

/-- The statistics of an engine whose threads have done `effects` each. -/
def statOf (effects : List (List Effect)) : Stat :=
  { stats := effects.map fun thread => PerCpuStat.default.applyAll (statOps thread) }

/-- What the threads can have done: the effects of their workers, interleaved in any order. -/
def Interleaves (effects : List (List Effect)) (threads : List (List (S × List (ExecuteCall A)))) : Prop :=
  List.Forall₂ (fun thread workers =>
    thread.Perm (workers.map fun w => (runCalls job w.1 w.2).2).flatten) effects threads

end Runs

end Dwd
