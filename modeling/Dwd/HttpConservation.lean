import Dwd.HttpEngine
import Dwd.HttpOutcome

/-! Outcome conservation of the HTTP engines. Each engine waits for its socket and for its request to go
out before it counts the request, and for the response after that; whatever happens at these points,
a call that completes has one outcome. -/

namespace Dwd

namespace Http

theorem TcpStatMonitor.update_counted (m : TcpStatMonitor) (tcpi : TcpInfo) :
    Counted 0 (m.update tcpi) :=
  (Counted.onSend _).append ((Counted.onRecv _).append (Counted.onRetransmits _))

/-- The request is not counted before the head of the response has come. -/
abbrev Point.early (point : Point) : Prop := point ≠ .frame

namespace CoroWorker

theorem wp_reconnect (s : CoroWorker) : reconnect.Wp (quiet Point.early) s := by
  apply wp_quiet_bind (wp_quiet_require _)
  intro _ s
  apply wp_quiet_bind (wp_quiet_require _)
  intro _ s
  apply wp_quiet_owning fun m => TcpStatMonitor.update_counted _ _
  apply wp_quiet_bind (wp_quiet_awaitOk (by decide) _)
  intro _ s
  apply wp_quiet_bind wp_quiet_get
  intro self s
  apply wp_quiet_bind (wp_quiet_when _ (wp_quiet_require _))
  intro _ s
  apply wp_quiet_bind (wp_quiet_when _ (wp_quiet_require _))
  intro _ s
  apply wp_quiet_bind (wp_quiet_update Counted.onSockCreated)
  intro _ s
  apply wp_quiet_bind (wp_quiet_when _ (wp_quiet_awaitOk (by decide) _))
  intro _ s
  apply wp_quiet_bind (wp_quiet_awaitOk (by decide) _)
  intro _ s
  exact wp_quiet_pure _

theorem wp_currSock (s : CoroWorker) : currSock.Wp (quiet Point.early) s := by
  apply wp_quiet_bind wp_quiet_get
  intro self s
  apply wp_quiet_bind (wp_quiet_modify _)
  intro _ s
  cases self.stream with
  | none => exact wp_reconnect s
  | some stream => exact wp_quiet_pure stream

theorem wp_performRequest (sock : TcpStream) (s : CoroWorker) :
    (performRequest sock).Wp (throughRequest Point.early) s := by
  apply wp_through_bind (wp_quiet_await (by decide) _)
  intro code s
  apply wp_through_request
  intro s
  apply wp_quiet_awaitLoop (by decide)
  intro _ m self
  split
  · exact Counted.nil
  · exact Counted.nil
  · exact Counted.nil

theorem wp_settle (sock : TcpStream) (s : CoroWorker) : (settle sock).Wp atOnce s := by
  apply wp_atOnce_bind (wp_atOnce_modify _)
  intro _ s
  apply wp_atOnce_bind wp_atOnce_get
  intro self s
  apply wp_atOnce_bind (wp_atOnce_ask _)
  intro tcpi s
  apply wp_atOnce_bind
  · apply wp_atOnce_emitAll
    split_ifs
    · exact TcpStatMonitor.update_counted _ _
    · exact Counted.nil
  · intro _ s
    -- Whether the monitor has just been updated does not matter any more.
    generalize (if self.requestsPerSockLeft % 32 = 0 then ({ tcpInfo := tcpi } : TcpStream)
      else sock) = sock'
    split_ifs
    · exact wp_atOnce_modify _
    · apply wp_atOnce_bind (wp_atOnce_ask _)
      intro random s
      apply wp_atOnce_bind (wp_atOnce_modify _)
      intro _ s
      exact wp_atOnce_drop fun m => TcpStatMonitor.update_counted _ _

theorem wp_execute (s : CoroWorker) : doExecute.Wp (oneOutcome Point.early) s :=
  wp_doExecute wp_currSock wp_performRequest (fun _ _ => TcpStatMonitor.update_counted _ _) wp_settle s

end CoroWorker

end Http

namespace HttpRaw

/-- The request is counted when it has been written. -/
abbrev Point.early (point : Point) : Prop := point ≠ .readBuf

namespace CoroWorker

theorem wp_reconnect (s : CoroWorker) : reconnect.Wp (quiet Point.early) s := by
  apply wp_quiet_bind (wp_quiet_require _)
  intro _ s
  apply wp_quiet_bind (wp_quiet_require _)
  intro _ s
  apply wp_quiet_bind (wp_quiet_awaitOk (by decide) _)
  intro _ s
  apply wp_quiet_bind wp_quiet_get
  intro self s
  apply wp_quiet_bind (wp_quiet_when _ (wp_quiet_require _))
  intro _ s
  apply wp_quiet_bind (wp_quiet_when _ (wp_quiet_require _))
  intro _ s
  apply wp_quiet_bind (wp_quiet_update Counted.onSockCreated)
  intro _ s
  exact wp_quiet_pure _

theorem wp_currSock (s : CoroWorker) : currSock.Wp (quiet Point.early) s := by
  apply wp_quiet_bind wp_quiet_get
  intro self s
  apply wp_quiet_bind (wp_quiet_modify _)
  intro _ s
  cases self.stream with
  | none => exact wp_reconnect s
  | some stream => exact wp_quiet_pure stream

variable (parse : List UInt8 → Parsed)

theorem wp_readResponse (s : CoroWorker) :
    (readResponse parse).Wp (quiet fun point => ¬ Point.early point) s := by
  apply wp_quiet_awaitLoop (by decide)
  intro _ m self
  split
  · exact Counted.nil
  · dsimp only
    split
    · exact Counted.nil
    · exact Counted.nil
    · exact Counted.onRecv _

theorem wp_performRequest (sock : TcpStream) (s : CoroWorker) :
    (performRequest parse sock).Wp (throughRequest Point.early) s := by
  apply wp_through_bind (wp_quiet_ask _)
  intro requestLen s
  apply wp_through_bind (wp_quiet_awaitOk (by decide) _)
  intro _ s
  apply wp_through_request
  intro s
  apply wp_quiet_bind (wp_quiet_update (Counted.onSend _))
  intro _ s
  apply wp_quiet_bind (wp_quiet_modify _)
  intro _ s
  exact wp_readResponse parse s

theorem wp_settle (sock : TcpStream) (s : CoroWorker) : (settle sock).Wp atOnce s := by
  apply wp_atOnce_bind (wp_atOnce_modify _)
  intro _ s
  apply wp_atOnce_bind wp_atOnce_get
  intro self s
  split_ifs
  · exact wp_atOnce_modify _
  · exact wp_atOnce_modify _

theorem wp_execute (s : CoroWorker) : (doExecute parse).Wp (oneOutcome Point.early) s :=
  wp_doExecute wp_currSock (wp_performRequest parse) (fun _ _ => Counted.nil) wp_settle s

end CoroWorker

end HttpRaw

namespace Http3

/-- The request is counted when its stream has been opened. -/
abbrev Point.early (point : Point) : Prop :=
  point = .connecting ∨ point = .newClient ∨ point = .sendRequest

namespace CoroWorker

theorem wp_getEndpoint (s : CoroWorker) : getEndpoint.Wp (quiet Point.early) s := by
  apply wp_quiet_bind wp_quiet_get
  intro self s
  split_ifs
  · exact wp_quiet_pure ()
  · apply wp_quiet_bind (wp_quiet_require _)
    intro _ s
    exact wp_quiet_modify _

theorem wp_reconnect (s : CoroWorker) : reconnect.Wp (quiet Point.early) s := by
  apply wp_quiet_bind (wp_getEndpoint s)
  intro _ s
  apply wp_quiet_bind (wp_quiet_require _)
  intro _ s
  apply wp_quiet_bind (wp_quiet_awaitOk (by decide) _)
  intro _ s
  apply wp_quiet_bind (wp_quiet_update Counted.onSockCreated)
  intro _ s
  apply wp_quiet_bind (wp_quiet_awaitOk (by decide) _)
  intro _ s
  exact wp_quiet_pure _

theorem wp_currConn (s : CoroWorker) : currConn.Wp (quiet Point.early) s := by
  apply wp_quiet_bind wp_quiet_get
  intro self s
  apply wp_quiet_bind (wp_quiet_modify _)
  intro _ s
  cases self.conn with
  | none => exact wp_reconnect s
  | some conn => exact wp_quiet_pure conn

theorem wp_drain (code : ℕ) (s : CoroWorker) :
    (drain code).Wp (quiet fun point => ¬ Point.early point) s := by
  apply wp_quiet_awaitLoop (by decide)
  intro bytesRx m self
  split
  · exact Counted.nil
  · exact Counted.nil
  · dsimp only
    split_ifs
    · exact Counted.onRecv bytesRx
    · exact Counted.nil

theorem wp_performRequest (conn : Http3Connection) (s : CoroWorker) :
    (performRequest conn).Wp (throughRequest Point.early) s := by
  apply wp_through_bind (wp_quiet_awaitOk (by decide) _)
  intro _ s
  apply wp_through_request
  intro s
  apply wp_quiet_bind (wp_quiet_awaitOk (by decide) _)
  intro _ s
  apply wp_quiet_bind (wp_quiet_await (by decide) _)
  intro code s
  exact wp_drain code s

theorem wp_settle (conn : Http3Connection) (s : CoroWorker) : (settle conn).Wp atOnce s := by
  apply wp_atOnce_bind (wp_atOnce_modify _)
  intro _ s
  apply wp_atOnce_bind wp_atOnce_get
  intro self s
  split_ifs
  · exact wp_atOnce_modify _
  · apply wp_atOnce_bind (wp_atOnce_ask _)
    intro random s
    exact wp_atOnce_modify _

theorem wp_execute (s : CoroWorker) : doExecute.Wp (oneOutcome Point.early) s :=
  wp_doExecute wp_currConn wp_performRequest (fun _ _ => Counted.nil) wp_settle s

end CoroWorker

end Http3

/-- In every state in which each worker of an engine is between two calls or waits inside one, on any
number of threads and in any order of their effects: the completed calls are the outcomes, the
histogram holds one latency for each response and each timeout, no response is without its request, and
the classes hold the responses, all of them when every code has a class. -/
def ConservesOutcomes {P A S : Type} (job : Job P A S Unit) : Prop :=
  ∀ (threads : List (List (S × List (ExecuteCall A)))) (effects : List (List Effect)),
    Interleaves job effects threads →
      let stat := statOf effects
      (threads.map (completedCalls job)).sum =
          stat.numResponses + stat.numTimeouts + stat.numSockErrors ∧
        stat.hist.size = stat.numResponses + stat.numTimeouts ∧
        stat.numResponses ≤ stat.numRequests ∧
        stat.num2xx + stat.num3xx + stat.num4xx + stat.num5xx ≤ stat.numResponses ∧
        ((∀ thread ∈ effects, CodesInRange thread) →
          stat.num2xx + stat.num3xx + stat.num4xx + stat.num5xx = stat.numResponses)

theorem conservesOutcomes_of_wp {P A S : Type} {job : Job P A S Unit} {early : P → Prop}
    (hjob : ∀ s, job.Wp (oneOutcome early) s) : ConservesOutcomes job := by
  intro threads effects h
  obtain ⟨houtcomes, hrecorded, hresponses, hclasses, hall⟩ := threads_balanced hjob h
  simp only [classified, ← statOf_count] at houtcomes hrecorded hresponses hclasses hall
  refine ⟨houtcomes.symm, ?_, hresponses, hclasses, fun hcodes => hall ?_⟩
  · rw [Stat.hist_size]
    exact hrecorded
  · intro code hmem
    obtain ⟨thread, hthread, hcode⟩ := List.mem_flatten.mp hmem
    exact hcodes thread hthread code hcode

/-- **Outcome conservation**, of the three HTTP engines. -/
theorem outcome_conservation :
    ConservesOutcomes Http.CoroWorker.doExecute ∧
      (∀ parse, ConservesOutcomes (HttpRaw.CoroWorker.doExecute parse)) ∧
      ConservesOutcomes Http3.CoroWorker.doExecute :=
  ⟨conservesOutcomes_of_wp Http.CoroWorker.wp_execute,
    fun parse => conservesOutcomes_of_wp (HttpRaw.CoroWorker.wp_execute parse),
    conservesOutcomes_of_wp Http3.CoroWorker.wp_execute⟩

end Dwd
