import Dwd.HttpEngine
import Dwd.SocketQuota
import Dwd.Udp

/-! The request quotas of the native workers. The HTTP workers are disciplined: a request that fails or
is cancelled loses its socket and nothing else, and a response counts down what is left of the quota. So
no socket carries more requests than the largest quota. But what is left is not set back when a socket
is lost, although the fields are documented so: the next socket goes on with what the lost one has left,
and it has its full quota only when no socket is lost after it has served. -/

namespace Dwd

open Quota

/-- The quotas that the generator can draw. -/
def RequestsPerSocket.Draws (gen : RequestsPerSocket) (d : ℕ) : Prop := ∃ random, d = gen.next random

/-- The rule of the HTTP workers: the count is not set back when a socket is lost. -/
def drawing (draws : ℕ → Prop) : Rule where
  draws := draws
  lost left := left

namespace Http.CoroWorker

def socketView : SocketView CoroWorker where
  holder w := ⟨w.stream.isSome, w.requestsPerSockLeft⟩
  rule w := drawing w.requestsPerSockGen.Draws

variable {I : CoroWorker → Prop} {w : CoroWorker}

theorem isStat_update (sock : TcpStream) (tcpi : TcpInfo) :
    ∀ effect ∈ sock.update tcpi, effect.IsStat := by
  intro effect hmem
  simp only [TcpStatMonitor.update, List.mem_cons, List.not_mem_nil, or_false] at hmem
  rcases hmem with rfl | rfl | rfl
  · exact ⟨_, rfl⟩
  · exact ⟨_, rfl⟩
  · exact ⟨_, rfl⟩

theorem keeps_reconnect (hI : I w) : reconnect.Keeps I Effect.IsStat w := by
  refine (Coro.keeps_require hI).bind fun _ w hI => ?_
  refine (Coro.keeps_require hI).bind fun _ w hI => ?_
  refine Coro.Keeps.owning ?_ fun m => isStat_update _ _
  refine (Coro.keeps_await hI).bind fun _ w hI => ?_
  refine (Coro.keeps_get hI).bind fun self w hI => ?_
  refine (keeps_when hI (Coro.keeps_require hI)).bind fun _ w hI => ?_
  refine (keeps_when hI (Coro.keeps_require hI)).bind fun _ w hI => ?_
  refine (Coro.keeps_emit hI ⟨_, rfl⟩).bind fun _ w hI => ?_
  refine (keeps_when hI (Coro.keeps_await hI)).bind fun _ w hI => ?_
  refine (Coro.keeps_await hI).bind fun _ w hI => ?_
  exact Coro.keeps_pure hI

theorem keeps_performRequest (sock : TcpStream) (hI : I w) :
    (performRequest sock).Keeps I Effect.IsStat w := by
  refine (Coro.keeps_await hI).bind fun code w hI => ?_
  refine (Coro.keeps_emit hI ⟨_, rfl⟩).bind fun _ w hI => ?_
  refine Coro.keeps_awaitLoop hI fun _ m w hI => ?_
  rcases m.answer.frame with _ | _ | _
  · exact ⟨hI, by simp⟩
  · exact ⟨hI, by simp⟩
  · exact ⟨hI, by simp⟩

theorem wp_settle_lawful (sock : TcpStream) (hw : (socketView.holder w).held = false) : (settle sock).Wp
    ⟨fun _ w' effects => (∀ held, Lawful (socketView.rule w)
        ⟨⟨held, (socketView.holder w).left⟩, .served, socketView.holder w'⟩) ∧
      socketView.rule w' = socketView.rule w ∧ ∀ effect ∈ effects, effect.IsStat,
      fun _ _ => False, fun _ _ _ _ => False⟩ w := by
  apply Coro.wp_bind
  apply Coro.wp_modify
  apply Coro.wp_bind
  apply Coro.wp_get
  apply Coro.wp_bind
  refine Coro.wp_ask fun m => ?_
  apply Coro.wp_bind
  apply Coro.wp_emitAll
  have hupdates : ∀ effect ∈ if (w.requestsPerSockLeft - 1) % 32 = 0 then sock.update m.answer.tcpInfo else [],
      effect.IsStat := by
    split_ifs
    · exact isStat_update sock _
    · simp
  by_cases hleft : 0 < w.requestsPerSockLeft - 1
  · simp only [if_pos hleft]
    apply Coro.wp_modify
    refine ⟨fun held => Lawful.kept held _ hleft, rfl, ?_⟩
    simpa using hupdates
  · simp only [if_neg hleft]
    apply Coro.wp_bind
    refine Coro.wp_ask fun m' => ?_
    apply Coro.wp_bind
    apply Coro.wp_modify
    apply Coro.wp_bind
    refine Coro.wp_ask fun m'' => ?_
    apply Coro.wp_emitAll
    have hdraws : (socketView.rule w).draws (w.requestsPerSockGen.next m'.answer.random) := ⟨_, rfl⟩
    refine ⟨fun held => ?_, rfl, ?_⟩
    · exact Lawful.spent_of_not_held held _ _ (Nat.eq_zero_of_not_pos hleft) hdraws hw
    · simp only [List.nil_append]
      exact List.forall_mem_append.mpr ⟨hupdates, isStat_update _ _⟩

/-- The worker whose socket is taken out. -/
def take (self : CoroWorker) : CoroWorker := { self with stream := none }

theorem currSock_eq : currSock = Job.takeOr stream take reconnect := by
  unfold currSock Job.takeOr
  congr 1
  funext self
  congr 1
  funext u
  cases self.stream with
  | none => rfl
  | some sock => rfl

theorem disciplined : Disciplined socketView currSock performRequest TcpStatMonitor.drop settle where
  lost _ _ := rfl
  taken w := by
    rw [currSock_eq]
    exact keeps_takeOr ⟨rfl, rfl⟩ fun _ hI => keeps_reconnect hI
  held w hheld env script := by
    rw [currSock_eq]
    exact exists_takeOr hheld env script
  performed sock w := keeps_performRequest sock ⟨rfl, rfl⟩
  dropped sock m := isStat_update sock _
  settled sock w hw := wp_settle_lawful sock hw

/-- The body of a response comes to its end. -/
def bodyEnds : List (Moment Answers) → Bool
  | [] => false
  | m :: script =>
      match m.answer.frame with
      | some true => bodyEnds script
      | some false => false
      | none => true

/-- The head of a response comes, and then its body. -/
def answered : List (Moment Answers) → Bool
  | [] => false
  | m :: script => m.answer.sendRequest.isSome && bodyEnds script

theorem frames_of_bodyEnds (code : ℕ) {script : List (Moment Answers)} (h : bodyEnds script = true)
    (w : CoroWorker) (env : Moment Answers) :
    ∃ env' rest, frames code w env script = .done code w env' [] rest := by
  induction script generalizing env with
  | nil => cases h
  | cons m script ih =>
      rw [bodyEnds] at h
      unfold frames
      rw [Coro.awaitLoop]
      cases hframe : m.answer.frame with
      | none => exact ⟨m, script, rfl⟩
      | some ok =>
          rw [hframe] at h
          cases ok with
          | false => cases h
          | true =>
              obtain ⟨env', rest, hdone⟩ := ih h m
              refine ⟨env', rest, ?_⟩
              unfold frames at hdone
              simp only [hdone, Coro.after, List.nil_append]

theorem answering : Answering performRequest answered := by
  intro sock w env script h
  cases script with
  | nil => cases h
  | cons m script =>
      obtain ⟨hhead, hbody⟩ := Bool.and_eq_true_iff.mp h
      obtain ⟨code, hcode⟩ := Option.isSome_iff_exists.mp hhead
      obtain ⟨env', rest, hdone⟩ := frames_of_bodyEnds code hbody w m
      refine ⟨code, w, env', [.stat (.onRequests 1)], rest, ?_⟩
      simp only [performRequest, bind, Job.await, Coro.await, hcode, Job.update, Coro.emit, hdone,
        Coro.after, List.nil_append, List.append_nil]

/-- The uses that a worker makes of its sockets in a sequence of calls. -/
def uses (w : CoroWorker) (calls : List (ExecuteCall Answers)) : List Use :=
  socketUses socketView currSock doExecute w calls

end Http.CoroWorker

namespace HttpRaw.CoroWorker

/-- A quota of zero lets one request through, as a quota of one does: all of it is left exactly when the
counter is zero. -/
def socketView : SocketView CoroWorker where
  holder w := ⟨w.stream.isSome, max 1 w.requestsPerSock - w.requestsPerSockDone⟩
  rule w := drawing (· = max 1 w.requestsPerSock)

theorem left_eq_iff (w : CoroWorker) :
    (socketView.holder w).left = max 1 w.requestsPerSock ↔ w.requestsPerSockDone = 0 := by
  show max 1 w.requestsPerSock - w.requestsPerSockDone = max 1 w.requestsPerSock ↔ w.requestsPerSockDone = 0
  omega

variable {parse : List UInt8 → Parsed} {I : CoroWorker → Prop} {w : CoroWorker}

theorem keeps_reconnect (hI : I w) : reconnect.Keeps I Effect.IsStat w := by
  refine (Coro.keeps_require hI).bind fun _ w hI => ?_
  refine (Coro.keeps_require hI).bind fun _ w hI => ?_
  refine (Coro.keeps_await hI).bind fun _ w hI => ?_
  refine (Coro.keeps_get hI).bind fun self w hI => ?_
  refine (keeps_when hI (Coro.keeps_require hI)).bind fun _ w hI => ?_
  refine (keeps_when hI (Coro.keeps_require hI)).bind fun _ w hI => ?_
  refine (Coro.keeps_emit hI ⟨_, rfl⟩).bind fun _ w hI => ?_
  exact Coro.keeps_pure hI

/-- A request changes nothing but the buffer. -/
theorem keeps_performRequest (sock : TcpStream) (hI : I w)
    (hbuf : ∀ (w : CoroWorker) (buf : List UInt8), I w → I { w with buf := buf }) :
    (performRequest parse sock).Keeps I Effect.IsStat w := by
  refine (Coro.keeps_ask hI).bind fun requestLen w hI => ?_
  refine (Coro.keeps_await hI).bind fun _ w hI => ?_
  refine (Coro.keeps_emit hI ⟨_, rfl⟩).bind fun _ w hI => ?_
  refine (Coro.keeps_emit hI ⟨_, rfl⟩).bind fun _ w hI => ?_
  refine (Coro.keeps_modify (hbuf w [] hI)).bind fun _ w hI => ?_
  refine Coro.keeps_awaitLoop hI fun _ m w hI => ?_
  cases m.answer.readBuf with
  | none => exact ⟨hI, by simp⟩
  | some chunk =>
      have hI' := hbuf w (w.buf ++ chunk) hI
      dsimp only
      cases parse (w.buf ++ chunk) with
      | complete code => exact ⟨hI', by simp [Effect.IsStat]⟩
      | unfinished => exact ⟨hI', by simp⟩
      | error => exact ⟨hI', by simp⟩

theorem wp_settle_lawful (sock : TcpStream) (hw : (socketView.holder w).held = false) : (settle sock).Wp
    ⟨fun _ w' effects => (∀ held, Lawful (socketView.rule w)
        ⟨⟨held, (socketView.holder w).left⟩, .served, socketView.holder w'⟩) ∧
      socketView.rule w' = socketView.rule w ∧ ∀ effect ∈ effects, effect.IsStat,
      fun _ _ => False, fun _ _ _ _ => False⟩ w := by
  apply Coro.wp_bind
  apply Coro.wp_modify
  apply Coro.wp_bind
  apply Coro.wp_get
  by_cases hmore : w.requestsPerSockDone + 1 < w.requestsPerSock
  · simp only [if_pos hmore]
    apply Coro.wp_modify
    refine ⟨fun held => ?_, rfl, by simp⟩
    have hleft : 0 < max 1 w.requestsPerSock - w.requestsPerSockDone - 1 := by omega
    exact Lawful.kept held _ hleft
  · simp only [if_neg hmore]
    apply Coro.wp_modify
    refine ⟨fun held => ?_, rfl, by simp⟩
    have hleft : max 1 w.requestsPerSock - w.requestsPerSockDone - 1 = 0 := by omega
    exact Lawful.spent_of_not_held held _ _ hleft rfl hw

/-- The worker whose socket is taken out. -/
def take (self : CoroWorker) : CoroWorker := { self with stream := none }

theorem currSock_eq : currSock = Job.takeOr stream take reconnect := by
  unfold currSock Job.takeOr
  congr 1
  funext self
  congr 1
  funext u
  cases self.stream with
  | none => rfl
  | some sock => rfl

theorem disciplined (parse : List UInt8 → Parsed) :
    Disciplined socketView currSock (performRequest parse) (fun _ _ => []) settle where
  lost _ _ := rfl
  taken w := by
    rw [currSock_eq]
    exact keeps_takeOr ⟨rfl, rfl⟩ fun _ hI => keeps_reconnect hI
  held w hheld env script := by
    rw [currSock_eq]
    exact exists_takeOr hheld env script
  performed sock w := keeps_performRequest sock ⟨rfl, rfl⟩ fun _ _ hI => hI
  dropped sock m := by simp
  settled sock w hw := wp_settle_lawful sock hw

/-- What is read completes a response, `buf` having been read before. -/
def completes (parse : List UInt8 → Parsed) : List UInt8 → List (Moment Answers) → Bool
  | _, [] => false
  | buf, m :: script =>
      match m.answer.readBuf with
      | none => false
      | some chunk =>
          match parse (buf ++ chunk) with
          | .complete _ => true
          | .unfinished => completes parse (buf ++ chunk) script
          | .error => false

/-- The request is written, and a response comes. -/
def answered (parse : List UInt8 → Parsed) : List (Moment Answers) → Bool
  | [] => false
  | m :: script => m.answer.writeAll && completes parse [] script

theorem readResponse_of_completes {script : List (Moment Answers)} {buf : List UInt8}
    (h : completes parse buf script = true) (w : CoroWorker) (env : Moment Answers) :
    ∃ code w' env' ops rest,
      readResponse parse { w with buf := buf } env script = .done code w' env' ops rest := by
  induction script generalizing buf env with
  | nil => cases h
  | cons m script ih =>
      rw [completes] at h
      unfold readResponse
      rw [Coro.awaitLoop]
      cases hread : m.answer.readBuf with
      | none =>
          rw [hread] at h
          cases h
      | some chunk =>
          rw [hread] at h
          dsimp only at h ⊢
          cases hparse : parse (buf ++ chunk) with
          | complete code => exact ⟨_, _, _, _, _, rfl⟩
          | error =>
              rw [hparse] at h
              cases h
          | unfinished =>
              rw [hparse] at h
              obtain ⟨code, w', env', ops, rest, hdone⟩ := ih h m
              unfold readResponse at hdone
              refine ⟨code, w', env', ops, rest, ?_⟩
              simp only [hdone, Coro.after, List.nil_append]

theorem answering (parse : List UInt8 → Parsed) :
    Answering (performRequest parse) (answered parse) := by
  intro sock w env script h
  cases script with
  | nil => cases h
  | cons m script =>
      obtain ⟨hwrite, hread⟩ := Bool.and_eq_true_iff.mp h
      obtain ⟨code, w', env', ops, rest, hdone⟩ := readResponse_of_completes hread w m
      refine ⟨code, w', env', .stat (.onRequests 1) :: .stat (.onSend env.answer.requestLen) :: ops, rest, ?_⟩
      simp only [performRequest, bind, Coro.ask, Job.awaitOk, Job.await, Coro.await, hwrite, Job.update,
        Coro.emit, Coro.modify, hdone, Coro.after, if_true, List.nil_append, List.cons_append]

/-- The uses that a worker makes of its sockets in a sequence of calls. -/
def uses (parse : List UInt8 → Parsed) (w : CoroWorker) (calls : List (ExecuteCall Answers)) : List Use :=
  socketUses socketView currSock (doExecute parse) w calls

end HttpRaw.CoroWorker

namespace Http3.CoroWorker

def socketView : SocketView CoroWorker where
  holder w := ⟨w.conn.isSome, w.requestsPerConnLeft⟩
  rule w := drawing w.requestsPerConnGen.Draws

variable {I : CoroWorker → Prop} {w : CoroWorker}

/-- A new connection changes nothing but the endpoint. -/
theorem keeps_reconnect (hI : I w)
    (hendpoint : ∀ w : CoroWorker, I w → I { w with endpoint := true }) :
    reconnect.Keeps I Effect.IsStat w := by
  have hget : getEndpoint.Keeps I Effect.IsStat w := by
    refine (Coro.keeps_get hI).bind fun self w hI => ?_
    cases self.endpoint with
    | true => exact Coro.keeps_pure hI
    | false =>
        refine (Coro.keeps_require hI).bind fun _ w hI => ?_
        exact Coro.keeps_modify (hendpoint w hI)
  refine hget.bind fun _ w hI => ?_
  refine (Coro.keeps_require hI).bind fun _ w hI => ?_
  refine (Coro.keeps_await hI).bind fun _ w hI => ?_
  refine (Coro.keeps_emit hI ⟨_, rfl⟩).bind fun _ w hI => ?_
  refine (Coro.keeps_await hI).bind fun _ w hI => ?_
  exact Coro.keeps_pure hI

theorem keeps_performRequest (conn : Http3Connection) (hI : I w) :
    (performRequest conn).Keeps I Effect.IsStat w := by
  refine (Coro.keeps_await hI).bind fun _ w hI => ?_
  refine (Coro.keeps_emit hI ⟨_, rfl⟩).bind fun _ w hI => ?_
  refine (Coro.keeps_await hI).bind fun _ w hI => ?_
  refine (Coro.keeps_await hI).bind fun code w hI => ?_
  refine Coro.keeps_awaitLoop hI fun bytesRx m w hI => ?_
  rcases m.answer.recvData with _ | _ | n
  · exact ⟨hI, by simp⟩
  · refine ⟨hI, ?_⟩
    dsimp only
    split_ifs
    · simp [Effect.IsStat]
    · simp
  · exact ⟨hI, by simp⟩

theorem wp_settle_lawful (conn : Http3Connection) (hw : (socketView.holder w).held = false) :
    (settle conn).Wp
    ⟨fun _ w' effects => (∀ held, Lawful (socketView.rule w)
        ⟨⟨held, (socketView.holder w).left⟩, .served, socketView.holder w'⟩) ∧
      socketView.rule w' = socketView.rule w ∧ ∀ effect ∈ effects, effect.IsStat,
      fun _ _ => False, fun _ _ _ _ => False⟩ w := by
  apply Coro.wp_bind
  apply Coro.wp_modify
  apply Coro.wp_bind
  apply Coro.wp_get
  by_cases hleft : 0 < w.requestsPerConnLeft - 1
  · simp only [if_pos hleft]
    apply Coro.wp_modify
    exact ⟨fun held => Lawful.kept held _ hleft, rfl, by simp⟩
  · simp only [if_neg hleft]
    apply Coro.wp_bind
    refine Coro.wp_ask fun m => ?_
    apply Coro.wp_modify
    have hdraws : (socketView.rule w).draws (w.requestsPerConnGen.next m.answer.random) := ⟨_, rfl⟩
    refine ⟨fun held => ?_, rfl, by simp⟩
    exact Lawful.spent_of_not_held held _ _ (Nat.eq_zero_of_not_pos hleft) hdraws hw

/-- The worker whose connection is taken out. -/
def take (self : CoroWorker) : CoroWorker := { self with conn := none }

theorem currConn_eq : currConn = Job.takeOr conn take reconnect := by
  unfold currConn Job.takeOr
  congr 1
  funext self
  congr 1
  funext u
  cases self.conn with
  | none => rfl
  | some conn => rfl

theorem disciplined : Disciplined socketView currConn performRequest (fun _ _ => []) settle where
  lost _ _ := rfl
  taken w := by
    rw [currConn_eq]
    exact keeps_takeOr ⟨rfl, rfl⟩ fun _ hI => keeps_reconnect hI fun _ hI => hI
  held w hheld env script := by
    rw [currConn_eq]
    exact exists_takeOr hheld env script
  performed conn w := keeps_performRequest conn ⟨rfl, rfl⟩
  dropped conn m := by simp
  settled conn w hw := wp_settle_lawful conn hw

/-- The body of a response comes to its end. -/
def bodyEnds : List (Moment Answers) → Bool
  | [] => false
  | m :: script =>
      match m.answer.recvData with
      | none => false
      | some (some _) => bodyEnds script
      | some none => true

/-- The request is sent and finished, and then its response comes, and the body. -/
def answered : List (Moment Answers) → Bool
  | m :: m' :: m'' :: script =>
      m.answer.sendRequest && m'.answer.finish && m''.answer.recvResponse.isSome && bodyEnds script
  | _ => false

theorem awaitLoop_of_bodyEnds (code : ℕ) {script : List (Moment Answers)} (h : bodyEnds script = true)
    (w : CoroWorker) (env : Moment Answers) (bytesRx : ℕ) :
    ∃ env' ops rest, Coro.awaitLoop Point.recvData (fun bytesRx m self =>
      match m.answer.recvData with
      | none => (self, [], .inr none)
      | some (some n) => (self, [], .inl (bytesRx + n))
      | some none => (self, if 0 < bytesRx then [Effect.stat (.onRecv bytesRx)] else [], .inr (some code)))
      bytesRx w env script = .done code w env' ops rest := by
  induction script generalizing env bytesRx with
  | nil => cases h
  | cons m script ih =>
      rw [bodyEnds] at h
      rw [Coro.awaitLoop]
      rcases hdata : m.answer.recvData with _ | _ | n
      · rw [hdata] at h
        cases h
      · exact ⟨_, _, _, rfl⟩
      · rw [hdata] at h
        obtain ⟨env', ops, rest, hdone⟩ := ih h m (bytesRx + n)
        refine ⟨env', ops, rest, ?_⟩
        simp only [hdone, Coro.after, List.nil_append]

theorem drain_of_bodyEnds (code : ℕ) {script : List (Moment Answers)} (h : bodyEnds script = true)
    (w : CoroWorker) (env : Moment Answers) :
    ∃ env' ops rest, drain code w env script = .done code w env' ops rest := by
  obtain ⟨env', ops, rest, hdone⟩ := awaitLoop_of_bodyEnds code h w env 0
  exact ⟨env', ops, rest, hdone⟩

theorem answering : Answering performRequest answered := by
  intro conn w env script h
  match script, h with
  | m :: m' :: m'' :: script, h =>
      simp only [answered, Bool.and_eq_true] at h
      obtain ⟨⟨⟨hsend, hfinish⟩, hhead⟩, hbody⟩ := h
      obtain ⟨code, hcode⟩ := Option.isSome_iff_exists.mp hhead
      obtain ⟨env', ops, rest, hdone⟩ := drain_of_bodyEnds code hbody w m''
      refine ⟨code, w, env', .stat (.onRequests 1) :: ops, rest, ?_⟩
      simp only [performRequest, bind, Job.awaitOk, Job.await, Coro.await, hsend, hfinish, hcode,
        Job.update, Coro.emit, hdone, Coro.after, if_true, List.nil_append, List.cons_append]

/-- The uses that a worker makes of its sockets in a sequence of calls. -/
def uses (w : CoroWorker) (calls : List (ExecuteCall Answers)) : List Use :=
  socketUses socketView currConn doExecute w calls

end Http3.CoroWorker

namespace RequestsPerSocket

/-- The generator that `Engine::run` gives to its workers. -/
def ofConfig (requestsPerSocket deviation : UInt64) : RequestsPerSocket :=
  if 0 < deviation then .ofDeviation requestsPerSocket.toNat deviation.toNat
  else .fixed requestsPerSocket.toNat

/-- The largest quota that it draws. -/
def largest (requestsPerSocket deviation : UInt64) : ℕ :=
  if 0 < deviation then min (requestsPerSocket.toNat + deviation.toNat) (2 ^ 64 - 1)
  else requestsPerSocket.toNat

theorem next_ofConfig_le (requestsPerSocket deviation : UInt64) (random : ℕ) :
    (ofConfig requestsPerSocket deviation).next random ≤ largest requestsPerSocket deviation := by
  unfold ofConfig largest
  split_ifs with hdeviation
  · have hrequests := requestsPerSocket.toNat_lt
    simp only [ofDeviation, next]
    have hrandom := Nat.mod_lt random (Nat.add_one_pos
      (min (requestsPerSocket.toNat + deviation.toNat) (2 ^ 64 - 1) -
        (requestsPerSocket.toNat - deviation.toNat)))
    omega
  · exact le_rfl

end RequestsPerSocket

section Quotas

variable {P A S K : Type} {view : SocketView S} {currSock : Job P A S K}
  {performRequest : K → Job P A S ℕ} {drop : K → Moment A → List Effect} {settle : K → Job P A S Unit}

/-- A disciplined worker that starts without a socket, and with a quota, keeps within the quotas. -/
theorem Disciplined.used_le (h : Disciplined view currSock performRequest drop settle) (w : S) {n : ℕ}
    (hw : (view.holder w).held = false) (hleft : (view.holder w).left ≤ n)
    (hdraws : ∀ d, (view.rule w).draws d → d ≤ n) (calls : List (ExecuteCall A)) :
    ∀ k ∈ used (socketUses view currSock (Job.doExecute currSock performRequest drop settle) w calls),
      k ≤ max 1 n := by
  have huses := h.history w calls
  rw [show view.holder w = ⟨false, (view.holder w).left⟩ by rw [← hw]] at huses
  refine Quota.used_le huses hleft hdraws fun left hle => ?_
  rwa [h.lost]

/-- A disciplined worker that starts without a socket gives each socket its full quota, when every call
that begins with a socket in hand is answered. -/
theorem Disciplined.full (h : Disciplined view currSock performRequest drop settle)
    {answered : List (Moment A) → Bool} (hanswers : Answering performRequest answered) {w : S}
    (hw : (view.holder w).held = false) (hleft : (view.rule w).draws (view.holder w).left)
    {calls : List (ExecuteCall A)}
    (hcalls : HeldAnswered view (Job.doExecute currSock performRequest drop settle) answered w calls) :
    Full (view.rule w).draws (view.holder w).left
      (socketUses view currSock (Job.doExecute currSock performRequest drop settle) w calls) := by
  have huses := h.history w calls
  rw [show view.holder w = ⟨false, (view.holder w).left⟩ by rw [← hw]] at huses
  exact full_of_served huses hleft (h.lost w) (h.served_of_heldAnswered hanswers w calls hcalls)

end Quotas

/-- **No socket carries more requests than its quota allows.** Whatever the calls of a worker meet, the
requests that it attempts on any one socket or connection are at most the largest quota, or one when
that is zero. -/
theorem requests_on_socket_le (requestsPerSocket deviation : UInt64) :
    (∀ calls, ∀ k ∈ used ((Udp.Worker.new requestsPerSocket.toNat).uses calls),
      k ≤ max 1 requestsPerSocket.toNat) ∧
    (∀ tls tcpLinger tcpNoDelay random calls,
      ∀ k ∈ used ((Http.CoroWorker.new tls (.ofConfig requestsPerSocket deviation) tcpLinger tcpNoDelay
        random).uses calls), k ≤ max 1 (RequestsPerSocket.largest requestsPerSocket deviation)) ∧
    (∀ parse tcpLinger tcpNoDelay calls,
      ∀ k ∈ used ((HttpRaw.CoroWorker.new requestsPerSocket.toNat tcpLinger tcpNoDelay).uses parse calls),
        k ≤ max 1 requestsPerSocket.toNat) ∧
    (∀ random calls,
      ∀ k ∈ used ((Http3.CoroWorker.new (.ofConfig requestsPerSocket deviation) random).uses calls),
        k ≤ max 1 (RequestsPerSocket.largest requestsPerSocket deviation)) := by
  have hdraws : ∀ d, (RequestsPerSocket.ofConfig requestsPerSocket deviation).Draws d →
      d ≤ RequestsPerSocket.largest requestsPerSocket deviation := by
    rintro d ⟨random, rfl⟩
    exact RequestsPerSocket.next_ofConfig_le requestsPerSocket deviation random
  refine ⟨fun calls => ?_, fun tls tcpLinger tcpNoDelay random calls => ?_,
    fun parse tcpLinger tcpNoDelay calls => ?_, fun random calls => ?_⟩
  · have huses := (Udp.Worker.new requestsPerSocket.toNat).history calls
    exact used_le huses le_rfl (fun d hd => hd.le) fun _ _ => le_rfl
  · exact Http.CoroWorker.disciplined.used_le (.new tls _ tcpLinger tcpNoDelay random) rfl
      (hdraws _ ⟨random, rfl⟩) hdraws calls
  · have hle := (HttpRaw.CoroWorker.disciplined parse).used_le
      (.new requestsPerSocket.toNat tcpLinger tcpNoDelay) rfl (Nat.sub_le _ _) (fun d hd => hd.le) calls
    rwa [← max_assoc, max_self] at hle
  · exact Http3.CoroWorker.disciplined.used_le (.new _ random) rfl (hdraws _ ⟨random, rfl⟩) hdraws calls

/-- **Every socket has its full quota while no socket is lost after it has served.** Every new socket
finds the quota that the generator drew last, or all of the fixed one, and is replaced after as many requests, or
one when that is zero; and then the generator draws again. -/
theorem sockets_full (gen : RequestsPerSocket) (requestsPerSock : ℕ) (parse : List UInt8 → HttpRaw.Parsed)
    (tcpLinger : Option ℕ) (tcpNoDelay : Bool) (random : ℕ) :
    (∀ tls calls,
      HeldAnswered Http.CoroWorker.socketView Http.CoroWorker.doExecute Http.CoroWorker.answered
        (Http.CoroWorker.new tls gen tcpLinger tcpNoDelay random) calls →
      Full gen.Draws (gen.next random) ((Http.CoroWorker.new tls gen tcpLinger tcpNoDelay random).uses calls)) ∧
    (∀ calls,
      HeldAnswered HttpRaw.CoroWorker.socketView (HttpRaw.CoroWorker.doExecute parse)
        (HttpRaw.CoroWorker.answered parse)
        (HttpRaw.CoroWorker.new requestsPerSock tcpLinger tcpNoDelay) calls →
      Full (· = max 1 requestsPerSock) (max 1 requestsPerSock)
        ((HttpRaw.CoroWorker.new requestsPerSock tcpLinger tcpNoDelay).uses parse calls)) ∧
    (∀ calls,
      HeldAnswered Http3.CoroWorker.socketView Http3.CoroWorker.doExecute Http3.CoroWorker.answered
        (Http3.CoroWorker.new gen random) calls →
      Full gen.Draws (gen.next random) ((Http3.CoroWorker.new gen random).uses calls)) := by
  refine ⟨fun tls calls hcalls => ?_, fun calls hcalls => ?_, fun calls hcalls => ?_⟩
  · exact Http.CoroWorker.disciplined.full Http.CoroWorker.answering rfl ⟨random, rfl⟩ hcalls
  · have hleft := (HttpRaw.CoroWorker.left_eq_iff (.new requestsPerSock tcpLinger tcpNoDelay)).mpr rfl
    exact (HttpRaw.CoroWorker.disciplined parse).full (HttpRaw.CoroWorker.answering parse) rfl hleft hcalls
  · exact Http3.CoroWorker.disciplined.full Http3.CoroWorker.answering rfl ⟨random, rfl⟩ hcalls

/-- A call that is woken up `n` times, and each time everything succeeds. -/
def Http.okCall (n : ℕ) : ExecuteCall Http.Answers :=
  ⟨⟨0, .allOk⟩, List.replicate n ⟨0, .allOk⟩, none⟩

/-- A call whose request is refused. -/
def Http.refusedCall : ExecuteCall Http.Answers :=
  ⟨⟨0, .allOk⟩, [⟨0, { Http.Answers.allOk with sendRequest := none }⟩], none⟩

/-- Two sockets for three requests, the quota being two. -/
theorem sockets_full_two_sockets :
    HeldAnswered Http.CoroWorker.socketView Http.CoroWorker.doExecute Http.CoroWorker.answered
      (Http.CoroWorker.new false (.fixed 2) none false 0) [Http.okCall 4, Http.okCall 2, Http.okCall 4] ∧
    Full (RequestsPerSocket.fixed 2).Draws 2 ((Http.CoroWorker.new false (.fixed 2) none false 0).uses
      [Http.okCall 4, Http.okCall 2, Http.okCall 4]) := by
  have hcalls : HeldAnswered Http.CoroWorker.socketView Http.CoroWorker.doExecute
      Http.CoroWorker.answered (Http.CoroWorker.new false (.fixed 2) none false 0)
      [Http.okCall 4, Http.okCall 2, Http.okCall 4] := by decide +kernel
  have hfull := sockets_full (.fixed 2) 0 (fun _ => .error) none false 0
  exact ⟨hcalls, hfull.1 false _ hcalls⟩

/-- A socket that has served one of its three requests is lost. The next one starts with two. -/
theorem not_full_of_lost :
    ¬ Full (RequestsPerSocket.fixed 3).Draws 3 ((Http.CoroWorker.new false (.fixed 3) none false 0).uses
    [Http.okCall 4, Http.refusedCall, Http.okCall 4, Http.okCall 2]) := by
  intro hfull
  have huses : (Http.CoroWorker.new false (.fixed 3) none false 0).uses
      [Http.okCall 4, Http.refusedCall, Http.okCall 4, Http.okCall 2] =
      [⟨⟨false, 3⟩, .served, ⟨true, 2⟩⟩, ⟨⟨true, 2⟩, .lost, ⟨false, 2⟩⟩, ⟨⟨false, 2⟩, .served, ⟨true, 1⟩⟩,
        ⟨⟨true, 1⟩, .served, ⟨false, 3⟩⟩] := by decide +kernel
  rw [huses] at hfull
  obtain ⟨hfresh, -⟩ := hfull [_, _] _ [_] rfl
  exact absurd (hfresh rfl).1 (by decide)

end Dwd
