import Dwd.HttpTask
import Dwd.LibQuota

/-! The sockets of a worker and their request quotas. A worker of an HTTP engine takes its socket out
when a call begins, and puts it back after a response unless the quota is spent; a call that fails or
runs out of time drops it. So a worker is the holder of a socket, and its calls are uses of it: a call
whose worker gets a socket attempts one request on it. -/

namespace Dwd

open Quota

/-- An effect that only updates the statistics. -/
def Effect.IsStat (effect : Effect) : Prop := ∃ op, effect = .stat op

/-- Whether a response has come. -/
def responded (effects : List Effect) : Bool :=
  effects.any fun
    | .stat _ => false
    | .received _ => true

theorem responded_append (effects effects' : List Effect) :
    responded (effects ++ effects') = (responded effects || responded effects') := List.any_append

theorem responded_of_isStat {effects : List Effect} (h : ∀ effect ∈ effects, effect.IsStat) :
    responded effects = false := by
  apply List.any_eq_false.mpr
  intro effect hmem
  obtain ⟨op, rfl⟩ := h effect hmem
  simp

/-- How a worker is seen as the holder of a socket. -/
structure SocketView (S : Type) where
  holder : S → Holder
  rule : S → Rule

/-- The worker in which a call ends, or waits. -/
def Execution.worker {P S : Type} : Execution P S → S
  | .completed w _ _ => w
  | .pending _ w _ => w

section Calls

variable {P A S K : Type} (view : SocketView S) (currSock : Job P A S K) (job : Job P A S Unit)

/-- What a call does with a socket: no request is attempted when the worker gets none. -/
def callOutcome (w : S) (call : ExecuteCall A) : Outcome :=
  match currSock w call.start call.script with
  | .done .. =>
      match execute job w call with
      | .completed _ effects _ => if responded effects then .served else .lost
      | .pending .. => .lost
  | _ => .unopened

/-- The uses that a worker makes of its sockets in a sequence of calls. -/
def socketUses : S → List (ExecuteCall A) → List Use
  | _, [] => []
  | w, call :: calls =>
      ⟨view.holder w, callOutcome currSock job w call, view.holder (execute job w call).worker⟩ ::
        match execute job w call with
        | .completed w' _ _ => socketUses w' calls
        | .pending .. => []

end Calls

namespace Job

variable {P A S K : Type} (performRequest : K → Job P A S ℕ) (drop : K → Moment A → List Effect)
  (settle : K → Job P A S Unit)

/-- `do_execute` from the point on where it has a response. -/
def onResponse (sock : K) (code : ℕ) : Job P A S Unit := do
  let us ← Coro.ask Moment.elapsed
  update (.onResponse us)
  Coro.emit (.received code)
  classify code
  settle sock

/-- `do_execute` from the point on where it has a socket. -/
def onSock (sock : K) : Job P A S Unit := do
  match ← Coro.attempt (Coro.holding (drop sock) (performRequest sock)) with
  | none =>
      update .onSockErr
      let dropped ← Coro.ask (drop sock)
      Coro.emitAll dropped
  | some code => onResponse settle sock code

theorem onSock_of_done {sock : K} {code : ℕ} {s s' : S} {env env' : Moment A} {ops : List Effect}
    {script rest : List (Moment A)} (h : performRequest sock s env script = .done code s' env' ops rest) :
    onSock performRequest drop settle sock s env script =
      Coro.after ops (onResponse settle sock code s' env' rest) := by
  simp only [onSock, bind, Coro.attempt, Coro.holding, h]

theorem doExecute_eq (currSock : Job P A S K) (w : S) (env : Moment A) (script : List (Moment A)) :
    doExecute currSock performRequest drop settle w env script =
      match currSock w env script with
      | .done sock s env ops rest => Coro.after ops (onSock performRequest drop settle sock s env rest)
      | .failed s env ops rest => .done () s env (ops ++ [.stat .onSockErr]) rest
      | .waiting point s ops dropped => .waiting point s ops dropped := by
  simp only [doExecute, bind, Coro.attempt]
  cases currSock w env script with
  | done sock s env ops rest => rfl
  | failed s env ops rest => rfl
  | waiting point s ops dropped => rfl

end Job

section Discipline

variable {P A S K : Type} {view : SocketView S} {currSock : Job P A S K}
  {performRequest : K → Job P A S ℕ} {drop : K → Moment A → List Effect} {settle : K → Job P A S Unit}

/-- The state of a worker as the holder of a socket is this one. -/
def SocketView.At (view : SocketView S) (holder : Holder) (rule : Rule) (s : S) : Prop :=
  view.holder s = holder ∧ view.rule s = rule

/-- The pieces of `do_execute` treat the socket as a holder does: it is taken out first, a held one at
once; nothing but a response is received in a request; and a response is settled by the rule. -/
structure Disciplined (view : SocketView S) (currSock : Job P A S K) (performRequest : K → Job P A S ℕ)
    (drop : K → Moment A → List Effect) (settle : K → Job P A S Unit) : Prop where
  lost : ∀ w left, (view.rule w).lost left = left
  taken : ∀ w, currSock.Keeps (view.At ⟨false, (view.holder w).left⟩ (view.rule w)) Effect.IsStat w
  held : ∀ w, (view.holder w).held = true → ∀ env script,
    ∃ sock s, currSock w env script = .done sock s env [] script
  performed : ∀ sock s,
    (performRequest sock).Keeps (view.At (view.holder s) (view.rule s)) Effect.IsStat s
  dropped : ∀ sock m, ∀ effect ∈ drop sock m, effect.IsStat
  settled : ∀ sock s, (view.holder s).held = false → (settle sock).Wp
    ⟨fun _ s' effects => (∀ held, Lawful (view.rule s) ⟨⟨held, (view.holder s).left⟩, .served, view.holder s'⟩) ∧
      view.rule s' = view.rule s ∧ ∀ effect ∈ effects, effect.IsStat, fun _ _ => False,
      fun _ _ _ _ => False⟩ s

/-- What can have become of a request on a socket that was taken out in the state `s`. -/
def requested (view : SocketView S) (s : S) : Coro.Post P (Moment A) Effect S Unit where
  done _ s' effects :=
    (responded effects = false ∧ view.At (view.holder s) (view.rule s) s') ∨
      (responded effects = true ∧ view.rule s' = view.rule s ∧
        ∀ held, Lawful (view.rule s) ⟨⟨held, (view.holder s).left⟩, .served, view.holder s'⟩)
  failed _ _ := False
  waiting _ s' effects dropped := responded effects = false ∧ (∀ m, responded (dropped m) = false) ∧
    view.At (view.holder s) (view.rule s) s'

theorem keeps_when {I : S → Prop} {J : Effect → Prop} {s : S} {condition : Bool} {job : Job P A S Unit}
    (hI : I s) (hjob : job.Keeps I J s) : (Job.when condition job).Keeps I J s := by
  unfold Job.when
  split_ifs
  · exact hjob
  · exact Coro.keeps_pure hI

/-- Take the socket out of the state, or else get one by another program. -/
def Job.takeOr (field : S → Option K) (take : S → S) (other : Job P A S K) : Job P A S K := do
  let self ← Coro.get
  Coro.modify take
  match field self with
  | some sock => return sock
  | none => other

theorem keeps_takeOr {I : S → Prop} {J : Effect → Prop} {s : S} {field : S → Option K} {take : S → S}
    {other : Job P A S K} (hI : I (take s)) (hother : ∀ s, I s → other.Keeps I J s) :
    (Job.takeOr field take other).Keeps I J s := by
  apply Coro.wp_bind
  apply Coro.wp_get
  apply Coro.wp_bind
  apply Coro.wp_modify
  cases field s with
  | some sock => exact Coro.keeps_pure hI
  | none => exact hother _ hI

theorem takeOr_of_some {field : S → Option K} {take : S → S} {other : Job P A S K} {s : S} {sock : K}
    (h : field s = some sock) (env : Moment A) (script : List (Moment A)) :
    Job.takeOr field take other s env script = .done sock (take s) env [] script := by
  simp only [Job.takeOr, bind, Coro.get, Coro.modify, h]
  rfl

/-- A socket in hand is taken out at once. -/
theorem exists_takeOr {field : S → Option K} {take : S → S} {other : Job P A S K} {s : S}
    (h : (field s).isSome = true) (env : Moment A) (script : List (Moment A)) :
    ∃ sock s', Job.takeOr field take other s env script = .done sock s' env [] script := by
  obtain ⟨sock, hsock⟩ := Option.isSome_iff_exists.mp h
  exact ⟨sock, take s, takeOr_of_some hsock env script⟩

theorem wp_classify_isStat (s : S) (code : ℕ) : (Job.classify code : Job P A S Unit).Wp
    ⟨fun _ s' effects => s' = s ∧ ∀ effect ∈ effects, effect.IsStat, fun _ _ => False,
      fun _ _ _ _ => False⟩ s := by
  have hupdate : ∀ op, (Job.update op : Job P A S Unit).Wp
      ⟨fun _ s' effects => s' = s ∧ ∀ effect ∈ effects, effect.IsStat, fun _ _ => False,
        fun _ _ _ _ => False⟩ s := by
    intro op
    apply Coro.wp_emit
    exact ⟨rfl, by simpa using ⟨op, rfl⟩⟩
  unfold Job.classify
  split_ifs
  · exact hupdate .on2xx
  · exact hupdate .on3xx
  · exact hupdate .on4xx
  · exact hupdate .on5xx
  · exact Coro.wp_pure ⟨rfl, by simp⟩

theorem Disciplined.wp_onResponse (h : Disciplined view currSock performRequest drop settle) (sock : K)
    (code : ℕ) {s : S} (hs : (view.holder s).held = false) : (Job.onResponse settle sock code).Wp
      ⟨fun _ s' effects => responded effects = true ∧ view.rule s' = view.rule s ∧
        ∀ held, Lawful (view.rule s) ⟨⟨held, (view.holder s).left⟩, .served, view.holder s'⟩,
        fun _ _ => False, fun _ _ _ _ => False⟩ s := by
  apply Coro.wp_bind
  refine Coro.wp_ask fun m => ?_
  apply Coro.wp_bind
  apply Coro.wp_emit
  apply Coro.wp_bind
  apply Coro.wp_emit
  apply Coro.wp_bind
  refine (wp_classify_isStat s code).mono ?_ (fun _ _ h => h) (fun _ _ _ _ h => h)
  rintro _ s₁ classes ⟨rfl, hclasses⟩
  refine (h.settled sock s₁ hs).mono ?_ (fun _ _ h => h) (fun _ _ _ _ h => h)
  rintro _ s₂ settles ⟨hlawful, hrule, hsettles⟩
  exact ⟨by simp [responded], hrule, hlawful⟩

/-- A request on a socket is lost, and then the state is what it was, or it is served by the rule. -/
theorem Disciplined.wp_onSock (h : Disciplined view currSock performRequest drop settle) (sock : K) {s : S}
    (hs : (view.holder s).held = false) :
    (Job.onSock performRequest drop settle sock).Wp (requested view s) s := by
  apply Coro.wp_bind
  apply Coro.wp_attempt
  apply Coro.wp_holding
  refine (h.performed sock s).mono ?_ ?_ ?_
  · rintro code s₁ ops ⟨⟨hholder, hrule⟩, hops⟩
    have hs₁ : (view.holder s₁).held = false := by rw [hholder, hs]
    refine (h.wp_onResponse sock code hs₁).mono ?_ (fun _ _ h => h) (fun _ _ _ _ h => h.elim)
    rintro _ s₂ effects ⟨hresponded, hrule', hlawful⟩
    rw [hholder, hrule] at hlawful
    right
    refine ⟨?_, hrule'.trans hrule, hlawful⟩
    rw [responded_append, hresponded, Bool.or_true]
  · rintro s₁ ops ⟨hAt, hops⟩
    apply Coro.wp_bind
    apply Coro.wp_emit
    apply Coro.wp_bind
    refine Coro.wp_ask fun m => ?_
    apply Coro.wp_emitAll
    left
    refine ⟨?_, hAt⟩
    rw [responded_append, responded_append, responded_append, responded_of_isStat hops,
      responded_of_isStat (h.dropped sock m)]
    rfl
  · rintro point s₁ ops dropped ⟨hAt, hops, hdropped⟩
    refine ⟨responded_of_isStat hops, fun m => ?_, hAt⟩
    rw [responded_append, responded_of_isStat (hdropped m), responded_of_isStat (h.dropped sock m)]
    rfl

/-- A call that takes the worker from `w` to `w'` is a lawful use of a socket, and keeps the rule. -/
def SocketView.Uses (view : SocketView S) (w : S) (outcome : Outcome) (w' : S) : Prop :=
  Lawful (view.rule w) ⟨view.holder w, outcome, view.holder w'⟩ ∧ view.rule w' = view.rule w

theorem Disciplined.uses_lost (h : Disciplined view currSock performRequest drop settle) {w w' : S}
    (hat : view.At ⟨false, (view.holder w).left⟩ (view.rule w) w') : view.Uses w .lost w' := by
  obtain ⟨hholder, hrule⟩ := hat
  have hlost : Lawful (view.rule w) ⟨view.holder w, .lost, ⟨false, (view.rule w).lost (view.holder w).left⟩⟩ :=
    Lawful.lost (view.holder w).held (view.holder w).left
  rw [h.lost, ← hholder] at hlost
  exact ⟨hlost, hrule⟩

/-- A worker that gets no socket held none. -/
theorem Disciplined.uses_unopened (h : Disciplined view currSock performRequest drop settle) {w w' : S}
    {env : Moment A} {script : List (Moment A)}
    (hrun : ∀ sock s env' ops rest, currSock w env script ≠ .done sock s env' ops rest)
    (hat : view.At ⟨false, (view.holder w).left⟩ (view.rule w) w') : view.Uses w .unopened w' := by
  obtain ⟨hholder, hrule⟩ := hat
  have hheld : view.holder w = ⟨false, (view.holder w).left⟩ := by
    cases hheld : (view.holder w).held with
    | false => rw [← hheld]
    | true =>
        obtain ⟨sock, s, hdone⟩ := h.held w hheld env script
        exact absurd hdone (hrun sock s env [] script)
  refine ⟨?_, hrule⟩
  rw [hholder, hheld]
  exact Lawful.unopened (view.holder w).left

/-- A call is a use of a socket, and follows the rule. -/
theorem Disciplined.uses_call (h : Disciplined view currSock performRequest drop settle) (w : S)
    (call : ExecuteCall A) :
    view.Uses w (callOutcome currSock (Job.doExecute currSock performRequest drop settle) w call)
      (execute (Job.doExecute currSock performRequest drop settle) w call).worker := by
  have htaken := h.taken w call.start call.script
  simp only [callOutcome, execute, Job.doExecute_eq]
  cases hrun : currSock w call.start call.script with
  | done sock s env ops rest =>
      rw [hrun] at htaken
      obtain ⟨⟨hholder, hrule⟩, hops⟩ := htaken
      have hs : (view.holder s).held = false := by rw [hholder]
      have hrequest := h.wp_onSock sock hs env rest
      dsimp only
      generalize Job.onSock performRequest drop settle sock s env rest = r at hrequest ⊢
      cases r with
      | done u s' env' effects rest' =>
          simp only [Coro.after, responded_append, responded_of_isStat hops, Bool.false_or,
            Execution.worker]
          rcases hrequest with ⟨hresponded, hat⟩ | ⟨hresponded, hrule', hlawful⟩
          · rw [hresponded]
            rw [hholder, hrule] at hat
            exact h.uses_lost hat
          · rw [hresponded]
            rw [hholder, hrule] at hlawful
            exact ⟨hlawful (view.holder w).held, hrule'.trans hrule⟩
      | failed s' env' effects rest' => exact hrequest.elim
      | waiting point s' effects dropped =>
          obtain ⟨hresponded, hdropped, hat⟩ := hrequest
          rw [hholder, hrule] at hat
          have hlost := h.uses_lost hat
          simp only [Coro.after]
          cases call.timer with
          | none => exact hlost
          | some m =>
              simp only [responded_append, responded_of_isStat hops, hresponded, hdropped m]
              exact hlost
  | failed s env ops rest =>
      rw [hrun] at htaken
      exact h.uses_unopened (by rw [hrun]; simp) htaken.1
  | waiting point s ops dropped =>
      rw [hrun] at htaken
      have hunopened : view.Uses w .unopened s := h.uses_unopened (by rw [hrun]; simp) htaken.1
      cases call.timer with
      | none => exact hunopened
      | some m => exact hunopened

/-- **The calls of a disciplined worker are a history of lawful uses.** -/
theorem Disciplined.history (h : Disciplined view currSock performRequest drop settle) (w : S)
    (calls : List (ExecuteCall A)) : History (view.rule w) (view.holder w)
      (socketUses view currSock (Job.doExecute currSock performRequest drop settle) w calls) := by
  induction calls generalizing w with
  | nil => exact .nil _
  | cons call calls ih =>
      obtain ⟨hlawful, hrule⟩ := h.uses_call w call
      rw [socketUses]
      cases hcall : execute (Job.doExecute currSock performRequest drop settle) w call with
      | completed w' effects expired =>
          rw [hcall] at hlawful hrule
          have hrest := ih w'
          rw [show view.rule w' = view.rule w from hrule] at hrest
          exact .cons hlawful hrest
      | pending point w' effects =>
          rw [hcall] at hlawful
          exact .cons hlawful (.nil _)

/-- Every call that begins with a socket in hand and comes to its end is answered; `answered` tells it from the
script of the call. -/
def HeldAnswered (view : SocketView S) (job : Job P A S Unit) (answered : List (Moment A) → Bool) :
    S → List (ExecuteCall A) → Prop
  | _, [] => True
  | w, call :: calls =>
      match execute job w call with
      | .completed w' _ _ =>
          ((view.holder w).held = true → answered call.script = true) ∧ HeldAnswered view job answered w' calls
      | .pending .. => True

instance decidableHeldAnswered {job : Job P A S Unit} {answered : List (Moment A) → Bool} :
    ∀ (w : S) (calls : List (ExecuteCall A)), Decidable (HeldAnswered view job answered w calls)
  | _, [] => isTrue trivial
  | w, call :: calls =>
      show Decidable (match execute job w call with
          | .completed w' _ _ =>
              ((view.holder w).held = true → answered call.script = true) ∧ HeldAnswered view job answered w' calls
          | .pending .. => True) from
        match execute job w call with
        | .completed w' _ _ =>
            have : Decidable (HeldAnswered view job answered w' calls) := decidableHeldAnswered w' calls
            inferInstanceAs (Decidable (_ ∧ _))
        | .pending .. => isTrue trivial

/-- A script answers a request when the request gets its response on it, whatever is sent. -/
def Answering (performRequest : K → Job P A S ℕ) (answered : List (Moment A) → Bool) : Prop :=
  ∀ sock s env script, answered script = true →
    ∃ code s' env' ops rest, performRequest sock s env script = .done code s' env' ops rest

theorem Disciplined.served_of_answered (h : Disciplined view currSock performRequest drop settle)
    {answered : List (Moment A) → Bool} (hanswers : Answering performRequest answered) {w : S}
    {call : ExecuteCall A} (hheld : (view.holder w).held = true) (ha : answered call.script = true) :
    callOutcome currSock (Job.doExecute currSock performRequest drop settle) w call = .served := by
  obtain ⟨sock, s, hcurr⟩ := h.held w hheld call.start call.script
  obtain ⟨code, s', env', ops, rest, hdone⟩ := hanswers sock s call.start call.script ha
  have hs' : (view.holder s').held = false := by
    have htaken := h.taken w call.start call.script
    have hperformed := h.performed sock s call.start call.script
    rw [hcurr] at htaken
    rw [hdone] at hperformed
    rw [hperformed.1.1, htaken.1.1]
  have hresponse := h.wp_onResponse sock code hs' env' rest
  simp only [callOutcome, execute, Job.doExecute_eq, hcurr,
    Job.onSock_of_done performRequest drop settle hdone]
  generalize Job.onResponse settle sock code s' env' rest = r at hresponse ⊢
  cases r with
  | done u s'' env'' effects rest' =>
      obtain ⟨hresponded, -⟩ := hresponse
      simp only [Coro.after, List.nil_append, responded_append, hresponded, Bool.or_true, if_true]
  | failed s'' env'' effects rest' => exact hresponse.elim
  | waiting point s'' effects dropped => exact hresponse.elim

theorem Disciplined.served_of_heldAnswered (h : Disciplined view currSock performRequest drop settle)
    {answered : List (Moment A) → Bool} (hanswers : Answering performRequest answered) (w : S)
    (calls : List (ExecuteCall A))
    (hcalls : HeldAnswered view (Job.doExecute currSock performRequest drop settle) answered w calls) :
    ∀ use ∈ (socketUses view currSock (Job.doExecute currSock performRequest drop settle) w calls).dropLast,
      use.before.held = true → use.outcome = .served := by
  induction calls generalizing w with
  | nil => simp [socketUses]
  | cons call calls ih =>
      rw [HeldAnswered] at hcalls
      rw [socketUses]
      cases hcall : execute (Job.doExecute currSock performRequest drop settle) w call with
      | completed w' effects expired =>
          rw [hcall] at hcalls
          intro use hmem hheld
          rcases mem_dropLast_cons hmem with rfl | hmem
          · exact h.served_of_answered hanswers hheld (hcalls.1 hheld)
          · exact ih w' hcalls.2 use hmem hheld
      | pending point w' effects => simp

end Discipline

end Dwd
