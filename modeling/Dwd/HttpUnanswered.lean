import Dwd.HttpConservation

/-! Requests without an answer. The summary of a run takes what is left of the requests after the
responses and the timeouts for the requests that got neither. The timer of a call also covers its
connecting and the wait for the response head, where the `http` engine has not counted the request: a
timeout there is one without a request. -/

namespace Dwd

/-- `unanswered` of `RunSummary::issues`, a saturating subtraction. -/
def Stat.unanswered (s : Stat) : ℕ := s.numRequests - (s.numResponses + s.numTimeouts)

/-- The effects of one call count a request and neither a response nor a timeout. -/
def NoAnswer (effects : List Effect) : Prop :=
  added .requests effects ≠ 0 ∧ added .responses effects = 0 ∧ added .timeouts effects = 0

instance (effects : List Effect) : Decidable (NoAnswer effects) := instDecidableAnd

section Runs

variable {P A S : Type} (job : Job P A S Unit)

/-- How many calls of a run have sent a request that got neither a response nor a timeout. -/
def unansweredCalls : S → List (ExecuteCall A) → ℕ
  | _, [] => 0
  | w, call :: calls =>
      match execute job w call with
      | .completed w effects _ => (if NoAnswer effects then 1 else 0) + unansweredCalls w calls
      | .pending _ _ effects => if NoAnswer effects then 1 else 0

/-- No timer of a run fires at an early point. -/
def NoEarlyTimeout (early : P → Prop) : S → List (ExecuteCall A) → Prop
  | _, [] => True
  | w, call :: calls =>
      match execute job w call with
      | .completed w _ expired => (∀ point, expired = some point → ¬ early point) ∧
          NoEarlyTimeout early w calls
      | .pending _ _ _ => True

end Runs

/-- The requests are the responses, the timeouts and `n` that got neither. -/
def Answered (n : ℕ) (effects : List Effect) : Prop :=
  added .requests effects = added .responses effects + added .timeouts effects + n

namespace Answered

theorem append {n m : ℕ} {effects effects' : List Effect} (h : Answered n effects)
    (h' : Answered m effects') : Answered (n + m) (effects ++ effects') := by
  unfold Answered at *
  simp only [added_append]
  omega

theorem perm {n : ℕ} {effects effects' : List Effect} (h : Answered n effects)
    (hperm : effects'.Perm effects) : Answered n effects' := by
  unfold Answered at *
  simp only [added_perm _ hperm]
  exact h

/-- A call that counts at most one request, and answers only what it has counted. -/
theorem of_le_one {effects : List Effect} (hrequests : added .requests effects ≤ 1)
    (hle : added .responses effects + added .timeouts effects ≤ added .requests effects) :
    Answered (if NoAnswer effects then 1 else 0) effects := by
  unfold Answered
  split_ifs with h
  · obtain ⟨hne, hresponses, htimeouts⟩ := h
    omega
  · unfold NoAnswer at h
    omega

end Answered

variable {P A S : Type} {job : Job P A S Unit} {early : P → Prop}

/-- A call whose timer does not fire early answers only what it has counted. -/
theorem execute_answered (hjob : ∀ s, job.Wp (oneOutcome early) s) (w : S) (call : ExecuteCall A) :
    match execute job w call with
    | .completed _ effects expired => (∀ point, expired = some point → ¬ early point) →
        Answered (if NoAnswer effects then 1 else 0) effects
    | .pending _ _ effects => Answered (if NoAnswer effects then 1 else 0) effects := by
  have hcases := execute_cases hjob w call
  rcases hexecute : execute job w call with ⟨w', effects, _ | point⟩ | ⟨point, w', effects⟩
  · rw [hexecute] at hcases
    intro _
    apply Answered.of_le_one hcases.requests
    rw [hcases.timeouts]
    exact hcases.balanced.responses
  · rw [hexecute] at hcases
    intro hlate
    obtain ⟨waited, dropped, us, rfl, hdropped, ⟨hearly, -⟩ | ⟨-, hcounted⟩⟩ := hcases
    · exact absurd hearly (hlate point rfl)
    · obtain ⟨-, hrequests, hresponses, htimeouts⟩ := hcounted.onTimeout us hdropped
      apply Answered.of_le_one
      · rw [hrequests]
      · rw [hresponses, htimeouts, hrequests]
  · rw [hexecute] at hcases
    show Answered (if NoAnswer effects then 1 else 0) effects
    rcases hcases with ⟨-, hcounted⟩ | ⟨-, hcounted⟩
    · apply Answered.of_le_one
      · rw [hcounted.requests]
        exact zero_le_one
      · rw [hcounted.responses, hcounted.timeouts]
        exact Nat.zero_le _
    · apply Answered.of_le_one
      · rw [hcounted.requests]
      · rw [hcounted.responses, hcounted.timeouts]
        exact Nat.zero_le _

theorem runCalls_answered (hjob : ∀ s, job.Wp (oneOutcome early) s) (w : S)
    (calls : List (ExecuteCall A)) (h : NoEarlyTimeout job early w calls) :
    Answered (unansweredCalls job w calls) (runCalls job w calls).2 := by
  induction calls generalizing w with
  | nil => rfl
  | cons call calls ih =>
      have hcall := execute_answered hjob w call
      rw [NoEarlyTimeout] at h
      rw [unansweredCalls, runCalls]
      cases hexecute : execute job w call with
      | completed w' effects expired =>
          rw [hexecute] at hcall h
          exact (hcall h.1).append (ih w' h.2)
      | pending point w' effects =>
          rw [hexecute] at hcall
          exact hcall

theorem workers_answered (hjob : ∀ s, job.Wp (oneOutcome early) s)
    (workers : List (S × List (ExecuteCall A)))
    (h : ∀ w ∈ workers, NoEarlyTimeout job early w.1 w.2) :
    Answered (workers.map fun w => unansweredCalls job w.1 w.2).sum
      (workers.map fun w => (runCalls job w.1 w.2).2).flatten := by
  induction workers with
  | nil => rfl
  | cons w workers ih =>
      have hfirst := runCalls_answered hjob w.1 w.2 (h w (by simp))
      exact hfirst.append (ih fun w hw => h w (by simp [hw]))

theorem threads_answered (hjob : ∀ s, job.Wp (oneOutcome early) s) {effects : List (List Effect)}
    {threads : List (List (S × List (ExecuteCall A)))} (hinterleaves : Interleaves job effects threads)
    (h : ∀ workers ∈ threads, ∀ w ∈ workers, NoEarlyTimeout job early w.1 w.2) :
    Answered (threads.map fun workers =>
      (workers.map fun w => unansweredCalls job w.1 w.2).sum).sum effects.flatten := by
  unfold Interleaves at hinterleaves
  induction hinterleaves with
  | nil => rfl
  | cons hperm _ ih =>
      have hfirst := workers_answered hjob _ (h _ List.mem_cons_self)
      exact (hfirst.perm hperm).append
        (ih fun workers hworkers => h workers (List.mem_cons_of_mem _ hworkers))

namespace Http

open CoroWorker

/-- **Timeouts and responses stay within the requests**, in every state of the runs of the `http`
workers in which no timer fires before the head of the response has come; and what the summary calls
unanswered are the counted requests that got neither. -/
theorem answers_within_requests (threads : List (List (CoroWorker × List (ExecuteCall Answers))))
    (effects : List (List Effect)) (hinterleaves : Interleaves doExecute effects threads)
    (h : ∀ workers ∈ threads, ∀ w ∈ workers, NoEarlyTimeout doExecute Point.early w.1 w.2) :
    (statOf effects).numResponses + (statOf effects).numTimeouts ≤ (statOf effects).numRequests ∧
      (statOf effects).unanswered = (threads.map fun workers =>
        (workers.map fun w => unansweredCalls doExecute w.1 w.2).sum).sum := by
  have hanswered := threads_answered wp_execute hinterleaves h
  unfold Answered at hanswered
  simp only [← statOf_count] at hanswered
  have hrequests : (statOf effects).numRequests =
      (statOf effects).numResponses + (statOf effects).numTimeouts + _ := hanswered
  constructor
  · omega
  · rw [Stat.unanswered, hrequests]
    omega

/-- A response, and then a timeout in the body of the next response on the same connection. -/
theorem answers_within_requests_two_calls :
    ∃ effects, Interleaves doExecute effects
        [[(CoroWorker.new false (.fixed 10) none false 0,
          [⟨⟨0, Answers.allOk⟩, [⟨1, Answers.allOk⟩, ⟨2, Answers.allOk⟩, ⟨5, Answers.allOk⟩,
              ⟨9, Answers.allOk⟩], none⟩,
            ⟨⟨0, Answers.allOk⟩, [⟨5, Answers.allOk⟩], some ⟨1000, Answers.allOk⟩⟩])]] ∧
      (statOf effects).numRequests = 2 ∧ (statOf effects).numTimeouts = 1 ∧
      (statOf effects).numResponses + (statOf effects).numTimeouts ≤ (statOf effects).numRequests := by
  refine ⟨[_], List.Forall₂.cons (List.Perm.refl _) List.Forall₂.nil, rfl, rfl, ?_⟩
  refine (answers_within_requests _ _ (List.Forall₂.cons (List.Perm.refl _) List.Forall₂.nil) ?_).1
  intro workers hworkers w hw
  obtain rfl := List.mem_singleton.mp hworkers
  obtain rfl := List.mem_singleton.mp hw
  refine ⟨fun point h => (by cases h), fun point h => ?_, trivial⟩
  obtain rfl := Option.some.inj h
  exact not_not.mpr rfl

/-- A connection that is never established: one timeout, and no request. -/
theorem timeout_before_request :
    ∃ effects, Interleaves doExecute effects
        [[(CoroWorker.new false (.fixed 10) none false 0,
          [⟨⟨0, Answers.allOk⟩, [], some ⟨1000, Answers.allOk⟩⟩])]] ∧
      (statOf effects).numRequests = 0 ∧ (statOf effects).numTimeouts = 1 ∧
      ¬ (statOf effects).numResponses + (statOf effects).numTimeouts ≤ (statOf effects).numRequests := by
  refine ⟨[_], List.Forall₂.cons (List.Perm.refl _) List.Forall₂.nil, rfl, rfl, ?_⟩
  decide

end Http

end Dwd
