import Dwd.HttpTask

/-! What a call of `execute` adds to the statistics. Effects are balanced when their outcomes add up to
a number of completed calls and the histogram and the classes are in step with the responses; balance
adds up over effects. A program of a worker is before its request, with nothing counted, or past it,
with the request counted and no outcome yet; `do_execute` ends with one outcome. -/

namespace Dwd

theorem statOps_append (effects effects' : List Effect) :
    statOps (effects ++ effects') = statOps effects ++ statOps effects' := List.filterMap_append

/-- What effects add to a counter. -/
def added (c : Counter) (effects : List Effect) : ℕ := total c (statOps effects)

theorem added_append (c : Counter) (effects effects' : List Effect) :
    added c (effects ++ effects') = added c effects + added c effects' := by
  rw [added, statOps_append, total_append]
  rfl

theorem added_perm (c : Counter) {effects effects' : List Effect} (h : effects.Perm effects') :
    added c effects = added c effects' := total_perm c (h.filterMap _)

/-- The responses that have been put into a class. -/
def classified (effects : List Effect) : ℕ :=
  added .num2xx effects + added .num3xx effects + added .num4xx effects + added .num5xx effects

theorem classified_append (effects effects' : List Effect) :
    classified (effects ++ effects') = classified effects + classified effects' := by
  simp only [classified, added_append]
  omega

/-- Every response code is one that has a class. -/
def CodesInRange (effects : List Effect) : Prop :=
  ∀ code, Effect.received code ∈ effects → 200 ≤ code ∧ code < 600

/-- The effects of `n` completed calls, and of calls that have not completed. -/
structure Balanced (n : ℕ) (effects : List Effect) : Prop where
  outcomes : added .responses effects + added .timeouts effects + added .sockErrors effects = n
  recorded : added .recorded effects = added .responses effects + added .timeouts effects
  responses : added .responses effects ≤ added .requests effects
  classes : classified effects ≤ added .responses effects
  allClasses : CodesInRange effects → classified effects = added .responses effects

namespace Balanced

theorem nil : Balanced 0 [] := ⟨rfl, rfl, le_rfl, le_rfl, fun _ => rfl⟩

theorem append {n m : ℕ} {effects effects' : List Effect} (h : Balanced n effects)
    (h' : Balanced m effects') : Balanced (n + m) (effects ++ effects') := by
  obtain ⟨houtcomes, hrecorded, hresponses, hclasses, hall⟩ := h
  obtain ⟨houtcomes', hrecorded', hresponses', hclasses', hall'⟩ := h'
  refine ⟨?_, ?_, ?_, ?_, fun hcodes => ?_⟩
  · simp only [added_append]
    omega
  · simp only [added_append]
    omega
  · simp only [added_append]
    omega
  · simp only [classified_append, added_append]
    omega
  · have hleft := hall fun code hmem => hcodes code (List.mem_append_left _ hmem)
    have hright := hall' fun code hmem => hcodes code (List.mem_append_right _ hmem)
    rw [classified_append, added_append, hleft, hright]

theorem perm {n : ℕ} {effects effects' : List Effect} (h : Balanced n effects)
    (hperm : effects'.Perm effects) : Balanced n effects' := by
  obtain ⟨houtcomes, hrecorded, hresponses, hclasses, hall⟩ := h
  have hclassified : classified effects' = classified effects := by
    simp only [classified, added_perm _ hperm]
  refine ⟨?_, ?_, ?_, ?_, fun hcodes => ?_⟩
  · simp only [added_perm _ hperm]
    exact houtcomes
  · simp only [added_perm _ hperm]
    exact hrecorded
  · simp only [added_perm _ hperm]
    exact hresponses
  · simp only [hclassified, added_perm _ hperm]
    exact hclasses
  · simp only [hclassified, added_perm _ hperm]
    exact hall fun code hmem => hcodes code (hperm.mem_iff.mpr hmem)

end Balanced

/-- No outcome has been counted, and `n` requests have. -/
structure Counted (n : ℕ) (effects : List Effect) : Prop where
  requests : added .requests effects = n
  responses : added .responses effects = 0
  timeouts : added .timeouts effects = 0
  recorded : added .recorded effects = 0
  sockErrors : added .sockErrors effects = 0
  classes : classified effects = 0

namespace Counted

theorem nil : Counted 0 [] := ⟨rfl, rfl, rfl, rfl, rfl, rfl⟩

theorem append {n m : ℕ} {effects effects' : List Effect} (h : Counted n effects)
    (h' : Counted m effects') : Counted (n + m) (effects ++ effects') := by
  obtain ⟨hrequests, hresponses, htimeouts, hrecorded, herrors, hclasses⟩ := h
  obtain ⟨hrequests', hresponses', htimeouts', hrecorded', herrors', hclasses'⟩ := h'
  constructor
  · rw [added_append, hrequests, hrequests']
  · rw [added_append, hresponses, hresponses']
  · rw [added_append, htimeouts, htimeouts']
  · rw [added_append, hrecorded, hrecorded']
  · rw [added_append, herrors, herrors']
  · rw [classified_append, hclasses, hclasses']

theorem append_zero {n : ℕ} {effects effects' : List Effect} (h : Counted n effects)
    (h' : Counted 0 effects') : Counted n (effects ++ effects') := h.append h'

theorem zero_append {n : ℕ} {effects effects' : List Effect} (h : Counted 0 effects)
    (h' : Counted n effects') : Counted n (effects ++ effects') := by
  have happend := h.append h'
  rwa [Nat.zero_add] at happend

theorem onRequests (n : ℕ) : Counted n [.stat (.onRequests n)] := ⟨rfl, rfl, rfl, rfl, rfl, rfl⟩

theorem onSend (n : ℕ) : Counted 0 [.stat (.onSend n)] := ⟨rfl, rfl, rfl, rfl, rfl, rfl⟩

theorem onRecv (n : ℕ) : Counted 0 [.stat (.onRecv n)] := ⟨rfl, rfl, rfl, rfl, rfl, rfl⟩

theorem onRetransmits (n : ℕ) : Counted 0 [.stat (.onRetransmits n)] := ⟨rfl, rfl, rfl, rfl, rfl, rfl⟩

theorem onSockCreated : Counted 0 [.stat .onSockCreated] := ⟨rfl, rfl, rfl, rfl, rfl, rfl⟩

theorem balanced {n : ℕ} {effects : List Effect} (h : Counted n effects) : Balanced 0 effects := by
  obtain ⟨hrequests, hresponses, htimeouts, hrecorded, herrors, hclasses⟩ := h
  refine ⟨?_, ?_, ?_, ?_, fun _ => ?_⟩
  · rw [hresponses, htimeouts, herrors]
  · rw [hrecorded, hresponses, htimeouts]
  · rw [hresponses]
    exact Nat.zero_le _
  · rw [hclasses]
    exact Nat.zero_le _
  · rw [hclasses, hresponses]

end Counted

/-- The effects of a call that has ended without the timer: a response to its request, or an error
before or after the request was counted. -/
structure Ended (effects : List Effect) : Prop where
  balanced : Balanced 1 effects
  timeouts : added .timeouts effects = 0
  requests : added .requests effects ≤ 1

/-- An error ends a call. -/
theorem Ended.onSockErr {n : ℕ} {effects effects' : List Effect} (h : Counted n effects) (hn : n ≤ 1)
    (h' : Counted 0 effects') : Ended (effects ++ (.stat .onSockErr :: effects')) := by
  have herr : Balanced 1 [.stat .onSockErr] :=
    ⟨rfl, rfl, le_rfl, le_rfl, fun _ => rfl⟩
  have hzero : ∀ c : Counter, c ≠ .sockErrors → added c [.stat .onSockErr] = 0 := by
    intro c hc
    cases c <;> first | rfl | exact absurd rfl hc
  rw [List.append_cons, List.append_assoc]
  refine ⟨?_, ?_, ?_⟩
  · have hbalanced := h.balanced.append (herr.append h'.balanced)
    exact hbalanced
  · rw [added_append, added_append, h.timeouts, h'.timeouts, hzero _ (by decide)]
  · rw [added_append, added_append, h.requests, h'.requests, hzero _ (by decide)]
    exact hn

/-- The effects of `classify`. -/
def classEffects (code : ℕ) : List Effect :=
  if 200 ≤ code ∧ code < 300 then [.stat .on2xx]
  else if 300 ≤ code ∧ code < 400 then [.stat .on3xx]
  else if 400 ≤ code ∧ code < 500 then [.stat .on4xx]
  else if 500 ≤ code ∧ code < 600 then [.stat .on5xx]
  else []

/-- A response, with its class. -/
def responseEffects (us code : ℕ) : List Effect :=
  .stat (.onResponse us) :: .received code :: classEffects code

/-- What a response adds, whether or not its code has a class. -/
theorem added_responseEffects (us code : ℕ) :
    added .requests (responseEffects us code) = 0 ∧ added .responses (responseEffects us code) = 1 ∧
      added .timeouts (responseEffects us code) = 0 ∧ added .recorded (responseEffects us code) = 1 ∧
      added .sockErrors (responseEffects us code) = 0 ∧
      classified (responseEffects us code) = if 200 ≤ code ∧ code < 600 then 1 else 0 := by
  unfold responseEffects classEffects
  split_ifs <;> first | exact ⟨rfl, rfl, rfl, rfl, rfl, rfl⟩ | omega

/-- A response ends a call whose request has been counted. -/
theorem Ended.onResponse {effects effects' : List Effect} (us code : ℕ) (h : Counted 1 effects)
    (h' : Counted 0 effects') : Ended (effects ++ (responseEffects us code ++ effects')) := by
  obtain ⟨hrequests, hresponses, htimeouts, hrecorded, herrors, hclasses⟩ := added_responseEffects us code
  refine ⟨⟨?_, ?_, ?_, ?_, fun hcodes => ?_⟩, ?_, ?_⟩
  · simp only [added_append, h.responses, h.timeouts, h.sockErrors, h'.responses, h'.timeouts,
      h'.sockErrors, hresponses, htimeouts, herrors]
  · simp only [added_append, h.responses, h.timeouts, h.recorded, h'.responses, h'.timeouts,
      h'.recorded, hresponses, htimeouts, hrecorded]
  · simp only [added_append, h.responses, h.requests, h'.responses, h'.requests, hresponses, hrequests]
    exact le_rfl
  · simp only [classified_append, added_append, h.responses, h.classes, h'.responses, h'.classes,
      hresponses, hclasses]
    split_ifs
    · exact le_rfl
    · exact Nat.zero_le _
  · have hcode := hcodes code (by simp [responseEffects])
    simp only [classified_append, added_append, h.responses, h.classes, h'.responses, h'.classes,
      hresponses, hclasses, if_pos hcode]
  · simp only [added_append, h.timeouts, h'.timeouts, htimeouts]
  · simp only [added_append, h.requests, h'.requests, hrequests]
    exact le_rfl

variable {P A S K : Type}

/-- A program that waits has counted nothing at an early point and its request at the others, and what
it drops when it is cancelled counts nothing. -/
def WaitsCounted (early : P → Prop) (point : P) (effects : List Effect) (dropped : Moment A → List Effect) :
    Prop :=
  ((early point ∧ Counted 0 effects) ∨ (¬ early point ∧ Counted 1 effects)) ∧
    ∀ m, Counted 0 (dropped m)

/-- A program that counts nothing and waits only at some of the points. -/
def quiet (points : P → Prop) : Coro.Post P (Moment A) Effect S K where
  done _ _ effects := Counted 0 effects
  failed _ effects := Counted 0 effects
  waiting point _ effects dropped := points point ∧ Counted 0 effects ∧ ∀ m, Counted 0 (dropped m)

/-- How a program performs a request: it is counted once. -/
def throughRequest (early : P → Prop) : Coro.Post P (Moment A) Effect S ℕ where
  done _ _ effects := Counted 1 effects
  failed _ effects := Counted 0 effects ∨ Counted 1 effects
  waiting point _ effects dropped := WaitsCounted early point effects dropped

/-- A program that counts nothing and always ends at once. -/
def atOnce : Coro.Post P (Moment A) Effect S K where
  done _ _ effects := Counted 0 effects
  failed _ _ := False
  waiting _ _ _ _ := False

/-- How `do_execute` goes: it ends with one outcome, or it waits. -/
def oneOutcome (early : P → Prop) : Coro.Post P (Moment A) Effect S Unit where
  done _ _ effects := Ended effects
  failed _ _ := False
  waiting point _ effects dropped := WaitsCounted early point effects dropped

section Rules

variable {β : Type} {points early : P → Prop} {s : S}

theorem wp_quiet_bind {m : Job P A S β} {f : β → Job P A S K} (hm : m.Wp (quiet points) s)
    (hf : ∀ b s, (f b).Wp (quiet points) s) : (m >>= f).Wp (quiet points) s := by
  apply Coro.wp_bind
  apply hm.mono
  · intro b s before hbefore
    apply (hf b s).mono
    · exact fun _ _ effects h => hbefore.append h
    · exact fun _ effects h => hbefore.append h
    · exact fun _ _ effects _ h => ⟨h.1, hbefore.append h.2.1, h.2.2⟩
  · exact fun _ _ h => h
  · exact fun _ _ _ _ h => h

theorem wp_quiet_require (f : A → Bool) : (Job.require f : Job P A S Unit).Wp (quiet points) s :=
  Coro.wp_require Counted.nil Counted.nil

theorem wp_quiet_await {point : P} (hpoint : points point) (f : A → Option K) :
    (Job.await point f : Job P A S K).Wp (quiet points) s :=
  Coro.wp_await (fun _ => Counted.nil) Counted.nil ⟨hpoint, Counted.nil, fun _ => Counted.nil⟩

theorem wp_quiet_awaitOk {point : P} (hpoint : points point) (f : A → Bool) :
    (Job.awaitOk point f : Job P A S Unit).Wp (quiet points) s := wp_quiet_await hpoint _

theorem wp_quiet_update {op : StatOp} (h : Counted 0 [.stat op]) :
    (Job.update op : Job P A S Unit).Wp (quiet points) s := Coro.wp_emit h

theorem wp_quiet_get : (Coro.get : Job P A S S).Wp (quiet points) s := Coro.wp_get Counted.nil

theorem wp_quiet_modify (f : S → S) : (Coro.modify f : Job P A S Unit).Wp (quiet points) s :=
  Coro.wp_modify Counted.nil

theorem wp_quiet_ask (f : Moment A → K) : (Coro.ask f : Job P A S K).Wp (quiet points) s :=
  Coro.wp_ask fun _ => Counted.nil

theorem wp_quiet_pure (a : K) : (pure a : Job P A S K).Wp (quiet points) s := Coro.wp_pure Counted.nil

theorem wp_quiet_when (condition : Bool) {m : Job P A S Unit} (hm : m.Wp (quiet points) s) :
    (Job.when condition m).Wp (quiet points) s := by
  unfold Job.when
  split_ifs
  · exact hm
  · exact wp_quiet_pure ()

theorem wp_quiet_owning {drop : Moment A → List Effect} (hdrop : ∀ m, Counted 0 (drop m))
    {m : Job P A S K} (hm : m.Wp (quiet points) s) : (Coro.owning drop m).Wp (quiet points) s := by
  apply Coro.wp_owning
  apply hm.mono
  · exact fun _ _ _ h => h
  · exact fun _ _ h m => h.append (hdrop m)
  · exact fun _ _ _ _ h => ⟨h.1, h.2.1, fun m => (h.2.2 m).append (hdrop m)⟩

/-- A loop whose turns count nothing. -/
theorem wp_quiet_awaitLoop {L : Type} {point : P} (hpoint : points point)
    {body : L → Moment A → S → S × List Effect × (L ⊕ Option K)}
    (hbody : ∀ l m s, Counted 0 (body l m s).2.1) (l : L) :
    (Coro.awaitLoop point body l : Job P A S K).Wp (quiet points) s := by
  apply Coro.wp_awaitLoop fun _ _ before => Counted 0 before
  · exact Counted.nil
  · intro l m s before s' effects l' hbefore heq
    have heffects := hbody l m s
    rw [heq] at heffects
    exact hbefore.append heffects
  · intro l m s before s' effects a hbefore heq
    have heffects := hbody l m s
    rw [heq] at heffects
    exact hbefore.append heffects
  · intro l m s before s' effects hbefore heq
    have heffects := hbody l m s
    rw [heq] at heffects
    exact hbefore.append heffects
  · exact fun _ _ _ hbefore => ⟨hpoint, hbefore, fun _ => Counted.nil⟩

/-- What comes before the request counts nothing. -/
theorem wp_through_bind {m : Job P A S β} {f : β → Job P A S ℕ} (hm : m.Wp (quiet early) s)
    (hf : ∀ b s, (f b).Wp (throughRequest early) s) : (m >>= f).Wp (throughRequest early) s := by
  apply Coro.wp_bind
  apply hm.mono
  · intro b s before hbefore
    apply (hf b s).mono
    · exact fun _ _ effects h => hbefore.zero_append h
    · intro _ effects h
      rcases h with h | h
      · exact .inl (hbefore.append h)
      · exact .inr (hbefore.zero_append h)
    · rintro point s effects dropped ⟨hpoint, hdropped⟩
      refine ⟨?_, hdropped⟩
      rcases hpoint with ⟨hearly, h⟩ | ⟨hlate, h⟩
      · exact .inl ⟨hearly, hbefore.append h⟩
      · exact .inr ⟨hlate, hbefore.zero_append h⟩
  · exact fun _ _ h => .inl h
  · exact fun _ _ _ _ h => ⟨.inl ⟨h.1, h.2.1⟩, h.2.2⟩

/-- The request is counted, and what comes after it waits at the other points. -/
theorem wp_through_request {rest : Job P A S ℕ} (hrest : ∀ s, rest.Wp (quiet fun p => ¬ early p) s) :
    (do Job.update (.onRequests 1); rest : Job P A S ℕ).Wp (throughRequest early) s := by
  apply Coro.wp_bind
  apply Coro.wp_emit
  have hone := Counted.onRequests 1
  apply (hrest s).mono
  · exact fun _ _ effects h => hone.append_zero h
  · exact fun _ effects h => .inr (hone.append_zero h)
  · exact fun _ _ effects _ h => ⟨.inr ⟨h.1, hone.append_zero h.2.1⟩, h.2.2⟩

theorem wp_atOnce_bind {m : Job P A S β} {f : β → Job P A S K} (hm : m.Wp atOnce s)
    (hf : ∀ b s, (f b).Wp atOnce s) : (m >>= f).Wp atOnce s := by
  apply Coro.wp_bind
  apply hm.mono
  · intro b s before hbefore
    apply (hf b s).mono
    · exact fun _ _ effects h => hbefore.append h
    · exact fun _ _ h => h
    · exact fun _ _ _ _ h => h
  · exact fun _ _ h => h
  · exact fun _ _ _ _ h => h

theorem wp_atOnce_get : (Coro.get : Job P A S S).Wp atOnce s := Coro.wp_get Counted.nil

theorem wp_atOnce_modify (f : S → S) : (Coro.modify f : Job P A S Unit).Wp atOnce s :=
  Coro.wp_modify Counted.nil

theorem wp_atOnce_ask (f : Moment A → K) : (Coro.ask f : Job P A S K).Wp atOnce s :=
  Coro.wp_ask fun _ => Counted.nil

theorem wp_atOnce_emitAll {effects : List Effect} (h : Counted 0 effects) :
    (Coro.emitAll effects : Job P A S Unit).Wp atOnce s := Coro.wp_emitAll h

/-- A value is dropped: it reads the outside and counts nothing. -/
theorem wp_atOnce_drop {drop : Moment A → List Effect} (h : ∀ m, Counted 0 (drop m)) :
    (do let dropped ← Coro.ask drop; Coro.emitAll dropped : Job P A S Unit).Wp atOnce s := by
  apply Coro.wp_bind
  apply Coro.wp_ask
  intro m
  apply Coro.wp_emitAll
  exact h m

end Rules

theorem wp_classify {code : ℕ} {s : S} {Q : Coro.Post P (Moment A) Effect S Unit}
    (h : Q.done () s (classEffects code)) : (Job.classify code : Job P A S Unit).Wp Q s := by
  unfold Job.classify classEffects at *
  split_ifs at h ⊢
  · exact Coro.wp_emit h
  · exact Coro.wp_emit h
  · exact Coro.wp_emit h
  · exact Coro.wp_emit h
  · exact Coro.wp_pure h

/-- **One outcome for every call that ends**, wherever it waits and whatever the outside does. -/
theorem wp_doExecute {early : P → Prop} {currSock : Job P A S K} {performRequest : K → Job P A S ℕ}
    {drop : K → Moment A → List Effect} {settle : K → Job P A S Unit}
    (hcurr : ∀ s, currSock.Wp (quiet early) s)
    (hperform : ∀ sock s, (performRequest sock).Wp (throughRequest early) s)
    (hdrop : ∀ sock m, Counted 0 (drop sock m))
    (hsettle : ∀ sock s, (settle sock).Wp atOnce s) (s : S) :
    (Job.doExecute currSock performRequest drop settle).Wp (oneOutcome early) s := by
  apply Coro.wp_bind
  apply Coro.wp_attempt
  apply (hcurr s).mono
  · intro sock s before hbefore
    apply Coro.wp_bind
    apply Coro.wp_attempt
    apply Coro.wp_holding
    apply (hperform sock s).mono
    · intro code s during hduring
      apply Coro.wp_bind
      apply Coro.wp_ask
      intro m
      apply Coro.wp_bind
      apply Coro.wp_emit
      apply Coro.wp_bind
      apply Coro.wp_emit
      apply Coro.wp_bind
      apply wp_classify
      apply (hsettle sock s).mono
      · intro _ s after hafter
        have hended := Ended.onResponse m.elapsed code (hbefore.zero_append hduring) hafter
        simpa [oneOutcome, Coro.Post.after, responseEffects] using hended
      · exact fun _ _ h => h.elim
      · exact fun _ _ _ _ h => h.elim
    · intro s during hduring
      apply Coro.wp_bind
      apply Coro.wp_emit
      apply Coro.wp_bind
      apply Coro.wp_ask
      intro m
      apply Coro.wp_emitAll
      have hended : Ended ((before ++ during) ++ (.stat .onSockErr :: drop sock m)) := by
        rcases hduring with hduring | hduring
        · exact Ended.onSockErr (hbefore.zero_append hduring) zero_le_one (hdrop sock m)
        · exact Ended.onSockErr (hbefore.zero_append hduring) le_rfl (hdrop sock m)
      simpa [oneOutcome, Coro.Post.after] using hended
    · rintro point s during dropped ⟨hpoint, hdropped⟩
      refine ⟨?_, fun m => (hdropped m).append (hdrop sock m)⟩
      rcases hpoint with ⟨hearly, hcounted⟩ | ⟨hlate, hcounted⟩
      · exact .inl ⟨hearly, hbefore.append hcounted⟩
      · exact .inr ⟨hlate, hbefore.zero_append hcounted⟩
  · intro s before hbefore
    apply Coro.wp_emit
    exact Ended.onSockErr hbefore zero_le_one Counted.nil
  · rintro point s effects dropped ⟨hearly, hcounted, hdropped⟩
    exact ⟨.inl ⟨hearly, hcounted⟩, hdropped⟩

/-! ### Calls -/

/-- The effects of a call that the timer has ended. -/
theorem Counted.onTimeout {n : ℕ} {effects dropped : List Effect} (us : ℕ) (h : Counted n effects)
    (hdropped : Counted 0 dropped) :
    Balanced 1 (effects ++ dropped ++ [.stat (.onTimeout us)]) ∧
      added .requests (effects ++ dropped ++ [.stat (.onTimeout us)]) = n ∧
      added .responses (effects ++ dropped ++ [.stat (.onTimeout us)]) = 0 ∧
      added .timeouts (effects ++ dropped ++ [.stat (.onTimeout us)]) = 1 := by
  have htimeout : Balanced 1 [.stat (.onTimeout us)] := ⟨rfl, rfl, le_rfl, le_rfl, fun _ => rfl⟩
  have hboth := h.append_zero hdropped
  refine ⟨?_, ?_, ?_, ?_⟩
  · exact hboth.balanced.append htimeout
  · rw [added_append, hboth.requests]
    rfl
  · rw [added_append, hboth.responses]
    rfl
  · rw [added_append, hboth.timeouts]
    rfl

variable {job : Job P A S Unit} {early : P → Prop}

/-- How a call goes: it ends by itself, or it times out where it has been waiting, or it still waits. -/
theorem execute_cases (hjob : ∀ s, job.Wp (oneOutcome early) s) (w : S) (call : ExecuteCall A) :
    match execute job w call with
    | .completed _ effects none => Ended effects
    | .completed _ effects (some point) => ∃ waited dropped us,
        effects = waited ++ dropped ++ [.stat (.onTimeout us)] ∧ Counted 0 dropped ∧
          (early point ∧ Counted 0 waited ∨ ¬ early point ∧ Counted 1 waited)
    | .pending point _ effects => early point ∧ Counted 0 effects ∨ ¬ early point ∧ Counted 1 effects := by
  have hrun := hjob w call.start call.script
  unfold execute
  cases hprogress : job w call.start call.script with
  | done a s env effects rest =>
      rw [hprogress] at hrun
      exact hrun
  | failed s env effects rest =>
      rw [hprogress] at hrun
      exact hrun.elim
  | waiting point s effects dropped =>
      rw [hprogress] at hrun
      obtain ⟨hpoint, hdropped⟩ := hrun
      cases call.timer with
      | none => exact hpoint
      | some m => exact ⟨effects, dropped m, m.elapsed, rfl, hdropped m, hpoint⟩

/-- A call that completes is balanced with its one outcome, and one that waits has none. -/
theorem execute_balanced (hjob : ∀ s, job.Wp (oneOutcome early) s) (w : S) (call : ExecuteCall A) :
    match execute job w call with
    | .completed _ effects _ => Balanced 1 effects
    | .pending _ _ effects => Balanced 0 effects := by
  have hcases := execute_cases hjob w call
  rcases hexecute : execute job w call with ⟨w', effects, _ | point⟩ | ⟨point, w', effects⟩
  · rw [hexecute] at hcases
    exact hcases.balanced
  · rw [hexecute] at hcases
    obtain ⟨waited, dropped, us, rfl, hdropped, ⟨-, hcounted⟩ | ⟨-, hcounted⟩⟩ := hcases
    · exact (hcounted.onTimeout us hdropped).1
    · exact (hcounted.onTimeout us hdropped).1
  · rw [hexecute] at hcases
    rcases hcases with ⟨-, hcounted⟩ | ⟨-, hcounted⟩
    · exact hcounted.balanced
    · exact hcounted.balanced

/-- A run of calls is balanced with the number of its completed calls. -/
theorem runCalls_balanced (hjob : ∀ s, job.Wp (oneOutcome early) s) (w : S)
    (calls : List (ExecuteCall A)) : Balanced (runCalls job w calls).1 (runCalls job w calls).2 := by
  induction calls generalizing w with
  | nil => exact Balanced.nil
  | cons call calls ih =>
      have hcall := execute_balanced hjob w call
      rw [runCalls]
      cases hexecute : execute job w call with
      | completed w' effects expired =>
          rw [hexecute] at hcall
          have happend := hcall.append (ih w')
          rwa [Nat.add_comm] at happend
      | pending point w' effects =>
          rw [hexecute] at hcall
          exact hcall

/-- The workers of a thread are balanced together. -/
theorem workers_balanced (hjob : ∀ s, job.Wp (oneOutcome early) s)
    (workers : List (S × List (ExecuteCall A))) :
    Balanced (completedCalls job workers)
      (workers.map fun w => (runCalls job w.1 w.2).2).flatten := by
  induction workers with
  | nil => exact Balanced.nil
  | cons w workers ih =>
      have happend := (runCalls_balanced hjob w.1 w.2).append ih
      exact happend

/-- The threads are balanced together, in whatever order each one did its effects. -/
theorem threads_balanced (hjob : ∀ s, job.Wp (oneOutcome early) s) {effects : List (List Effect)}
    {threads : List (List (S × List (ExecuteCall A)))} (h : Interleaves job effects threads) :
    Balanced (threads.map (completedCalls job)).sum effects.flatten := by
  unfold Interleaves at h
  induction h with
  | nil => exact Balanced.nil
  | cons hperm _ ih => exact ((workers_balanced hjob _).perm hperm).append ih

/-- The statistics count what the effects of all threads add. -/
theorem statOf_count (effects : List (List Effect)) (c : Counter) :
    (statOf effects).count c = added c effects.flatten := by
  induction effects with
  | nil => rfl
  | cons thread effects ih =>
      rw [List.flatten_cons, added_append, ← ih]
      show (PerCpuStat.default.applyAll (statOps thread)).count c + _ = _
      rw [PerCpuStat.count_applyAll, PerCpuStat.count_default, Nat.zero_add]
      rfl

end Dwd
