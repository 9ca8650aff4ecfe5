import Mathlib.Order.Basic

/-! Asynchronous programs that run against an environment. A program keeps a private state, emits
operations to the outside, and waits at named points. It is run on a script: the environment at its
start and at each time it is woken up. A program either finishes, fails, or still waits at the end of
the script, and then it can be cancelled: the values it holds are dropped, which may emit operations
too.

Weakest preconditions describe what a program can have emitted in each of the three cases, for every
script. -/

/-- What has become of a program at the end of a script. -/
inductive Progress (P E O S α : Type) where
  | done (a : α) (s : S) (env : E) (ops : List O) (rest : List E)
  | failed (s : S) (env : E) (ops : List O) (rest : List E)
  | waiting (point : P) (s : S) (ops : List O) (dropped : E → List O)

/-- A program with await points `P`, environments `E`, operations `O`, state `S` and result `α`. -/
def Coro (P E O S α : Type) : Type := S → E → List E → Progress P E O S α

namespace Coro

variable {P E O S α β : Type}

/-- The progress of a program that had emitted `before` when the rest of it began. -/
def after (before : List O) : Progress P E O S α → Progress P E O S α
  | .done a s env ops rest => .done a s env (before ++ ops) rest
  | .failed s env ops rest => .failed s env (before ++ ops) rest
  | .waiting point s ops dropped => .waiting point s (before ++ ops) dropped

instance : Monad (Coro P E O S) where
  pure a := fun s env script => .done a s env [] script
  bind m f := fun s env script =>
    match m s env script with
    | .done a s env ops rest => after ops (f a s env rest)
    | .failed s env ops rest => .failed s env ops rest
    | .waiting point s ops dropped => .waiting point s ops dropped

/-- Emit one operation. -/
def emit (op : O) : Coro P E O S Unit := fun s env script => .done () s env [op] script

/-- Emit several operations. -/
def emitAll (ops : List O) : Coro P E O S Unit := fun s env script => .done () s env ops script

def get : Coro P E O S S := fun s env script => .done s s env [] script

def modify (f : S → S) : Coro P E O S Unit := fun s env script => .done () (f s) env [] script

/-- Ask the environment for something that it answers at once. -/
def ask (f : E → α) : Coro P E O S α := fun s env script => .done (f env) s env [] script

/-- Ask for something that can fail at once. -/
def require (f : E → Bool) : Coro P E O S Unit := fun s env script =>
  if f env then .done () s env [] script else .failed s env [] script

/-- Wait for an answer. -/
def await (point : P) (f : E → Option α) : Coro P E O S α
  | s, _, [] => .waiting point s [] fun _ => []
  | s, _, env :: script =>
      match f env with
      | some a => .done a s env [] script
      | none => .failed s env [] script

/-- Wait for answers, and act on each one, until one of them decides: it ends the loop with a result,
or with a failure. The loop carries a value of its own. -/
def awaitLoop {L : Type} (point : P) (body : L → E → S → S × List O × (L ⊕ Option α)) :
    L → Coro P E O S α
  | _, s, _, [] => .waiting point s [] fun _ => []
  | l, s, _, env :: script =>
      match body l env s with
      | (s, ops, .inl l) => after ops (awaitLoop point body l s env script)
      | (s, ops, .inr (some a)) => .done a s env ops script
      | (s, ops, .inr none) => .failed s env ops script

/-- Run a program whose failure is an ordinary result. -/
def attempt (m : Coro P E O S α) : Coro P E O S (Option α) := fun s env script =>
  match m s env script with
  | .done a s env ops rest => .done (some a) s env ops rest
  | .failed s env ops rest => .done none s env ops rest
  | .waiting point s ops dropped => .waiting point s ops dropped

/-- Run a program while holding a value that is dropped when the program is cancelled. -/
def holding (drop : E → List O) (m : Coro P E O S α) : Coro P E O S α := fun s env script =>
  match m s env script with
  | .done a s env ops rest => .done a s env ops rest
  | .failed s env ops rest => .failed s env ops rest
  | .waiting point s ops dropped => .waiting point s ops fun env => dropped env ++ drop env

/-- Run a program that owns a value, which is dropped unless the program finishes. -/
def owning (drop : E → List O) (m : Coro P E O S α) : Coro P E O S α := fun s env script =>
  match m s env script with
  | .done a s env ops rest => .done a s env ops rest
  | .failed s env ops rest => .failed s env (ops ++ drop env) rest
  | .waiting point s ops dropped => .waiting point s ops fun env => dropped env ++ drop env

/-! ### Weakest preconditions -/

/-- What is to hold when a program finishes, fails or waits. -/
structure Post (P E O S α : Type) where
  done : α → S → List O → Prop
  failed : S → List O → Prop
  waiting : P → S → List O → (E → List O) → Prop

namespace Post

def Holds (Q : Post P E O S α) : Progress P E O S α → Prop
  | .done a s _ ops _ => Q.done a s ops
  | .failed s _ ops _ => Q.failed s ops
  | .waiting point s ops dropped => Q.waiting point s ops dropped

/-- What is to hold of the rest of a program that has emitted `before`. -/
def after (before : List O) (Q : Post P E O S α) : Post P E O S α where
  done a s ops := Q.done a s (before ++ ops)
  failed s ops := Q.failed s (before ++ ops)
  waiting point s ops dropped := Q.waiting point s (before ++ ops) dropped

theorem holds_after {Q : Post P E O S α} {before : List O} {r : Progress P E O S α} :
    Q.Holds (Coro.after before r) ↔ (Q.after before).Holds r := by
  cases r <;> exact Iff.rfl

end Post

/-- From the state `s`, whatever the script, the program ends up as `Q` says. -/
def Wp (m : Coro P E O S α) (Q : Post P E O S α) (s : S) : Prop :=
  ∀ env script, Q.Holds (m s env script)

variable {Q : Post P E O S α} {s : S}

theorem Wp.mono {Q' : Post P E O S α} {m : Coro P E O S α} (h : m.Wp Q s)
    (hdone : ∀ a s ops, Q.done a s ops → Q'.done a s ops)
    (hfailed : ∀ s ops, Q.failed s ops → Q'.failed s ops)
    (hwaiting : ∀ point s ops dropped, Q.waiting point s ops dropped →
      Q'.waiting point s ops dropped) : m.Wp Q' s := by
  intro env script
  have hQ := h env script
  generalize m s env script = r at hQ ⊢
  cases r with
  | done a s env ops rest => exact hdone a s ops hQ
  | failed s env ops rest => exact hfailed s ops hQ
  | waiting point s ops dropped => exact hwaiting point s ops dropped hQ

theorem wp_pure {a : α} (h : Q.done a s []) : Wp (pure a) Q s := fun _ _ => h

theorem wp_bind {m : Coro P E O S β} {f : β → Coro P E O S α}
    (h : m.Wp ⟨fun b s ops => (f b).Wp (Q.after ops) s, Q.failed, Q.waiting⟩ s) :
    (m >>= f).Wp Q s := by
  intro env script
  have hm := h env script
  show Q.Holds (match m s env script with
    | .done a s env ops rest => Coro.after ops (f a s env rest)
    | .failed s env ops rest => .failed s env ops rest
    | .waiting point s ops dropped => .waiting point s ops dropped)
  generalize m s env script = r at hm ⊢
  cases r with
  | done b s env ops rest => exact Post.holds_after.mpr (hm env rest)
  | failed s env ops rest => exact hm
  | waiting point s ops dropped => exact hm

theorem wp_emit {op : O} {Q : Post P E O S Unit} (h : Q.done () s [op]) : (emit op).Wp Q s :=
  fun _ _ => h

theorem wp_emitAll {ops : List O} {Q : Post P E O S Unit} (h : Q.done () s ops) :
    (emitAll ops).Wp Q s := fun _ _ => h

theorem wp_get {Q : Post P E O S S} (h : Q.done s s []) : get.Wp Q s := fun _ _ => h

theorem wp_modify {f : S → S} {Q : Post P E O S Unit} (h : Q.done () (f s) []) : (modify f).Wp Q s :=
  fun _ _ => h

theorem wp_ask {f : E → α} (h : ∀ env, Q.done (f env) s []) : (ask f).Wp Q s := fun env _ => h env

theorem wp_require {f : E → Bool} {Q : Post P E O S Unit} (hdone : Q.done () s [])
    (hfailed : Q.failed s []) : (require f).Wp Q s := by
  intro env script
  unfold require
  split_ifs
  · exact hdone
  · exact hfailed

theorem wp_await {point : P} {f : E → Option α} (hdone : ∀ a, Q.done a s []) (hfailed : Q.failed s [])
    (hwaiting : Q.waiting point s [] fun _ => []) : (await point f).Wp Q s := by
  intro env script
  cases script with
  | nil => exact hwaiting
  | cons env' script =>
      rw [await]
      cases f env' with
      | none => exact hfailed
      | some a => exact hdone a

/-- A loop keeps an invariant of the carried value, the state and what has been emitted. -/
theorem wp_awaitLoop {L : Type} {point : P} {body : L → E → S → S × List O × (L ⊕ Option α)}
    (I : L → S → List O → Prop) {l : L} (hinit : I l s [])
    (hcontinue : ∀ l env s before s' ops l', I l s before → body l env s = (s', ops, .inl l') →
      I l' s' (before ++ ops))
    (hdone : ∀ l env s before s' ops a, I l s before → body l env s = (s', ops, .inr (some a)) →
      Q.done a s' (before ++ ops))
    (hfailed : ∀ l env s before s' ops, I l s before → body l env s = (s', ops, .inr none) →
      Q.failed s' (before ++ ops))
    (hwaiting : ∀ l s before, I l s before → Q.waiting point s before fun _ => []) :
    (awaitLoop point body l).Wp Q s := by
  have hloop : ∀ (script : List E) (l : L) (s : S) (before : List O) (env : E), I l s before →
      Q.Holds (after before (awaitLoop point body l s env script)) := by
    intro script
    induction script with
    | nil =>
        intro l s before env hI
        show Q.waiting point s (before ++ []) _
        rw [List.append_nil]
        exact hwaiting l s before hI
    | cons env' script ih =>
        intro l s before env hI
        rw [awaitLoop]
        rcases hbody : body l env' s with ⟨s', ops, l' | (_ | a)⟩
        · have hrest := ih l' s' (before ++ ops) env' (hcontinue l env' s before s' ops l' hI hbody)
          rw [Post.holds_after] at hrest
          rw [Post.holds_after, Post.holds_after]
          simpa only [Post.after, List.append_assoc] using hrest
        · exact hfailed l env' s before s' ops hI hbody
        · exact hdone l env' s before s' ops a hI hbody
  intro env script
  have hrun := hloop script l s [] env hinit
  rw [Post.holds_after] at hrun
  simpa only [Post.after, List.nil_append] using hrun

theorem wp_attempt {m : Coro P E O S β} {Q : Post P E O S (Option β)}
    (h : m.Wp ⟨fun b => Q.done (some b), Q.done none, Q.waiting⟩ s) : (attempt m).Wp Q s := by
  intro env script
  have hm := h env script
  unfold attempt
  generalize m s env script = r at hm ⊢
  cases r with
  | done b s env ops rest => exact hm
  | failed s env ops rest => exact hm
  | waiting point s ops dropped => exact hm

theorem wp_holding {drop : E → List O} {m : Coro P E O S α}
    (h : m.Wp ⟨Q.done, Q.failed, fun point s ops dropped =>
      Q.waiting point s ops fun env => dropped env ++ drop env⟩ s) : (holding drop m).Wp Q s := by
  intro env script
  have hm := h env script
  unfold holding
  generalize m s env script = r at hm ⊢
  cases r with
  | done b s env ops rest => exact hm
  | failed s env ops rest => exact hm
  | waiting point s ops dropped => exact hm

theorem wp_owning {drop : E → List O} {m : Coro P E O S α}
    (h : m.Wp ⟨Q.done, fun s ops => ∀ env, Q.failed s (ops ++ drop env), fun point s ops dropped =>
      Q.waiting point s ops fun env => dropped env ++ drop env⟩ s) : (owning drop m).Wp Q s := by
  intro env script
  have hm := h env script
  unfold owning
  generalize m s env script = r at hm ⊢
  cases r with
  | done b s env ops rest => exact hm
  | failed s env ops rest => exact hm env
  | waiting point s ops dropped => exact hm

/-- The program keeps an invariant of its state, and emits nothing but what is allowed, also when it is
cancelled. -/
def Keeps (I : S → Prop) (J : O → Prop) (m : Coro P E O S α) (s : S) : Prop :=
  m.Wp ⟨fun _ s ops => I s ∧ ∀ op ∈ ops, J op, fun s ops => I s ∧ ∀ op ∈ ops, J op,
    fun _ s ops dropped => I s ∧ (∀ op ∈ ops, J op) ∧ ∀ env, ∀ op ∈ dropped env, J op⟩ s

variable {I : S → Prop} {J : O → Prop}

theorem Keeps.bind {m : Coro P E O S β} {f : β → Coro P E O S α} (hm : m.Keeps I J s)
    (hf : ∀ b s, I s → (f b).Keeps I J s) : (m >>= f).Keeps I J s := by
  apply wp_bind
  refine hm.mono ?_ (fun s ops h => h) (fun point s ops dropped h => h)
  rintro b s before ⟨hI, hbefore⟩
  refine (hf b s hI).mono ?_ ?_ ?_
  · rintro a s ops ⟨hI, hops⟩
    exact ⟨hI, List.forall_mem_append.mpr ⟨hbefore, hops⟩⟩
  · rintro s ops ⟨hI, hops⟩
    exact ⟨hI, List.forall_mem_append.mpr ⟨hbefore, hops⟩⟩
  · rintro point s ops dropped ⟨hI, hops, hdropped⟩
    exact ⟨hI, List.forall_mem_append.mpr ⟨hbefore, hops⟩, hdropped⟩

theorem keeps_pure {a : α} (hI : I s) : (pure a : Coro P E O S α).Keeps I J s := wp_pure ⟨hI, by simp⟩

theorem keeps_emit {op : O} (hI : I s) (hop : J op) : (emit op : Coro P E O S Unit).Keeps I J s :=
  wp_emit ⟨hI, by simpa using hop⟩

theorem keeps_get (hI : I s) : (get : Coro P E O S S).Keeps I J s := wp_get ⟨hI, by simp⟩

theorem keeps_modify {f : S → S} (hI : I (f s)) : (modify f : Coro P E O S Unit).Keeps I J s :=
  wp_modify ⟨hI, by simp⟩

theorem keeps_ask {f : E → α} (hI : I s) : (ask f : Coro P E O S α).Keeps I J s :=
  wp_ask fun _ => ⟨hI, by simp⟩

theorem keeps_require {f : E → Bool} (hI : I s) : (require f : Coro P E O S Unit).Keeps I J s :=
  wp_require ⟨hI, by simp⟩ ⟨hI, by simp⟩

theorem keeps_await {point : P} {f : E → Option α} (hI : I s) :
    (await point f : Coro P E O S α).Keeps I J s :=
  wp_await (fun _ => ⟨hI, by simp⟩) ⟨hI, by simp⟩ ⟨hI, by simp, by simp⟩

theorem keeps_awaitLoop {L : Type} {point : P} {body : L → E → S → S × List O × (L ⊕ Option α)} {l : L}
    (hI : I s) (hbody : ∀ l env s, I s → I (body l env s).1 ∧ ∀ op ∈ (body l env s).2.1, J op) :
    (awaitLoop point body l).Keeps I J s := by
  have hstep : ∀ l env s before s' ops (next : L ⊕ Option α), (I s ∧ ∀ op ∈ before, J op) →
      body l env s = (s', ops, next) → I s' ∧ ∀ op ∈ before ++ ops, J op := by
    rintro l env s before s' ops next ⟨hI, hbefore⟩ heq
    obtain ⟨hI', hops⟩ := hbody l env s hI
    rw [heq] at hI' hops
    exact ⟨hI', List.forall_mem_append.mpr ⟨hbefore, hops⟩⟩
  apply wp_awaitLoop (fun _ s before => I s ∧ ∀ op ∈ before, J op) ⟨hI, by simp⟩
  · intro l env s before s' ops l' h heq
    exact hstep l env s before s' ops _ h heq
  · intro l env s before s' ops a h heq
    exact hstep l env s before s' ops _ h heq
  · intro l env s before s' ops h heq
    exact hstep l env s before s' ops _ h heq
  · rintro l s before ⟨hI, hbefore⟩
    exact ⟨hI, hbefore, by simp⟩

theorem Keeps.owning {drop : E → List O} {m : Coro P E O S α} (hm : m.Keeps I J s)
    (hdrop : ∀ env, ∀ op ∈ drop env, J op) : (owning drop m).Keeps I J s := by
  apply wp_owning
  refine hm.mono (fun a s ops h => h) ?_ ?_
  · rintro s ops ⟨hI, hops⟩ env
    exact ⟨hI, List.forall_mem_append.mpr ⟨hops, hdrop env⟩⟩
  · rintro point s ops dropped ⟨hI, hops, hdropped⟩
    exact ⟨hI, hops, fun env => List.forall_mem_append.mpr ⟨hdropped env, hdrop env⟩⟩

end Coro
