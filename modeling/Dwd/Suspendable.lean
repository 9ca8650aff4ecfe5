import Dwd.Generator
import Mathlib.Data.List.Induction

/-! The generator that can be suspended. `suspend` and `set` open a suspended interval unless one is
open, `resume` closes it and moves the clock of the wrapped generator back by its length; `set` also
fixes a manual value. The histories of control events that reach the generator are described apart
from it: their closed intervals, the interval that is still open, and the manual value in force. -/

namespace Dwd

/-- A control event for the generator. -/
inductive GeneratorEvent where
  | suspend
  | resume
  | set (v : ℕ)
  deriving DecidableEq, Repr

structure SuspendableGenerator (G : Type) where
  g : G
  suspendedAt : Option ℕ
  suspendedDuration : ℕ
  value : Option ℕ

namespace SuspendableGenerator

variable {G : Type}

def new (g : G) : SuspendableGenerator G :=
  { g := g, suspendedAt := none, suspendedDuration := 0, value := none }

def suspend (now : ℕ) (s : SuspendableGenerator G) : SuspendableGenerator G :=
  if s.suspendedAt.isSome then s
  else { s with value := none, suspendedAt := some now }

def resume (now : ℕ) (s : SuspendableGenerator G) : SuspendableGenerator G :=
  match s.suspendedAt with
  | some prev =>
      { s with
        suspendedAt := none
        value := none
        suspendedDuration := s.suspendedDuration + Instant.durationSince now prev }
  | none => s

def set (now : ℕ) (value : Option ℕ) (s : SuspendableGenerator G) : SuspendableGenerator G :=
  { if value.isSome then s.suspend now else s.resume now with value := value }

def activateAt [Generator G] (now : ℕ) (s : SuspendableGenerator G) : SuspendableGenerator G :=
  { s with g := Generator.activateAt now s.g }

/-- `current_at`. It is undefined where the subtraction of the suspended duration panics. -/
def currentAt [Generator G] (now : ℕ) (s : SuspendableGenerator G) :
    Option (Option ℕ × SuspendableGenerator G) :=
  match s.suspendedAt with
  | some _ => some (s.value.or (some 0), s)
  | none => do
      let shifted ← Instant.checkedSub now s.suspendedDuration
      let r := Generator.currentAt shifted s.g
      return (r.1, { s with g := r.2 })

/-- The effect of a control event that is handled at `now`. -/
def handle (now : ℕ) : GeneratorEvent → SuspendableGenerator G → SuspendableGenerator G
  | .suspend, s => s.suspend now
  | .resume, s => s.resume now
  | .set v, s => s.set now (some v)

/-- A history of control events, each with the time at which it is handled. -/
def handleAll (s : SuspendableGenerator G) (history : List (ℕ × GeneratorEvent)) :
    SuspendableGenerator G :=
  history.foldl (fun s e => s.handle e.1 e.2) s

end SuspendableGenerator

/-- Times that do not decrease. -/
abbrev Chronological (times : List ℕ) : Prop := times.Pairwise (· ≤ ·)

namespace GeneratorEvent

/-- Whether the event starts a suspended interval when none is open. -/
def pauses : GeneratorEvent → Bool
  | .suspend => true
  | .resume => false
  | .set _ => true

/-- The closed suspended intervals of a history, `opened` being the start of the interval that is
open before it. -/
def closedIntervals : Option ℕ → List (ℕ × GeneratorEvent) → List (ℕ × ℕ)
  | _, [] => []
  | none, (t, ev) :: history => closedIntervals (if ev.pauses then some t else none) history
  | some opened, (t, ev) :: history =>
      if ev.pauses then closedIntervals (some opened) history
      else (opened, t) :: closedIntervals none history

/-- The start of the suspended interval that is open after a history. -/
def openInterval : Option ℕ → List (ℕ × GeneratorEvent) → Option ℕ
  | opened, [] => opened
  | none, (t, ev) :: history => openInterval (if ev.pauses then some t else none) history
  | some opened, (_, ev) :: history => openInterval (if ev.pauses then some opened else none) history

/-- The total length of the closed suspended intervals. -/
def suspendedTotal (opened : Option ℕ) (history : List (ℕ × GeneratorEvent)) : ℕ :=
  ((closedIntervals opened history).map fun interval => interval.2 - interval.1).sum

/-- The manual value in force after a history. -/
def manualValue : Option ℕ → List (ℕ × GeneratorEvent) → Option ℕ
  | value, [] => value
  | value, (_, .suspend) :: history => manualValue value history
  | _, (_, .resume) :: history => manualValue none history
  | _, (_, .set v) :: history => manualValue (some v) history

theorem suspendedTotal_nil (opened : Option ℕ) : suspendedTotal opened [] = 0 := by
  rw [suspendedTotal, closedIntervals, List.map_nil, List.sum_nil]

theorem suspendedTotal_none_cons (t : ℕ) (ev : GeneratorEvent) (history : List (ℕ × GeneratorEvent)) :
    suspendedTotal none ((t, ev) :: history) =
      suspendedTotal (if ev.pauses then some t else none) history := by
  rw [suspendedTotal, suspendedTotal, closedIntervals]

theorem suspendedTotal_some_cons (a t : ℕ) (ev : GeneratorEvent)
    (history : List (ℕ × GeneratorEvent)) :
    suspendedTotal (some a) ((t, ev) :: history) =
      if ev.pauses then suspendedTotal (some a) history
      else t - a + suspendedTotal none history := by
  rw [suspendedTotal, closedIntervals]
  split_ifs with hev
  · rfl
  · rw [List.map_cons, List.sum_cons]
    rfl

/-- The closed intervals of a history that ends by `now` fit between its start and `now`. -/
theorem suspendedTotal_le (start now : ℕ) (opened : Option ℕ) {history : List (ℕ × GeneratorEvent)}
    (htimes : Chronological (start :: history.map Prod.fst)) (hopened : ∀ a ∈ opened, a ≤ start)
    (hstart : start ≤ now) (hnow : ∀ e ∈ history, e.1 ≤ now) :
    suspendedTotal opened history ≤ now - opened.getD start := by
  induction history generalizing start opened with
  | nil =>
      rw [suspendedTotal_nil]
      exact Nat.zero_le _
  | cons e history ih =>
      obtain ⟨t, ev⟩ := e
      obtain ⟨hle, htail⟩ := List.pairwise_cons.mp htimes
      have hst : start ≤ t := hle t (by simp)
      have htn : t ≤ now := hnow (t, ev) (by simp)
      have hnow' : ∀ e ∈ history, e.1 ≤ now := fun e he => hnow e (by simp [he])
      have hclosed := ih t none htail (by simp) htn hnow'
      cases opened with
      | none =>
          have hopen := ih t (some t) htail (by simp) htn hnow'
          rw [suspendedTotal_none_cons]
          simp only [Option.getD] at hclosed hopen ⊢
          split_ifs
          · omega
          · omega
      | some a =>
          have hat : a ≤ t := (hopened a rfl).trans hst
          have hopen := ih t (some a) htail (by simpa using hat) htn hnow'
          rw [suspendedTotal_some_cons]
          simp only [Option.getD] at hclosed hopen ⊢
          split_ifs
          · omega
          · omega

theorem manualValue_append (value : Option ℕ) (first second : List (ℕ × GeneratorEvent)) :
    manualValue value (first ++ second) = manualValue (manualValue value first) second := by
  induction first generalizing value with
  | nil => rfl
  | cons e first ih =>
      obtain ⟨t, ev⟩ := e
      cases ev <;> exact ih _

theorem manualValue_suspends {history : List (ℕ × GeneratorEvent)}
    (h : ∀ e ∈ history, e.2 = .suspend) (value : Option ℕ) : manualValue value history = value := by
  induction history with
  | nil => rfl
  | cons e history ih =>
      obtain ⟨t, ev⟩ := e
      obtain rfl : ev = .suspend := h (t, ev) (by simp)
      exact ih fun e he => h e (by simp [he])

/-- The manual value in force is the one of the last `set`, when only suspensions follow it. -/
theorem manualValue_eq_some_iff (history : List (ℕ × GeneratorEvent)) (v : ℕ) :
    manualValue none history = some v ↔
      ∃ earlier t later, history = earlier ++ (t, .set v) :: later ∧ ∀ e ∈ later, e.2 = .suspend := by
  constructor
  · intro h
    induction history using List.reverseRecOn with
    | nil => cases h
    | append_singleton history e ih =>
        obtain ⟨t, ev⟩ := e
        rw [manualValue_append] at h
        cases ev with
        | suspend =>
            obtain ⟨earlier, t', later, rfl, hlater⟩ := ih h
            refine ⟨earlier, t', later ++ [(t, .suspend)], by simp, fun e he => ?_⟩
            rcases List.mem_append.mp he with he | he
            · exact hlater e he
            · rw [List.mem_singleton.mp he]
        | resume => cases h
        | set w =>
            obtain rfl : w = v := Option.some.inj h
            exact ⟨history, t, [], rfl, by simp⟩
  · rintro ⟨earlier, t, later, rfl, hlater⟩
    rw [manualValue_append, manualValue, manualValue_suspends hlater]

end GeneratorEvent

namespace SuspendableGenerator

open GeneratorEvent

variable {G : Type}

theorem handleAll_cons (s : SuspendableGenerator G) (t : ℕ) (ev : GeneratorEvent)
    (history : List (ℕ × GeneratorEvent)) :
    s.handleAll ((t, ev) :: history) = (s.handle t ev).handleAll history := rfl

theorem handleAll_append (s : SuspendableGenerator G) (first second : List (ℕ × GeneratorEvent)) :
    s.handleAll (first ++ second) = (s.handleAll first).handleAll second := List.foldl_append

/-- One control event: it opens an interval, closes it, or leaves it as it is. -/
theorem handle_eq (s : SuspendableGenerator G) (t : ℕ) (ev : GeneratorEvent) :
    (s.handle t ev).g = s.g ∧
    (s.handle t ev).suspendedAt = openInterval s.suspendedAt [(t, ev)] ∧
    (s.handle t ev).suspendedDuration = s.suspendedDuration + suspendedTotal s.suspendedAt [(t, ev)] := by
  cases hs : s.suspendedAt with
  | none =>
      rw [suspendedTotal_none_cons, suspendedTotal_nil]
      cases ev <;>
        simp [handle, suspend, resume, set, hs, openInterval, pauses]
  | some a =>
      rw [suspendedTotal_some_cons]
      cases ev <;>
        simp [handle, suspend, resume, set, hs, openInterval, pauses, suspendedTotal_nil,
          Instant.durationSince]

/-- A manual value is only ever kept inside a suspended interval. -/
def Consistent (s : SuspendableGenerator G) : Prop := s.suspendedAt = none → s.value = none

theorem handle_value {s : SuspendableGenerator G} (hs : s.Consistent) (t : ℕ) (ev : GeneratorEvent) :
    (s.handle t ev).Consistent ∧ (s.handle t ev).value = manualValue s.value [(t, ev)] := by
  unfold Consistent at hs ⊢
  cases h : s.suspendedAt with
  | none =>
      have hv := hs h
      cases ev <;> simp [handle, suspend, resume, set, h, hv, manualValue]
  | some a => cases ev <;> simp [handle, suspend, resume, set, h, manualValue]

/-- **The state after a history.** The wrapped generator is untouched, the open interval and the
suspended duration are those of the history, and so is the manual value. -/
theorem handleAll_eq (s : SuspendableGenerator G) (history : List (ℕ × GeneratorEvent)) :
    (s.handleAll history).g = s.g ∧
    (s.handleAll history).suspendedAt = openInterval s.suspendedAt history ∧
    (s.handleAll history).suspendedDuration =
      s.suspendedDuration + suspendedTotal s.suspendedAt history := by
  induction history generalizing s with
  | nil => exact ⟨rfl, rfl, by rw [suspendedTotal_nil]; rfl⟩
  | cons e history ih =>
      obtain ⟨t, ev⟩ := e
      obtain ⟨hg, hat, hdur⟩ := handle_eq s t ev
      obtain ⟨ihg, ihat, ihdur⟩ := ih (s.handle t ev)
      rw [handleAll_cons, ihg, ihat, ihdur, hg, hat, hdur]
      cases s.suspendedAt with
      | none =>
          refine ⟨rfl, rfl, ?_⟩
          rw [suspendedTotal_none_cons, suspendedTotal_none_cons, suspendedTotal_nil]
          rfl
      | some a =>
          refine ⟨rfl, rfl, ?_⟩
          rw [suspendedTotal_some_cons, suspendedTotal_some_cons, openInterval]
          split_ifs
          · rw [suspendedTotal_nil, Nat.add_zero, openInterval]
          · rw [suspendedTotal_nil, Nat.add_zero, Nat.add_assoc, openInterval]

theorem handleAll_value {s : SuspendableGenerator G} (hs : s.Consistent)
    (history : List (ℕ × GeneratorEvent)) :
    (s.handleAll history).value = manualValue s.value history := by
  induction history generalizing s with
  | nil => rfl
  | cons e history ih =>
      obtain ⟨t, ev⟩ := e
      obtain ⟨hcons, hvalue⟩ := handle_value hs t ev
      rw [handleAll_cons, ih hcons, hvalue, ← manualValue_append]
      rfl

theorem new_consistent (g : G) : (new g).Consistent := fun _ => rfl

/-! ### The value after a history -/

variable [Generator G]

/-- The value that the last control event of a history demands at `now`: zero after `suspend`, the
given one after `set`, and the profile's own after `resume` or when there was no event. -/
def demanded (g : G) (now : ℕ) (history : List (ℕ × GeneratorEvent)) : Option ℕ :=
  match history.getLast? with
  | some (_, .suspend) => some 0
  | some (_, .set v) => some v
  | some (_, .resume) => (Generator.currentAt (now - suspendedTotal none history) g).1
  | none => (Generator.currentAt (now - suspendedTotal none history) g).1

/-- The history ends in a non-zero manual value that one or more suspensions follow. -/
def SuspendsManual (history : List (ℕ × GeneratorEvent)) : Prop :=
  ∃ earlier t v later, history = earlier ++ (t, .set v) :: later ∧ v ≠ 0 ∧ later ≠ [] ∧
    ∀ e ∈ later, e.2 = .suspend

theorem suspendsManual_concat (history : List (ℕ × GeneratorEvent)) (t : ℕ) (ev : GeneratorEvent) :
    SuspendsManual (history ++ [(t, ev)]) ↔
      ev = .suspend ∧ ∃ v, v ≠ 0 ∧ manualValue none history = some v := by
  constructor
  · rintro ⟨earlier, t', v, later, heq, hv, hlater, hall⟩
    obtain ⟨later, e, rfl⟩ := List.eq_nil_or_concat later |>.resolve_left hlater
    rw [List.concat_eq_append, ← List.cons_append, ← List.append_assoc] at heq
    obtain ⟨rfl, he⟩ := List.append_inj' heq rfl
    obtain rfl : (t, ev) = e := by simpa using he
    refine ⟨hall (t, ev) (by simp), v, hv, ?_⟩
    rw [manualValue_eq_some_iff]
    exact ⟨earlier, t', later, rfl, fun e he => hall e (by simp [he])⟩
  · rintro ⟨rfl, v, hv, hmanual⟩
    obtain ⟨earlier, t', later, rfl, hall⟩ := (manualValue_eq_some_iff _ v).mp hmanual
    refine ⟨earlier, t', v, later ++ [(t, .suspend)], by simp, hv, by simp, fun e he => ?_⟩
    rcases List.mem_append.mp he with he | he
    · exact hall e he
    · rw [List.mem_singleton.mp he]

/-- Outside a suspended interval the value is the wrapped generator's, on its own clock. -/
theorem currentAt_running {s : SuspendableGenerator G} {now : ℕ} (hs : s.suspendedAt = none)
    (hnow : s.suspendedDuration ≤ now) :
    s.currentAt now = some ((Generator.currentAt (now - s.suspendedDuration) s.g).1,
      { s with g := (Generator.currentAt (now - s.suspendedDuration) s.g).2 }) := by
  rw [currentAt, hs, Instant.checkedSub_of_le hnow]
  rfl

theorem currentAt_suspended {s : SuspendableGenerator G} {now a : ℕ} (hs : s.suspendedAt = some a) :
    s.currentAt now = some (s.value.or (some 0), s) := by
  rw [currentAt, hs]

/-- A poll changes nothing but the wrapped generator. -/
theorem currentAt_frame {s s' : SuspendableGenerator G} {now : ℕ} {r : Option ℕ}
    (h : s.currentAt now = some (r, s')) :
    s'.suspendedAt = s.suspendedAt ∧ s'.suspendedDuration = s.suspendedDuration ∧ s'.value = s.value := by
  unfold currentAt at h
  split at h
  · obtain ⟨-, rfl⟩ := Prod.mk.inj (Option.some.inj h)
    exact ⟨rfl, rfl, rfl⟩
  · obtain ⟨shifted, -, hr⟩ := Option.bind_eq_some_iff.mp h
    obtain ⟨-, rfl⟩ := Prod.mk.inj (Option.some.inj hr)
    exact ⟨rfl, rfl, rfl⟩

theorem suspendedTotal_le_now {history : List (ℕ × GeneratorEvent)} {now : ℕ}
    (htimes : Chronological (history.map Prod.fst ++ [now])) : suspendedTotal none history ≤ now := by
  obtain ⟨hhistory, -, hnow⟩ := List.pairwise_append.mp htimes
  have hle := suspendedTotal_le 0 now none
    (List.pairwise_cons.mpr ⟨fun _ _ => Nat.zero_le _, hhistory⟩) (by simp) (Nat.zero_le _)
    fun e he => hnow e.1 (List.mem_map_of_mem he) now (by simp)
  exact hle

/-- **The last control event decides the load**, unless it is a suspension that finds a non-zero
manual value in force: then, and only then, the value stays the manual one. -/
theorem currentAt_eq_demanded_iff (g : G) (history : List (ℕ × GeneratorEvent)) (now : ℕ)
    (htimes : Chronological (history.map Prod.fst ++ [now])) :
    (((new g).handleAll history).currentAt now).map Prod.fst = some (demanded g now history) ↔
      ¬ SuspendsManual history := by
  obtain ⟨hg, -, hdur⟩ := handleAll_eq (new g) history
  have hvalue := handleAll_value (new_consistent g) history
  have htotal := suspendedTotal_le_now htimes
  have hrunning : ((new g).handleAll history).suspendedAt = none →
      (((new g).handleAll history).currentAt now).map Prod.fst =
        some (Generator.currentAt (now - suspendedTotal none history) g).1 := by
    intro hs
    have hdur' : ((new g).handleAll history).suspendedDuration = suspendedTotal none history := by
      rw [hdur]
      exact Nat.zero_add _
    rw [currentAt_running hs (hdur'.trans_le htotal), hdur', hg]
    rfl
  rcases List.eq_nil_or_concat history with rfl | ⟨earlier, ⟨t, ev⟩, rfl⟩
  · rw [hrunning rfl]
    refine ⟨fun _ h => ?_, fun _ => rfl⟩
    obtain ⟨earlier, t, v, later, heq, -⟩ := h
    exact absurd heq (by simp)
  · rw [List.concat_eq_append] at *
    rw [suspendsManual_concat]
    have hlast : ((new g).handleAll (earlier ++ [(t, ev)])) = ((new g).handleAll earlier).handle t ev :=
      handleAll_append _ _ _
    have hopen : ev.pauses = true →
        ∃ a, ((new g).handleAll (earlier ++ [(t, ev)])).suspendedAt = some a := by
      intro hev
      rw [hlast, (handle_eq _ _ _).2.1]
      cases ((new g).handleAll earlier).suspendedAt with
      | none => exact ⟨t, by simp [openInterval, hev]⟩
      | some a => exact ⟨a, by simp [openInterval, hev]⟩
    rw [manualValue_append] at hvalue
    cases ev with
    | suspend =>
        obtain ⟨a, ha⟩ := hopen rfl
        rw [currentAt_suspended ha, hvalue]
        cases hmanual : manualValue none earlier with
        | none => simp [demanded, manualValue, new, hmanual]
        | some v => simp [demanded, manualValue, new, hmanual]
    | resume =>
        have hs : ((new g).handleAll (earlier ++ [(t, .resume)])).suspendedAt = none := by
          rw [hlast, (handle_eq _ _ _).2.1]
          cases ((new g).handleAll earlier).suspendedAt <;> rfl
        rw [hrunning hs]
        simp [demanded]
    | set v =>
        obtain ⟨a, ha⟩ := hopen rfl
        rw [currentAt_suspended ha, hvalue]
        simp [demanded, manualValue]

/-- A manual rate followed by `resume`: the condition holds, and the profile's value is back. -/
theorem currentAt_eq_demanded_after_resume :
    Chronological [1, 2, 3] ∧
      (((new (BoxedGenerator.line ⟨0, 100, 0, 9⟩)).handleAll [(1, .set 5), (2, .resume)]).currentAt
        3).map Prod.fst = some (demanded (BoxedGenerator.line ⟨0, 100, 0, 9⟩) 3 [(1, .set 5), (2, .resume)]) := by
  have hresumed : ¬ SuspendsManual [(1, .set 5), (2, .resume)] := by
    intro h
    cases ((suspendsManual_concat [(1, .set 5)] 2 .resume).mp h).1
  exact ⟨by decide, (currentAt_eq_demanded_iff _ [(1, .set 5), (2, .resume)] 3 (by decide)).mpr hresumed⟩

/-- A manual rate of 5 followed by `suspend`: the load stays at 5 instead of 0. -/
theorem suspend_keeps_manual_value :
    Chronological [1, 2, 3] ∧
      (((new (BoxedGenerator.line ⟨0, 100, 0, 9⟩)).handleAll [(1, .set 5), (2, .suspend)]).currentAt
        3).map Prod.fst = some (some 5) ∧
      demanded (BoxedGenerator.line ⟨0, 100, 0, 9⟩) 3 [(1, .set 5), (2, .suspend)] = some 0 ∧
      ¬ ∀ (g : BoxedGenerator) (history : List (ℕ × GeneratorEvent)) (now : ℕ),
        Chronological (history.map Prod.fst ++ [now]) →
          (((new g).handleAll history).currentAt now).map Prod.fst = some (demanded g now history) := by
  refine ⟨by decide, rfl, rfl, fun h => ?_⟩
  have := h (.line ⟨0, 100, 0, 9⟩) [(1, .set 5), (2, .suspend)] 3 (by decide)
  exact absurd this (by decide)

end SuspendableGenerator

end Dwd
