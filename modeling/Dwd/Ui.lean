import Dwd.Suspendable
import Mathlib.Data.List.Basic

/-! The key loop of the terminal interface: the line in which a rate is typed, the mode that the status
widget shows, and the control events that key presses send. The mode is the interface's own: it is set when
a key is pressed, and never read back from the generator. -/

namespace Dwd

/-- The digits of a `u64`, from the most significant on, every step of the accumulation checked. -/
def parseDigits : List Char → ℕ → Option ℕ
  | [], value => some value
  | c :: cs, value =>
      if c.isDigit then
        let value := 10 * value + (c.toNat - '0'.toNat)
        if value < 2 ^ 64 then parseDigits cs value else none
      else none

/-- `str::parse::<u64>`, without its kinds of errors: one plus sign is allowed. -/
def parseU64 : List Char → Option ℕ
  | [] => none
  | '+' :: cs => if cs = [] then none else parseDigits cs 0
  | cs => parseDigits cs 0

theorem le_ofDigitChars (cs : List Char) (value : ℕ) : value ≤ Nat.ofDigitChars 10 cs value := by
  induction cs generalizing value with
  | nil => rw [Nat.ofDigitChars_nil]
  | cons c cs ih =>
      rw [Nat.ofDigitChars_cons]
      have := ih (10 * value + (c.toNat - '0'.toNat))
      omega

/-- The steps overflow exactly when the number does. -/
theorem parseDigits_eq {cs : List Char} (hcs : ∀ c ∈ cs, c.isDigit) {value : ℕ} (hvalue : value < 2 ^ 64) :
    parseDigits cs value =
      if Nat.ofDigitChars 10 cs value < 2 ^ 64 then some (Nat.ofDigitChars 10 cs value) else none := by
  induction cs generalizing value with
  | nil => rw [Nat.ofDigitChars_nil, if_pos hvalue, parseDigits]
  | cons c cs ih =>
      have hdigit : c.isDigit := hcs c List.mem_cons_self
      rw [Nat.ofDigitChars_cons, parseDigits, if_pos hdigit]
      show (if _ then _ else _) = _
      split_ifs with hstep hall hall
      · rw [ih (fun c hc => hcs c (List.mem_cons_of_mem _ hc)) hstep, if_pos hall]
      · rw [ih (fun c hc => hcs c (List.mem_cons_of_mem _ hc)) hstep, if_neg hall]
      · exact absurd ((le_ofDigitChars cs _).trans_lt hall) hstep
      · rfl

theorem parseU64_eq {cs : List Char} (hcs : ∀ c ∈ cs, c.isDigit) (hne : cs ≠ []) :
    parseU64 cs = if Nat.ofDigitChars 10 cs 0 < 2 ^ 64 then some (Nat.ofDigitChars 10 cs 0) else none := by
  unfold parseU64
  split
  · exact absurd rfl hne
  · exact absurd (hcs '+' List.mem_cons_self) (by decide)
  · exact parseDigits_eq hcs (by decide)

/-- `Mode`, as the status widget shows it: manual, running or suspended. -/
inductive Mode where
  | manual
  | running (isRunning : Bool)
  deriving DecidableEq, Repr

structure StatusWidget where
  mode : Mode
  deriving DecidableEq

structure InputWidget where
  value : List Char
  deriving DecidableEq

namespace InputWidget

def new : InputWidget := { value := [] }

def onChar (c : Char) (input : InputWidget) : InputWidget := { value := input.value ++ [c] }

def popChar (input : InputWidget) : InputWidget := { value := input.value.dropLast }

/-- `take`, which leaves the line empty. -/
def take (input : InputWidget) : List Char × InputWidget := (input.value, new)

end InputWidget

/-- `KeyCode`, as far as the loop tells keys apart. -/
inductive KeyCode where
  | char (c : Char)
  | backspace
  | enter
  | other
  deriving DecidableEq, Repr

/-- A key event: whether Control is held, and whether it is a press rather than a release or a repeat. -/
structure KeyEvent where
  code : KeyCode
  control : Bool
  press : Bool
  deriving DecidableEq, Repr

def KeyEvent.pressed (code : KeyCode) : KeyEvent := { code := code, control := false, press := true }

/-- `Ui`, without the channel to which it sends and the widgets that only show statistics. -/
structure Ui where
  head : StatusWidget
  input : InputWidget
  deriving DecidableEq

namespace Ui

def new : Ui := { head := { mode := .running true }, input := .new }

def setMode (mode : Mode) (ui : Ui) : Ui := { ui with head := { mode := mode } }

/-- The key that suspends and resumes: the event, and whether the interface shows the profile as running
afterwards. -/
def toggle : Mode → GeneratorEvent × Bool
  | .manual => (.resume, true)
  | .running isRunning => (if isRunning then .suspend else .resume, !isRunning)

/-- One key event in the loop of `run`, with the control event that it sends. The loop returns where the
value is undefined. -/
def onKey (key : KeyEvent) (ui : Ui) : Option (Ui × Option GeneratorEvent) :=
  if key.press then
    match key.code with
    | .char c =>
        if c = 'q' then none
        else if c = 'c' ∧ key.control then none
        else if c = 's' then
          let (ev, isRunning) := toggle ui.head.mode
          some (ui.setMode (.running isRunning), some ev)
        else if c.isDigit then some ({ ui with input := ui.input.onChar c }, none)
        else some (ui, none)
    | .backspace => some ({ ui with input := ui.input.popChar }, none)
    | .enter =>
        let (value, input) := ui.input.take
        let ui := { ui with input := input }
        match parseU64 value with
        | some value => some (ui.setMode .manual, some (.set value))
        | none => some (ui, none)
    | .other => some (ui, none)
  else some (ui, none)

/-- The keys that come in one after another, and the events that they send. -/
def onKeys : List KeyEvent → Ui → Option (Ui × List GeneratorEvent)
  | [], ui => some (ui, [])
  | key :: keys, ui => do
      let (ui, ev) ← ui.onKey key
      let (ui, evs) ← onKeys keys ui
      return (ui, ev.toList ++ evs)

end Ui

/-- The mode that the interface shows once it has sent an event. -/
def Mode.after : GeneratorEvent → Mode
  | .suspend => .running false
  | .resume => .running true
  | .set _ => .manual

namespace Ui

/-- The line holds digits and nothing else. -/
def Digits (ui : Ui) : Prop := ∀ c ∈ ui.input.value, c.isDigit

theorem new_digits : new.Digits := by
  intro c hc
  cases hc

/-- An event that a key sends: the mode follows it, a suspension is sent only by an interface that shows the
profile as running, and a manual rate fits into 64 bits. -/
structure Sends (ui ui' : Ui) (ev : GeneratorEvent) : Prop where
  mode : ui'.head.mode = .after ev
  suspend : ev = .suspend → ui.head.mode = .running true
  fits : ∀ v, ev = .set v → v < 2 ^ 64

theorem parseDigits_lt {cs : List Char} {value v : ℕ} (hvalue : value < 2 ^ 64)
    (h : parseDigits cs value = some v) : v < 2 ^ 64 := by
  induction cs generalizing value with
  | nil => exact Option.some.inj h ▸ hvalue
  | cons c cs ih =>
      rw [parseDigits] at h
      split_ifs at h with hdigit
      simp only at h
      split_ifs at h with hstep
      exact ih hstep h

theorem parseU64_lt {cs : List Char} {v : ℕ} (h : parseU64 cs = some v) : v < 2 ^ 64 := by
  unfold parseU64 at h
  split at h
  · cases h
  · split_ifs at h
    exact parseDigits_lt (by decide) h
  · exact parseDigits_lt (by decide) h

theorem toggle_sends (ui : Ui) :
    Sends ui (ui.setMode (.running (toggle ui.head.mode).2)) (toggle ui.head.mode).1 := by
  cases hmode : ui.head.mode with
  | manual => exact ⟨rfl, fun h => (nomatch h), fun v h => (nomatch h)⟩
  | running isRunning =>
      cases isRunning with
      | true => exact ⟨rfl, fun _ => hmode, fun v h => (nomatch h)⟩
      | false => exact ⟨rfl, fun h => (nomatch h), fun v h => (nomatch h)⟩

/-- A key that does not end the loop sends nothing and keeps the mode, or sends an event. -/
theorem onKey_cases {key : KeyEvent} {ui ui' : Ui} {sent : Option GeneratorEvent}
    (h : ui.onKey key = some (ui', sent)) :
    (sent = none ∧ ui'.head.mode = ui.head.mode) ∨ ∃ ev, sent = some ev ∧ Sends ui ui' ev := by
  unfold onKey at h
  split_ifs at h with hpress
  · split at h
    · rename_i c
      split_ifs at h with hq hc hs hdigit
      · obtain ⟨rfl, rfl⟩ := Prod.mk.inj (Option.some.inj h)
        exact .inr ⟨_, rfl, toggle_sends ui⟩
      · obtain ⟨rfl, rfl⟩ := Prod.mk.inj (Option.some.inj h)
        exact .inl ⟨rfl, rfl⟩
      · obtain ⟨rfl, rfl⟩ := Prod.mk.inj (Option.some.inj h)
        exact .inl ⟨rfl, rfl⟩
    · obtain ⟨rfl, rfl⟩ := Prod.mk.inj (Option.some.inj h)
      exact .inl ⟨rfl, rfl⟩
    · simp only at h
      split at h
      · rename_i v hparse
        obtain ⟨rfl, rfl⟩ := Prod.mk.inj (Option.some.inj h)
        refine .inr ⟨_, rfl, rfl, fun h => (nomatch h), fun w hw => ?_⟩
        obtain rfl := GeneratorEvent.set.inj hw
        exact parseU64_lt hparse
      · obtain ⟨rfl, rfl⟩ := Prod.mk.inj (Option.some.inj h)
        exact .inl ⟨rfl, rfl⟩
    · obtain ⟨rfl, rfl⟩ := Prod.mk.inj (Option.some.inj h)
      exact .inl ⟨rfl, rfl⟩
  · obtain ⟨rfl, rfl⟩ := Prod.mk.inj (Option.some.inj h)
    exact .inl ⟨rfl, rfl⟩

theorem onKey_digits {key : KeyEvent} {ui ui' : Ui} {sent : Option GeneratorEvent} (hui : ui.Digits)
    (h : ui.onKey key = some (ui', sent)) : ui'.Digits := by
  unfold onKey at h
  split_ifs at h with hpress
  · split at h
    · rename_i c
      split_ifs at h with hq hc hs hdigit
      · obtain ⟨rfl, -⟩ := Prod.mk.inj (Option.some.inj h)
        exact hui
      · obtain ⟨rfl, -⟩ := Prod.mk.inj (Option.some.inj h)
        intro c' hc'
        rcases List.mem_append.mp hc' with hc' | hc'
        · exact hui c' hc'
        · rw [List.mem_singleton.mp hc']
          exact hdigit
      · obtain ⟨rfl, -⟩ := Prod.mk.inj (Option.some.inj h)
        exact hui
    · obtain ⟨rfl, -⟩ := Prod.mk.inj (Option.some.inj h)
      exact fun c hc => hui c (List.dropLast_subset _ hc)
    · simp only at h
      split at h
      · obtain ⟨rfl, -⟩ := Prod.mk.inj (Option.some.inj h)
        exact new_digits
      · obtain ⟨rfl, -⟩ := Prod.mk.inj (Option.some.inj h)
        exact new_digits
    · obtain ⟨rfl, -⟩ := Prod.mk.inj (Option.some.inj h)
      exact hui
  · obtain ⟨rfl, -⟩ := Prod.mk.inj (Option.some.inj h)
    exact hui

theorem onKeys_cons_eq_some {key : KeyEvent} {keys : List KeyEvent} {ui ui' : Ui}
    {sent : List GeneratorEvent} (h : ui.onKeys (key :: keys) = some (ui', sent)) :
    ∃ ui₁ first rest, ui.onKey key = some (ui₁, first) ∧ ui₁.onKeys keys = some (ui', rest) ∧
      sent = first.toList ++ rest := by
  obtain ⟨⟨ui₁, first⟩, hkey, h⟩ := Option.bind_eq_some_iff.mp h
  obtain ⟨⟨ui₂, rest⟩, hkeys, h⟩ := Option.bind_eq_some_iff.mp h
  obtain ⟨rfl, rfl⟩ := Prod.mk.inj (Option.some.inj h)
  exact ⟨ui₁, first, rest, hkey, hkeys, rfl⟩

theorem onKeys_digits {keys : List KeyEvent} {ui ui' : Ui} {sent : List GeneratorEvent} (hui : ui.Digits)
    (h : ui.onKeys keys = some (ui', sent)) : ui'.Digits := by
  induction keys generalizing ui sent with
  | nil =>
      obtain ⟨rfl, -⟩ := Prod.mk.inj (Option.some.inj h)
      exact hui
  | cons key keys ih =>
      obtain ⟨ui₁, first, rest, hkey, hkeys, -⟩ := onKeys_cons_eq_some h
      exact ih (onKey_digits hui hkey) hkeys

theorem onKeys_fits {keys : List KeyEvent} {ui ui' : Ui} {sent : List GeneratorEvent}
    (h : ui.onKeys keys = some (ui', sent)) : ∀ v, .set v ∈ sent → v < 2 ^ 64 := by
  induction keys generalizing ui sent with
  | nil =>
      obtain ⟨-, rfl⟩ := Prod.mk.inj (Option.some.inj h)
      intro v hv
      cases hv
  | cons key keys ih =>
      obtain ⟨ui₁, first, rest, hkey, hkeys, rfl⟩ := onKeys_cons_eq_some h
      intro v hv
      rcases List.mem_append.mp hv with hv | hv
      · rcases onKey_cases hkey with ⟨rfl, -⟩ | ⟨ev, rfl, hsends⟩
        · cases hv
        · exact hsends.fits v (List.mem_singleton.mp hv).symm
      · exact ih hkeys v hv

/-- A digit goes to the end of the line. -/
theorem onKey_digit {c : Char} (hc : c.isDigit) (ui : Ui) :
    ui.onKey (.pressed (.char c)) = some ({ ui with input := ui.input.onChar c }, none) := by
  have hq : c ≠ 'q' := by
    rintro rfl
    exact absurd hc (by decide)
  have hs : c ≠ 's' := by
    rintro rfl
    exact absurd hc (by decide)
  simp [onKey, KeyEvent.pressed, hq, hs, hc]

theorem onKey_enter (ui : Ui) :
    ui.onKey (.pressed .enter) = some (match parseU64 ui.input.value with
      | some v => ({ head := { mode := .manual }, input := .new }, some (.set v))
      | none => ({ ui with input := .new }, none)) := by
  simp only [onKey, KeyEvent.pressed, InputWidget.take, if_true]
  cases parseU64 ui.input.value with
  | some v => rfl
  | none => rfl

theorem onKeys_append {first : List KeyEvent} {ui ui' : Ui} {sent : List GeneratorEvent}
    (h : ui.onKeys first = some (ui', sent)) (second : List KeyEvent) :
    ui.onKeys (first ++ second) = (ui'.onKeys second).map fun r => (r.1, sent ++ r.2) := by
  induction first generalizing ui sent with
  | nil =>
      obtain ⟨rfl, rfl⟩ := Prod.mk.inj (Option.some.inj h)
      simp
  | cons key first ih =>
      obtain ⟨ui₁, ev, rest, hkey, hkeys, rfl⟩ := onKeys_cons_eq_some h
      have hrest := ih hkeys
      simp only [List.cons_append, onKeys, hkey, Option.bind_eq_bind, Option.bind_some, hrest]
      cases ui'.onKeys second with
      | none => rfl
      | some r => simp

/-- Digits that are typed one after another are added to the line, and send nothing. -/
theorem onKeys_type {ds : List Char} (hds : ∀ c ∈ ds, c.isDigit) (ui : Ui) :
    ui.onKeys (ds.map fun c => .pressed (.char c)) =
      some ({ ui with input := { value := ui.input.value ++ ds } }, []) := by
  induction ds generalizing ui with
  | nil => simp [onKeys]
  | cons c ds ih =>
      rw [List.map_cons, onKeys, onKey_digit (hds c List.mem_cons_self)]
      simp only [Option.bind_eq_bind, Option.bind_some, ih fun c hc => hds c (List.mem_cons_of_mem _ hc)]
      simp [InputWidget.onChar]

/-- **What is typed is what is sent.** Whatever has been pressed before: the line holds digits only, every
manual rate that was sent fits into 64 bits, and digits typed between two presses of Enter send the number
that they write if it fits, and nothing otherwise. -/
theorem typed_rate (keys : List KeyEvent) (ui : Ui) (sent : List GeneratorEvent)
    (hrun : new.onKeys keys = some (ui, sent)) :
    ui.Digits ∧ (∀ v, .set v ∈ sent → v < 2 ^ 64) ∧
    ∃ ui' first, ui.onKey (.pressed .enter) = some (ui', first) ∧ ui'.input = .new ∧
      ∀ ds : List Char, ds ≠ [] → (∀ c ∈ ds, c.isDigit) →
        ui'.onKeys ((ds.map fun c => .pressed (.char c)) ++ [.pressed .enter]) =
          some (if Nat.ofDigitChars 10 ds 0 < 2 ^ 64 then
            ({ ui' with head := { mode := .manual } }, [.set (Nat.ofDigitChars 10 ds 0)])
          else (ui', [])) := by
  refine ⟨onKeys_digits new_digits hrun, onKeys_fits hrun, ?_⟩
  have hcleared : ∃ ui' first, ui.onKey (.pressed .enter) = some (ui', first) ∧ ui'.input = .new := by
    rw [onKey_enter]
    cases parseU64 ui.input.value with
    | some v => exact ⟨_, _, rfl, rfl⟩
    | none => exact ⟨_, _, rfl, rfl⟩
  obtain ⟨ui', first, henter, hinput⟩ := hcleared
  refine ⟨ui', first, henter, hinput, fun ds hne hds => ?_⟩
  rw [onKeys_append (onKeys_type hds ui'), hinput]
  simp only [onKeys, onKey_enter, InputWidget.new, List.nil_append, parseU64_eq hds hne]
  split_ifs with hfits
  · rfl
  · show some (({ ui' with input := .new }, []) : Ui × List GeneratorEvent) = some (ui', [])
    rw [← hinput]

/-- A suspension, and then the digits of 1024. -/
theorem typed_rate_1024 :
    ∃ ui sent, new.onKeys [.pressed (.char 's'), .pressed (.char '7')] = some (ui, sent) ∧
      sent = [.suspend] ∧ ui.Digits ∧
      ∃ ui' first, ui.onKey (.pressed .enter) = some (ui', first) ∧ first = some (.set 7) ∧
        (ui'.onKeys (((Nat.toDigits 10 1024).map fun c => .pressed (.char c)) ++ [.pressed .enter])).map
          Prod.snd = some [.set 1024] := by
  have hrun : new.onKeys [.pressed (.char 's'), .pressed (.char '7')] =
      some ({ head := { mode := .running false }, input := { value := ['7'] } }, [.suspend]) := by decide
  obtain ⟨hdigits, -, ui', first, henter, -, htyped⟩ := typed_rate _ _ _ hrun
  refine ⟨_, _, hrun, rfl, hdigits, ui', first, henter, ?_, ?_⟩
  · have hseven : onKey (.pressed .enter)
        { head := { mode := .running false }, input := { value := ['7'] } } =
          some ({ head := { mode := .manual }, input := .new }, some (.set 7)) := by decide
    exact (Prod.mk.inj (Option.some.inj (henter.symm.trans hseven))).2
  · rw [htyped (Nat.toDigits 10 1024) Nat.toDigits_ne_nil fun c hc =>
      Nat.isDigit_of_mem_toDigits (by decide) (by decide) hc, Nat.ofDigitChars_ten_toDigits]
    rfl

end Ui

end Dwd
