import Mathlib.Algebra.BigOperators.Group.Finset.Basic
import Mathlib.Algebra.GroupWithZero.Nat
import Mathlib.Algebra.Order.BigOperators.Group.Finset

/-! Counters that are kept by many owners, each its own share, and read one share at a time while the
owners go on counting. A counter only grows. The sum of the shares that a reader finds need not be what
the counter was at any one time, but it lies between what it was at the first of the reads and what it
was at the last; so the sums that a reader finds one after the other grow, too.

A reader is a program whose state is the list of its reads so far. What the owners do between two reads
is arbitrary. -/

namespace Scan

/-- The share of one owner in a counter. -/
abbrev Share (C : Type) : Type := ℕ × C

/-- What the owners add to their shares: `incs t` is what they add before the read number `t`, and after
the one before it. -/
abbrev Increments (C : Type) : Type := ℕ → List (Share C × ℕ)

variable {C α β : Type} [DecidableEq C]

def gained (share : Share C) (incs : List (Share C × ℕ)) : ℕ :=
  ((incs.filter fun inc => inc.1 = share).map Prod.snd).sum

/-- What the read number `t` finds in a share. -/
def cell (incs : Increments C) (share : Share C) : ℕ → ℕ
  | 0 => gained share (incs 0)
  | t + 1 => cell incs share t + gained share (incs (t + 1))

/-- The counter at the time of the read number `t`: the sum of the shares of all `n` owners. -/
def total (incs : Increments C) (n : ℕ) (c : C) (t : ℕ) : ℕ := ∑ o ∈ Finset.range n, cell incs (o, c) t

theorem cell_mono (incs : Increments C) (share : Share C) : Monotone (cell incs share) :=
  monotone_nat_of_le_succ fun _ => Nat.le_add_right _ _

theorem total_mono (incs : Increments C) (n : ℕ) (c : C) : Monotone (total incs n c) :=
  fun _ _ h => Finset.sum_le_sum fun o _ => cell_mono incs (o, c) h

/-- A program that reads shares. -/
def Reader (C α : Type) : Type := List (Share C) → α × List (Share C)

namespace Reader

instance : Monad (Reader C) where
  pure a := fun log => (a, log)
  bind m f := fun log =>
    match m log with
    | (a, log) => f a log

/-- Read a share. -/
def read (incs : Increments C) (share : Share C) : Reader C ℕ :=
  fun log => (cell incs share log.length, log ++ [share])

/-- Look at something that is no counter, at the time of the next read. -/
def ask (f : ℕ → α) : Reader C α := fun log => (f log.length, log)

/-- Add the shares of the owners to what there is, in machine words. -/
def sumFrom (incs : Increments C) (modulus : ℕ) (c : C) : List ℕ → ℕ → Reader C ℕ
  | [], acc => pure acc
  | o :: owners, acc => do
      let v ← read incs (o, c)
      sumFrom incs modulus c owners ((acc + v) % modulus)

end Reader

/-- The value is the sum of what the reads after `log`, up to `log'`, have found in the shares of the
first `n` owners. -/
def Reads (incs : Increments C) (n : ℕ) (c : C) (log log' : List (Share C)) (v : ℕ) : Prop :=
  ∃ pos : ℕ → ℕ, v = ∑ o ∈ Finset.range n, cell incs (o, c) (pos o) ∧
    ∀ o < n, log.length ≤ pos o ∧ log'[pos o]? = some (o, c)

variable {incs : Increments C} {n : ℕ} {c : C} {log log' log₁ log₂ : List (Share C)} {v v' : ℕ}

namespace Reads

theorem mono (h : Reads incs n c log log' v) (hstart : log₁ <+: log) (hend : log' <+: log₂) :
    Reads incs n c log₁ log₂ v := by
  obtain ⟨pos, hv, hpos⟩ := h
  refine ⟨pos, hv, fun o ho => ?_⟩
  obtain ⟨hle, hget⟩ := hpos o ho
  obtain ⟨rest, rfl⟩ := hend
  have hlt : pos o < log'.length := (List.getElem?_eq_some_iff.mp hget).1
  rw [List.getElem?_append_left hlt]
  exact ⟨hstart.length_le.trans hle, hget⟩

theorem zero : Reads incs 0 c log log' 0 := ⟨fun _ => 0, rfl, by simp⟩

/-- The next owner's share is read. -/
theorem succ (h : Reads incs n c log log' v) (hlog : log <+: log') :
    Reads incs (n + 1) c log (log' ++ [(n, c)]) (v + cell incs (n, c) log'.length) := by
  obtain ⟨pos, rfl, hpos⟩ := h.mono List.prefix_rfl (List.prefix_append log' [(n, c)])
  refine ⟨Function.update pos n log'.length, ?_, fun o ho => ?_⟩
  · rw [Finset.sum_range_succ, Function.update_self]
    congr 1
    apply Finset.sum_congr rfl
    intro o ho
    rw [Function.update_of_ne (Finset.mem_range.mp ho).ne]
  · by_cases hon : o = n
    · subst hon
      rw [Function.update_self]
      exact ⟨hlog.length_le, List.getElem?_concat_length⟩
    · rw [Function.update_of_ne hon]
      exact hpos o (by omega)

/-- **The value is between the counter at the first of its reads and the counter at the last.** -/
theorem between (h : Reads incs n c log log' v) {a b : ℕ}
    (hreads : ∀ i o, log.length ≤ i → log'[i]? = some (o, c) → a ≤ i ∧ i ≤ b) :
    total incs n c a ≤ v ∧ v ≤ total incs n c b := by
  obtain ⟨pos, rfl, hpos⟩ := h
  have htimes : ∀ o ∈ Finset.range n, a ≤ pos o ∧ pos o ≤ b := by
    intro o ho
    obtain ⟨hle, hget⟩ := hpos o (Finset.mem_range.mp ho)
    exact hreads (pos o) o hle hget
  constructor
  · exact Finset.sum_le_sum fun o ho => cell_mono incs (o, c) (htimes o ho).1
  · exact Finset.sum_le_sum fun o ho => cell_mono incs (o, c) (htimes o ho).2

theorem total_le (h : Reads incs n c log log' v) : total incs n c log.length ≤ v := by
  refine (h.between (b := log'.length) fun i o hle hget => ⟨hle, ?_⟩).1
  exact (List.getElem?_eq_some_iff.mp hget).1.le

theorem le_total (h : Reads incs n c log log' v) : v ≤ total incs n c log'.length := by
  refine (h.between (a := log.length) fun i o hle hget => ⟨hle, ?_⟩).2
  exact (List.getElem?_eq_some_iff.mp hget).1.le

/-- What is found later is no less. -/
theorem le_of_before (h : Reads incs n c log log₁ v) (h' : Reads incs n c log₂ log' v')
    (hbefore : log₁ <+: log₂) : v ≤ v' :=
  h.le_total.trans ((total_mono incs n c hbefore.length_le).trans h'.total_le)

/-- The shares of some of the owners are within the total. -/
theorem lt_of_total {m modulus : ℕ} (h : Reads incs m c log log' v) (hm : m ≤ n)
    (hbound : ∀ t, total incs n c t < modulus) : v < modulus := by
  have hsub : total incs m c log'.length ≤ total incs n c log'.length :=
    Finset.sum_le_sum_of_subset (Finset.range_mono hm)
  exact (h.le_total.trans hsub).trans_lt (hbound _)

end Reads

/-- Whatever a reader has found since `log₀`, the program reads on, and the values that it yields have
been found, too. -/
def Yields (incs : Increments C) (n : ℕ) (known : C → ℕ → Prop) (p : Reader C α)
    (value : α → C → ℕ → Prop) : Prop :=
  ∀ log₀ log, log₀ <+: log → (∀ c v, known c v → Reads incs n c log₀ log v) →
    log <+: (p log).2 ∧ ∀ c v, value (p log).1 c v → Reads incs n c log₀ (p log).2 v

variable {known : C → ℕ → Prop}

theorem yields_pure {a : α} {value : α → C → ℕ → Prop} (h : ∀ c v, value a c v → known c v) :
    Yields incs n known (pure a) value :=
  fun _ _ _ hknown => ⟨List.prefix_rfl, fun c v hv => hknown c v (h c v hv)⟩

theorem Yields.bind {p : Reader C α} {q : α → Reader C β} {value : α → C → ℕ → Prop}
    {value' : β → C → ℕ → Prop} (hp : Yields incs n known p value)
    (hq : ∀ a, Yields incs n (fun c v => known c v ∨ value a c v) (q a) value') :
    Yields incs n known (p >>= q) value' := by
  intro log₀ log hlog hknown
  obtain ⟨hextends, hvalue⟩ := hp log₀ log hlog hknown
  obtain ⟨hextends', hvalue'⟩ := hq (p log).1 log₀ (p log).2 (hlog.trans hextends) (by
    rintro c v (hv | hv)
    · exact (hknown c v hv).mono List.prefix_rfl hextends
    · exact hvalue c v hv)
  exact ⟨hextends.trans hextends', hvalue'⟩

/-- What a program yields, it has found since `log`. -/
theorem Yields.reads {p : Reader C α} {value : α → C → ℕ → Prop}
    (h : Yields incs n (fun _ _ => False) p value) (hlog : log <+: log') :
    log' <+: (p log').2 ∧ ∀ c v, value (p log').1 c v → Reads incs n c log (p log').2 v :=
  h log log' hlog fun _ _ hv => hv.elim

theorem yields_ask {f : ℕ → α} : Yields incs n known (Reader.ask f) fun _ _ _ => False :=
  fun _ _ _ _ => ⟨List.prefix_rfl, fun _ _ hv => hv.elim⟩

/-- Reading on from the owner `m`. The words are wide enough for the counter. -/
theorem reads_sumFrom {modulus : ℕ} (hbound : ∀ t, total incs n c t < modulus) {m r : ℕ} (hn : m + r ≤ n)
    (h : Reads incs m c log log' v) (hlog : log <+: log') :
    log' <+: (Reader.sumFrom incs modulus c (List.range' m r) v log').2 ∧
      Reads incs (m + r) c log (Reader.sumFrom incs modulus c (List.range' m r) v log').2
        (Reader.sumFrom incs modulus c (List.range' m r) v log').1 := by
  induction r generalizing m log' v with
  | zero => exact ⟨List.prefix_rfl, h⟩
  | succ r ih =>
      have hnext := h.succ hlog
      have hlonger : log' <+: log' ++ [(m, c)] := List.prefix_append _ _
      have hword : (v + cell incs (m, c) log'.length) % modulus = v + cell incs (m, c) log'.length :=
        Nat.mod_eq_of_lt (hnext.lt_of_total (by omega) hbound)
      rw [← hword] at hnext
      obtain ⟨hextends, hreads⟩ := ih (by omega) hnext (hlog.trans hlonger)
      rw [Nat.add_right_comm, Nat.add_assoc] at hreads
      exact ⟨hlonger.trans hextends, hreads⟩

/-- **The sum over all owners is a value that the reader has found.** -/
theorem yields_sumFrom {modulus : ℕ} (hbound : ∀ t, total incs n c t < modulus) :
    Yields incs n known (Reader.sumFrom incs modulus c (List.range n) 0) fun v c' v' => c' = c ∧ v' = v := by
  intro log₀ log hlog hknown
  obtain ⟨hextends, hreads⟩ := reads_sumFrom hbound (Nat.zero_add n).le Reads.zero (List.prefix_refl log)
  rw [← List.range_eq_range'] at hreads hextends
  rw [Nat.zero_add] at hreads
  refine ⟨hextends, ?_⟩
  rintro c' v' ⟨rfl, rfl⟩
  exact hreads.mono hlog List.prefix_rfl

end Scan
