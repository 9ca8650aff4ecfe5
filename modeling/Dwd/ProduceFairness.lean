import Dwd.LibRing
import Dwd.LibRun
import Dwd.Produce

/-! Fairness of the cycling iterator that the workers share. A call of `next` takes its number from the
shared index in one atomic step and gets its element later, when others may have taken theirs. Whatever
the order of these steps, the numbers taken are those from 0 on, in turn; so the elements that are returned
are those of a walk around the vector, as long as the index has not wrapped. -/

namespace Dwd

namespace VecProduce

variable {T : Type}

/-- `fetch_add`: the number that is taken, and the iterator afterwards. -/
def fetchAdd (self : VecProduce T) : ℕ × VecProduce T := (self.idx, { self with idx := (self.idx + 1) % 2 ^ 64 })

/-- The rest of `next`: the index of the element, and the element. -/
def get (self : VecProduce T) (idx : ℕ) : Option (ℕ × T) := do
  let idx ← rem idx self.vec.length
  let v ← self.vec[idx]?
  return (idx, v)

/-- `next` is these two steps, one after the other. -/
theorem next_eq (self : VecProduce T) :
    self.next = (self.fetchAdd.2.get self.fetchAdd.1).map fun got => (got.2, self.fetchAdd.2) := by
  rw [next, get, fetchAdd]
  cases hrem : rem self.idx self.vec.length with
  | none => rfl
  | some idx =>
      cases hget : self.vec[idx]? with
      | none => simp [hget]
      | some v => simp [hget]

theorem get_eq {self : VecProduce T} (h : self.vec ≠ []) (idx : ℕ) :
    ∃ v, self.vec[idx % self.vec.length]? = some v ∧ self.get idx = some (idx % self.vec.length, v) := by
  have hlength : self.vec.length ≠ 0 := fun hzero => h (List.length_eq_zero_iff.mp hzero)
  have hlt : idx % self.vec.length < self.vec.length := Nat.mod_lt idx (Nat.pos_of_ne_zero hlength)
  refine ⟨self.vec[idx % self.vec.length], List.getElem?_eq_getElem hlt, ?_⟩
  rw [get, rem, if_neg hlength, Option.bind_eq_bind, Option.bind_some, List.getElem?_eq_getElem hlt]
  rfl

end VecProduce

/-- A call of `next` that has taken its number. -/
structure NextCall where
  worker : ℕ
  number : ℕ
  deriving DecidableEq, Repr

/-- A call that has returned: the element and its index. -/
structure Returned (T : Type) where
  call : NextCall
  index : ℕ
  value : T

/-- The shared iterator; the calls in the order of their first steps; those that have not returned, and
those that have. -/
structure Drawing (T : Type) where
  producer : VecProduce T
  calls : List NextCall
  pending : List NextCall
  returned : List (Returned T)
  panicked : Bool

/-- A worker takes a number, or a pending call returns. -/
inductive DrawStep where
  | fetch (worker : ℕ)
  | ret (i : ℕ)

namespace Drawing

variable {T : Type}

def start (vec : List T) : Drawing T :=
  { producer := VecProduce.new vec, calls := [], pending := [], returned := [], panicked := false }

/-- A worker has one call at a time. -/
def step (s : Drawing T) : DrawStep → Option (Drawing T)
  | .fetch worker =>
      if ∃ call ∈ s.pending, call.worker = worker then none
      else
        let call := { worker := worker, number := s.producer.fetchAdd.1 }
        some { s with
          producer := s.producer.fetchAdd.2
          calls := s.calls ++ [call]
          pending := s.pending ++ [call] }
  | .ret i =>
      match s.pending[i]? with
      | none => none
      | some call =>
          match s.producer.get call.number with
          | none => some { s with panicked := true }
          | some (index, value) =>
              some { s with
                pending := s.pending.eraseIdx i
                returned := s.returned ++ [{ call := call, index := index, value := value }] }

/-- How often the element at an index has been returned. -/
def count (s : Drawing T) (i : ℕ) : ℕ := s.returned.countP fun r => r.index = i

/-- Every call has the next number; a call that has returned got the element of its number, and those that
have not will. -/
structure InTurn (vec : List T) (s : Drawing T) : Prop where
  producer : s.producer.vec = vec
  idx : s.producer.idx = s.calls.length % 2 ^ 64
  numbers : s.calls.map NextCall.number = (List.range s.calls.length).map (· % 2 ^ 64)
  once : (s.pending ++ s.returned.map Returned.call).Perm s.calls
  index : ∀ r ∈ s.returned, r.index = r.call.number % vec.length
  value : ∀ r ∈ s.returned, vec[r.index]? = some r.value
  panicked : s.panicked = false

theorem inTurn_start (vec : List T) : (start vec).InTurn vec where
  producer := rfl
  idx := rfl
  numbers := rfl
  once := List.Perm.refl []
  index := fun _ h => nomatch h
  value := fun _ h => nomatch h
  panicked := rfl

variable {vec : List T} {s s' : Drawing T}

theorem InTurn.fetch (h : s.InTurn vec) {worker : ℕ} (hstep : s.step (.fetch worker) = some s') :
    s'.InTurn vec := by
  obtain ⟨-, heq⟩ := Option.ite_none_left_eq_some.mp hstep
  obtain rfl := Option.some.inj heq
  refine ⟨h.producer, ?_, ?_, ?_, h.index, h.value, h.panicked⟩
  · rw [List.length_append, List.length_singleton, VecProduce.fetchAdd, h.idx, Nat.mod_add_mod]
  · rw [List.length_append, List.length_singleton, List.range_succ, List.map_append, List.map_append, h.numbers,
      List.map_singleton, List.map_singleton, VecProduce.fetchAdd, h.idx]
  · rw [List.append_assoc, List.singleton_append]
    exact (List.perm_middle.trans (h.once.cons _)).trans (List.perm_append_singleton _ _).symm

theorem InTurn.ret (hvec : vec ≠ []) (h : s.InTurn vec) {i : ℕ} (hstep : s.step (.ret i) = some s') :
    s'.InTurn vec := by
  rw [step] at hstep
  cases hcall : s.pending[i]? with
  | none =>
      rw [hcall] at hstep
      cases hstep
  | some call =>
      obtain ⟨value, hvalue, hget⟩ := VecProduce.get_eq (h.producer ▸ hvec) call.number
      rw [hcall] at hstep
      dsimp only at hstep
      rw [hget] at hstep
      obtain rfl := Option.some.inj hstep
      rw [h.producer] at hvalue ⊢
      refine ⟨h.producer, h.idx, h.numbers, ?_, ?_, ?_, h.panicked⟩
      · obtain ⟨hlt, rfl⟩ := List.getElem?_eq_some_iff.mp hcall
        rw [List.map_append, List.map_singleton, ← List.append_assoc]
        refine (List.perm_append_singleton _ _).trans ?_
        rw [← List.cons_append]
        exact ((List.getElem_cons_eraseIdx_perm hlt).append_right _).trans h.once
      · intro r hr
        rcases List.mem_append.mp hr with hr | hr
        · exact h.index r hr
        · obtain rfl := List.mem_singleton.mp hr
          rfl
      · intro r hr
        rcases List.mem_append.mp hr with hr | hr
        · exact h.value r hr
        · obtain rfl := List.mem_singleton.mp hr
          exact hvalue

theorem InTurn.run (hvec : vec ≠ []) {steps : List DrawStep} (hrun : Run.run step (start vec) steps = some s) :
    s.InTurn vec := by
  refine Run.invariant (I := InTurn vec) (fun s a s' h hstep => ?_) (inTurn_start vec) hrun
  cases a with
  | fetch worker => exact h.fetch hstep
  | ret i => exact h.ret hvec hstep

/-- How often the element at an index has been returned, or will be when the pending calls return. -/
def begun (s : Drawing T) (m i : ℕ) : ℕ := s.count i + s.pending.countP fun call => call.number % m = i

/-- Before the index wraps, the calls have begun a walk around the vector. -/
theorem InTurn.begun_eq (h : s.InTurn vec) (hcalls : s.calls.length < 2 ^ 64) (i : ℕ) :
    s.begun vec.length i = Ring.visits vec.length i s.calls.length := by
  have hnumbers : s.calls.map NextCall.number = List.range s.calls.length := by
    rw [h.numbers]
    conv_rhs => rw [← List.map_id (List.range s.calls.length)]
    refine List.map_congr_left fun t ht => ?_
    exact Nat.mod_eq_of_lt ((List.mem_range.mp ht).trans hcalls)
  have hcount : s.count i = (s.returned.map Returned.call).countP fun call => call.number % vec.length = i := by
    rw [count, List.countP_map]
    refine List.countP_congr fun r hr => ?_
    rw [h.index r hr]
    rfl
  calc s.begun vec.length i
      = (s.pending ++ s.returned.map Returned.call).countP fun call => call.number % vec.length = i := by
        rw [begun, hcount, List.countP_append, Nat.add_comm]
    _ = s.calls.countP fun call => call.number % vec.length = i := h.once.countP_eq _
    _ = (s.calls.map NextCall.number).countP fun t => t % vec.length = i := by
        rw [List.countP_map]
        rfl
    _ = Ring.visits vec.length i s.calls.length := by
        rw [hnumbers]
        rfl

/-- The calls take their elements in turn, none skipped and none repeated: an element has been returned, or
will be when the pending calls return, as often as a walk around the vector of as many steps visits it. -/
structure Fair (vec : List T) (s : Drawing T) : Prop where
  panicked : s.panicked = false
  turn : ∀ (t : ℕ) (call : NextCall), s.calls[t]? = some call → call.number = t
  value : ∀ r ∈ s.returned, r.call ∈ s.calls ∧ r.index = r.call.number % vec.length ∧
    vec[r.index]? = some r.value
  begun : ∀ i < vec.length,
    s.begun vec.length i = if i < s.calls.length then (s.calls.length - i) ⌈/⌉ vec.length else 0
  count : s.pending = [] → ∀ i < vec.length,
    s.count i = if i < s.calls.length then (s.calls.length - i) ⌈/⌉ vec.length else 0
  even : s.pending = [] → ∀ i < vec.length, ∀ j < vec.length, s.count i ≤ s.count j + 1

/-- However the workers' calls interleave, the iterator is fair until its index wraps. -/
theorem produce_fair (hvec : vec ≠ []) {steps : List DrawStep}
    (hrun : Run.run step (start vec) steps = some s) (hcalls : s.calls.length < 2 ^ 64) : s.Fair vec := by
  have h : s.InTurn vec := InTurn.run hvec hrun
  have hbegun := h.begun_eq hcalls
  have hquiet : s.pending = [] → ∀ i, s.count i = Ring.visits vec.length i s.calls.length := by
    intro hpending i
    rw [← hbegun, begun, hpending, List.countP_nil, Nat.add_zero]
  refine ⟨h.panicked, fun t call hcall => ?_, fun r hr => ⟨?_, h.index r hr, h.value r hr⟩, ?_, ?_, ?_⟩
  · have hlt : t < s.calls.length := (List.getElem?_eq_some_iff.mp hcall).1
    have hnumber := congrArg (fun numbers : List ℕ => numbers[t]?) h.numbers
    simp only [List.getElem?_map, hcall, Option.map_some, List.getElem?_range hlt] at hnumber
    rw [Option.some.inj hnumber, Nat.mod_eq_of_lt (hlt.trans hcalls)]
  · exact h.once.subset (List.mem_append_right _ (List.mem_map_of_mem hr))
  · intro i hi
    rw [hbegun, Ring.visits_eq_ceilDiv hi]
  · intro hpending i hi
    rw [hquiet hpending, Ring.visits_eq_ceilDiv hi]
  · intro hpending i hi j hj
    rw [hquiet hpending, hquiet hpending]
    exact Ring.visits_le_succ hi hj _

/-- The second worker returns first, and calls again before the first one has returned. -/
theorem produce_fair_two_workers :
    ∃ s, Run.run step (start [10, 20, 30]) [.fetch 0, .fetch 1, .ret 1, .fetch 1, .ret 0, .ret 0] = some s ∧
      s.returned.map Returned.value = [20, 10, 30] ∧ s.Fair [10, 20, 30] := by
  obtain ⟨s, hrun, hvalues, hcalls⟩ : ∃ s, Run.run step (start [10, 20, 30])
      [.fetch 0, .fetch 1, .ret 1, .fetch 1, .ret 0, .ret 0] = some s ∧
      s.returned.map Returned.value = [20, 10, 30] ∧ s.calls.length = 3 := ⟨_, rfl, rfl, rfl⟩
  exact ⟨s, hrun, hvalues, produce_fair (by decide) hrun (hcalls ▸ by decide)⟩

end Drawing

end Dwd
