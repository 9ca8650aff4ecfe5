import Dwd.LibRun
import Mathlib.Algebra.GroupWithZero.Nat
import Mathlib.Data.List.Basic

/-! The cycling iterators that all workers of a run draw from: one over the addresses to bind to, and one
over the data to send. `VecProduce` takes a remainder by its length, and panics when it has no element. -/

namespace Dwd

/-- `%` of `usize` numbers, which panics when the divisor is zero. -/
def rem (a b : ℕ) : Option ℕ := if b = 0 then none else some (a % b)

structure VecProduce (T : Type) where
  vec : List T
  idx : ℕ

/-- An iterator that workers draw from: `OneProduce` or `VecProduce`. -/
inductive Produce (T : Type) where
  | one (v : T)
  | vec (p : VecProduce T)

namespace VecProduce

variable {T : Type}

def new (vec : List T) : VecProduce T := { vec := vec, idx := 0 }

/-- `next`: the element, and the iterator after the addition of one, which wraps around. -/
def next (self : VecProduce T) : Option (T × VecProduce T) := do
  let idx ← rem self.idx self.vec.length
  let v ← self.vec[idx]?
  return (v, { self with idx := (self.idx + 1) % 2 ^ 64 })

theorem exists_next {self : VecProduce T} (h : self.vec ≠ []) :
    ∃ v ∈ self.vec, self.next = some (v, { self with idx := (self.idx + 1) % 2 ^ 64 }) := by
  have hlength : self.vec.length ≠ 0 := fun hzero => h (List.length_eq_zero_iff.mp hzero)
  have hlt := Nat.mod_lt self.idx (Nat.pos_of_ne_zero hlength)
  refine ⟨self.vec[self.idx % self.vec.length], List.getElem_mem hlt, ?_⟩
  rw [next, rem, if_neg hlength, Option.bind_eq_bind, Option.bind_some, List.getElem?_eq_getElem hlt]
  rfl

end VecProduce

namespace Produce

variable {T : Type}

def next : Produce T → Option (T × Produce T)
  | .one v => some (v, .one v)
  | .vec p => p.next.map fun drawn => (drawn.1, .vec drawn.2)

/-- A vector that has an element, or the one value. -/
def Nonempty : Produce T → Prop
  | .one _ => True
  | .vec p => p.vec ≠ []

theorem exists_next {self : Produce T} (h : self.Nonempty) :
    ∃ v self', self.next = some (v, self') ∧ self'.Nonempty := by
  cases self with
  | one v => exact ⟨v, .one v, rfl, trivial⟩
  | vec p =>
      obtain ⟨v, -, hnext⟩ := VecProduce.exists_next h
      exact ⟨v, .vec { p with idx := (p.idx + 1) % 2 ^ 64 }, by rw [next, hnext]; rfl, h⟩

end Produce

/-- The iterators of a run; `A` are the addresses to bind to, and `D` is what is sent. -/
structure Producers (A D : Type) where
  bind : Produce A
  data : Produce D

inductive Source where
  | bind
  | data
  deriving DecidableEq

/-- A call of `next` by some worker. -/
structure Draw where
  worker : ℕ
  source : Source

namespace Producers

variable {A D : Type}

/-- The iterators are shared, and a call adds to an index once, atomically: what matters is the order of
the calls, and not who makes them. -/
def draw (self : Producers A D) (d : Draw) : Option (Producers A D) :=
  match d.source with
  | .bind => self.bind.next.map fun drawn => { self with bind := drawn.2 }
  | .data => self.data.next.map fun drawn => { self with data := drawn.2 }

/-- The iterators are not empty, and no order of calls, by any workers, comes to a remainder by zero. -/
structure NeverEmpty (producers : Producers A D) : Prop where
  bind : producers.bind.Nonempty
  data : producers.data.Nonempty
  draws : ∀ draws, (Run.run draw producers draws).isSome

/-- A call leaves both iterators as long as they were. -/
theorem exists_draw {self : Producers A D} (h : self.bind.Nonempty ∧ self.data.Nonempty) (d : Draw) :
    ∃ self', self.draw d = some self' ∧ self'.bind.Nonempty ∧ self'.data.Nonempty := by
  obtain ⟨hbind, hdata⟩ := h
  cases hsource : d.source with
  | bind =>
      obtain ⟨v, bind, hnext, hbind'⟩ := Produce.exists_next hbind
      exact ⟨{ self with bind := bind }, by simp [draw, hsource, hnext], hbind', hdata⟩
  | data =>
      obtain ⟨v, data, hnext, hdata'⟩ := Produce.exists_next hdata
      exact ⟨{ self with data := data }, by simp [draw, hsource, hnext], hbind, hdata'⟩

theorem neverEmpty_iff (producers : Producers A D) :
    producers.NeverEmpty ↔ producers.bind.Nonempty ∧ producers.data.Nonempty := by
  constructor
  · intro h
    exact ⟨h.bind, h.data⟩
  · intro h
    exact ⟨h.1, h.2, Run.run_isSome (fun s d hs => exists_draw hs d) h⟩

end Producers

end Dwd
