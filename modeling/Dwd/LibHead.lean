import Mathlib.Data.List.Basic

/-! The head of a message in a textual protocol, in bytes: a request line of three words, a line for each
field, and an empty line. What is written can be read back when no word has a blank, no line has a line
end, and no field name has a colon. -/

namespace Head

/-- Split at the first occurrence of a byte. -/
def upTo (b : UInt8) : List UInt8 → Option (List UInt8 × List UInt8)
  | [] => none
  | x :: s => if x = b then some ([], s) else (upTo b s).map fun p => (x :: p.1, p.2)

theorem upTo_append {b : UInt8} {word : List UInt8} (h : b ∉ word) (s : List UInt8) :
    upTo b (word ++ b :: s) = some (word, s) := by
  induction word with
  | nil => rw [List.nil_append, upTo, if_pos rfl]
  | cons x word ih =>
      obtain ⟨hx, hword⟩ := not_or.mp (mt List.mem_cons.mpr h)
      rw [List.cons_append, upTo, if_neg (Ne.symm hx), ih hword]
      rfl

theorem upTo_eq_none {b : UInt8} {s : List UInt8} (h : b ∉ s) : upTo b s = none := by
  induction s with
  | nil => rfl
  | cons x s ih =>
      obtain ⟨hx, hs⟩ := not_or.mp (mt List.mem_cons.mpr h)
      rw [upTo, if_neg (Ne.symm hx), ih hs]
      rfl

/-- A line, ended by a carriage return and a line feed. -/
def readLine (s : List UInt8) : Option (List UInt8 × List UInt8) :=
  match upTo 13 s with
  | some (line, 10 :: rest) => some (line, rest)
  | _ => none

theorem readLine_append {line : List UInt8} (h : 13 ∉ line) (s : List UInt8) :
    readLine (line ++ 13 :: 10 :: s) = some (line, s) := by
  rw [readLine, upTo_append h]
  rfl

/-- A field: its name, a colon, a blank, and its value. -/
def readField (line : List UInt8) : Option (List UInt8 × List UInt8) :=
  match upTo 58 line with
  | some (name, 32 :: value) => some (name, value)
  | _ => none

def writeField (field : List UInt8 × List UInt8) : List UInt8 := field.1 ++ 58 :: 32 :: field.2

theorem readField_writeField {field : List UInt8 × List UInt8} (h : 58 ∉ field.1) :
    readField (writeField field) = some field := by
  rw [readField, writeField, upTo_append h]
  rfl

/-- The fields up to the empty line. The number bounds how many there are. -/
def readFields : ℕ → List UInt8 → Option (List (List UInt8 × List UInt8) × List UInt8)
  | 0, _ => none
  | n + 1, s =>
      match readLine s with
      | none => none
      | some ([], rest) => some ([], rest)
      | some (line, rest) => do
          let field ← readField line
          let (fields, rest) ← readFields n rest
          return (field :: fields, rest)

def writeFields (fields : List (List UInt8 × List UInt8)) : List UInt8 :=
  (fields.flatMap fun field => writeField field ++ [13, 10]) ++ [13, 10]

theorem writeFields_cons (field : List UInt8 × List UInt8) (fields : List (List UInt8 × List UInt8)) :
    writeFields (field :: fields) = writeField field ++ 13 :: 10 :: writeFields fields := by
  simp [writeFields]

/-- A field that can be read back. -/
structure FieldReadable (field : List UInt8 × List UInt8) : Prop where
  name_colon : 58 ∉ field.1
  name_line : 13 ∉ field.1
  value_line : 13 ∉ field.2

theorem length_le_writeFields (fields : List (List UInt8 × List UInt8)) :
    fields.length < (writeFields fields).length := by
  induction fields with
  | nil => simp [writeFields]
  | cons field fields ih =>
      rw [writeFields_cons]
      simp only [List.length_cons, List.length_append]
      omega

theorem readFields_writeFields {fields : List (List UInt8 × List UInt8)}
    (h : ∀ field ∈ fields, FieldReadable field) {n : ℕ} (hn : fields.length < n) :
    readFields n (writeFields fields) = some (fields, []) := by
  induction fields generalizing n with
  | nil =>
      obtain ⟨n, rfl⟩ := Nat.exists_eq_add_one_of_ne_zero (by omega : n ≠ 0)
      rfl
  | cons field fields ih =>
      obtain ⟨n, rfl⟩ := Nat.exists_eq_add_one_of_ne_zero (by omega : n ≠ 0)
      obtain ⟨hcolon, hname, hvalue⟩ := h field List.mem_cons_self
      have hline : 13 ∉ writeField field := by
        simp only [writeField, List.mem_append, List.mem_cons, not_or]
        exact ⟨hname, by decide, by decide, hvalue⟩
      have hlength : fields.length < n := by simpa using hn
      have hrest := ih (fun field hmem => h field (List.mem_cons_of_mem _ hmem)) hlength
      have hread := readField_writeField hcolon
      rw [writeFields_cons, readFields, readLine_append hline]
      cases hwritten : writeField field with
      | nil => simp [writeField] at hwritten
      | cons x line =>
          rw [hwritten] at hread
          simp [hread, hrest]

/-- A head. -/
structure Message where
  method : List UInt8
  target : List UInt8
  version : List UInt8
  fields : List (List UInt8 × List UInt8)

namespace Message

def write (m : Message) : List UInt8 :=
  m.method ++ 32 :: (m.target ++ 32 :: (m.version ++ 13 :: 10 :: writeFields m.fields))

/-- Read a head, and nothing after it. -/
def read (s : List UInt8) : Option Message := do
  let (method, s) ← upTo 32 s
  let (target, s) ← upTo 32 s
  let (version, s) ← readLine s
  let (fields, rest) ← readFields s.length s
  if rest = [] then return ⟨method, target, version, fields⟩ else none

/-- A head that can be read back. -/
structure Readable (m : Message) : Prop where
  method : 32 ∉ m.method
  target : 32 ∉ m.target
  version : 13 ∉ m.version
  fields : ∀ field ∈ m.fields, FieldReadable field

/-- **What is written can be read back.** -/
theorem read_write {m : Message} (h : m.Readable) : read m.write = some m := by
  have hfields := readFields_writeFields h.fields (length_le_writeFields m.fields)
  simp [read, write, upTo_append h.method, upTo_append h.target, readLine_append h.version, hfields]

end Message

end Head
