import Dwd.JsonLineAgree
import Dwd.LibFraming

/-! The bytes of a record as lines. The parsers of the `http` crate keep line ends out of every field but
the host, which `to_vec` takes as it is in the file; so a record is one well-framed request exactly when
its host has no line end inside. -/

namespace Dwd.JsonLine

/-- What is read back from the lines of a request: the words of the request line, the host, and the other
headers up to the only empty line, with nothing after it. -/
def readFrame (bytes : Bytes) : Option Carried :=
  match Framing.split 13 10 bytes with
  | (requestLine :: hostLine :: rest, []) => do
      let (method, s) ← Head.upTo 32 requestLine
      let (target, version) ← Head.upTo 32 s
      let (name, host) ← Head.readField hostLine
      let headers ← rest.dropLast.mapM Head.readField
      if version ≠ ascii ['H', 'T', 'T', 'P', '/', '1', '.', '1'] ∨ name ≠ ascii ['H', 'o', 's', 't'] ∨
          rest.getLast? ≠ some [] then none
      else
        let (path, query) := match Head.upTo 63 target with
          | some (path, query) => (path, some query)
          | none => (target, none)
        return { method := method
                 path := path
                 query := query
                 authority := none
                 hosts := [host]
                 headers := headers }
  | _ => none

namespace JsonLineRecord

def requestLine (r : JsonLineRecord) : Bytes :=
  r.method ++ 32 :: (r.target ++ 32 :: ascii ['H', 'T', 'T', 'P', '/', '1', '.', '1'])

def hostLine (r : JsonLineRecord) : Bytes := Head.writeField (ascii ['H', 'o', 's', 't'], r.host)

/-- The lines before the empty one. -/
def frame (r : JsonLineRecord) : List Bytes :=
  r.requestLine :: r.hostLine :: r.otherHeaders.map Head.writeField

theorem toVec_eq_join (r : JsonLineRecord) : r.toVec = Framing.join 13 10 (r.frame ++ [[]]) := by
  have hheaders : (r.otherHeaders.map Head.writeField).flatMap (fun line => line ++ [13, 10]) =
      r.otherHeaders.flatMap fun field => Head.writeField field ++ [13, 10] := List.flatMap_map ..
  rw [toVec_eq, Framing.join, frame, List.flatMap_append, List.flatMap_cons, List.flatMap_cons, hheaders]
  simp [head, Head.Message.write, Head.writeFields, requestLine, hostLine]

end JsonLineRecord

/-- The bytes are the lines of the record and a single empty line at their end, and the record can be read
back from them. -/
structure WellFramed (r : JsonLineRecord) (bytes : Bytes) : Prop where
  lines : Framing.split 13 10 bytes = (r.frame ++ [[]], [])
  single : [] ∉ r.frame
  recovered : readFrame bytes = some
    { method := r.method
      path := r.uri.path
      query := r.uri.query
      authority := none
      hosts := [r.host]
      headers := r.otherHeaders }

variable {r : JsonLineRecord}

theorem writeField_ne_nil (field : Bytes × Bytes) : Head.writeField field ≠ [] := by
  simp [Head.writeField]

theorem nil_not_mem_frame (r : JsonLineRecord) : [] ∉ r.frame := by
  intro hmem
  rcases List.mem_cons.mp hmem with hrequest | hmem
  · simp [JsonLineRecord.requestLine] at hrequest
  · rcases List.mem_cons.mp hmem with hhost | hmem
    · exact writeField_ne_nil _ hhost.symm
    · obtain ⟨field, -, hfield⟩ := List.mem_map.mp hmem
      exact writeField_ne_nil field hfield

/-- A host with a line end inside breaks its line, and only that does. -/
theorem lineEnd_hostLine_iff (r : JsonLineRecord) : [13, 10] <:+: r.hostLine ↔ [13, 10] <:+: r.host := by
  have hsplit : r.hostLine = ascii ['H', 'o', 's', 't'] ++ [58, 32] ++ r.host := by
    simp [JsonLineRecord.hostLine, Head.writeField]
  rw [hsplit, Framing.pair_infix_append_iff (by decide)]

namespace Admitted

theorem not_mem_requestLine (h : Admitted r) : 13 ∉ r.requestLine := by
  have hmethod := h.not_mem_method not_visible_lineEnd
  have htarget := h.not_mem_target not_visible_lineEnd
  have hversion : 13 ∉ ascii ['H', 'T', 'T', 'P', '/', '1', '.', '1'] := by decide
  simp [JsonLineRecord.requestLine, hmethod, htarget, hversion]

theorem not_mem_headerLine (h : Admitted r) {field : Bytes × Bytes} (hfield : field ∈ r.otherHeaders) :
    13 ∉ Head.writeField field := by
  obtain ⟨-, hname, hvalue⟩ := h.readable_field hfield
  simp [Head.writeField, hname, hvalue]

/-- Only the host can have a line end inside. -/
theorem lineEnd_frame_iff (h : Admitted r) :
    (∀ line ∈ r.frame ++ [[]], ¬[13, 10] <:+: line) ↔ ¬[13, 10] <:+: r.host := by
  rw [← lineEnd_hostLine_iff]
  constructor
  · intro hlines
    exact hlines r.hostLine (by simp [JsonLineRecord.frame])
  · intro hhost line hline
    rcases List.mem_append.mp hline with hframe | hempty
    · rcases List.mem_cons.mp hframe with rfl | hframe
      · exact Framing.not_pair_infix_of_not_mem h.not_mem_requestLine
      · rcases List.mem_cons.mp hframe with rfl | hframe
        · exact hhost
        · obtain ⟨field, hfield, rfl⟩ := List.mem_map.mp hframe
          exact Framing.not_pair_infix_of_not_mem (h.not_mem_headerLine hfield)
    · obtain rfl := List.mem_singleton.mp hempty
      simp

theorem readFields_otherHeaders (h : Admitted r) :
    (r.otherHeaders.map Head.writeField).mapM Head.readField = some r.otherHeaders := by
  have hread : ∀ fields : List (Bytes × Bytes), (∀ field ∈ fields, 58 ∉ field.1) →
      (fields.map Head.writeField).mapM Head.readField = some fields := by
    intro fields hfields
    induction fields with
    | nil => rfl
    | cons field fields ih =>
        have hfirst := Head.readField_writeField (hfields field List.mem_cons_self)
        have hrest := ih fun field' hmem => hfields field' (List.mem_cons_of_mem field hmem)
        rw [List.map_cons, List.mapM_cons, hfirst, hrest]
        rfl
  exact hread r.otherHeaders fun field hfield => (h.readable_field hfield).name_colon

/-- The record is read back from its own lines. -/
theorem readFrame_eq (h : Admitted r) {bytes : Bytes}
    (hlines : Framing.split 13 10 bytes = (r.frame ++ [[]], [])) :
    readFrame bytes = some
      { method := r.method
        path := r.uri.path
        query := r.uri.query
        authority := none
        hosts := [r.host]
        headers := r.otherHeaders } := by
  have hmethod := h.not_mem_method not_visible_blank
  have htarget := h.not_mem_target not_visible_blank
  have hpath : 63 ∉ r.uri.path := fun hmem => (h.path 63 hmem).2 rfl
  have hhost : Head.readField r.hostLine = some (ascii ['H', 'o', 's', 't'], r.host) :=
    Head.readField_writeField (show 58 ∉ ascii ['H', 'o', 's', 't'] by decide)
  have hdrop : (r.otherHeaders.map Head.writeField ++ [[]]).dropLast =
      r.otherHeaders.map Head.writeField := List.dropLast_concat
  have hlast : (r.otherHeaders.map Head.writeField ++ [[]]).getLast? = some [] := List.getLast?_concat
  have hframe : r.frame ++ [[]] =
      r.requestLine :: r.hostLine :: (r.otherHeaders.map Head.writeField ++ [[]]) := rfl
  rw [readFrame, hlines, hframe]
  simp only [JsonLineRecord.requestLine, Head.upTo_append hmethod, Head.upTo_append htarget, hhost, hdrop,
    hlast, h.readFields_otherHeaders, Option.bind_eq_bind, Option.bind_some, ne_eq, not_true, or_self,
    if_false, Option.pure_def]
  rw [JsonLineRecord.target]
  cases hquery : r.uri.query with
  | none => simp only [Head.upTo_eq_none hpath]
  | some query => simp only [Head.upTo_append hpath]

theorem wellFramed_iff (h : Admitted r) : WellFramed r r.toVec ↔ ¬[13, 10] <:+: r.host := by
  have hne : (13 : UInt8) ≠ 10 := by decide
  rw [← h.lineEnd_frame_iff, ← Framing.split_join_iff hne, ← JsonLineRecord.toVec_eq_join]
  exact ⟨fun hframed => hframed.lines, fun hlines => ⟨hlines, nil_not_mem_frame r, h.readFrame_eq hlines⟩⟩

end Admitted

/-- The host is not looked at. -/
theorem host_of_deserialize {http : HttpCrate} {line : Line} (h : deserialize http line = .ok r) :
    r.host = line.host := by
  obtain ⟨uri, method, headers, -, -, -, rfl⟩ := exists_parsed h
  rfl

/-- A record that the deserializer admits is sent as exactly one well-framed request, from which it can be
read back, exactly when its host has no line end inside. -/
theorem toVec_wellFramed_iff {http : HttpCrate} (hhttp : http.Lawful) {line : Line}
    (hr : deserialize http line = .ok r) : WellFramed r r.toVec ↔ ¬[13, 10] <:+: line.host := by
  rw [← host_of_deserialize hr]
  exact (deserialize_eq_ok hhttp hr).1.wellFramed_iff

theorem toVec_wellFramed_ping : ∃ r, deserialize plainCrate pingLine = .ok r ∧ WellFramed r r.toVec := by
  have hsome : (deserialize plainCrate pingLine).toOption.isSome = true := by decide +kernel
  obtain ⟨r, hr⟩ := Fallible.exists_eq_ok hsome
  exact ⟨r, hr, (toVec_wellFramed_iff plainCrate_lawful hr).mpr (by decide)⟩

/-- A record with the host `a`, a line end, and a header of its own. -/
def splitHostLine : Line :=
  { uri := ascii ['/']
    method := ascii ['G', 'E', 'T']
    host := ascii ['a', '\r', '\n', 'x', ':', ' ', 'y']
    headers := [] }

/-- The deserializer lets the host in, and it is sent as a header more. -/
theorem not_wellFramed_split_host : ∃ r, deserialize plainCrate splitHostLine = .ok r ∧
    Framing.split 13 10 r.toVec =
      ([r.requestLine, ascii ['H', 'o', 's', 't', ':', ' ', 'a'], ascii ['x', ':', ' ', 'y'], []], []) ∧
    ¬WellFramed r r.toVec := by
  have hsome : (deserialize plainCrate splitHostLine).toOption.isSome = true := by decide +kernel
  obtain ⟨r, hr⟩ := Fallible.exists_eq_ok hsome
  have hsplit : ∀ r' ∈ (deserialize plainCrate splitHostLine).toOption, Framing.split 13 10 r'.toVec =
      ([r'.requestLine, ascii ['H', 'o', 's', 't', ':', ' ', 'a'], ascii ['x', ':', ' ', 'y'], []], []) := by
    decide +kernel
  refine ⟨r, hr, hsplit r (by rw [hr]; rfl), fun hframed => ?_⟩
  have hhost := (deserialize_eq_ok plainCrate_lawful hr).1.wellFramed_iff.mp hframed
  rw [host_of_deserialize hr] at hhost
  exact hhost (by decide +kernel)

end Dwd.JsonLine
