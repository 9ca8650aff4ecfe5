import Dwd.LibHead
import Mathlib.Data.List.Nodup

/-! The payload of the HTTP engines: records in JSON, one in each line of a file, and the three forms of
a request that a record is converted to. `http/raw` sends the bytes that it makes itself; `http` and
`http3` hand over a request to their libraries. The parsing functions of the `http` crate are
parameters. -/

namespace Dwd

abbrev Bytes : Type := List UInt8

def ascii (s : List Char) : Bytes := s.map Char.toUInt8

def asciiLower (b : UInt8) : UInt8 := if 65 ≤ b ∧ b ≤ 90 then b + 32 else b

namespace JsonLine

structure Uri where
  scheme : Option Bytes
  authority : Option Bytes
  path : Bytes
  query : Option Bytes
  deriving DecidableEq

/-- The parsing functions; none is an error. Names of headers are in lower case. -/
structure HttpCrate where
  uriFromStr : Bytes → Option Uri
  uriToString : Uri → Bytes
  uriFromParts : Uri → Option Uri
  methodFromBytes : Bytes → Option Bytes
  headerNameFromStr : Bytes → Option Bytes
  headerValueFromBytes : Bytes → Option Bytes
  authorityFromStr : Bytes → Option Bytes

/-- `header::HOST`. -/
def HOST : Bytes := ascii ['h', 'o', 's', 't']

/-- `HeaderMap`, with one value for each name. -/
structure HeaderMap where
  entries : List (Bytes × Bytes)
  nodup : (entries.map Prod.fst).Nodup

namespace HeaderMap

def new : HeaderMap := ⟨[], List.nodup_nil⟩

/-- The entries after a name is given a value, which replaces the one that it had. -/
def insertEntry (name value : Bytes) : List (Bytes × Bytes) → List (Bytes × Bytes)
  | [] => [(name, value)]
  | entry :: entries =>
      if entry.1 = name then (name, value) :: entries else entry :: insertEntry name value entries

theorem mem_map_fst_insertEntry {name value other : Bytes} {entries : List (Bytes × Bytes)} :
    other ∈ (insertEntry name value entries).map Prod.fst ↔ other = name ∨ other ∈ entries.map Prod.fst := by
  induction entries with
  | nil => simp [insertEntry]
  | cons entry entries ih =>
      unfold insertEntry
      split_ifs with heq
      · subst heq
        simp
      · rw [List.map_cons, List.mem_cons, ih, List.map_cons, List.mem_cons]
        exact or_left_comm

theorem nodup_insertEntry {name value : Bytes} {entries : List (Bytes × Bytes)}
    (h : (entries.map Prod.fst).Nodup) : ((insertEntry name value entries).map Prod.fst).Nodup := by
  induction entries with
  | nil => simp [insertEntry]
  | cons entry entries ih =>
      obtain ⟨hentry, hentries⟩ := List.nodup_cons.mp h
      unfold insertEntry
      split_ifs with heq
      · subst heq
        exact h
      · refine List.nodup_cons.mpr ⟨fun hmem => ?_, ih hentries⟩
        rcases mem_map_fst_insertEntry.mp hmem with hname | hmem
        · exact heq hname
        · exact hentry hmem

def insert (name value : Bytes) (headers : HeaderMap) : HeaderMap :=
  ⟨insertEntry name value headers.entries, nodup_insertEntry headers.nodup⟩

/-- `into_iter`: a name comes with the first of its values only, and there are no others. -/
def intoIter (headers : HeaderMap) : List (Option Bytes × Bytes) :=
  headers.entries.map fun entry => (some entry.1, entry.2)

end HeaderMap

/-- `Request`, without its body. Its headers are in the order in which they were appended. -/
structure Request where
  method : Bytes
  uri : Uri
  headers : List (Bytes × Bytes)

namespace Request

def builder (method : Bytes) (uri : Uri) : Request := { method := method, uri := uri, headers := [] }

/-- `header` appends, whether the name is there or not. -/
def header (name value : Bytes) (request : Request) : Request :=
  { request with headers := request.headers ++ [(name, value)] }

end Request

/-- The object in a line: its strings, and the entries of `headers`, in the order in which the hash map
gives them. -/
structure Line where
  uri : Bytes
  method : Bytes
  host : Bytes
  headers : List (Bytes × Bytes)

structure JsonLineRecord where
  uri : Uri
  method : Bytes
  host : Bytes
  headers : HeaderMap

/-- What a rejected string should have been; `library` is the message of the `http` crate. -/
inductive Expected where
  | relativeUri
  | uriWithPath
  | library
  deriving DecidableEq

/-- `invalid_value`: the unexpected string, and what was expected. -/
structure DeError where
  unexpected : Bytes
  expected : Expected
  deriving DecidableEq

variable (http : HttpCrate)

def deserializeHttpUri (v : Bytes) : Except DeError Uri :=
  match http.uriFromStr v with
  | some uri =>
      if uri.authority.isSome || uri.scheme.isSome then .error ⟨http.uriToString uri, .relativeUri⟩
      else if uri.path = [] then .error ⟨http.uriToString uri, .uriWithPath⟩
      else .ok uri
  | none => .error ⟨v, .library⟩

def deserializeHttpMethod (v : Bytes) : Except DeError Bytes :=
  match http.methodFromBytes v with
  | some method => .ok method
  | none => .error ⟨v, .library⟩

/-- The loop of `deserialize_http_header_map`. A bad name is reported with its value. -/
def insertHeaders : List (Bytes × Bytes) → HeaderMap → Except DeError HeaderMap
  | [], headers => .ok headers
  | (name, value) :: v, headers =>
      match http.headerNameFromStr name with
      | none => .error ⟨value, .library⟩
      | some name =>
          match http.headerValueFromBytes value with
          | none => .error ⟨value, .library⟩
          | some value => insertHeaders v (headers.insert name value)

def deserializeHttpHeaderMap (v : List (Bytes × Bytes)) : Except DeError HeaderMap :=
  insertHeaders http v .new

/-- The fields are checked in the order of the record; in a line they may stand in another order, and
then another one of several errors is reported. -/
def deserialize (line : Line) : Except DeError JsonLineRecord := do
  let uri ← deserializeHttpUri http line.uri
  let method ← deserializeHttpMethod http line.method
  let headers ← deserializeHttpHeaderMap http line.headers
  return { uri := uri, method := method, host := line.host, headers := headers }

namespace JsonLineRecord

/-- `to_vec`. -/
def toVec (r : JsonLineRecord) : Bytes :=
  let target :=
    match r.uri.query with
    | some query => r.uri.path ++ 63 :: query
    | none => r.uri.path
  r.method ++ 32 :: target ++ 32 :: ascii ['H', 'T', 'T', 'P', '/', '1', '.', '1'] ++ [13, 10] ++
    ascii ['H', 'o', 's', 't', ':', ' '] ++ r.host ++ [13, 10] ++
    (r.headers.entries.flatMap fun entry =>
      if entry.1 = HOST then [] else entry.1 ++ [58, 32] ++ entry.2 ++ [13, 10]) ++ [13, 10]

/-- `TryFrom for Request<Empty<Bytes>>`. -/
def toHyper (r : JsonLineRecord) : Option Request := do
  let host ← http.headerValueFromBytes r.host
  return r.headers.intoIter.foldl (fun request entry =>
    match entry.1 with
    | some name => request.header name entry.2
    | none => request) ((Request.builder r.method r.uri).header HOST host)

/-- `TryFrom for Bytes`. -/
def toBytes (r : JsonLineRecord) : Option Bytes := some r.toVec

/-- `TryFrom for Request<()>`. -/
def toHttp3 (r : JsonLineRecord) : Option Request := do
  let authority ← http.authorityFromStr r.host
  let uri ← http.uriFromParts
    { r.uri with scheme := some (ascii ['h', 't', 't', 'p', 's']), authority := some authority }
  return r.headers.intoIter.foldl (fun request entry =>
    match entry.1 with
    | some name => if name = HOST then request else request.header name entry.2
    | none => request) (Request.builder r.method uri)

end JsonLineRecord

/-- The lines of a file. A line ends with a line feed, or at the end of the file, which is no line; with
the line feed goes a carriage return before it. -/
def lines : Bytes → Bytes → List Bytes
  | line, [] => if line = [] then [] else [line]
  | line, b :: rest =>
      if b = 10 then (if line.getLast? = some 13 then line.dropLast else line) :: lines [] rest
      else lines (line ++ [b]) rest

/-- `from_fs`, of the contents of a file that could be read. The first line that is not UTF-8, or cannot
be parsed or converted, ends it with an error; `fromStr` is the parser of JSON. -/
def fromFs {T : Type} (fromStr : Bytes → Option Line) (tryInto : JsonLineRecord → Option T)
    (contents : Bytes) : Option (List T) :=
  (lines [] contents).mapM fun line => do
    let line ← if line.toByteArray.validateUTF8 then fromStr line else none
    let record ← (deserialize http line).toOption
    tryInto record

theorem lines_eq_nil_iff {line contents : Bytes} : lines line contents = [] ↔ line = [] ∧ contents = [] := by
  induction contents generalizing line with
  | nil => simp [lines]
  | cons b rest ih =>
      rw [lines]
      split_ifs with hend
      · simp
      · simp [ih]

theorem length_of_mapM {α β : Type} {f : α → Option β} {as : List α} {bs : List β} (h : as.mapM f = some bs) :
    bs.length = as.length := by
  induction as generalizing bs with
  | nil =>
      cases h
      rfl
  | cons a as ih =>
      rw [List.mapM_cons] at h
      obtain ⟨b, -, h⟩ := Option.bind_eq_some_iff.mp h
      obtain ⟨rest, hrest, h⟩ := Option.bind_eq_some_iff.mp h
      cases h
      rw [List.length_cons, ih hrest, List.length_cons]

/-- A file gives a request for each line, and so none only if it is empty. -/
theorem fromFs_eq_nil_iff {http : HttpCrate} {T : Type} {fromStr : Bytes → Option Line}
    {tryInto : JsonLineRecord → Option T} {contents : Bytes} {requests : List T}
    (h : fromFs http fromStr tryInto contents = some requests) : requests = [] ↔ contents = [] := by
  have hlength := length_of_mapM h
  rw [← List.length_eq_zero_iff, hlength, List.length_eq_zero_iff, lines_eq_nil_iff]
  simp

end JsonLine

end Dwd
