import Dwd.JsonLine
import Dwd.LibFallible
import Mathlib.Data.FinEnum

/-! The three forms of a request carry the same, to the host of the record, exactly when the headers of
the record have no `Host`. The bytes and the HTTP/3 request leave it out, as the documentation says; the
request for `hyper` gets it as a second one. -/

namespace Dwd.JsonLine

/-- What a request carries. The values of `Host` are apart from the other headers. -/
structure Carried where
  method : Bytes
  path : Bytes
  query : Option Bytes
  authority : Option Bytes
  hosts : List Bytes
  headers : List (Bytes × Bytes)

namespace Carried

/-- The fields of a request, sorted into `Host` and the rest. -/
def ofFields (method path : Bytes) (query authority : Option Bytes) (fields : List (Bytes × Bytes)) : Carried :=
  { method := method
    path := path
    query := query
    authority := authority
    hosts := (fields.filter fun field => field.1 = HOST).map Prod.snd
    headers := fields.filter fun field => field.1 ≠ HOST }

/-- The same method, path and query, and the same other headers in any order. -/
structure Same (left right : Carried) : Prop where
  method : left.method = right.method
  path : left.path = right.path
  query : left.query = right.query
  headers : left.headers.Perm right.headers

/-- One `Host` and no authority, as in HTTP/1. -/
def ToHost (host : Bytes) (carried : Carried) : Prop := carried.authority = none ∧ carried.hosts = [host]

/-- The authority and no `Host`, as in HTTP/3. -/
def ToAuthority (host : Bytes) (carried : Carried) : Prop :=
  carried.authority = some host ∧ carried.hosts = []

end Carried

def Request.carried (request : Request) : Carried :=
  .ofFields request.method request.uri.path request.uri.query request.uri.authority request.headers

/-- What a server reads from the bytes of a request. Names of fields do not tell the case of letters. -/
def readRaw (bytes : Bytes) : Option Carried := do
  let head ← Head.Message.read bytes
  let fields := head.fields.map fun field => (field.1.map asciiLower, field.2)
  if head.version ≠ ascii ['H', 'T', 'T', 'P', '/', '1', '.', '1'] then none
  else
    match Head.upTo 63 head.target with
    | some (path, query) => return .ofFields head.method path (some query) none fields
    | none => return .ofFields head.method head.target none none fields

/-- The bytes and the two requests agree on what they carry, and on the host. -/
structure Agree (host : Bytes) (bytes : Bytes) (hyper http3 : Request) : Prop where
  bytes_hyper : ∃ raw, readRaw bytes = some raw ∧ raw.ToHost host ∧ raw.Same hyper.carried
  hyper_http3 : hyper.carried.Same http3.carried
  hyper_host : hyper.carried.ToHost host
  http3_authority : http3.carried.ToAuthority host

/-- A byte that is neither a blank nor a control. -/
def Visible (b : UInt8) : Prop := 32 < b

theorem not_visible_blank : ¬Visible 32 := UInt8.lt_irrefl 32

theorem not_visible_lineEnd : ¬Visible 13 := by
  unfold Visible
  decide

/-- What the `http` crate checks and keeps when it parses. -/
structure HttpCrate.Lawful (http : HttpCrate) : Prop where
  uri_path : ∀ v uri, http.uriFromStr v = some uri → ∀ b ∈ uri.path, Visible b ∧ b ≠ 63
  uri_query : ∀ v uri, http.uriFromStr v = some uri → ∀ query ∈ uri.query, ∀ b ∈ query, Visible b
  uri_parts : ∀ parts uri, http.uriFromParts parts = some uri → uri = parts
  method : ∀ v method, http.methodFromBytes v = some method → ∀ b ∈ method, Visible b
  header_name : ∀ v name, http.headerNameFromStr v = some name →
    name = v.map asciiLower ∧ ∀ b ∈ name, Visible b ∧ b ≠ 58
  header_value : ∀ v value, http.headerValueFromBytes v = some value → value = v ∧ 13 ∉ value
  authority : ∀ v authority, http.authorityFromStr v = some authority → authority = v

/-- A header that the deserializer lets in: its name is in lower case. -/
structure HeaderAdmitted (entry : Bytes × Bytes) : Prop where
  lower : entry.1.map asciiLower = entry.1
  name : ∀ b ∈ entry.1, Visible b ∧ b ≠ 58
  value : 13 ∉ entry.2

structure Admitted (r : JsonLineRecord) : Prop where
  relative : r.uri.authority = none
  path : ∀ b ∈ r.uri.path, Visible b ∧ b ≠ 63
  query : ∀ query ∈ r.uri.query, ∀ b ∈ query, Visible b
  method : ∀ b ∈ r.method, Visible b
  headers : ∀ entry ∈ r.headers.entries, HeaderAdmitted entry

theorem asciiLower_idem (b : UInt8) : asciiLower (asciiLower b) = asciiLower b := by
  unfold asciiLower
  split_ifs with hletter hlower
  · exfalso
    obtain ⟨hlow, hhigh⟩ := hletter
    obtain ⟨-, hhigh'⟩ := hlower
    rw [UInt8.le_iff_toNat_le] at hlow hhigh hhigh'
    rw [UInt8.toNat_add] at hhigh'
    simp at hlow hhigh hhigh'
    omega
  · rfl
  · rfl

variable {http : HttpCrate}

theorem mem_insertEntry {name value : Bytes} {entries : List (Bytes × Bytes)} {entry : Bytes × Bytes}
    (h : entry ∈ HeaderMap.insertEntry name value entries) : entry = (name, value) ∨ entry ∈ entries := by
  induction entries with
  | nil => exact Or.inl (List.mem_singleton.mp h)
  | cons first entries ih =>
      unfold HeaderMap.insertEntry at h
      split_ifs at h with heq
      · rcases List.mem_cons.mp h with hentry | hmem
        · exact Or.inl hentry
        · exact Or.inr (List.mem_cons_of_mem _ hmem)
      · rcases List.mem_cons.mp h with hentry | hmem
        · exact Or.inr (hentry ▸ List.mem_cons_self)
        · exact (ih hmem).imp_right (List.mem_cons_of_mem _)

/-- Every header is admitted, and the names are the ones that were given, in lower case. -/
theorem insertHeaders_eq_ok (hhttp : http.Lawful) {v : List (Bytes × Bytes)} {headers headers' : HeaderMap}
    (hheaders : ∀ entry ∈ headers.entries, HeaderAdmitted entry)
    (h : insertHeaders http v headers = .ok headers') :
    (∀ entry ∈ headers'.entries, HeaderAdmitted entry) ∧
      ∀ name, name ∈ headers'.entries.map Prod.fst ↔
        name ∈ headers.entries.map Prod.fst ∨ ∃ entry ∈ v, entry.1.map asciiLower = name := by
  induction v generalizing headers with
  | nil =>
      rw [insertHeaders] at h
      cases h
      exact ⟨hheaders, by simp⟩
  | cons field v ih =>
      obtain ⟨key, given⟩ := field
      rw [insertHeaders] at h
      cases hname : http.headerNameFromStr key with
      | none => simp [hname] at h
      | some name =>
          cases hvalue : http.headerValueFromBytes given with
          | none => simp [hname, hvalue] at h
          | some value =>
              simp only [hname, hvalue] at h
              obtain ⟨rfl, hvisible⟩ := hhttp.header_name key name hname
              obtain ⟨rfl, hline⟩ := hhttp.header_value given value hvalue
              have hentry : HeaderAdmitted (key.map asciiLower, value) := by
                refine ⟨?_, hvisible, hline⟩
                simp [asciiLower_idem]
              have hinserted : ∀ entry ∈ (headers.insert (key.map asciiLower) value).entries,
                  HeaderAdmitted entry := fun entry hmem => by
                rcases mem_insertEntry hmem with rfl | hmem
                · exact hentry
                · exact hheaders entry hmem
              obtain ⟨hadmitted, hnames⟩ := ih hinserted h
              refine ⟨hadmitted, fun other => (hnames other).trans ?_⟩
              rw [HeaderMap.insert, HeaderMap.mem_map_fst_insertEntry, List.exists_mem_cons_iff, or_assoc,
                or_left_comm, eq_comm]

theorem deserializeHttpUri_eq_ok {v : Bytes} {uri : Uri} (h : deserializeHttpUri http v = .ok uri) :
    http.uriFromStr v = some uri ∧ uri.authority = none := by
  rw [deserializeHttpUri] at h
  cases hparsed : http.uriFromStr v with
  | none => simp [hparsed] at h
  | some parsed =>
      simp only [hparsed] at h
      split_ifs at h with habsolute
      cases h
      simp only [Bool.or_eq_true, not_or] at habsolute
      exact ⟨rfl, Option.not_isSome_iff_eq_none.mp habsolute.1⟩

theorem deserializeHttpMethod_eq_ok {v method : Bytes} (h : deserializeHttpMethod http v = .ok method) :
    http.methodFromBytes v = some method := by
  rw [deserializeHttpMethod] at h
  cases hparsed : http.methodFromBytes v with
  | none => simp [hparsed] at h
  | some parsed =>
      simp only [hparsed] at h
      cases h
      rfl

/-- A record that the deserializer returns has the results of the three parsers, and the host of the line. -/
theorem exists_parsed {line : Line} {r : JsonLineRecord} (h : deserialize http line = .ok r) :
    ∃ uri method headers, deserializeHttpUri http line.uri = .ok uri ∧
      deserializeHttpMethod http line.method = .ok method ∧
      deserializeHttpHeaderMap http line.headers = .ok headers ∧
      r = { uri := uri, method := method, host := line.host, headers := headers } := by
  obtain ⟨uri, huri, h⟩ := Fallible.bind_eq_ok_iff.mp h
  obtain ⟨method, hmethod, h⟩ := Fallible.bind_eq_ok_iff.mp h
  obtain ⟨headers, hheaders, rfl⟩ := Fallible.bind_pure_eq_ok_iff.mp h
  exact ⟨uri, method, headers, huri, hmethod, hheaders, rfl⟩

/-- What the deserializer has checked. -/
theorem deserialize_eq_ok (hhttp : http.Lawful) {line : Line} {r : JsonLineRecord}
    (h : deserialize http line = .ok r) :
    Admitted r ∧ ∀ name, name ∈ r.headers.entries.map Prod.fst ↔
      ∃ entry ∈ line.headers, entry.1.map asciiLower = name := by
  obtain ⟨uri, method, headers, huri, hmethod, hheaders, rfl⟩ := exists_parsed h
  obtain ⟨hparsed, hrelative⟩ := deserializeHttpUri_eq_ok huri
  obtain ⟨hadmitted, hnames⟩ := insertHeaders_eq_ok hhttp (by simp [HeaderMap.new]) hheaders
  refine ⟨⟨hrelative, hhttp.uri_path _ _ hparsed, hhttp.uri_query _ _ hparsed,
    hhttp.method _ _ (deserializeHttpMethod_eq_ok hmethod), hadmitted⟩, fun name => ?_⟩
  rw [hnames]
  simp [HeaderMap.new]

theorem flatMap_unless {α β : Type} (p : α → Prop) [DecidablePred p] (f : α → List β) (as : List α) :
    (as.flatMap fun a => if p a then [] else f a) = (as.filter fun a => ¬p a).flatMap f := by
  induction as with
  | nil => rfl
  | cons a as ih => by_cases hp : p a <;> simp [hp, ih]

namespace JsonLineRecord

def target (r : JsonLineRecord) : Bytes :=
  match r.uri.query with
  | some query => r.uri.path ++ 63 :: query
  | none => r.uri.path

/-- The headers but `Host`. -/
def otherHeaders (r : JsonLineRecord) : List (Bytes × Bytes) :=
  r.headers.entries.filter fun entry => entry.1 ≠ HOST

/-- The head that `to_vec` writes. -/
def head (r : JsonLineRecord) : Head.Message :=
  { method := r.method
    target := r.target
    version := ascii ['H', 'T', 'T', 'P', '/', '1', '.', '1']
    fields := (ascii ['H', 'o', 's', 't'], r.host) :: r.otherHeaders }

theorem toVec_eq (r : JsonLineRecord) : r.toVec = r.head.write := by
  have hcolon : ascii ['H', 'o', 's', 't', ':', ' '] = ascii ['H', 'o', 's', 't'] ++ [58, 32] := by decide
  rw [toVec, flatMap_unless, hcolon]
  cases hquery : r.uri.query with
  | none => simp [head, target, hquery, Head.Message.write, Head.writeFields, Head.writeField, otherHeaders]
  | some query => simp [head, target, hquery, Head.Message.write, Head.writeFields, Head.writeField, otherHeaders]

theorem filter_otherHeaders (r : JsonLineRecord) :
    (r.otherHeaders.filter fun field => field.1 = HOST) = [] ∧
      (r.otherHeaders.filter fun field => field.1 ≠ HOST) = r.otherHeaders := by
  have hothers : ∀ field ∈ r.otherHeaders, field.1 ≠ HOST := fun field hmem => by
    simpa using (List.mem_filter.mp hmem).2
  exact ⟨List.filter_eq_nil_iff.mpr fun field hmem => by simpa using hothers field hmem,
    List.filter_eq_self.mpr fun field hmem => by simpa using hothers field hmem⟩

theorem ofFields_otherHeaders (r : JsonLineRecord) (method path : Bytes) (query authority : Option Bytes) :
    Carried.ofFields method path query authority ((HOST, r.host) :: r.otherHeaders) =
      { method := method
        path := path
        query := query
        authority := authority
        hosts := [r.host]
        headers := r.otherHeaders } := by
  obtain ⟨hhosts, hheaders⟩ := filter_otherHeaders r
  rw [Carried.ofFields, List.filter_cons_of_pos (by simp), List.filter_cons_of_neg (by simp), hhosts, hheaders]
  rfl

end JsonLineRecord

namespace Admitted

variable {r : JsonLineRecord}

theorem not_mem_method (h : Admitted r) {b : UInt8} (hb : ¬Visible b) : b ∉ r.method :=
  fun hmem => hb (h.method b hmem)

/-- Path and query have no blanks and no line ends, and the mark between them is neither. -/
theorem not_mem_target (h : Admitted r) {b : UInt8} (hb : ¬Visible b) : b ∉ r.target := by
  have hpath : b ∉ r.uri.path := fun hmem => hb (h.path b hmem).1
  have hmark : b ≠ 63 := fun heq => hb (by rw [heq]; unfold Visible; decide)
  rw [JsonLineRecord.target]
  cases hquery : r.uri.query with
  | none => exact hpath
  | some query =>
      have hclean : b ∉ query := fun hmem => hb (h.query query hquery b hmem)
      simp [hpath, hmark, hclean]

/-- The headers but `Host` can be read back from their lines. -/
theorem readable_field (h : Admitted r) {field : Bytes × Bytes} (hfield : field ∈ r.otherHeaders) :
    Head.FieldReadable field := by
  obtain ⟨-, hname, hvalue⟩ := h.headers field (List.mem_of_mem_filter hfield)
  exact ⟨fun hcolon => (hname 58 hcolon).2 rfl, fun hline => not_visible_lineEnd (hname 13 hline).1, hvalue⟩

theorem readable (h : Admitted r) (hhost : 13 ∉ r.host) : r.head.Readable := by
  have hversion : 13 ∉ ascii ['H', 'T', 'T', 'P', '/', '1', '.', '1'] := by decide
  have hcolon : 58 ∉ ascii ['H', 'o', 's', 't'] := by decide
  have hline : 13 ∉ ascii ['H', 'o', 's', 't'] := by decide
  refine ⟨h.not_mem_method not_visible_blank, h.not_mem_target not_visible_blank, hversion, ?_⟩
  intro field hfield
  rcases List.mem_cons.mp hfield with rfl | hmem
  · exact ⟨hcolon, hline, hhost⟩
  · exact h.readable_field hmem

theorem lower_otherHeaders (h : Admitted r) :
    (r.otherHeaders.map fun field => (field.1.map asciiLower, field.2)) = r.otherHeaders := by
  refine (List.map_congr_left fun field hfield => ?_).trans (List.map_id _)
  rw [(h.headers field (List.mem_of_mem_filter hfield)).lower]
  rfl

/-- A server reads from the bytes the fields of the record, and one `Host`. -/
theorem readRaw_toVec (h : Admitted r) (hhost : 13 ∉ r.host) :
    readRaw r.toVec = some
      { method := r.method
        path := r.uri.path
        query := r.uri.query
        authority := none
        hosts := [r.host]
        headers := r.otherHeaders } := by
  have hpath : 63 ∉ r.uri.path := fun hmem => (h.path 63 hmem).2 rfl
  have hlower_host : (ascii ['H', 'o', 's', 't']).map asciiLower = HOST := by decide
  have hfields : (r.head.fields.map fun field => (field.1.map asciiLower, field.2)) =
      (HOST, r.host) :: r.otherHeaders := by
    rw [JsonLineRecord.head, List.map_cons, h.lower_otherHeaders, hlower_host]
  rw [readRaw, JsonLineRecord.toVec_eq, Head.Message.read_write (h.readable hhost)]
  simp only [Option.bind_eq_bind, Option.bind_some, hfields]
  rw [if_neg (fun hversion => hversion rfl), JsonLineRecord.head, JsonLineRecord.target]
  cases hquery : r.uri.query with
  | none =>
      simp only [Head.upTo_eq_none hpath]
      exact congrArg some (r.ofFields_otherHeaders r.method r.uri.path none none)
  | some query =>
      simp only [Head.upTo_append hpath]
      exact congrArg some (r.ofFields_otherHeaders r.method r.uri.path (some query) none)

end Admitted

/-- A loop that appends some of the headers. -/
theorem foldl_header (keep : Bytes × Bytes → Prop) [DecidablePred keep] (entries : List (Bytes × Bytes))
    (request : Request) :
    entries.foldl (fun request entry => if keep entry then request.header entry.1 entry.2 else request) request =
      { request with headers := request.headers ++ entries.filter keep } := by
  induction entries generalizing request with
  | nil => simp
  | cons entry entries ih =>
      rw [List.foldl_cons, ih]
      by_cases hkeep : keep entry
      · simp [hkeep, Request.header]
      · simp [hkeep]

namespace JsonLineRecord

variable {r : JsonLineRecord} {request : Request}

theorem toHyper_eq_some (hhttp : http.Lawful) (h : r.toHyper http = some request) :
    13 ∉ r.host ∧ request = ⟨r.method, r.uri, (HOST, r.host) :: r.headers.entries⟩ := by
  rw [toHyper] at h
  obtain ⟨host, hhost, h⟩ := Option.bind_eq_some_iff.mp h
  obtain ⟨rfl, hline⟩ := hhttp.header_value r.host host hhost
  have hfold := foldl_header (fun _ => True) r.headers.entries ((Request.builder r.method r.uri).header HOST r.host)
  simp only [HeaderMap.intoIter, List.foldl_map] at h
  simp only [if_true] at hfold
  rw [hfold] at h
  refine ⟨hline, ?_⟩
  simpa [Request.builder, Request.header] using (Option.some.inj h).symm

theorem toHttp3_eq_some (hhttp : http.Lawful) (h : r.toHttp3 http = some request) :
    request =
      { method := r.method
        uri := { r.uri with scheme := some (ascii ['h', 't', 't', 'p', 's']), authority := some r.host }
        headers := r.otherHeaders } := by
  rw [toHttp3] at h
  obtain ⟨authority, hauthority, h⟩ := Option.bind_eq_some_iff.mp h
  obtain ⟨uri, huri, h⟩ := Option.bind_eq_some_iff.mp h
  obtain rfl := hhttp.authority r.host authority hauthority
  obtain rfl := hhttp.uri_parts _ uri huri
  have hfold := foldl_header (fun entry => entry.1 ≠ HOST) r.headers.entries
  simp only [HeaderMap.intoIter, List.foldl_map] at h
  simp only [ite_not] at hfold
  rw [hfold] at h
  simpa [Request.builder, otherHeaders] using (Option.some.inj h).symm

/-- The request for `hyper` carries the `Host` of the headers too. -/
theorem carried_hyper (r : JsonLineRecord) :
    Request.carried ⟨r.method, r.uri, (HOST, r.host) :: r.headers.entries⟩ =
      { method := r.method
        path := r.uri.path
        query := r.uri.query
        authority := r.uri.authority
        hosts := r.host :: (r.headers.entries.filter fun field => field.1 = HOST).map Prod.snd
        headers := r.otherHeaders } := by
  rw [Request.carried, Carried.ofFields, List.filter_cons_of_pos (by simp), List.filter_cons_of_neg (by simp)]
  rfl

theorem carried_http3 (r : JsonLineRecord) (scheme : Bytes) :
    Request.carried ⟨r.method, { r.uri with scheme := some scheme, authority := some r.host }, r.otherHeaders⟩ =
      { method := r.method
        path := r.uri.path
        query := r.uri.query
        authority := some r.host
        hosts := []
        headers := r.otherHeaders } := by
  obtain ⟨hhosts, hheaders⟩ := r.filter_otherHeaders
  rw [Request.carried, Carried.ofFields, hhosts, hheaders]
  rfl

end JsonLineRecord

/-! ### Agreement -/

variable {line : Line} {r : JsonLineRecord} {hyper http3 : Request}

/-- The headers of the record have a `Host` exactly when the line names one. -/
theorem hosts_eq_nil_iff (hhttp : http.Lawful) (hr : deserialize http line = .ok r) :
    (r.headers.entries.filter fun field => field.1 = HOST) = [] ↔
      ∀ entry ∈ line.headers, entry.1.map asciiLower ≠ HOST := by
  have hmem := (deserialize_eq_ok hhttp hr).2 HOST
  rw [List.filter_eq_nil_iff]
  constructor
  · intro hentries given hgiven heq
    obtain ⟨entry, hentry, hname⟩ := List.mem_map.mp (hmem.mpr ⟨given, hgiven, heq⟩)
    exact hentries entry hentry (by simpa using hname)
  · intro hlower entry hentry hname
    obtain ⟨given, hgiven, heq⟩ := hmem.mp (List.mem_map.mpr ⟨entry, hentry, by simpa using hname⟩)
    exact hlower given hgiven heq

/-- A second `Host` of the request for `hyper` leaves no agreement. -/
theorem hosts_eq_nil_of_agree (hhttp : http.Lawful) (hhyper : r.toHyper http = some hyper)
    (h : Agree r.host r.toVec hyper http3) :
    (r.headers.entries.filter fun field => field.1 = HOST) = [] := by
  obtain ⟨-, rfl⟩ := r.toHyper_eq_some hhttp hhyper
  have hhosts := h.hyper_host.2
  rw [r.carried_hyper] at hhosts
  exact List.map_eq_nil_iff.mp (List.cons.inj hhosts).2

/-- The bytes, the request for `hyper` and the HTTP/3 request agree exactly when no header of the record
is named `Host`, in any case of letters. -/
theorem encoders_agree_iff (hhttp : http.Lawful) (hr : deserialize http line = .ok r)
    (hhyper : r.toHyper http = some hyper) (hhttp3 : r.toHttp3 http = some http3) :
    Agree r.host r.toVec hyper http3 ↔ ∀ entry ∈ line.headers, entry.1.map asciiLower ≠ HOST := by
  rw [← hosts_eq_nil_iff hhttp hr]
  constructor
  · exact hosts_eq_nil_of_agree hhttp hhyper
  · intro hempty
    have hadmitted := (deserialize_eq_ok hhttp hr).1
    obtain ⟨hhost, rfl⟩ := r.toHyper_eq_some hhttp hhyper
    obtain rfl := r.toHttp3_eq_some hhttp hhttp3
    have hread := hadmitted.readRaw_toVec hhost
    have hhyper_carried := r.carried_hyper
    have hhttp3_carried := r.carried_http3 (ascii ['h', 't', 't', 'p', 's'])
    rw [hempty, hadmitted.relative] at hhyper_carried
    refine ⟨⟨_, hread, ⟨rfl, rfl⟩, ?_⟩, ?_, ?_, ?_⟩
    · rw [hhyper_carried]
      exact ⟨rfl, rfl, rfl, List.Perm.refl _⟩
    · rw [hhyper_carried, hhttp3_carried]
      exact ⟨rfl, rfl, rfl, List.Perm.refl _⟩
    · rw [hhyper_carried]
      exact ⟨rfl, rfl⟩
    · rw [hhttp3_carried]
      exact ⟨rfl, rfl⟩

/-- Parsing of relative URIs, of methods in capital letters and of visible names. -/
def plainCrate : HttpCrate where
  uriFromStr v :=
    let uri : Uri :=
      match Head.upTo 63 v with
      | some (path, query) => ⟨none, none, path, some query⟩
      | none => ⟨none, none, v, none⟩
    if uri.path.head? = some 47 ∧ (∀ b ∈ uri.path, 32 < b ∧ b ≠ 63) ∧
        ∀ query ∈ uri.query, ∀ b ∈ query, 32 < b then some uri
    else none
  uriToString uri := uri.path ++ uri.query.elim [] fun query => 63 :: query
  uriFromParts parts := if parts.scheme.isSome ∧ parts.authority.isSome then some parts else none
  methodFromBytes v := if v ≠ [] ∧ ∀ b ∈ v, 65 ≤ b ∧ b ≤ 90 then some v else none
  headerNameFromStr v :=
    let name := v.map asciiLower
    if v ≠ [] ∧ ∀ b ∈ name, b = 45 ∨ 97 ≤ b ∧ b ≤ 122 then some name else none
  headerValueFromBytes v := if ∀ b ∈ v, 32 ≤ b ∧ b ≠ 127 then some v else none
  authorityFromStr v := if v ≠ [] ∧ ∀ b ∈ v, b = 46 ∨ 97 ≤ b ∧ b ≤ 122 then some v else none

/-- A record whose headers have no `Host`. -/
def pingLine : Line :=
  { uri := ascii ['/', 'p', 'i', 'n', 'g', '?', 'x', '=', '1']
    method := ascii ['P', 'O', 'S', 'T']
    host := ascii ['r', 'e', 'a', 'l', '.', 'h', 'o', 's', 't']
    headers := [(ascii ['X', '-', 'T', 'e', 's', 't'], ascii ['1'])] }

/-- A record whose headers have one. -/
def twoHostsLine : Line :=
  { uri := ascii ['/']
    method := ascii ['G', 'E', 'T']
    host := ascii ['r', 'e', 'a', 'l', '.', 'h', 'o', 's', 't']
    headers := [(ascii ['H', 'o', 's', 't'], ascii ['i', 'g', 'n', 'o', 'r', 'e', 'd', '.', 'h', 'o', 's', 't'])] }

theorem plainCrate_lawful : plainCrate.Lawful where
  uri_path v uri h := by
    obtain ⟨⟨-, hpath, -⟩, heq⟩ := Option.ite_none_right_eq_some.mp h
    cases heq
    exact hpath
  uri_query v uri h := by
    obtain ⟨⟨-, -, hquery⟩, heq⟩ := Option.ite_none_right_eq_some.mp h
    cases heq
    exact hquery
  uri_parts parts uri h := by
    obtain ⟨-, heq⟩ := Option.ite_none_right_eq_some.mp h
    exact (Option.some.inj heq).symm
  method v method h := by
    obtain ⟨⟨-, hletters⟩, heq⟩ := Option.ite_none_right_eq_some.mp h
    cases heq
    exact fun b hb => UInt8.lt_of_lt_of_le (by decide) (hletters b hb).1
  header_name v name h := by
    obtain ⟨⟨-, hletters⟩, heq⟩ := Option.ite_none_right_eq_some.mp h
    cases heq
    refine ⟨rfl, fun b hb => ?_⟩
    rcases hletters b hb with rfl | ⟨hlow, -⟩
    · exact ⟨by unfold Visible; decide, by decide⟩
    · have hcolon : 58 < b := UInt8.lt_of_lt_of_le (by decide) hlow
      exact ⟨UInt8.lt_of_lt_of_le (by decide) hlow, (UInt8.ne_of_lt hcolon).symm⟩
  header_value v value h := by
    obtain ⟨hvisible, heq⟩ := Option.ite_none_right_eq_some.mp h
    cases heq
    exact ⟨rfl, fun hline => absurd (hvisible 13 hline).1 (by decide)⟩
  authority v authority h := by
    obtain ⟨-, heq⟩ := Option.ite_none_right_eq_some.mp h
    exact (Option.some.inj heq).symm

/-- The record of a line and its two requests. -/
def convert (line : Line) : Option (JsonLineRecord × Request × Request) := do
  let r ← (deserialize plainCrate line).toOption
  let hyper ← r.toHyper plainCrate
  let http3 ← r.toHttp3 plainCrate
  return (r, hyper, http3)

theorem exists_of_convert (h : (convert line).isSome) : ∃ r hyper http3, deserialize plainCrate line = .ok r ∧
    r.toHyper plainCrate = some hyper ∧ r.toHttp3 plainCrate = some http3 := by
  obtain ⟨converted, hconvert⟩ := Option.isSome_iff_exists.mp h
  rw [convert] at hconvert
  obtain ⟨r, hr, hconvert⟩ := Option.bind_eq_some_iff.mp hconvert
  obtain ⟨hyper, hhyper, hconvert⟩ := Option.bind_eq_some_iff.mp hconvert
  obtain ⟨http3, hhttp3, -⟩ := Option.bind_eq_some_iff.mp hconvert
  exact ⟨r, hyper, http3, Fallible.toOption_eq_some_iff.mp hr, hhyper, hhttp3⟩

theorem encoders_agree_iff_ping : ∃ r hyper http3, deserialize plainCrate pingLine = .ok r ∧
    r.toHyper plainCrate = some hyper ∧ r.toHttp3 plainCrate = some http3 ∧
    Agree r.host r.toVec hyper http3 := by
  obtain ⟨r, hyper, http3, hr, hhyper, hhttp3⟩ :=
    exists_of_convert (by decide +kernel : (convert pingLine).isSome = true)
  refine ⟨r, hyper, http3, hr, hhyper, hhttp3, ?_⟩
  exact (encoders_agree_iff plainCrate_lawful hr hhyper hhttp3).mpr (by decide +kernel)

/-- The request for `hyper` is sent with two hosts. -/
theorem not_agree_two_hosts : ∃ r hyper http3, deserialize plainCrate twoHostsLine = .ok r ∧
    r.toHyper plainCrate = some hyper ∧ r.toHttp3 plainCrate = some http3 ∧
    ¬Agree r.host r.toVec hyper http3 := by
  obtain ⟨r, hyper, http3, hr, hhyper, hhttp3⟩ :=
    exists_of_convert (by decide +kernel : (convert twoHostsLine).isSome = true)
  refine ⟨r, hyper, http3, hr, hhyper, hhttp3, fun hagree => ?_⟩
  have hempty := hosts_eq_nil_of_agree plainCrate_lawful hhyper hagree
  have hnone := (hosts_eq_nil_iff plainCrate_lawful hr).mp hempty
  exact hnone _ List.mem_cons_self (by decide +kernel)

end Dwd.JsonLine
