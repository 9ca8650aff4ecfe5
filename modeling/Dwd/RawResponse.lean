import Dwd.HttpEngine
import Dwd.HttpOutcome
import Mathlib.Data.List.Infix

/-! How the http/raw engine reads a response: it reads a chunk, parses all that it has read, and reads on
while the head of the response is unfinished. The end of the stream is a chunk of no bytes, so a head
that is still unfinished then is parsed again and again; and the bytes counted as received are those of
the last chunk. -/

namespace Coro

variable {P E O S α : Type}

/-- The program does not wait any more. -/
def Returned : Progress P E O S α → Prop
  | .done .. => True
  | .failed .. => True
  | .waiting .. => False

theorem returned_after {before : List O} {r : Progress P E O S α} :
    Returned (after before r) ↔ Returned r := by
  cases r <;> exact Iff.rfl

theorem after_nil (r : Progress P E O S α) : after [] r = r := by
  cases r <;> rfl

end Coro

namespace Dwd

namespace HttpRaw

namespace CoroWorker

/-- The moments of a script bring the chunks, one a read. -/
def Brings (reads : List (Moment Answers)) (chunks : List (List UInt8)) : Prop :=
  reads.map (fun m => m.answer.readBuf) = chunks.map some

theorem brings_cons_iff {reads : List (Moment Answers)} {chunk : List UInt8}
    {chunks : List (List UInt8)} : Brings reads (chunk :: chunks) ↔
      ∃ m reads', reads = m :: reads' ∧ m.answer.readBuf = some chunk ∧ Brings reads' chunks := by
  cases reads with
  | nil => simp [Brings]
  | cons m reads => simp [Brings]

variable {parse : List UInt8 → Parsed}

/-- A read that brings a chunk. -/
theorem readResponse_cons (self : CoroWorker) (env m : Moment Answers) (reads : List (Moment Answers))
    {chunk : List UInt8} (hm : m.answer.readBuf = some chunk) :
    readResponse parse self env (m :: reads) =
      match parse (self.buf ++ chunk) with
      | .error => .failed { self with buf := self.buf ++ chunk } m [] reads
      | .unfinished => readResponse parse { self with buf := self.buf ++ chunk } m reads
      | .complete code =>
          .done (code.getD 0) { self with buf := self.buf ++ chunk } m
            [.stat (.onRecv chunk.length)] reads := by
  rw [readResponse, Coro.awaitLoop, hm]
  dsimp only
  cases parse (self.buf ++ chunk) with
  | error => rfl
  | unfinished => exact Coro.after_nil _
  | complete code => rfl

/-- The request is written first, and nothing of the last response is left in the buffer. -/
theorem performRequest_cons (sock : TcpStream) (self : CoroWorker) (env write : Moment Answers)
    (reads : List (Moment Answers)) (hwrite : write.answer.writeAll = true) :
    performRequest parse sock self env (write :: reads) =
      Coro.after [.stat (.onRequests 1), .stat (.onSend env.answer.requestLen)]
        (readResponse parse { self with buf := [] } write reads) := by
  simp only [performRequest, bind, Coro.ask, Job.awaitOk, Job.await, Coro.await, hwrite, if_true,
    Job.update, Coro.emit, Coro.modify]
  cases readResponse parse { self with buf := [] } write reads <;> rfl

theorem performRequest_of_not_written (sock : TcpStream) (self : CoroWorker)
    (env write : Moment Answers) (reads : List (Moment Answers))
    (hwrite : write.answer.writeAll = false) :
    performRequest parse sock self env (write :: reads) = .failed self write [] reads := by
  simp only [performRequest, bind, Coro.ask, Job.awaitOk, Job.await, Coro.await, hwrite]
  rfl

theorem append_flatten_cons (buf chunk : List UInt8) (read : List (List UInt8)) :
    buf ++ (chunk :: read).flatten = buf ++ chunk ++ read.flatten := by
  rw [List.flatten_cons, List.append_assoc]

/-- The reading ends at the first chunk after which the head is not unfinished. -/
theorem readResponse_returned_iff {reads : List (Moment Answers)} {chunks : List (List UInt8)}
    (h : Brings reads chunks) (self : CoroWorker) (env : Moment Answers) :
    Coro.Returned (readResponse parse self env reads) ↔
      ∃ read, read ≠ [] ∧ read <+: chunks ∧ parse (self.buf ++ read.flatten) ≠ .unfinished := by
  induction chunks generalizing reads self env with
  | nil =>
      obtain rfl : reads = [] := List.map_eq_nil_iff.mp h
      refine iff_of_false id ?_
      rintro ⟨read, hne, hpre, -⟩
      exact hne (List.prefix_nil.mp hpre)
  | cons chunk chunks ih =>
      obtain ⟨m, reads, rfl, hm, hreads⟩ := brings_cons_iff.mp h
      rw [readResponse_cons self env m reads hm]
      by_cases hparse : parse (self.buf ++ chunk) = .unfinished
      · rw [hparse, ih hreads]
        constructor
        · rintro ⟨read, -, hpre, hread⟩
          exact ⟨chunk :: read, List.cons_ne_nil _ _, (List.prefix_cons_inj chunk).mpr hpre,
            by rwa [append_flatten_cons]⟩
        · rintro ⟨read, hne, hpre, hread⟩
          obtain ⟨rest, rfl, hrest⟩ := (List.prefix_cons_iff.mp hpre).resolve_left hne
          rw [append_flatten_cons] at hread
          refine ⟨rest, ?_, hrest, hread⟩
          rintro rfl
          rw [List.flatten_nil, List.append_nil] at hread
          exact hread hparse
      · refine iff_of_true ?_ ⟨[chunk], List.cons_ne_nil _ _, ⟨chunks, rfl⟩, ?_⟩
        · cases hp : parse (self.buf ++ chunk) with
          | error => trivial
          | unfinished => exact absurd hp hparse
          | complete code => trivial
        · rwa [append_flatten_cons, List.flatten_nil, List.append_nil]

theorem flatten_replicate_nil (n : ℕ) : (List.replicate n ([] : List UInt8)).flatten = [] := by
  induction n with
  | zero => rfl
  | succ n ih => rw [List.replicate_succ, List.flatten_cons, ih, List.nil_append]

/-- The moment at which a read brings the chunk. -/
def delivered (chunk : List UInt8) : Moment Answers :=
  { elapsed := 0
    answer :=
      { newSocket := true
        bind := true
        connect := true
        setNodelay := true
        setLinger := true
        requestLen := 0
        writeAll := true
        readBuf := some chunk } }

theorem brings_delivered (chunks : List (List UInt8)) : Brings (chunks.map delivered) chunks := by
  rw [Brings, List.map_map]
  rfl

/-- What is read of a stream that has ended is a part of what was sent: ends of the stream add nothing. -/
theorem exists_prefix_flatten {chunks read : List (List UInt8)} {n : ℕ}
    (h : read <+: chunks ++ List.replicate n []) :
    ∃ sent, sent <+: chunks ∧ sent.flatten = read.flatten ∧ (sent = [] → read = [] ∨ chunks = []) := by
  rcases List.prefix_or_prefix_of_prefix h (List.prefix_append chunks _) with hpre | ⟨rest, rfl⟩
  · exact ⟨read, hpre, rfl, Or.inl⟩
  · have hrest : rest <+: List.replicate n [] := (List.prefix_append_right_inj chunks).mp h
    refine ⟨chunks, List.prefix_rfl, ?_, Or.inr⟩
    obtain ⟨j, hj⟩ : ∃ j, rest = List.replicate j [] :=
      ⟨rest.length, List.eq_replicate_iff.mpr ⟨rfl, fun c hc =>
        List.eq_of_mem_replicate (hrest.subset hc)⟩⟩
    rw [List.flatten_append, hj, flatten_replicate_nil, List.append_nil]

/-- The reading of a response from a server that sends the chunks and closes ends after some number of
reads, whatever else happens at its moments. -/
def ReadingEnds (parse : List UInt8 → Parsed) (chunks : List (List UInt8)) : Prop :=
  ∃ n, ∀ (sock : TcpStream) (self : CoroWorker) (env write : Moment Answers)
    (reads : List (Moment Answers)), Brings reads (chunks ++ List.replicate n []) →
      Coro.Returned (performRequest parse sock self env (write :: reads))

theorem ReadingEnds.exists_sent {chunks : List (List UInt8)} (h : ReadingEnds parse chunks) :
    ∃ sent, sent <+: chunks ∧ (sent = [] → chunks = []) ∧ parse sent.flatten ≠ .unfinished := by
  obtain ⟨n, hreturned⟩ := h
  have hbrings : Brings ((chunks ++ List.replicate n []).map delivered)
      (chunks ++ List.replicate n []) := brings_delivered _
  have hreads := hreturned {} (new 1 none false) (delivered []) (delivered []) _ hbrings
  rw [performRequest_cons _ _ _ _ _ rfl, Coro.returned_after, readResponse_returned_iff hbrings]
    at hreads
  obtain ⟨read, hne, hpre, hread⟩ := hreads
  obtain ⟨sent, hsent, hflatten, hempty⟩ := exists_prefix_flatten hpre
  rw [List.nil_append, ← hflatten] at hread
  exact ⟨sent, hsent, fun h => (hempty h).resolve_left hne, hread⟩

/-- One end of the stream is enough, if any is. -/
theorem readingEnds_of_sent {chunks sent : List (List UInt8)} (hsent : sent <+: chunks)
    (hempty : sent = [] → chunks = []) (hparse : parse sent.flatten ≠ .unfinished) :
    ReadingEnds parse chunks := by
  refine ⟨1, fun sock self env write reads hbrings => ?_⟩
  cases hwrite : write.answer.writeAll with
  | false =>
      rw [performRequest_of_not_written _ _ _ _ _ hwrite]
      trivial
  | true =>
      rw [performRequest_cons _ _ _ _ _ hwrite, Coro.returned_after,
        readResponse_returned_iff hbrings]
      by_cases hsent' : sent = []
      · subst hsent'
        obtain rfl := hempty rfl
        exact ⟨[[]], List.cons_ne_nil _ _, List.prefix_rfl, hparse⟩
      · exact ⟨sent, hsent', hsent.trans (List.prefix_append _ _), hparse⟩

/-- The reading of a response ends exactly when the head is not unfinished after one of the chunks. -/
theorem readingEnds_iff (parse : List UInt8 → Parsed) (chunks : List (List UInt8)) :
    ReadingEnds parse chunks ↔
      ∃ sent, sent <+: chunks ∧ (sent = [] → chunks = []) ∧ parse sent.flatten ≠ .unfinished :=
  ⟨ReadingEnds.exists_sent, fun ⟨_, hsent, hempty, hparse⟩ =>
    readingEnds_of_sent hsent hempty hparse⟩

/-- A parser that waits for the empty line after the head of a response, and finds the code 200. -/
def parseOk (buf : List UInt8) : Parsed :=
  if [13, 10, 13, 10] <:+: buf then .complete (some 200) else .unfinished

/-- The server closes after `HTTP/1.1 200`. -/
theorem readingEnds_truncated_head :
    ¬ ReadingEnds parseOk [[72, 84, 84, 80, 47, 49, 46, 49, 32, 50, 48, 48]] := by
  intro h
  obtain ⟨sent, hsent, hempty, hparse⟩ := h.exists_sent
  rcases List.prefix_cons_iff.mp hsent with rfl | ⟨rest, rfl, hrest⟩
  · exact List.cons_ne_nil _ _ (hempty rfl)
  · obtain rfl := List.prefix_nil.mp hrest
    exact hparse (if_neg (by decide +kernel))

/-! ### The bytes of a response -/

/-- The cuttings of a response into chunks of which only the last one completes the head. -/
structure Cutting (parse : List UInt8 → Parsed) (bytes : List UInt8) (code : Option ℕ)
    (chunks : List (List UInt8)) : Prop where
  joined : chunks.flatten = bytes
  chunks_ne_nil : chunks ≠ []
  ne_nil : ∀ chunk ∈ chunks, chunk ≠ []
  unfinished : ∀ read, read ≠ [] → read <+: chunks → read ≠ chunks → parse read.flatten = .unfinished
  complete : parse bytes = .complete code

/-- The worker counts the last chunk only. -/
theorem readResponse_eq_done {chunks : List (List UInt8)} (hne : chunks ≠ []) {code : Option ℕ}
    {self : CoroWorker} {env : Moment Answers} {reads : List (Moment Answers)}
    (h : Brings reads chunks)
    (hunfinished : ∀ read, read ≠ [] → read <+: chunks → read ≠ chunks →
      parse (self.buf ++ read.flatten) = .unfinished)
    (hcomplete : parse (self.buf ++ chunks.flatten) = .complete code) :
    ∃ self' env', readResponse parse self env reads =
      .done (code.getD 0) self' env' [.stat (.onRecv (chunks.getLast hne).length)] [] := by
  induction chunks generalizing reads self env with
  | nil => exact absurd rfl hne
  | cons chunk chunks ih =>
      obtain ⟨m, reads, rfl, hm, hreads⟩ := brings_cons_iff.mp h
      rw [readResponse_cons self env m reads hm]
      cases chunks with
      | nil =>
          obtain rfl : reads = [] := List.map_eq_nil_iff.mp hreads
          rw [append_flatten_cons, List.flatten_nil, List.append_nil] at hcomplete
          rw [hcomplete]
          exact ⟨_, _, rfl⟩
      | cons next chunks =>
          have hfirst := hunfinished [chunk] (List.cons_ne_nil _ _) ⟨next :: chunks, rfl⟩ (by simp)
          rw [append_flatten_cons, List.flatten_nil, List.append_nil] at hfirst
          rw [hfirst]
          refine ih (List.cons_ne_nil _ _) hreads (fun read hread hpre hnot => ?_) ?_
          · have := hunfinished (chunk :: read) (List.cons_ne_nil _ _)
              ((List.prefix_cons_inj chunk).mpr hpre) (by simpa using hnot)
            rwa [append_flatten_cons] at this
          · rwa [append_flatten_cons] at hcomplete

/-- A request that ends with the code, and adds `n` to `bytes_rx`. -/
def Receives {P E S : Type} (code n : ℕ) : Progress P E Effect S ℕ → Prop
  | .done c _ _ effects _ => c = code ∧ added .bytesRx effects = n
  | .failed .. => False
  | .waiting .. => False

theorem Cutting.receives_iff {bytes : List UInt8} {code : Option ℕ} {chunks : List (List UInt8)}
    (h : Cutting parse bytes code chunks) {sock : TcpStream} {self : CoroWorker}
    {env write : Moment Answers} {reads : List (Moment Answers)} (hwrite : write.answer.writeAll = true)
    (hreads : Brings reads chunks) (c n : ℕ) :
    Receives c n (performRequest parse sock self env (write :: reads)) ↔
      code.getD 0 = c ∧ (chunks.getLast h.chunks_ne_nil).length = n := by
  have hcomplete : parse ([] ++ chunks.flatten) = .complete code := by
    rw [List.nil_append, h.joined]
    exact h.complete
  obtain ⟨self', env', hdone⟩ := @readResponse_eq_done parse chunks h.chunks_ne_nil code
    { self with buf := [] } write reads hreads h.unfinished hcomplete
  rw [performRequest_cons sock self env write reads hwrite, hdone]
  simp [Coro.after, Receives, added, statOps, total, StatOp.weight]

/-- All bytes are in the last chunk only when there is no other. -/
theorem Cutting.length_getLast_iff {bytes : List UInt8} {code : Option ℕ}
    {chunks : List (List UInt8)} (h : Cutting parse bytes code chunks) :
    (chunks.getLast h.chunks_ne_nil).length = bytes.length ↔ chunks.length = 1 := by
  have hsplit := List.dropLast_append_getLast h.chunks_ne_nil
  have hlength : bytes.length =
      chunks.dropLast.flatten.length + (chunks.getLast h.chunks_ne_nil).length := by
    calc bytes.length = (chunks.dropLast ++ [chunks.getLast h.chunks_ne_nil]).flatten.length := by
          rw [hsplit, h.joined]
      _ = _ := by rw [List.flatten_append, List.length_append, List.flatten_singleton]
  have hdrop : chunks.dropLast.length = chunks.length - 1 := List.length_dropLast
  constructor
  · intro hlast
    have hnil : chunks.dropLast = [] := by
      cases hc : chunks.dropLast with
      | nil => rfl
      | cons chunk rest =>
          have hmem : chunk ∈ chunks := List.dropLast_subset _ (hc ▸ List.mem_cons_self)
          have hpos := List.length_pos_iff.mpr (h.ne_nil chunk hmem)
          rw [hc, List.flatten_cons, List.length_append] at hlength
          omega
    have hpos := List.length_pos_iff.mpr h.chunks_ne_nil
    rw [hnil, List.length_nil] at hdrop
    omega
  · intro hone
    have hnil : chunks.dropLast = [] := List.eq_nil_of_length_eq_zero (by omega)
    rw [hnil, List.flatten_nil, List.length_nil, Nat.zero_add] at hlength
    exact hlength.symm

/-- Two cuttings of one response are both counted in full exactly when neither is a cutting. -/
theorem received_in_full_iff {bytes : List UInt8} {code : Option ℕ} {chunks chunks' : List (List UInt8)}
    (h : Cutting parse bytes code chunks) (h' : Cutting parse bytes code chunks')
    (sock : TcpStream) (self self' : CoroWorker) {env env' write write' : Moment Answers}
    {reads reads' : List (Moment Answers)} (hwrite : write.answer.writeAll = true)
    (hwrite' : write'.answer.writeAll = true) (hreads : Brings reads chunks)
    (hreads' : Brings reads' chunks') :
    (∃ c, Receives c bytes.length (performRequest parse sock self env (write :: reads)) ∧
      Receives c bytes.length (performRequest parse sock self' env' (write' :: reads'))) ↔
    chunks.length = 1 ∧ chunks'.length = 1 := by
  simp only [h.receives_iff hwrite hreads, h'.receives_iff hwrite' hreads', h.length_getLast_iff,
    h'.length_getLast_iff]
  constructor
  · rintro ⟨c, ⟨-, hone⟩, -, hone'⟩
    exact ⟨hone, hone'⟩
  · rintro ⟨hone, hone'⟩
    exact ⟨code.getD 0, ⟨rfl, hone⟩, rfl, hone'⟩

/-- `HTTP/1.1 200 OK` and the empty line after it. -/
def responseOk : List UInt8 :=
  [72, 84, 84, 80, 47, 49, 46, 49, 32, 50, 48, 48, 32, 79, 75, 13, 10, 13, 10]

theorem parseOk_responseOk : parseOk responseOk = .complete (some 200) := if_pos (by decide +kernel)

theorem cutting_whole : Cutting parseOk responseOk (some 200) [responseOk] where
  joined := List.append_nil _
  chunks_ne_nil := List.cons_ne_nil _ _
  ne_nil := by decide +kernel
  unfinished read hne hpre hnot := by
    obtain ⟨rest, rfl, hrest⟩ := (List.prefix_cons_iff.mp hpre).resolve_left hne
    obtain rfl := List.prefix_nil.mp hrest
    exact absurd rfl hnot
  complete := parseOk_responseOk

/-- The last byte comes in a chunk of its own. -/
theorem cutting_last_byte : Cutting parseOk responseOk (some 200) [responseOk.take 18, [10]] where
  joined := by decide +kernel
  chunks_ne_nil := List.cons_ne_nil _ _
  ne_nil := by decide +kernel
  unfinished read hne hpre hnot := by
    obtain ⟨rest, rfl, hrest⟩ := (List.prefix_cons_iff.mp hpre).resolve_left hne
    rcases List.prefix_cons_iff.mp hrest with rfl | ⟨rest', rfl, hrest'⟩
    · exact if_neg (by decide +kernel)
    · obtain rfl := List.prefix_nil.mp hrest'
      exact absurd rfl hnot
  complete := parseOk_responseOk

theorem received_in_full_whole :
    ∃ c, Receives c 19
      (performRequest parseOk {} (new 1 none false) (delivered []) [delivered [], delivered responseOk]) ∧
      Receives c 19 (performRequest parseOk {} (new 1 none false) (delivered [])
        [delivered [], delivered responseOk]) :=
  (received_in_full_iff cutting_whole cutting_whole {} (new 1 none false) (new 1 none false) rfl rfl
    (brings_delivered [responseOk]) (brings_delivered [responseOk])).mpr ⟨rfl, rfl⟩

/-- The same response is counted as 19 bytes in one chunk, and as one byte in two. -/
theorem received_last_chunk_only :
    Cutting parseOk responseOk (some 200) [responseOk] ∧
    Cutting parseOk responseOk (some 200) [responseOk.take 18, [10]] ∧
    Receives 200 19 (performRequest parseOk {} (new 1 none false) (delivered [])
      [delivered [], delivered responseOk]) ∧
    Receives 200 1 (performRequest parseOk {} (new 1 none false) (delivered [])
      [delivered [], delivered (responseOk.take 18), delivered [10]]) := by
  refine ⟨cutting_whole, cutting_last_byte, ?_, ?_⟩
  · exact (cutting_whole.receives_iff rfl (brings_delivered _) 200 19).mpr ⟨rfl, rfl⟩
  · exact (cutting_last_byte.receives_iff rfl (brings_delivered _) 200 1).mpr ⟨rfl, rfl⟩

end CoroWorker

end HttpRaw

end Dwd
