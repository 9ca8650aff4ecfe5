import Mathlib.Data.Int.Notation
import Mathlib.Data.List.Basic

/-! The answer of the kernel to a dump of the neighbours' table. It comes in datagrams of several messages each,
which are all received into the same buffer: behind a datagram lie the bytes of those before it, and only the
lengths in the headers say where a message ends. The reader of a single message is a parameter here; what is
shown is that neither the cut into datagrams nor what is left in the buffer has an effect. -/

namespace Dwd

namespace Nl

inductive AddressFamily where
  | inet
  | inet6
  | other
  deriving DecidableEq, Repr

inductive NeighbourState where
  | reachable
  | other
  deriving DecidableEq, Repr

inductive NeighbourAttribute where
  | linkLocalAddress (addr : List UInt8)
  | other
  deriving DecidableEq, Repr

structure NeighbourMessage where
  family : AddressFamily
  ifindex : ℕ
  state : NeighbourState
  attributes : List NeighbourAttribute
  deriving DecidableEq, Repr

inductive NetlinkPayload where
  | done
  | error (code : ℤ)
  | newNeighbour (entry : NeighbourMessage)
  | other
  deriving DecidableEq, Repr

/-- A message, with the length that its header gives. -/
structure NetlinkMessage where
  length : ℕ
  payload : NetlinkPayload
  deriving DecidableEq, Repr

/-- Six octets. -/
abbrev MacAddr := { octets : List UInt8 // octets.length = 6 }

def NeighbourAttribute.mac : NeighbourAttribute → Option MacAddr
  | .linkLocalAddress addr => if h : addr.length = 6 then some ⟨addr, h⟩ else none
  | .other => none

/-- The addresses that an entry of the table adds to the result. -/
def NeighbourMessage.macs (ifIndex : ℕ) (entry : NeighbourMessage) : List MacAddr :=
  if (entry.family = .inet ∨ entry.family = .inet6) ∧ entry.state = .reachable ∧ entry.ifindex = ifIndex then
    entry.attributes.filterMap NeighbourAttribute.mac
  else []

def NetlinkPayload.macs (ifIndex : ℕ) : NetlinkPayload → List MacAddr
  | .newNeighbour entry => entry.macs ifIndex
  | _ => []

/-- How `get_neighbors` ends: the socket fails or the kernel reports an error, a message cannot be read, or
nothing more is received. -/
inductive Outcome where
  | ok (out : List MacAddr)
  | err (code : ℤ)
  | panicked
  | blocked
  deriving DecidableEq, Repr

/-- How the messages of a datagram end: the loop leaves with a result, or goes on to receive. -/
inductive Inner where
  | leave (outcome : Outcome)
  | receive (out : List MacAddr)
  deriving DecidableEq, Repr

/-- `NetlinkMessage::deserialize`. -/
abbrev Deserialize := List UInt8 → Option NetlinkMessage

/-- The inner loop, over a buffer into which `size` bytes have been received. -/
def readMessages (deserialize : Deserialize) (ifIndex : ℕ) (buffer : List UInt8) (size offset : ℕ)
    (out : List MacAddr) : Inner :=
  if _hoffset : buffer.length < offset then .leave .panicked
  else match deserialize (buffer.drop offset) with
    | none => .leave .panicked
    | some msg =>
        match msg.payload with
        | .done => .leave (.ok out)
        | .error code => .leave (.err code)
        | payload =>
            let out := out ++ payload.macs ifIndex
            if _hlast : offset + msg.length = size ∨ msg.length = 0 then .receive out
            else readMessages deserialize ifIndex buffer size (offset + msg.length) out
  termination_by buffer.length + 1 - offset
  decreasing_by omega

/-- The outer loop: a datagram overwrites the front of the buffer, as far as there is room. -/
def receive (deserialize : Deserialize) (ifIndex : ℕ) :
    List UInt8 → List MacAddr → List (Except ℤ (List UInt8)) → Outcome
  | _, _, [] => .blocked
  | _, _, .error code :: _ => .err code
  | buffer, out, .ok datagram :: datagrams =>
      let size := min datagram.length buffer.length
      let buffer := datagram.take size ++ buffer.drop size
      match readMessages deserialize ifIndex buffer size 0 out with
      | .leave outcome => outcome
      | .receive out => receive deserialize ifIndex buffer out datagrams

/-- `get_neighbors`. The first argument is what opening the socket and sending the request end with. -/
def getNeighbors (deserialize : Deserialize) (request : Except ℤ Unit) (ifIndex : ℕ)
    (datagrams : List (Except ℤ (List UInt8))) : Outcome :=
  match request with
  | .error code => .err code
  | .ok () => receive deserialize ifIndex (List.replicate 4096 0) [] datagrams

/-- The answer that messages give one after another, wherever they are found. -/
def answer (ifIndex : ℕ) : List MacAddr → List NetlinkMessage → Outcome
  | _, [] => .blocked
  | out, msg :: msgs =>
      match msg.payload with
      | .done => .ok out
      | .error code => .err code
      | payload => answer ifIndex (out ++ payload.macs ifIndex) msgs

/-- A message is read from the front of the bytes, whatever follows it, and takes as many as its header says. -/
structure Framed (deserialize : Deserialize) (frame : NetlinkMessage → List UInt8) (msg : NetlinkMessage) :
    Prop where
  read : ∀ rest, deserialize (frame msg ++ rest) = some msg
  length : msg.length = (frame msg).length
  pos : 0 < msg.length

/-- Messages that do not end the loop. -/
def NetlinkPayload.GoesOn : NetlinkPayload → Prop
  | .done => False
  | .error _ => False
  | _ => True

instance : DecidablePred NetlinkPayload.GoesOn
  | .done => isFalse id
  | .error _ => isFalse id
  | .newNeighbour _ => isTrue trivial
  | .other => isTrue trivial

variable {deserialize : Deserialize} {frame : NetlinkMessage → List UInt8} {ifIndex : ℕ}

/-- A message that goes on adds its addresses. -/
theorem answer_cons_of_goesOn {msg : NetlinkMessage} (hgoes : msg.payload.GoesOn) (out : List MacAddr)
    (msgs : List NetlinkMessage) :
    answer ifIndex out (msg :: msgs) = answer ifIndex (out ++ msg.payload.macs ifIndex) msgs := by
  rw [answer]
  split
  · rename_i hdone
    rw [hdone] at hgoes
    exact hgoes.elim
  · rename_i herror
    rw [herror] at hgoes
    exact hgoes.elim
  · rfl

theorem answer_append (out : List MacAddr) {before : List NetlinkMessage}
    (hbefore : ∀ msg ∈ before, msg.payload.GoesOn) (after : List NetlinkMessage) :
    answer ifIndex out (before ++ after) =
      answer ifIndex (out ++ before.flatMap fun msg => msg.payload.macs ifIndex) after := by
  induction before generalizing out with
  | nil => rw [List.nil_append, List.flatMap_nil, List.append_nil]
  | cons msg before ih =>
      rw [List.cons_append, answer_cons_of_goesOn (hbefore msg List.mem_cons_self),
        ih _ fun m hm => hbefore m (List.mem_cons_of_mem _ hm), List.flatMap_cons, List.append_assoc]

/-- Messages that do not all go on give their answer, whatever comes after them. -/
theorem answer_append_of_ends (out : List MacAddr) {before : List NetlinkMessage}
    (hbefore : ¬∀ msg ∈ before, msg.payload.GoesOn) (after : List NetlinkMessage) :
    answer ifIndex out (before ++ after) = answer ifIndex out before := by
  induction before generalizing out with
  | nil => exact absurd (fun _ h => nomatch h) hbefore
  | cons msg before ih =>
      by_cases hgoes : msg.payload.GoesOn
      · have hrest : ¬∀ m ∈ before, m.payload.GoesOn := fun h =>
          hbefore (List.forall_mem_cons.mpr ⟨hgoes, h⟩)
        rw [List.cons_append, answer_cons_of_goesOn hgoes, answer_cons_of_goesOn hgoes, ih _ hrest]
      · rw [List.cons_append, answer, answer]
        split
        · rfl
        · rfl
        · rename_i hdone herror
          obtain ⟨length, payload⟩ := msg
          cases payload with
          | done => exact absurd rfl hdone
          | error code => exact absurd rfl (herror code)
          | newNeighbour entry => exact absurd trivial hgoes
          | other => exact absurd trivial hgoes

/-! ### What the loops read -/

variable {buffer : List UInt8} {size offset : ℕ} {msg : NetlinkMessage}

theorem readMessages_of_goesOn (hoffset : offset ≤ buffer.length)
    (hread : deserialize (buffer.drop offset) = some msg) (hgoes : msg.payload.GoesOn) (out : List MacAddr) :
    readMessages deserialize ifIndex buffer size offset out =
      if offset + msg.length = size ∨ msg.length = 0 then .receive (out ++ msg.payload.macs ifIndex)
      else readMessages deserialize ifIndex buffer size (offset + msg.length)
        (out ++ msg.payload.macs ifIndex) := by
  rw [readMessages, dif_neg (Nat.not_lt.mpr hoffset), hread]
  simp only
  split
  · rename_i hdone
    rw [hdone] at hgoes
    exact hgoes.elim
  · rename_i herror
    rw [herror] at hgoes
    exact hgoes.elim
  · rfl

theorem readMessages_of_ends (hoffset : offset ≤ buffer.length)
    (hread : deserialize (buffer.drop offset) = some msg) (hends : ¬msg.payload.GoesOn) (out : List MacAddr)
    (msgs : List NetlinkMessage) :
    readMessages deserialize ifIndex buffer size offset out = .leave (answer ifIndex out (msg :: msgs)) := by
  rw [readMessages, dif_neg (Nat.not_lt.mpr hoffset), hread, answer]
  obtain ⟨length, payload⟩ := msg
  cases payload with
  | done => rfl
  | error code => rfl
  | newNeighbour entry => exact absurd trivial hends
  | other => exact absurd trivial hends

/-- **The inner loop reads the messages of a datagram**, whatever lies behind it in the buffer. -/
theorem readMessages_frames {msgs : List NetlinkMessage} (hmsgs : ∀ msg ∈ msgs, Framed deserialize frame msg)
    (hne : msgs ≠ []) {stale : List UInt8} (hbuffer : buffer.drop offset = msgs.flatMap frame ++ stale)
    (hoffset : offset ≤ buffer.length) (hsize : size = offset + (msgs.flatMap frame).length)
    (out : List MacAddr) :
    readMessages deserialize ifIndex buffer size offset out =
      if ∀ msg ∈ msgs, msg.payload.GoesOn then
        .receive (out ++ msgs.flatMap fun msg => msg.payload.macs ifIndex)
      else .leave (answer ifIndex out msgs) := by
  induction msgs generalizing offset out with
  | nil => exact absurd rfl hne
  | cons msg msgs ih =>
      have hframed := hmsgs msg List.mem_cons_self
      rw [List.flatMap_cons, List.append_assoc] at hbuffer
      rw [List.flatMap_cons, List.length_append] at hsize
      have hread : deserialize (buffer.drop offset) = some msg := by
        rw [hbuffer]
        exact hframed.read _
      by_cases hgoes : msg.payload.GoesOn
      · rw [readMessages_of_goesOn hoffset hread hgoes, List.flatMap_cons, ← List.append_assoc]
        simp only [List.forall_mem_cons, hgoes, true_and]
        by_cases hnil : msgs = []
        · subst hnil
          have hlast : offset + msg.length = size := by
            rw [hsize, hframed.length, List.flatMap_nil, List.length_nil, Nat.add_zero]
          rw [if_pos (.inl hlast), if_pos (fun _ h => nomatch h), List.flatMap_nil, List.append_nil]
        · have hmsgs' : ∀ m ∈ msgs, Framed deserialize frame m := fun m hm =>
            hmsgs m (List.mem_cons_of_mem _ hm)
          have hmore : 0 < (msgs.flatMap frame).length := by
            obtain ⟨m, msgs', rfl⟩ := List.exists_cons_of_ne_nil hnil
            have hm := hmsgs' m List.mem_cons_self
            have := hm.pos
            rw [List.flatMap_cons, List.length_append, ← hm.length]
            omega
          have hpos := hframed.pos
          have hlength := hframed.length
          rw [if_neg (by omega), ih hmsgs' hnil ?_ ?_ (by omega), answer_cons_of_goesOn hgoes]
          · rw [← List.drop_drop, hbuffer, hlength, List.drop_left]
          · have hlen := congrArg List.length hbuffer
            rw [List.length_drop, List.length_append] at hlen
            omega
      · rw [readMessages_of_ends hoffset hread hgoes out msgs, if_neg]
        exact fun h => hgoes (h msg List.mem_cons_self)

/-- A dump: datagrams of one message or more, none longer than the buffer. -/
structure Dump (deserialize : Deserialize) (frame : NetlinkMessage → List UInt8) (dump : List (List NetlinkMessage)) :
    Prop where
  framed : ∀ msgs ∈ dump, ∀ msg ∈ msgs, Framed deserialize frame msg
  nonempty : ∀ msgs ∈ dump, msgs ≠ []
  room : ∀ msgs ∈ dump, (msgs.flatMap frame).length ≤ 4096

/-- **Neither the cut into datagrams nor the rest of the buffer matters.** -/
theorem receive_dump {dump : List (List NetlinkMessage)} (h : Dump deserialize frame dump)
    (hbuffer : buffer.length = 4096) (out : List MacAddr) :
    receive deserialize ifIndex buffer out (dump.map fun msgs => .ok (msgs.flatMap frame)) =
      answer ifIndex out dump.flatten := by
  induction dump generalizing buffer out with
  | nil => rfl
  | cons msgs dump ih =>
      obtain ⟨hframed, hnonempty, hroom⟩ := h
      have hlength := hroom msgs List.mem_cons_self
      have hrest : Dump deserialize frame dump :=
        ⟨fun m hm => hframed m (List.mem_cons_of_mem _ hm), fun m hm => hnonempty m (List.mem_cons_of_mem _ hm),
          fun m hm => hroom m (List.mem_cons_of_mem _ hm)⟩
      have hmin : min (msgs.flatMap frame).length buffer.length = (msgs.flatMap frame).length := by omega
      have hbuffer' : (msgs.flatMap frame ++ buffer.drop (msgs.flatMap frame).length).length = 4096 := by
        rw [List.length_append, List.length_drop]
        omega
      rw [List.map_cons, receive]
      simp only [hmin, List.take_length]
      rw [readMessages_frames (hframed msgs List.mem_cons_self) (hnonempty msgs List.mem_cons_self)
        (by rw [List.drop_zero]) (Nat.zero_le _) (by rw [Nat.zero_add])]
      by_cases hgoes : ∀ msg ∈ msgs, msg.payload.GoesOn
      · rw [if_pos hgoes, List.flatten_cons, answer_append out hgoes]
        exact ih hrest hbuffer' _
      · rw [if_neg hgoes, List.flatten_cons, answer_append_of_ends out hgoes]

/-- **The neighbours of an interface.** A dump ends with its first `done`: when the messages before it report no
error, the result is the address of every reachable entry of the interface, of both families, in the order of the
table; whatever comes after it, and however the messages are cut into datagrams that the buffer has room for. An
error that comes before it is the result, whatever has been found. -/
theorem neighbors_of_dump (deserialize : Deserialize) (frame : NetlinkMessage → List UInt8) (ifIndex : ℕ)
    (dump : List (List NetlinkMessage)) (hdump : Dump deserialize frame dump)
    (before after : List NetlinkMessage) (last : NetlinkMessage) (hbefore : ∀ msg ∈ before, msg.payload.GoesOn)
    (hflatten : dump.flatten = before ++ last :: after) :
    (last.payload = .done →
      getNeighbors deserialize (.ok ()) ifIndex (dump.map fun msgs => .ok (msgs.flatMap frame)) =
        .ok (before.flatMap fun msg => msg.payload.macs ifIndex)) ∧
      ∀ code, last.payload = .error code →
        getNeighbors deserialize (.ok ()) ifIndex (dump.map fun msgs => .ok (msgs.flatMap frame)) =
          .err code := by
  have hanswer : getNeighbors deserialize (.ok ()) ifIndex (dump.map fun msgs => .ok (msgs.flatMap frame)) =
      answer ifIndex (before.flatMap fun msg => msg.payload.macs ifIndex) (last :: after) := by
    rw [getNeighbors, receive_dump hdump List.length_replicate, hflatten, answer_append [] hbefore, List.nil_append]
  refine ⟨fun hdone => ?_, fun code herror => ?_⟩
  · rw [hanswer, answer, hdone]
  · rw [hanswer, answer, herror]

/-- A reachable neighbour of interface two, and the end of a dump, with their bytes. -/
def neighbourMsg : NetlinkMessage :=
  { length := 40
    payload := .newNeighbour
      { family := .inet, ifindex := 2, state := .reachable, attributes := [.linkLocalAddress [2, 0, 0, 0, 0, 7]] } }

def neighbourBytes : List UInt8 :=
  [40, 0, 0, 0, 28, 0, 2, 0, 0, 0, 0, 0, 0, 0, 0, 0, 2, 0, 0, 0, 2, 0, 0, 0, 2, 0, 0, 1, 10, 0, 2, 0, 2, 0, 0, 0,
    0, 7, 0, 0]

def doneMsg : NetlinkMessage := { length := 20, payload := .done }

def doneBytes : List UInt8 := [20, 0, 0, 0, 3, 0, 2, 0, 0, 0, 0, 0, 0, 0, 0, 0, 0, 0, 0, 0]

def frameOfTwo (msg : NetlinkMessage) : List UInt8 := if msg = neighbourMsg then neighbourBytes else doneBytes

def readOfTwo (bytes : List UInt8) : Option NetlinkMessage :=
  if neighbourBytes.isPrefixOf bytes then some neighbourMsg
  else if doneBytes.isPrefixOf bytes then some doneMsg
  else none

/-- The second datagram is received over the first, which was longer. -/
theorem neighbors_of_dump_two_datagrams :
    getNeighbors readOfTwo (.ok ()) 2 [.ok (neighbourBytes ++ neighbourBytes), .ok (neighbourBytes ++ doneBytes)] =
      .ok [⟨[2, 0, 0, 0, 0, 7], rfl⟩, ⟨[2, 0, 0, 0, 0, 7], rfl⟩, ⟨[2, 0, 0, 0, 0, 7], rfl⟩] := by
  have hneighbour : Framed readOfTwo frameOfTwo neighbourMsg := ⟨fun _ => rfl, rfl, by decide⟩
  have hdone : Framed readOfTwo frameOfTwo doneMsg := ⟨fun _ => rfl, rfl, by decide⟩
  have hdump : Dump readOfTwo frameOfTwo [[neighbourMsg, neighbourMsg], [neighbourMsg, doneMsg]] := by
    refine ⟨?_, by decide, by decide⟩
    intro msgs hmsgs msg hmsg
    simp only [List.mem_cons, List.not_mem_nil, or_false] at hmsgs
    rcases hmsgs with rfl | rfl <;> simp only [List.mem_cons, List.not_mem_nil, or_false] at hmsg
    · rcases hmsg with rfl | rfl
      · exact hneighbour
      · exact hneighbour
    · rcases hmsg with rfl | rfl
      · exact hneighbour
      · exact hdone
  exact (neighbors_of_dump readOfTwo frameOfTwo 2 _ hdump [neighbourMsg, neighbourMsg, neighbourMsg] [] doneMsg
    (by decide) rfl).1 rfl

end Nl

end Dwd
