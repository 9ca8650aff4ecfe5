import Dwd.DpdkConfig
import Dwd.DpdkTransmit

/-! How the packets of a pcap file are loaded. The blocks are dealt out to the cores in turn; each one is
looked at as an Ethernet frame, and copied into a buffer of the core's pool, of which it has reserved as
many bytes as its length has in 16 bits. The header of Ethernet is `pnet`'s and the buffers are DPDK's:
what they answer is a parameter. -/

namespace Dwd

namespace Dpdk

/-- `LegacyPcapBlock`, as the parser yields it: its data has the captured length. -/
structure Block where
  caplen : ℕ
  data : List UInt8
  length_data : data.length = caplen
  caplen_lt : caplen < 2 ^ 32

/-- A fresh buffer of a pool. -/
structure Room where
  addr : ℕ
  tailroom : ℕ

/-- What the libraries answer: whether `MutableEthernetPacket::new` finds a header in a buffer, and the
buffer that `rte_pktmbuf_alloc` returns for a block, if it is not null. -/
structure Libraries where
  ethernetPacket : List UInt8 → Bool
  alloc : ℕ → Option Room

/-- A call of `copy_nonoverlapping`: the bytes that have been reserved, and those that are written. -/
structure Copy where
  reserved : ℕ
  copied : ℕ
  deriving DecidableEq, Repr

inductive LoadError where
  | outOfMemory
  deriving DecidableEq, Repr

/-- How loading ends, with the copies that it has made. -/
inductive Load where
  | ok (workers : CoreId → Option Worker) (copies : List Copy)
  | error (e : LoadError) (copies : List Copy)
  | panicked (copies : List Copy)

namespace Load

def copies : Load → List Copy
  | .ok _ copies => copies
  | .error _ copies => copies
  | .panicked copies => copies

def Panics : Load → Prop
  | .panicked _ => True
  | _ => False

def Fails : Load → Prop
  | .error _ _ => True
  | _ => False

end Load

/-- `init_workers`: a new worker for each core. -/
def initWorkers (now : CoreId → ℕ) (cores : List CoreId) (core : CoreId) : Option Worker :=
  if core ∈ cores then some (Worker.new (now core)) else none

variable (lib : Libraries) (cores : List CoreId)

/-- The loop of `load_pcap`, from the block with index `idx` on. -/
def loadFrom (idx : ℕ) (workers : CoreId → Option Worker) (copies : List Copy) : List Block → Load
  | [] => .ok workers copies
  | block :: blocks =>
      if block.data.length ≠ block.caplen then .panicked copies
      else if lib.ethernetPacket block.data = false then .panicked copies
      else
        match cores[idx % cores.length]? with
        | none => .panicked copies
        | some core =>
            match workers core with
            | none => .panicked copies
            | some worker =>
                match lib.alloc idx with
                | none => .error .outOfMemory copies
                | some room =>
                    let len := block.caplen % 2 ^ 16
                    if room.tailroom < len then .error .outOfMemory copies
                    else
                      let copies := copies ++ [{ reserved := len, copied := block.caplen }]
                      match worker.load { addr := room.addr, pktLen := len } with
                      | none => .panicked copies
                      | some worker =>
                          loadFrom (idx + 1) (Function.update workers core (some worker)) copies blocks

/-- `load_pcap`. -/
def loadPcap (now : CoreId → ℕ) (blocks : List Block) : Load :=
  loadFrom lib cores 0 (initWorkers now cores) [] blocks

/-- How many of the first `k` blocks go to a core. -/
def dealt (core : CoreId) (k : ℕ) : ℕ :=
  (List.range k).countP fun idx => cores[idx % cores.length]? = some core

variable {lib cores}

theorem dealt_succ (core : CoreId) (k : ℕ) :
    dealt cores core (k + 1) =
      dealt cores core k + if cores[k % cores.length]? = some core then 1 else 0 := by
  rw [dealt, List.range_succ, List.countP_append, List.countP_singleton]
  simp only [decide_eq_true_eq]
  rfl

/-- Every core has a worker, filled with as many packets as have been dealt to it. -/
def Filled (cores : List CoreId) (now : CoreId → ℕ) (k : ℕ) (workers : CoreId → Option Worker) : Prop :=
  ∀ core ∈ cores, ∃ packets, workers core = some (Worker.filled (now core) packets) ∧
    packets.length = dealt cores core k

theorem filled_initWorkers (now : CoreId → ℕ) : Filled cores now 0 (initWorkers now cores) := by
  intro core hcore
  refine ⟨[], ?_, rfl⟩
  rw [initWorkers, if_pos hcore]
  rfl

/-- The worker whose turn it is takes one packet more, and the others none. -/
theorem Filled.load {now : CoreId → ℕ} {idx : ℕ} {workers : CoreId → Option Worker}
    (h : Filled cores now idx workers) {core : CoreId} (hcore : cores[idx % cores.length]? = some core)
    {worker worker' : Worker} (hworker : workers core = some worker) {mbuf : Mbuf}
    (hload : worker.load mbuf = some worker') :
    Filled cores now (idx + 1) (Function.update workers core (some worker')) := by
  intro other hother
  rw [dealt_succ, hcore]
  obtain ⟨packets, hpackets, hlength⟩ := h other hother
  by_cases heq : other = core
  · subst heq
    rw [Function.update_self, if_pos rfl]
    rw [hworker] at hpackets
    obtain rfl := Option.some.inj hpackets
    rw [Worker.load_filled] at hload
    obtain ⟨-, hworker'⟩ := Option.ite_none_right_eq_some.mp hload
    refine ⟨packets ++ [mbuf], ?_, ?_⟩
    · rw [← Option.some.inj hworker']
    · rw [List.length_append, List.length_singleton, hlength]
  · rw [Function.update_of_ne heq, if_neg (fun hcore' => heq (Option.some.inj hcore').symm)]
    exact ⟨packets, hpackets, hlength⟩

/-- Where the index of a block finds a core, when there is one. -/
theorem exists_core (hcores : cores ≠ []) (idx : ℕ) :
    ∃ core ∈ cores, cores[idx % cores.length]? = some core := by
  have hlt : idx % cores.length < cores.length := Nat.mod_lt _ (List.length_pos_iff.mpr hcores)
  exact ⟨cores[idx % cores.length], List.getElem_mem hlt, List.getElem?_eq_getElem hlt⟩

/-- A step of a loading that succeeds: the core whose turn it is has a worker, which takes the buffer. -/
theorem loadFrom_cons_eq_ok {idx : ℕ} {workers workers' : CoreId → Option Worker} {copies copies' : List Copy}
    {block : Block} {blocks : List Block}
    (hload : loadFrom lib cores idx workers copies (block :: blocks) = .ok workers' copies') :
    ∃ core worker room worker', cores[idx % cores.length]? = some core ∧ workers core = some worker ∧
      lib.alloc idx = some room ∧
      worker.load { addr := room.addr, pktLen := block.caplen % 2 ^ 16 } = some worker' ∧
      loadFrom lib cores (idx + 1) (Function.update workers core (some worker'))
        (copies ++ [{ reserved := block.caplen % 2 ^ 16, copied := block.caplen }]) blocks =
          .ok workers' copies' := by
  rw [loadFrom] at hload
  split_ifs at hload
  split at hload
  · cases hload
  · rename_i core hcore
    split at hload
    · cases hload
    · rename_i worker hworker
      split at hload
      · cases hload
      · rename_i room hroom
        dsimp only at hload
        split_ifs at hload
        split at hload
        · cases hload
        · rename_i worker' hfilled
          exact ⟨core, worker, room, worker', hcore, hworker, hroom, hfilled, hload⟩

/-- A loading that succeeds has filled the workers with all blocks. -/
theorem filled_of_loadFrom {now : CoreId → ℕ} {idx : ℕ} {workers workers' : CoreId → Option Worker}
    {copies copies' : List Copy} {blocks : List Block} (h : Filled cores now idx workers)
    (hload : loadFrom lib cores idx workers copies blocks = .ok workers' copies') :
    Filled cores now (idx + blocks.length) workers' := by
  induction blocks generalizing idx workers copies with
  | nil =>
      obtain ⟨rfl, -⟩ := Load.ok.inj hload
      exact h
  | cons block blocks ih =>
      obtain ⟨core, worker, room, worker', hcore, hworker, -, hfilled, hrest⟩ := loadFrom_cons_eq_ok hload
      have hdone := ih (h.load hcore hworker hfilled) hrest
      rwa [Nat.add_right_comm, Nat.add_assoc] at hdone

/-- Loading makes no workers. -/
theorem loadFrom_frame {core : CoreId} (hcore : core ∉ cores) {idx : ℕ}
    {workers workers' : CoreId → Option Worker} {copies copies' : List Copy} {blocks : List Block}
    (hload : loadFrom lib cores idx workers copies blocks = .ok workers' copies') :
    workers' core = workers core := by
  induction blocks generalizing idx workers copies with
  | nil =>
      obtain ⟨rfl, -⟩ := Load.ok.inj hload
      rfl
  | cons block blocks ih =>
      obtain ⟨other, worker, room, worker', hother, -, -, -, hrest⟩ := loadFrom_cons_eq_ok hload
      have hne : core ≠ other := fun heq => hcore (heq ▸ List.mem_of_getElem? hother)
      rw [ih hrest, Function.update_of_ne hne]

variable (lib)

/-- The block gets a buffer with room for its length in 16 bits. -/
def Accepted (idx : ℕ) (block : Block) : Prop :=
  ∃ room ∈ lib.alloc idx, block.caplen % 2 ^ 16 ≤ room.tailroom

instance (idx : ℕ) (block : Block) : Decidable (Accepted lib idx block) :=
  match h : lib.alloc idx with
  | none => isFalse fun ⟨_, hroom, _⟩ => by simp [h] at hroom
  | some room =>
      decidable_of_iff (block.caplen % 2 ^ 16 ≤ room.tailroom)
        ⟨fun hle => ⟨room, h, hle⟩, fun ⟨room', hroom, hle⟩ => by
          obtain rfl := Option.some.inj (h.symm.trans hroom)
          exact hle⟩

/-- The blocks before the first one that is not accepted. -/
def stored : ℕ → List Block → List Block
  | _, [] => []
  | idx, block :: blocks => if Accepted lib idx block then block :: stored (idx + 1) blocks else []

/-- The same blocks, and that one. -/
def reached : ℕ → List Block → List Block
  | _, [] => []
  | idx, block :: blocks => block :: if Accepted lib idx block then reached (idx + 1) blocks else []

/-- What is reserved and written for a block. -/
def Block.copy (block : Block) : Copy := { reserved := block.caplen % 2 ^ 16, copied := block.caplen }

theorem Block.copy_exact_iff (block : Block) :
    block.copy.reserved = block.copy.copied ↔ block.caplen < 2 ^ 16 := by
  rw [copy]
  exact Nat.mod_eq_iff_lt (by decide)

/-- `pnet` finds a header in a buffer of at least 14 bytes. -/
def HeaderOf14 : Prop := ∀ data, lib.ethernetPacket data = true ↔ 14 ≤ data.length

/-- A pool has `MBUFS_COUNT` buffers, and gets none back while packets are loaded. -/
def FinitePools (cores : List CoreId) : Prop :=
  ∀ core k, (∀ idx < k, (lib.alloc idx).isSome) → dealt cores core k ≤ mbufsCountMax

variable {lib}

section Loop

variable {now : CoreId → ℕ} {idx : ℕ} {workers : CoreId → Option Worker} {copies : List Copy}
  {block : Block} {blocks : List Block}

theorem allocated_succ (hallocated : ∀ earlier < idx, (lib.alloc earlier).isSome)
    (haccepted : Accepted lib idx block) : ∀ earlier < idx + 1, (lib.alloc earlier).isSome := by
  intro earlier hearlier
  rcases Nat.lt_succ_iff_lt_or_eq.mp hearlier with hlt | rfl
  · exact hallocated earlier hlt
  · obtain ⟨room, halloc, -⟩ := haccepted
    exact Option.isSome_iff_exists.mpr ⟨room, halloc⟩

/-- A block without a header stops the loading with a panic. -/
theorem loadFrom_of_short (hview : HeaderOf14 lib) (hshort : block.caplen < 14) :
    loadFrom lib cores idx workers copies (block :: blocks) = .panicked copies := by
  have hdata : lib.ethernetPacket block.data = false := by
    rw [← Bool.not_eq_true, hview, block.length_data]
    omega
  rw [loadFrom, if_neg (not_not.mpr block.length_data), if_pos hdata]

/-- A block with a header, when it is the turn of a core that has a worker. -/
theorem loadFrom_of_header (hview : HeaderOf14 lib) (hlong : 14 ≤ block.caplen) {core : CoreId}
    {worker : Worker} (hget : cores[idx % cores.length]? = some core) (hworker : workers core = some worker) :
    loadFrom lib cores idx workers copies (block :: blocks) =
      match lib.alloc idx with
      | none => .error .outOfMemory copies
      | some room =>
          if room.tailroom < block.caplen % 2 ^ 16 then .error .outOfMemory copies
          else
            match worker.load { addr := room.addr, pktLen := block.caplen % 2 ^ 16 } with
            | none => .panicked (copies ++ [block.copy])
            | some worker =>
                loadFrom lib cores (idx + 1) (Function.update workers core (some worker))
                  (copies ++ [block.copy]) blocks := by
  have hdata : ¬lib.ethernetPacket block.data = false := by
    rw [Bool.not_eq_false, hview, block.length_data]
    exact hlong
  rw [loadFrom, if_neg (not_not.mpr block.length_data), if_neg hdata, hget]
  dsimp only
  rw [hworker]
  rfl

theorem loadFrom_of_refused (hview : HeaderOf14 lib) (hcores : cores ≠ [])
    (h : Filled cores now idx workers) (hlong : 14 ≤ block.caplen) (hrefused : ¬Accepted lib idx block) :
    loadFrom lib cores idx workers copies (block :: blocks) = .error .outOfMemory copies := by
  obtain ⟨core, hcore, hget⟩ := exists_core hcores idx
  obtain ⟨packets, hworker, -⟩ := h core hcore
  rw [loadFrom_of_header hview hlong hget hworker]
  cases halloc : lib.alloc idx with
  | none => rfl
  | some room =>
      have hfull : room.tailroom < block.caplen % 2 ^ 16 :=
        Nat.lt_of_not_le fun hle => hrefused ⟨room, halloc, hle⟩
      exact if_pos hfull

/-- An accepted block is copied, and a worker has a slot for it. -/
theorem loadFrom_of_accepted (hview : HeaderOf14 lib) (hpools : FinitePools lib cores)
    (hcores : cores ≠ []) (h : Filled cores now idx workers)
    (hallocated : ∀ earlier < idx, (lib.alloc earlier).isSome) (hlong : 14 ≤ block.caplen)
    (haccepted : Accepted lib idx block) :
    ∃ workers', Filled cores now (idx + 1) workers' ∧
      loadFrom lib cores idx workers copies (block :: blocks) =
        loadFrom lib cores (idx + 1) workers' (copies ++ [block.copy]) blocks := by
  obtain ⟨core, hcore, hget⟩ := exists_core hcores idx
  obtain ⟨packets, hworker, hlength⟩ := h core hcore
  obtain ⟨room, halloc, hle⟩ := haccepted
  have hslot : packets.length + 1 ≤ mbufsCountMax := by
    have hdealt := hpools core (idx + 1) (allocated_succ hallocated ⟨room, halloc, hle⟩)
    rwa [dealt_succ, hget, if_pos rfl, ← hlength] at hdealt
  have hload := Worker.load_filled (now core) packets
    { addr := room.addr, pktLen := block.caplen % 2 ^ 16 }
  rw [if_pos hslot] at hload
  refine ⟨_, h.load hget hworker hload, ?_⟩
  rw [loadFrom_of_header hview hlong hget hworker, halloc]
  dsimp only
  rw [if_neg (Nat.not_lt.mpr hle), hload]

/-- The loading of blocks that all have a header ends with the first one that is not accepted, and has
copied those before it. -/
theorem loadFrom_of_headers (hview : HeaderOf14 lib) (hpools : FinitePools lib cores)
    (hcores : cores ≠ []) (h : Filled cores now idx workers)
    (hallocated : ∀ earlier < idx, (lib.alloc earlier).isSome)
    (hlong : ∀ block ∈ reached lib idx blocks, 14 ≤ block.caplen) :
    (loadFrom lib cores idx workers copies blocks).copies =
        copies ++ (stored lib idx blocks).map Block.copy ∧
      ¬(loadFrom lib cores idx workers copies blocks).Panics ∧
      ((loadFrom lib cores idx workers copies blocks).Fails ↔ stored lib idx blocks ≠ blocks) := by
  induction blocks generalizing idx workers copies with
  | nil =>
      rw [loadFrom, stored, List.map_nil, List.append_nil]
      exact ⟨rfl, id, iff_of_false id (not_not.mpr rfl)⟩
  | cons block blocks ih =>
      have hfirst := hlong block List.mem_cons_self
      by_cases haccepted : Accepted lib idx block
      · obtain ⟨workers', hfilled, heq⟩ :=
          loadFrom_of_accepted hview hpools hcores h hallocated hfirst haccepted
        rw [reached, if_pos haccepted] at hlong
        obtain ⟨hcopies, hpanics, hfails⟩ := ih hfilled
          (allocated_succ hallocated haccepted) fun block' hmem => hlong block' (List.mem_cons_of_mem block hmem)
        rw [heq, stored, if_pos haccepted]
        refine ⟨?_, hpanics, hfails.trans (by simp)⟩
        rw [hcopies, List.map_cons, List.append_assoc]
        rfl
      · rw [loadFrom_of_refused hview hcores h hfirst haccepted, stored, if_neg haccepted, List.map_nil,
          List.append_nil]
        exact ⟨rfl, id, iff_of_true trivial (List.cons_ne_nil _ _).symm⟩

theorem loadFrom_panics (hview : HeaderOf14 lib) (hpools : FinitePools lib cores) (hcores : cores ≠ [])
    (h : Filled cores now idx workers) (hallocated : ∀ earlier < idx, (lib.alloc earlier).isSome)
    (hshort : ¬∀ block ∈ reached lib idx blocks, 14 ≤ block.caplen) :
    (loadFrom lib cores idx workers copies blocks).Panics := by
  induction blocks generalizing idx workers copies with
  | nil => exact absurd (fun block hmem => by cases hmem) hshort
  | cons block blocks ih =>
      by_cases hfirst : 14 ≤ block.caplen
      · by_cases haccepted : Accepted lib idx block
        · obtain ⟨workers', hfilled, heq⟩ :=
            loadFrom_of_accepted hview hpools hcores h hallocated hfirst haccepted
          rw [heq]
          refine ih hfilled (allocated_succ hallocated haccepted) fun hrest => hshort ?_
          rw [reached, if_pos haccepted]
          exact List.forall_mem_cons.mpr ⟨hfirst, hrest⟩
        · refine absurd ?_ hshort
          rw [reached, if_neg haccepted]
          exact List.forall_mem_cons.mpr ⟨hfirst, fun block hmem => by cases hmem⟩
      · rw [loadFrom_of_short hview (Nat.lt_of_not_le hfirst)]
        trivial

end Loop

theorem loadPcap_of_headers (hview : HeaderOf14 lib) (hpools : FinitePools lib cores) (hcores : cores ≠ [])
    (now : CoreId → ℕ) {blocks : List Block} (hlong : ∀ block ∈ reached lib 0 blocks, 14 ≤ block.caplen) :
    (loadPcap lib cores now blocks).copies = (stored lib 0 blocks).map Block.copy ∧
      ¬(loadPcap lib cores now blocks).Panics ∧
      ((loadPcap lib cores now blocks).Fails ↔ stored lib 0 blocks ≠ blocks) :=
  loadFrom_of_headers hview hpools hcores (filled_initWorkers now)
    (fun _ h => absurd h (Nat.not_lt_zero _)) hlong

theorem loadPcap_panics (hview : HeaderOf14 lib) (hpools : FinitePools lib cores) (hcores : cores ≠ [])
    (now : CoreId → ℕ) {blocks : List Block}
    (hshort : ¬∀ block ∈ reached lib 0 blocks, 14 ≤ block.caplen) :
    (loadPcap lib cores now blocks).Panics :=
  loadFrom_panics hview hpools hcores (filled_initWorkers now)
    (fun _ h => absurd h (Nat.not_lt_zero _)) hshort

/-- `load_pcap` does not panic, and returns an error or has made exact copies only, exactly when no block up
to the first one that is refused is shorter than an Ethernet header, and, if none is refused, no block has
more than 16 bits of length. For all copies to be exact, also those before an error, no block before the
refused one may be longer. -/
theorem loadPcap_safe_iff (hview : HeaderOf14 lib) (hpools : FinitePools lib cores) (hcores : cores ≠ [])
    (now : CoreId → ℕ) (blocks : List Block) :
    ((¬(loadPcap lib cores now blocks).Panics ∧ ((loadPcap lib cores now blocks).Fails ∨
        ∀ copy ∈ (loadPcap lib cores now blocks).copies, copy.reserved = copy.copied)) ↔
      (∀ block ∈ reached lib 0 blocks, 14 ≤ block.caplen) ∧
        (stored lib 0 blocks ≠ blocks ∨ ∀ block ∈ blocks, block.caplen < 2 ^ 16)) ∧
    ((¬(loadPcap lib cores now blocks).Panics ∧
        ∀ copy ∈ (loadPcap lib cores now blocks).copies, copy.reserved = copy.copied) ↔
      (∀ block ∈ reached lib 0 blocks, 14 ≤ block.caplen) ∧
        ∀ block ∈ stored lib 0 blocks, block.caplen < 2 ^ 16) := by
  by_cases hlong : ∀ block ∈ reached lib 0 blocks, 14 ≤ block.caplen
  · obtain ⟨hcopies, hpanics, hfails⟩ := loadPcap_of_headers hview hpools hcores now hlong
    have hexact : (∀ copy ∈ (loadPcap lib cores now blocks).copies, copy.reserved = copy.copied) ↔
        ∀ block ∈ stored lib 0 blocks, block.caplen < 2 ^ 16 := by
      rw [hcopies, List.forall_mem_map]
      exact forall₂_congr fun block _ => block.copy_exact_iff
    rw [and_iff_right hpanics, and_iff_right hpanics, and_iff_right hlong, and_iff_right hlong, hexact,
      hfails]
    refine ⟨?_, Iff.rfl⟩
    by_cases hall : stored lib 0 blocks = blocks
    · rw [hall]
    · exact iff_of_true (Or.inl hall) (Or.inl hall)
  · have hpanics := loadPcap_panics hview hpools hcores now hlong
    exact ⟨iff_of_false (fun h => h.1 hpanics) (fun h => hlong h.1),
      iff_of_false (fun h => h.1 hpanics) (fun h => hlong h.1)⟩

/-- The libraries, with buffers of 10240 bytes, of which 128 are kept free at the front. -/
def freshPool : Libraries where
  ethernetPacket data := 14 ≤ data.length
  alloc idx := if idx < mbufsCountMax then some { addr := idx, tailroom := 10112 } else none

theorem freshPool_header : HeaderOf14 freshPool := fun _ => decide_eq_true_iff

theorem freshPool_finite (cores : List CoreId) : FinitePools freshPool cores := by
  intro core k hallocated
  have hk : k ≤ mbufsCountMax := by
    by_contra hlt
    have hlast := hallocated mbufsCountMax (Nat.lt_of_not_le hlt)
    simp [freshPool] at hlast
  calc dealt cores core k ≤ (List.range k).length := List.countP_le_length
    _ ≤ mbufsCountMax := by rwa [List.length_range]

/-- A block of zeros. -/
def zeros (caplen : ℕ) (h : caplen < 2 ^ 32) : Block :=
  { caplen := caplen
    data := List.replicate caplen 0
    length_data := List.length_replicate
    caplen_lt := h }

theorem loadPcap_safe_two_blocks :
    ¬(loadPcap freshPool [3, 4] (fun _ => 0) [zeros 60 (by decide), zeros 64 (by decide)]).Panics ∧
      ∀ copy ∈ (loadPcap freshPool [3, 4] (fun _ => 0) [zeros 60 (by decide), zeros 64 (by decide)]).copies,
        copy.reserved = copy.copied :=
  (loadPcap_safe_iff freshPool_header (freshPool_finite _) (by decide) _ _).2.mpr
    ⟨by decide +kernel, by decide +kernel⟩

theorem loadPcap_short {block : Block} (hshort : block.caplen < 14) :
    (loadPcap freshPool [3] (fun _ => 0) [block]).Panics := by
  refine loadPcap_panics freshPool_header (freshPool_finite [3]) (by decide) _ fun h => ?_
  rw [reached] at h
  have := h block List.mem_cons_self
  omega

/-- The fresh pools take every block whose length in 16 bits fits. -/
theorem stored_freshPool {idx : ℕ} {blocks : List Block} (hlength : idx + blocks.length ≤ mbufsCountMax)
    (hfit : ∀ block ∈ blocks, block.caplen % 2 ^ 16 ≤ 10112) :
    stored freshPool idx blocks = blocks ∧ reached freshPool idx blocks = blocks := by
  induction blocks generalizing idx with
  | nil => exact ⟨rfl, rfl⟩
  | cons block blocks ih =>
      rw [List.length_cons] at hlength
      obtain ⟨hfirst, hrest⟩ := List.forall_mem_cons.mp hfit
      have haccepted : Accepted freshPool idx block :=
        ⟨{ addr := idx, tailroom := 10112 }, by simp [freshPool]; omega, hfirst⟩
      obtain ⟨hstored, hreached⟩ := ih (by omega : idx + 1 + blocks.length ≤ mbufsCountMax) hrest
      rw [stored, reached, if_pos haccepted, if_pos haccepted, hstored, hreached]
      exact ⟨rfl, rfl⟩

theorem loadPcap_freshPool {blocks : List Block} (hcores : cores ≠ [])
    (hlength : blocks.length ≤ mbufsCountMax)
    (hfit : ∀ block ∈ blocks, 14 ≤ block.caplen ∧ block.caplen % 2 ^ 16 ≤ 10112) (now : CoreId → ℕ) :
    ¬(loadPcap freshPool cores now blocks).Panics ∧ ¬(loadPcap freshPool cores now blocks).Fails ∧
      (loadPcap freshPool cores now blocks).copies = blocks.map Block.copy := by
  obtain ⟨hstored, hreached⟩ := @stored_freshPool 0 blocks (by omega) fun block hmem => (hfit block hmem).2
  obtain ⟨hcopies, hpanics, hfails⟩ := loadPcap_of_headers freshPool_header (freshPool_finite cores)
    hcores now fun block hmem => (hfit block (hreached ▸ hmem)).1
  exact ⟨hpanics, mt hfails.mp (not_not.mpr hstored), hcopies.trans (by rw [hstored])⟩

theorem loadPcap_long {block : Block} (hlong : block.caplen = 65550) :
    ¬(loadPcap freshPool [3] (fun _ => 0) [block]).Panics ∧
    ¬(loadPcap freshPool [3] (fun _ => 0) [block]).Fails ∧
    (loadPcap freshPool [3] (fun _ => 0) [block]).copies = [{ reserved := 14, copied := 65550 }] := by
  have hcopy : [block].map Block.copy = [{ reserved := 14, copied := 65550 }] := by
    rw [List.map_singleton, Block.copy, hlong]
    rfl
  rw [← hcopy]
  have hone : [block].length ≤ mbufsCountMax := show 1 ≤ mbufsCountMax by decide
  refine loadPcap_freshPool (List.cons_ne_nil _ _) hone (fun block' hmem => ?_) _
  obtain rfl := List.mem_singleton.mp hmem
  rw [hlong]
  decide

/-- A block of 13 bytes panics; and of one of 65550 bytes, 14 are reserved and all are written. -/
theorem loadPcap_short_and_long :
    (loadPcap freshPool [3] (fun _ => 0) [zeros 13 (by decide)]).Panics ∧
    ¬(loadPcap freshPool [3] (fun _ => 0) [zeros 65550 (by decide)]).Panics ∧
    ¬(loadPcap freshPool [3] (fun _ => 0) [zeros 65550 (by decide)]).Fails ∧
    (loadPcap freshPool [3] (fun _ => 0) [zeros 65550 (by decide)]).copies =
      [{ reserved := 14, copied := 65550 }] :=
  ⟨loadPcap_short (show 13 < 14 by decide), loadPcap_long rfl⟩

end Dpdk

end Dwd
