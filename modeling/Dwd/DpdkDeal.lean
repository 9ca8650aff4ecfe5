import Dwd.DpdkLoad
import Dwd.LibRing

/-! The packets of a pcap file as the workers hold them, byte for byte. A block is written to the start of
the buffer that it gets, and no other block gets that buffer. The blocks are dealt out to the cores in
turn: so the worker of the core at place `j` of `n` has the blocks whose index is `j` modulo `n`, in the order
of the file, in its first slots, and null pointers in the others. -/

namespace Dwd

namespace Dpdk

/-- The data of the buffers. -/
abbrev Memory : Type := ℕ → List UInt8

namespace Memory

/-- `copy_nonoverlapping` to the start of a buffer. -/
def write (memory : Memory) (addr : ℕ) (data : List UInt8) : Memory :=
  Function.update memory addr (data ++ (memory addr).drop data.length)

/-- The bytes of a packet. -/
def packet (memory : Memory) (mbuf : Mbuf) : List UInt8 := (memory mbuf.addr).take mbuf.pktLen

theorem packet_write_self (memory : Memory) (addr : ℕ) (data : List UInt8) :
    (memory.write addr data).packet { addr := addr, pktLen := data.length } = data := by
  rw [packet, write, Function.update_self, List.take_left]

theorem packet_write_of_ne (memory : Memory) {addr : ℕ} (data : List UInt8) {mbuf : Mbuf}
    (h : mbuf.addr ≠ addr) : (memory.write addr data).packet mbuf = memory.packet mbuf := by
  rw [packet, write, Function.update_of_ne h, packet]

/-- Writing to a buffer leaves the packets in others alone. -/
theorem map_packet_write (memory : Memory) {addr : ℕ} (data : List UInt8) {packets : List Mbuf}
    (h : ∀ mbuf ∈ packets, mbuf.addr ≠ addr) :
    packets.map (memory.write addr data).packet = packets.map memory.packet :=
  List.map_congr_left fun mbuf hmem => memory.packet_write_of_ne data (h mbuf hmem)

end Memory

variable (lib : Libraries) (cores : List CoreId)

/-- The loop of `load_pcap`, with the bytes that it writes. -/
def loadBytesFrom (idx : ℕ) (workers : CoreId → Option Worker) (copies : List Copy) (memory : Memory) :
    List Block → Load × Memory
  | [] => (.ok workers copies, memory)
  | block :: blocks =>
      if block.data.length ≠ block.caplen then (.panicked copies, memory)
      else if lib.ethernetPacket block.data = false then (.panicked copies, memory)
      else
        match cores[idx % cores.length]? with
        | none => (.panicked copies, memory)
        | some core =>
            match workers core with
            | none => (.panicked copies, memory)
            | some worker =>
                match lib.alloc idx with
                | none => (.error .outOfMemory copies, memory)
                | some room =>
                    let len := block.caplen % 2 ^ 16
                    if room.tailroom < len then (.error .outOfMemory copies, memory)
                    else
                      let copies := copies ++ [{ reserved := len, copied := block.caplen }]
                      let memory := memory.write room.addr block.data
                      match worker.load { addr := room.addr, pktLen := len } with
                      | none => (.panicked copies, memory)
                      | some worker =>
                          loadBytesFrom (idx + 1) (Function.update workers core (some worker)) copies memory blocks

def loadBytes (now : CoreId → ℕ) (memory : Memory) (blocks : List Block) : Load × Memory :=
  loadBytesFrom lib cores 0 (initWorkers now cores) [] memory blocks

variable {lib cores}

/-- The loop goes the same way with and without the bytes. -/
theorem loadBytesFrom_fst (idx : ℕ) (workers : CoreId → Option Worker) (copies : List Copy) (memory : Memory)
    (blocks : List Block) :
    (loadBytesFrom lib cores idx workers copies memory blocks).1 =
      loadFrom lib cores idx workers copies blocks := by
  induction blocks generalizing idx workers copies memory with
  | nil => rfl
  | cons block blocks ih =>
      rw [loadBytesFrom, loadFrom]
      by_cases hdata : block.data.length ≠ block.caplen
      · rw [if_pos hdata, if_pos hdata]
      rw [if_neg hdata, if_neg hdata]
      by_cases hview : lib.ethernetPacket block.data = false
      · rw [if_pos hview, if_pos hview]
      rw [if_neg hview, if_neg hview]
      cases hcore : cores[idx % cores.length]? with
      | none => rfl
      | some core =>
          dsimp only
          cases hworker : workers core with
          | none => rfl
          | some worker =>
              dsimp only
              cases halloc : lib.alloc idx with
              | none => rfl
              | some room =>
                  dsimp only
                  by_cases hfull : room.tailroom < block.caplen % 2 ^ 16
                  · rw [if_pos hfull, if_pos hfull]
                  rw [if_neg hfull, if_neg hfull]
                  cases hload : worker.load { addr := room.addr, pktLen := block.caplen % 2 ^ 16 } with
                  | none => rfl
                  | some worker' => exact ih _ _ _ _

theorem loadBytes_fst (now : CoreId → ℕ) (memory : Memory) (blocks : List Block) :
    (loadBytes lib cores now memory blocks).1 = loadPcap lib cores now blocks :=
  loadBytesFrom_fst 0 _ [] memory blocks

/-- The buffers of DPDK: the tailroom has 16 bits, and a buffer that has been taken is not given out
again. -/
structure FreshRooms (lib : Libraries) : Prop where
  tailroom_lt : ∀ idx room, lib.alloc idx = some room → room.tailroom < 2 ^ 16
  fresh : ∀ idx idx' room room', lib.alloc idx = some room → lib.alloc idx' = some room' →
    room.addr = room'.addr → idx = idx'

/-- The pool whose turn it is has a buffer for the block. -/
def Fits (lib : Libraries) (idx : ℕ) (block : Block) : Prop :=
  14 ≤ block.caplen ∧ ∃ room, lib.alloc idx = some room ∧ block.caplen ≤ room.tailroom

theorem Fits.accepted {idx : ℕ} {block : Block} (h : Fits lib idx block) : Accepted lib idx block := by
  obtain ⟨-, room, halloc, hle⟩ := h
  exact ⟨room, halloc, (Nat.mod_le _ _).trans hle⟩

/-- The buffers of the packets have been taken by the first `k` blocks. -/
def TakenBefore (lib : Libraries) (k : ℕ) (packets : List Mbuf) : Prop :=
  ∀ mbuf ∈ packets, ∃ idx < k, ∃ room, lib.alloc idx = some room ∧ room.addr = mbuf.addr

theorem TakenBefore.succ {k : ℕ} {packets : List Mbuf} (h : TakenBefore lib k packets) :
    TakenBefore lib (k + 1) packets := by
  intro mbuf hmem
  obtain ⟨idx, hidx, hroom⟩ := h mbuf hmem
  exact ⟨idx, Nat.lt_succ_of_lt hidx, hroom⟩

theorem TakenBefore.ne {k : ℕ} {packets : List Mbuf} (h : TakenBefore lib k packets) (hfresh : FreshRooms lib)
    {room : Room} (halloc : lib.alloc k = some room) : ∀ mbuf ∈ packets, mbuf.addr ≠ room.addr := by
  intro mbuf hmem heq
  obtain ⟨idx, hidx, room', halloc', haddr⟩ := h mbuf hmem
  exact hidx.ne (hfresh.fresh idx k room' room halloc' halloc (haddr.trans heq))

/-- Every worker has, in its first slots, the blocks of `done` that have been dealt to it. -/
def Placed (lib : Libraries) (cores : List CoreId) (now : CoreId → ℕ) (done : List Block)
    (workers : CoreId → Option Worker) (memory : Memory) : Prop :=
  ∀ j core, cores[j]? = some core → ∃ packets, workers core = some (Worker.filled (now core) packets) ∧
    packets.map memory.packet = (Ring.dealtTo cores.length j done).map Block.data ∧
    TakenBefore lib done.length packets

theorem placed_initWorkers (now : CoreId → ℕ) (memory : Memory) :
    Placed lib cores now [] (initWorkers now cores) memory := by
  intro j core hcore
  refine ⟨[], ?_, rfl, fun _ h => nomatch h⟩
  rw [initWorkers, if_pos (List.mem_of_getElem? hcore)]
  rfl

/-- A core's turn comes at its place. -/
theorem dealt_eq_visits (hnodup : cores.Nodup) {j : ℕ} {core : CoreId} (hcore : cores[j]? = some core) (k : ℕ) :
    dealt cores core k = Ring.visits cores.length j k := by
  obtain ⟨hj, hget⟩ := List.getElem?_eq_some_iff.mp hcore
  have hturn : ∀ idx, cores[idx % cores.length]? = some core ↔ idx % cores.length = j := by
    intro idx
    have hlt : idx % cores.length < cores.length := Nat.mod_lt idx (by omega)
    rw [← hcore, List.getElem?_eq_getElem hlt, List.getElem?_eq_getElem hj, Option.some.injEq,
      hnodup.getElem_inj_iff]
  rw [dealt]
  simp only [hturn]
  rfl

variable {now : CoreId → ℕ} {done : List Block} {workers : CoreId → Option Worker} {copies : List Copy}
  {memory : Memory} {block : Block} {blocks : List Block}

theorem Placed.length_eq {j : ℕ} {packets : List Mbuf}
    (h : packets.map memory.packet = (Ring.dealtTo cores.length j done).map Block.data) :
    packets.length = Ring.visits cores.length j done.length := by
  have hlength := congrArg List.length h
  rwa [List.length_map, List.length_map, Ring.length_dealtTo] at hlength

/-- A block is written to a fresh buffer, which goes to the worker whose turn it is. -/
theorem Placed.concat (hfresh : FreshRooms lib) (hnodup : cores.Nodup)
    (h : Placed lib cores now done workers memory) {core : CoreId} {packets : List Mbuf}
    (hcore : cores[done.length % cores.length]? = some core)
    (hpackets : packets.map memory.packet =
      (Ring.dealtTo cores.length (done.length % cores.length) done).map Block.data)
    (htaken : TakenBefore lib done.length packets) {room : Room} (halloc : lib.alloc done.length = some room) :
    Placed lib cores now (done ++ [block])
      (Function.update workers core
        (some (Worker.filled (now core) (packets ++ [{ addr := room.addr, pktLen := block.caplen }]))))
      (memory.write room.addr block.data) := by
  intro j core' hcore'
  rw [Ring.dealtTo_concat, List.length_append, List.length_singleton]
  by_cases hturn : done.length % cores.length = j
  · subst hturn
    obtain rfl := Option.some.inj (hcore.symm.trans hcore')
    rw [Function.update_self, if_pos rfl]
    refine ⟨_, rfl, ?_, ?_⟩
    · rw [List.map_append, List.map_append, memory.map_packet_write block.data (htaken.ne hfresh halloc),
        hpackets, List.map_singleton, List.map_singleton, ← block.length_data, Memory.packet_write_self]
    · intro mbuf hmem
      rcases List.mem_append.mp hmem with hmem | hmem
      · exact htaken.succ mbuf hmem
      · obtain rfl := List.mem_singleton.mp hmem
        exact ⟨done.length, Nat.lt_succ_self _, room, halloc, rfl⟩
  · have hne : core' ≠ core := by
      rintro rfl
      obtain ⟨hlt, hget⟩ := List.getElem?_eq_some_iff.mp hcore
      obtain ⟨hlt', hget'⟩ := List.getElem?_eq_some_iff.mp hcore'
      exact hturn (hnodup.getElem_inj_iff.mp (hget.trans hget'.symm))
    obtain ⟨packets', hworker', hpackets', htaken'⟩ := h j core' hcore'
    rw [Function.update_of_ne hne, if_neg hturn, List.append_nil]
    refine ⟨packets', hworker', ?_, htaken'.succ⟩
    rw [memory.map_packet_write block.data (htaken'.ne hfresh halloc), hpackets']

/-- A block that fits is written and dealt. -/
theorem Placed.load (hview : HeaderOf14 lib) (hpools : FinitePools lib cores) (hfresh : FreshRooms lib)
    (hcores : cores ≠ []) (hnodup : cores.Nodup) (h : Placed lib cores now done workers memory)
    (hallocated : ∀ earlier < done.length, (lib.alloc earlier).isSome) (hfits : Fits lib done.length block) :
    ∃ workers' memory', Placed lib cores now (done ++ [block]) workers' memory' ∧
      loadBytesFrom lib cores done.length workers copies memory (block :: blocks) =
        loadBytesFrom lib cores (done.length + 1) workers' (copies ++ [block.copy]) memory' blocks := by
  have haccepted : Accepted lib done.length block := hfits.accepted
  obtain ⟨hlong, room, halloc, hle⟩ := hfits
  have hlen : block.caplen % 2 ^ 16 = block.caplen :=
    Nat.mod_eq_of_lt (hle.trans_lt (hfresh.tailroom_lt _ room halloc))
  have hlt : done.length % cores.length < cores.length := Nat.mod_lt _ (List.length_pos_iff.mpr hcores)
  obtain ⟨core, hcore⟩ : ∃ core, cores[done.length % cores.length]? = some core :=
    ⟨_, List.getElem?_eq_getElem hlt⟩
  obtain ⟨packets, hworker, hpackets, htaken⟩ := h _ core hcore
  have hslot : packets.length + 1 ≤ mbufsCountMax := by
    have hdealt := hpools core (done.length + 1) (allocated_succ hallocated haccepted)
    rwa [dealt_eq_visits hnodup hcore, Ring.visits_succ, if_pos rfl, ← Placed.length_eq hpackets] at hdealt
  have hdata : ¬lib.ethernetPacket block.data = false := by
    rw [Bool.not_eq_false, hview, block.length_data]
    exact hlong
  refine ⟨_, _, h.concat hfresh hnodup hcore hpackets htaken halloc, ?_⟩
  rw [loadBytesFrom, if_neg (not_not.mpr block.length_data), if_neg hdata, hcore]
  dsimp only
  rw [hworker]
  dsimp only
  rw [halloc]
  dsimp only
  rw [Block.copy, hlen, if_neg (Nat.not_lt.mpr hle), Worker.load_filled, if_pos hslot]

/-- When all blocks fit, all of them are written and dealt. -/
theorem Placed.loadAll (hview : HeaderOf14 lib) (hpools : FinitePools lib cores) (hfresh : FreshRooms lib)
    (hcores : cores ≠ []) (hnodup : cores.Nodup) (h : Placed lib cores now done workers memory)
    (hallocated : ∀ earlier < done.length, (lib.alloc earlier).isSome)
    (hfits : ∀ t block, blocks[t]? = some block → Fits lib (done.length + t) block) :
    ∃ workers' copies' memory', Placed lib cores now (done ++ blocks) workers' memory' ∧
      loadBytesFrom lib cores done.length workers copies memory blocks = (.ok workers' copies', memory') := by
  induction blocks generalizing done workers copies memory with
  | nil => exact ⟨workers, copies, memory, by rwa [List.append_nil], rfl⟩
  | cons block blocks ih =>
      have hfirst : Fits lib done.length block := hfits 0 block rfl
      obtain ⟨workers₁, memory₁, hplaced, hstep⟩ :=
        h.load hview hpools hfresh hcores hnodup hallocated hfirst
      have hlength : (done ++ [block]).length = done.length + 1 := List.length_append
      have hallocated₁ : ∀ earlier < (done ++ [block]).length, (lib.alloc earlier).isSome :=
        hlength ▸ allocated_succ hallocated hfirst.accepted
      have hfits₁ : ∀ t block', blocks[t]? = some block' → Fits lib ((done ++ [block]).length + t) block' := by
        intro t block' hget
        rw [hlength, Nat.add_assoc, Nat.add_comm 1 t]
        exact hfits (t + 1) block' hget
      obtain ⟨workers', copies', memory', hplaced', hrest⟩ := ih hplaced hallocated₁ hfits₁
      rw [List.append_assoc, List.singleton_append] at hplaced'
      exact ⟨workers', copies', memory', hplaced', hstep.trans (hlength ▸ hrest)⟩

/-- The worker at place `j` of `n` has the blocks whose index is `j` modulo `n`, in order, in its first slots,
and null pointers in the others; the numbers of packets differ by one at most, and no packet is lost. -/
structure RoundRobin (cores : List CoreId) (blocks : List Block) (workers : CoreId → Option Worker)
    (memory : Memory) : Prop where
  slots : ∀ j core, cores[j]? = some core → ∃ w, workers core = some w ∧
    w.mbufsCount = (Ring.dealtTo cores.length j blocks).length ∧
    (w.mbufs.take w.mbufsCount).map (Option.map memory.packet) =
      (Ring.dealtTo cores.length j blocks).map (fun block => some block.data) ∧
    ∀ slot ∈ w.mbufs.drop w.mbufsCount, slot = none
  even : ∀ core ∈ cores, ∀ core' ∈ cores, ∀ w w', workers core = some w → workers core' = some w' →
    w.mbufsCount ≤ w'.mbufsCount + 1
  sum : (cores.map fun core => ((workers core).map Worker.mbufsCount).getD 0).sum = blocks.length

theorem Placed.mbufsCount_eq (h : Placed lib cores now blocks workers memory) {j : ℕ} {core : CoreId}
    (hcore : cores[j]? = some core) :
    (workers core).map Worker.mbufsCount = some (Ring.visits cores.length j blocks.length) := by
  obtain ⟨packets, hworker, hpackets, -⟩ := h j core hcore
  rw [hworker, Option.map_some, ← Placed.length_eq hpackets]
  rfl

theorem Placed.roundRobin (hcores : cores ≠ []) (h : Placed lib cores now blocks workers memory) :
    RoundRobin cores blocks workers memory where
  slots := by
    intro j core hcore
    obtain ⟨packets, hworker, hpackets, -⟩ := h j core hcore
    have htake : (Worker.filled (now core) packets).mbufs.take packets.length = packets.map some :=
      List.take_left' (List.length_map _)
    refine ⟨_, hworker, ?_, ?_, ?_⟩
    · rw [Ring.length_dealtTo, ← Placed.length_eq hpackets]
      rfl
    · have hsome := congrArg (List.map some) hpackets
      rw [List.map_map, List.map_map] at hsome
      show ((Worker.filled (now core) packets).mbufs.take packets.length).map _ = _
      rw [htake, List.map_map]
      exact hsome
    · intro slot hslot
      have hdrop : (Worker.filled (now core) packets).mbufs.drop packets.length =
          List.replicate (mbufsCountMax - packets.length) none := List.drop_left' (List.length_map _)
      exact List.eq_of_mem_replicate (hdrop ▸ hslot)
  even := by
    intro core hcore core' hcore' w w' hw hw'
    obtain ⟨j, hj⟩ := List.getElem?_of_mem hcore
    obtain ⟨j', hj'⟩ := List.getElem?_of_mem hcore'
    have hcount := h.mbufsCount_eq hj
    have hcount' := h.mbufsCount_eq hj'
    rw [hw] at hcount
    rw [hw'] at hcount'
    rw [Option.some.inj hcount, Option.some.inj hcount']
    exact Ring.visits_le_succ (List.getElem?_eq_some_iff.mp hj).1 (List.getElem?_eq_some_iff.mp hj').1 _
  sum := by
    have hcounts : (cores.map fun core => ((workers core).map Worker.mbufsCount).getD 0) =
        (List.range cores.length).map fun j => Ring.visits cores.length j blocks.length := by
      refine List.ext_getElem (by simp) fun j hj _ => ?_
      rw [List.length_map] at hj
      rw [List.getElem_map, List.getElem_map, List.getElem_range, h.mbufsCount_eq (List.getElem?_eq_getElem hj),
        Option.getD_some]
    rw [hcounts]
    exact Ring.sum_visits (List.length_pos_iff.mpr hcores) blocks.length

/-- Blocks that all have a header and fit are loaded, and dealt out to the cores in turn, byte for byte. -/
theorem load_round_robin (hview : HeaderOf14 lib) (hpools : FinitePools lib cores) (hfresh : FreshRooms lib)
    (hcores : cores ≠ []) (hnodup : cores.Nodup) (now : CoreId → ℕ) (memory : Memory)
    (hfits : ∀ t block, blocks[t]? = some block → Fits lib t block) :
    ∃ workers copies memory', loadBytes lib cores now memory blocks = (.ok workers copies, memory') ∧
      RoundRobin cores blocks workers memory' := by
  have hnone : ∀ earlier < ([] : List Block).length, (lib.alloc earlier).isSome :=
    fun _ h => absurd h (Nat.not_lt_zero _)
  have hfits₀ : ∀ t block, blocks[t]? = some block → Fits lib (([] : List Block).length + t) block := by
    intro t block hget
    rw [List.length_nil, Nat.zero_add]
    exact hfits t block hget
  obtain ⟨workers, copies, memory', hplaced, hload⟩ :
      ∃ workers copies memory', Placed lib cores now blocks workers memory' ∧
        loadBytesFrom lib cores 0 (initWorkers now cores) [] memory blocks = (.ok workers copies, memory') :=
    (placed_initWorkers now memory).loadAll hview hpools hfresh hcores hnodup hnone hfits₀
  exact ⟨workers, copies, memory', hload, hplaced.roundRobin hcores⟩

theorem freshPool_fresh : FreshRooms freshPool where
  tailroom_lt := by
    intro idx room halloc
    obtain ⟨-, heq⟩ := Option.ite_none_right_eq_some.mp halloc
    rw [← Option.some.inj heq]
    exact (by decide : 10112 < 2 ^ 16)
  fresh := by
    intro idx idx' room room' halloc halloc' haddr
    obtain ⟨-, heq⟩ := Option.ite_none_right_eq_some.mp halloc
    obtain ⟨-, heq'⟩ := Option.ite_none_right_eq_some.mp halloc'
    rwa [← Option.some.inj heq, ← Option.some.inj heq'] at haddr

theorem freshPool_fits {blocks : List Block} (hlength : blocks.length ≤ mbufsCountMax)
    (hfit : ∀ block ∈ blocks, 14 ≤ block.caplen ∧ block.caplen ≤ 10112) :
    ∀ t block, blocks[t]? = some block → Fits freshPool t block := by
  intro t block hget
  obtain ⟨hlong, hle⟩ := hfit block (List.mem_of_getElem? hget)
  have hlt : t < mbufsCountMax := (List.getElem?_eq_some_iff.mp hget).1.trans_le hlength
  exact ⟨hlong, { addr := t, tailroom := 10112 }, if_pos hlt, hle⟩

theorem load_round_robin_three_blocks :
    ∃ workers copies memory', loadBytes freshPool [3, 4] (fun _ => 0) (fun _ => [])
        [zeros 60 (by decide), zeros 61 (by decide), zeros 62 (by decide)] = (.ok workers copies, memory') ∧
      RoundRobin [3, 4] [zeros 60 (by decide), zeros 61 (by decide), zeros 62 (by decide)] workers memory' :=
  load_round_robin freshPool_header (freshPool_finite _) freshPool_fresh (by decide) (by decide) _ _
    (freshPool_fits (by decide) (by decide))

end Dpdk

end Dwd
