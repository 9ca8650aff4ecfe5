import Mathlib.Data.List.Nodup

/-! The configuration of the DPDK engine, and the mask of its cores that the EAL is started with. The mask
has 128 bits, and a release build shifts by the last seven bits of a core's number: so the mask is that of
the configured cores exactly when all of their numbers are below 128. The constructor of a `CoreId`
asserts it, but a `CoreId` that is deserialized has not gone through the constructor. -/

namespace Dwd

namespace Dpdk

abbrev CoreId : Type := ℕ

abbrev PciDeviceName : Type := String

/-- `CoreMask`, an `u128`. -/
structure CoreMask where
  v : BitVec 128
  deriving DecidableEq

namespace CoreMask

def default : CoreMask := { v := 0 }

/-- `add`: the shift takes its distance modulo the width, as in a release build. -/
def add (mask : CoreMask) (id : CoreId) : CoreMask := { v := mask.v ||| 1#128 <<< (id % 128) }

/-- The bit of a core is set. -/
def Has (mask : CoreMask) (i : ℕ) : Prop := mask.v.getLsbD i = true

instance (mask : CoreMask) (i : ℕ) : Decidable (mask.Has i) := inferInstanceAs (Decidable (_ = true))

theorem not_has_default (i : ℕ) : ¬default.Has i := by
  rw [Has, default, BitVec.ofNat_eq_ofNat, BitVec.getLsbD_zero]
  exact Bool.false_ne_true

/-- Adding a core sets one bit, and leaves the others alone. -/
theorem has_add_iff (mask : CoreMask) (id i : ℕ) : (mask.add id).Has i ↔ mask.Has i ∨ id % 128 = i := by
  have hlt : id % 128 < 128 := Nat.mod_lt id (by decide)
  rw [Has, add, ← BitVec.twoPow_eq, BitVec.getLsbD_or, BitVec.getLsbD_twoPow, Bool.or_eq_true,
    Bool.and_eq_true, decide_eq_true_eq, decide_eq_true_eq, and_iff_right hlt, Has]

theorem has_foldl_iff (ids : List CoreId) (mask : CoreMask) (i : ℕ) :
    (ids.foldl add mask).Has i ↔ mask.Has i ∨ ∃ id ∈ ids, id % 128 = i := by
  induction ids generalizing mask with
  | nil => simp
  | cons id ids ih => rw [List.foldl_cons, ih, has_add_iff, or_assoc, List.exists_mem_cons_iff]

end CoreMask

structure PortConfig where
  cores : List CoreId

/-- The ports come in the order in which the hash map gives them, each name once. -/
structure Config where
  mainLcore : CoreId
  ports : List (PciDeviceName × PortConfig)
  nodup_ports : (ports.map Prod.fst).Nodup

namespace Config

def cores (cfg : Config) : List CoreId := cfg.ports.flatMap fun port => port.2.cores

def coresCount (cfg : Config) : ℕ := cfg.cores.dedup.length

def coreMask (cfg : Config) : CoreMask := cfg.cores.foldl CoreMask.add (CoreMask.default.add cfg.mainLcore)

/-- The lcores on which `rte_eal_mp_remote_launch` runs `run_worker`: those of the mask, without the main
one. -/
def launched (cfg : Config) : List CoreId :=
  (List.range 128).filter fun core => cfg.coreMask.Has core ∧ core ≠ cfg.mainLcore

/-- The cores of the configuration: the main one, and those of the ports. -/
def Names (cfg : Config) (id : CoreId) : Prop := id = cfg.mainLcore ∨ ∃ port ∈ cfg.ports, id ∈ port.2.cores

/-- The bits of the mask are those of the cores, and no core has another core's bit. -/
structure FaithfulMask (cfg : Config) : Prop where
  bits : ∀ i < 128, cfg.coreMask.Has i ↔ cfg.Names i
  own : ∀ id, cfg.Names id → ∀ i < 128, (CoreMask.default.add id).Has i ↔ i = id

theorem names_iff_mem_cores (cfg : Config) (id : CoreId) :
    cfg.Names id ↔ id = cfg.mainLcore ∨ id ∈ cfg.cores := by
  rw [Names, cores, List.mem_flatMap]

/-- The mask has the bits of the cores, taken modulo its width. -/
theorem has_coreMask_iff (cfg : Config) (i : ℕ) :
    cfg.coreMask.Has i ↔ ∃ id, cfg.Names id ∧ id % 128 = i := by
  rw [coreMask, CoreMask.has_foldl_iff, CoreMask.has_add_iff, or_iff_right (CoreMask.not_has_default i)]
  simp only [names_iff_mem_cores, or_and_right, exists_or, exists_eq_left]

theorem FaithfulMask.lt {cfg : Config} (h : cfg.FaithfulMask) {id : CoreId} (hid : cfg.Names id) : id < 128 := by
  have hlt : id % 128 < 128 := Nat.mod_lt id (by decide)
  have hset : (CoreMask.default.add id).Has (id % 128) := (CoreMask.has_add_iff _ _ _).mpr (Or.inr rfl)
  have heq := (h.own id hid (id % 128) hlt).mp hset
  rwa [← heq]

/-- The mask of a configuration is faithful exactly when the numbers of all its cores are below 128. -/
theorem core_mask_faithful_iff (cfg : Config) : cfg.FaithfulMask ↔ ∀ id, cfg.Names id → id < 128 := by
  refine ⟨fun h id hid => h.lt hid, fun h => ⟨fun i _ => ?_, fun id hid i _ => ?_⟩⟩
  · rw [has_coreMask_iff]
    constructor
    · rintro ⟨id, hid, rfl⟩
      rwa [Nat.mod_eq_of_lt (h id hid)]
    · intro hi
      exact ⟨i, hi, Nat.mod_eq_of_lt (h i hi)⟩
  · rw [CoreMask.has_add_iff, or_iff_right (CoreMask.not_has_default i), Nat.mod_eq_of_lt (h id hid)]
    exact eq_comm

/-- The main core 1, and the core 130 for a port. -/
def core130 : Config where
  mainLcore := 1
  ports := [("0000:01:00.0", { cores := [130] })]
  nodup_ports := List.nodup_singleton _

/-- The mask of the cores 1 and 130 is that of 1 and 2. -/
theorem core_130_takes_bit_2 :
    core130.coreMask.v = 6 ∧ core130.coreMask.Has 2 ∧ ¬core130.Names 2 ∧ core130.Names 130 ∧
      ¬core130.FaithfulMask := by
  have hnames : core130.Names 130 := (names_iff_mem_cores _ _).mpr (Or.inr (by decide))
  have hmask : core130.coreMask.v = 6 := by decide
  refine ⟨hmask, by decide, ?_, hnames, fun h => absurd (h.lt hnames) (by decide)⟩
  rw [names_iff_mem_cores]
  decide

theorem mem_launched_iff (cfg : Config) (core : CoreId) :
    core ∈ cfg.launched ↔ core ≠ cfg.mainLcore ∧ ∃ id, cfg.Names id ∧ id % 128 = core := by
  rw [launched, List.mem_filter, List.mem_range, decide_eq_true_eq, has_coreMask_iff, and_comm (b := core ≠ _)]
  constructor
  · rintro ⟨-, h⟩
    exact h
  · rintro ⟨hmain, id, hid, rfl⟩
    exact ⟨Nat.mod_lt id (by decide), hmain, id, hid, rfl⟩

/-- A faithful mask launches the workers on the cores of the ports, but not on the main one. -/
theorem FaithfulMask.mem_launched_iff {cfg : Config} (h : cfg.FaithfulMask) (core : CoreId) :
    core ∈ cfg.launched ↔ core ≠ cfg.mainLcore ∧ core ∈ cfg.cores := by
  rw [Config.mem_launched_iff]
  refine and_congr_right fun hmain => ?_
  constructor
  · rintro ⟨id, hid, rfl⟩
    rw [Nat.mod_eq_of_lt (h.lt hid)] at hmain ⊢
    exact ((names_iff_mem_cores cfg id).mp hid).resolve_left hmain
  · intro hcore
    have hid : cfg.Names core := (names_iff_mem_cores cfg core).mpr (Or.inr hcore)
    exact ⟨core, hid, Nat.mod_eq_of_lt (h.lt hid)⟩

end Config

end Dpdk

end Dwd
