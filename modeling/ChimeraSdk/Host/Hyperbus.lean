import ChimeraSdk.Framework.RegFile

/-! # The HyperBus Configuration

    `hyperram_cfg_write` and `hyperram_cfg_read` list the registers of the
    peripheral independently of each other.  The timing registers keep the
    bits of their masks; the address window of a chip is kept as its start
    and its end, but is given by its start and its size. -/

namespace Hyperbus

/-! ## Section 1: Registers -/

def HYPERBUS_NUM_CHIPS : Nat := 2
def HYPERBUS_PARAM_NUM_BASE_REGS : Nat := 11

def HYPERBUS_T_LATENCY_ACCESS_REG_OFFSET : Nat := 0x0
def HYPERBUS_EN_LATENCY_ADDITIONAL_REG_OFFSET : Nat := 0x4
def HYPERBUS_T_BURST_MAX_REG_OFFSET : Nat := 0x8
def HYPERBUS_T_READ_WRITE_RECOVERY_REG_OFFSET : Nat := 0xc
def HYPERBUS_T_RX_CLK_DELAY_REG_OFFSET : Nat := 0x10
def HYPERBUS_T_TX_CLK_DELAY_REG_OFFSET : Nat := 0x14
def HYPERBUS_ADDRESS_MASK_MSB_REG_OFFSET : Nat := 0x18
def HYPERBUS_ADDRESS_SPACE_REG_OFFSET : Nat := 0x1c
def HYPERBUS_PHYS_IN_USE_REG_OFFSET : Nat := 0x20
def HYPERBUS_WHICH_PHY_REG_OFFSET : Nat := 0x24
def HYPERBUS_T_CSH_CYCLES_REG_OFFSET : Nat := 0x28

def HYPERBUS_T_LATENCY_ACCESS_MASK : BitVec 32 := 0x0000000f
def HYPERBUS_EN_LATENCY_ADDITIONAL_MASK : BitVec 32 := 0x00000001
def HYPERBUS_T_BURST_MAX_MASK : BitVec 32 := 0x0000ffff
def HYPERBUS_T_READ_WRITE_RECOVERY_MASK : BitVec 32 := 0x0000000f
def HYPERBUS_T_RX_CLK_DELAY_MASK : BitVec 32 := 0x0000000f
def HYPERBUS_T_TX_CLK_DELAY_MASK : BitVec 32 := 0x0000000f
def HYPERBUS_ADDRESS_MASK_MSB_MASK : BitVec 32 := 0x0000001f
def HYPERBUS_ADDRESS_SPACE_MASK : BitVec 32 := 0x00000001
def HYPERBUS_PHYS_IN_USE_MASK : BitVec 32 := 0x00000001
def HYPERBUS_WHICH_PHY_MASK : BitVec 32 := 0x00000001
def HYPERBUS_T_CSH_CYCLES_MASK : BitVec 32 := 0x0000000f
def HYPERBUS_CHIP_RANGE_ADDR_MASK : BitVec 32 := 0xffffffff

def HYPERBUS_CHIP_RANGE_BASE_OFFSET : Nat := HYPERBUS_PARAM_NUM_BASE_REGS * 4
def HYPERBUS_CHIP_RANGE_STRIDE_BYTES : Nat := 8

def HYPERBUS_CHIP_START_REG_OFFSET (chip : Nat) : Nat :=
  HYPERBUS_CHIP_RANGE_BASE_OFFSET + chip * HYPERBUS_CHIP_RANGE_STRIDE_BYTES + 0

def HYPERBUS_CHIP_END_REG_OFFSET (chip : Nat) : Nat :=
  HYPERBUS_CHIP_RANGE_BASE_OFFSET + chip * HYPERBUS_CHIP_RANGE_STRIDE_BYTES + 4

/-- The bits a register keeps, by its offset.  Everything else is ordinary
    memory. -/
def registerMask (offset : Nat) : BitVec 32 :=
  if offset = HYPERBUS_T_LATENCY_ACCESS_REG_OFFSET then HYPERBUS_T_LATENCY_ACCESS_MASK
  else if offset = HYPERBUS_EN_LATENCY_ADDITIONAL_REG_OFFSET then
    HYPERBUS_EN_LATENCY_ADDITIONAL_MASK
  else if offset = HYPERBUS_T_BURST_MAX_REG_OFFSET then HYPERBUS_T_BURST_MAX_MASK
  else if offset = HYPERBUS_T_READ_WRITE_RECOVERY_REG_OFFSET then
    HYPERBUS_T_READ_WRITE_RECOVERY_MASK
  else if offset = HYPERBUS_T_RX_CLK_DELAY_REG_OFFSET then HYPERBUS_T_RX_CLK_DELAY_MASK
  else if offset = HYPERBUS_T_TX_CLK_DELAY_REG_OFFSET then HYPERBUS_T_TX_CLK_DELAY_MASK
  else if offset = HYPERBUS_ADDRESS_MASK_MSB_REG_OFFSET then HYPERBUS_ADDRESS_MASK_MSB_MASK
  else if offset = HYPERBUS_ADDRESS_SPACE_REG_OFFSET then HYPERBUS_ADDRESS_SPACE_MASK
  else if offset = HYPERBUS_PHYS_IN_USE_REG_OFFSET then HYPERBUS_PHYS_IN_USE_MASK
  else if offset = HYPERBUS_WHICH_PHY_REG_OFFSET then HYPERBUS_WHICH_PHY_MASK
  else if offset = HYPERBUS_T_CSH_CYCLES_REG_OFFSET then HYPERBUS_T_CSH_CYCLES_MASK
  else HYPERBUS_CHIP_RANGE_ADDR_MASK

variable {w : Nat}

theorem mask_mask (mask v : BitVec 32) : v &&& mask &&& mask = v &&& mask := by
  rw [BitVec.and_assoc, BitVec.and_self]

/-- The words of the address space, with the peripheral at `base`; `w` is
    the width of a pointer. -/
def hyperbusLayout (base : BitVec w) : RegLayout (BitVec w) (BitVec 32) where
  keep a v := v &&& registerMask (a - base).toNat
  keep_keep _ v := mask_mask _ v

abbrev Regs (base : BitVec w) : Type := RegLog (hyperbusLayout base)

variable (base : BitVec w)

/-- `*reg32(base, offs)`, read and written. -/
def reg32 (offs : Nat) (regs : Regs base) : BitVec 32 := regs.file.get (base + BitVec.ofNat w offs)

def setReg32 (offs : Nat) (val : BitVec 32) (regs : Regs base) : Regs base :=
  regs.set (base + BitVec.ofNat w offs) val

def hyperbus_set_t_latency_access : BitVec 32 → Regs base → Regs base :=
  setReg32 base HYPERBUS_T_LATENCY_ACCESS_REG_OFFSET
def hyperbus_set_en_latency_additional : BitVec 32 → Regs base → Regs base :=
  setReg32 base HYPERBUS_EN_LATENCY_ADDITIONAL_REG_OFFSET
def hyperbus_set_t_burst_max : BitVec 32 → Regs base → Regs base :=
  setReg32 base HYPERBUS_T_BURST_MAX_REG_OFFSET
def hyperbus_set_t_read_write_recovery : BitVec 32 → Regs base → Regs base :=
  setReg32 base HYPERBUS_T_READ_WRITE_RECOVERY_REG_OFFSET
def hyperbus_set_t_rx_clk_delay : BitVec 32 → Regs base → Regs base :=
  setReg32 base HYPERBUS_T_RX_CLK_DELAY_REG_OFFSET
def hyperbus_set_t_tx_clk_delay : BitVec 32 → Regs base → Regs base :=
  setReg32 base HYPERBUS_T_TX_CLK_DELAY_REG_OFFSET
def hyperbus_set_address_mask_msb : BitVec 32 → Regs base → Regs base :=
  setReg32 base HYPERBUS_ADDRESS_MASK_MSB_REG_OFFSET
def hyperbus_set_address_space : BitVec 32 → Regs base → Regs base :=
  setReg32 base HYPERBUS_ADDRESS_SPACE_REG_OFFSET
def hyperbus_set_phys_in_use : BitVec 32 → Regs base → Regs base :=
  setReg32 base HYPERBUS_PHYS_IN_USE_REG_OFFSET
def hyperbus_set_which_phy : BitVec 32 → Regs base → Regs base :=
  setReg32 base HYPERBUS_WHICH_PHY_REG_OFFSET
def hyperbus_set_t_csh_cycles : BitVec 32 → Regs base → Regs base :=
  setReg32 base HYPERBUS_T_CSH_CYCLES_REG_OFFSET

def hyperbus_set_chip_start (chip : Nat) : BitVec 32 → Regs base → Regs base :=
  setReg32 base (HYPERBUS_CHIP_START_REG_OFFSET chip)
def hyperbus_get_chip_start (chip : Nat) : Regs base → BitVec 32 :=
  reg32 base (HYPERBUS_CHIP_START_REG_OFFSET chip)
def hyperbus_set_chip_end (chip : Nat) : BitVec 32 → Regs base → Regs base :=
  setReg32 base (HYPERBUS_CHIP_END_REG_OFFSET chip)
def hyperbus_get_chip_end (chip : Nat) : Regs base → BitVec 32 :=
  reg32 base (HYPERBUS_CHIP_END_REG_OFFSET chip)

/-! ## Section 2: The configuration -/

structure HyperramCfg where
  t_latency_access : BitVec 32
  en_latency_additional : BitVec 32
  t_burst_max : BitVec 32
  t_read_write_recovery : BitVec 32
  t_rx_clk_delay : BitVec 32
  t_tx_clk_delay : BitVec 32
  address_mask_msb : BitVec 32
  address_space : BitVec 32
  phys_in_use : BitVec 32
  which_phy : BitVec 32
  t_csh_cycles : BitVec 32
  chip_base : Fin HYPERBUS_NUM_CHIPS → BitVec 32
  chip_space : Fin HYPERBUS_NUM_CHIPS → BitVec 32

/-- The registers of the first part of `hyperram_cfg_write`. -/
def setBaseRegs (cfg : HyperramCfg) (regs : Regs base) : Regs base :=
  let regs := hyperbus_set_t_latency_access base cfg.t_latency_access regs
  let regs := hyperbus_set_en_latency_additional base cfg.en_latency_additional regs
  let regs := hyperbus_set_t_burst_max base cfg.t_burst_max regs
  let regs := hyperbus_set_t_read_write_recovery base cfg.t_read_write_recovery regs
  let regs := hyperbus_set_t_rx_clk_delay base cfg.t_rx_clk_delay regs
  let regs := hyperbus_set_t_tx_clk_delay base cfg.t_tx_clk_delay regs
  let regs := hyperbus_set_address_mask_msb base cfg.address_mask_msb regs
  let regs := hyperbus_set_address_space base cfg.address_space regs
  let regs := hyperbus_set_phys_in_use base cfg.phys_in_use regs
  let regs := hyperbus_set_which_phy base cfg.which_phy regs
  hyperbus_set_t_csh_cycles base cfg.t_csh_cycles regs

/-- One round of its loop over the chips. -/
def setChip (cfg : HyperramCfg) (regs : Regs base) (i : Fin HYPERBUS_NUM_CHIPS) : Regs base :=
  let start := cfg.chip_base i
  let end_ := cfg.chip_base i + cfg.chip_space i
  hyperbus_set_chip_end base i end_ (hyperbus_set_chip_start base i start regs)

/-- `hyperram_cfg_write`; a null pointer to a configuration is `none`. -/
def hyperram_cfg_write (cfg : Option HyperramCfg) (regs : Regs base) : BitVec 32 × Regs base :=
  match cfg with
  | none => (-1, regs)
  | some cfg =>
      if base = 0 then (-1, regs)
      else (0, (List.finRange HYPERBUS_NUM_CHIPS).foldl (setChip base cfg)
        (setBaseRegs base cfg regs))

def hyperram_cfg_read (regs : Regs base) : HyperramCfg where
  t_latency_access := reg32 base HYPERBUS_T_LATENCY_ACCESS_REG_OFFSET regs
  en_latency_additional := reg32 base HYPERBUS_EN_LATENCY_ADDITIONAL_REG_OFFSET regs
  t_burst_max := reg32 base HYPERBUS_T_BURST_MAX_REG_OFFSET regs
  t_read_write_recovery := reg32 base HYPERBUS_T_READ_WRITE_RECOVERY_REG_OFFSET regs
  t_rx_clk_delay := reg32 base HYPERBUS_T_RX_CLK_DELAY_REG_OFFSET regs
  t_tx_clk_delay := reg32 base HYPERBUS_T_TX_CLK_DELAY_REG_OFFSET regs
  address_mask_msb := reg32 base HYPERBUS_ADDRESS_MASK_MSB_REG_OFFSET regs
  address_space := reg32 base HYPERBUS_ADDRESS_SPACE_REG_OFFSET regs
  phys_in_use := reg32 base HYPERBUS_PHYS_IN_USE_REG_OFFSET regs
  which_phy := reg32 base HYPERBUS_WHICH_PHY_REG_OFFSET regs
  t_csh_cycles := reg32 base HYPERBUS_T_CSH_CYCLES_REG_OFFSET regs
  chip_base i := hyperbus_get_chip_start base i regs
  chip_space i := hyperbus_get_chip_end base i regs - hyperbus_get_chip_start base i regs

/-- The configuration as far as the registers can hold it. -/
def HyperramCfg.masked (cfg : HyperramCfg) : HyperramCfg where
  t_latency_access := cfg.t_latency_access &&& HYPERBUS_T_LATENCY_ACCESS_MASK
  en_latency_additional := cfg.en_latency_additional &&& HYPERBUS_EN_LATENCY_ADDITIONAL_MASK
  t_burst_max := cfg.t_burst_max &&& HYPERBUS_T_BURST_MAX_MASK
  t_read_write_recovery := cfg.t_read_write_recovery &&& HYPERBUS_T_READ_WRITE_RECOVERY_MASK
  t_rx_clk_delay := cfg.t_rx_clk_delay &&& HYPERBUS_T_RX_CLK_DELAY_MASK
  t_tx_clk_delay := cfg.t_tx_clk_delay &&& HYPERBUS_T_TX_CLK_DELAY_MASK
  address_mask_msb := cfg.address_mask_msb &&& HYPERBUS_ADDRESS_MASK_MSB_MASK
  address_space := cfg.address_space &&& HYPERBUS_ADDRESS_SPACE_MASK
  phys_in_use := cfg.phys_in_use &&& HYPERBUS_PHYS_IN_USE_MASK
  which_phy := cfg.which_phy &&& HYPERBUS_WHICH_PHY_MASK
  t_csh_cycles := cfg.t_csh_cycles &&& HYPERBUS_T_CSH_CYCLES_MASK
  chip_base := cfg.chip_base
  chip_space := cfg.chip_space

/-! ## Section 3: The writes of a configuration -/

/-- What is written, in order, by offset. -/
def cfgWrites (cfg : HyperramCfg) : List (Nat × BitVec 32) :=
  [ (HYPERBUS_T_LATENCY_ACCESS_REG_OFFSET, cfg.t_latency_access),
    (HYPERBUS_EN_LATENCY_ADDITIONAL_REG_OFFSET, cfg.en_latency_additional),
    (HYPERBUS_T_BURST_MAX_REG_OFFSET, cfg.t_burst_max),
    (HYPERBUS_T_READ_WRITE_RECOVERY_REG_OFFSET, cfg.t_read_write_recovery),
    (HYPERBUS_T_RX_CLK_DELAY_REG_OFFSET, cfg.t_rx_clk_delay),
    (HYPERBUS_T_TX_CLK_DELAY_REG_OFFSET, cfg.t_tx_clk_delay),
    (HYPERBUS_ADDRESS_MASK_MSB_REG_OFFSET, cfg.address_mask_msb),
    (HYPERBUS_ADDRESS_SPACE_REG_OFFSET, cfg.address_space),
    (HYPERBUS_PHYS_IN_USE_REG_OFFSET, cfg.phys_in_use),
    (HYPERBUS_WHICH_PHY_REG_OFFSET, cfg.which_phy),
    (HYPERBUS_T_CSH_CYCLES_REG_OFFSET, cfg.t_csh_cycles) ] ++
  (List.finRange HYPERBUS_NUM_CHIPS).flatMap fun i : Fin HYPERBUS_NUM_CHIPS =>
    [ (HYPERBUS_CHIP_START_REG_OFFSET i, cfg.chip_base i),
      (HYPERBUS_CHIP_END_REG_OFFSET i, cfg.chip_base i + cfg.chip_space i) ]

/-- The bytes of the configuration block. -/
def cfgBlockBytes : Nat := HYPERBUS_CHIP_START_REG_OFFSET HYPERBUS_NUM_CHIPS

/-- The offsets do not depend on the configuration. -/
theorem cfgWrites_offsets (cfg : HyperramCfg) : (cfgWrites cfg).map Prod.fst =
    [0x0, 0x4, 0x8, 0xc, 0x10, 0x14, 0x18, 0x1c, 0x20, 0x24, 0x28, 0x2c, 0x30, 0x34, 0x38] := rfl

theorem cfgWrites_inside {cfg : HyperramCfg} {off : Nat}
    (h : off ∈ (cfgWrites cfg).map Prod.fst) : off < cfgBlockBytes := by
  rw [cfgWrites_offsets] at h
  have hall : ∀ off ∈ [0x0, 0x4, 0x8, 0xc, 0x10, 0x14, 0x18, 0x1c, 0x20, 0x24, 0x28, 0x2c, 0x30,
      0x34, 0x38], off < cfgBlockBytes := by
    decide
  exact hall off h

/-- The writes as the bus sees them. -/
def busWrites (cfg : HyperramCfg) : List (BitVec w × BitVec 32) :=
  (cfgWrites cfg).map fun p => (base + BitVec.ofNat w p.1, p.2)

variable {base} {cfg : HyperramCfg} {regs : Regs base}

theorem hyperram_cfg_write_eq (hbase : base ≠ 0) :
    hyperram_cfg_write base (some cfg) regs = (0, regs.setAll (busWrites base cfg)) :=
  if_neg hbase

/-- Offsets in the block are told apart by their addresses. -/
theorem offset_toNat (hw : 6 ≤ w) {off : Nat} (hoff : off < cfgBlockBytes) :
    (base + BitVec.ofNat w off - base).toNat = off := by
  have hblock : cfgBlockBytes < 2 ^ 6 := by decide
  have hpow : 2 ^ 6 ≤ 2 ^ w := Nat.pow_le_pow_right (by decide) hw
  rw [BitVec.add_comm, BitVec.add_sub_cancel, BitVec.toNat_ofNat]
  exact Nat.mod_eq_of_lt (by omega)

theorem busWrites_addrs : (busWrites base cfg).map Prod.fst =
    ((cfgWrites cfg).map Prod.fst).map (fun off => base + BitVec.ofNat w off) := by
  rw [busWrites, List.map_map, List.map_map]
  rfl

theorem busWrites_nodup (hw : 6 ≤ w) : ((busWrites base cfg).map Prod.fst).Nodup := by
  rw [busWrites_addrs]
  apply List.Nodup.map_on
  · intro a ha b hb heq
    calc a = (base + BitVec.ofNat w a - base).toNat :=
          (offset_toNat hw (cfgWrites_inside ha)).symm
      _ = (base + BitVec.ofNat w b - base).toNat := by rw [heq]
      _ = b := offset_toNat hw (cfgWrites_inside hb)
  · rw [cfgWrites_offsets]
    decide

/-- A register of the block reads as its bits of what was written. -/
theorem reg32_written (hw : 6 ≤ w) {off : Nat} {v : BitVec 32} (hmem : (off, v) ∈ cfgWrites cfg) :
    reg32 base off (regs.setAll (busWrites base cfg)) = v &&& registerMask off := by
  have hoff : off < cfgBlockBytes := cfgWrites_inside (List.mem_map_of_mem hmem)
  have hbus : (base + BitVec.ofNat w off, v) ∈ busWrites base cfg :=
    List.mem_map.mpr ⟨(off, v), hmem, rfl⟩
  rw [reg32, RegLog.setAll_file, RegFile.get_setAll_of_mem (busWrites_nodup hw) hbus]
  show v &&& registerMask (base + BitVec.ofNat w off - base).toNat = _
  rw [offset_toNat hw hoff]

/-- Nothing is written outside the block. -/
theorem busWrites_inside (hw : 6 ≤ w) {a : BitVec w} {v : BitVec 32}
    (h : (a, v) ∈ busWrites base cfg) : (a - base).toNat < cfgBlockBytes := by
  have haddr : a ∈ (busWrites base cfg).map Prod.fst := List.mem_map_of_mem h
  rw [busWrites_addrs] at haddr
  obtain ⟨off, hoff, rfl⟩ := List.mem_map.mp haddr
  have hinside := cfgWrites_inside hoff
  rwa [offset_toNat hw hinside]

theorem get_outside (hw : 6 ≤ w) {a : BitVec w} (ha : cfgBlockBytes ≤ (a - base).toNat) :
    (regs.file.setAll (busWrites base cfg)).get a = regs.file.get a := by
  apply RegFile.get_setAll_of_not_mem
  intro hmem
  obtain ⟨⟨a', v⟩, hwrite, rfl⟩ := List.mem_map.mp hmem
  exact absurd (busWrites_inside hw hwrite) (Nat.not_lt.mpr ha)

/-! ## Section 4: The round trips -/

theorem mem_chip_start (i : Fin HYPERBUS_NUM_CHIPS) :
    (HYPERBUS_CHIP_START_REG_OFFSET i, cfg.chip_base i) ∈ cfgWrites cfg := by
  apply List.mem_append_right
  exact List.mem_flatMap.mpr ⟨i, List.mem_finRange i, by simp⟩

theorem mem_chip_end (i : Fin HYPERBUS_NUM_CHIPS) :
    (HYPERBUS_CHIP_END_REG_OFFSET i, cfg.chip_base i + cfg.chip_space i) ∈ cfgWrites cfg := by
  apply List.mem_append_right
  exact List.mem_flatMap.mpr ⟨i, List.mem_finRange i, by simp⟩

/-- The window registers keep all bits. -/
theorem registerMask_chip {off : Nat} (h : HYPERBUS_CHIP_RANGE_BASE_OFFSET ≤ off) (v : BitVec 32) :
    v &&& registerMask off = v := by
  have hne : ∀ o, o < HYPERBUS_CHIP_RANGE_BASE_OFFSET → off ≠ o := by
    intro o ho
    omega
  have hmask : registerMask off = BitVec.allOnes 32 := by
    unfold registerMask
    -- none of the timing registers
    iterate 11 rw [if_neg (hne _ (by decide))]
    rfl
  rw [hmask, BitVec.and_allOnes]

theorem chip_start_written (hw : 6 ≤ w) (i : Fin HYPERBUS_NUM_CHIPS) :
    hyperbus_get_chip_start base i (regs.setAll (busWrites base cfg)) = cfg.chip_base i := by
  rw [hyperbus_get_chip_start, reg32_written hw (mem_chip_start i)]
  apply registerMask_chip
  unfold HYPERBUS_CHIP_START_REG_OFFSET
  omega

theorem chip_end_written (hw : 6 ≤ w) (i : Fin HYPERBUS_NUM_CHIPS) :
    hyperbus_get_chip_end base i (regs.setAll (busWrites base cfg)) =
      cfg.chip_base i + cfg.chip_space i := by
  rw [hyperbus_get_chip_end, reg32_written hw (mem_chip_end i)]
  apply registerMask_chip
  unfold HYPERBUS_CHIP_END_REG_OFFSET
  omega

/-- The write number `k`, read back. -/
theorem write_read (hw : 6 ≤ w) (k : Nat) {off : Nat} {v : BitVec 32}
    (h : (cfgWrites cfg)[k]? = some (off, v)) :
    reg32 base off (regs.setAll (busWrites base cfg)) = v &&& registerMask off :=
  reg32_written hw (List.mem_of_getElem? h)

theorem read_written (hw : 6 ≤ w) :
    hyperram_cfg_read base (regs.setAll (busWrites base cfg)) = cfg.masked := by
  unfold hyperram_cfg_read HyperramCfg.masked
  simp only [HyperramCfg.mk.injEq]
  refine ⟨write_read hw 0 rfl, write_read hw 1 rfl, write_read hw 2 rfl, write_read hw 3 rfl,
    write_read hw 4 rfl, write_read hw 5 rfl, write_read hw 6 rfl, write_read hw 7 rfl,
    write_read hw 8 rfl, write_read hw 9 rfl, write_read hw 10 rfl, ?_, ?_⟩
  · funext i
    exact chip_start_written hw i
  · funext i
    rw [chip_end_written hw, chip_start_written hw, BitVec.add_comm, BitVec.add_sub_cancel]

/-- The writes of a configuration that has been read are the values of the
    registers. -/
theorem written_read :
    regs.file.setAll (busWrites base (hyperram_cfg_read base regs)) = regs.file := by
  apply RegFile.setAll_get
  intro p hp
  obtain ⟨⟨off, v⟩, hmem, rfl⟩ := List.mem_map.mp hp
  show reg32 base off regs = v
  rcases List.mem_append.mp hmem with hmem | hmem
  · simp only [List.mem_cons, List.not_mem_nil, or_false, Prod.mk.injEq] at hmem
    rcases hmem with ⟨rfl, rfl⟩ | ⟨rfl, rfl⟩ | ⟨rfl, rfl⟩ | ⟨rfl, rfl⟩ | ⟨rfl, rfl⟩ | ⟨rfl, rfl⟩ |
      ⟨rfl, rfl⟩ | ⟨rfl, rfl⟩ | ⟨rfl, rfl⟩ | ⟨rfl, rfl⟩ | ⟨rfl, rfl⟩ <;> rfl
  · obtain ⟨i, -, hi⟩ := List.mem_flatMap.mp hmem
    simp only [List.mem_cons, List.not_mem_nil, or_false, Prod.mk.injEq] at hi
    rcases hi with ⟨rfl, rfl⟩ | ⟨rfl, rfl⟩
    · rfl
    · -- the size that was read is added to the start it was read with
      show reg32 base _ regs = reg32 base _ regs + (reg32 base _ regs - reg32 base _ regs)
      rw [BitVec.add_comm, BitVec.sub_add_cancel]

/-- What a configuration that is written does to the registers.  Written are
    registers of the block alone. -/
structure RoundTrip (base : BitVec w) (cfg : HyperramCfg) (regs : Regs base) : Prop where
  returns : (hyperram_cfg_write base (some cfg) regs).1 = 0
  read : hyperram_cfg_read base (hyperram_cfg_write base (some cfg) regs).2 = cfg.masked
  writeBack : (hyperram_cfg_write base (some (hyperram_cfg_read base regs)) regs).2.file = regs.file
  writes : ∃ ws, (hyperram_cfg_write base (some cfg) regs).2.writes = regs.writes ++ ws ∧
    ∀ p ∈ ws, (p.1 - base).toNat < cfgBlockBytes
  frame : ∀ a : BitVec w, cfgBlockBytes ≤ (a - base).toNat →
    (hyperram_cfg_write base (some cfg) regs).2.file.get a = regs.file.get a

/-- **The configuration makes the round trip**, in both directions, and a
    null pointer changes nothing. -/
theorem hyperram_cfg_round_trip (hw : w = 32 ∨ w = 64) (base : BitVec w) (regs : Regs base) :
    (∀ cfg, base ≠ 0 → RoundTrip base cfg regs) ∧
    (∀ cfg, base = 0 ∨ cfg = none → hyperram_cfg_write base cfg regs = (-1, regs)) := by
  have hwide : 6 ≤ w := by omega
  constructor
  · intro cfg hbase
    constructor
    · rw [hyperram_cfg_write_eq hbase]
    · rw [hyperram_cfg_write_eq hbase]
      exact read_written hwide
    · rw [hyperram_cfg_write_eq hbase, RegLog.setAll_file]
      exact written_read
    · rw [hyperram_cfg_write_eq hbase]
      exact ⟨busWrites base cfg, regs.setAll_writes _, fun p hp => busWrites_inside hwide hp⟩
    · intro a ha
      rw [hyperram_cfg_write_eq hbase, RegLog.setAll_file]
      exact get_outside hwide ha
  · intro cfg hnull
    cases cfg with
    | none => rfl
    | some cfg =>
      rcases hnull with hbase | hcfg
      · exact if_pos hbase
      · cases hcfg

/-- A window that ends at the top of the address space. -/
def wrappingCfg : HyperramCfg where
  t_latency_access := 0x6
  en_latency_additional := 0x2
  t_burst_max := 0x1015e
  t_read_write_recovery := 0x6
  t_rx_clk_delay := 0x8
  t_tx_clk_delay := 0x8
  address_mask_msb := 25
  address_space := 0
  phys_in_use := 0
  which_phy := 0
  t_csh_cycles := 1
  chip_base _ := 0xf0000000
  chip_space _ := 0x20000000

/-- All registers zero. -/
def zeroRegs (base : BitVec w) : Regs base where
  file := { get := fun _ => 0, kept := fun _ => BitVec.zero_and }
  writes := []

theorem wrappingCfg_round_trip :
    hyperram_cfg_read (0x03009000#32)
      (hyperram_cfg_write (0x03009000#32) (some wrappingCfg) (zeroRegs (0x03009000#32))).2 =
      wrappingCfg.masked :=
  ((hyperram_cfg_round_trip (.inl rfl) (0x03009000#32) (zeroRegs (0x03009000#32))).1 wrappingCfg
    (by decide)).read

end Hyperbus
