import ChimeraSdk.Framework.LinkerScript
import ChimeraSdk.Target.SocAddrMap

/-! # The Linker Scripts of the Targets

    `link.ld.in` of the Snitch devices and of the host, for the two
    targets with clusters.  The device script ends with `__device_end`,
    which the build exports to the next binary of the placement chain;
    `.reserved` of the next binary moves the location counter there.

    Two properties are settled here: where a chain of binaries keeps its
    binaries apart, and where the thread-local storage that `snrt_init`
    fills stays inside what `trampoline` has reserved for it. -/

open LinkerScript Align Soc

namespace LinkLd

/-! ## Section 1: The scripts -/

inductive Target where
  | chimeraConvolve
  | chimeraOpen
  deriving DecidableEq, Repr

inductive SectionName where
  | common | reserved | init | text | rodata | data | got | dataRelRo | bss | tdata | tbss
  | cdata | cbss
  | l1Cls (c : ClusterId)
  | l1 (c : ClusterId)
  | misc | bulk | l2Heap
  deriving DecidableEq, Repr

/-- `start n` and `stop n` are `__<n>_start` and `__<n>_end`. -/
inductive Symbol where
  | start (n : SectionName)
  | stop (n : SectionName)
  | heapStart (c : ClusterId)
  | deviceEnd
  deriving DecidableEq, Repr

inductive Mem where
  | l1Alias
  | l1 (c : ClusterId)
  | memisl
  deriving DecidableEq, Repr

/-- The `MEMORY` block of `common.ldh`. -/
def memory (t : Target) : Mem → Region
  | .l1Alias => { origin := 0x18000000, length := 128 * 1024 }
  | .l1 c => { origin := 0x40000000 + c * 0x200000, length := 128 * 1024 }
  | .memisl =>
      { origin := 0x48000000
        length := match t with
          | .chimeraConvolve => 256 * 1024
          | .chimeraOpen => 128 * 1024 }

abbrev Script : Type := List (OutputSection SectionName Mem Symbol)

/-- A section of memisl that gathers inputs and nothing else. -/
def gathered (n : SectionName) (align : ℕ+) : OutputSection SectionName Mem Symbol where
  name := n
  align := align
  body := [.inputs]
  region := .memisl
  loadRegion := none

/-- A section padded to 32 bytes on both sides, between its two symbols. -/
def delimited (n : SectionName) (align : ℕ+) (region : Mem) (loadRegion : Option Mem) :
    OutputSection SectionName Mem Symbol where
  name := n
  align := align
  body := padded 32 (.start n) (.stop n)
  region := region
  loadRegion := loadRegion

/-- `.common`, the shared area at the start of memisl.  The host loads
    it there, the devices do not. -/
def common : OutputSection SectionName Mem Symbol where
  name := .common
  align := 64
  body := [.symbol (.start .common), .inputs, .align 64, .symbol (.stop .common)]
  region := .memisl
  loadRegion := none

/-- `@CHIMERA_RESERVED_SECTION@`: absent in the first binary of a chain,
    else a section that ends where the previous device ends. -/
def reservedSection : Option Nat → Script
  | none => []
  | some prevEnd => [{
      name := .reserved
      align := 0x1000
      body := [.moveTo prevEnd]
      region := .memisl
      loadRegion := none }]

/-- `.l1_cX_cls`, the room of the cluster-local storage in a cluster's L1. -/
def l1Cls (c : ClusterId) : OutputSection SectionName Mem Symbol where
  name := .l1Cls c
  align := 32
  body := [.skip [.cdata, .cbss]]
  region := .l1 c
  loadRegion := none

/-- `.l1_cX`, the data of one cluster's L1, loaded from memisl. -/
def l1 (c : ClusterId) : OutputSection SectionName Mem Symbol where
  name := .l1 c
  align := 32
  body := [.symbol (.start (.l1 c)), .inputs, .symbol (.stop (.l1 c)), .align 32,
    .symbol (.heapStart c)]
  region := .l1 c
  loadRegion := some .memisl

/-- The sections of a device between `.common` and the thread-local
    storage. -/
def deviceImage : Target → Script
  | .chimeraConvolve =>
      [gathered .init 0x1000, gathered .text 1, gathered .rodata 32, gathered .data 32,
        delimited .bss 1 .memisl none]
  | .chimeraOpen =>
      [gathered .init 0x1000, gathered .text 32, gathered .rodata 32, gathered .data 32,
        gathered .got 32, gathered .dataRelRo 32]

/-- The thread-local storage; chimera-open has `.bss` in the middle. -/
def deviceTls : Target → Script
  | .chimeraConvolve => [delimited .tdata 1 .memisl none, delimited .tbss 1 .memisl none]
  | .chimeraOpen =>
      [delimited .tdata 32 .memisl none, delimited .bss 32 .memisl none,
        delimited .tbss 32 .memisl none]

/-- chimera-open also gives its padded sections the attribute
    `ALIGN(32)`, chimera-convolve does not. -/
def paddedAlign : Target → ℕ+
  | .chimeraConvolve => 1
  | .chimeraOpen => 32

/-- The cluster-local storage, at the L1 alias and loaded from memisl. -/
def deviceCls (t : Target) : Script :=
  [delimited .cdata (paddedAlign t) .l1Alias (some .memisl),
    delimited .cbss (paddedAlign t) .l1Alias (some .memisl)]

def deviceL1 : Script :=
  (List.finRange NUM_CLUSTERS).map l1Cls ++ (List.finRange NUM_CLUSTERS).map l1

/-- `devices/snitch_cluster/link.ld.in`. -/
def deviceScript (t : Target) (prevEnd : Option Nat) : Script :=
  common :: reservedSection prevEnd ++ deviceImage t ++ deviceTls t ++ deviceCls t ++ deviceL1

/-- `host/link.ld.in`. -/
def hostScript (t : Target) (prevEnd : Option Nat) : Script :=
  common :: reservedSection prevEnd ++
    [gathered .text 0x1000, gathered .misc 32, delimited .bss (paddedAlign t) .memisl none,
      delimited .tdata (paddedAlign t) .memisl none,
      delimited .tbss (paddedAlign t) .memisl none, gathered .bulk 32,
      { name := .l2Heap, align := 32, body := [.symbol (.start .l2Heap)], region := .memisl,
        loadRegion := none }]

/-! ## Section 2: Linking a chain of binaries -/

abbrev Image : Type := Layout SectionName Mem Symbol

/-- The inputs of one binary.  Alignments are powers of two.  `first`
    holds the startup code, so it is not empty; it needs no more than the
    4 KiB that the script aligns it to. -/
structure Binary (first : SectionName) extends Inputs SectionName where
  align_pow : ∀ n, ∃ k : Nat, (align n : Nat) = 2 ^ k
  first_pos : 0 < size first
  first_align : (align first : Nat) ≤ 0x1000

/-- A device starts in `.init` and the host in `.text`. -/
abbrev Device : Type := Binary .init
abbrev Host : Type := Binary .text

/-- `__<n>_lma_end`. -/
def lmaEnd (L : Image) (n : SectionName) : Nat := L.loadAddr n + L.sizeOf n

/-- The last line of the device script,
    `__device_end = MAX(__tbss_end, MAX(__cdata_lma_end, __cbss_lma_end));`.
    A symbol that is not defined fails the link. -/
def assignDeviceEnd (L : Image) : Option Image :=
  (L.symbols.lookup (.stop .tbss)).map fun tbssEnd =>
    { L with symbols := L.symbols ++
        [(.deviceEnd, max tbssEnd (max (lmaEnd L .cdata) (lmaEnd L .cbss)))] }

def linkDevice (t : Target) (prevEnd : Option Nat) (d : Device) : Option Image :=
  (layout (memory t) d.toInputs (deviceScript t prevEnd) (Layout.start (memory t))).bind
    assignDeviceEnd

def linkHost (t : Target) (prevEnd : Option Nat) (h : Host) : Option Image :=
  layout (memory t) h.toInputs (hostScript t prevEnd) (Layout.start (memory t))

/-- `nm` lists the symbols; the value of `__device_end` becomes
    `__<target>_end` of the placement header.  Without it the build ends
    with `FATAL_ERROR`. -/
def chimera_generate_placement (L : Image) : Option Nat := L.symbols.lookup .deviceEnd

/-- `add_device_binary` with `PREV_DEVICE` for every device but the
    first, then `add_host_binary` with `LAST_DEVICE`. -/
def chain (t : Target) : Option Nat → List Device → Host → Option (List Image)
  | prevEnd, [], h => (linkHost t prevEnd h).map (fun L => [L])
  | prevEnd, d :: ds, h =>
      (linkDevice t prevEnd d).bind fun L =>
      (chimera_generate_placement L).bind fun deviceEnd =>
      (chain t (some deviceEnd) ds h).map (L :: ·)

/-- The first section after `.reserved`. -/
def firstAfterReserved (L : Image) : Option (Placed SectionName Mem) :=
  (L.placed.dropWhile (fun p => p.name ≠ .reserved)).tail.head?

/-- A device is kept apart from the next binary: all it occupies of
    memisl lies below the first section after `.reserved` there, which
    starts at the first 4 KiB boundary from `__device_end` on. -/
def Apart (L L' : Image) : Prop :=
  ∃ p deviceEnd, firstAfterReserved L' = some p ∧ chimera_generate_placement L = some deviceEnd ∧
    p.vma = alignUp deviceEnd 0x1000 ∧
    ∀ q ∈ L.placed, ∀ addr, q.Occupies .memisl addr → addr < p.vma

/-- Every non-empty `.l1_cX` is loaded inside the page in which the load
    range of `.cbss` ends. -/
def L1ImagesFit (d : Device) : Prop :=
  ∀ c, 0 < d.size (.l1 c) →
    d.load (.l1 c) + alignUp (d.size (.l1 c)) 32 ≤
      alignUp (d.load .cbss + alignUp (d.size .cbss) 32) 0x1000

/-- The symbols of the thread-local storage. -/
structure TlsSymbols where
  tdataStart : Nat
  tdataEnd : Nat
  tbssStart : Nat
  tbssEnd : Nat
  deriving DecidableEq, Repr

def tlsSymbols (L : Image) : Option TlsSymbols := do
  let tdataStart ← L.symbols.lookup (.start .tdata)
  let tdataEnd ← L.symbols.lookup (.stop .tdata)
  let tbssStart ← L.symbols.lookup (.start .tbss)
  let tbssEnd ← L.symbols.lookup (.stop .tbss)
  return ⟨tdataStart, tdataEnd, tbssStart, tbssEnd⟩

/-! ## Section 3: The stages of a link -/

section stages
variable {t : Target} {prevEnd : Option Nat} {first : SectionName} {b : Binary first}

/-- A power of two divides 32 or is a multiple of it. -/
theorem pow_two_cases (k : Nat) : 2 ^ k ∣ 32 ∨ 32 ∣ 2 ^ k := by
  rcases Nat.le_total k 5 with h | h
  · exact .inl (Nat.pow_dvd_pow 2 h)
  · exact .inr (Nat.pow_dvd_pow 2 h)

/-- From a multiple of 32 a section starts at a multiple of 32. -/
theorem alignUp_mod_32 {x k : Nat} (hx : x % 32 = 0) : alignUp x (2 ^ k) % 32 = 0 := by
  rcases pow_two_cases k with h | h
  · have hmod : x % 2 ^ k = 0 :=
      Nat.mod_eq_zero_of_dvd (h.trans (Nat.dvd_of_mod_eq_zero hx))
    rw [alignUp_of_mod (Nat.two_pow_pos k) hmod, hx]
  · exact Nat.mod_eq_zero_of_dvd (h.trans (Nat.dvd_of_mod_eq_zero (alignUp_mod _ _)))

theorem Binary.alignment_pow (b : Binary first) (sec : OutputSection SectionName Mem Symbol)
    (hsec : ∃ k : Nat, (sec.align : Nat) = 2 ^ k) :
    ∃ k : Nat, (sec.alignment b.toInputs : Nat) = 2 ^ k := by
  obtain ⟨i, hi⟩ := hsec
  obtain ⟨j, hj⟩ := b.align_pow sec.name
  rcases sec.alignment_cases b.toInputs with h | h
  · exact ⟨i, by rw [h, hi]⟩
  · exact ⟨j, by rw [h, hj]⟩

/-- Inputs that ask for 32 bytes at most divide 32. -/
theorem Binary.align_dvd (b : Binary first) {n : SectionName} (hn : b.align n ≤ 32) :
    (b.align n : Nat) ∣ 32 := by
  obtain ⟨k, hk⟩ := b.align_pow n
  have hle : (b.align n : Nat) ≤ 32 := PNat.coe_le_coe _ _ |>.mpr hn
  rw [hk] at hle ⊢
  rcases pow_two_cases k with hsmall | hlarge
  · exact hsmall
  · exact (Nat.le_antisymm hle (Nat.le_of_dvd (Nat.two_pow_pos k) hlarge)).dvd

/-- A section with the attribute `ALIGN(32)` is aligned to a multiple of
    32. -/
theorem Binary.dvd_alignment (b : Binary first) {sec : OutputSection SectionName Mem Symbol}
    (hattr : sec.align = 32) : 32 ∣ (sec.alignment b.toInputs : Nat) := by
  obtain ⟨k, hk⟩ := b.alignment_pow sec ⟨5, by rw [hattr]; rfl⟩
  have hle : sec.align ≤ sec.alignment b.toInputs := le_max_left _ _
  rw [hattr, ← PNat.coe_le_coe, hk] at hle
  rw [hk]
  rcases pow_two_cases k with hsmall | hlarge
  · exact (Nat.le_antisymm hle (Nat.le_of_dvd (by decide) hsmall)).dvd
  · exact hlarge

/-- The link of a device, cut before and behind the thread-local and the
    cluster-local storage. -/
structure Stages (t : Target) (prevEnd : Option Nat) (d : Device) (L A B C D : Image) : Prop where
  image : layout (memory t) d.toInputs (common :: reservedSection prevEnd ++ deviceImage t)
    (Layout.start (memory t)) = some A
  tls : layout (memory t) d.toInputs (deviceTls t) A = some B
  cls : layout (memory t) d.toInputs (deviceCls t) B = some C
  l1Data : layout (memory t) d.toInputs deviceL1 C = some D
  last : assignDeviceEnd D = some L

theorem linkDevice_stages {d : Device} {L : Image} (h : linkDevice t prevEnd d = some L) :
    ∃ A B C D, Stages t prevEnd d L A B C D := by
  obtain ⟨D, hD, hlast⟩ := Option.bind_eq_some_iff.mp h
  rw [deviceScript, layout_append] at hD
  obtain ⟨C, hC, hl1⟩ := Option.bind_eq_some_iff.mp hD
  rw [layout_append] at hC
  obtain ⟨B, hB, hcls⟩ := Option.bind_eq_some_iff.mp hC
  rw [layout_append] at hB
  obtain ⟨A, hA, htls⟩ := Option.bind_eq_some_iff.mp hB
  exact ⟨A, B, C, D, hA, htls, hcls, hl1, hlast⟩

theorem paddedAlign_dvd (t : Target) : (paddedAlign t : Nat) ∣ 32 := by
  cases t <;> decide

/-- From a multiple of 32, the attribute of a section does not matter beside
    the alignment of its inputs. -/
theorem Binary.alignUp_alignment (b : Binary first) {sec : OutputSection SectionName Mem Symbol}
    (hattr : (sec.align : Nat) ∣ 32) {x : Nat} (hx : x % 32 = 0) :
    alignUp x (sec.alignment b.toInputs) = alignUp x (b.align sec.name) := by
  have hdown : ∀ a : ℕ+, (a : Nat) ∣ 32 → alignUp x a = x := fun a ha =>
    alignUp_of_mod a.pos (Nat.mod_eq_zero_of_dvd (ha.trans (Nat.dvd_of_mod_eq_zero hx)))
  obtain ⟨k, hk⟩ := b.align_pow sec.name
  rcases pow_two_cases k with hsmall | hlarge
  · have hinput : (b.align sec.name : Nat) ∣ 32 := hk ▸ hsmall
    rcases sec.alignment_cases b.toInputs with h | h
    · rw [h, hdown _ hattr, hdown _ hinput]
    · rw [h]
  · have hle : sec.align ≤ b.align sec.name := by
      rw [← PNat.coe_le_coe, hk]
      exact Nat.le_of_dvd (Nat.two_pow_pos k) (hattr.trans hlarge)
    rw [show sec.alignment b.toInputs = b.align sec.name from max_eq_right hle]

/-- A section of the cluster-local storage: at the next address that its
    inputs allow, rounded up to 32 bytes, and loaded behind what memisl
    holds so far. -/
theorem place_cls_at {d : Device} {K K' : Image} {n : SectionName} {align : ℕ+}
    (halign : (align : Nat) ∣ 32)
    (h : place (memory t) d.toInputs K (delimited n align .l1Alias (some .memisl)) = some K')
    (hcur : K.cursor .l1Alias % 32 = 0) :
    ∃ p : Placed SectionName Mem, K'.placed = K.placed ++ [p] ∧ p.name = n ∧
      p.vma = alignUp (K.cursor .l1Alias) (d.align n) ∧ p.vma % 32 = 0 ∧
      p.size = alignUp (d.size n) 32 ∧ p.load = some (.memisl, d.load n) ∧
      p.vma + p.size ≤ (memory t .l1Alias).limit ∧
      K'.symbols = K.symbols ++ [(.start n, p.vma), (.stop n, p.vma + p.size)] ∧
      K.cursor .memisl ≤ d.load n ∧ K'.cursor .memisl = d.load n + p.size ∧
      K'.cursor .l1Alias = p.vma + p.size := by
  obtain ⟨p, e, cur, hat, hplaced, hsym, hallot, hallotLoad⟩ := place_kept h (discarded_padded rfl)
  obtain ⟨hspan, hsymbols⟩ := hat.padded rfl
  have hvma : p.vma = alignUp (K.cursor .l1Alias) (d.align n) := by
    rw [hat.vma]
    exact d.alignUp_alignment halign hcur
  obtain ⟨k, hk⟩ := d.align_pow n
  have hmod : p.vma % 32 = 0 := by
    rw [hvma, hk]
    exact alignUp_mod_32 hcur
  -- the first padding of the body is empty
  have hstart : alignUp p.vma 32 = p.vma := alignUp_of_mod (by decide) hmod
  simp only [PNat.val_ofNat, hstart] at hspan hsymbols
  have hsize : p.size = alignUp (d.size n) 32 := Nat.add_left_cancel hspan
  obtain ⟨-, hlimit, hvmaCur⟩ := allot_eq hallot
  rcases allotLoad_cases hallotLoad with ⟨hnone, -⟩ | ⟨q, hq, hload⟩
  · cases hnone
  · cases hq
    obtain ⟨hlo, -, hcur'⟩ := allot_eq hload
    refine ⟨p, hplaced, hat.name, hvma, hmod, hsize, hat.load, hlimit, ?_, ?_, ?_, ?_⟩
    · rw [hsym, hsymbols]
    · have hne : Mem.memisl ≠ Mem.l1Alias := by decide
      have hkeep : cur .memisl = K.cursor .memisl := by
        rw [hvmaCur]
        exact Function.update_of_ne hne ..
      exact hkeep ▸ hlo
    · rw [hcur', Function.update_self]
      rfl
    · rw [hcur', Function.update_of_ne (by decide), hvmaCur]
      exact Function.update_self ..

/-- The end of the load range of `.cbss`. -/
def clsEnd (d : Device) : Nat := d.load .cbss + alignUp (d.size .cbss) 32

theorem layout_cls {d : Device} {B C : Image}
    (h : layout (memory t) d.toInputs (deviceCls t) B = some C)
    (hcur : B.cursor .l1Alias % 32 = 0) (hcdata : B.find .cdata = none)
    (hcbss : B.find .cbss = none) :
    B.cursor .memisl ≤ clsEnd d ∧ C.cursor .memisl = clsEnd d ∧
    ∃ p q, C.find .cdata = some p ∧ p.load = some (.memisl, d.load .cdata) ∧
      C.find .cbss = some q ∧ q.load = some (.memisl, d.load .cbss) ∧
      d.load .cdata + p.size ≤ clsEnd d ∧ d.load .cbss + q.size = clsEnd d := by
  have halign := paddedAlign_dvd t
  obtain ⟨K, hK, h⟩ := Option.bind_eq_some_iff.mp h
  obtain ⟨K', hK', h⟩ := Option.bind_eq_some_iff.mp h
  cases h
  obtain ⟨p, hp, hpname, -, hpmod, hpsize, hpload, -, -, hple, hpcur, hpend⟩ :=
    place_cls_at halign hK hcur
  have hmod : K.cursor .l1Alias % 32 = 0 := by
    have := alignUp_mod (d.size .cdata) 32
    omega
  -- `.cbss` finds the cursor where `.cdata` has left it
  obtain ⟨q, hq, hqname, -, -, hqsize, hqload, -, -, hqle, hqcur, -⟩ :=
    place_cls_at halign hK' hmod
  have hfind : K.find .cdata = some p := by
    rw [Layout.find_placed hp hcdata, if_pos hpname]
  have hend : d.load .cbss + q.size = clsEnd d := by rw [hqsize, clsEnd]
  refine ⟨by omega, by omega, p, q, (place_continues hK').find hfind, hpload, ?_, hqload,
    by omega, hend⟩
  rw [Layout.find_placed hq, if_pos hqname]
  rw [Layout.find_placed hp hcbss, hpname]
  exact if_neg (by decide)

/-- What lies between the two sections of the thread-local storage. -/
def tlsGap (t : Target) (d : Device) : Nat :=
  match t with
  | .chimeraConvolve => 0
  | .chimeraOpen => alignUp (d.size .bss) 32

/-- A padded section of memisl.  When all inputs are aligned to 32 bytes
    at most, one that follows another leaves no gap. -/
theorem place_delimited {K K' : Image} {n : SectionName} {align : ℕ+}
    (h : place (memory t) b.toInputs K (delimited n align .memisl none) = some K') :
    ∃ start, K'.symbols = K.symbols ++
        [(.start n, start), (.stop n, start + alignUp (b.size n) 32)] ∧
      K'.cursor .memisl = start + alignUp (b.size n) 32 ∧
      K'.cursor .memisl ≤ (memory t .memisl).limit ∧ start % 32 = 0 ∧
      (K.cursor .memisl % 32 = 0 → (align : Nat) ∣ 32 → (b.align n : Nat) ∣ 32 →
        start = K.cursor .memisl) := by
  obtain ⟨p, e, cur, hat, -, hsym, hallot, hallotLoad⟩ := place_kept h (discarded_padded rfl)
  obtain ⟨hspan, hsymbols⟩ := hat.padded rfl
  -- without a load region the cursor moves once
  rcases allotLoad_cases hallotLoad with ⟨-, hsame⟩ | ⟨q, hq, -⟩
  · obtain ⟨-, hlimit, hcur⟩ := allot_eq hallot
    have hmemisl : K'.cursor .memisl = p.vma + p.size := by
      rw [hsame, hcur]
      exact Function.update_self ..
    refine ⟨alignUp p.vma 32, ?_, ?_, ?_, alignUp_mod _ _, ?_⟩
    · rw [hsym, hsymbols, hspan]
      rfl
    · rw [hmemisl, hspan]
      rfl
    · rw [hmemisl]
      exact hlimit
    · intro hmod halign hinput
      -- the alignment is that of the script or that of an input
      have hdvd : ((delimited n align .memisl none).alignment b.toInputs : Nat) ∣ 32 := by
        rcases OutputSection.alignment_cases (delimited n align .memisl none) b.toInputs with
          heq | heq
        · rw [heq]
          exact halign
        · rw [heq]
          exact hinput
      have hvma : p.vma = K.cursor .memisl := by
        rw [hat.vma]
        exact alignUp_of_mod (PNat.pos _)
          (Nat.mod_eq_zero_of_dvd (hdvd.trans (Nat.dvd_of_mod_eq_zero hmod)))
      rw [hvma]
      exact alignUp_of_mod (by decide) hmod
  · cases hq

/-- The thread-local storage ends at the cursor of memisl. -/
theorem layout_tls {d : Device} {A B : Image}
    (h : layout (memory t) d.toInputs (deviceTls t) A = some B)
    (hfresh : ∀ n, n = .tdata ∨ n = .tbss →
      A.symbols.lookup (.start n) = none ∧ A.symbols.lookup (.stop n) = none) :
    ∃ y, tlsSymbols B = some y ∧
      y.tdataEnd = y.tdataStart + alignUp (d.size .tdata) 32 ∧
      y.tbssEnd = y.tbssStart + alignUp (d.size .tbss) 32 ∧
      y.tbssEnd = B.cursor .memisl ∧ y.tbssEnd ≤ (memory t .memisl).limit ∧
      ((∀ n, (d.align n : Nat) ∣ 32) → y.tbssStart = y.tdataEnd + tlsGap t d) := by
  have hT := alignUp_mod (d.size .tdata) 32
  have hB := alignUp_mod (d.size .bss) 32
  obtain ⟨hdata, hdata'⟩ := hfresh .tdata (.inl rfl)
  obtain ⟨hbss, hbss'⟩ := hfresh .tbss (.inr rfl)
  cases t with
  | chimeraConvolve =>
    obtain ⟨K, hK, h⟩ := Option.bind_eq_some_iff.mp h
    obtain ⟨K', hK', h⟩ := Option.bind_eq_some_iff.mp h
    cases h
    obtain ⟨s, hsym, hcur, -, hs, -⟩ := place_delimited hK
    obtain ⟨s', hsym', hcur', hlim, -, hadj⟩ := place_delimited hK'
    refine ⟨⟨s, s + alignUp (d.size .tdata) 32, s', s' + alignUp (d.size .tbss) 32⟩, ?_, rfl, rfl,
      hcur'.symm, hcur' ▸ hlim, ?_⟩
    · simp only [tlsSymbols, hsym', hsym, List.lookup_append, hdata, hdata', hbss, hbss']
      rfl
    · intro h32
      have := hadj (by omega) (by decide) (h32 .tbss)
      simp only [tlsGap]
      omega
  | chimeraOpen =>
    -- here `.bss` stands between the two
    obtain ⟨K, hK, h⟩ := Option.bind_eq_some_iff.mp h
    obtain ⟨K₁, hK₁, h⟩ := Option.bind_eq_some_iff.mp h
    obtain ⟨K', hK', h⟩ := Option.bind_eq_some_iff.mp h
    cases h
    obtain ⟨s, hsym, hcur, -, hs, -⟩ := place_delimited hK
    obtain ⟨s₁, hsym₁, hcur₁, -, hs₁, hadj₁⟩ := place_delimited hK₁
    obtain ⟨s', hsym', hcur', hlim, -, hadj⟩ := place_delimited hK'
    refine ⟨⟨s, s + alignUp (d.size .tdata) 32, s', s' + alignUp (d.size .tbss) 32⟩, ?_, rfl, rfl,
      hcur'.symm, hcur' ▸ hlim, ?_⟩
    · simp only [tlsSymbols, hsym', hsym₁, hsym, List.lookup_append, hdata, hdata', hbss, hbss']
      rfl
    · intro h32
      have := hadj₁ (by omega) (by decide) (h32 .bss)
      have := hadj (by omega) (by decide) (h32 .tbss)
      simp only [tlsGap]
      omega

theorem tlsSymbols_eq {L : Image} {y : TlsSymbols} :
    tlsSymbols L = some y ↔
      L.symbols.lookup (.start .tdata) = some y.tdataStart ∧
      L.symbols.lookup (.stop .tdata) = some y.tdataEnd ∧
      L.symbols.lookup (.start .tbss) = some y.tbssStart ∧
      L.symbols.lookup (.stop .tbss) = some y.tbssEnd := by
  constructor
  · intro h
    obtain ⟨a, ha, h⟩ := Option.bind_eq_some_iff.mp h
    obtain ⟨b, hb, h⟩ := Option.bind_eq_some_iff.mp h
    obtain ⟨c, hc, h⟩ := Option.bind_eq_some_iff.mp h
    obtain ⟨e, he, h⟩ := Option.bind_eq_some_iff.mp h
    cases h
    exact ⟨ha, hb, hc, he⟩
  · rintro ⟨ha, hb, hc, he⟩
    simp [tlsSymbols, ha, hb, hc, he]

theorem tlsSymbols_continues {L L' : Image} {y : TlsSymbols} (hc : Continues L L')
    (h : tlsSymbols L = some y) : tlsSymbols L' = some y := by
  rw [tlsSymbols_eq] at h ⊢
  exact ⟨hc.lookup h.1, hc.lookup h.2.1, hc.lookup h.2.2.1, hc.lookup h.2.2.2⟩

theorem mem_deviceL1 {sec : OutputSection SectionName Mem Symbol} :
    sec ∈ deviceL1 ↔ (∃ c, sec = l1Cls c) ∨ ∃ c, sec = l1 c := by
  simp [deviceL1, eq_comm]

/-- `.l1_cX` is rounded up to 32 bytes in its cluster's L1. -/
theorem placedAs_l1 {d : Device} {K : Image} {c : ClusterId} {p : Placed SectionName Mem}
    {e : Dot Symbol} (h : PlacedAs d.toInputs K (l1 c) p e) :
    p.region = .l1 c ∧ p.load = some (.memisl, d.load (.l1 c)) ∧
      p.size = alignUp (d.size (.l1 c)) 32 := by
  have hvma : p.vma % 32 = 0 := by
    rw [h.vma]
    exact Nat.mod_eq_zero_of_dvd
      ((d.dvd_alignment rfl).trans (Nat.dvd_of_mod_eq_zero (alignUp_mod _ _)))
  refine ⟨h.region, h.load, ?_⟩
  have hrun := h.body
  have hstop := h.stop
  simp only [l1, runBody, runCommand, Option.bind_some, Option.some.injEq, PNat.val_ofNat,
    alignUp_add hvma] at hrun
  subst hrun
  exact (Nat.add_left_cancel hstop).symm

/-- `__device_end` in terms of the symbols it is the maximum of. -/
theorem assignDeviceEnd_eq {D L : Image} (h : assignDeviceEnd D = some L) :
    ∃ tbssEnd, D.symbols.lookup (.stop .tbss) = some tbssEnd ∧
      L.placed = D.placed ∧ L.cursor = D.cursor ∧
      L.symbols = D.symbols ++
        [(.deviceEnd, max tbssEnd (max (lmaEnd D .cdata) (lmaEnd D .cbss)))] := by
  obtain ⟨tbssEnd, htbss, rfl⟩ := Option.map_eq_some_iff.mp h
  exact ⟨tbssEnd, htbss, rfl, rfl, rfl⟩

end stages

namespace Stages

variable {t : Target} {prevEnd : Option Nat} {d : Device} {L A B C D : Image}

/-- Up to the cluster-local storage everything is in memisl. -/
theorem section_mem {sec : OutputSection SectionName Mem Symbol}
    (hsec : sec ∈ common :: reservedSection prevEnd ++ deviceImage t ++ deviceTls t) :
    sec.region = .memisl ∧ sec.loadRegion = none ∧ sec.name ≠ .cdata ∧ sec.name ≠ .cbss := by
  have hall : (common :: reservedSection prevEnd ++ deviceImage t ++ deviceTls t).all (fun sec =>
      decide (sec.region = .memisl ∧ sec.loadRegion = none ∧ sec.name ≠ .cdata ∧
        sec.name ≠ .cbss)) = true := by
    cases t <;> cases prevEnd <;> rfl
  exact of_decide_eq_true (List.all_eq_true.mp hall sec hsec)

theorem upToTls (h : Stages t prevEnd d L A B C D) :
    layout (memory t) d.toInputs (common :: reservedSection prevEnd ++ deviceImage t ++ deviceTls t)
      (Layout.start (memory t)) = some B := by
  rw [layout_append, h.image, Option.bind_some, h.tls]

theorem script (h : Stages t prevEnd d L A B C D) :
    layout (memory t) d.toInputs (deviceScript t prevEnd) (Layout.start (memory t)) = some D := by
  rw [deviceScript, layout_append, layout_append, h.upToTls, Option.bind_some, h.cls,
    Option.bind_some, h.l1Data]

theorem l1Alias_start (h : Stages t prevEnd d L A B C D) : B.cursor .l1Alias = 0x18000000 := by
  rw [layout_frame h.upToTls]
  · rfl
  · intro sec hsec
    obtain ⟨hregion, hload, -⟩ := section_mem hsec
    rw [hregion, hload]
    exact ⟨by decide, by decide⟩

theorem l1Alias_mod (h : Stages t prevEnd d L A B C D) : B.cursor .l1Alias % 32 = 0 := by
  rw [h.l1Alias_start]

theorem find_cls (h : Stages t prevEnd d L A B C D) {n : SectionName}
    (hn : n = .cdata ∨ n = .cbss) : B.find n = none := by
  unfold Layout.find
  rw [List.find?_eq_none]
  intro p hp
  rcases layout_mem_placed h.upToTls p hp with hp | ⟨sec, hsec, K, e, hat⟩
  · cases hp
  · obtain ⟨-, -, hcdata, hcbss⟩ := section_mem hsec
    rw [hat.name, decide_eq_true_eq]
    rcases hn with rfl | rfl
    · exact hcdata
    · exact hcbss

/-- Before the thread-local storage its symbols are undefined. -/
theorem tls_fresh (h : Stages t prevEnd d L A B C D) (n : SectionName)
    (hn : n = .tdata ∨ n = .tbss) :
    A.symbols.lookup (.start n) = none ∧ A.symbols.lookup (.stop n) = none := by
  have hsymbols : (common :: reservedSection prevEnd ++ deviceImage t).flatMap
      OutputSection.symbols = (common :: deviceImage t).flatMap OutputSection.symbols := by
    cases prevEnd <;> rfl
  constructor
  · refine layout_lookup_none h.image rfl ?_
    rw [hsymbols]
    rcases hn with rfl | rfl <;> cases t <;> decide
  · refine layout_lookup_none h.image rfl ?_
    rw [hsymbols]
    rcases hn with rfl | rfl <;> cases t <;> decide

theorem deviceEnd_fresh (h : Stages t prevEnd d L A B C D) :
    D.symbols.lookup .deviceEnd = none := by
  have hsymbols : (deviceScript t prevEnd).flatMap OutputSection.symbols =
      (deviceScript t none).flatMap OutputSection.symbols := by
    cases prevEnd <;> rfl
  refine layout_lookup_none h.script rfl ?_
  rw [hsymbols]
  cases t <;> decide

/-- The sections and symbols of the image are those of its script. -/
theorem continues (h : Stages t prevEnd d L A B C D) : Continues B D ∧ Continues D L := by
  refine ⟨(layout_continues h.cls).trans (layout_continues h.l1Data), ?_⟩
  obtain ⟨_, -, hplaced, hcur, hsym⟩ := assignDeviceEnd_eq h.last
  exact ⟨⟨[], by simp [hplaced]⟩, ⟨_, hsym⟩, fun q => by rw [hcur]⟩

/-- The thread-local storage of the image. -/
theorem tls_spec (h : Stages t prevEnd d L A B C D) :
    ∃ y, tlsSymbols L = some y ∧
      y.tdataEnd = y.tdataStart + alignUp (d.size .tdata) 32 ∧
      y.tbssEnd = y.tbssStart + alignUp (d.size .tbss) 32 ∧
      y.tbssEnd = B.cursor .memisl ∧ y.tbssEnd ≤ (memory t .memisl).limit ∧
      ((∀ n, (d.align n : Nat) ∣ 32) → y.tbssStart = y.tdataEnd + tlsGap t d) := by
  obtain ⟨y, hy, hrest⟩ := layout_tls h.tls h.tls_fresh
  obtain ⟨hBD, hDL⟩ := h.continues
  exact ⟨y, tlsSymbols_continues (hBD.trans hDL) hy, hrest⟩

/-- `__device_end` is the end of the load range of `.cbss`. -/
theorem deviceEnd (h : Stages t prevEnd d L A B C D) :
    chimera_generate_placement L = some (clsEnd d) ∧ C.cursor .memisl = clsEnd d := by
  obtain ⟨y, hy, -, -, hyend, -⟩ := layout_tls h.tls h.tls_fresh
  obtain ⟨hle, hcur, p, q, hp, hpload, hq, hqload, hpend, hqend⟩ :=
    layout_cls h.cls h.l1Alias_mod (h.find_cls (.inl rfl)) (h.find_cls (.inr rfl))
  obtain ⟨tbssEnd, htbss, -, -, hsym⟩ := assignDeviceEnd_eq h.last
  have hCD := layout_continues h.l1Data
  have hcdata : lmaEnd D .cdata = d.load .cdata + p.size := by
    simp [lmaEnd, Layout.loadAddr, Layout.sizeOf, hCD.find hp, hpload]
  have hcbss : lmaEnd D .cbss = clsEnd d := by
    simp [lmaEnd, Layout.loadAddr, Layout.sizeOf, hCD.find hq, hqload, hqend]
  have hy' := (tlsSymbols_eq.mp (tlsSymbols_continues h.continues.1 hy)).2.2.2
  have htbssEnd : tbssEnd ≤ clsEnd d := by
    rw [htbss, Option.some.injEq] at hy'
    omega
  refine ⟨?_, hcur⟩
  have hmax : max tbssEnd (max (lmaEnd D .cdata) (lmaEnd D .cbss)) = clsEnd d := by
    rw [hcdata, hcbss]
    omega
  rw [chimera_generate_placement, hsym, List.lookup_append, h.deviceEnd_fresh, hmax]
  rfl

/-- Below `__device_end` lies all that the image occupies of memisl but
    the load images of `.l1_cX`. -/
theorem occupies (h : Stages t prevEnd d L A B C D) {p : Placed SectionName Mem} {addr : Nat}
    (hp : p ∈ L.placed) (hocc : p.Occupies .memisl addr) :
    addr < clsEnd d ∨ ∃ c, p.size = alignUp (d.size (.l1 c)) 32 ∧ 0 < p.size ∧
      addr < d.load (.l1 c) + p.size := by
  obtain ⟨_, -, hplaced, -⟩ := assignDeviceEnd_eq h.last
  rw [hplaced] at hp
  rcases layout_mem_placed h.l1Data p hp with hC | ⟨sec, hsec, K, e, hat⟩
  · left
    -- what is placed before `.l1_cX` lies below the cursor of memisl
    have hb := bounded_layout h.cls (bounded_layout h.upToTls (bounded_start _))
    have := hb p hC .memisl addr hocc
    rwa [h.deviceEnd.2] at this
  · rcases mem_deviceL1.mp hsec with ⟨c, rfl⟩ | ⟨c, rfl⟩
    · -- the room of the cluster-local storage is in L1 and not loaded
      rcases hocc with ⟨hregion, -⟩ | ⟨lma, hload, -⟩
      · rw [hat.region] at hregion
        cases hregion
      · rw [hat.load] at hload
        cases hload
    · obtain ⟨hregion, hload, hsize⟩ := placedAs_l1 hat
      rcases hocc with ⟨hmemisl, -⟩ | ⟨lma, hlma, hlo, hhi⟩
      · rw [hregion] at hmemisl
        cases hmemisl
      · rw [hload] at hlma
        cases hlma
        exact .inr ⟨c, hsize, by omega, hhi⟩

/-- The load image of `.l1_cX` is part of the image. -/
theorem l1_image (h : Stages t prevEnd d L A B C D) (c : ClusterId) :
    ∃ p ∈ L.placed, p.load = some (.memisl, d.load (.l1 c)) ∧
      p.size = alignUp (d.size (.l1 c)) 32 := by
  have hkept : (l1 c).discarded d.toInputs = false := rfl
  obtain ⟨p, hp, K, e, hat⟩ := layout_placed h.l1Data (mem_deviceL1.mpr (.inr ⟨c, rfl⟩)) hkept
  obtain ⟨_, -, hplaced, -⟩ := assignDeviceEnd_eq h.last
  obtain ⟨-, hload, hsize⟩ := placedAs_l1 hat
  exact ⟨p, hplaced ▸ hp, hload, hsize⟩

end Stages

/-! ## Section 4: The placement chain -/

/-- Behind `.reserved` a script continues at the first aligned address
    from the end of the previous device on. -/
theorem firstAfterReserved_spec {t : Target} {first : SectionName} {b : Binary first}
    {prevEnd : Nat} {align : ℕ+} {rest : Script} {L : Image}
    (h : layout (memory t) b.toInputs
      (common :: reservedSection (some prevEnd) ++ gathered first align :: rest)
      (Layout.start (memory t)) = some L) (halign : b.align first ≤ align) :
    ∃ p, firstAfterReserved L = some p ∧ p.vma = alignUp prevEnd align := by
  obtain ⟨K₁, h₁, h⟩ := Option.bind_eq_some_iff.mp h
  obtain ⟨K₂, h₂, h⟩ := Option.bind_eq_some_iff.mp h
  obtain ⟨K₃, h₃, hrest⟩ := Option.bind_eq_some_iff.mp h
  obtain ⟨p₁, _, _, hat₁, hplaced₁, -⟩ := place_kept h₁ rfl
  obtain ⟨p₂, d₂, cur₂, hat₂, hplaced₂, -, hallot₂, hload₂⟩ := place_kept h₂ rfl
  -- an empty section would be dropped and not follow `.reserved`
  have hkept : (gathered first align).discarded b.toInputs = false := by
    have := b.first_pos
    simp only [OutputSection.discarded, gathered, List.all_cons, List.all_nil, Bool.true_and,
      beq_eq_false_iff_ne]
    omega
  obtain ⟨p₃, _, _, hat₃, hplaced₃, -⟩ := place_kept h₃ hkept
  obtain ⟨more, hmore⟩ := (layout_continues hrest).placed
  -- `.reserved` leaves the cursor at the end of the previous device
  have hcur : K₂.cursor .memisl = prevEnd := by
    have hbody := hat₂.body
    simp only [runBody, runCommand] at hbody
    split at hbody
    · cases hbody
      rw [allotLoad, Option.some.injEq] at hload₂
      obtain ⟨-, -, hcur₂⟩ := allot_eq hallot₂
      rw [← hload₂, hcur₂, Function.update_self]
      exact hat₂.stop.symm
    · cases hbody
  refine ⟨p₃, ?_, ?_⟩
  · have hall : L.placed = p₁ :: p₂ :: p₃ :: more := by
      rw [hmore, hplaced₃, hplaced₂, hplaced₁]
      rfl
    have hname₁ : p₁.name = .common := hat₁.name
    have hname₂ : p₂.name = .reserved := hat₂.name
    simp [firstAfterReserved, hall, hname₁, hname₂]
  · have halignment : (gathered first align).alignment b.toInputs = align := max_eq_left halign
    rw [hat₃.vma, halignment]
    exact congrArg (alignUp · align) hcur

theorem linkDevice_first {t : Target} {prevEnd : Nat} {d : Device} {L : Image}
    (h : linkDevice t (some prevEnd) d = some L) :
    ∃ p, firstAfterReserved L = some p ∧ p.vma = alignUp prevEnd 0x1000 := by
  obtain ⟨A, B, C, D, hstages⟩ := linkDevice_stages h
  obtain ⟨_, -, hplaced, -⟩ := assignDeviceEnd_eq hstages.last
  have hscript : ∃ rest, deviceScript t (some prevEnd) =
      common :: reservedSection (some prevEnd) ++ gathered .init 0x1000 :: rest := by
    cases t <;> exact ⟨_, rfl⟩
  obtain ⟨rest, hrest⟩ := hscript
  unfold firstAfterReserved
  rw [hplaced]
  exact firstAfterReserved_spec (hrest ▸ hstages.script) d.first_align

theorem linkHost_first {t : Target} {prevEnd : Nat} {h : Host} {L : Image}
    (hlink : linkHost t (some prevEnd) h = some L) :
    ∃ p, firstAfterReserved L = some p ∧ p.vma = alignUp prevEnd 0x1000 :=
  firstAfterReserved_spec hlink h.first_align

/-- The binary behind a device starts at the first 4 KiB boundary from
    the exported end on. -/
theorem chain_first {t : Target} {prevEnd : Nat} {ds : List Device} {h : Host} {Ls : List Image}
    (hchain : chain t (some prevEnd) ds h = some Ls) :
    ∃ L rest p, Ls = L :: rest ∧ firstAfterReserved L = some p ∧
      p.vma = alignUp prevEnd 0x1000 := by
  cases ds with
  | nil =>
    obtain ⟨L, hL, rfl⟩ := Option.map_eq_some_iff.mp hchain
    obtain ⟨p, hp⟩ := linkHost_first hL
    exact ⟨L, [], p, rfl, hp⟩
  | cons d ds =>
    obtain ⟨L, hL, hrest⟩ := Option.bind_eq_some_iff.mp hchain
    obtain ⟨deviceEnd, -, hrest⟩ := Option.bind_eq_some_iff.mp hrest
    obtain ⟨rest, -, rfl⟩ := Option.map_eq_some_iff.mp hrest
    obtain ⟨p, hp⟩ := linkDevice_first hL
    exact ⟨L, rest, p, rfl, hp⟩

/-- Two neighbours of the chain are apart exactly when the load images of
    `.l1_cX` of the first fit in its last page. -/
theorem apart_iff {t : Target} {prevEnd : Option Nat} {d : Device} {L L' : Image}
    {p : Placed SectionName Mem} (h : linkDevice t prevEnd d = some L)
    (hp : firstAfterReserved L' = some p) (hvma : p.vma = alignUp (clsEnd d) 0x1000) :
    Apart L L' ↔ L1ImagesFit d := by
  obtain ⟨A, B, C, D, hstages⟩ := linkDevice_stages h
  have hend := hstages.deviceEnd.1
  have hpage : clsEnd d ≤ p.vma := hvma ▸ le_alignUp (by decide)
  constructor
  · rintro ⟨q, deviceEnd, hq, -, -, hbelow⟩ c hc
    rw [hp] at hq
    cases hq
    obtain ⟨image, himage, hload, hsize⟩ := hstages.l1_image c
    have hpos : d.size (.l1 c) ≤ alignUp (d.size (.l1 c)) 32 := le_alignUp (by decide)
    -- the last byte of the image is below the next binary
    have hlast := hbelow image himage (d.load (.l1 c) + image.size - 1)
      (.inr ⟨_, hload, by omega, by omega⟩)
    rw [hvma, clsEnd] at hlast
    omega
  · intro hfit
    refine ⟨p, clsEnd d, hp, hend, hvma, ?_⟩
    intro q hq addr hocc
    rcases hstages.occupies hq hocc with hlow | ⟨c, hsize, hpos, hhi⟩
    · omega
    · have hc : 0 < d.size (.l1 c) := by
        rcases Nat.eq_zero_or_pos (d.size (.l1 c)) with hzero | hpos'
        · rw [hsize, hzero] at hpos
          cases hpos
        · exact hpos'
      have := hfit c hc
      rw [hvma, clsEnd]
      omega

/-- The links of a chain, one device at a time. -/
theorem chain_cons {t : Target} {prevEnd : Option Nat} {d : Device} {ds : List Device} {h : Host}
    {Ls : List Image} (hchain : chain t prevEnd (d :: ds) h = some Ls) :
    ∃ L L' rest, Ls = L :: L' :: rest ∧ chain t (some (clsEnd d)) ds h = some (L' :: rest) ∧
      (Apart L L' ↔ L1ImagesFit d) := by
  obtain ⟨L, hL, hchain⟩ := Option.bind_eq_some_iff.mp hchain
  obtain ⟨deviceEnd, hend, hchain⟩ := Option.bind_eq_some_iff.mp hchain
  obtain ⟨tail, htail, rfl⟩ := Option.map_eq_some_iff.mp hchain
  obtain ⟨A, B, C, D, hstages⟩ := linkDevice_stages hL
  rw [hstages.deviceEnd.1, Option.some.injEq] at hend
  subst hend
  obtain ⟨L', rest, p, rfl, hp, hvma⟩ := chain_first htail
  exact ⟨L, L', rest, rfl, htail, apart_iff hL hp hvma⟩

/-- A chain keeps its binaries apart if and only if every device's load
    images of `.l1_cX` fit in the page in which its `.cbss` ends. -/
theorem chain_apart_iff (t : Target) (prevEnd : Option Nat) (ds : List Device) (h : Host)
    (Ls : List Image) (hchain : chain t prevEnd ds h = some Ls) :
    Ls.IsChain Apart ↔ ∀ d ∈ ds, L1ImagesFit d := by
  induction ds generalizing prevEnd Ls with
  | nil =>
    obtain ⟨L, -, rfl⟩ := Option.map_eq_some_iff.mp hchain
    simp
  | cons d ds ih =>
    obtain ⟨L, L', rest, rfl, hrest, hapart⟩ := chain_cons hchain
    rw [List.isChain_cons_cons, List.forall_mem_cons, ih _ _ hrest, hapart]

/-- A device with 64 shared bytes, four bytes of code and of each kind of
    thread-local data, and `l1Size` bytes for the L1 of cluster 0, all of
    it loaded at `loadAddr`. -/
def smallDevice (bssSize l1Size loadAddr : Nat) : Device where
  size := fun n => match n with
    | .common => 64
    | .init | .tdata | .tbss => 4
    | .bss => bssSize
    | .l1 c => if c = 0 then l1Size else 0
    | _ => 0
  align := fun _ => 4
  load := fun n => match n with
    | .l1 c => if c = 0 then loadAddr else loadAddr + l1Size
    | _ => loadAddr
  align_pow := fun _ => ⟨2, rfl⟩
  first_pos := Nat.succ_pos 3
  first_align := by decide

def smallHost : Host where
  size := fun n => match n with
    | .common => 64
    | .text => 4
    | _ => 0
  align := fun _ => 4
  load := fun _ => 0
  align_pow := fun _ => ⟨2, rfl⟩
  first_pos := by decide
  first_align := by decide

theorem smallChain_apart :
    ∃ Ls, chain .chimeraConvolve none [smallDevice 0 32 0x48001060, smallDevice 0 0 0x48002060]
      smallHost = some Ls ∧ Ls.IsChain Apart := by
  obtain ⟨Ls, hLs⟩ := Option.isSome_iff_exists.mp (show (chain .chimeraConvolve none
    [smallDevice 0 32 0x48001060, smallDevice 0 0 0x48002060] smallHost).isSome from rfl)
  refine ⟨Ls, hLs, (chain_apart_iff _ _ _ _ _ hLs).mpr ?_⟩
  intro d hd
  rw [List.mem_cons, List.mem_singleton] at hd
  rcases hd with rfl | rfl
  · show ∀ c, _
    decide
  · show ∀ c, _
    decide

/-- 4 KiB of data for an L1 reach behind the page of `__device_end`. -/
theorem largeL1_not_apart :
    ∃ Ls, chain .chimeraConvolve none [smallDevice 0 0x1000 0x48001060] smallHost = some Ls ∧
      ¬ Ls.IsChain Apart := by
  obtain ⟨Ls, hLs⟩ := Option.isSome_iff_exists.mp (show (chain .chimeraConvolve none
    [smallDevice 0 0x1000 0x48001060] smallHost).isSome from rfl)
  obtain ⟨L, L', rest, rfl, -, hapart⟩ := chain_cons hLs
  refine ⟨_, hLs, ?_⟩
  rw [List.isChain_cons_cons, hapart]
  rintro ⟨hfit, -⟩
  exact absurd (hfit 0 (by decide)) (by decide)

/-! ## Section 5: Thread-local storage -/

/-- The address a symbol stands for in the code of the device. -/
def address (n : Nat) : BitVec 32 := BitVec.ofNat 32 n

/-- The registers that `trampoline` sets up before it jumps. -/
structure Registers where
  tp : BitVec 32
  sp : BitVec 32
  deriving DecidableEq, Repr

/-- `trampoline`: make room for `.tdata` and `.tbss` below the stack
    pointer of the core's slot. -/
def trampoline (y : TlsSymbols) (trampoline_stack : BitVec 32) : Registers :=
  let sp := trampoline_stack - (address y.tdataEnd - address y.tdataStart)
  let sp := sp - (address y.tbssEnd - address y.tbssStart)
  { tp := sp, sp := sp &&& -0xF }

/-- The bytes that `memcpy` and `memset` write. -/
def bytes (dst n : BitVec 32) : List (BitVec 32) :=
  (List.range n.toNat).map (fun i => dst + BitVec.ofNat 32 i)

/-- The bytes that `snrt_init` writes for the thread-local storage. -/
def snrt_init (y : TlsSymbols) (tls_ptr : BitVec 32) : List (BitVec 32) :=
  let size_tdata := address y.tdataEnd - address y.tdataStart
  let size_tbss := address y.tbssEnd - address y.tbssStart
  let tbss_off := address y.tbssStart - address y.tdataStart
  bytes tls_ptr size_tdata ++ bytes (tls_ptr + tbss_off) size_tbss

/-- All that `snrt_init` writes lies in `[tp, S)`, the range that
    `trampoline` has reserved; addresses wrap around. -/
def TlsInside (L : Image) (S : BitVec 32) : Prop :=
  ∃ y, tlsSymbols L = some y ∧
    ∀ a ∈ snrt_init y (trampoline y S).tp, a - (trampoline y S).tp < S - (trampoline y S).tp

theorem mem_bytes {dst n a : BitVec 32} :
    a ∈ bytes dst n ↔ ∃ i < n.toNat, dst + BitVec.ofNat 32 i = a := by
  simp [bytes]

/-- Differences of symbols below 4 GiB do not wrap around. -/
theorem address_sub {m n : Nat} (hmn : m ≤ n) (hn : n < 2 ^ 32) :
    (address n - address m).toNat = n - m := by
  simp only [address, BitVec.toNat_sub, BitVec.toNat_ofNat]
  omega

/-- With `gap` bytes between the two sections the writes stay inside if
    and only if the gap or `.tbss` is empty. -/
theorem snrt_init_inside_iff {y : TlsSymbols} {gap : Nat} (S : BitVec 32)
    (hdata : y.tdataStart ≤ y.tdataEnd) (hgap : y.tbssStart = y.tdataEnd + gap)
    (hbss : y.tbssStart ≤ y.tbssEnd) (hfits : y.tbssEnd < 2 ^ 32) :
    (∀ a ∈ snrt_init y (trampoline y S).tp,
      a - (trampoline y S).tp < S - (trampoline y S).tp) ↔
    gap = 0 ∨ y.tbssEnd = y.tbssStart := by
  have htdata := address_sub hdata (by omega)
  have htbss := address_sub hbss hfits
  have hoff := address_sub (m := y.tdataStart) (n := y.tbssStart) (by omega) (by omega)
  have hroom : (S - (trampoline y S).tp).toNat =
      (y.tdataEnd - y.tdataStart) + (y.tbssEnd - y.tbssStart) := by
    have hsum : S - (trampoline y S).tp =
        (address y.tdataEnd - address y.tdataStart) +
          (address y.tbssEnd - address y.tbssStart) := by
      simp only [trampoline]
      grind
    rw [hsum, BitVec.toNat_add, htdata, htbss]
    omega
  -- from here on only the size of the room matters
  generalize (trampoline y S).tp = tp at hroom ⊢
  have hpos : ∀ i < y.tbssEnd - y.tbssStart, (tp + (address y.tbssStart - address y.tdataStart) +
      BitVec.ofNat 32 i - tp).toNat = (y.tbssStart - y.tdataStart) + i := by
    intro i hi
    have hcancel : tp + (address y.tbssStart - address y.tdataStart) + BitVec.ofNat 32 i - tp =
        (address y.tbssStart - address y.tdataStart) + BitVec.ofNat 32 i := by
      grind
    rw [hcancel, BitVec.toNat_add, hoff, BitVec.toNat_ofNat]
    omega
  simp only [snrt_init, List.mem_append, mem_bytes, htdata, htbss, BitVec.lt_def, hroom]
  constructor
  · intro h
    by_cases hempty : y.tbssEnd = y.tbssStart
    · exact .inr hempty
    · -- the last byte of `.tbss` is the one furthest up
      left
      have hlast := h _ (.inr ⟨y.tbssEnd - y.tbssStart - 1, by omega, rfl⟩)
      rw [hpos _ (by omega)] at hlast
      omega
  · rintro hcase a (⟨i, hi, rfl⟩ | ⟨i, hi, rfl⟩)
    · have hcancel : tp + BitVec.ofNat 32 i - tp = BitVec.ofNat 32 i := by grind
      rw [hcancel, BitVec.toNat_ofNat]
      omega
    · rw [hpos i hi]
      omega

/-- The thread-local storage stays inside its reservation if and only if
    the script puts nothing between `.tdata` and `.tbss`, or `.tbss` is
    empty. -/
theorem tls_inside_iff (t : Target) (prevEnd : Option Nat) (d : Device) (L : Image)
    (S : BitVec 32) (halign : ∀ n, d.align n ≤ 32) (h : linkDevice t prevEnd d = some L) :
    TlsInside L S ↔ t = .chimeraConvolve ∨ d.size .bss = 0 ∨ d.size .tbss = 0 := by
  obtain ⟨A, B, C, D, hstages⟩ := linkDevice_stages h
  obtain ⟨y, hy, hdata, hbss, -, hlimit, hgap⟩ := hstages.tls_spec
  have hdvd : ∀ n, (d.align n : Nat) ∣ 32 := fun n => d.align_dvd (halign n)
  -- memisl ends below 4 GiB
  have hfits : y.tbssEnd < 2 ^ 32 := by
    have hmem : (memory t .memisl).limit < 2 ^ 32 := by cases t <;> decide
    omega
  have hzero : ∀ n : Nat, alignUp n 32 = 0 ↔ n = 0 := fun n => alignUp_eq_zero_iff (by decide)
  have hinside := snrt_init_inside_iff S (by omega) (hgap hdvd) (by omega) hfits
  have hempty : y.tbssEnd = y.tbssStart ↔ d.size .tbss = 0 := by
    rw [← hzero, hbss]
    omega
  have hexists : TlsInside L S ↔ ∀ a ∈ snrt_init y (trampoline y S).tp,
      a - (trampoline y S).tp < S - (trampoline y S).tp := by
    simp [TlsInside, hy]
  rw [hexists, hinside, hempty]
  cases t with
  | chimeraConvolve => simp [tlsGap]
  | chimeraOpen => simp [tlsGap, hzero]

/-- The small device without `.bss`, on either target. -/
theorem smallDevice_tls_inside :
    (∃ L, linkDevice .chimeraConvolve none (smallDevice 64 0 0x480010A0) = some L ∧
      TlsInside L 0x48020000) ∧
    (∃ L, linkDevice .chimeraOpen none (smallDevice 0 0 0x48001060) = some L ∧
      TlsInside L 0x48020000) := by
  constructor
  · obtain ⟨L, hL⟩ := Option.isSome_iff_exists.mp
      (show (linkDevice .chimeraConvolve none (smallDevice 64 0 0x480010A0)).isSome from rfl)
    exact ⟨L, hL, (tls_inside_iff _ _ _ L _ (fun _ => (by decide : (4 : ℕ+) ≤ 32)) hL).mpr
      (.inl rfl)⟩
  · obtain ⟨L, hL⟩ := Option.isSome_iff_exists.mp
      (show (linkDevice .chimeraOpen none (smallDevice 0 0 0x48001060)).isSome from rfl)
    exact ⟨L, hL, (tls_inside_iff _ _ _ L _ (fun _ => (by decide : (4 : ℕ+) ≤ 32)) hL).mpr
      (.inr (.inl rfl))⟩

/-- On chimera-open 64 bytes of `.bss` push the clearing of `.tbss` over
    the stack pointer. -/
theorem bss_not_tls_inside :
    ∃ L, linkDevice .chimeraOpen none (smallDevice 64 0 0x480010A0) = some L ∧
      ¬ TlsInside L 0x48020000 := by
  obtain ⟨L, hL⟩ := Option.isSome_iff_exists.mp
    (show (linkDevice .chimeraOpen none (smallDevice 64 0 0x480010A0)).isSome from rfl)
  refine ⟨L, hL, ?_⟩
  have htls : tlsSymbols L = some ⟨0x48001020, 0x48001040, 0x48001080, 0x480010A0⟩ := by
    have hbind : (linkDevice .chimeraOpen none (smallDevice 64 0 0x480010A0)).bind tlsSymbols =
        some ⟨0x48001020, 0x48001040, 0x48001080, 0x480010A0⟩ := rfl
    rwa [hL] at hbind
  rintro ⟨y, hy, hinside⟩
  rw [htls, Option.some.injEq] at hy
  subst hy
  -- the first byte of `.tbss` is cleared 32 bytes above the stack pointer
  exact absurd (hinside 0x48020020 (by decide)) (by decide)

/-! ## Section 6: The heap of the host -/

/-- `.l2_heap`, the last section of the host. -/
def l2HeapSection : OutputSection SectionName Mem Symbol where
  name := .l2Heap
  align := 32
  body := [.symbol (.start .l2Heap)]
  region := .memisl
  loadRegion := none

/-- `__l2_heap_end` -/
def l2HeapEnd (t : Target) : Nat := (memory t .memisl).limit

/-- **The heap lies in the memory island**: it starts at an address
    aligned to 32 bytes, behind the host image, and ends with the
    island. -/
theorem linkHost_heap {t : Target} {prevEnd : Option Nat} {h : Host} {L : Image}
    (hlink : linkHost t prevEnd h = some L) :
    ∃ start, L.symbols.lookup (.start .l2Heap) = some start ∧
      (memory t .memisl).origin ≤ start ∧ start ≤ l2HeapEnd t ∧ start % 32 = 0 := by
  have hscript : ∃ pre, hostScript t prevEnd = pre ++ [l2HeapSection] ∧
      Symbol.start .l2Heap ∉ pre.flatMap OutputSection.symbols := by
    refine ⟨(hostScript t prevEnd).dropLast, ?_, ?_⟩
    · cases prevEnd <;> rfl
    · have hsymbols : (hostScript t prevEnd).dropLast.flatMap OutputSection.symbols =
          (hostScript t none).dropLast.flatMap OutputSection.symbols := by
        cases prevEnd <;> rfl
      rw [hsymbols]
      cases t <;> decide
  obtain ⟨pre, hpre, hfresh⟩ := hscript
  unfold linkHost at hlink
  rw [hpre, layout_append] at hlink
  obtain ⟨K, hK, hlast⟩ := Option.bind_eq_some_iff.mp hlink
  obtain ⟨L', hplace, hL'⟩ := Option.bind_eq_some_iff.mp hlast
  cases hL'
  obtain ⟨p, d, cur, hat, -, hsym, hallot, -⟩ := place_kept hplace rfl
  have hnone := layout_lookup_none hK rfl hfresh
  -- the body assigns the symbol at the address of the section
  have hbody := hat.body
  cases hbody
  obtain ⟨hlo, hhi, -⟩ := allot_eq hallot
  refine ⟨p.vma, ?_, ?_, ?_, ?_⟩
  · rw [hsym]
    simp [List.lookup_append, hnone]
  · exact ((layout_continues hK).cursor .memisl).trans hlo
  · show p.vma ≤ (memory t .memisl).limit
    exact (Nat.le_add_right _ _).trans hhi
  · rw [hat.vma]
    exact Nat.mod_eq_zero_of_dvd
      ((h.dvd_alignment rfl).trans (Nat.dvd_of_mod_eq_zero (alignUp_mod _ _)))

end LinkLd
