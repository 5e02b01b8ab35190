import ChimeraSdk.Target.LinkLd

/-! # The Initialisation of a Cluster's L1

    The DM core of each cluster starts three DMA transfers into its L1 and
    waits for all of them at the end: the data of `.l1_cX`, `.cdata`, and
    zeros for `.cbss`.  The last two are linked at the L1 alias and moved
    to the base of the cluster, where the script reserves as many bytes as
    the two sections have.  What it does not reserve is the padding
    between them. -/

open LinkerScript Align Soc

namespace LinkLd

/-! ## Section 1: The transfers -/

/-- `__base_l1_alias` -/
def base_l1_alias : Nat := 0x18000000

/-- `_chimera_clusterBase[c]` -/
def clusterBase (c : ClusterId) : Nat := 0x40000000 + c * 0x200000

/-- The linker symbols that `snrt_init` reads on cluster `c`. -/
structure ClsSymbols where
  cdataStart : Nat
  cdataEnd : Nat
  cbssStart : Nat
  cbssEnd : Nat
  l1Start : Nat
  l1LmaStart : Nat
  l1LmaEnd : Nat
  heapStart : Nat

def clsSymbols (L : Image) (c : ClusterId) : Option ClsSymbols := do
  let cdataStart ← L.symbols.lookup (.start .cdata)
  let cdataEnd ← L.symbols.lookup (.stop .cdata)
  let cbssStart ← L.symbols.lookup (.start .cbss)
  let cbssEnd ← L.symbols.lookup (.stop .cbss)
  let l1Start ← L.symbols.lookup (.start (.l1 c))
  let heapStart ← L.symbols.lookup (.heapStart c)
  return ⟨cdataStart, cdataEnd, cbssStart, cbssEnd, l1Start, L.loadAddr (.l1 c),
    lmaEnd L (.l1 c), heapStart⟩

/-- `snrt_dma_start_1d`: the destination and the size. -/
structure Transfer where
  dst : BitVec 32
  size : BitVec 32
  deriving DecidableEq, Repr

/-- The transfer, unless it has no bytes. -/
def nonEmpty (dst size : BitVec 32) : List Transfer := if size ≠ 0 then [⟨dst, size⟩] else []

/-- The transfers that `snrt_init` starts on the DM core of cluster `c`. -/
def transfers (y : ClsSymbols) (c : ClusterId) : List Transfer :=
  let size_l1 := address y.l1LmaEnd - address y.l1LmaStart
  let size_cdata := address y.cdataEnd - address y.cdataStart
  let cdata_local_start :=
    address y.cdataStart - address base_l1_alias + address (clusterBase c)
  let size_cbss := address y.cbssEnd - address y.cbssStart
  let cbss_local_start := address y.cbssStart - address base_l1_alias + address (clusterBase c)
  nonEmpty (address y.l1Start) size_l1 ++ nonEmpty cdata_local_start size_cdata ++
    nonEmpty cbss_local_start size_cbss

/-- The bytes of two transfers are disjoint. -/
def Transfer.Disjoint (a b : Transfer) : Prop :=
  a.dst.toNat + a.size.toNat ≤ b.dst.toNat ∨ b.dst.toNat + b.size.toNat ≤ a.dst.toNat

/-- The transfers of cluster `c` do not overlap, and end below its heap. -/
def ClusterInitApart (L : Image) (c : ClusterId) : Prop :=
  ∃ y, clsSymbols L c = some y ∧ (transfers y c).Pairwise Transfer.Disjoint ∧
    ∀ tr ∈ transfers y c, tr.dst.toNat + tr.size.toNat ≤ y.heapStart

/-- `SIZEOF(.cdata)`, `SIZEOF(.cbss)` and the size of the data of `.l1_cX`. -/
def paddedSize (d : Device) (n : SectionName) : Nat := alignUp (d.size n) 32

/-- With the padding in front of it, `.cbss` ends before the data of
    `.l1_cX` starts. -/
def CbssInReserve (d : Device) (c : ClusterId) : Prop :=
  alignUp (paddedSize d .cdata) (d.align .cbss) + paddedSize d .cbss ≤
    alignUp (paddedSize d .cdata + paddedSize d .cbss) (d.align (.l1 c))

/-! ## Section 2: Three transfers in a window -/

/-- The symbols in terms of offsets from the base of the cluster: `C` bytes
    of `.cdata` at the base, `B` bytes of `.cbss` at `off`, and `P` bytes of
    data at `payload`, behind the reserve. -/
structure Offsets (y : ClsSymbols) (c : ClusterId) (C off B payload P : Nat) : Prop where
  cdata_symbols : y.cdataStart = base_l1_alias + 0 ∧ y.cdataEnd = base_l1_alias + C
  cbss_symbols : y.cbssStart = base_l1_alias + off ∧ y.cbssEnd = base_l1_alias + (off + B)
  l1_symbols : y.l1Start = clusterBase c + payload ∧ y.heapStart = clusterBase c + (payload + P)
  lma_symbols : y.l1LmaEnd = y.l1LmaStart + P ∧ y.l1LmaEnd < 2 ^ 32
  window : off + B ≤ 0x20000 ∧ payload + P ≤ 0x20000
  order : C ≤ off ∧ C + B ≤ payload

theorem clusterBase_le (c : ClusterId) : clusterBase c ≤ 0x40800000 := by
  have hc : (c : Nat) < 5 := c.isLt
  unfold clusterBase
  omega

theorem clusterBase_mod (c : ClusterId) : clusterBase c % 2 ^ 21 = 0 := by
  unfold clusterBase
  omega

theorem address_toNat {n : Nat} (h : n < 2 ^ 32) : (address n).toNat = n := by
  rw [address, BitVec.toNat_ofNat, Nat.mod_eq_of_lt h]

/-- The translation from the alias to the cluster keeps the offset. -/
theorem translate_toNat (c : ClusterId) {x : Nat} (hx : x ≤ 0x20000) :
    (address (base_l1_alias + x) - address base_l1_alias + address (clusterBase c)).toNat =
      clusterBase c + x := by
  have hbase := clusterBase_le c
  have halias : base_l1_alias = 0x18000000 := rfl
  rw [BitVec.toNat_add, address_sub (by omega) (by omega), address_toNat (by omega)]
  omega

theorem mem_nonEmpty {dst size : BitVec 32} {tr : Transfer} :
    tr ∈ nonEmpty dst size ↔ 0 < size.toNat ∧ tr = ⟨dst, size⟩ := by
  have hpos : size ≠ 0 ↔ 0 < size.toNat := by
    rw [Nat.pos_iff_ne_zero, ne_eq, ne_eq, BitVec.toNat_eq]
    rfl
  unfold nonEmpty
  by_cases h : size ≠ 0
  · rw [if_pos h, List.mem_singleton]
    exact ⟨fun heq => ⟨hpos.mp h, heq⟩, fun heq => heq.2⟩
  · rw [if_neg h]
    constructor
    · intro hmem
      cases hmem
    · intro hmem
      exact absurd (hpos.mpr hmem.1) h

theorem nonEmpty_pairwise {R : Transfer → Transfer → Prop} (dst size : BitVec 32) :
    (nonEmpty dst size).Pairwise R := by
  unfold nonEmpty
  by_cases h : size ≠ 0
  · rw [if_pos h]
    exact List.pairwise_singleton _ _
  · rw [if_neg h]
    exact List.Pairwise.nil

/-- The pairs among three transfers that may be empty. -/
theorem pairwise_three {R : Transfer → Transfer → Prop} {a b c s u v : BitVec 32} :
    (nonEmpty a s ++ nonEmpty b u ++ nonEmpty c v).Pairwise R ↔
      (0 < s.toNat → 0 < u.toNat → R ⟨a, s⟩ ⟨b, u⟩) ∧
      (0 < s.toNat → 0 < v.toNat → R ⟨a, s⟩ ⟨c, v⟩) ∧
      (0 < u.toNat → 0 < v.toNat → R ⟨b, u⟩ ⟨c, v⟩) := by
  simp only [List.pairwise_append, List.mem_append, mem_nonEmpty, nonEmpty_pairwise, true_and]
  constructor
  · intro h
    obtain ⟨hab, hc⟩ := h
    exact ⟨fun hs hu => hab _ ⟨hs, rfl⟩ _ ⟨hu, rfl⟩,
      fun hs hv => hc _ (.inl ⟨hs, rfl⟩) _ ⟨hv, rfl⟩,
      fun hu hv => hc _ (.inr ⟨hu, rfl⟩) _ ⟨hv, rfl⟩⟩
  · intro h
    obtain ⟨hab, hac, hbc⟩ := h
    refine ⟨?_, ?_⟩
    · rintro _ ⟨hs, rfl⟩ _ ⟨hu, rfl⟩
      exact hab hs hu
    · rintro _ (⟨hs, rfl⟩ | ⟨hu, rfl⟩) _ ⟨hv, rfl⟩
      · exact hac hs hv
      · exact hbc hu hv

/-- The sizes that `snrt_init` computes from the symbols. -/
theorem Offsets.sizes {y : ClsSymbols} {c : ClusterId} {C off B payload P : Nat}
    (h : Offsets y c C off B payload P) :
    (address y.l1LmaEnd - address y.l1LmaStart).toNat = P ∧
    (address y.cdataEnd - address y.cdataStart).toNat = C ∧
    (address y.cbssEnd - address y.cbssStart).toNat = B := by
  obtain ⟨hcdata, hcdata'⟩ := h.cdata_symbols
  obtain ⟨hcbss, hcbss'⟩ := h.cbss_symbols
  obtain ⟨hlma, hlma'⟩ := h.lma_symbols
  obtain ⟨hoff, -⟩ := h.window
  obtain ⟨horder, -⟩ := h.order
  have halias : base_l1_alias = 0x18000000 := rfl
  refine ⟨?_, ?_, ?_⟩
  · rw [address_sub (by omega) hlma', hlma]
    omega
  · rw [address_sub (by omega) (by omega)]
    omega
  · rw [address_sub (by omega) (by omega)]
    omega

/-- The destinations that `snrt_init` computes from the symbols. -/
theorem Offsets.destinations {y : ClsSymbols} {c : ClusterId} {C off B payload P : Nat}
    (h : Offsets y c C off B payload P) :
    (address y.l1Start).toNat = clusterBase c + payload ∧
    (address y.cdataStart - address base_l1_alias + address (clusterBase c)).toNat =
      clusterBase c ∧
    (address y.cbssStart - address base_l1_alias + address (clusterBase c)).toNat =
      clusterBase c + off := by
  obtain ⟨hoff, hpayload⟩ := h.window
  have hbase := clusterBase_le c
  refine ⟨?_, ?_, ?_⟩
  · rw [h.l1_symbols.1, address_toNat (by omega)]
  · rw [h.cdata_symbols.1, translate_toNat c (by omega), Nat.add_zero]
  · rw [h.cbss_symbols.1, translate_toNat c (by omega)]

/-- Transfers at these offsets do not overlap and end below the heap
    exactly when `.cbss` is empty or ends before the data starts. -/
theorem Offsets.apart_iff {y : ClsSymbols} {c : ClusterId} {C off B payload P : Nat}
    (h : Offsets y c C off B payload P) :
    ((transfers y c).Pairwise Transfer.Disjoint ∧
      ∀ tr ∈ transfers y c, tr.dst.toNat + tr.size.toNat ≤ y.heapStart) ↔
    B = 0 ∨ off + B ≤ payload := by
  obtain ⟨hP, hC, hB⟩ := h.sizes
  obtain ⟨hl1dst, hcdatadst, hcbssdst⟩ := h.destinations
  obtain ⟨horder, hreserve⟩ := h.order
  have hheap := h.l1_symbols.2
  simp only [transfers, pairwise_three, List.mem_append, mem_nonEmpty, Transfer.Disjoint, hP, hC,
    hB, hl1dst, hcdatadst, hcbssdst, hheap]
  constructor
  · intro hok
    obtain ⟨⟨-, hpair, -⟩, hends⟩ := hok
    by_cases hzero : B = 0
    · exact .inl hzero
    · have hend := hends _ (.inr ⟨by omega, rfl⟩)
      simp only [hcbssdst, hB] at hend
      by_cases hempty : P = 0
      · exact .inr (by omega)
      · -- the data does not end before `.cbss`, which ends below the heap
        have := hpair (by omega) (by omega)
        exact .inr (by omega)
  · intro hcase
    refine ⟨⟨?_, ?_, ?_⟩, ?_⟩
    · intro _ _
      omega
    · intro _ _
      omega
    · intro _ _
      omega
    · rintro tr ((⟨hpos, rfl⟩ | ⟨hpos, rfl⟩) | ⟨hpos, rfl⟩)
      · simp only [hl1dst, hP]
        omega
      · simp only [hcdatadst, hC]
        omega
      · simp only [hcbssdst, hB]
        omega

/-! ## Section 3: Where the linker puts them -/

/-- In a window of 128 KiB behind a multiple of 2 MiB, rounding up an
    address that stays in the window rounds up its offset. -/
theorem alignUp_window {origin x k : Nat} (horigin : origin % 2 ^ 21 = 0)
    (hwindow : alignUp (origin + x) (2 ^ k) ≤ origin + 0x20000) :
    alignUp (origin + x) (2 ^ k) = origin + alignUp x (2 ^ k) := by
  by_cases hk : k ≤ 21
  · refine alignUp_add (Nat.mod_eq_zero_of_dvd ?_)
    exact (Nat.pow_dvd_pow 2 hk).trans (Nat.dvd_of_mod_eq_zero horigin)
  · -- the only multiple of such an alignment in the window is the origin
    have hmod : alignUp (origin + x) (2 ^ k) % 2 ^ 21 = 0 :=
      Nat.mod_eq_zero_of_dvd ((Nat.pow_dvd_pow 2 (by omega)).trans
        (Nat.dvd_of_mod_eq_zero (alignUp_mod _ _)))
    have hle : origin + x ≤ alignUp (origin + x) (2 ^ k) := le_alignUp (Nat.two_pow_pos k)
    have hx : x = 0 := by omega
    have hzero : alignUp 0 (2 ^ k) = 0 := alignUp_of_mod (Nat.two_pow_pos k) (Nat.zero_mod _)
    rw [hx, hzero]
    rw [hx] at hle hmod hwindow
    omega

/-- The origin of a window stays where it is. -/
theorem alignUp_origin {origin k : Nat} (horigin : origin % 2 ^ 21 = 0)
    (hwindow : alignUp origin (2 ^ k) ≤ origin + 0x20000) : alignUp origin (2 ^ k) = origin := by
  have hzero : alignUp 0 (2 ^ k) = 0 := alignUp_of_mod (Nat.two_pow_pos k) (Nat.zero_mod _)
  have hshift := alignUp_window (x := 0) horigin hwindow
  rw [hzero] at hshift
  exact hshift

/-- A symbol that a section assigns first. -/
theorem lookup_assigned {symbols more : List (Symbol × Nat)} {s : Symbol} {v : Nat}
    (hfresh : symbols.lookup s = none) (hmore : more.lookup s = some v) :
    (symbols ++ more).lookup s = some v := by
  rw [List.lookup_append, hfresh, hmore]
  rfl

theorem sizeOf_of_find {L : Image} {n : SectionName} {p : Placed SectionName Mem}
    (h : L.find n = some p) : L.sizeOf n = p.size := by
  rw [Layout.sizeOf, h]

/-- A section that has nothing to do with the L1 of cluster `c`. -/
def Elsewhere (c : ClusterId) (sec : OutputSection SectionName Mem Symbol) : Prop :=
  (sec.region ≠ .l1 c ∧ sec.loadRegion ≠ some (.l1 c)) ∧ sec.name ≠ .l1 c ∧
  Symbol.start (.l1 c) ∉ sec.symbols ∧ Symbol.heapStart c ∉ sec.symbols

instance (c : ClusterId) (sec : OutputSection SectionName Mem Symbol) :
    Decidable (Elsewhere c sec) := inferInstanceAs (Decidable (_ ∧ _))

/-- Up to the cluster-local storage nothing is in the L1 of a cluster. -/
theorem elsewhere_upToCls {t : Target} {prevEnd : Option Nat} (c : ClusterId)
    {sec : OutputSection SectionName Mem Symbol}
    (hsec : sec ∈ common :: reservedSection prevEnd ++ deviceImage t ++ deviceTls t ++
      deviceCls t) :
    Elsewhere c sec := by
  have hall : (common :: reservedSection prevEnd ++ deviceImage t ++ deviceTls t ++ deviceCls t).all
      (fun sec => decide (∀ c, Elsewhere c sec)) = true := by
    cases t <;> cases prevEnd <;> rfl
  exact of_decide_eq_true (List.all_eq_true.mp hall sec hsec) c

theorem elsewhere_l1Cls {c c' : ClusterId} (hne : c' ≠ c) : Elsewhere c (l1Cls c') := by
  revert c c'
  decide

theorem elsewhere_l1 {c c' : ClusterId} (hne : c' ≠ c) : Elsewhere c (l1 c') := by
  revert c c'
  decide

/-- The two sections of a cluster among those of the others. -/
theorem deviceL1_split (c : ClusterId) :
    ∃ pre mid post, deviceL1 = pre ++ l1Cls c :: (mid ++ l1 c :: post) ∧
      (∀ sec ∈ pre, Elsewhere c sec) ∧ ∀ sec ∈ mid, Elsewhere c sec := by
  obtain ⟨pre, post, hsplit⟩ := List.append_of_mem (List.mem_finRange c)
  have hnodup := List.nodup_finRange NUM_CLUSTERS
  rw [hsplit] at hnodup
  have hnot := (List.nodup_cons.mp (List.perm_middle.nodup_iff.mp hnodup)).1
  have hpre : ∀ c' ∈ pre, c' ≠ c := by
    intro c' hc' heq
    exact hnot (List.mem_append_left _ (heq ▸ hc'))
  have hpost : ∀ c' ∈ post, c' ≠ c := by
    intro c' hc' heq
    exact hnot (List.mem_append_right _ (heq ▸ hc'))
  -- the script has all reserves first and then all data sections
  refine ⟨pre.map l1Cls, post.map l1Cls ++ pre.map l1, post.map l1, ?_, ?_, ?_⟩
  · simp [deviceL1, hsplit]
  · intro sec hsec
    obtain ⟨c', hc', rfl⟩ := List.mem_map.mp hsec
    exact elsewhere_l1Cls (hpre c' hc')
  · intro sec hsec
    rcases List.mem_append.mp hsec with hsec | hsec
    · obtain ⟨c', hc', rfl⟩ := List.mem_map.mp hsec
      exact elsewhere_l1Cls (hpost c' hc')
    · obtain ⟨c', hc', rfl⟩ := List.mem_map.mp hsec
      exact elsewhere_l1 (hpre c' hc')

/-- What a script elsewhere leaves alone: the cursor of the L1, its symbols
    and its section. -/
theorem layout_elsewhere {t : Target} {first : SectionName} {b : Binary first} {c : ClusterId}
    {secs : Script} {K K' : Image} (h : layout (memory t) b.toInputs secs K = some K')
    (hsecs : ∀ sec ∈ secs, Elsewhere c sec) :
    K'.cursor (.l1 c) = K.cursor (.l1 c) ∧
    (K.symbols.lookup (.start (.l1 c)) = none → K'.symbols.lookup (.start (.l1 c)) = none) ∧
    (K.symbols.lookup (.heapStart c) = none → K'.symbols.lookup (.heapStart c) = none) ∧
    (K.find (.l1 c) = none → K'.find (.l1 c) = none) := by
  -- the cursor, the two symbols and the section
  refine ⟨layout_frame h fun sec hsec => (hsecs sec hsec).1, ?_, ?_, ?_⟩
  · intro hfresh
    refine layout_lookup_none h hfresh fun hmem => ?_
    obtain ⟨sec, hsec, hin⟩ := List.mem_flatMap.mp hmem
    exact (hsecs sec hsec).2.2.1 hin
  · intro hfresh
    refine layout_lookup_none h hfresh fun hmem => ?_
    obtain ⟨sec, hsec, hin⟩ := List.mem_flatMap.mp hmem
    exact (hsecs sec hsec).2.2.2 hin
  · intro hfresh
    unfold Layout.find at hfresh ⊢
    rw [List.find?_eq_none] at hfresh ⊢
    intro p hp
    rcases layout_mem_placed h p hp with hp | ⟨sec, hsec, _, _, hat⟩
    · exact hfresh p hp
    · rw [hat.name, decide_eq_true_eq]
      exact (hsecs sec hsec).2.1

namespace Stages

variable {t : Target} {prevEnd : Option Nat} {d : Device} {L A B C D : Image}

theorem upToCls (h : Stages t prevEnd d L A B C D) :
    layout (memory t) d.toInputs
      (common :: reservedSection prevEnd ++ deviceImage t ++ deviceTls t ++ deviceCls t)
      (Layout.start (memory t)) = some C := by
  rw [layout_append, h.upToTls]
  exact h.cls

/-- Before the cluster-local storage its symbols are undefined. -/
theorem cls_fresh (h : Stages t prevEnd d L A B C D) (n : SectionName)
    (hn : n = .cdata ∨ n = .cbss) :
    B.symbols.lookup (.start n) = none ∧ B.symbols.lookup (.stop n) = none := by
  have hsymbols : (common :: reservedSection prevEnd ++ deviceImage t ++ deviceTls t).flatMap
      OutputSection.symbols =
        (common :: deviceImage t ++ deviceTls t).flatMap OutputSection.symbols := by
    cases prevEnd <;> rfl
  constructor
  · refine layout_lookup_none h.upToTls rfl ?_
    rw [hsymbols]
    rcases hn with rfl | rfl <;> cases t <;> decide
  · refine layout_lookup_none h.upToTls rfl ?_
    rw [hsymbols]
    rcases hn with rfl | rfl <;> cases t <;> decide

/-- Where `.cdata` and `.cbss` are: `.cdata` at the alias, and `.cbss` at
    the next address that its inputs allow. -/
theorem cls_placed (h : Stages t prevEnd d L A B C D) :
    ∃ p q, C.find .cdata = some p ∧ C.find .cbss = some q ∧
      p.vma = base_l1_alias ∧ p.size = paddedSize d .cdata ∧
      q.vma = base_l1_alias + alignUp (paddedSize d .cdata) (d.align .cbss) ∧
      q.size = paddedSize d .cbss ∧
      alignUp (paddedSize d .cdata) (d.align .cbss) + paddedSize d .cbss ≤ 0x20000 ∧
      C.symbols = B.symbols ++ [(.start .cdata, p.vma), (.stop .cdata, p.vma + p.size),
        (.start .cbss, q.vma), (.stop .cbss, q.vma + q.size)] := by
  obtain ⟨i, hi⟩ := d.align_pow .cdata
  obtain ⟨j, hj⟩ := d.align_pow .cbss
  have hmodC := alignUp_mod (d.size .cdata) 32
  have hlimit : (memory t .l1Alias).limit = base_l1_alias + 0x20000 := rfl
  obtain ⟨K, hK, hrest⟩ := Option.bind_eq_some_iff.mp h.cls
  obtain ⟨K', hK', hrest⟩ := Option.bind_eq_some_iff.mp hrest
  cases hrest
  -- the two sections, one behind the other
  obtain ⟨p, hp, hpname, hpvma, hpmod, hpsize, -, hplimit, hpsym, -, -, hpcur⟩ :=
    place_cls_at (paddedAlign_dvd t) hK h.l1Alias_mod
  obtain ⟨q, hq, hqname, hqvma, hqmod, hqsize, -, hqlimit, hqsym, -, -, -⟩ :=
    place_cls_at (paddedAlign_dvd t) hK' (by omega)
  have hpat : p.vma = base_l1_alias := by
    have hstart : B.cursor .l1Alias = base_l1_alias := h.l1Alias_start
    rw [hstart, hi] at hpvma
    rw [hpvma]
    exact alignUp_origin (by decide) (by omega)
  have hqat : q.vma = base_l1_alias + alignUp (paddedSize d .cdata) (d.align .cbss) := by
    have hend : K.cursor .l1Alias = base_l1_alias + paddedSize d .cdata := by
      rw [hpcur, hpat, hpsize]
      rfl
    rw [hend, hj] at hqvma
    rw [hqvma, hj, alignUp_window (by decide) (by omega)]
  have hpfind : K.find .cdata = some p := by
    rw [Layout.find_placed hp (h.find_cls (.inl rfl)), if_pos hpname]
  have hqfind : C.find .cbss = some q := by
    rw [Layout.find_placed hq, if_pos hqname]
    rw [Layout.find_placed hp (h.find_cls (.inr rfl)), hpname]
    exact if_neg (by decide)
  have hqpad : q.size = paddedSize d .cbss := hqsize
  refine ⟨p, q, (place_continues hK').find hpfind, hqfind, hpat, hpsize, hqat, hqpad, by omega, ?_⟩
  rw [hqsym, hpsym, List.append_assoc]
  rfl

/-- The sections of the cluster-local storage and their symbols. -/
theorem cls_spec (h : Stages t prevEnd d L A B C D) :
    (∃ p, C.find .cdata = some p ∧ p.size = paddedSize d .cdata) ∧
    (∃ q, C.find .cbss = some q ∧ q.size = paddedSize d .cbss) ∧
    alignUp (paddedSize d .cdata) (d.align .cbss) + paddedSize d .cbss ≤ 0x20000 ∧
    C.symbols.lookup (.start .cdata) = some base_l1_alias ∧
    C.symbols.lookup (.stop .cdata) = some (base_l1_alias + paddedSize d .cdata) ∧
    C.symbols.lookup (.start .cbss) =
      some (base_l1_alias + alignUp (paddedSize d .cdata) (d.align .cbss)) ∧
    C.symbols.lookup (.stop .cbss) =
      some (base_l1_alias +
        (alignUp (paddedSize d .cdata) (d.align .cbss) + paddedSize d .cbss)) := by
  obtain ⟨hcdata, hcdata'⟩ := h.cls_fresh .cdata (.inl rfl)
  obtain ⟨hcbss, hcbss'⟩ := h.cls_fresh .cbss (.inr rfl)
  obtain ⟨p, q, hp, hq, hpvma, hpsize, hqvma, hqsize, hwindow, hsymbols⟩ := h.cls_placed
  rw [hpvma, hpsize, hqvma, hqsize, Nat.add_assoc] at hsymbols
  refine ⟨⟨p, hp, hpsize⟩, ⟨q, hq, hqsize⟩, hwindow, ?_, ?_, ?_, ?_⟩
  · rw [hsymbols]
    exact lookup_assigned hcdata rfl
  · rw [hsymbols]
    exact lookup_assigned hcdata' rfl
  · rw [hsymbols]
    exact lookup_assigned hcbss rfl
  · rw [hsymbols]
    exact lookup_assigned hcbss' rfl

/-- The reserve of cluster `c` fills the window from its base on. -/
theorem place_reserve {K K' : Image} {c : ClusterId}
    (h : place (memory t) d.toInputs K (l1Cls c) = some K')
    (hcur : K.cursor (.l1 c) = clusterBase c) :
    K'.cursor (.l1 c) = clusterBase c + (K.sizeOf .cdata + K.sizeOf .cbss) ∧
    K'.symbols = K.symbols ∧ (K.find (.l1 c) = none → K'.find (.l1 c) = none) := by
  obtain ⟨p, e, cur, hat, hplaced, hsym, hallot, hallotLoad⟩ := place_kept h rfl
  obtain ⟨k, hk⟩ := d.alignment_pow (l1Cls c) ⟨5, rfl⟩
  have hbody := hat.body
  have hstop := hat.stop
  simp only [l1Cls, runBody, runCommand, Option.bind_some, Option.some.injEq, List.map_cons,
    List.map_nil, List.sum_cons, List.sum_nil, Nat.add_zero] at hbody
  subst hbody
  obtain ⟨-, hlimit, hvmaCur⟩ := allot_eq hallot
  -- the reserve is not loaded
  have hsame : K'.cursor = cur := by
    rcases allotLoad_cases hallotLoad with ⟨-, heq⟩ | ⟨q, hq, -⟩
    · exact heq
    · cases hq
  have hvma : p.vma = clusterBase c := by
    have hwindow : (memory t (l1Cls c).region).limit = clusterBase c + 0x20000 := rfl
    have hat' : p.vma = alignUp (clusterBase c) (2 ^ k) := by
      rw [hat.vma, hk, ← hcur]
      rfl
    rw [hat']
    exact alignUp_origin (clusterBase_mod c) (by omega)
  refine ⟨?_, hsym, ?_⟩
  · rw [hsame, hvmaCur, ← hvma]
    simp only at hstop
    rw [hstop]
    exact Function.update_self ..
  · intro hnone
    have hname : p.name = .l1Cls c := hat.name
    rw [Layout.find_placed hplaced hnone, hname]
    refine if_neg fun heq => ?_
    cases heq

/-- The data of cluster `c` is at the next address behind the reserve that
    its inputs allow. -/
theorem place_data {K K' : Image} {c : ClusterId} {x : Nat}
    (h : place (memory t) d.toInputs K (l1 c) = some K')
    (hcur : K.cursor (.l1 c) = clusterBase c + x) (hx : x % 32 = 0) :
    ∃ p : Placed SectionName Mem, K'.placed = K.placed ++ [p] ∧ p.name = .l1 c ∧
      p.vma = clusterBase c + alignUp x (d.align (.l1 c)) ∧ p.size = paddedSize d (.l1 c) ∧
      p.load = some (.memisl, d.load (.l1 c)) ∧
      alignUp x (d.align (.l1 c)) + p.size ≤ 0x20000 ∧ d.load (.l1 c) + p.size < 2 ^ 32 ∧
      K'.symbols = K.symbols ++ [(.start (.l1 c), p.vma), (.stop (.l1 c), p.vma + d.size (.l1 c)),
        (.heapStart c, p.vma + p.size)] := by
  obtain ⟨p, e, cur, hat, hplaced, hsym, hallot, hallotLoad⟩ := place_kept h rfl
  obtain ⟨hregion, hload, hsize⟩ := placedAs_l1 hat
  obtain ⟨k, hk⟩ := d.align_pow (.l1 c)
  have hbase := clusterBase_mod c
  obtain ⟨-, hlimit, -⟩ := allot_eq hallot
  have hwindow : (memory t (l1 c).region).limit = clusterBase c + 0x20000 := rfl
  have hvma : p.vma = clusterBase c + alignUp x (d.align (.l1 c)) := by
    have hat' : p.vma = alignUp (clusterBase c + x) (2 ^ k) := by
      rw [hat.vma, ← hcur, ← hk]
      refine d.alignUp_alignment (dvd_refl 32) ?_
      show K.cursor (.l1 c) % 32 = 0
      omega
    rw [hat', hk, alignUp_window hbase (by omega)]
  have hmod : p.vma % 32 = 0 := by
    rw [hvma, hk]
    have := alignUp_mod_32 (k := k) hx
    omega
  refine ⟨p, hplaced, hat.name, hvma, hsize, hload, by omega, ?_, ?_⟩
  · -- the data is loaded from memisl, which ends below 4 GiB
    rcases allotLoad_cases hallotLoad with ⟨hnone, -⟩ | ⟨q, hq, hlow⟩
    · cases hnone
    · cases hq
      have hmemisl : (memory t .memisl).limit < 2 ^ 32 := by
        cases t <;> decide
      exact (allot_eq hlow).2.1.trans_lt hmemisl
  · have hbody := hat.body
    simp only [l1, runBody, runCommand, Option.bind_some, Option.some.injEq, PNat.val_ofNat,
      alignUp_add hmod] at hbody
    rw [hsym, ← hbody, hsize]
    simp

/-- Where the data of `.l1_cX` is, behind the reserve, and its symbols. -/
theorem l1_spec (h : Stages t prevEnd d L A B C D) (c : ClusterId) {x payload : Nat}
    (hx : x = paddedSize d .cdata + paddedSize d .cbss)
    (hpayload : payload = alignUp x (d.align (.l1 c))) :
    payload + paddedSize d (.l1 c) ≤ 0x20000 ∧
    d.load (.l1 c) + paddedSize d (.l1 c) < 2 ^ 32 ∧
    (∃ p, D.find (.l1 c) = some p ∧ p.size = paddedSize d (.l1 c) ∧
      p.load = some (.memisl, d.load (.l1 c))) ∧
    D.symbols.lookup (.start (.l1 c)) = some (clusterBase c + payload) ∧
    D.symbols.lookup (.heapStart c) = some (clusterBase c + (payload + paddedSize d (.l1 c))) := by
  obtain ⟨pre, mid, post, hsplit, hpre, hmid⟩ := deviceL1_split c
  have hdata := h.l1Data
  rw [hsplit, layout_append] at hdata
  obtain ⟨K₁, hK₁, hdata⟩ := Option.bind_eq_some_iff.mp hdata
  obtain ⟨K₂, hK₂, hdata⟩ := Option.bind_eq_some_iff.mp hdata
  rw [layout_append] at hdata
  obtain ⟨K₃, hK₃, hdata⟩ := Option.bind_eq_some_iff.mp hdata
  obtain ⟨K₄, hK₄, hpost⟩ := Option.bind_eq_some_iff.mp hdata
  -- up to the reserve, and between the reserve and the data, the others
  obtain ⟨hcur₀, hstart₀, hheap₀, hfind₀⟩ :=
    layout_elsewhere h.upToCls fun _ hsec => elsewhere_upToCls c hsec
  obtain ⟨hcur₁, hstart₁, hheap₁, hfind₁⟩ := layout_elsewhere hK₁ hpre
  obtain ⟨hcur₃, hstart₃, hheap₃, hfind₃⟩ := layout_elsewhere hK₃ hmid
  have hbase : K₁.cursor (.l1 c) = clusterBase c := by
    rw [hcur₁, hcur₀]
    rfl
  obtain ⟨hcur₂, hsym₂, hfind₂⟩ := place_reserve hK₂ hbase
  obtain ⟨⟨p, hp, hpsize⟩, ⟨q, hq, hqsize⟩, -⟩ := h.cls_spec
  have hreserve : K₁.sizeOf .cdata + K₁.sizeOf .cbss = x := by
    rw [hx, sizeOf_of_find ((layout_continues hK₁).find hp),
      sizeOf_of_find ((layout_continues hK₁).find hq), hpsize, hqsize]
  have hmod : x % 32 = 0 := by
    have := alignUp_mod (d.size .cdata) 32
    have := alignUp_mod (d.size .cbss) 32
    unfold paddedSize at hx
    omega
  rw [hreserve, ← hcur₃] at hcur₂
  obtain ⟨r, hplaced, hname, hvma, hsize, hload, hfits, hlma, hsym₄⟩ := place_data hK₄ hcur₂ hmod
  rw [← hpayload] at hvma hfits
  have hfind₄ : K₄.find (.l1 c) = some r := by
    rw [Layout.find_placed hplaced (hfind₃ (hfind₂ (hfind₁ (hfind₀ rfl)))), if_pos hname]
  have hstart : K₃.symbols.lookup (.start (.l1 c)) = none :=
    hstart₃ (hsym₂ ▸ hstart₁ (hstart₀ rfl))
  have hheap : K₃.symbols.lookup (.heapStart c) = none := hheap₃ (hsym₂ ▸ hheap₁ (hheap₀ rfl))
  have hlater := layout_continues hpost
  refine ⟨hsize ▸ hfits, hsize ▸ hlma, ⟨r, hlater.find hfind₄, hsize, hload⟩, ?_, ?_⟩
  · refine hlater.lookup ?_
    rw [hsym₄, ← hvma]
    refine lookup_assigned hstart ?_
    simp
  · refine hlater.lookup ?_
    rw [hsym₄, ← Nat.add_assoc, ← hvma, ← hsize]
    refine lookup_assigned hheap ?_
    have hfirst : (Symbol.heapStart c == Symbol.start (.l1 c)) = false := rfl
    have hsecond : (Symbol.heapStart c == Symbol.stop (.l1 c)) = false := rfl
    simp [List.lookup_cons, hfirst, hsecond]

/-- The symbols of cluster `c` after the whole link, as offsets. -/
theorem offsets (h : Stages t prevEnd d L A B C D) (c : ClusterId) :
    ∃ y, clsSymbols L c = some y ∧
      Offsets y c (paddedSize d .cdata) (alignUp (paddedSize d .cdata) (d.align .cbss))
        (paddedSize d .cbss)
        (alignUp (paddedSize d .cdata + paddedSize d .cbss) (d.align (.l1 c)))
        (paddedSize d (.l1 c)) := by
  obtain ⟨-, -, hoff, hcdata, hcdata', hcbss, hcbss'⟩ := h.cls_spec
  obtain ⟨hpayload, hlma, ⟨r, hr, hsize, hload⟩, hstart, hheap⟩ := h.l1_spec c rfl rfl
  obtain ⟨tbssEnd, -, hplaced, -, hsymbols⟩ := assignDeviceEnd_eq h.last
  have hlater := layout_continues h.l1Data
  -- `__device_end` comes last and changes none of the others
  have hkept : ∀ s v, D.symbols.lookup s = some v → L.symbols.lookup s = some v := by
    intro s v hs
    rw [hsymbols, List.lookup_append, hs, Option.some_or]
  have hfind : L.find (.l1 c) = some r := by
    rw [Layout.find, hplaced]
    exact hr
  have hloadAddr : L.loadAddr (.l1 c) = d.load (.l1 c) := by
    simp only [Layout.loadAddr, hfind, hload]
  have hlmaEnd : lmaEnd L (.l1 c) = d.load (.l1 c) + paddedSize d (.l1 c) := by
    rw [lmaEnd, hloadAddr, sizeOf_of_find hfind, hsize]
  refine ⟨{
    cdataStart := base_l1_alias
    cdataEnd := base_l1_alias + paddedSize d .cdata
    cbssStart := base_l1_alias + alignUp (paddedSize d .cdata) (d.align .cbss)
    cbssEnd := base_l1_alias +
      (alignUp (paddedSize d .cdata) (d.align .cbss) + paddedSize d .cbss)
    l1Start := clusterBase c +
      alignUp (paddedSize d .cdata + paddedSize d .cbss) (d.align (.l1 c))
    l1LmaStart := d.load (.l1 c)
    l1LmaEnd := d.load (.l1 c) + paddedSize d (.l1 c)
    heapStart := clusterBase c +
      (alignUp (paddedSize d .cdata + paddedSize d .cbss) (d.align (.l1 c)) +
        paddedSize d (.l1 c)) }, ?_, ?_⟩
  · simp only [clsSymbols, hkept _ _ (hlater.lookup hcdata), hkept _ _ (hlater.lookup hcdata'),
      hkept _ _ (hlater.lookup hcbss), hkept _ _ (hlater.lookup hcbss'), hkept _ _ hstart,
      hkept _ _ hheap, hloadAddr, hlmaEnd]
    rfl
  · exact {
      cdata_symbols := ⟨rfl, rfl⟩
      cbss_symbols := ⟨rfl, rfl⟩
      l1_symbols := ⟨rfl, rfl⟩
      lma_symbols := ⟨rfl, hlma⟩
      window := ⟨hoff, hpayload⟩
      order := ⟨le_alignUp (PNat.pos _), le_alignUp (PNat.pos _)⟩ }

end Stages

/-! ## Section 4: When the initialisation is apart -/

/-- The reserve is large enough when the inputs of `.cbss` ask for no more
    than the 32 bytes that the script rounds to. -/
theorem cbssInReserve_of_align {d : Device} (h : d.align .cbss ≤ 32) (c : ClusterId) :
    CbssInReserve d c := by
  have hmod : paddedSize d .cdata % 32 = 0 := alignUp_mod _ _
  have hpad : alignUp (paddedSize d .cdata) (d.align .cbss) = paddedSize d .cdata :=
    alignUp_of_mod (PNat.pos _)
      (Nat.mod_eq_zero_of_dvd ((d.align_dvd h).trans (Nat.dvd_of_mod_eq_zero hmod)))
  unfold CbssInReserve
  rw [hpad]
  exact le_alignUp (PNat.pos _)

/-- **The initialisation of a cluster is apart** if and only if `.cbss` is
    empty, or the padding in front of it does not push it over the start
    of the data of `.l1_cX`. -/
theorem cluster_init_apart_iff (t : Target) (prevEnd : Option Nat) (d : Device) (L : Image)
    (h : linkDevice t prevEnd d = some L) (c : ClusterId) :
    ClusterInitApart L c ↔ d.size .cbss = 0 ∨ CbssInReserve d c := by
  obtain ⟨A, B, C, D, hstages⟩ := linkDevice_stages h
  obtain ⟨y, hy, hoffsets⟩ := hstages.offsets c
  have hzero : paddedSize d .cbss = 0 ↔ d.size .cbss = 0 := alignUp_eq_zero_iff (by decide)
  have hexists : ClusterInitApart L c ↔ (transfers y c).Pairwise Transfer.Disjoint ∧
      ∀ tr ∈ transfers y c, tr.dst.toNat + tr.size.toNat ≤ y.heapStart := by
    simp [ClusterInitApart, hy]
  rw [hexists, hoffsets.apart_iff, hzero]
  rfl

/-- A device with eight bytes of code, and four of `.cdata`, of `.cbss` and
    of data for the L1 of cluster 0.  Only `.cbss` has an alignment of its
    own. -/
def clsDevice (cbssAlign : ℕ+) (hpow : ∃ k : Nat, (cbssAlign : Nat) = 2 ^ k) : Device where
  size := fun n => match n with
    | .common => 64
    | .init => 8
    | .cdata | .cbss => 4
    | .l1 c => if c = 0 then 4 else 0
    | _ => 0
  align := fun n => match n with
    | .cbss => cbssAlign
    | n => (smallDevice 0 0 0).align n
  load := fun n => match n with
    | .cdata => 0x48001040
    | .cbss => 0x48001080
    | .l1 c => if c = 0 then 0x480010A0 else 0x480010C0
    | _ => 0
  align_pow := fun n => by
    cases n with
    | cbss => exact hpow
    | _ => exact (smallDevice 0 0 0).align_pow _
  first_pos := by
    show 0 < 8
    decide
  first_align := (smallDevice 0 0 0).first_align

theorem clsDevice_init_apart :
    ∃ L, linkDevice .chimeraConvolve none (clsDevice 32 ⟨5, rfl⟩) = some L ∧
      ClusterInitApart L 0 := by
  obtain ⟨L, hL⟩ := Option.isSome_iff_exists.mp
    (show (linkDevice .chimeraConvolve none (clsDevice 32 ⟨5, rfl⟩)).isSome from rfl)
  exact ⟨L, hL, (cluster_init_apart_iff _ _ _ L hL 0).mpr
    (.inr (cbssInReserve_of_align (le_refl (32 : ℕ+)) 0))⟩

/-- With inputs aligned to 64 bytes, `.cbss` is moved on top of the data of
    `.l1_c0`. -/
theorem cbss_over_l1_data :
    ∃ L, linkDevice .chimeraConvolve none (clsDevice 64 ⟨6, rfl⟩) = some L ∧
      ¬ ClusterInitApart L 0 := by
  obtain ⟨L, hL⟩ := Option.isSome_iff_exists.mp
    (show (linkDevice .chimeraConvolve none (clsDevice 64 ⟨6, rfl⟩)).isSome from rfl)
  refine ⟨L, hL, ?_⟩
  have hsymbols : clsSymbols L 0 = some ⟨0x18000000, 0x18000020, 0x18000040, 0x18000060,
      0x40000040, 0x480010A0, 0x480010C0, 0x40000060⟩ := by
    have hbind : (linkDevice .chimeraConvolve none (clsDevice 64 ⟨6, rfl⟩)).bind
        (clsSymbols · 0) = some ⟨0x18000000, 0x18000020, 0x18000040, 0x18000060,
          0x40000040, 0x480010A0, 0x480010C0, 0x40000060⟩ := rfl
    rwa [hL] at hbind
  rintro ⟨y, hy, hpair, -⟩
  rw [hsymbols, Option.some.injEq] at hy
  subst hy
  -- the first transfer and the last one go to the same 32 bytes
  rcases (pairwise_three.mp hpair).2.1 (by decide) (by decide) with hbefore | hbehind
  · exact absurd hbefore (by decide)
  · exact absurd hbehind (by decide)

end LinkLd
