import Mathlib.Data.PNat.Basic
import Mathlib.Data.List.Basic
import ChimeraSdk.Framework.Align

/-! # Linker Scripts

    A script lists output sections.  Each gathers input sections, assigns
    symbols and moves the location counter; it is placed behind the
    cursor of a memory region and may have a load address in another one.
    The inputs of a link are the sizes and alignments of what is gathered,
    and the load addresses, which are the linker's own choice within the
    rules of `allot`.

    The three names `N`, `R` and `S` of sections, regions and symbols are
    arbitrary types. -/

namespace LinkerScript

open Align

/-! ## Section 1: Scripts -/

/-- A command in the body of an output section. -/
inductive Command (N S : Type) where
  /-- `s = .;` -/
  | symbol (s : S)
  /-- The input section descriptions. -/
  | inputs
  /-- `. = ALIGN(n);` -/
  | align (n : ℕ+)
  /-- `. = addr;` -/
  | moveTo (addr : Nat)
  /-- `. += SIZEOF(a) + SIZEOF(b) + ...;` -/
  | skip (sections : List N)

/-- `name : ALIGN(align) { body } > region AT > loadRegion`.  A section
    without an `ALIGN` attribute has `align = 1`. -/
structure OutputSection (N R S : Type) where
  name : N
  align : ℕ+
  body : List (Command N S)
  region : R
  loadRegion : Option R

/-- The symbol that a command assigns. -/
def Command.assigned {N S : Type} : Command N S → Option S
  | .symbol s => some s
  | _ => none

/-- The symbols that a section assigns. -/
def OutputSection.symbols {N R S : Type} (sec : OutputSection N R S) : List S :=
  sec.body.filterMap Command.assigned

/-- A line of the `MEMORY` block. -/
structure Region where
  origin : Nat
  length : Nat

def Region.limit (r : Region) : Nat := r.origin + r.length

/-- What a link is given for each section: the size of the gathered inputs
    and their alignment, and the load address of a section with a load
    region. -/
structure Inputs (N : Type) where
  size : N → Nat
  align : N → ℕ+
  load : N → Nat

/-! ## Section 2: Layouts -/

/-- An output section with its address, `SIZEOF` and load address. -/
structure Placed (N R : Type) where
  name : N
  region : R
  vma : Nat
  size : Nat
  load : Option (R × Nat)

/-- A byte of region `r` that a section occupies, at its address or at its
    load address. -/
def Placed.Occupies {N R : Type} (p : Placed N R) (r : R) (addr : Nat) : Prop :=
  (p.region = r ∧ p.vma ≤ addr ∧ addr < p.vma + p.size) ∨
  (∃ lma, p.load = some (r, lma) ∧ lma ≤ addr ∧ addr < lma + p.size)

/-- The state of a link: the cursor of every region, the sections placed
    and the symbols assigned so far, in order. -/
structure Layout (N R S : Type) where
  cursor : R → Nat
  placed : List (Placed N R)
  symbols : List (S × Nat)

/-- The location counter inside a body, with the symbols assigned so far. -/
structure Dot (S : Type) where
  addr : Nat
  symbols : List (S × Nat)

section
variable {N R S : Type} {L L' : Layout N R S}

/-- A layout continues another: sections and symbols are only added. -/
structure Continues (L L' : Layout N R S) : Prop where
  placed : ∃ more, L'.placed = L.placed ++ more
  symbols : ∃ more, L'.symbols = L.symbols ++ more
  cursor : ∀ q, L.cursor q ≤ L'.cursor q

theorem Continues.refl (L : Layout N R S) : Continues L L where
  placed := ⟨[], (List.append_nil _).symm⟩
  symbols := ⟨[], (List.append_nil _).symm⟩
  cursor := fun _ => le_refl _

theorem Continues.trans {L₁ L₂ L₃ : Layout N R S} (h : Continues L₁ L₂) (h' : Continues L₂ L₃) :
    Continues L₁ L₃ where
  placed := by
    obtain ⟨more, hmore⟩ := h.placed
    obtain ⟨more', hmore'⟩ := h'.placed
    exact ⟨more ++ more', by rw [hmore', hmore, List.append_assoc]⟩
  symbols := by
    obtain ⟨more, hmore⟩ := h.symbols
    obtain ⟨more', hmore'⟩ := h'.symbols
    exact ⟨more ++ more', by rw [hmore', hmore, List.append_assoc]⟩
  cursor := fun q => Nat.le_trans (h.cursor q) (h'.cursor q)

/-- A symbol keeps its first value. -/
theorem Continues.lookup [BEq S] {s : S} {v : Nat} (h : Continues L L')
    (hs : L.symbols.lookup s = some v) : L'.symbols.lookup s = some v := by
  obtain ⟨more, hmore⟩ := h.symbols
  rw [hmore, List.lookup_append, hs, Option.some_or]

variable [DecidableEq N] [DecidableEq R]

def Layout.start (mem : R → Region) : Layout N R S where
  cursor := fun r => (mem r).origin
  placed := []
  symbols := []

def Layout.find (L : Layout N R S) (n : N) : Option (Placed N R) :=
  L.placed.find? (fun p => p.name = n)

/-- `SIZEOF(n)`; a section that does not exist has size zero. -/
def Layout.sizeOf (L : Layout N R S) (n : N) : Nat :=
  match L.find n with
  | some p => p.size
  | none => 0

/-- `LOADADDR(n)`, the address of a section without a load region. -/
def Layout.loadAddr (L : Layout N R S) (n : N) : Nat :=
  match L.find n with
  | some p => match p.load with
    | some (_, lma) => lma
    | none => p.vma
  | none => 0

def runCommand (sizeOf : N → Nat) (size : Nat) (d : Dot S) : Command N S → Option (Dot S)
  | .symbol s => some { d with symbols := d.symbols ++ [(s, d.addr)] }
  | .inputs => some { d with addr := d.addr + size }
  | .align n => some { d with addr := alignUp d.addr n }
  -- the location counter of a section never moves backwards
  | .moveTo addr => if d.addr ≤ addr then some { d with addr := addr } else none
  | .skip sections => some { d with addr := d.addr + (sections.map sizeOf).sum }

def runBody (sizeOf : N → Nat) (size : Nat) : List (Command N S) → Dot S → Option (Dot S)
  | [], d => some d
  | c :: cs, d => (runCommand sizeOf size d c).bind (runBody sizeOf size cs)

/-- Allot `size` bytes of region `r` at `lo`: behind the cursor and inside
    the region. -/
def allot (mem : R → Region) (cursor : R → Nat) (r : R) (lo size : Nat) : Option (R → Nat) :=
  if cursor r ≤ lo ∧ lo + size ≤ (mem r).limit then some (Function.update cursor r (lo + size))
  else none

/-- The alignment of a section: of its attribute and of its inputs. -/
def OutputSection.alignment (sec : OutputSection N R S) (inp : Inputs N) : ℕ+ :=
  max sec.align (inp.align sec.name)

/-- A section that only gathers inputs does not exist when there are none. -/
def OutputSection.discarded (sec : OutputSection N R S) (inp : Inputs N) : Bool :=
  sec.body.all (fun c => match c with | .inputs => true | _ => false) && inp.size sec.name == 0

/-- The allotment at a load address, which is aligned like the section. -/
def allotLoad (mem : R → Region) (inp : Inputs N) (sec : OutputSection N R S) (size : Nat)
    (cursor : R → Nat) : Option (R → Nat) :=
  match sec.loadRegion with
  | none => some cursor
  | some r =>
      if inp.load sec.name % sec.alignment inp = 0 then
        allot mem cursor r (inp.load sec.name) size
      else none

def place (mem : R → Region) (inp : Inputs N) (L : Layout N R S) (sec : OutputSection N R S) :
    Option (Layout N R S) :=
  if sec.discarded inp then some L
  else
    let vma := alignUp (L.cursor sec.region) (sec.alignment inp)
    (runBody L.sizeOf (inp.size sec.name) sec.body ⟨vma, L.symbols⟩).bind fun d =>
    (allot mem L.cursor sec.region vma (d.addr - vma)).bind fun cursor =>
    (allotLoad mem inp sec (d.addr - vma) cursor).bind fun cursor' =>
      some {
        cursor := cursor'
        placed := L.placed ++ [{
          name := sec.name
          region := sec.region
          vma := vma
          size := d.addr - vma
          load := sec.loadRegion.map (fun r => (r, inp.load sec.name)) }]
        symbols := d.symbols }

/-- Place the sections of a script one after the other. -/
def layout (mem : R → Region) (inp : Inputs N) :
    List (OutputSection N R S) → Layout N R S → Option (Layout N R S)
  | [], L => some L
  | sec :: secs, L => (place mem inp L sec).bind (layout mem inp secs)

/-! ## Section 3: What one section does -/

variable {mem : R → Region} {inp : Inputs N} {sec : OutputSection N R S}
  {cursor cursor' : R → Nat} {r : R} {lo size : Nat}

omit [DecidableEq N] [DecidableEq R] in
theorem OutputSection.alignment_cases (sec : OutputSection N R S) (inp : Inputs N) :
    sec.alignment inp = sec.align ∨ sec.alignment inp = inp.align sec.name :=
  max_choice _ _

theorem allot_eq (h : allot mem cursor r lo size = some cursor') :
    cursor r ≤ lo ∧ lo + size ≤ (mem r).limit ∧ cursor' = Function.update cursor r (lo + size) := by
  unfold allot at h
  split at h
  · rename_i hfits
    exact ⟨hfits.1, hfits.2, (Option.some.inj h).symm⟩
  · cases h

theorem allot_mono (h : allot mem cursor r lo size = some cursor') (q : R) :
    cursor q ≤ cursor' q := by
  obtain ⟨hlo, -, rfl⟩ := allot_eq h
  by_cases hq : q = r
  · subst hq
    rw [Function.update_self]
    omega
  · rw [Function.update_of_ne hq]

omit [DecidableEq N] in
theorem runCommand_mono {sizeOf : N → Nat} {d d' : Dot S} {c : Command N S}
    (h : runCommand sizeOf size d c = some d') :
    d.addr ≤ d'.addr ∧ ∃ more, d'.symbols = d.symbols ++ more := by
  cases c with
  | symbol s =>
    cases h
    exact ⟨le_refl _, _, rfl⟩
  | inputs =>
    cases h
    exact ⟨Nat.le_add_right _ _, [], (List.append_nil _).symm⟩
  | align n =>
    cases h
    exact ⟨le_alignUp n.pos, [], (List.append_nil _).symm⟩
  -- the linker refuses to move the dot backwards
  | moveTo addr =>
    simp only [runCommand] at h
    split at h
    · rename_i hle
      cases h
      exact ⟨hle, [], (List.append_nil _).symm⟩
    · cases h
  | skip sections =>
    cases h
    exact ⟨Nat.le_add_right _ _, [], (List.append_nil _).symm⟩

omit [DecidableEq N] in
theorem runBody_mono {sizeOf : N → Nat} {body : List (Command N S)} {d d' : Dot S}
    (h : runBody sizeOf size body d = some d') :
    d.addr ≤ d'.addr ∧ ∃ more, d'.symbols = d.symbols ++ more := by
  induction body generalizing d with
  | nil =>
    cases h
    exact ⟨le_refl _, [], (List.append_nil _).symm⟩
  | cons c cs ih =>
    obtain ⟨e, hc, hcs⟩ := Option.bind_eq_some_iff.mp h
    obtain ⟨hle, more, hmore⟩ := runCommand_mono hc
    obtain ⟨hle', more', hmore'⟩ := ih hcs
    refine ⟨Nat.le_trans hle hle', more ++ more', ?_⟩
    rw [hmore', hmore, List.append_assoc]

/-- `p` is the section `sec`, placed behind `L`; its body ends at `d`. -/
structure PlacedAs (inp : Inputs N) (L : Layout N R S) (sec : OutputSection N R S)
    (p : Placed N R) (d : Dot S) : Prop where
  name : p.name = sec.name
  region : p.region = sec.region
  vma : p.vma = alignUp (L.cursor sec.region) (sec.alignment inp)
  stop : d.addr = p.vma + p.size
  load : p.load = sec.loadRegion.map (fun r => (r, inp.load sec.name))
  body : runBody L.sizeOf (inp.size sec.name) sec.body ⟨p.vma, L.symbols⟩ = some d

/-- All that placing a section can do: nothing, or allot the section at
    the next aligned address, and at its load address. -/
theorem place_cases (h : place mem inp L sec = some L') :
    (sec.discarded inp = true ∧ L' = L) ∨
    (sec.discarded inp = false ∧ ∃ p d cur, PlacedAs inp L sec p d ∧
      L'.placed = L.placed ++ [p] ∧ L'.symbols = d.symbols ∧
      allot mem L.cursor sec.region p.vma p.size = some cur ∧
      allotLoad mem inp sec p.size cur = some L'.cursor) := by
  unfold place at h
  split at h
  · rename_i hdisc
    exact .inl ⟨hdisc, (Option.some.inj h).symm⟩
  · rename_i hkept
    obtain ⟨d, hbody, h⟩ := Option.bind_eq_some_iff.mp h
    obtain ⟨cur, hvma, h⟩ := Option.bind_eq_some_iff.mp h
    obtain ⟨cur', hload, h⟩ := Option.bind_eq_some_iff.mp h
    have hmono := (runBody_mono hbody).1
    cases h
    refine .inr ⟨Bool.not_eq_true _ ▸ hkept, _, d, cur, ⟨rfl, rfl, rfl, ?_, rfl, hbody⟩, rfl, rfl,
      hvma, hload⟩
    show d.addr = alignUp _ _ + (d.addr - alignUp _ _)
    simp only at hmono
    omega

theorem place_kept (h : place mem inp L sec = some L') (hkept : sec.discarded inp = false) :
    ∃ p d cur, PlacedAs inp L sec p d ∧
      L'.placed = L.placed ++ [p] ∧ L'.symbols = d.symbols ∧
      allot mem L.cursor sec.region p.vma p.size = some cur ∧
      allotLoad mem inp sec p.size cur = some L'.cursor := by
  rcases place_cases h with ⟨hdisc, -⟩ | ⟨-, hplaced⟩
  · rw [hkept] at hdisc
    cases hdisc
  · exact hplaced

omit [DecidableEq N] in
theorem allotLoad_cases (h : allotLoad mem inp sec size cursor = some cursor') :
    (sec.loadRegion = none ∧ cursor' = cursor) ∨
    ∃ r, sec.loadRegion = some r ∧ allot mem cursor r (inp.load sec.name) size = some cursor' := by
  unfold allotLoad at h
  split at h
  · rename_i hnone
    exact .inl ⟨hnone, (Option.some.inj h).symm⟩
  · rename_i r hsome
    split at h
    · exact .inr ⟨r, hsome, h⟩
    · cases h

omit [DecidableEq N] in
theorem allotLoad_mono (h : allotLoad mem inp sec size cursor = some cursor') (q : R) :
    cursor q ≤ cursor' q := by
  rcases allotLoad_cases h with ⟨-, rfl⟩ | ⟨r, -, hallot⟩
  · exact le_refl _
  · exact allot_mono hallot q

theorem place_mono (h : place mem inp L sec = some L') (q : R) : L.cursor q ≤ L'.cursor q := by
  rcases place_cases h with ⟨-, rfl⟩ | ⟨-, p, d, cur, -, -, -, hvma, hload⟩
  · exact le_refl _
  · exact Nat.le_trans (allot_mono hvma q) (allotLoad_mono hload q)

/-! ## Section 4: What a script does -/

omit [DecidableEq R] in
theorem Continues.find {n : N} {p : Placed N R} (h : Continues L L') (hp : L.find n = some p) :
    L'.find n = some p := by
  obtain ⟨more, hmore⟩ := h.placed
  unfold Layout.find at hp ⊢
  rw [hmore, List.find?_append, hp, Option.some_or]

omit [DecidableEq R] in
/-- What a new section does to a name that was not placed yet. -/
theorem Layout.find_placed {n : N} {p : Placed N R} (h : L'.placed = L.placed ++ [p])
    (hnone : L.find n = none) : L'.find n = if p.name = n then some p else none := by
  unfold Layout.find at hnone ⊢
  rw [h, List.find?_append, hnone]
  by_cases hname : p.name = n
  · simp [hname]
  · simp [hname]

theorem place_continues (h : place mem inp L sec = some L') : Continues L L' := by
  refine ⟨?_, ?_, place_mono h⟩
  · rcases place_cases h with ⟨-, rfl⟩ | ⟨-, p, d, cur, -, hp, -⟩
    · exact ⟨[], (List.append_nil _).symm⟩
    · exact ⟨[p], hp⟩
  · rcases place_cases h with ⟨-, rfl⟩ | ⟨-, p, d, cur, hat, -, hs, -⟩
    · exact ⟨[], (List.append_nil _).symm⟩
    · obtain ⟨more, hmore⟩ := (runBody_mono hat.body).2
      exact ⟨more, hs.trans hmore⟩

theorem layout_append {pre post : List (OutputSection N R S)} :
    layout mem inp (pre ++ post) L = (layout mem inp pre L).bind (layout mem inp post) := by
  induction pre generalizing L with
  | nil => rfl
  | cons sec pre ih =>
    simp only [List.cons_append, layout, Option.bind_assoc]
    congr 1
    funext L₁
    exact ih

/-- The induction over a script: what every section preserves holds after
    the script. -/
theorem layout_induction {P : Layout N R S → Prop} {secs : List (OutputSection N R S)}
    (hstep : ∀ sec ∈ secs, ∀ L₁ L₂, place mem inp L₁ sec = some L₂ → P L₁ → P L₂)
    (h : layout mem inp secs L = some L') (hL : P L) : P L' := by
  induction secs generalizing L with
  | nil =>
    cases h
    exact hL
  | cons sec secs ih =>
    obtain ⟨L₁, hplace, hrest⟩ := Option.bind_eq_some_iff.mp h
    exact ih (fun s hs => hstep s (List.mem_cons_of_mem _ hs)) hrest
      (hstep sec List.mem_cons_self L L₁ hplace hL)

theorem layout_continues {secs : List (OutputSection N R S)} (h : layout mem inp secs L = some L') :
    Continues L L' :=
  layout_induction (P := Continues L)
    (fun _ _ _ _ hplace hL => hL.trans (place_continues hplace)) h (Continues.refl L)

/-- Every occupied byte of a region lies below the region's cursor. -/
def Bounded (L : Layout N R S) : Prop :=
  ∀ p ∈ L.placed, ∀ r addr, p.Occupies r addr → addr < L.cursor r

omit [DecidableEq N] [DecidableEq R] in
theorem bounded_start (mem : R → Region) : Bounded (Layout.start mem : Layout N R S) := by
  intro p hp
  cases hp

theorem bounded_place (h : place mem inp L sec = some L') (hb : Bounded L) : Bounded L' := by
  intro p hp r addr hocc
  -- a section that is dropped changes nothing
  rcases place_cases h with ⟨-, rfl⟩ |
    ⟨-, q, d, cur, hat, hplaced, -, hallot, hallotLoad⟩
  · exact hb p hp r addr hocc
  · rw [hplaced] at hp
    rcases List.mem_append.mp hp with hold | hnew
    · exact Nat.lt_of_lt_of_le (hb p hold r addr hocc) (place_mono h r)
    · rw [List.mem_singleton] at hnew
      subst hnew
      rcases hocc with ⟨rfl, -, hhi⟩ | ⟨lma, hlma, -, hhi⟩
      · -- at its address the section ends at the cursor it leaves
        have hcur : p.vma + p.size = cur p.region := by
          obtain ⟨-, -, hcur⟩ := allot_eq hallot
          rw [hcur, hat.region, Function.update_self]
        have := allotLoad_mono hallotLoad p.region
        omega
      · -- and so it does at its load address
        rcases allotLoad_cases hallotLoad with ⟨hnone, -⟩ | ⟨q, hsome, hlow⟩
        · rw [hat.load, hnone] at hlma
          cases hlma
        · rw [hat.load, hsome] at hlma
          cases hlma
          obtain ⟨-, -, hcur⟩ := allot_eq hlow
          rw [hcur, Function.update_self]
          exact hhi

theorem bounded_layout {secs : List (OutputSection N R S)} (h : layout mem inp secs L = some L')
    (hb : Bounded L) : Bounded L' :=
  layout_induction (fun _ _ _ _ hplace => bounded_place hplace) h hb

/-- A region that no section of a script uses keeps its cursor. -/
theorem layout_frame {secs : List (OutputSection N R S)} {q : R}
    (h : layout mem inp secs L = some L')
    (hq : ∀ sec ∈ secs, sec.region ≠ q ∧ sec.loadRegion ≠ some q) : L'.cursor q = L.cursor q := by
  refine layout_induction (P := fun K => K.cursor q = L.cursor q) ?_ h rfl
  intro sec hsec L₁ L₂ hplace hL₁
  obtain ⟨hregion, hload⟩ := hq sec hsec
  rw [← hL₁]
  rcases place_cases hplace with ⟨-, rfl⟩ | ⟨-, p, d, cur, -, -, -, hallot, hallotLoad⟩
  · rfl
  · have hcur : cur q = L₁.cursor q := by
      obtain ⟨-, -, rfl⟩ := allot_eq hallot
      exact Function.update_of_ne hregion.symm _ _
    rcases allotLoad_cases hallotLoad with ⟨-, heq⟩ | ⟨r, hr, hat⟩
    · rw [heq, hcur]
    · have hne : q ≠ r := by
        rintro rfl
        exact hload hr
      obtain ⟨-, -, heq⟩ := allot_eq hat
      rw [heq, Function.update_of_ne hne, hcur]

omit [DecidableEq N] in
theorem runBody_lookup_none [BEq S] [LawfulBEq S] {sizeOf : N → Nat} {body : List (Command N S)}
    {d d' : Dot S} {s : S} (h : runBody sizeOf size body d = some d')
    (hs : d.symbols.lookup s = none) (hbody : s ∉ body.filterMap Command.assigned) :
    d'.symbols.lookup s = none := by
  induction body generalizing d with
  | nil =>
    cases h
    exact hs
  | cons c cs ih =>
    obtain ⟨e, hc, hcs⟩ := Option.bind_eq_some_iff.mp h
    cases c with
    | symbol s' =>
      -- the symbol assigned here is another one
      have hassigned : (Command.symbol s' : Command N S).assigned = some s' := rfl
      rw [List.filterMap_cons_some hassigned, List.mem_cons, not_or] at hbody
      cases hc
      refine ih hcs ?_ hbody.2
      simp [List.lookup_append, hs, List.lookup_cons, beq_false_of_ne hbody.1]
    | inputs =>
      cases hc
      exact ih hcs hs hbody
    | align n =>
      cases hc
      exact ih hcs hs hbody
    | moveTo addr =>
      simp only [runCommand] at hc
      split at hc
      · cases hc
        exact ih hcs hs hbody
      · cases hc
    | skip sections =>
      cases hc
      exact ih hcs hs hbody

/-- A symbol that no section of a script assigns stays undefined. -/
theorem layout_lookup_none [BEq S] [LawfulBEq S] {secs : List (OutputSection N R S)} {s : S}
    (h : layout mem inp secs L = some L') (hs : L.symbols.lookup s = none)
    (hsecs : s ∉ secs.flatMap OutputSection.symbols) : L'.symbols.lookup s = none := by
  refine layout_induction (P := fun K => K.symbols.lookup s = none) ?_ h hs
  intro sec hsec L₁ L₂ hplace hL₁
  rcases place_cases hplace with ⟨-, rfl⟩ | ⟨-, p, d, cur, hat, -, hsym, -⟩
  · exact hL₁
  · rw [hsym]
    refine runBody_lookup_none hat.body hL₁ ?_
    exact fun hmem => hsecs (List.mem_flatMap.mpr ⟨sec, hsec, hmem⟩)

/-- A section is one of the script, and is where the script puts it. -/
theorem layout_mem_placed {secs : List (OutputSection N R S)}
    (h : layout mem inp secs L = some L') :
    ∀ p ∈ L'.placed, p ∈ L.placed ∨ ∃ sec ∈ secs, ∃ L₁ d, PlacedAs inp L₁ sec p d := by
  refine layout_induction (P := fun K => ∀ p ∈ K.placed,
    p ∈ L.placed ∨ ∃ sec ∈ secs, ∃ L₁ d, PlacedAs inp L₁ sec p d) ?_ h (fun p hp => .inl hp)
  intro sec hsec L₁ L₂ hplace hL₁ p hp
  rcases place_cases hplace with ⟨-, rfl⟩ | ⟨-, q, d, cur, hat, hplaced, -⟩
  · exact hL₁ p hp
  · rw [hplaced] at hp
    rcases List.mem_append.mp hp with hold | hnew
    · exact hL₁ p hold
    · rw [List.mem_singleton] at hnew
      exact .inr ⟨sec, hsec, L₁, d, hnew ▸ hat⟩

/-- A section of the script that is not discarded is placed. -/
theorem layout_placed {secs : List (OutputSection N R S)}
    (h : layout mem inp secs L = some L') (hsec : sec ∈ secs) (hkept : sec.discarded inp = false) :
    ∃ p ∈ L'.placed, ∃ L₁ d, PlacedAs inp L₁ sec p d := by
  obtain ⟨pre, post, rfl⟩ := List.append_of_mem hsec
  rw [layout_append] at h
  obtain ⟨L₁, -, h⟩ := Option.bind_eq_some_iff.mp h
  obtain ⟨L₂, hplace, hrest⟩ := Option.bind_eq_some_iff.mp h
  obtain ⟨p, d, cur, hat, hplaced, -⟩ := place_kept hplace hkept
  obtain ⟨more, hmore⟩ := (layout_continues hrest).placed
  exact ⟨p, by rw [hmore, hplaced]; simp, L₁, d, hat⟩

/-! ## Section 5: Padded sections -/

/-- A body whose inputs are padded to `n` on both sides, between symbols. -/
def padded (n : ℕ+) (first last : S) : List (Command N S) :=
  [.align n, .symbol first, .inputs, .align n, .symbol last]

omit [DecidableEq R] in
/-- A padded section spans from a multiple of `n` to a multiple of `n`. -/
theorem PlacedAs.padded {n : ℕ+} {first last : S} {p : Placed N R} {d : Dot S}
    (h : PlacedAs inp L sec p d) (hbody : sec.body = padded n first last) :
    p.vma + p.size = alignUp p.vma n + alignUp (inp.size sec.name) n ∧
    d.symbols = L.symbols ++ [(first, alignUp p.vma n), (last, p.vma + p.size)] := by
  have hmod : alignUp p.vma n % n = 0 := alignUp_mod _ _
  have hrun := h.body
  have hstop := h.stop
  rw [hbody] at hrun
  simp only [LinkerScript.padded, runBody, runCommand, Option.bind_some, Option.some.injEq,
    alignUp_add hmod] at hrun
  subst hrun
  simp only at hstop
  exact ⟨hstop.symm, by simp [hstop]⟩

omit [DecidableEq R] [DecidableEq N] in
theorem discarded_padded {n : ℕ+} {first last : S} (hbody : sec.body = padded n first last) :
    sec.discarded inp = false := by
  simp [OutputSection.discarded, hbody, padded]

end

end LinkerScript
