import ChimeraSdk.Scripts.CheckSectionOverlaps

/-! # Overlaps in Any Order

    `check_overlaps` compares every section with the ones behind it.  The
    L1 alias exempts the first section of a pair only, so the order of the
    list can decide, and the comparison of the bounds finds an empty
    section inside another one although the two share no address. -/

namespace CheckSectionOverlaps

/-! ## Section 1: The reports -/

/-- The pairs that `check_overlaps` prints, in order. -/
def overlapReports (addr_space : AddrSpace) : List Section → List (Section × Section)
  | [] => []
  | a :: rest =>
      (if addr_space = .VMA ∧ a.start addr_space = L1_ALIAS then []
        else (rest.filter (overlaps addr_space a)).map (fun b => (a, b))) ++
      overlapReports addr_space rest

/-- Some address belongs to both sections, neither starts at the L1 alias,
    and the pair is not exempt. -/
def RealOverlap (addr_space : AddrSpace) (a b : Section) : Prop :=
  ¬ Exempt a b ∧
  (addr_space = .VMA → a.start addr_space ≠ L1_ALIAS ∧ b.start addr_space ≠ L1_ALIAS) ∧
  ∃ addr, (a.start addr_space ≤ addr ∧ addr < a.stop addr_space) ∧
    (b.start addr_space ≤ addr ∧ addr < b.stop addr_space)

def HasRealOverlap (addr_space : AddrSpace) (l : List Section) : Prop :=
  ∃ a ∈ l, ∃ b ∈ l, RealOverlap addr_space a b

/-- The check is exact, whatever the order, and names no empty section. -/
structure ExactInAnyOrder (addr_space : AddrSpace) (l : List Section) : Prop where
  exact : check_overlaps addr_space l = true ↔ HasRealOverlap addr_space l
  anyOrder : ∀ l', l'.Perm l → check_overlaps addr_space l' = check_overlaps addr_space l
  nonempty : ∀ l', l'.Perm l → ∀ p ∈ overlapReports addr_space l',
    p.1.start addr_space < p.1.stop addr_space ∧ p.2.start addr_space < p.2.stop addr_space

/-- No empty section clashes with another one, and a clash of a section at
    the L1 alias with one elsewhere does not decide the result. -/
structure Unambiguous (addr_space : AddrSpace) (l : List Section) : Prop where
  nonempty : ∀ a ∈ l, ∀ b ∈ l, Clash addr_space a b → a.start addr_space < a.stop addr_space
  atAlias : addr_space = .VMA → ∀ a ∈ l, ∀ b ∈ l, a.start addr_space = L1_ALIAS →
    b.start addr_space ≠ L1_ALIAS → Clash addr_space a b → HasRealOverlap addr_space l

variable {addr_space : AddrSpace} {l l' : List Section} {a b : Section}

/-! ## Section 2: Reports and clashes -/

theorem check_overlaps_iff_reports :
    check_overlaps addr_space l = true ↔ ∃ p, p ∈ overlapReports addr_space l := by
  induction l with
  | nil => simp [check_overlaps, overlapReports]
  | cons a rest ih =>
    rw [check_overlaps, Bool.or_eq_true, ih, overlapReports]
    by_cases hskip : addr_space = .VMA ∧ a.start addr_space = L1_ALIAS
    · rw [if_pos hskip]
      simp [hskip.1, hskip.1 ▸ hskip.2]
    · rw [if_neg hskip, guard_of_not_alias hskip, Bool.true_and, List.any_eq_true]
      simp only [List.mem_append, List.mem_map, List.mem_filter]
      constructor
      · rintro (⟨b, hb, hover⟩ | ⟨p, hp⟩)
        · exact ⟨(a, b), .inl ⟨b, ⟨hb, hover⟩, rfl⟩⟩
        · exact ⟨p, .inr hp⟩
      · rintro ⟨p, ⟨b, ⟨hb, hover⟩, -⟩ | hp⟩
        · exact .inl ⟨b, hb, hover⟩
        · exact .inr ⟨p, hp⟩

/-- A report is a clash whose first section is not at the alias. -/
theorem clash_of_report (h : (a, b) ∈ overlapReports addr_space l) :
    a ∈ l ∧ b ∈ l ∧ Clash addr_space a b ∧
      ¬ (addr_space = .VMA ∧ a.start addr_space = L1_ALIAS) := by
  induction l with
  | nil => cases h
  | cons c rest ih =>
    rw [overlapReports] at h
    rcases List.mem_append.mp h with h | h
    · by_cases hskip : addr_space = .VMA ∧ c.start addr_space = L1_ALIAS
      · rw [if_pos hskip] at h
        cases h
      · rw [if_neg hskip] at h
        obtain ⟨d, hd, heq⟩ := List.mem_map.mp h
        obtain ⟨rfl, rfl⟩ := Prod.mk.inj heq
        obtain ⟨hrest, hover⟩ := List.mem_filter.mp hd
        exact ⟨List.mem_cons_self, List.mem_cons_of_mem _ hrest, overlaps_iff.mp hover, hskip⟩
    · obtain ⟨ha, hb, hclash⟩ := ih h
      exact ⟨List.mem_cons_of_mem _ ha, List.mem_cons_of_mem _ hb, hclash⟩

/-- A clash is reported when its first section comes first in the list. -/
theorem report_of_clash (ha : a ∈ l) (hb : b ∈ l) (hclash : Clash addr_space a b)
    (halias : ¬ (addr_space = .VMA ∧ a.start addr_space = L1_ALIAS)) :
    ∃ l', l'.Perm l ∧ (a, b) ∈ overlapReports addr_space l' := by
  refine ⟨a :: l.erase a, (List.perm_cons_erase ha).symm, ?_⟩
  have hne : b ≠ a := by
    rintro rfl
    exact not_clash_self hclash
  have hrest : b ∈ l.erase a := (List.mem_erase_of_ne hne).mpr hb
  rw [overlapReports, if_neg halias]
  apply List.mem_append_left
  exact List.mem_map.mpr ⟨b, List.mem_filter.mpr ⟨hrest, overlaps_iff.mpr hclash⟩, rfl⟩

/-- A real overlap is a clash of two sections that are not empty. -/
theorem realOverlap_iff : RealOverlap addr_space a b ↔ Clash addr_space a b ∧
    (addr_space = .VMA → a.start addr_space ≠ L1_ALIAS ∧ b.start addr_space ≠ L1_ALIAS) ∧
    a.start addr_space < a.stop addr_space ∧ b.start addr_space < b.stop addr_space := by
  constructor
  · rintro ⟨hexempt, halias, addr, ⟨ha, ha'⟩, ⟨hb, hb'⟩⟩
    exact ⟨⟨hexempt, by omega, by omega⟩, halias, by omega, by omega⟩
  · rintro ⟨⟨hexempt, hab, hba⟩, halias, ha, hb⟩
    -- the larger start belongs to both
    refine ⟨hexempt, halias, max (a.start addr_space) (b.start addr_space), ?_, ?_⟩
    · exact ⟨le_max_left _ _, max_lt ha hba⟩
    · exact ⟨le_max_right _ _, max_lt hab hb⟩

theorem RealOverlap.symm (h : RealOverlap addr_space a b) : RealOverlap addr_space b a := by
  obtain ⟨hclash, halias, ha, hb⟩ := realOverlap_iff.mp h
  exact realOverlap_iff.mpr ⟨hclash.symm, fun hvma => (halias hvma).symm, hb, ha⟩

theorem not_realOverlap_self : ¬ RealOverlap addr_space a a := fun h => h.1 (.inl rfl)

/-- A real overlap is found in every order. -/
theorem check_overlaps_of_real (h : HasRealOverlap addr_space l) :
    check_overlaps addr_space l = true := by
  by_contra hquiet
  rw [Bool.not_eq_true, check_overlaps_eq_false] at hquiet
  have hnone : l.Pairwise (fun a b => ¬ RealOverlap addr_space a b) := by
    apply hquiet.imp
    intro a b hpair hreal
    obtain ⟨hclash, halias, -⟩ := realOverlap_iff.mp hreal
    obtain ⟨hvma, hstart⟩ := hpair hclash
    exact (halias hvma).1 hstart
  obtain ⟨a, ha, b, hb, hreal⟩ := h
  exact (pairwise_iff_forall (fun _ => not_realOverlap_self)
    (fun hab hba => hab hba.symm)).mp hnone a ha b hb hreal

/-! ## Section 3: When the check is exact -/

theorem HasRealOverlap.perm (hperm : l'.Perm l) (h : HasRealOverlap addr_space l') :
    HasRealOverlap addr_space l := by
  obtain ⟨a, ha, b, hb, hreal⟩ := h
  exact ⟨a, hperm.mem_iff.mp ha, b, hperm.mem_iff.mp hb, hreal⟩

theorem Unambiguous.perm (hperm : l'.Perm l) (h : Unambiguous addr_space l) :
    Unambiguous addr_space l' where
  nonempty a ha b hb := h.nonempty a (hperm.mem_iff.mp ha) b (hperm.mem_iff.mp hb)
  atAlias hvma a ha b hb hstart hne hclash :=
    (h.atAlias hvma a (hperm.mem_iff.mp ha) b (hperm.mem_iff.mp hb) hstart hne hclash).perm
      hperm.symm

theorem Unambiguous.exact (h : Unambiguous addr_space l) :
    check_overlaps addr_space l = true ↔ HasRealOverlap addr_space l := by
  constructor
  · intro hcheck
    obtain ⟨⟨a, b⟩, hp⟩ := check_overlaps_iff_reports.mp hcheck
    obtain ⟨ha, hb, hclash, hskip⟩ := clash_of_report hp
    by_cases hsecond : addr_space = .VMA ∧ b.start addr_space = L1_ALIAS
    · -- reported only because of the order: there is another one
      have hne : a.start addr_space ≠ L1_ALIAS := fun hstart => hskip ⟨hsecond.1, hstart⟩
      exact h.atAlias hsecond.1 b hb a ha hsecond.2 hne hclash.symm
    · refine ⟨a, ha, b, hb, realOverlap_iff.mpr ⟨hclash, ?_, ?_, ?_⟩⟩
      · intro hvma
        exact ⟨fun hstart => hskip ⟨hvma, hstart⟩, fun hstart => hsecond ⟨hvma, hstart⟩⟩
      · exact h.nonempty a ha b hb hclash
      · exact h.nonempty b hb a ha hclash.symm
  · exact check_overlaps_of_real

/-- **The check is exact in any order** if and only if the sections are
    unambiguous. -/
theorem check_overlaps_exact_iff (addr_space : AddrSpace) (l : List Section) :
    ExactInAnyOrder addr_space l ↔ Unambiguous addr_space l := by
  constructor
  · intro h
    constructor
    · intro a ha b hb hclash
      -- a clash is reported with either section first, but for the alias
      by_cases hskip : addr_space = .VMA ∧ a.start addr_space = L1_ALIAS
      · by_cases hother : b.start addr_space = L1_ALIAS
        · -- both start at the alias, so neither is empty
          have hlt := hclash.2.2
          rw [hother, ← hskip.2] at hlt
          exact hlt
        · obtain ⟨l', hperm, hreport⟩ := report_of_clash hb ha hclash.symm
            (fun hb' => hother hb'.2)
          exact (h.nonempty l' hperm _ hreport).2
      · obtain ⟨l', hperm, hreport⟩ := report_of_clash ha hb hclash hskip
        exact (h.nonempty l' hperm _ hreport).1
    · -- the other section first makes a report, in some order
      intro _ a ha b hb _ hne hclash
      obtain ⟨l', hperm, hreport⟩ := report_of_clash hb ha hclash.symm (fun hb' => hne hb'.2)
      have hcheck : check_overlaps addr_space l' = true :=
        check_overlaps_iff_reports.mpr ⟨_, hreport⟩
      rw [h.anyOrder l' hperm] at hcheck
      exact h.exact.mp hcheck
  · intro h
    constructor
    · exact h.exact
    · intro l' hperm
      rw [Bool.eq_iff_iff, (h.perm hperm).exact, h.exact]
      exact ⟨fun hreal => hreal.perm hperm, fun hreal => hreal.perm hperm.symm⟩
    · rintro l' hperm ⟨a, b⟩ hp
      obtain ⟨ha, hb, hclash, -⟩ := clash_of_report hp
      exact ⟨(h.perm hperm).nonempty a ha b hb hclash,
        (h.perm hperm).nonempty b hb a ha hclash.symm⟩

/-- A section loaded where it runs. -/
def sectionAt (binary : List Char) (start stop : Nat) : Section where
  binary := binary
  name := binary
  vma_start := start
  vma_end := stop
  lma_start := start
  lma_end := stop
  sec_type := "DATA".toList

/-- A section that runs into the L1 alias is reported in one order and not
    in the other, and an empty section inside another one is reported. -/
theorem check_overlaps_not_exact :
    (check_overlaps .VMA [sectionAt "a".toList 0x17fffff0 0x18000010,
      sectionAt "b".toList 0x18000000 0x18000020] = true ∧
    check_overlaps .VMA [sectionAt "b".toList 0x18000000 0x18000020,
      sectionAt "a".toList 0x17fffff0 0x18000010] = false) ∧
    check_overlaps .LMA [sectionAt "a".toList 0x1000 0x1020,
      sectionAt "b".toList 0x1010 0x1010] = true ∧
    ¬ HasRealOverlap .LMA [sectionAt "a".toList 0x1000 0x1020,
      sectionAt "b".toList 0x1010 0x1010] := by
  refine ⟨⟨by decide, by decide⟩, by decide, ?_⟩
  rintro ⟨a, ha, b, hb, hreal⟩
  obtain ⟨hclash, -, hne, hne'⟩ := realOverlap_iff.mp hreal
  simp only [List.mem_cons, List.not_mem_nil, or_false] at ha hb
  rcases ha with rfl | rfl
  · rcases hb with rfl | rfl
    · exact not_clash_self hclash
    · exact absurd hne' (by decide)
  · exact absurd hne (by decide)

end CheckSectionOverlaps
