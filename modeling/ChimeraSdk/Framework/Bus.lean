import Mathlib.Data.List.Basic
import Mathlib.Data.Nat.Find

/-! # Drivers of Register-Mapped Devices

    A driver reads and writes registers and calls back.  The device
    answers every read with a value of its own choice, so a driver is a
    function of the answers: it computes a value and leaves a trace of
    events, or it waits for another answer.  What a run does depends on
    no answer behind the ones it has consumed; the driver carries the
    proof of that.

    * **Ensures**: what every run that ends has computed and done.
    * **Ends**: the runs end when the device keeps giving good answers.
    * **Guarded**: no event of one kind without an event of another kind
      since the last one. -/

namespace Bus

/-! ## Section 1: Drivers -/

/-- A register access, or a call to code outside the driver. -/
inductive Event (Addr Val Callee : Type) where
  | read (addr : Addr) (val : Val)
  | write (addr : Addr) (val : Val)
  | call (callee : Callee)
  deriving DecidableEq, Repr

variable {Addr Val Callee α β : Type}

/-- How a run ends: with a value, the events and the answers that are
    left. -/
structure Outcome (Addr Val Callee α : Type) where
  value : α
  trace : List (Event Addr Val Callee)
  rest : List Val

def Outcome.withRest (o : Outcome Addr Val Callee α) (rest : List Val) :
    Outcome Addr Val Callee α := { o with rest := rest }

/-- A run depends on the answers it has consumed, and on no other. -/
def Consumes (run : List Val → Option (Outcome Addr Val Callee α)) : Prop :=
  ∀ vs o, run vs = some o →
    ∃ us, vs = us ++ o.rest ∧ ∀ ws, run (us ++ ws) = some (o.withRest ws)

structure Driver (Addr Val Callee α : Type) where
  run : List Val → Option (Outcome Addr Val Callee α)
  consumes : Consumes run

namespace Driver

/-- A step that takes no answer. -/
def emitRun (a : α) (trace : List (Event Addr Val Callee)) (vs : List Val) :
    Option (Outcome Addr Val Callee α) :=
  some { value := a, trace := trace, rest := vs }

theorem consumes_emitRun (a : α) (trace : List (Event Addr Val Callee)) :
    Consumes (emitRun a trace) := by
  rintro vs o ⟨⟩
  exact ⟨[], rfl, fun _ => rfl⟩

def emit (a : α) (trace : List (Event Addr Val Callee)) : Driver Addr Val Callee α where
  run := emitRun a trace
  consumes := consumes_emitRun a trace

def bindRun (m : Driver Addr Val Callee α) (f : α → Driver Addr Val Callee β) (vs : List Val) :
    Option (Outcome Addr Val Callee β) :=
  (m.run vs).bind fun o =>
    ((f o.value).run o.rest).map fun p => { p with trace := o.trace ++ p.trace }

theorem bindRun_eq_some {m : Driver Addr Val Callee α} {f : α → Driver Addr Val Callee β}
    {vs : List Val} {q : Outcome Addr Val Callee β} : bindRun m f vs = some q ↔
    ∃ o p, m.run vs = some o ∧ (f o.value).run o.rest = some p ∧
      q = { p with trace := o.trace ++ p.trace } := by
  unfold bindRun
  rw [Option.bind_eq_some_iff]
  constructor
  · rintro ⟨o, ho, hmap⟩
    obtain ⟨p, hp, rfl⟩ := Option.map_eq_some_iff.mp hmap
    exact ⟨o, p, ho, hp, rfl⟩
  · rintro ⟨o, p, ho, hp, rfl⟩
    exact ⟨o, ho, Option.map_eq_some_iff.mpr ⟨p, hp, rfl⟩⟩

theorem consumes_bindRun (m : Driver Addr Val Callee α) (f : α → Driver Addr Val Callee β) :
    Consumes (bindRun m f) := by
  intro vs q h
  obtain ⟨o, p, ho, hp, rfl⟩ := bindRun_eq_some.mp h
  obtain ⟨us, rfl, hus⟩ := m.consumes vs o ho
  obtain ⟨us', hrest, hus'⟩ := (f o.value).consumes o.rest p hp
  refine ⟨us ++ us', ?_, fun ws => ?_⟩
  · rw [hrest, List.append_assoc]
  · rw [List.append_assoc]
    exact bindRun_eq_some.mpr ⟨_, _, hus (us' ++ ws), hus' ws, rfl⟩

instance : Monad (Driver Addr Val Callee) where
  pure a := emit a []
  bind m f := { run := bindRun m f, consumes := consumes_bindRun m f }

def readRun (addr : Addr) : List Val → Option (Outcome Addr Val Callee Val)
  | [] => none
  | v :: vs => some { value := v, trace := [.read addr v], rest := vs }

theorem consumes_readRun (addr : Addr) :
    Consumes (readRun addr : List Val → Option (Outcome Addr Val Callee Val)) := by
  intro vs o h
  cases vs with
  | nil => cases h
  | cons v vs =>
    cases h
    exact ⟨[v], rfl, fun _ => rfl⟩

def read (addr : Addr) : Driver Addr Val Callee Val where
  run := readRun addr
  consumes := consumes_readRun addr

def write (addr : Addr) (val : Val) : Driver Addr Val Callee Unit :=
  emit () [.write addr val]

def call (callee : Callee) : Driver Addr Val Callee Unit :=
  emit () [.call callee]

/-- Read the register until the test accepts its value. -/
def pollLoop (addr : Addr) (ok : Val → Bool) : List Val → Option (Outcome Addr Val Callee Unit)
  | [] => none
  | v :: vs =>
      if ok v then some { value := (), trace := [.read addr v], rest := vs }
      else (pollLoop addr ok vs).map fun o => { o with trace := .read addr v :: o.trace }

/-- The values a poll reads: some that are refused, then one that is not. -/
theorem pollLoop_eq_some {addr : Addr} {ok : Val → Bool} {vs : List Val}
    {o : Outcome Addr Val Callee Unit} : pollLoop addr ok vs = some o ↔
    ∃ bad v, vs = bad ++ v :: o.rest ∧ (∀ u ∈ bad, ok u = false) ∧ ok v = true ∧
      o.trace = bad.map (.read addr) ++ [.read addr v] := by
  induction vs generalizing o with
  | nil => simp [pollLoop]
  | cons v vs ih =>
    rw [pollLoop]
    -- the first answer ends the poll, or it is the first of the bad ones
    by_cases hok : ok v = true
    · rw [if_pos hok]
      constructor
      · rintro ⟨⟩
        exact ⟨[], v, rfl, by simp, hok, rfl⟩
      · rintro ⟨bad, u, heq, hbad, hu, htrace⟩
        cases bad with
        | nil =>
          obtain ⟨rfl, rfl⟩ := List.cons.inj heq
          rw [Option.some.injEq]
          cases o
          simp only at htrace
          rw [htrace]
          rfl
        | cons b bad =>
          obtain ⟨rfl, -⟩ := List.cons.inj heq
          rw [hbad v List.mem_cons_self] at hok
          cases hok
    · rw [if_neg hok, Option.map_eq_some_iff]
      constructor
      · rintro ⟨o, ho, rfl⟩
        obtain ⟨bad, u, rfl, hbad, hu, htrace⟩ := ih.mp ho
        refine ⟨v :: bad, u, rfl, ?_, hu, ?_⟩
        · exact List.forall_mem_cons.mpr ⟨Bool.eq_false_iff.mpr hok, hbad⟩
        · simp only [htrace, List.map_cons, List.cons_append]
      · rintro ⟨bad, u, heq, hbad, hu, htrace⟩
        cases bad with
        | nil =>
          obtain ⟨rfl, -⟩ := List.cons.inj heq
          exact absurd hu hok
        | cons b bad =>
          obtain ⟨rfl, rfl⟩ := List.cons.inj heq
          refine ⟨{ o with trace := bad.map (.read addr) ++ [.read addr u] }, ?_, ?_⟩
          · exact ih.mpr ⟨bad, u, rfl, fun w hw => hbad w (List.mem_cons_of_mem v hw), hu, rfl⟩
          · cases o
            simp only at htrace
            rw [htrace]
            rfl

theorem consumes_pollLoop (addr : Addr) (ok : Val → Bool) :
    Consumes (pollLoop addr ok : List Val → Option (Outcome Addr Val Callee Unit)) := by
  intro vs o h
  obtain ⟨bad, v, hvs, hbad, hv, htrace⟩ := pollLoop_eq_some.mp h
  refine ⟨bad ++ [v], by simp [hvs], fun ws => ?_⟩
  exact pollLoop_eq_some.mpr ⟨bad, v, by simp [Outcome.withRest], hbad, hv, htrace⟩

def pollUntil (addr : Addr) (ok : Val → Bool) : Driver Addr Val Callee Unit where
  run := pollLoop addr ok
  consumes := consumes_pollLoop addr ok

/-! ## Section 2: What the runs that end have done -/

structure Ensures (m : Driver Addr Val Callee α) (Q : α → List (Event Addr Val Callee) → Prop) :
    Prop where
  of_run : ∀ {vs o}, m.run vs = some o → Q o.value o.trace

theorem Ensures.imp {m : Driver Addr Val Callee α} {P Q : α → List (Event Addr Val Callee) → Prop}
    (h : m.Ensures P) (himp : ∀ a t, P a t → Q a t) : m.Ensures Q :=
  ⟨fun ho => himp _ _ (h.of_run ho)⟩

/-- The traces of the two parts are joined. -/
theorem Ensures.bind {m : Driver Addr Val Callee α} {f : α → Driver Addr Val Callee β}
    {P : α → List (Event Addr Val Callee) → Prop}
    {R : α → β → List (Event Addr Val Callee) → Prop}
    {Q : β → List (Event Addr Val Callee) → Prop}
    (hm : m.Ensures P) (hf : ∀ a, (f a).Ensures (R a))
    (hQ : ∀ a t b t', P a t → R a b t' → Q b (t ++ t')) : (m >>= f).Ensures Q := by
  constructor
  intro vs q h
  obtain ⟨o, p, ho, hp, rfl⟩ := bindRun_eq_some.mp h
  exact hQ o.value o.trace p.value p.trace (hm.of_run ho) ((hf o.value).of_run hp)

theorem ensures_read (addr : Addr) :
    (read addr : Driver Addr Val Callee Val).Ensures (fun v t => t = [.read addr v]) := by
  constructor
  intro vs o h
  cases vs with
  | nil => cases h
  | cons v vs =>
    cases h
    rfl

theorem ensures_emit (a : α) (trace : List (Event Addr Val Callee)) :
    (emit a trace).Ensures (fun b t => b = a ∧ t = trace) := by
  constructor
  rintro vs o ⟨⟩
  exact ⟨rfl, rfl⟩

theorem ensures_pollUntil (addr : Addr) (ok : Val → Bool) :
    (pollUntil addr ok : Driver Addr Val Callee Unit).Ensures (fun _ t =>
      ∃ (bad : List Val) (v : Val), (∀ u ∈ bad, ok u = false) ∧ ok v = true ∧
        t = bad.map (.read addr) ++ [.read addr v]) := by
  constructor
  intro vs o h
  obtain ⟨bad, v, -, hbad, hv, htrace⟩ := pollLoop_eq_some.mp h
  exact ⟨bad, v, hbad, hv, htrace⟩

/-! ## Section 3: Runs that end -/

/-- From every point on there is another good answer. -/
def Recurs (ok : Val → Bool) (answers : Nat → Val) : Prop :=
  ∀ n, ∃ m, n ≤ m ∧ ok (answers m) = true

theorem Recurs.shift {ok : Val → Bool} {answers : Nat → Val} (h : Recurs ok answers) (k : Nat) :
    Recurs ok (fun n => answers (k + n)) := by
  intro n
  obtain ⟨m, hm, hok⟩ := h (k + n)
  refine ⟨m - k, by omega, ?_⟩
  show ok (answers (k + (m - k))) = true
  rw [show k + (m - k) = m by omega]
  exact hok

/-- The first `n` answers. -/
def firstAnswers (answers : Nat → Val) (n : Nat) : List Val := (List.range n).map answers

theorem firstAnswers_add (answers : Nat → Val) (k n : Nat) : firstAnswers answers (k + n) =
    firstAnswers answers k ++ firstAnswers (fun i => answers (k + i)) n := by
  unfold firstAnswers
  rw [List.range_add, List.map_append, List.map_map]
  rfl

/-- Every run with good answers again and again ends, after finitely many
    of them. -/
def Ends (ok : Val → Bool) (m : Driver Addr Val Callee α) : Prop :=
  ∀ answers, Recurs ok answers → ∃ n o, m.run (firstAnswers answers n) = some o ∧ o.rest = []

theorem ends_emit (ok : Val → Bool) (a : α) (trace : List (Event Addr Val Callee)) :
    Ends ok (emit a trace) :=
  fun _ _ => ⟨0, _, rfl, rfl⟩

theorem Ends.bind {ok : Val → Bool} {m : Driver Addr Val Callee α}
    {f : α → Driver Addr Val Callee β} (hm : Ends ok m) (hf : ∀ a, Ends ok (f a)) :
    Ends ok (m >>= f) := by
  intro answers hanswers
  obtain ⟨k, o, ho, hrest⟩ := hm answers hanswers
  obtain ⟨n, p, hp, hprest⟩ := hf o.value _ (hanswers.shift k)
  obtain ⟨us, hus, hrun⟩ := m.consumes _ o ho
  rw [hrest, List.append_nil] at hus
  refine ⟨k + n, { p with trace := o.trace ++ p.trace }, ?_, hprest⟩
  -- the second part is run on the answers behind those of the first
  rw [firstAnswers_add, hus]
  exact bindRun_eq_some.mpr ⟨_, p, hrun _, hp, rfl⟩

theorem ends_read (ok : Val → Bool) (addr : Addr) :
    Ends ok (read addr : Driver Addr Val Callee Val) :=
  fun _ _ => ⟨1, _, rfl, rfl⟩

/-- A poll ends with the first good answer. -/
theorem ends_pollUntil (ok : Val → Bool) (addr : Addr) :
    Ends ok (pollUntil addr ok : Driver Addr Val Callee Unit) := by
  intro answers hanswers
  classical
  obtain ⟨m, -, hm⟩ := hanswers 0
  have hex : ∃ m, ok (answers m) = true := ⟨m, hm⟩
  refine ⟨Nat.find hex + 1,
    { value := ()
      trace := (firstAnswers answers (Nat.find hex)).map (.read addr) ++
        [.read addr (answers (Nat.find hex))]
      rest := [] }, ?_, rfl⟩
  apply pollLoop_eq_some.mpr
  refine ⟨firstAnswers answers (Nat.find hex), answers (Nat.find hex), ?_, ?_, Nat.find_spec hex,
    rfl⟩
  · rw [firstAnswers_add]
    rfl
  · intro u hu
    obtain ⟨i, hi, rfl⟩ := List.mem_map.mp hu
    exact Bool.eq_false_iff.mpr (Nat.find_min hex (List.mem_range.mp hi))

end Driver

/-! ## Section 4: Traces -/

section Trace

variable [DecidableEq Addr]

/-- The values written to a register, in order. -/
def writesTo (addr : Addr) (trace : List (Event Addr Val Callee)) : List Val :=
  trace.filterMap fun
    | .write a v => if a = addr then some v else none
    | _ => none

/-- The values read from a register, in order. -/
def readsOf (addr : Addr) (trace : List (Event Addr Val Callee)) : List Val :=
  trace.filterMap fun
    | .read a v => if a = addr then some v else none
    | _ => none

/-- The calls, in order. -/
def calls (trace : List (Event Addr Val Callee)) : List Callee :=
  trace.filterMap fun
    | .call c => some c
    | _ => none

variable (addr : Addr) (t t' : List (Event Addr Val Callee))

@[simp] theorem writesTo_append : writesTo addr (t ++ t') = writesTo addr t ++ writesTo addr t' :=
  List.filterMap_append

@[simp] theorem readsOf_append : readsOf addr (t ++ t') = readsOf addr t ++ readsOf addr t' :=
  List.filterMap_append

omit [DecidableEq Addr] in
@[simp] theorem calls_append : calls (t ++ t') = calls t ++ calls t' :=
  List.filterMap_append

@[simp] theorem writesTo_reads (a : Addr) (vs : List Val) :
    writesTo addr (vs.map (.read a) : List (Event Addr Val Callee)) = [] := by
  simp [writesTo, List.filterMap_map]

theorem readsOf_reads_ne {a : Addr} (hne : a ≠ addr) (vs : List Val) :
    readsOf addr (vs.map (.read a) : List (Event Addr Val Callee)) = [] := by
  simp [readsOf, List.filterMap_map, hne]

omit [DecidableEq Addr] in
@[simp] theorem calls_reads (a : Addr) (vs : List Val) :
    calls (vs.map (.read a) : List (Event Addr Val Callee)) = [] := by
  simp [calls, List.filterMap_map]

end Trace

/-- No event of the kind `act` without an event of the kind `guard` since
    the last one. -/
def Guarded {E : Type} (guard act : E → Prop) (trace : List E) : Prop :=
  ∀ pre e post, trace = pre ++ e :: post → act e →
    ∃ pre' g mid, pre = pre' ++ g :: mid ∧ guard g ∧ ∀ x ∈ mid, ¬ act x

namespace Guarded

variable {E : Type} {guard act : E → Prop} {t t' : List E}

theorem of_not_act (h : ∀ x ∈ t, ¬ act x) : Guarded guard act t := by
  rintro pre e post rfl he
  exact absurd he (h e (by simp))

/-- A guard and then one action. -/
theorem guard_act {pre : List E} {g e : E} (hpre : ∀ x ∈ pre, ¬ act x) (hg : guard g)
    (hact : ¬ act g) : Guarded guard act (pre ++ [g] ++ [e]) := by
  intro pre' x post heq hx
  have hlast : pre' = pre ++ [g] := by
    rcases List.append_eq_append_iff.mp heq with ⟨as, rfl, has⟩ | ⟨bs, hbs, hpost⟩
    · cases as with
      | nil => simp
      | cons a as =>
        obtain ⟨-, htail⟩ := List.cons.inj has
        simp at htail
    · cases bs with
      | nil => simpa using hbs.symm
      | cons b bs =>
        -- the action would be one of the events in front
        obtain ⟨rfl, -⟩ := List.cons.inj hpost
        have hmem : x ∈ pre ++ [g] := by
          rw [hbs]
          simp
        rcases List.mem_append.mp hmem with hp | hp
        · exact absurd hx (hpre x hp)
        · rw [List.mem_singleton.mp hp] at hx
          exact absurd hx hact
  exact ⟨pre, g, [], hlast, hg, by simp⟩

theorem append (h : Guarded guard act t) (h' : Guarded guard act t') :
    Guarded guard act (t ++ t') := by
  intro pre e post heq he
  rcases List.append_eq_append_iff.mp heq with ⟨as, rfl, has⟩ | ⟨bs, hbs, hpost⟩
  · -- in the second part: its guard is there as well
    obtain ⟨pre', g, mid, hpre', hg, hmid⟩ := h' as e post has he
    refine ⟨t ++ pre', g, mid, ?_, hg, hmid⟩
    rw [hpre', List.append_assoc]
  · cases bs with
    | nil =>
      rw [List.append_nil] at hbs
      obtain ⟨pre', g, mid, hpre', hg, hmid⟩ := h' [] e post hpost.symm he
      simp at hpre'
    | cons b bs =>
      obtain ⟨rfl, -⟩ := List.cons.inj hpost
      exact h pre e bs hbs he

end Guarded

end Bus
