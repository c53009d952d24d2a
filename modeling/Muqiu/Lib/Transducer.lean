import Mathlib.Data.List.Basic

/-!
# Transition tables

A transducer reads bytes.  In each state an edge covers a range of bytes, and has the actions that
they bring and the state behind them.  A byte that no edge covers is an error.  A table is checked
edge by edge, and `Table.of_checks` is what such a check says of every step.

A class of bytes is a list of ranges, and a *field* is a stretch of bytes of one class.  Its first
byte brings the actions `enter`, the others bring none, and the byte behind it brings those of an
exit.  The field may be empty, and then the one byte brings both.  `FieldRun` is a run over a field,
and `exists_split` says that every run that starts at a checked field and ends goes through it and
out by an exit.  `Table.only` checks for a fixed text in the same way, and `Table.leads` checks
where a class of bytes leads.

An *analysis* gives to every state what is known there of the data that the actions work on.  Its
own actions may refuse what is not known to go well, and when all edges pass, what is known of the
states is true along every run.
-/

namespace Transducer

/-! ## Tables -/

/-- The bytes `lo` to `hi` bring `acts` and lead to `next`. -/
structure Edge (α : Type) where
  lo : Nat
  hi : Nat
  acts : List α
  next : Nat
deriving DecidableEq, Repr

/-- A state with its edges. -/
structure Row (α : Type) where
  state : Nat
  edges : List (Edge α)
deriving DecidableEq, Repr

/-- The states of a table. -/
abbrev Table (α : Type) := List (Row α)

variable {α : Type}

/-- The byte is in the range of the edge. -/
def Edge.covers (e : Edge α) (b : UInt8) : Bool := e.lo ≤ b.toNat && b.toNat ≤ e.hi

/-- A class of bytes, as ranges. -/
abbrev ByteClass := List (Nat × Nat)

/-- The byte is in a range of the class. -/
def ByteClass.has (C : ByteClass) (b : UInt8) : Bool :=
  C.any fun r => r.1 ≤ b.toNat && b.toNat ≤ r.2

/-- The bytes of the edge are in one range of the class. -/
def Edge.within (e : Edge α) (C : ByteClass) : Bool := C.any fun r => r.1 ≤ e.lo && e.hi ≤ r.2

theorem Edge.has_of_within {e : Edge α} {C : ByteClass} {b : UInt8} (h : e.within C = true)
    (hb : e.covers b = true) : C.has b = true := by
  obtain ⟨r, hr, hin⟩ := List.any_eq_true.mp h
  rw [covers, Bool.and_eq_true, decide_eq_true_eq, decide_eq_true_eq] at hb
  rw [Bool.and_eq_true, decide_eq_true_eq, decide_eq_true_eq] at hin
  refine List.any_eq_true.mpr ⟨r, hr, ?_⟩
  rw [Bool.and_eq_true, decide_eq_true_eq, decide_eq_true_eq]
  exact ⟨Nat.le_trans hin.1 hb.1, Nat.le_trans hb.2 hin.2⟩

/-- Where a byte leads from a state, and with which actions. -/
def Table.step (T : Table α) (s : Nat) (b : UInt8) : Option (List α × Nat) :=
  (T.find? fun row => row.state = s).bind fun row =>
    (row.edges.find? (·.covers b)).map fun e => (e.acts, e.next)

/-- Every edge passes a test that is given its state. -/
def Table.checks (T : Table α) (p : Nat → Edge α → Bool) : Bool :=
  T.all fun row => row.edges.all (p row.state)

theorem Table.of_checks {T : Table α} {p : Nat → Edge α → Bool} (h : T.checks p = true) {s s' : Nat}
    {b : UInt8} {acts : List α} (hstep : T.step s b = some (acts, s')) :
    ∃ e : Edge α, e.covers b = true ∧ p s e = true ∧ e.acts = acts ∧ e.next = s' := by
  obtain ⟨row, hrow, hmap⟩ := Option.bind_eq_some_iff.mp hstep
  obtain ⟨e, he, heq⟩ := Option.map_eq_some_iff.mp hmap
  cases heq
  have hstate : row.state = s := by simpa using List.find?_some hrow
  have hedges := List.all_eq_true.mp h row (List.mem_of_find?_eq_some hrow)
  have hpass := List.all_eq_true.mp hedges e (List.mem_of_find?_eq_some he)
  have hcovers : e.covers b = true := by simpa using List.find?_some he
  rw [hstate] at hpass
  exact ⟨e, hcovers, hpass, rfl, rfl⟩

/-! ## Classes that lead somewhere -/

theorem forall_byte {p : UInt8 → Bool}
    (h : ((List.range 256).all fun n => p (UInt8.ofNat n)) = true) (b : UInt8) : p b = true := by
  have hb := List.all_eq_true.mp h b.toNat (List.mem_range.mpr b.toNat_lt)
  rwa [UInt8.ofNat_toNat] at hb

section Leads

variable [DecidableEq α] (T : Table α)

/-- The bytes of `p` bring `acts` and lead from `s` to `next`. -/
def Table.leads (s : Nat) (p : UInt8 → Bool) (acts : List α) (next : Nat) : Bool :=
  (List.range 256).all fun n =>
    !p (UInt8.ofNat n) || T.step s (UInt8.ofNat n) = some (acts, next)

variable {T}

theorem Table.step_of_leads {s next : Nat} {p : UInt8 → Bool} {acts : List α}
    (h : T.leads s p acts next = true) {b : UInt8} (hb : p b = true) :
    T.step s b = some (acts, next) := by
  have hstep := forall_byte (p := fun b => !p b || T.step s b = some (acts, next)) h b
  rw [hb] at hstep
  simpa using hstep

end Leads

/-! ## Analyses -/

/-- What is known in a state, what an action makes of it, what the byte of an edge makes of it, and
when one knows no less than another. -/
structure Analysis (α K : Type) where
  known : Nat → K
  act : Edge α → K → α → Option K
  read : Edge α → K → K
  atLeast : K → K → Bool

namespace Analysis

variable {K : Type} (A : Analysis α K)

/-- The actions go well from what is known of the state, and what they leave is as much as is
known of the next one. -/
def passes (s : Nat) (e : Edge α) : Bool :=
  match e.acts.foldlM (A.act e) (A.known s) with
  | some k => A.atLeast (A.read e k) (A.known e.next)
  | none => false

variable {A}

/-- What a passing table knows of a step. -/
theorem of_passes {T : Table α} (h : T.checks A.passes = true) {s s' : Nat} {b : UInt8}
    {acts : List α} (hstep : T.step s b = some (acts, s')) :
    ∃ e : Edge α, e.covers b = true ∧ ∃ k, acts.foldlM (A.act e) (A.known s) = some k ∧
      A.atLeast (A.read e k) (A.known s') = true := by
  obtain ⟨e, he, hp, rfl, rfl⟩ := Table.of_checks h hstep
  rw [passes] at hp
  split at hp
  next k hk => exact ⟨e, he, k, hk, hp⟩
  next => cases hp

/-- Actions that do what the analysis says of each do what it says of all. -/
theorem fold {σ ε : Type} {e : Edge α} {f : σ → α → Except ε σ} {R : K → σ → Prop}
    (hact : ∀ {k k' s a}, R k s → A.act e k a = some k' → ∃ s', f s a = .ok s' ∧ R k' s')
    {acts : List α} {k k' : K} {s : σ} (h : acts.foldlM (A.act e) k = some k') (hs : R k s) :
    ∃ s', acts.foldlM f s = .ok s' ∧ R k' s' := by
  induction acts generalizing k s with
  | nil =>
      cases h
      exact ⟨s, rfl, hs⟩
  | cons a acts ih =>
      rw [List.foldlM_cons] at h
      obtain ⟨k₁, hk₁, hrest⟩ := Option.bind_eq_some_iff.mp h
      obtain ⟨s₁, hs₁, hR⟩ := hact hs hk₁
      obtain ⟨s', hs', hR'⟩ := ih hrest hR
      refine ⟨s', ?_, hR'⟩
      rw [List.foldlM_cons, hs₁]
      exact hs'

end Analysis

/-! ## Runs -/

section Runs

variable {σ : Type} (step : σ → UInt8 → Option (List α × σ))

/-- The state behind bytes that bring no actions. -/
def quiet : σ → List UInt8 → Option σ
  | s, [] => some s
  | s, b :: bs =>
      match step s b with
      | some ([], s') => quiet s' bs
      | _ => none

/-- The bytes end with the first one that brings a `last` action. -/
def Ends (last : α → Prop) : σ → List UInt8 → Prop
  | _, [] => False
  | s, b :: bs => ∃ acts s', step s b = some (acts, s') ∧
      ((∃ a ∈ acts, last a) ∧ bs = [] ∨ (∀ a ∈ acts, ¬last a) ∧ Ends last s' bs)

/-- From `s` over the field `u` to `s₂`, and over the byte `c` behind it: `enter` at the first byte,
`out` at `c`. -/
def FieldRun (enter : List α) (s : σ) : List UInt8 → σ → UInt8 → List α → σ → Prop
  | [], s₂, c, out, s' => s₂ = s ∧ step s c = some (enter ++ out, s')
  | b :: u, s₂, c, out, s' => ∃ s₁, step s b = some (enter, s₁) ∧ quiet step s₁ u = some s₂ ∧
      step s₂ c = some (out, s')

variable {step}

theorem quiet_cons {s s' : σ} {b : UInt8} (bs : List UInt8) (h : step s b = some ([], s')) :
    quiet step s (b :: bs) = quiet step s' bs := by
  rw [quiet, h]

/-- A state that the bytes of a class do not leave. -/
theorem quiet_of_stays {s : σ} {P : UInt8 → Prop} (h : ∀ b, P b → step s b = some ([], s))
    {bs : List UInt8} (hbs : ∀ b ∈ bs, P b) : quiet step s bs = some s := by
  induction bs with
  | nil => rfl
  | cons b bs ih =>
      rw [quiet_cons _ (h b (hbs b List.mem_cons_self))]
      exact ih fun c hc => hbs c (List.mem_cons_of_mem b hc)

/-- A field whose first byte leads to a field without actions. -/
theorem FieldRun.cons {enter out : List α} {s s₁ s₂ s' : σ} {b c : UInt8} {u : List UInt8}
    (hstep : step s b = some (enter, s₁)) (h : FieldRun step [] s₁ u s₂ c out s') :
    FieldRun step enter s (b :: u) s₂ c out s' := by
  cases u with
  | nil =>
      obtain ⟨rfl, hout⟩ := h
      exact ⟨s₂, hstep, rfl, hout⟩
  | cons d u =>
      obtain ⟨s₃, hd, hu, hout⟩ := h
      exact ⟨s₁, hstep, (quiet_cons u hd).trans hu, hout⟩

/-- Behind a byte without the last action a run still ends. -/
theorem Ends.of_step {last : α → Prop} {s : σ} {b : UInt8} {bs : List UInt8} {acts : List α}
    {s' : σ} (hstep : step s b = some (acts, s')) (hno : ∀ a ∈ acts, ¬last a)
    (h : Ends step last s (b :: bs)) : Ends step last s' bs := by
  obtain ⟨acts', s₁, hstep', hrest⟩ := h
  rw [hstep] at hstep'
  cases hstep'
  rcases hrest with ⟨⟨a, ha, hlast⟩, -⟩ | ⟨-, hends⟩
  · exact absurd hlast (hno a ha)
  · exact hends

/-- The last action is on the last byte. -/
theorem Ends.nil_of_last {last : α → Prop} {s s' : σ} {b : UInt8} {bs : List UInt8} {acts : List α}
    (hstep : step s b = some (acts, s')) (hlast : ∃ a ∈ acts, last a)
    (h : Ends step last s (b :: bs)) : bs = [] := by
  obtain ⟨acts', s₁, hstep', hrest⟩ := h
  rw [hstep] at hstep'
  cases hstep'
  obtain ⟨a, ha, hl⟩ := hlast
  rcases hrest with ⟨-, hnil⟩ | ⟨hno, -⟩
  · exact hnil
  · exact absurd hl (hno a ha)

end Runs

/-! ## Fields -/

/-- A stretch of bytes of the class `chars`, with its states and the exits from each. -/
structure FieldStates (α : Type) where
  first : Nat → Bool
  inside : Nat → Bool
  enter : List α
  chars : ByteClass
  exits : Nat → List (Edge α)

namespace FieldStates

variable [DecidableEq α] (F : FieldStates α)

/-- The edge goes on inside, or it is an exit. -/
def allows (s : Nat) (enter : List α) (e : Edge α) : Bool :=
  e.acts = enter && e.within F.chars && F.inside e.next ||
    (F.exits s).any fun x => e = { x with acts := enter ++ x.acts }

/-- Every edge of the table is one that the field allows. -/
def check (T : Table α) : Bool :=
  T.checks fun s e => (!F.first s || F.allows s F.enter e) && (!F.inside s || F.allows s [] e)

variable {F}

/-- What an allowed edge does. -/
theorem of_allows {s : Nat} {enter : List α} {e : Edge α} {b : UInt8}
    (h : F.allows s enter e = true) (hb : e.covers b = true) :
    e.acts = enter ∧ F.chars.has b = true ∧ F.inside e.next = true ∨
      ∃ x ∈ F.exits s, x.covers b = true ∧ e.acts = enter ++ x.acts ∧ e.next = x.next := by
  rw [allows, Bool.or_eq_true] at h
  cases h with
  | inl h =>
      rw [Bool.and_eq_true, Bool.and_eq_true, decide_eq_true_eq] at h
      exact .inl ⟨h.1.1, Edge.has_of_within h.1.2 hb, h.2⟩
  | inr h =>
      obtain ⟨x, hx, heq⟩ := List.any_eq_true.mp h
      rw [decide_eq_true_eq] at heq
      subst heq
      exact .inr ⟨x, hx, hb, rfl, rfl⟩

theorem step_first {T : Table α} (h : F.check T = true) {s s' : Nat} {b : UInt8} {acts : List α}
    (hs : F.first s = true) (hstep : T.step s b = some (acts, s')) :
    acts = F.enter ∧ F.chars.has b = true ∧ F.inside s' = true ∨
      ∃ x ∈ F.exits s, x.covers b = true ∧ acts = F.enter ++ x.acts ∧ s' = x.next := by
  obtain ⟨e, he, hp, rfl, rfl⟩ := Table.of_checks h hstep
  rw [Bool.and_eq_true, hs] at hp
  exact of_allows hp.1 he

theorem step_inside {T : Table α} (h : F.check T = true) {s s' : Nat} {b : UInt8} {acts : List α}
    (hs : F.inside s = true) (hstep : T.step s b = some (acts, s')) :
    acts = [] ∧ F.chars.has b = true ∧ F.inside s' = true ∨
      ∃ x ∈ F.exits s, x.covers b = true ∧ acts = x.acts ∧ s' = x.next := by
  obtain ⟨e, he, hp, rfl, rfl⟩ := Table.of_checks h hstep
  rw [Bool.and_eq_true, hs] at hp
  exact of_allows hp.2 he

/-- The end of a run, seen from inside a field: the bytes of the field that are left, the state
behind them, the byte there, and the exit it takes. -/
structure Rest (F : FieldStates α) (T : Table α) (last : α → Prop) (s : Nat) (bs u : List UInt8)
    (s₂ : Nat) (c : UInt8) (rest : List UInt8) (x : Edge α) : Prop where
  eq : bs = u ++ c :: rest
  chars : ∀ b ∈ u, F.chars.has b = true
  quiet : quiet T.step s u = some s₂
  inside : F.inside s₂ = true
  exit : x ∈ F.exits s₂
  covers : x.covers c = true
  step : T.step s₂ c = some (x.acts, x.next)
  ends : (∀ a ∈ x.acts, ¬last a) → Ends T.step last x.next rest

/-- The same from the start of the field. -/
structure Split (F : FieldStates α) (T : Table α) (last : α → Prop) (s : Nat) (bs u : List UInt8)
    (s₂ : Nat) (c : UInt8) (rest : List UInt8) (x : Edge α) : Prop where
  eq : bs = u ++ c :: rest
  chars : ∀ b ∈ u, F.chars.has b = true
  run : FieldRun T.step F.enter s u s₂ c x.acts x.next
  inside : u ≠ [] → F.inside s₂ = true
  exit : x ∈ F.exits s₂
  covers : x.covers c = true
  ends : (∀ a ∈ x.acts, ¬last a) → Ends T.step last x.next rest

variable {T : Table α} {last : α → Prop}

/-- A run that ends leaves the field in which it is. -/
theorem exists_rest (h : F.check T = true) {s : Nat} {bs : List UInt8} (hs : F.inside s = true)
    (hends : Ends T.step last s bs) : ∃ u s₂ c rest x, F.Rest T last s bs u s₂ c rest x := by
  induction bs generalizing s with
  | nil => exact hends.elim
  | cons b bs ih =>
      obtain ⟨acts, s', hstep, -⟩ := id hends
      cases step_inside h hs hstep with
      | inl hin =>
          obtain ⟨rfl, hchar, hs'⟩ := hin
          have hends' := hends.of_step hstep fun a ha => absurd ha List.not_mem_nil
          obtain ⟨u, s₂, c, rest, x, hrest⟩ := ih hs' hends'
          refine ⟨b :: u, s₂, c, rest, x, { hrest with eq := ?_, chars := ?_, quiet := ?_ }⟩
          · rw [hrest.eq]
            rfl
          · exact List.forall_mem_cons.mpr ⟨hchar, hrest.chars⟩
          · rw [quiet_cons _ hstep]
            exact hrest.quiet
      | inr hout =>
          obtain ⟨x, hx, hc, rfl, rfl⟩ := hout
          exact ⟨[], s, b, bs, x, rfl, fun d hd => absurd hd List.not_mem_nil, rfl, hs, hx, hc,
            hstep, hends.of_step hstep⟩

/-- A run that ends goes through the field at which it starts. -/
theorem exists_split (h : F.check T = true) (hlast : ∀ a ∈ F.enter, ¬last a) {s : Nat}
    {bs : List UInt8} (hs : F.first s = true) (hends : Ends T.step last s bs) :
    ∃ u s₂ c rest x, F.Split T last s bs u s₂ c rest x := by
  cases bs with
  | nil => exact hends.elim
  | cons b bs =>
      obtain ⟨acts, s', hstep, -⟩ := id hends
      cases step_first h hs hstep with
      | inl hin =>
          obtain ⟨rfl, hchar, hs'⟩ := hin
          obtain ⟨u, s₂, c, rest, x, hrest⟩ := exists_rest h hs' (hends.of_step hstep hlast)
          refine ⟨b :: u, s₂, c, rest, x, ?_, ?_, ⟨s', hstep, hrest.quiet, hrest.step⟩,
            fun _ => hrest.inside, hrest.exit, hrest.covers, hrest.ends⟩
          · rw [hrest.eq]
            rfl
          · exact List.forall_mem_cons.mpr ⟨hchar, hrest.chars⟩
      | inr hout =>
          obtain ⟨x, hx, hc, rfl, rfl⟩ := hout
          refine ⟨[], s, b, bs, x, rfl, fun d hd => absurd hd List.not_mem_nil, ⟨rfl, hstep⟩,
            fun hne => absurd rfl hne, hx, hc, fun hno => hends.of_step hstep fun a ha => ?_⟩
          rcases List.mem_append.mp ha with ha | ha
          · exact hlast a ha
          · exact hno a ha

end FieldStates

/-! ## Fixed texts -/

namespace Table

variable [DecidableEq α] (T : Table α) {last : α → Prop}

/-- From `s` there is no way but an edge of a list. -/
def choices (s : Nat) (es : List (Edge α)) : Bool := T.checks fun s' e => s' ≠ s || es.contains e

/-- From `s` there is no way but the edges of a list, one after the other, and they bring no
actions. -/
def only : Nat → List (Edge α) → Bool
  | _, [] => true
  | s, e :: es => T.choices s [e] && decide (e.acts = []) && only e.next es

/-- The state behind edges. -/
def behind : Nat → List (Edge α) → Nat
  | s, [] => s
  | _, e :: es => behind e.next es

variable {T}

theorem step_of_choices {s s' : Nat} {es : List (Edge α)} {b : UInt8} {acts : List α}
    (h : T.choices s es = true) (hstep : T.step s b = some (acts, s')) :
    ∃ e ∈ es, e.covers b = true ∧ e.acts = acts ∧ e.next = s' := by
  obtain ⟨e, he, hp, hacts, hnext⟩ := of_checks h hstep
  refine ⟨e, ?_, he, hacts, hnext⟩
  simpa using hp

/-- A run that ends takes those edges. -/
theorem exists_of_only {es : List (Edge α)} {s : Nat} {bs : List UInt8} (h : T.only s es = true)
    (hends : Ends T.step last s bs) :
    ∃ u rest, bs = u ++ rest ∧ List.Forall₂ (fun e b => Edge.covers e b = true) es u ∧
      quiet T.step s u = some (behind s es) ∧ Ends T.step last (behind s es) rest := by
  induction es generalizing s bs with
  | nil => exact ⟨[], bs, rfl, .nil, rfl, hends⟩
  | cons e es ih =>
      rw [only, Bool.and_eq_true, Bool.and_eq_true, decide_eq_true_eq] at h
      obtain ⟨⟨hchoices, hacts⟩, honly⟩ := h
      cases bs with
      | nil => exact hends.elim
      | cons b bs =>
          obtain ⟨acts, s', hstep, -⟩ := id hends
          obtain ⟨e', he', hcover, rfl, rfl⟩ := step_of_choices hchoices hstep
          obtain rfl := List.mem_singleton.mp he'
          rw [hacts] at hstep
          obtain ⟨u, rest, rfl, hcovers, hquiet, hrest⟩ :=
            ih honly (hends.of_step hstep fun a ha => absurd ha List.not_mem_nil)
          refine ⟨b :: u, rest, rfl, .cons hcover hcovers, ?_, ?_⟩
          · rw [quiet_cons _ hstep]
            exact hquiet
          · exact hrest

end Table

/-! ## Counting and the last byte -/

section Quiet

variable {T : Table α}

/-- A number that every byte without actions makes one more, in the states of `P`. -/
theorem quiet_counts {P : Nat → Prop} {rank : Nat → Nat}
    (h : ∀ {s b s'}, P s → T.step s b = some ([], s') → P s' ∧ rank s' = rank s + 1) {s s' : Nat}
    {u : List UInt8} (hs : P s) (hu : quiet T.step s u = some s') :
    rank s' = rank s + u.length := by
  induction u generalizing s with
  | nil =>
      cases hu
      rfl
  | cons b u ih =>
      rw [quiet] at hu
      split at hu
      next s₁ hstep =>
        obtain ⟨hs₁, hrank⟩ := h hs hstep
        rw [ih hs₁ hu, hrank, List.length_cons]
        omega
      next => cases hu

/-- A state that no byte without actions leads to. -/
theorem quiet_nil_of_not_reached {s' : Nat} (h : ∀ {s b}, T.step s b ≠ some ([], s')) {s : Nat}
    {u : List UInt8} (hu : quiet T.step s u = some s') : u = [] := by
  induction u generalizing s with
  | nil => rfl
  | cons b u ih =>
      rw [quiet] at hu
      split at hu
      next s₁ hstep =>
        cases ih hu
        cases hu
        exact absurd hstep h
      next => cases hu

end Quiet

end Transducer
