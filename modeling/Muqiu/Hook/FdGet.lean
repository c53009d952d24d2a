import Muqiu.Hook.FdManager

/-!
# Threads that get contexts

Threads call `get` on shared descriptors, and `del`.  A `get` that has to create a context gives up
the read lock before it takes the write lock, and does not look again; other threads run between
the two.  `results`, `peak` and `undefined` are not in the source: they record what the calls for
each descriptor have returned since the last `del`, the greatest length of `m_datas`, and whether
an index was outside of it.
-/

namespace Muqiu

open Runs

namespace Hook

/-- The manager with the threads in `get`, and what their calls have given. -/
structure Getting where
  m : FdManager
  /-- The descriptors of the threads between the two locks. -/
  pending : Nat → Option Nat
  results : Nat → List Nat
  peak : Nat
  undefined : Bool

/-- What a thread does next. -/
inductive GetAct where
  /-- `get` under the read lock -/
  | lookup (thread fd : Nat) (auto_create : Bool)
  /-- `get` under the write lock -/
  | create (thread : Nat) (fstat : Option Bool)
  | del (fd : Nat)
  /-- A call on the context at `p`. -/
  | update (p : Nat) (f : FdCtx → FdCtx)

namespace Getting

/-- Before the first call. -/
def start : Getting where
  m := FdManager.new
  pending := fun _ => none
  results := fun _ => []
  peak := FdManager.new.m_datas.length
  undefined := false

/-- `get` returns the context at `p`. -/
def give (s : Getting) (fd p : Nat) : Getting :=
  { s with results := Function.update s.results fd (p :: s.results fd) }

/-- `get` under the first lock, by a thread. -/
def lookup (s : Getting) (thread fd : Nat) (auto_create : Bool) : Getting :=
  match s.m.lookup fd auto_create with
  | .found none => s
  | .found (some p) => s.give fd p
  | .create => { s with pending := Function.update s.pending thread (some fd) }
  | .undefined => { s with undefined := true }

/-- `get` under the second lock, with what `fstat` has said. -/
def create (s : Getting) (thread fd : Nat) (fstat : Option Bool) : Getting :=
  match s.m.create fd fstat with
  | none => { s with undefined := true }
  | some m =>
      { s with
        m := m
        pending := Function.update s.pending thread none
        results := Function.update s.results fd (s.m.heap.length :: s.results fd)
        peak := max s.peak m.m_datas.length }

/-- `del`, which lets the results for the descriptor go. -/
def del (s : Getting) (fd : Nat) : Getting :=
  match s.m.del fd with
  | none => { s with undefined := true }
  | some m => { s with m := m, results := Function.update s.results fd [] }

/-- One step; `none` when it is not enabled, or when something undefined has happened. -/
def step (s : Getting) : GetAct → Option Getting
  | .lookup thread fd auto_create =>
      if s.undefined = false ∧ s.pending thread = none then some (s.lookup thread fd auto_create)
      else none
  | .create thread fstat =>
      if s.undefined then none
      else (s.pending thread).map fun fd => s.create thread fd fstat
  | .del fd => if s.undefined then none else some (s.del fd)
  | .update p f => if s.undefined then none else some { s with m := s.m.update p f }

/-- The calls for one descriptor return one context, and the table has never shrunk. -/
structure OneContext (s : Getting) : Prop where
  same : ∀ fd, ∀ p ∈ s.results fd, ∀ q ∈ s.results fd, p = q
  grown : s.peak ≤ s.m.m_datas.length
  defined : s.undefined = false

/-- The descriptor is not in a table whose size is negative as an `int`, and the table made for it
is smaller. -/
def Shrinks (m : FdManager) (fd : Nat) : Prop := m.size ≤ fd ∧ 3 * fd / 2 < m.m_datas.length

/-- A context is only made for a descriptor that no call has returned one for since the last
`del`, and in a table that does not shrink. -/
def Fresh (s : Getting) (a : GetAct) (_ : Getting) : Prop :=
  match a with
  | .create thread _ => ∀ fd ∈ s.pending thread, s.results fd = [] ∧ ¬ Shrinks s.m fd
  | _ => True

/-! ## The table -/

theorem size_le (m : FdManager) : m.size ≤ m.m_datas.length := by
  rw [FdManager.size, BitVec.toInt_eq_toNat_cond, BitVec.toNat_ofNat]
  have hmod := Nat.mod_le m.m_datas.length (2 ^ 32)
  split
  · omega
  · omega

/-- A creation that does not shrink the table keeps its entries, except that of the descriptor. -/
theorem create_grows {m : FdManager} {fd : Nat} (h : ¬ Shrinks m fd)
    (hlen : 64 ≤ m.m_datas.length) (fstat : Option Bool) :
    ∃ m', m.create fd fstat = some m' ∧ m.m_datas.length ≤ m'.m_datas.length := by
  have hsize := size_le m
  rw [Shrinks, not_and, Nat.not_lt] at h
  rw [FdManager.create]
  by_cases hfd : m.size ≤ fd
  · have hge := h hfd
    have hlength : (m.resize (3 * fd / 2)).m_datas.length = 3 * fd / 2 := by
      rw [FdManager.resize, List.length_append, List.length_take, List.length_replicate]
      omega
    simp only [if_pos hfd, Int.toNat_natCast, hlength]
    rw [if_pos ⟨by omega, by omega⟩]
    exact ⟨_, rfl, by rw [List.length_set, hlength]; exact hge⟩
  · simp only [if_neg hfd, Int.toNat_natCast]
    rw [if_pos ⟨by omega, by omega⟩]
    exact ⟨_, rfl, Nat.le_of_eq List.length_set.symm⟩

/-- A creation that shrinks the table. -/
theorem create_shrinks {m m' : FdManager} {fd : Nat} (h : Shrinks m fd) {fstat : Option Bool}
    (hcreate : m.create fd fstat = some m') : m'.m_datas.length < m.m_datas.length := by
  rw [FdManager.create, Option.ite_none_right_eq_some] at hcreate
  cases Option.some.inj hcreate.2
  have hlt := h.2
  rw [List.length_set, if_pos h.1, FdManager.resize, List.length_append, List.length_take,
    List.length_replicate, Int.toNat_natCast]
  omega

theorem lookup_defined (m : FdManager) (fd : Nat) (auto_create : Bool) :
    m.lookup fd auto_create ≠ .undefined := by
  have hsize := size_le m
  rw [FdManager.lookup, if_neg (by omega)]
  split
  · split
    · rintro ⟨⟩
    · rintro ⟨⟩
  · rw [if_neg (by omega), Int.toNat_natCast, List.getElem?_eq_getElem (by omega)]
    simp only
    split
    · rintro ⟨⟩
    · rintro ⟨⟩

theorem del_defined (m : FdManager) (fd : Nat) : ∃ m', m.del fd = some m' := by
  have hsize := size_le m
  rw [FdManager.del]
  split
  · exact ⟨_, rfl⟩
  · rw [if_pos ⟨by omega, by rw [Int.toNat_natCast]; omega⟩]
    exact ⟨_, rfl⟩

/-! ## A step -/

/-- The entries and the results are contexts, and the results for a descriptor are the one its
entry points to. -/
structure Current (s : Getting) : Prop where
  least : 64 ≤ s.m.m_datas.length
  peak : s.m.m_datas.length ≤ s.peak
  pointer : ∀ fd p : Nat, s.m.m_datas[fd]? = some (some p) → p < s.m.heap.length
  made : ∀ fd, ∀ p ∈ s.results fd, p < s.m.heap.length
  entry : ∀ fd p : Nat, s.m.m_datas[fd]? = some (some p) → ∀ q ∈ s.results fd, q = p

theorem new_entry {fd p : Nat} (h : FdManager.new.m_datas[fd]? = some (some p)) : False := by
  rw [FdManager.new, List.getElem?_replicate] at h
  split at h
  · cases h
  · cases h

theorem start_current : start.Current where
  least := Nat.le_refl 64
  peak := Nat.le_refl _
  pointer _ _ h := (new_entry h).elim
  made _ _ h := by cases h
  entry _ _ h := (new_entry h).elim

theorem start_oneContext : start.OneContext where
  same _ _ h := by cases h
  grown := Nat.le_refl _
  defined := rfl

theorem mem_update {results : Nat → List Nat} {fd fd' q : Nat} {rs : List Nat}
    (h : q ∈ Function.update results fd rs fd') :
    fd' = fd ∧ q ∈ rs ∨ fd' ≠ fd ∧ q ∈ results fd' := by
  by_cases heq : fd' = fd
  · subst heq
    rw [Function.update_self] at h
    exact Or.inl ⟨rfl, h⟩
  · rw [Function.update_of_ne heq] at h
    exact Or.inr ⟨heq, h⟩

/-- Returning the context of the entry. -/
theorem give_spec {s : Getting} (h : s.Current) (hone : s.OneContext) {fd p : Nat}
    (hentry : s.m.m_datas[fd]? = some (some p)) :
    (s.give fd p).OneContext ∧ (s.give fd p).Current := by
  have hall : ∀ q ∈ (s.give fd p).results fd, q = p := by
    intro q hq
    rcases mem_update hq with ⟨-, hcons⟩ | ⟨hne, -⟩
    · rcases List.mem_cons.mp hcons with heq | hold
      · exact heq
      · exact h.entry fd p hentry q hold
    · exact absurd rfl hne
  have hrest : ∀ fd' ≠ fd, (s.give fd p).results fd' = s.results fd' := fun fd' hne =>
    Function.update_of_ne hne _ _
  refine ⟨⟨fun fd' q hq r hr => ?_, hone.grown, hone.defined⟩,
    ⟨h.least, h.peak, h.pointer, fun fd' q hq => ?_, fun fd' q hq r hr => ?_⟩⟩
  · by_cases heq : fd' = fd
    · subst heq
      rw [hall q hq, hall r hr]
    · rw [hrest fd' heq] at hq hr
      exact hone.same fd' q hq r hr
  · by_cases heq : fd' = fd
    · subst heq
      rw [hall q hq]
      exact h.pointer fd' p hentry
    · rw [hrest fd' heq] at hq
      exact h.made fd' q hq
  · by_cases heq : fd' = fd
    · subst heq
      change s.m.m_datas[fd']? = _ at hq
      rw [hentry] at hq
      cases hq
      exact hall r hr
    · rw [hrest fd' heq] at hr
      exact h.entry fd' q hq r hr

/-- Making a context that shrinks the table breaks it. -/
theorem create_shrunk {s : Getting} (h : s.Current) {fd : Nat} (hshrink : Shrinks s.m fd)
    (thread : Nat) (fstat : Option Bool) : ¬(s.create thread fd fstat).OneContext := by
  intro hone'
  rw [create] at hone'
  cases hcreate : s.m.create fd fstat with
  | none =>
      rw [hcreate] at hone'
      cases hone'.defined
  | some m' =>
      rw [hcreate] at hone'
      have hgrown : max s.peak m'.m_datas.length ≤ m'.m_datas.length := hone'.grown
      have hless := create_shrinks hshrink hcreate
      have hpeak := h.peak
      omega

/-- Otherwise the new context is the only one when there was none. -/
theorem create_oneContext {s : Getting} (h : s.Current) (hone : s.OneContext) {fd : Nat}
    (hshrink : ¬Shrinks s.m fd) (thread : Nat) (fstat : Option Bool) :
    (s.create thread fd fstat).OneContext ↔ s.results fd = [] := by
  obtain ⟨m', hcreate, hlen⟩ := create_grows hshrink h.least fstat
  have hresults : (s.create thread fd fstat).results fd = s.m.heap.length :: s.results fd := by
    rw [create, hcreate]
    exact Function.update_self ..
  constructor
  · intro hone'
    cases hres : s.results fd with
    | nil => rfl
    | cons q rest =>
        -- the new context is none of the old ones
        have hq := h.made fd q (by rw [hres]; exact List.mem_cons_self)
        have heq : q = s.m.heap.length := hone'.same fd q
          (by rw [hresults, hres]; exact List.mem_cons_of_mem _ List.mem_cons_self)
          s.m.heap.length (by rw [hresults]; exact List.mem_cons_self)
        omega
  · intro hres
    have hgrown : max s.peak m'.m_datas.length ≤ m'.m_datas.length :=
      Nat.max_le.mpr ⟨Nat.le_trans hone.grown hlen, Nat.le_refl _⟩
    rw [create, hcreate]
    refine ⟨fun fd' q hq r hr => ?_, hgrown, hone.defined⟩
    rcases mem_update hq with ⟨rfl, hq⟩ | ⟨hne, hq⟩
    · rw [hres] at hq
      rcases mem_update hr with ⟨-, hr⟩ | ⟨hne, -⟩
      · rw [hres] at hr
        rw [List.mem_singleton.mp hq, List.mem_singleton.mp hr]
      · exact absurd rfl hne
    · rcases mem_update hr with ⟨rfl, -⟩ | ⟨-, hr⟩
      · exact absurd rfl hne
      · exact hone.same fd' q hq r hr

theorem create_current {s : Getting} (h : s.Current) {thread fd : Nat} {fstat : Option Bool}
    (hshrink : ¬Shrinks s.m fd) (hres : s.results fd = []) :
    (s.create thread fd fstat).Current := by
  obtain ⟨m', hcreate, hlen⟩ := create_grows hshrink h.least fstat
  obtain ⟨hheap, hentries⟩ := FdManager.create_spec hcreate
  have hlt : s.m.heap.length < m'.heap.length := by
    rw [hheap, List.length_append]
    exact Nat.lt_succ_self _
  rw [create, hcreate]
  refine ⟨Nat.le_trans h.least hlen, Nat.le_max_right _ _, fun fd' p hp => ?_, fun fd' p hp => ?_,
    fun fd' p hp q hq => ?_⟩
  · rcases hentries fd' p hp with ⟨-, rfl⟩ | ⟨-, hold⟩
    · exact hlt
    · exact Nat.lt_trans (h.pointer fd' p hold) hlt
  · rcases mem_update hp with ⟨-, hp⟩ | ⟨-, hp⟩
    · rw [hres] at hp
      rw [List.mem_singleton.mp hp]
      exact hlt
    · exact Nat.lt_trans (h.made fd' p hp) hlt
  · rcases mem_update hq with ⟨rfl, hq⟩ | ⟨hne, hq⟩
    · rw [hres] at hq
      rcases hentries fd' p hp with ⟨-, rfl⟩ | ⟨hneq, -⟩
      · exact List.mem_singleton.mp hq
      · exact absurd rfl hneq
    · rcases hentries fd' p hp with ⟨heq, -⟩ | ⟨-, hold⟩
      · exact absurd (Int.ofNat.inj heq).symm hne
      · exact h.entry fd' p hold q hq

/-- Making a context: the calls still return one exactly when they have returned none. -/
theorem create_spec {s : Getting} (h : s.Current) (hone : s.OneContext) (thread fd : Nat)
    (fstat : Option Bool) :
    ((s.create thread fd fstat).OneContext ↔ s.results fd = [] ∧ ¬ Shrinks s.m fd) ∧
      ((s.create thread fd fstat).OneContext → (s.create thread fd fstat).Current) := by
  by_cases hshrink : Shrinks s.m fd
  · have hnot := create_shrunk h hshrink thread fstat
    exact ⟨iff_of_false hnot fun hcond => hcond.2 hshrink, fun hone' => absurd hone' hnot⟩
  · have hiff := create_oneContext h hone hshrink thread fstat
    exact ⟨by rw [hiff, and_iff_left hshrink],
      fun hone' => create_current h hshrink (hiff.mp hone')⟩

/-- Deleting a descriptor forgets its results. -/
theorem del_oneContext {s : Getting} (h : s.Current) (hone : s.OneContext) (fd : Nat) :
    (s.del fd).OneContext ∧ (s.del fd).Current := by
  obtain ⟨m', hdel⟩ := del_defined s.m fd
  obtain ⟨hheap, hlen, hentries⟩ := FdManager.del_spec hdel
  have hkept : ∀ fd', ∀ q ∈ Function.update s.results fd [] fd', q ∈ s.results fd' := by
    intro fd' q hq
    rcases mem_update hq with ⟨-, hnil⟩ | ⟨-, hold⟩
    · cases hnil
    · exact hold
  rw [del, hdel]
  refine ⟨⟨fun fd' q hq r hr => hone.same fd' q (hkept fd' q hq) r (hkept fd' r hr), ?_,
    hone.defined⟩, ⟨?_, ?_, fun fd' p hp => ?_, fun fd' p hp => ?_, fun fd' p hp q hq => ?_⟩⟩
  · change s.peak ≤ m'.m_datas.length
    rw [hlen]
    exact hone.grown
  · change 64 ≤ m'.m_datas.length
    rw [hlen]
    exact h.least
  · change m'.m_datas.length ≤ s.peak
    rw [hlen]
    exact h.peak
  · change p < m'.heap.length
    rw [hheap]
    exact h.pointer fd' p (hentries fd' p hp)
  · change p < m'.heap.length
    rw [hheap]
    exact h.made fd' p (hkept fd' p hp)
  · exact h.entry fd' p (hentries fd' p hp) q (hkept fd' q hq)

theorem step_spec {s : Getting} {a : GetAct} {s' : Getting} (h : s.Current) (hone : s.OneContext)
    (hstep : s.step a = some s') :
    (s'.OneContext ↔ s.Fresh a s') ∧ (s'.OneContext → s'.Current) := by
  cases a with
  | lookup thread fd auto_create =>
      rw [step, Option.ite_none_right_eq_some] at hstep
      cases Option.some.inj hstep.2
      have hkeeps : (s.lookup thread fd auto_create).OneContext ∧
          (s.lookup thread fd auto_create).Current := by
        rw [lookup]
        cases hlookup : s.m.lookup fd auto_create with
        | found ctx =>
            cases ctx with
            | none => exact ⟨hone, h⟩
            | some p =>
                obtain ⟨i, hi, hentry⟩ := FdManager.lookup_found hlookup
                cases Int.ofNat.inj hi
                exact give_spec h hone hentry
        | create => exact ⟨⟨hone.same, hone.grown, hone.defined⟩,
            ⟨h.least, h.peak, h.pointer, h.made, h.entry⟩⟩
        | undefined => exact absurd hlookup (lookup_defined s.m fd auto_create)
      exact ⟨iff_of_true hkeeps.1 trivial, fun _ => hkeeps.2⟩
  | create thread fstat =>
      rw [step, Option.ite_none_left_eq_some, Option.map_eq_some_iff] at hstep
      obtain ⟨-, fd, hfd, rfl⟩ := hstep
      obtain ⟨hiff, hcurrent⟩ := create_spec h hone thread fd fstat
      refine ⟨hiff.trans ⟨fun hcond fd' hfd' => ?_, fun hfresh => hfresh fd hfd⟩, hcurrent⟩
      rw [hfd] at hfd'
      rwa [← Option.some.inj hfd']
  | del fd =>
      rw [step, Option.ite_none_left_eq_some] at hstep
      cases Option.some.inj hstep.2
      obtain ⟨hone', hcurrent⟩ := del_oneContext h hone fd
      exact ⟨iff_of_true hone' trivial, fun _ => hcurrent⟩
  | update p f =>
      rw [step, Option.ite_none_left_eq_some] at hstep
      cases Option.some.inj hstep.2
      have hheap : (s.m.update p f).heap.length = s.m.heap.length := List.length_modify ..
      refine ⟨iff_of_true ⟨hone.same, hone.grown, hone.defined⟩ trivial, fun _ =>
        ⟨h.least, h.peak, fun fd' q hq => ?_, fun fd' q hq => ?_, h.entry⟩⟩
      · rw [hheap]
        exact h.pointer fd' q hq
      · rw [hheap]
        exact h.made fd' q hq

/-! ## A run -/

/-- In every interleaving of the threads, the calls for a descriptor return one context between
two calls of `del` exactly when no context is made for a descriptor that has one, nor in a table
that shrinks. -/
theorem one_context_iff (as : List GetAct) :
    Throughout step OneContext start as ↔ Along step Fresh start as := by
  have hrule : ∀ s a s', True → (s.OneContext → s.Current) → s.OneContext → step s a = some s' →
      (s'.OneContext ↔ Fresh s a s') ∧ (s'.OneContext → s'.Current) :=
    fun _ _ _ _ hcurrent hone hstep => step_spec (hcurrent hone) hone hstep
  exact throughout_iff_along_beside
    (fun s a s' ha hj hone hstep => (hrule s a s' ha hj hone hstep).2)
    (fun s a s' ha hj hone hstep => (hrule s a s' ha hj hone hstep).1) (fun _ _ => trivial)
    (fun _ => start_current) start_oneContext

/-- Two threads get the context of descriptor 5 and both make one. -/
theorem two_threads_two_contexts :
    ∃ s, exec step start [.lookup 0 5 true, .lookup 1 5 true, .create 0 (some true),
        .create 1 (some true)] = some s ∧ s.results 5 = [1, 0] ∧ ¬ s.OneContext := by
  refine ⟨_, rfl, rfl, fun h => ?_⟩
  exact absurd (h.same 5 0 (by decide) 1 (by decide)) (by decide)

end Getting

end Hook

end Muqiu
