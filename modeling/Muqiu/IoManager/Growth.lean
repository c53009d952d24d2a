import Muqiu.IoManager.Steps

/-!
# Concurrent `addEvent` calls and the context table

`addEvent` tests the size of the table under the read lock, resizes it under the write lock
to one and a half times its own descriptor, and fills the context under the mutex of the
context.  Here these are three steps of a call, and any number of calls interleave, with the
other operations in between.  `addEvent_eq_steps` says that the three in a row are the
`addEvent` of the registry.

A caller that has found the table too small resizes it to the size it asks for, even where
another caller has made it larger since.  The table and its contexts are kept along a run
exactly when no resize of the run asks for less than there is.
-/

namespace Muqiu

open Runs

namespace IOManager

/-! ## Calls in steps -/

/-- How far a call of `addEvent` has come. -/
inductive Stage where
  /-- before the read-locked size test -/
  | test
  /-- the table was too small -/
  | resize
  /-- with the context it fetched -/
  | fetched (p : Nat)
  | done
deriving DecidableEq, Repr

/-- A call of `addEvent` on a descriptor that is not negative. -/
structure Call where
  caller : Caller
  fd : Nat
  event : Event
  cb : Option Nat
  stage : Stage
deriving DecidableEq, Repr

namespace World

/-- `contextResize(1.5 * fd)` -/
def resizeFor (w : World) (fd : Nat) : World := w.contextResize (3 * fd / 2)

/-- `fd_ctx = m_fdContexts[fd]` -/
def fetch (w : World) (call : Call) : World × Call :=
  match w.contextAt call.fd with
  | none => (w.crash, { call with stage := .done })
  | some p => (w, { call with stage := .fetched p })

/-- The next step of a call. -/
def advance (w : World) (ok : Bool) (call : Call) : World × Call :=
  match call.stage with
  | .test =>
      if w.tableSize > call.fd then w.fetch call else (w, { call with stage := .resize })
  | .resize => (w.resizeFor call.fd).fetch call
  | .fetched p =>
      (w.addLocked call.caller p call.fd call.event call.cb ok, { call with stage := .done })
  | .done => (w, call)

end World

/-- The registry with the calls in progress. -/
structure Pool where
  w : World
  calls : List Call

/-- A step of the pool. -/
inductive PoolAct where
  /-- A thread calls `addEvent`. -/
  | call (caller : Caller) (fd : Nat) (event : Event) (cb : Option Nat)
  /-- Call `i` takes its next step. -/
  | advance (i : Nat) (ok : Bool)
  /-- An operation other than `addEvent`. -/
  | other (a : Act)

namespace Pool

/-- One step; `none` when it is not enabled. -/
def step (s : Pool) (a : PoolAct) : Option Pool :=
  if s.w.crashed then none
  else
    match a with
    | .call caller fd event cb =>
        some { s with calls := s.calls ++ [⟨caller, fd, event, cb, .test⟩] }
    | .advance i ok =>
        match s.calls[i]? with
        | none => none
        | some call =>
            let r := s.w.advance ok call
            some ⟨r.1, s.calls.set i r.2⟩
    | .other a =>
        if World.Adds a then none
        else (IOManager.step s.w a).map fun w => { s with w := w }

/-- Before the first call. -/
def start : Pool := ⟨IOManager.start, []⟩

end Pool

open World

/-- The steps of a call in a row are `addEvent`. -/
theorem addEvent_eq_advance (w : World) (caller : Caller) (fd : Nat) (event : Event)
    (cb : Option Nat) (ok : Bool) :
    w.addEvent caller fd event cb ok =
      ((fun r : World × Call => r.1.advance ok r.2)^[3] (w, ⟨caller, fd, event, cb, .test⟩)).1 := by
  by_cases hlt : w.tableSize > fd
  · cases hp : w.contextAt (fd : Int) <;> simp [addEvent, ensure, advance, fetch, hlt, hp]
  · cases hp : (w.contextResize (3 * fd / 2)).contextAt (fd : Int) <;>
      simp [addEvent, ensure, advance, fetch, resizeFor, hlt, hp]

/-! ## The table and its objects -/

namespace World

/-- The descriptors of the objects, in heap order. -/
def fds (w : World) : List Nat := w.heap.map FdContext.fd

/-- Every object is the entry of its descriptor. -/
def Listed (w : World) : Prop :=
  ∀ p i : Nat, w.fds[p]? = some i → w.m_fdContexts[i]? = some (some p)

theorem tableOk_iff {w : World} :
    TableOk w ↔ ∀ (i : Nat) (entry : Option Nat), w.m_fdContexts[i]? = some entry →
      ∃ p, entry = some p ∧ w.fds[p]? = some i := by
  have hfds : ∀ p i : Nat, w.fds[p]? = some i ↔ ∃ c, w.heap[p]? = some c ∧ c.fd = i := by
    intro p i
    rw [fds, List.getElem?_map, Option.map_eq_some_iff]
  simp only [TableOk, hfds]
  constructor
  · intro h i entry hentry
    obtain ⟨p, c, heq, hc⟩ := h i entry hentry
    exact ⟨p, heq, c, hc⟩
  · intro h i entry hentry
    obtain ⟨p, heq, c, hc⟩ := h i entry hentry
    exact ⟨p, c, heq, hc⟩

/-- Every new object is the entry of its index. -/
theorem fillNull_listed : ∀ (i : Nat) (table : List (Option Nat)) (heap : List FdContext)
    (q : Nat) (c : FdContext), heap.length ≤ q → (fillNull i table heap).2[q]? = some c →
    ∃ k, c = .new (i + k) ∧ (fillNull i table heap).1[k]? = some (some q)
  | _, [], heap, q, c, hq, hc => by
      rw [fillNull, List.getElem?_eq_none hq] at hc
      simp at hc
  | i, some p :: rest, heap, q, c, hq, hc => by
      obtain ⟨k, heq, hk⟩ := fillNull_listed (i + 1) rest heap q c hq hc
      exact ⟨k + 1, by rw [heq]; congr 1; omega, hk⟩
  | i, none :: rest, heap, q, c, hq, hc => by
      by_cases hself : q = heap.length
      · obtain ⟨extra, heq, _⟩ := fillNull_heap (i + 1) rest (heap ++ [.new i])
        rw [fillNull, heq, hself] at hc
        refine ⟨0, ?_, by rw [hself]; rfl⟩
        simpa using hc.symm
      · have hlen : (heap ++ [FdContext.new i]).length ≤ q := by
          rw [List.length_append, List.length_singleton]; omega
        obtain ⟨k, heq, hk⟩ := fillNull_listed (i + 1) rest _ q c hlen hc
        exact ⟨k + 1, by rw [heq]; congr 1; omega, hk⟩

theorem fds_contextResize (w : World) (size : Nat) :
    ∃ extra, (w.contextResize size).fds = w.fds ++ extra := by
  obtain ⟨extra, heq, _⟩ := contextResize_heap w size
  exact ⟨extra.map FdContext.fd, by rw [fds, heq, List.map_append, fds]⟩

/-- A resize that does not shrink the table lists every object. -/
theorem Listed.contextResize {w : World} (h : Listed w) {size : Nat}
    (hsize : w.m_fdContexts.length ≤ size) : Listed (w.contextResize size) := by
  intro p i hp
  by_cases hlt : p < w.heap.length
  · obtain ⟨extra, heq⟩ := fds_contextResize w size
    have hold : w.fds[p]? = some i := by
      rw [heq, List.getElem?_append_left (by rw [fds, List.length_map]; exact hlt)] at hp
      exact hp
    have hentry := h p i hold
    have hi := (List.getElem?_eq_some_iff.mp hentry).1
    exact contextResize_keeps (by omega) hentry
  · rw [fds, List.getElem?_map, Option.map_eq_some_iff] at hp
    obtain ⟨c, hc, rfl⟩ := hp
    obtain ⟨k, rfl, hk⟩ := fillNull_listed 0 _ _ p c (Nat.le_of_not_lt hlt) hc
    rw [Nat.zero_add]
    exact hk

/-- The same table over the same objects. -/
structure SameTable (v w : World) : Prop where
  table : v.m_fdContexts = w.m_fdContexts
  fds : v.fds = w.fds

theorem SameTable.refl (w : World) : SameTable w w := ⟨rfl, rfl⟩

theorem SameTable.trans {u v w : World} (h : SameTable u v) (h' : SameTable v w) :
    SameTable u w := ⟨h.table.trans h'.table, h.fds.trans h'.fds⟩

theorem Same.sameTable {v w : World} (h : v.Same w) : SameTable v w :=
  ⟨h.table, by rw [World.fds, h.heap, World.fds]⟩

theorem SameTable.listed {v w : World} (h : SameTable v w) (hw : Listed w) : Listed v := by
  intro p i hp
  rw [h.fds] at hp
  rw [h.table]
  exact hw p i hp

theorem SameTable.tableOk {v w : World} (h : SameTable v w) (hw : TableOk w) : TableOk v := by
  rw [tableOk_iff] at hw ⊢
  rw [h.table, h.fds]
  exact hw

/-- Updating an object that keeps its descriptor. -/
theorem sameTable_set {v w : World} {p : Nat} {c c' : FdContext} (hc : w.heap[p]? = some c)
    (hfd : c'.fd = c.fd) (htable : v.m_fdContexts = w.m_fdContexts)
    (hheap : v.heap = w.heap.set p c') : SameTable v w := by
  refine ⟨htable, ?_⟩
  have hp : (w.heap.map FdContext.fd)[p]? = some c.fd := by rw [List.getElem?_map, hc]; rfl
  rw [fds, hheap, List.map_set, hfd, fds]
  refine List.ext_getElem? fun q => ?_
  rw [List.getElem?_set]
  by_cases hpq : p = q
  · rw [if_pos hpq, if_pos (List.getElem?_eq_some_iff.mp hp).1, ← hpq, hp]
  · rw [if_neg hpq]

theorem sameTable_fire (w : World) (p : Nat) (e : Event) : SameTable (w.fire p e) w := by
  cases hcr : w.crashed with
  | true => rw [fire_crashed hcr]; exact SameTable.refl w
  | false =>
      cases hc : w.heap[p]? with
      | none =>
          rw [fire, if_neg (by simp [hcr])]
          simp only [hc]
          exact (crash_same w).sameTable
      | some c =>
          cases hs : (c.getContext e).scheduler with
          | none => rw [fire_null hcr hc hs]; exact ⟨rfl, rfl⟩
          | some s =>
              rw [fire_some hcr hc hs]
              exact sameTable_set hc (FdContext.fd_fired c e) rfl rfl

theorem sameTable_fireAll (p : Nat) :
    ∀ (es : List Event) (w : World), SameTable (w.fireAll p es) w
  | [], w => SameTable.refl w
  | e :: es, w => (sameTable_fireAll p es (w.fire p e)).trans (sameTable_fire w p e)

/-- Only `addEvent` changes the table. -/
theorem sameTable_step {w v : World} {a : Act} (hadd : ¬ Adds a)
    (hstep : IOManager.step w a = some v) : SameTable v w := by
  cases step_effect hstep with
  | same _ _ hv => exact hv.sameTable
  | ensured _ _ => exact absurd trivial hadd
  | registered _ _ _ => exact absurd trivial hadd
  | unregistered _ hc _ hv =>
      exact hv.sameTable.trans (sameTable_set hc (FdContext.fd_cleared _ _) rfl rfl)
  | cancelled _ _ _ hu _ _ _ hv _ =>
      exact hv.sameTable.trans ((sameTable_fireAll _ _ _).trans hu.sameTable)
  | dispatched _ _ _ hu _ => exact (sameTable_fireAll _ _ _).trans hu.sameTable

theorem sameTable_addLocked (w : World) (caller : Caller) (p : Nat) (fd : Int) (event : Event)
    (cb : Option Nat) (ok : Bool) : SameTable (w.addLocked caller p fd event cb ok) w := by
  rw [addLocked]
  cases hc : w.heap[p]? with
  | none => exact (crash_same w).sameTable
  | some c =>
      simp only
      cases hctl : w.epollCtl ok (if c.events.isNone then .ADD else .MOD) fd
          (c.events.insert event) p with
      | none => exact SameTable.refl w
      | some v =>
          obtain ⟨hsame, _⟩ := epollCtl_same hctl
          have hreg : SameTable (v.register caller p c fd event cb) w :=
            (hsame.register caller p c fd event cb).sameTable.trans
              (sameTable_set hc (FdContext.fd_filled c caller event cb) rfl rfl)
          by_cases hret : (cb.isSome || caller.running) = true
          · simp only [hret, if_true]
            exact hreg
          · simp only [hret]
            exact (crash_same _).sameTable.trans hreg

/-- The table keeps its length and its entries. -/
structure Keeps (w v : World) : Prop where
  length : w.m_fdContexts.length ≤ v.m_fdContexts.length
  entries : ∀ i p : Nat, w.m_fdContexts[i]? = some (some p) →
    v.m_fdContexts[i]? = some (some p)

/-- No context with a registered event is outside the table. -/
def Kept (w : World) : Prop :=
  ∀ (p : Nat) (c : FdContext), w.heap[p]? = some c → c.events.isNone = false →
    w.m_fdContexts[c.fd]? = some (some p)

theorem Listed.kept {w : World} (h : Listed w) : Kept w := by
  intro p c hc _
  exact h p c.fd (by rw [fds, List.getElem?_map, hc]; rfl)

theorem SameTable.keeps {v w : World} (h : SameTable v w) : Keeps w v :=
  ⟨by rw [h.table], fun i p hp => by rw [h.table]; exact hp⟩

theorem keeps_contextResize {w : World} {size : Nat} (h : w.m_fdContexts.length ≤ size) :
    Keeps w (w.contextResize size) := by
  refine ⟨by rw [length_contextResize]; exact h, fun i p hp => contextResize_keeps ?_ hp⟩
  have hi := (List.getElem?_eq_some_iff.mp hp).1
  omega

theorem fetch_same (w : World) (call : Call) : (w.fetch call).1.Same w := by
  rw [fetch]
  cases w.contextAt call.fd with
  | none => exact crash_same w
  | some p => exact Same.refl w

end World

namespace Pool

/-- A resize asks for at least the size the table has. -/
def Grows (s : Pool) : PoolAct → Prop
  | .advance i _ =>
      ∀ call, s.calls[i]? = some call → call.stage = .resize →
        s.w.m_fdContexts.length ≤ 3 * call.fd / 2
  | _ => True

/-- Apart from a resize, a step keeps the table. -/
theorem step_table {s t : Pool} {a : PoolAct} (h : step s a = some t) :
    SameTable t.w s.w ∧ Grows s a ∨
      ∃ i ok call, a = .advance i ok ∧ s.calls[i]? = some call ∧ call.stage = .resize ∧
        SameTable t.w (s.w.resizeFor call.fd) := by
  have hok : s.w.crashed = false := by
    cases hcr : s.w.crashed with
    | false => rfl
    | true => simp [step, hcr] at h
  unfold step at h
  rw [if_neg (by simp [hok])] at h
  cases a with
  | call caller fd event cb =>
      cases Option.some.inj h
      exact Or.inl ⟨SameTable.refl _, trivial⟩
  | advance i ok =>
      simp only at h
      cases hi : s.calls[i]? with
      | none => simp [hi] at h
      | some call =>
          simp only [hi, Option.some.injEq] at h
          subst h
          have hgrows : call.stage ≠ .resize → Grows s (.advance i ok) := by
            intro hne call' hcall' hres
            rw [hi] at hcall'
            cases Option.some.inj hcall'
            exact absurd hres hne
          cases hstage : call.stage with
          | resize =>
              refine Or.inr ⟨i, ok, call, rfl, hi, hstage, ?_⟩
              simp only [advance, hstage]
              exact (fetch_same _ _).sameTable
          | test =>
              refine Or.inl ⟨?_, hgrows (by rw [hstage]; simp)⟩
              simp only [advance, hstage]
              by_cases hlt : s.w.tableSize > call.fd
              · rw [if_pos hlt]; exact (fetch_same _ _).sameTable
              · rw [if_neg hlt]; exact SameTable.refl _
          | fetched p =>
              refine Or.inl ⟨?_, hgrows (by rw [hstage]; simp)⟩
              simp only [advance, hstage]
              exact sameTable_addLocked _ _ _ _ _ _ _
          | done =>
              refine Or.inl ⟨?_, hgrows (by rw [hstage]; simp)⟩
              simp only [advance, hstage]
              exact SameTable.refl _
  | other a =>
      simp only [Option.ite_none_left_eq_some] at h
      obtain ⟨hadd, hmap⟩ := h
      obtain ⟨v, hv, rfl⟩ := Option.map_eq_some_iff.mp hmap
      exact Or.inl ⟨sameTable_step hadd hv, trivial⟩

/-- A step that keeps the table takes no shrinking resize. -/
theorem step_grows {s t : Pool} {a : PoolAct} (h : step s a = some t) (hk : Keeps s.w t.w) :
    Grows s a := by
  cases step_table h with
  | inl hsame => exact hsame.2
  | inr hresize =>
      obtain ⟨i, ok, call, rfl, hcall, _, hsame⟩ := hresize
      intro call' hcall' _
      rw [hcall] at hcall'
      cases Option.some.inj hcall'
      have hlen := hk.length
      rw [hsame.table, resizeFor, length_contextResize] at hlen
      exact hlen

/-- A step without a shrinking resize keeps the table and lists every object. -/
theorem step_keeps {s t : Pool} {a : PoolAct} (hok : TableOk s.w) (hlisted : Listed s.w)
    (hgrows : Grows s a) (h : step s a = some t) :
    Keeps s.w t.w ∧ TableOk t.w ∧ Listed t.w := by
  cases step_table h with
  | inl hsame => exact ⟨hsame.1.keeps, hsame.1.tableOk hok, hsame.1.listed hlisted⟩
  | inr hresize =>
      obtain ⟨i, ok, call, rfl, hcall, hstage, hsame⟩ := hresize
      have hsize := hgrows call hcall hstage
      have hkeep : Keeps s.w (s.w.resizeFor call.fd) := keeps_contextResize hsize
      refine ⟨⟨?_, ?_⟩, hsame.tableOk (hok.contextResize _),
        hsame.listed (hlisted.contextResize hsize)⟩
      · rw [hsame.table]; exact hkeep.length
      · intro i p hp
        rw [hsame.table]
        exact hkeep.entries i p hp

theorem start_tableOk : TableOk start.w ∧ Listed start.w := by
  refine ⟨TableOk.contextResize (w := ⟨0, [], [], fun _ => none, [], false, [], []⟩) ?_ 32,
    Listed.contextResize (w := ⟨0, [], [], fun _ => none, [], false, [], []⟩) ?_ (by simp)⟩
  · intro i entry hentry
    simp at hentry
  · intro p i hp
    simp [fds] at hp

/-- In a run of concurrent `addEvent` calls the table never shrinks, keeps its objects, has no
null entry and no entry for another descriptor, and holds every context with a registered
event, exactly when every resize of the run asks for at least the size the table has. -/
theorem table_kept_iff (as : List PoolAct) :
    Along step (fun s _ t => Keeps s.w t.w) start as ∧
        Throughout step (fun s => TableOk s.w ∧ Kept s.w) start as ↔
      Along step (fun s a _ => Grows s a) start as := by
  have hstep : ∀ s a t, (TableOk s.w ∧ Listed s.w) → Grows s a → step s a = some t →
      Keeps s.w t.w ∧ (TableOk t.w ∧ Listed t.w) :=
    fun s a t hI hgrows h => step_keeps hI.1 hI.2 hgrows h
  constructor
  · rintro ⟨hkeeps, _⟩
    have hfrom : ∀ s a t, True → Keeps s.w t.w → step s a = some t → Grows s a ∧ True :=
      fun s a t _ hk h => ⟨step_grows h hk, trivial⟩
    exact along_of_step hfrom trivial hkeeps
  · intro hgrows
    refine ⟨along_of_step (I := fun s => TableOk s.w ∧ Listed s.w) hstep start_tableOk hgrows, ?_⟩
    have hrun : Throughout step (fun s => TableOk s.w ∧ Listed s.w) start as :=
      throughout_of_along (P := fun s a _ => Grows s a)
        (fun s a t hI hP h => (hstep s a t hI hP h).2) start_tableOk hgrows
    exact hrun.mono fun s h => ⟨h.1, h.2.kept⟩

/-- Two calls find the table of 32 entries too small.  The one for descriptor 100 resizes and
registers, then the one for descriptor 40 resizes. -/
def growAndShrink : List PoolAct :=
  [.call ⟨some 0, 0, true⟩ 100 .read (some 1), .call ⟨some 0, 0, true⟩ 40 .read (some 2),
    .advance 0 true, .advance 1 true, .advance 0 true, .advance 0 true, .advance 1 true]

/-- The second resize drops the context of descriptor 100 with its event. -/
theorem growAndShrink_drops :
    ¬ ∀ as, Throughout step (fun s => TableOk s.w ∧ Kept s.w) start as := by
  intro h
  have hrun : (exec step start growAndShrink).map
      (fun s => (s.w.m_fdContexts.length, (s.w.heap[100]?).map
        fun c => (c.fd, c.events.isNone))) =
      some (60, some (100, false)) := by decide +kernel
  obtain ⟨s, hs, heq⟩ := Option.map_eq_some_iff.mp hrun
  obtain ⟨hlen, hctx⟩ := Prod.mk.inj heq
  obtain ⟨c, hc, hc'⟩ := Option.map_eq_some_iff.mp hctx
  obtain ⟨hfd, hevents⟩ := Prod.mk.inj hc'
  have hkept := ((h growAndShrink).final hs).2 100 c hc hevents
  rw [hfd] at hkept
  have hlt := (List.getElem?_eq_some_iff.mp hkept).1
  omega

end Pool

end IOManager

end Muqiu
