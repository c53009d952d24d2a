import Muqiu.IoManager.Growth

/-!
# The mask of a context and the mask epoll has

`events` and the interest list of the epoll instance hold the same mask, and every operation
changes the two together: it computes the new mask, hands it to `epoll_ctl`, and stores it when
that succeeds.  `Agrees` says so for one descriptor.  Every operation of the registry keeps it
for every descriptor (`step_tracks`), with the exception of `close`, which takes the descriptor
out of the interest list and leaves the context alone.
-/

namespace Muqiu

namespace IOManager

namespace World

/-- What the interest list holds for a context at `p` with these events. -/
def entryFor (m : Events) (p : Nat) : Option (Events × Nat) :=
  if m.isNone then none else some (m, p)

/-- The interest list has the events of the context and points to it. -/
def Agrees (w : World) (fd : Int) : Prop :=
  w.interest fd = (w.contextAt fd).bind fun p => entryFor (w.eventsAt p) p

/-- Whatever agrees still does. -/
def Tracks (w v : World) : Prop := ∀ fd, w.Agrees fd → v.Agrees fd

theorem Tracks.trans {u v w : World} (h : u.Tracks v) (h' : v.Tracks w) : u.Tracks w :=
  fun fd hfd => h' fd (h fd hfd)

/-- A step that touches neither the interest list nor a context. -/
theorem tracks_of_same {w v : World} (hinterest : v.interest = w.interest)
    (htable : v.m_fdContexts = w.m_fdContexts) (hheap : v.heap = w.heap) : w.Tracks v := by
  intro fd h
  simp only [Agrees, contextAt, eventsAt, hinterest, htable, hheap] at h ⊢
  exact h

/-- A step on one context: its mask and the kernel's are set together. -/
theorem tracks_of_set {w v : World} {fd : Int} {p : Nat} {m : Events} (hok : TableOk w)
    (hp : w.contextAt fd = some p) (htable : v.m_fdContexts = w.m_fdContexts)
    (hinterest : v.interest = Function.update w.interest fd (entryFor m p))
    (hself : v.eventsAt p = m) (hothers : ∀ q, q ≠ p → v.eventsAt q = w.eventsAt q) :
    w.Tracks v := by
  intro fd' h
  have hctx : v.contextAt fd' = w.contextAt fd' := by rw [contextAt, contextAt, htable]
  rw [Agrees, hctx, hinterest]
  by_cases heq : fd' = fd
  · rw [heq, Function.update_self, hp, Option.bind_some, hself]
  · rw [Function.update_of_ne heq, h]
    cases hq : w.contextAt fd' with
    | none => rfl
    | some q =>
        have hne : q ≠ p := by
          rintro rfl
          obtain ⟨c, hc, hfd⟩ := hok.contextAt hp
          obtain ⟨d, hd, hfd'⟩ := hok.contextAt hq
          cases Option.some.inj (hc.symm.trans hd)
          exact heq (hfd'.symm.trans hfd)
        rw [Option.bind_some, Option.bind_some, hothers q hne]

/-! ## Growing the table -/

/-- The resize of `addEvent`, if there is one, does not cut the table. -/
def Extends (w : World) (fd : Int) : Prop :=
  w.tableSize > fd ∨ w.m_fdContexts.length ≤ 3 * fd.toNat / 2

theorem tracks_contextResize {w : World} {size : Nat} (hok : TableOk w) (hlisted : Listed w)
    (hsize : w.m_fdContexts.length ≤ size) : w.Tracks (w.contextResize size) := by
  intro fd h
  cases hp : w.contextAt fd with
  | some p =>
      obtain ⟨i, rfl, hi⟩ := contextAt_eq_some.mp hp
      have hlt := (List.getElem?_eq_some_iff.mp hi).1
      have hp' : (w.contextResize size).contextAt i = some p :=
        contextAt_eq_some.mpr ⟨i, rfl, contextResize_keeps (by omega) hi⟩
      obtain ⟨c, hc, _⟩ := hok.contextAt hp
      have hinterest : (w.contextResize size).interest = w.interest := rfl
      rw [Agrees, hp, Option.bind_some, eventsAt, hc] at h
      rw [Agrees, hinterest, hp', Option.bind_some, eventsAt, contextResize_heap_some hc, h]
  | none =>
      rw [Agrees, hp, Option.bind_none] at h
      have hinterest : (w.contextResize size).interest fd = none := h
      rw [Agrees, hinterest]
      cases hq : (w.contextResize size).contextAt fd with
      | none => rfl
      | some q =>
          -- the context was not there before, so it is a new one and has no events
          obtain ⟨d, hd, hfd⟩ := (hok.contextResize size).contextAt hq
          obtain ⟨extra, hheap, hunused⟩ := contextResize_heap w size
          have hnew : w.heap.length ≤ q := by
            by_contra hlt
            rw [hheap, List.getElem?_append_left (by omega)] at hd
            have hentry := hlisted q d.fd (by rw [World.fds, List.getElem?_map, hd]; rfl)
            rw [contextAt_eq_some.mpr ⟨d.fd, hfd.symm, hentry⟩] at hp
            cases hp
          have hd' := hd
          rw [hheap, List.getElem?_append_right hnew] at hd'
          obtain ⟨i, rfl⟩ := hunused d (List.mem_of_getElem? hd')
          rw [Option.bind_some, eventsAt_of_heap hd]
          rfl

theorem tracks_ensure {w : World} {fd : Int} (hok : TableOk w) (hlisted : Listed w)
    (hext : w.Extends fd) : w.Tracks (w.ensure fd) := by
  rw [ensure]
  split
  next => exact fun _ h => h
  next hsmall => exact tracks_contextResize hok hlisted (hext.resolve_left hsmall)

theorem Listed.ensure {w : World} {fd : Int} (hlisted : Listed w) (hext : w.Extends fd) :
    Listed (w.ensure fd) := by
  rw [World.ensure]
  split
  next => exact hlisted
  next hsmall => exact hlisted.contextResize (hext.resolve_left hsmall)

/-! ## The operations -/

/-- What `epoll_ctl` does when it succeeds. -/
theorem epollCtl_interest {w v : World} {ok : Bool} {op : CtlOp} {fd : Int} {m : Events} {p : Nat}
    (h : w.epollCtl ok op fd m p = some v) :
    v = { w with interest :=
      Function.update w.interest fd (if op = .DEL then none else some (m, p)) } := by
  rw [epollCtl, Option.ite_none_right_eq_some] at h
  exact (Option.some.inj h.2).symm

/-- The operation chosen by what is left over stores just that. -/
theorem entryFor_eq (m : Events) (p : Nat) :
    (if (if m.isNone then CtlOp.DEL else .MOD) = .DEL then none else some (m, p)) =
      entryFor m p := by
  rw [entryFor]
  cases m.isNone with
  | true => rfl
  | false => rfl

theorem eventsAt_set {w v : World} {p : Nat} {c c' : FdContext} (hc : w.heap[p]? = some c)
    (hheap : v.heap = w.heap.set p c') :
    v.eventsAt p = c'.events ∧ ∀ q, q ≠ p → v.eventsAt q = w.eventsAt q := by
  refine ⟨?_, fun q hq => ?_⟩
  · rw [eventsAt, hheap, List.getElem?_set_self (List.getElem?_eq_some_iff.mp hc).1]
    rfl
  · rw [eventsAt, eventsAt, hheap, List.getElem?_set_ne (Ne.symm hq)]

/-- Firing clears the bits and touches nothing else of the two masks. -/
theorem fireAll_events {p : Nat} : ∀ {es : List Event} {w : World},
    (w.fireAll p es).crashed = false →
      (w.fireAll p es).interest = w.interest ∧
        (w.fireAll p es).m_fdContexts = w.m_fdContexts ∧
        (w.fireAll p es).eventsAt p = es.foldl Events.erase (w.eventsAt p) ∧
        ∀ q, q ≠ p → (w.fireAll p es).eventsAt q = w.eventsAt q
  | [], w, _ => ⟨rfl, rfl, rfl, fun _ _ => rfl⟩
  | e :: es, w, h => by
      rw [fireAll_cons] at h ⊢
      obtain ⟨hinterest, htable, hself, hothers⟩ := fireAll_events h
      have hok : (w.fire p e).crashed = false := by
        cases hcr : (w.fire p e).crashed with
        | false => rfl
        | true =>
            rw [fireAll_crashed hcr, hcr] at h
            cases h
      have hwok : w.crashed = false := by
        cases hcr : w.crashed with
        | false => rfl
        | true =>
            rw [fire_crashed hcr, hcr] at hok
            cases hok
      cases hc : w.heap[p]? with
      | none =>
          rw [fire, if_neg (by simp [hwok])] at hok
          simp only [hc] at hok
          cases hok
      | some c =>
          cases hs : (c.getContext e).scheduler with
          | none =>
              rw [fire_null hwok hc hs] at hok
              cases hok
          | some s =>
              have hfire := fire_some hwok hc hs
              obtain ⟨hset, hset'⟩ := eventsAt_set (v := w.fire p e) hc (by rw [hfire])
              rw [hinterest, htable, hself, List.foldl_cons, hset, eventsAt_of_heap hc, hfire]
              refine ⟨rfl, rfl, rfl, fun q hq => ?_⟩
              rw [← hfire, hothers q hq, hset' q hq]

/-- Firing some events of one context, after `epoll_ctl` has got what will be left. -/
theorem tracks_fireAll {w u : World} {fd : Int} {p : Nat} {m : Events} {es : List Event}
    (hok : TableOk w) (hp : w.contextAt fd = some p) (hsame : u.Same w)
    (hinterest : u.interest = Function.update w.interest fd (entryFor m p))
    (hm : es.foldl Events.erase (w.eventsAt p) = m)
    (hcrash : (u.fireAll p es).crashed = false) : w.Tracks (u.fireAll p es) := by
  obtain ⟨hkernel, htable, hself, hothers⟩ := fireAll_events hcrash
  have hevents : ∀ q, u.eventsAt q = w.eventsAt q := fun q => by
    rw [eventsAt, eventsAt, hsame.heap]
  refine tracks_of_set hok hp (htable.trans hsame.table) (hkernel.trans hinterest) ?_ ?_
  · rw [hself, hevents, hm]
  · intro q hq
    rw [hothers q hq, hevents]

theorem Events.foldl_erase_toList (m n : Events) : n.toList.foldl Events.erase m = m.diff n := by
  obtain ⟨mr, mw⟩ := m
  obtain ⟨nr, nw⟩ := n
  cases mr <;> cases mw <;> cases nr <;> cases nw <;> rfl

theorem Events.diff_self (m : Events) : m.diff m = .NONE := by
  obtain ⟨r, w⟩ := m
  cases r <;> cases w <;> rfl

theorem Events.isNone_insert (m : Events) (e : Event) : (m.insert e).isNone = false := by
  obtain ⟨r, w⟩ := m
  cases e <;> cases r <;> cases w <;> rfl

theorem tracks_addLocked {w : World} {caller : Caller} {p : Nat} {fd : Int} {event : Event}
    {cb : Option Nat} {ok : Bool} (hok : TableOk w) (hp : w.contextAt fd = some p)
    (hcrash : (w.addLocked caller p fd event cb ok).crashed = false) :
    w.Tracks (w.addLocked caller p fd event cb ok) := by
  obtain ⟨c, hc, _⟩ := hok.contextAt hp
  rw [addLocked] at hcrash ⊢
  simp only [hc] at hcrash ⊢
  cases hctl : w.epollCtl ok (if c.events.isNone then .ADD else .MOD) fd
      (c.events.insert event) p with
  | none => exact fun _ h => h
  | some v =>
      have hset := epollCtl_interest hctl
      have hop : (if c.events.isNone then CtlOp.ADD else .MOD) ≠ .DEL := by
        split
        · rintro ⟨⟩
        · rintro ⟨⟩
      rw [if_neg hop] at hset
      simp only [hctl] at hcrash ⊢
      split at hcrash
      next hret =>
        rw [if_pos hret]
        have hentry : entryFor (c.events.insert event) p = some (c.events.insert event, p) := by
          rw [entryFor, Events.isNone_insert]
          rfl
        have hheap : (v.register caller p c fd event cb).heap =
            w.heap.set p (c.filled caller event cb) := by
          rw [hset]
          rfl
        obtain ⟨hself, hothers⟩ := eventsAt_set hc hheap
        refine tracks_of_set (m := c.events.insert event) hok hp (by rw [hset]; rfl) ?_ hself
          hothers
        rw [hentry, hset]
        rfl
      next => cases hcrash

theorem tracks_addEvent {w : World} {caller : Caller} {fd : Int} {event : Event}
    {cb : Option Nat} {ok : Bool} (hok : TableOk w) (hlisted : Listed w) (hext : w.Extends fd)
    (hcrash : (w.addEvent caller fd event cb ok).crashed = false) :
    w.Tracks (w.addEvent caller fd event cb ok) := by
  have hensure := tracks_ensure hok hlisted hext
  rw [addEvent] at hcrash ⊢
  cases hp : (w.ensure fd).contextAt fd with
  | none =>
      simp only [hp] at hcrash
      cases hcrash
  | some p =>
      simp only [hp] at hcrash ⊢
      exact hensure.trans (tracks_addLocked (hok.ensure fd) hp hcrash)

/-- What `delEvent` and `cancelEvent` have told the kernel. -/
theorem removeCtl_interest {w v : World} {fd : Int} {event : Event} {ok : Bool} {p : Nat}
    {c : FdContext} (h : w.removeCtl fd event ok p = some (v, c)) :
    v.interest = Function.update w.interest fd (entryFor (c.events.erase event) p) := by
  rw [removeCtl] at h
  cases hc : w.heap[p]? with
  | none =>
      simp only [hc] at h
      cases h
  | some d =>
      simp only [hc, Option.ite_none_right_eq_some] at h
      obtain ⟨u, hctl, heq⟩ := Option.map_eq_some_iff.mp h.2
      cases heq
      rw [epollCtl_interest hctl, entryFor_eq]

theorem tracks_delEvent {w : World} {fd : Int} {event : Event} {ok : Bool} (hok : TableOk w)
    (hcrash : (w.delEvent fd event ok).crashed = false) :
    w.Tracks (w.delEvent fd event ok) := by
  rw [delEvent] at hcrash ⊢
  split
  next => exact fun _ h => h
  next hsize =>
    rw [if_neg hsize] at hcrash
    cases hp : w.contextAt fd with
    | none =>
        simp only [hp] at hcrash
        cases hcrash
    | some p =>
        simp only
        cases hr : w.removeCtl fd event ok p with
        | none => exact fun _ h => h
        | some vc =>
            obtain ⟨v, c⟩ := vc
            obtain ⟨hc, _, hsame, _⟩ := removeCtl_spec hr
            have hheap : (v.unregister p c fd event).heap = w.heap.set p (c.cleared event) := by
              rw [← hsame.heap]
              rfl
            obtain ⟨hself, hothers⟩ := eventsAt_set hc hheap
            have hinterest := removeCtl_interest hr
            exact tracks_of_set (v := v.unregister p c fd event) hok hp hsame.table hinterest hself
              hothers

theorem tracks_cancelEvent {w : World} {fd : Int} {event : Event} {ok : Bool} (hok : TableOk w)
    (hcrash : (w.cancelEvent fd event ok).crashed = false) :
    w.Tracks (w.cancelEvent fd event ok) := by
  rw [cancelEvent] at hcrash ⊢
  split
  next => exact fun _ h => h
  next hsize =>
    rw [if_neg hsize] at hcrash
    cases hp : w.contextAt fd with
    | none =>
        simp only [hp] at hcrash
        cases hcrash
    | some p =>
        simp only [hp] at hcrash ⊢
        cases hr : w.removeCtl fd event ok p with
        | none => exact fun _ h => h
        | some vc =>
            obtain ⟨v, c⟩ := vc
            obtain ⟨hc, _, hsame, _⟩ := removeCtl_spec hr
            simp only [hr] at hcrash
            have hevents : [event].foldl Events.erase (w.eventsAt p) = c.events.erase event := by
              rw [eventsAt_of_heap hc]
              rfl
            have hfired : (v.fireAll p [event]).crashed = false := hcrash
            exact tracks_fireAll hok hp hsame (removeCtl_interest hr) hevents hfired

theorem tracks_cancelAll {w : World} {fd : Int} {ok : Bool} (hok : TableOk w)
    (hlive : w.crashed = false) (hcrash : (w.cancelAll fd ok).crashed = false) :
    w.Tracks (w.cancelAll fd ok) := by
  rw [cancelAll] at hcrash ⊢
  split
  next => exact fun _ h => h
  next hsize =>
    rw [if_neg hsize] at hcrash
    cases hp : w.contextAt fd with
    | none =>
        simp only [hp] at hcrash
        cases hcrash
    | some p =>
        simp only [hp] at hcrash ⊢
        split
        next => exact fun _ h => h
        next hsome =>
          rw [if_neg hsome] at hcrash
          cases hctl : w.epollCtl ok .DEL fd .NONE p with
          | none => exact fun _ h => h
          | some u =>
              obtain ⟨hsame, hcr⟩ := epollCtl_same hctl
              obtain ⟨c, hc, _⟩ := hok.contextAt hp
              have huc : u.heap[p]? = some c := by rw [hsame.heap]; exact hc
              have hfires := cancelAll_fires (hcr.trans hlive) huc
              simp only at hfires
              simp only [hctl, hfires] at hcrash ⊢
              split
              next hend =>
                rw [if_pos hend] at hcrash
                have hinterest : u.interest =
                    Function.update w.interest fd (entryFor .NONE p) :=
                  congrArg interest (epollCtl_interest hctl)
                have hevents : c.events.toList.foldl Events.erase (w.eventsAt p) = .NONE := by
                  rw [eventsAt_of_heap hc, Events.foldl_erase_toList, Events.diff_self]
                exact tracks_fireAll hok hp hsame hinterest hevents hcrash
              next hend =>
                rw [if_neg hend] at hcrash
                cases hcrash

/-- The context of a report is the one of the table, so the idle loop tells the kernel about
the descriptor it takes the events of. -/
theorem tracks_dispatch {w : World} {r : Report} {ok : Bool} (hok : TableOk w)
    (hlisted : Listed w) (hcrash : (w.dispatch r ok).crashed = false) :
    w.Tracks (w.dispatch r ok) := by
  rw [dispatch] at hcrash ⊢
  cases hc : w.heap[r.ptr]? with
  | none =>
      simp only [hc] at hcrash
      cases hcrash
  | some c =>
      simp only [hc] at hcrash ⊢
      split
      next => exact fun _ h => h
      next hsome =>
        rw [if_neg hsome] at hcrash
        cases hctl : w.epollCtl ok
            (if (c.events.diff (realEvents c.events r)).isNone then .DEL else .MOD) c.fd
            (c.events.diff (realEvents c.events r)) r.ptr with
        | none => exact fun _ h => h
        | some u =>
            obtain ⟨hsame, _⟩ := epollCtl_same hctl
            simp only [hctl, fireAll_toList] at hcrash ⊢
            have hentry := hlisted r.ptr c.fd (by rw [World.fds, List.getElem?_map, hc]; rfl)
            have hp : w.contextAt c.fd = some r.ptr := contextAt_eq_some.mpr ⟨c.fd, rfl, hentry⟩
            have hinterest := congrArg interest (epollCtl_interest hctl)
            simp only [entryFor_eq] at hinterest
            have hevents : (realEvents c.events r).toList.foldl Events.erase (w.eventsAt r.ptr) =
                c.events.diff (realEvents c.events r) := by
              rw [eventsAt_of_heap hc, Events.foldl_erase_toList]
            exact tracks_fireAll hok hp hsame hinterest hevents hcrash

/-! ## Steps -/

/-- Every descriptor Linux gives out is below this. -/
def fdLimit : Nat := 2 ^ 30

/-- A table of contexts that no operation has cut, and that none will. -/
structure Regular (w : World) : Prop where
  table : TableOk w
  listed : Listed w
  short : w.m_fdContexts.length < 2 ^ 31

theorem tableSize_eq {w : World} (h : w.m_fdContexts.length < 2 ^ 31) :
    w.tableSize = w.m_fdContexts.length := by
  rw [tableSize, BitVec.toInt_ofNat']
  exact Int.bmod_eq_of_le (by omega) (by omega)

/-- A table that is too small is one the resize makes longer. -/
theorem Regular.extends {w : World} (h : w.Regular) (fd : Int) : w.Extends fd := by
  rw [Extends, tableSize_eq h.short]
  omega

theorem Regular.ensure {w : World} (h : w.Regular) {fd : Int} (hfd : fd < fdLimit) :
    (w.ensure fd).Regular := by
  refine ⟨h.table.ensure fd, h.listed.ensure (h.extends fd), ?_⟩
  rw [World.ensure]
  split
  next => exact h.short
  next =>
    rw [length_contextResize]
    rw [fdLimit] at hfd
    omega

theorem SameTable.regular {v w : World} (h : SameTable v w) (hw : w.Regular) : v.Regular :=
  ⟨h.tableOk hw.table, h.listed hw.listed, by rw [h.table]; exact hw.short⟩

theorem start_regular : start.Regular := by
  refine ⟨Pool.start_tableOk.1, Pool.start_tableOk.2, ?_⟩
  rw [start, length_contextResize]
  omega

/-- An `addEvent` is on a number that can be a descriptor. -/
def Valid : Act → Prop
  | .addEvent _ fd _ _ _ => fd < fdLimit
  | _ => True

instance decidableValid : DecidablePred Valid
  | .addEvent _ fd _ _ _ => inferInstanceAs (Decidable (fd < fdLimit))
  | .delEvent _ _ _ => .isTrue trivial
  | .cancelEvent _ _ _ => .isTrue trivial
  | .cancelAll _ _ => .isTrue trivial
  | .epollWait _ _ _ => .isTrue trivial
  | .dispatch _ _ => .isTrue trivial
  | .close _ => .isTrue trivial

theorem regular_addEvent {w : World} {caller : Caller} {fd : Int} {event : Event}
    {cb : Option Nat} {ok : Bool} (h : w.Regular) (hfd : fd < fdLimit) :
    (w.addEvent caller fd event cb ok).Regular := by
  have hensure := h.ensure hfd
  rw [addEvent]
  cases (w.ensure fd).contextAt fd with
  | none => exact (crash_same (w.ensure fd)).sameTable.regular hensure
  | some p => exact (sameTable_addLocked _ _ _ _ _ _ _).regular hensure

/-- Every step on possible descriptors keeps the table. -/
theorem step_regular {w v : World} {a : Act} (h : w.Regular) (hvalid : Valid a)
    (hstep : IOManager.step w a = some v) : v.Regular := by
  by_cases hadd : Adds a
  · cases a with
    | addEvent caller fd event cb ok =>
        rw [IOManager.step, Option.ite_none_left_eq_some] at hstep
        cases Option.some.inj hstep.2
        exact regular_addEvent h hvalid
    | _ => exact hadd.elim
  · exact (sameTable_step hadd hstep).regular h

/-- Every step but `close` keeps the two masks of a descriptor the same. -/
theorem step_tracks {w v : World} {a : Act} (h : w.Regular) (hclose : ∀ fd, a ≠ .close fd)
    (hstep : IOManager.step w a = some v) (hcrash : v.crashed = false) : w.Tracks v := by
  have hlive := step_ok hstep
  unfold IOManager.step at hstep
  rw [if_neg (by simp [hlive])] at hstep
  cases a with
  | addEvent caller fd event cb ok =>
      cases Option.some.inj hstep
      exact tracks_addEvent h.table h.listed (h.extends fd) hcrash
  | delEvent fd event ok =>
      cases Option.some.inj hstep
      exact tracks_delEvent h.table hcrash
  | cancelEvent fd event ok =>
      cases Option.some.inj hstep
      exact tracks_cancelEvent h.table hcrash
  | cancelAll fd ok =>
      cases Option.some.inj hstep
      exact tracks_cancelAll h.table hlive hcrash
  | epollWait fd ready failed =>
      simp only at hstep
      cases hi : w.interest fd with
      | none =>
          simp only [hi] at hstep
          cases hstep
      | some entry =>
          simp only [hi, Option.ite_none_right_eq_some, Option.some.injEq] at hstep
          obtain ⟨_, rfl⟩ := hstep
          exact tracks_of_same rfl rfl rfl
  | dispatch i ok =>
      simp only at hstep
      cases hr : w.reports[i]? with
      | none =>
          simp only [hr] at hstep
          cases hstep
      | some r =>
          simp only [hr, Option.some.injEq] at hstep
          subst hstep
          have htaken : w.Tracks { w with reports := w.reports.eraseIdx i } :=
            tracks_of_same rfl rfl rfl
          have hsame : SameTable { w with reports := w.reports.eraseIdx i } w := ⟨rfl, rfl⟩
          exact htaken.trans
            (tracks_dispatch (hsame.tableOk h.table) (hsame.listed h.listed) hcrash)
  | close fd => exact absurd rfl (hclose fd)

end World

end IOManager

end Muqiu
