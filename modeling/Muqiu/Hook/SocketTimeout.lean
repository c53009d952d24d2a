import Muqiu.Hook.Timeout

/-!
# The timeouts of a socket

`Socket::setRecvTimeout` and `setSendTimeout` take milliseconds.  They make a `timeval` of them,
which narrows the seconds to `int`, the hooked `setsockopt` makes milliseconds of it again and keeps
them in the context of the descriptor, and `do_io` takes them from there.  It waits without a timer
for one value only, and that is not zero.

So a timeout is kept (`Honoured`) just when it is positive and its seconds fit an `int`.  A context
keeps a timeout until it is set again (`step_slot`), and a call has the one it began with
(`Waits.step`).
-/

namespace Muqiu

open Runs

namespace Hook

/-- `timeval` -/
structure Timeval where
  tv_sec : Int64
  tv_usec : Int64
deriving DecidableEq, Repr

/-- `struct timeval tv{int(v / 1000), int(v % 1000 * 1000)}` -/
def toTimeval (v : Int64) : Timeval :=
  ⟨(v / 1000).toInt32.toInt64, (v % 1000 * 1000).toInt32.toInt64⟩

/-- `v->tv_sec * 1000 + v->tv_usec / 1000` -/
def Timeval.millis (tv : Timeval) : UInt64 := (tv.tv_sec * 1000 + tv.tv_usec / 1000).toUInt64

/-- `setsockopt` for a timeout, with hooking enabled or not; `none` is an index outside the
table. -/
def setsockopt (t_hook_enable : Bool) (m : FdManager) (sockfd : Int) (optname : TimeoutType)
    (v : Timeval) : Option FdManager :=
  if t_hook_enable then
    match m.lookup sockfd false with
    | .found none => some m
    | .found (some p) => some (m.update p (·.setTimeout optname v.millis))
    | _ => none
  else some m

/-- `Socket::getRecvTimeout` and `getSendTimeout`. -/
def getTimeout (m : FdManager) (m_sock : Int) (type : TimeoutType) : Option Int64 :=
  match m.lookup m_sock false with
  | .found none => some (-1)
  | .found (some p) => (m.heap[p]?).map fun ctx => (ctx.getTimeout type).toInt64
  | _ => none

/-- `Socket::setRecvTimeout` -/
def setRecvTimeout (hook : Bool) (m : FdManager) (m_sock : Int) (v : Int64) : Option FdManager :=
  setsockopt hook m m_sock .SO_RCVTIMEO (toTimeval v)

/-- `Socket::setSendTimeout` -/
def setSendTimeout (hook : Bool) (m : FdManager) (m_sock : Int) (v : Int64) : Option FdManager :=
  setsockopt hook m m_sock .SO_SNDTIMEO (toTimeval v)

/-- `Socket::getRecvTimeout` -/
def getRecvTimeout (m : FdManager) (m_sock : Int) : Option Int64 := getTimeout m m_sock .SO_RCVTIMEO

/-- `Socket::getSendTimeout` -/
def getSendTimeout (m : FdManager) (m_sock : Int) : Option Int64 := getTimeout m m_sock .SO_SNDTIMEO

/-! ## The conversion there and back -/

/-- The seconds are taken modulo `2 ^ 32`, and the milliseconds below them are kept. -/
theorem toInt_millis {v : Int64} (h : 0 ≤ v.toInt) :
    (toTimeval v).millis.toInt64.toInt =
      (v.toInt / 1000).bmod 4294967296 * 1000 + v.toInt % 1000 := by
  have hlt := v.toInt_lt
  have hthousand : (1000 : Int64).toInt = 1000 := rfl
  have hsec : (v / 1000).toInt32.toInt64.toInt = (v.toInt / 1000).bmod 4294967296 := by
    rw [Int32.toInt_toInt64, Int64.toInt_toInt32, Int64.toInt_div_of_ne_right v 1000 (by decide),
      hthousand, Int.tdiv_eq_ediv_of_nonneg h]
  have husec : (v % 1000 * 1000).toInt32.toInt64.toInt = v.toInt % 1000 * 1000 := by
    rw [Int32.toInt_toInt64, Int64.toInt_toInt32, Int64.toInt_mul, Int64.toInt_mod, hthousand,
      Int.tmod_eq_emod_of_nonneg h, Int.bmod_def, Int.bmod_def]
    omega
  have hrest : ((v % 1000 * 1000).toInt32.toInt64 / 1000).toInt = v.toInt % 1000 := by
    rw [Int64.toInt_div_of_ne_right _ 1000 (by decide), husec, hthousand,
      Int.mul_tdiv_cancel _ (by decide)]
  rw [Timeval.millis, toTimeval]
  show ((v / 1000).toInt32.toInt64 * 1000 + (v % 1000 * 1000).toInt32.toInt64 / 1000).toInt = _
  rw [Int64.toInt_add, Int64.toInt_mul, hsec, hrest, hthousand, Int.bmod_def (_ + _),
    Int.bmod_def (_ * _)]
  have hbound := Int.bmod_def (v.toInt / 1000) 4294967296
  omega

theorem millis_eq_iff {v : Int64} (h : 0 ≤ v.toInt) :
    (toTimeval v).millis.toInt64 = v ↔ v.toInt < 2147483648000 := by
  have hmillis := toInt_millis h
  rw [Int.bmod_def] at hmillis
  rw [← Int64.toInt_inj]
  omega

/-! ## A context keeps its timeouts -/

/-- What a step of the process does to the descriptor manager. -/
inductive FdsEffect (m : FdManager) : Act → FdManager → Prop where
  | same {a : Act} : FdsEffect m a m
  | create {m' : FdManager} {fd : Int} {fstat : Option Bool} :
      m.create fd fstat = some m' → FdsEffect m (.create fd fstat) m'
  | del {m' : FdManager} {i : Nat} {ok : Bool} {fd : Int} :
      m.del fd = some m' → FdsEffect m (.closeNext i ok) m'
  | setUserNonblock {p : Nat} {v : Bool} :
      FdsEffect m (.setUserNonblock p v) (m.update p (·.setUserNonblock v))
  | setTimeout {p : Nat} {type : TimeoutType} {v : UInt64} :
      FdsEffect m (.setTimeout p type v) (m.update p (·.setTimeout type v))

namespace Process

section Fds

variable {s t : Process} {fiber : Nat} {c : Call}

theorem event_fds {a : IOManager.Act} (hstep : s.event a = some t) : t.fds = s.fds := by
  obtain ⟨w, -, hcrash⟩ := Option.bind_eq_some_iff.mp hstep
  rw [Option.ite_none_left_eq_some] at hcrash
  cases Option.some.inj hcrash.2
  rfl

theorem enter_fds {fd : Int} {ev : IOManager.Event} (hstep : s.enter fiber fd ev = some t) :
    t.fds = s.fds := by
  rw [enter] at hstep
  split at hstep
  · cases Option.some.inj hstep
    rfl
  · obtain ⟨ctx, -, heq⟩ := Option.map_eq_some_iff.mp hstep
    rw [← heq]
    split
    · rfl
    · split
      · rfl
      · rfl
  · cases hstep

theorem invoke_fds (outcome : Outcome) : (s.invoke fiber c outcome).fds = s.fds := by
  unfold invoke
  split
  · rfl
  · split
    · rfl
    · rfl
    · rfl

theorem await_fds {ok : Bool} (hstep : s.await fiber c ok = some t) : t.fds = s.fds := by
  obtain ⟨u, hu, heq⟩ := Option.map_eq_some_iff.mp hstep
  have hfds := event_fds hu
  rw [← heq]
  split
  · exact hfds
  · exact (cancelTimer_frame u fiber c).2.trans hfds

theorem resume_fds : (s.resume fiber c).fds = s.fds := by
  have hfds := (cancelTimer_frame { s with scheduled := s.scheduled.erase fiber } fiber c).2
  rw [resume]
  split
  · exact hfds
  · exact hfds

theorem callback_fds (timer : ConditionTimer) : (s.callback timer).fds = s.fds := by
  rw [callback]
  split
  · rfl
  · split
    · rfl
    · rfl

theorem closeNext_fdsEffect {i : Nat} {ok : Bool} {r : Int × CloseStage}
    (hnext : s.closeNext r.1 (s.closers.eraseIdx i) ok r.2 = some t) :
    FdsEffect s.fds (.closeNext i ok) t.fds := by
  cases hr : r.2 with
  | cancelling =>
      rw [hr] at hnext
      obtain ⟨u, hu, rfl⟩ := Option.map_eq_some_iff.mp hnext
      show FdsEffect s.fds _ u.fds
      rw [event_fds hu]
      exact .same
  | deleting =>
      rw [hr] at hnext
      obtain ⟨fds, hdel, rfl⟩ := Option.map_eq_some_iff.mp hnext
      exact .del hdel
  | closing =>
      rw [hr] at hnext
      obtain ⟨u, hu, rfl⟩ := Option.map_eq_some_iff.mp hnext
      show FdsEffect s.fds _ u.fds
      rw [event_fds hu]
      exact .same

theorem step_fdsEffect {a : Act} (hstep : s.step a = some t) : FdsEffect s.fds a t.fds := by
  have hsame : t.fds = s.fds → FdsEffect s.fds a t.fds := by
    intro heq
    rw [heq]
    exact .same
  cases stepped hstep with
  | opened _ => exact .same
  | create hcreate => exact .create hcreate
  | setUserNonblock p v => exact .setUserNonblock
  | setTimeout p type v => exact .setTimeout
  | enter henter => exact hsame (enter_fds henter)
  | invoke _ _ => exact hsame (invoke_fds _)
  | arm _ =>
      refine hsame ?_
      rw [arm]
      split
      · rfl
      · rfl
  | await _ hawait => exact hsame (await_fds hawait)
  | resume _ _ => exact hsame resume_fds
  | expire _ => exact .same
  | @callback timer _ => exact hsame (callback_fds timer)
  | cancel _ hevent =>
      have hfds := event_fds hevent
      exact hsame hfds
  | event _ hevent => exact hsame (event_fds hevent)
  | close _ => exact .same
  | closeNext _ hnext => exact closeNext_fdsEffect hnext

end Fds

end Process

/-- The timeout that a context has. -/
def slot (m : FdManager) (p : Nat) (type : TimeoutType) : Option UInt64 :=
  (m.heap[p]?).map fun ctx => ctx.getTimeout type

/-- The acts that leave the descriptor manager alone. -/
def Act.quiet : Act → Prop
  | .create .. | .closeNext .. | .setUserNonblock .. | .setTimeout .. => False
  | _ => True

theorem FdsEffect.eq_of_quiet {m m' : FdManager} {a : Act} (h : FdsEffect m a m') (ha : a.quiet) :
    m' = m := by
  cases h with
  | same => rfl
  | create _ | del _ | setUserNonblock | setTimeout => exact ha.elim

/-- Only `setTimeout` for the same option of the same context changes it. -/
theorem FdsEffect.slot {m m' : FdManager} {a : Act} (h : FdsEffect m a m') {p : Nat}
    {type : TimeoutType} {x : UInt64} (hx : slot m p type = some x)
    (ha : ∀ v, a ≠ .setTimeout p type v) : slot m' p type = some x := by
  obtain ⟨ctx, hctx, rfl⟩ := Option.map_eq_some_iff.mp hx
  have hlt : p < m.heap.length := (List.getElem?_eq_some_iff.mp hctx).1
  cases h with
  | same => exact hx
  | create hcreate =>
      rw [Hook.slot, (FdManager.create_spec hcreate).1, List.getElem?_append_left hlt]
      exact hx
  | del hdel =>
      rw [Hook.slot, (FdManager.del_spec hdel).1]
      exact hx
  | @setUserNonblock q v =>
      rw [Hook.slot, FdManager.update_heap, hctx]
      split
      next => cases type <;> rfl
      next => rfl
  | @setTimeout q ty v =>
      rw [Hook.slot, FdManager.update_heap, hctx]
      split
      next hq =>
        have hne : ty ≠ type := by
          rintro rfl
          exact ha v (by rw [hq])
        cases ty <;> cases type <;> first | rfl | exact absurd rfl hne
      next => rfl

namespace Timed

/-- The timeout of a context is set. -/
def Resets (p : Nat) (type : TimeoutType) (a : TimedAct) : Prop :=
  ∃ v, a = .process (.setTimeout p type v)

/-- A step is one of the process alone, or it leaves the descriptor manager as it is and begins a
call or carries the calls on. -/
theorem step_process {s t : Timed} {a : TimedAct} (hstep : s.step a = some t) :
    (∃ b, a = .process b ∧ untimed b = true ∧ s.p.step b = some t.p) ∨
      t.p.fds = s.p.fds ∧ ((∃ other, s.p.Begins other t.p) ∨ s.p.Carries t.p ∨
        t.p.calls = s.p.calls ∧ t.p.nextInfo = s.p.nextInfo) := by
  have hquiet : ∀ {b : Act} {p : Process}, s.p.step b = some p → b.quiet → p.fds = s.p.fds :=
    fun hb hquiet => (Process.step_fdsEffect hb).eq_of_quiet hquiet
  have hcarried : ∀ {b : Act} {p : Process}, s.p.step b = some p → Process.carrying b = true →
      t.p = p → p.fds = s.p.fds → t.p.fds = s.p.fds ∧ ((∃ other, s.p.Begins other t.p) ∨
        s.p.Carries t.p ∨ t.p.calls = s.p.calls ∧ t.p.nextInfo = s.p.nextInfo) := by
    intro b p hb hcarrying heq hfds
    rw [heq]
    exact ⟨hfds, .inr (.inl (Process.step_carries hcarrying hb))⟩
  cases a with
  | tick now =>
      rw [step, Option.ite_none_right_eq_some] at hstep
      cases Option.some.inj hstep.2
      exact .inr ⟨rfl, .inr (.inr ⟨rfl, rfl⟩)⟩
  | enter fiber fd event =>
      obtain ⟨p, hp, rfl⟩ := Option.map_eq_some_iff.mp hstep
      have hfds := hquiet hp trivial
      rw [Process.step, Option.ite_none_left_eq_some] at hp
      have hbegins := Process.enter_begins hp.2
      rw [record]
      split
      · exact .inr ⟨hfds, .inl ⟨fiber, hbegins⟩⟩
      · exact .inr ⟨hfds, .inl ⟨fiber, hbegins⟩⟩
  | construct fiber =>
      obtain ⟨c, -, rfl⟩ := Option.map_eq_some_iff.mp hstep
      exact .inr ⟨rfl, .inr (.inr ⟨rfl, rfl⟩)⟩
  | arm fiber a =>
      obtain ⟨c, -, hbind⟩ := Option.bind_eq_some_iff.mp hstep
      obtain ⟨p, hp, harm⟩ := Option.bind_eq_some_iff.mp hbind
      refine .inr (hcarried hp rfl ?_ (hquiet hp trivial))
      rw [arm] at harm
      split at harm
      · cases Option.some.inj harm
        rfl
      · obtain ⟨now, -, hmap⟩ := Option.bind_eq_some_iff.mp harm
        obtain ⟨m, -, rfl⟩ := Option.map_eq_some_iff.mp hmap
        rfl
  | await fiber ok =>
      obtain ⟨p, hp, hrest⟩ := Option.bind_eq_some_iff.mp hstep
      refine .inr (hcarried hp rfl ?_ (hquiet hp trivial))
      split at hrest
      · cases Option.some.inj hrest
        rfl
      · obtain ⟨m, -, rfl⟩ := Option.map_eq_some_iff.mp hrest
        rfl
  | resume fiber =>
      obtain ⟨p, hp, hrest⟩ := Option.bind_eq_some_iff.mp hstep
      obtain ⟨m, -, rfl⟩ := Option.map_eq_some_iff.mp hrest
      exact .inr (hcarried hp rfl rfl (hquiet hp trivial))
  | check =>
      cases Option.some.inj hstep
      exact .inr ⟨rfl, .inr (.inr ⟨rfl, rfl⟩)⟩
  | sweep i tmp =>
      obtain ⟨now, -, hmap⟩ := Option.bind_eq_some_iff.mp hstep
      obtain ⟨m, -, rfl⟩ := Option.map_eq_some_iff.mp hmap
      exact .inr ⟨rfl, .inr (.inr ⟨rfl, rfl⟩)⟩
  | timers a =>
      rw [step, Option.ite_none_right_eq_some] at hstep
      obtain ⟨m, -, rfl⟩ := Option.map_eq_some_iff.mp hstep.2
      exact .inr ⟨rfl, .inr (.inr ⟨rfl, rfl⟩)⟩
  | process b =>
      rw [step, Option.ite_none_right_eq_some] at hstep
      obtain ⟨p, hp, rfl⟩ := Option.map_eq_some_iff.mp hstep.2
      exact .inl ⟨b, rfl, hstep.1, hp⟩

theorem step_slot {s t : Timed} {a : TimedAct} {p : Nat} {type : TimeoutType} {x : UInt64}
    (hx : slot s.p.fds p type = some x) (ha : ¬Resets p type a) (hstep : s.step a = some t) :
    slot t.p.fds p type = some x := by
  cases step_process hstep with
  | inl h =>
      obtain ⟨b, rfl, -, hb⟩ := h
      exact (Process.step_fdsEffect hb).slot hx fun v hset => ha ⟨v, by rw [hset]⟩
  | inr h =>
      rw [h.1]
      exact hx

theorem exec_slot {s t : Timed} {as : List TimedAct} {p : Nat} {type : TimeoutType} {x : UInt64}
    (hx : slot s.p.fds p type = some x) (has : ∀ a ∈ as, ¬Resets p type a)
    (hexec : exec step s as = some t) : slot t.p.fds p type = some x := by
  have hkeep : ∀ (s : Timed) a t, slot s.p.fds p type = some x → ¬Resets p type a →
      step s a = some t → slot t.p.fds p type = some x := fun _ _ _ => step_slot
  exact (throughout_of_along hkeep hx (along_of_forall has)).final hexec

/-! ## A call keeps its timeout -/

/-- The call of the fiber with this `timer_info` has the timeout `ms`. -/
structure Waits (fiber k : Nat) (ms : UInt64) (s : Timed) : Prop where
  known : k < s.p.nextInfo
  timeout : ∀ c, s.p.calls fiber = some c → c.tinfo = k → c.timeout = ms

section Waits

variable {fiber k : Nat} {ms : UInt64} {s t : Timed}

theorem Waits.carries (h : Waits fiber k ms s) (hp : s.p.Carries t.p) : Waits fiber k ms t where
  known := by
    rw [hp.nextInfo]
    exact h.known
  timeout := by
    intro c' hc' htinfo
    obtain ⟨c, hc, hgoes⟩ := hp.calls fiber c' hc'
    rw [hgoes.timeout]
    exact h.timeout c hc (hgoes.tinfo.symm.trans htinfo)

theorem Waits.begins (h : Waits fiber k ms s) {other : Nat} (hp : s.p.Begins other t.p) :
    Waits fiber k ms t := by
  have hknown := h.known
  by_cases hother : fiber = other
  · subst hother
    rcases hp.call with ⟨hnone, hnext⟩ | ⟨c, hc, htinfo, -, hnext⟩
    · refine ⟨by omega, fun d hd => ?_⟩
      cases hnone.symm.trans hd
    · refine ⟨by omega, fun d hd hk => ?_⟩
      cases Option.some.inj (hc.symm.trans hd)
      omega
  · have hge : s.p.nextInfo ≤ t.p.nextInfo := by
      rcases hp.call with ⟨-, hnext⟩ | ⟨c, -, -, -, hnext⟩
      · omega
      · omega
    refine ⟨by omega, fun d hd => ?_⟩
    rw [hp.others fiber hother] at hd
    exact h.timeout d hd

theorem Waits.step (h : Waits fiber k ms s) {a : TimedAct} (hstep : s.step a = some t) :
    Waits fiber k ms t := by
  rcases step_process hstep with ⟨b, -, huntimed, hb⟩ | ⟨-, ⟨other, hp⟩ | hp | ⟨hcalls, hnext⟩⟩
  · exact h.carries (Process.step_carries (Process.carrying_of_untimed huntimed) hb)
  · exact h.begins hp
  · exact h.carries hp
  · exact ⟨by rw [hnext]; exact h.known, by rw [hcalls]; exact h.timeout⟩

theorem Waits.exec (h : Waits fiber k ms s) {as : List TimedAct}
    (hexec : Runs.exec Timed.step s as = some t) : Waits fiber k ms t :=
  (throughout_of_step (fun _ _ _ hw hstep => Waits.step hw hstep) h as).final hexec

end Waits

/-! ## The timeout of a socket -/

/-- `setRecvTimeout` or `setSendTimeout`, with hooking enabled. -/
def setTimeoutOf : TimeoutType → FdManager → Int → Int64 → Option FdManager
  | .SO_RCVTIMEO => setRecvTimeout true
  | .SO_SNDTIMEO => setSendTimeout true

/-- `getRecvTimeout` or `getSendTimeout`. -/
def getTimeoutOf : TimeoutType → FdManager → Int → Option Int64
  | .SO_RCVTIMEO => getRecvTimeout
  | .SO_SNDTIMEO => getSendTimeout

/-- The timer that a call arms waits `v` milliseconds, and for zero there is no timer. -/
def ArmsFor (v : Int64) (w x : Timed) (fiber a tinfo : Nat) : Prop :=
  if v = 0 then x.timer fiber = none
  else x.timer fiber = some a ∧ ∃ now, w.reading tinfo = some now ∧
    x.m.heap a = some ⟨false, v.toUInt64, now + v.toUInt64, some a⟩

/-- From `s` on, and until it is set again, the timeout `v` of the socket `fd` with the context `p`
is what the socket says and what `do_io` waits. -/
structure Honoured (v : Int64) (fd : Int) (p : Nat) (type : TimeoutType) (s : Timed) : Prop where
  reads : ∀ as t, exec step s as = some t → (∀ a ∈ as, ¬Resets p type a) →
    t.p.fds.lookup fd false = .found (some p) → getTimeoutOf type t.p.fds fd = some v
  /-- The call `c` begins, and goes on to be `c'`. -/
  waits : ∀ as t, exec step s as = some t → (∀ a ∈ as, ¬Resets p type a) →
    t.p.fds.lookup fd false = .found (some p) →
    ∀ fiber ev, timeoutType ev = type → ∀ u, t.step (.enter fiber fd ev) = some u →
    ∀ c, u.p.calls fiber = some c → c.stage = .retry →
    ∀ bs w, exec step u bs = some w → ∀ c', w.p.calls fiber = some c' → c'.tinfo = c.tinfo →
      (v = 0 → c'.cancelled = false) ∧
      ∀ a x, w.step (.arm fiber a) = some x → ArmsFor v w x fiber a c.tinfo

/-- Setting the timeout of a managed socket works, whatever has happened before. -/
def Faithful (v : Int64) : Prop :=
  ∀ now s, Reachable step (start now) s → ∀ fd p, s.p.fds.lookup fd false = .found (some p) →
    (∃ ctx, s.p.fds.heap[p]? = some ctx) → ∀ type,
    ∃ fds, setTimeoutOf type s.p.fds fd v = some fds ∧
      Honoured v fd p type { s with p := { s.p with fds := fds } }

theorem setTimeoutOf_eq (type : TimeoutType) {m : FdManager} {fd : Int} {p : Nat}
    (h : m.lookup fd false = .found (some p)) (v : Int64) :
    setTimeoutOf type m fd v = some (m.update p (·.setTimeout type (toTimeval v).millis)) := by
  cases type with
  | SO_RCVTIMEO => rw [setTimeoutOf, setRecvTimeout, setsockopt, if_pos rfl, h]
  | SO_SNDTIMEO => rw [setTimeoutOf, setSendTimeout, setsockopt, if_pos rfl, h]

theorem getTimeoutOf_eq (type : TimeoutType) {m : FdManager} {fd : Int} {p : Nat}
    (h : m.lookup fd false = .found (some p)) :
    getTimeoutOf type m fd = (slot m p type).map fun x => x.toInt64 := by
  cases type with
  | SO_RCVTIMEO =>
      rw [getTimeoutOf, getRecvTimeout, getTimeout, h, slot, Option.map_map]
      rfl
  | SO_SNDTIMEO =>
      rw [getTimeoutOf, getSendTimeout, getTimeout, h, slot, Option.map_map]
      rfl

theorem slot_setTimeout {m : FdManager} {p : Nat} {ctx : FdCtx} (h : m.heap[p]? = some ctx)
    (type : TimeoutType) (x : UInt64) :
    slot (m.update p (·.setTimeout type x)) p type = some x := by
  rw [slot, FdManager.update_heap, if_pos rfl, h]
  cases type with
  | SO_RCVTIMEO => rfl
  | SO_SNDTIMEO => rfl

/-- A call that goes through `do_io` has the timeout of its context. -/
theorem enter_timeout {s q : Process} {fd : Int} {p fiber : Nat} {ev : IOManager.Event}
    {x : UInt64} {c : Call} (hlookup : s.fds.lookup fd false = .found (some p))
    (hx : slot s.fds p (timeoutType ev) = some x) (hstep : s.enter fiber fd ev = some q)
    (hc : q.calls fiber = some c) (hstage : c.stage = .retry) :
    c.tinfo < q.nextInfo ∧ c.timeout = x := by
  obtain ⟨ctx, hctx, rfl⟩ := Option.map_eq_some_iff.mp hx
  have hself : ∀ d : Option Call, Function.update s.calls fiber d fiber = d :=
    fun d => Function.update_self fiber d s.calls
  rw [Process.enter, hlookup] at hstep
  simp only [hctx, Option.map_some] at hstep
  split at hstep
  next =>
    cases hstep
    cases (hself none).symm.trans hc
  next =>
    split at hstep
    next =>
      cases hstep
      cases (hself _).symm.trans hc
      cases hstage
    next =>
      cases hstep
      cases (hself _).symm.trans hc
      exact ⟨Nat.lt_succ_self _, rfl⟩

theorem enter_waits {t u : Timed} {fd : Int} {p fiber : Nat} {ev : IOManager.Event} {x : UInt64}
    {c : Call} (hlookup : t.p.fds.lookup fd false = .found (some p))
    (hx : slot t.p.fds p (timeoutType ev) = some x)
    (hstep : t.step (.enter fiber fd ev) = some u) (hc : u.p.calls fiber = some c)
    (hstage : c.stage = .retry) : Waits fiber c.tinfo x u := by
  obtain ⟨q, hq, rfl⟩ := Option.map_eq_some_iff.mp hstep
  rw [Process.step, Option.ite_none_left_eq_some] at hq
  have hrecord : (t.record fiber q).p = q := by
    rw [record]
    split
    · rfl
    · rfl
  rw [hrecord] at hc
  obtain ⟨hlt, htimeout⟩ := enter_timeout hlookup hx hq.2 hc hstage
  refine ⟨by rw [hrecord]; exact hlt, fun d hd _ => ?_⟩
  rw [hrecord] at hd
  cases hc.symm.trans hd
  exact htimeout

/-- A call with a timeout arms a timer for it. -/
theorem arm_timer {w x : Timed} {fiber a : Nat} {c : Call} (hc : w.p.calls fiber = some c)
    (hne : c.timeout ≠ noTimeout) (hstep : w.step (.arm fiber a) = some x) :
    x.timer fiber = some a ∧ ∃ now, w.reading c.tinfo = some now ∧
      x.m.heap a = some ⟨false, c.timeout, now + c.timeout, some a⟩ := by
  obtain ⟨d, hd, hbind⟩ := Option.bind_eq_some_iff.mp hstep
  obtain ⟨p, -, harm⟩ := Option.bind_eq_some_iff.mp hbind
  cases Option.some.inj (hc.symm.trans (Option.filter_eq_some_iff.mp hd).1)
  rw [arm, if_neg hne] at harm
  obtain ⟨now, hnow, hmap⟩ := Option.bind_eq_some_iff.mp harm
  obtain ⟨m, hm, rfl⟩ := Option.map_eq_some_iff.mp hmap
  simp only [TimerManager.step, Option.ite_none_left_eq_some, Option.some.injEq] at hm
  obtain ⟨-, rfl⟩ := hm
  exact ⟨Function.update_self fiber (some a) w.timer, now, hnow, Function.update_self a _ w.m.heap⟩

/-- A positive timeout whose seconds fit an `int` is kept. -/
theorem honoured_of_fits {v : Int64} (hpos : 0 < v.toInt) (hfits : v.toInt < 2147483648000)
    {fd : Int} {p : Nat} {type : TimeoutType} {s : Timed}
    (hslot : slot s.p.fds p type = some (toTimeval v).millis) : Honoured v fd p type s := by
  have hmillis : (toTimeval v).millis.toInt64 = v :=
    (millis_eq_iff (Int.le_of_lt hpos)).mpr hfits
  have hne : v ≠ 0 := by
    rintro rfl
    exact absurd hpos (by decide)
  have htimeout : (toTimeval v).millis = v.toUInt64 := congrArg Int64.toUInt64 hmillis
  have hwait : v.toUInt64 ≠ noTimeout := by
    intro heq
    have hminus : v = -1 := congrArg UInt64.toInt64 heq
    rw [hminus] at hpos
    exact absurd hpos (by decide)
  constructor
  · intro as t hexec has hlookup
    rw [getTimeoutOf_eq type hlookup, exec_slot hslot has hexec]
    exact congrArg some hmillis
  · intro as t hexec has hlookup fiber ev hev u hu c hc hstage bs w hw c' hc' htinfo
    have hx := exec_slot hslot has hexec
    rw [← hev] at hx
    have hwaits := (enter_waits hlookup hx hu hc hstage).exec hw
    have hc'timeout : c'.timeout = v.toUInt64 := (hwaits.timeout c' hc' htinfo).trans htimeout
    refine ⟨fun hzero => absurd hzero hne, fun a x hx => ?_⟩
    have harm := arm_timer hc' (by rw [hc'timeout]; exact hwait) hx
    rw [hc'timeout, htinfo] at harm
    rw [ArmsFor, if_neg hne]
    exact harm

/-- A socket on descriptor 5, with its context. -/
def oneSocket : Timed :=
  { start 0 with
    p := { Process.start with
      files := Function.update Process.start.files 5 (some 0)
      nextFile := 1
      fds := ⟨FdManager.new.m_datas.set 5 (some 0), [FdCtx.new 5 (some true)]⟩ } }

theorem oneSocket_reachable : Reachable step (start 0) oneSocket :=
  ⟨[.process (.opened 5), .process (.create 5 (some true))], rfl⟩

/-- What is kept comes back, so it is what was set. -/
theorem Faithful.fits {v : Int64} (h : Faithful v) (hv : 0 ≤ v.toInt) :
    v.toInt < 2147483648000 := by
  obtain ⟨fds, hset, hhonoured⟩ :=
    h 0 oneSocket oneSocket_reachable 5 0 rfl ⟨_, rfl⟩ .SO_RCVTIMEO
  rw [setTimeoutOf_eq .SO_RCVTIMEO rfl] at hset
  cases Option.some.inj hset
  have hget := hhonoured.reads [] _ rfl (fun _ ha => absurd ha List.not_mem_nil) rfl
  have hslot := slot_setTimeout (m := oneSocket.p.fds) (p := 0) rfl .SO_RCVTIMEO
    (toTimeval v).millis
  rw [getTimeoutOf_eq .SO_RCVTIMEO rfl, hslot] at hget
  exact (millis_eq_iff hv).mp (Option.some.inj hget)

/-- A fiber reads from the socket and is timed out, in the millisecond it began. -/
def zeroTimeout : List TimedAct :=
  [.process (.invoke 1 (.fail .EAGAIN)), .construct 1, .arm 1 1, .await 1 true, .check, .sweep 0 2,
    .process (.callback ⟨1, 0, 5, .read⟩)]

/-- The socket with its receive timeout set to zero. -/
def zeroSocket : Timed :=
  { oneSocket with
    p := { oneSocket.p with
      fds := oneSocket.p.fds.update 0 (·.setTimeout .SO_RCVTIMEO (toTimeval 0).millis) } }

theorem zeroTimeout_cancelled :
    ∃ u w c c', zeroSocket.step (.enter 1 5 .read) = some u ∧ u.p.calls 1 = some c ∧
      c.stage = .retry ∧ exec step u zeroTimeout = some w ∧ w.p.calls 1 = some c' ∧
      c'.tinfo = c.tinfo ∧ c'.cancelled = true :=
  ⟨_, _, _, _, rfl, rfl, rfl, rfl, rfl, rfl, rfl⟩

theorem not_faithful_zero : ¬Faithful 0 := by
  intro h
  obtain ⟨fds, hset, hhonoured⟩ :=
    h 0 oneSocket oneSocket_reachable 5 0 rfl ⟨_, rfl⟩ .SO_RCVTIMEO
  rw [setTimeoutOf_eq .SO_RCVTIMEO rfl] at hset
  cases Option.some.inj hset
  obtain ⟨u, w, c, c', hu, hc, hstage, hw, hc', htinfo, hcancelled⟩ := zeroTimeout_cancelled
  have hwaits := hhonoured.waits [] zeroSocket rfl (fun _ ha => absurd ha List.not_mem_nil) rfl 1
    .read rfl u hu c hc hstage zeroTimeout w hw c' hc' htinfo
  cases (hwaits.1 rfl).symm.trans hcancelled

/-- A socket keeps its timeout just when that is positive and its seconds fit an `int`. -/
theorem timeout_faithful_iff {v : Int64} (h : 0 ≤ v.toInt) :
    Faithful v ↔ 0 < v.toInt ∧ v.toInt < 2147483648000 := by
  constructor
  · intro hfaithful
    refine ⟨?_, hfaithful.fits h⟩
    refine Int.not_le.mp fun hle => ?_
    have hv : v = 0 := Int64.toInt_inj.mp (Int.le_antisymm hle h)
    rw [hv] at hfaithful
    exact not_faithful_zero hfaithful
  · rintro ⟨hpos, hfits⟩ now s - fd p hlookup ⟨ctx, hctx⟩ type
    exact ⟨_, setTimeoutOf_eq type hlookup v,
      honoured_of_fits hpos hfits (slot_setTimeout hctx type (toTimeval v).millis)⟩

theorem timeout_faithful_five_seconds : Faithful 5000 :=
  (timeout_faithful_iff (by decide)).mpr (by decide)

/-- Zero times out at once, and the seconds of the least timeout too large are negative. -/
theorem timeouts_not_faithful : ¬Faithful 0 ∧ ¬Faithful 2147483648000 := by
  refine ⟨not_faithful_zero, fun h => ?_⟩
  exact absurd (h.fits (by decide)) (by decide)

end Timed

end Hook

end Muqiu
