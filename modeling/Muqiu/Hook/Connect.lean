import Muqiu.Hook.Model

/-!
# Hooked connect

`connect_with_timeout` starts the connection, and where it is in progress waits for the socket to
become writable.  It reads `SO_ERROR` after any wake-up that is no timeout, and also where
`addEvent` has failed; but `SO_ERROR` is 0 as long as the connection is in progress.
-/

namespace Muqiu

namespace Hook

namespace Errno

/-- `connect` goes on in the background. -/
def EINPROGRESS : Errno := errno 115

/-- The value of `SO_ERROR` as `errno`. -/
def ofCode : Nat → Errno
  | 4 => EINTR
  | 9 => EBADF
  | 11 => EAGAIN
  | 110 => ETIMEDOUT
  | code => errno code

end Errno

open Errno

/-- What swaps in the fiber that waits.  Only a connection with a timeout has a timer. -/
inductive WakeUp (timeout_ms : UInt64) where
  | writable
  | timer (armed : timeout_ms ≠ noTimeout)
  | cancellation
deriving DecidableEq, Repr

/-- What the calls of `connect_with_timeout` come to. -/
structure Connection (timeout_ms : UInt64) where
  /-- `errno`, when it fails -/
  connect_f : Option Errno
  addEvent : Bool
  wakeUp : WakeUp timeout_ms
  /-- The callback of the timer runs after another wake-up, and before the fiber goes on. -/
  late : Bool
  /-- The value of `SO_ERROR`, or `errno` -/
  getsockopt : Except Errno Nat

namespace Connection

variable {timeout_ms : UInt64}

/-- `tinfo->cancelled` behind `swapOut`. -/
def cancelled (c : Connection timeout_ms) : Option Errno :=
  match c.wakeUp with
  | .timer _ => some ETIMEDOUT
  | _ => if timeout_ms ≠ noTimeout ∧ c.late = true then some ETIMEDOUT else none

/-- From the call of `getsockopt` on. -/
def checkError (c : Connection timeout_ms) : Outcome :=
  match c.getsockopt with
  | .error e => .fail e
  | .ok error => if error = 0 then .ok 0 else .fail (ofCode error)

/-- From the test for `EINPROGRESS` on. -/
def await (c : Connection timeout_ms) : Outcome :=
  match c.connect_f with
  | none => .ok 0
  | some e =>
      if e ≠ EINPROGRESS then .fail e
      else if c.addEvent then
        match c.cancelled with
        | some e => .fail e
        | none => c.checkError
      else c.checkError

/-- `connect_f` as it is. -/
def direct (c : Connection timeout_ms) : Outcome :=
  match c.connect_f with
  | none => .ok 0
  | some e => .fail e

/-- `connect_with_timeout` -/
def connect_with_timeout (t_hook_enable : Bool) (m : FdManager) (fd : Int)
    (c : Connection timeout_ms) : Option Outcome :=
  if !t_hook_enable then some c.direct
  else
    match m.lookup fd false with
    | .found none => some (.fail .EBADF)
    | .found (some p) =>
        (m.heap[p]?).map fun ctx =>
          if ctx.m_isClosed then .fail .EBADF
          else if !ctx.m_isSocket then c.direct
          else if ctx.m_userNonblock then c.direct
          else c.await
    | _ => none

/-! ## What the result says -/

/-- The connection is in progress when `connect_f` returns. -/
def InProgress (c : Connection timeout_ms) : Prop := c.connect_f = some EINPROGRESS

/-- The connection stands: at once, or when the descriptor is writable and has no error. -/
def Established (c : Connection timeout_ms) : Prop :=
  c.connect_f = none ∨
    c.InProgress ∧ c.addEvent = true ∧ c.wakeUp = .writable ∧ c.getsockopt = .ok 0

/-- The failures a call can report. -/
inductive Failure (c : Connection timeout_ms) : Errno → Prop where
  | refused {e : Errno} : c.connect_f = some e → e ≠ EINPROGRESS → Failure c e
  | timedOut {e : Errno} : c.cancelled = some e → Failure c e
  | unknown {e : Errno} : c.getsockopt = .error e → Failure c e
  | failed {error : Nat} : c.getsockopt = .ok error → error ≠ 0 → Failure c (ofCode error)

/-- A result tells that a connection is established only where it is, and else tells what has
failed. -/
structure Truthful (c : Connection timeout_ms) (outcome : Outcome) : Prop where
  success : outcome = .ok 0 → c.Established
  failure : ¬ c.Established → ∃ e, outcome = .fail e ∧ c.Failure e

/-- The connection is in progress without an error when `SO_ERROR` is read. -/
def ReadEarly (c : Connection timeout_ms) : Prop :=
  c.InProgress ∧ c.getsockopt = .ok 0 ∧
    (c.addEvent = false ∨ c.wakeUp = .cancellation ∧ c.cancelled = none)

theorem checkError_truthful {c : Connection timeout_ms} (h : c.getsockopt = .ok 0 → c.Established) :
    c.Truthful c.checkError := by
  rw [checkError]
  cases hget : c.getsockopt with
  | error e => exact ⟨by rintro ⟨⟩, fun _ => ⟨e, rfl, .unknown hget⟩⟩
  | ok error =>
      by_cases hzero : error = 0
      · have hest : c.Established := h (by rw [hget, hzero])
        exact ⟨fun _ => hest, fun hnot => absurd hest hnot⟩
      · simp only [if_neg hzero]
        exact ⟨by rintro ⟨⟩, fun _ => ⟨_, rfl, .failed hget hzero⟩⟩

theorem checkError_zero {c : Connection timeout_ms} (h : c.getsockopt = .ok 0) :
    c.checkError = .ok 0 := by
  rw [checkError, h]
  exact if_pos rfl

/-- A wake-up without a timeout is a writable socket or a cancellation. -/
theorem wakeUp_of_not_cancelled {c : Connection timeout_ms} (h : c.cancelled = none) :
    c.wakeUp = .writable ∨ c.wakeUp = .cancellation := by
  cases hwake : c.wakeUp with
  | writable => exact Or.inl rfl
  | cancellation => exact Or.inr rfl
  | timer armed =>
      rw [cancelled, hwake] at h
      cases h

theorem await_truthful_iff (c : Connection timeout_ms) : c.Truthful c.await ↔ ¬ c.ReadEarly := by
  cases hconn : c.connect_f with
  | none =>
      have hest : c.Established := Or.inl hconn
      refine iff_of_true ⟨fun _ => hest, fun hnot => absurd hest hnot⟩ fun hearly => ?_
      rw [ReadEarly, InProgress, hconn] at hearly
      cases hearly.1
  | some e =>
      by_cases hprog : e = EINPROGRESS
      · subst hprog
        constructor
        · rintro htrue ⟨-, hget, hcase⟩
          have hawait : c.await = .ok 0 := by
            rcases hcase with hadd | ⟨-, hnone⟩
            · simp only [await, hconn, hadd, checkError_zero hget]
              rfl
            · simp only [await, hconn, hnone, checkError_zero hget, ite_self]
              rfl
          rcases htrue.success hawait with hnone | ⟨-, hadd, hwake, -⟩
          · rw [hconn] at hnone
            cases hnone
          · rcases hcase with hnot | ⟨hcancel, -⟩
            · rw [hadd] at hnot
              cases hnot
            · rw [hwake] at hcancel
              cases hcancel
        · intro hearly
          simp only [await, hconn, ne_eq, not_true_eq_false, if_false]
          cases hadd : c.addEvent with
          | false =>
              exact checkError_truthful fun hget => absurd ⟨hconn, hget, Or.inl hadd⟩ hearly
          | true =>
              cases hcancel : c.cancelled with
              | some e => exact ⟨by rintro ⟨⟩, fun _ => ⟨e, rfl, .timedOut hcancel⟩⟩
              | none =>
                  refine checkError_truthful fun hget => ?_
                  rcases wakeUp_of_not_cancelled hcancel with hwake | hwake
                  · exact Or.inr ⟨hconn, hadd, hwake, hget⟩
                  · exact absurd ⟨hconn, hget, Or.inr ⟨hwake, hcancel⟩⟩ hearly
      · have hawait : c.await = .fail e := by simp only [await, hconn, if_pos hprog, ne_eq]
        rw [hawait]
        refine iff_of_true ⟨by rintro ⟨⟩, fun _ => ⟨e, rfl, .refused hconn hprog⟩⟩ ?_
        rintro ⟨hin, -⟩
        rw [InProgress, hconn] at hin
        exact hprog (Option.some.inj hin)

/-- The descriptor is a managed socket that is open and blocks. -/
def Blocks (m : FdManager) (fd : Int) : Prop :=
  ∃ p ctx, m.lookup fd false = .found (some p) ∧ m.heap[p]? = some ctx ∧
    ctx.m_isClosed = false ∧ ctx.m_isSocket = true ∧ ctx.m_userNonblock = false

/-- A hooked `connect` on a blocking socket tells the truth exactly when it does not read
`SO_ERROR` while the connection is still in progress. -/
theorem connect_truthful_iff {m : FdManager} {fd : Int} (h : Blocks m fd)
    (c : Connection timeout_ms) :
    (∃ outcome, c.connect_with_timeout true m fd = some outcome ∧ c.Truthful outcome) ↔
      ¬ c.ReadEarly := by
  obtain ⟨p, ctx, hlookup, hctx, hopen, hsocket, hblock⟩ := h
  have hcall : c.connect_with_timeout true m fd = some c.await := by
    simp only [connect_with_timeout, hlookup, hctx, Option.map_some, hopen, hsocket, hblock]
    rfl
  rw [hcall, ← await_truthful_iff]
  constructor
  · rintro ⟨outcome, heq, htrue⟩
    rwa [Option.some.inj heq]
  · exact fun htrue => ⟨_, rfl, htrue⟩

/-- The socket 3 has just been made. -/
def oneSocket : FdManager := ⟨[none, none, none, some 0], [FdCtx.new 3 (some true)]⟩

theorem oneSocket_blocks : Blocks oneSocket 3 :=
  ⟨0, FdCtx.new 3 (some true), by decide, rfl, rfl, rfl, rfl⟩

/-- A connection that is made while the fiber waits. -/
theorem writable_truthful :
    ∃ outcome, connect_with_timeout true oneSocket 3
        (⟨some EINPROGRESS, true, .writable, false, .ok 0⟩ : Connection 5000) = some outcome ∧
      Truthful (⟨some EINPROGRESS, true, .writable, false, .ok 0⟩ : Connection 5000) outcome :=
  (connect_truthful_iff oneSocket_blocks _).mpr fun hearly => by
    rcases hearly.2.2 with hadd | ⟨hwake, -⟩
    · cases hadd
    · cases hwake

/-- The event cannot be added, and the connection is reported as made. -/
theorem unregistered_success :
    Blocks oneSocket 3 ∧
      connect_with_timeout true oneSocket 3
        (⟨some EINPROGRESS, false, .writable, false, .ok 0⟩ : Connection 5000) = some (.ok 0) ∧
      ¬ Truthful (⟨some EINPROGRESS, false, .writable, false, .ok 0⟩ : Connection 5000)
        (.ok 0) := by
  refine ⟨oneSocket_blocks, by decide, fun htrue => ?_⟩
  rcases htrue.success rfl with hnone | ⟨-, hadd, -⟩
  · cases hnone
  · cases hadd

end Connection

end Hook

end Muqiu
