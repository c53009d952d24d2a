import Muqiu.Hook.FdManager
import Mathlib.Logic.Function.Basic

/-!
# `O_NONBLOCK`

A managed socket is in non-blocking mode for the kernel, whatever mode the user asked for; the
context keeps what the user asked for.  `fcntl` and `ioctl` go between the two views, and
`F_GETFL` shows the user's.

`kernel` has the status flags of every open descriptor.  The kernel decides which free number a
new descriptor gets and whether a call succeeds; a call of `init` that changes `O_NONBLOCK`
alone does.  `asked` is not in the source: what the latest `F_SETFL` or `FIONBIO` asked for.
-/

namespace Muqiu

namespace Hook

/-! ## Status flags -/

/-- File status flags, an `int`. -/
abbrev Flags := BitVec 32

/-- `O_NONBLOCK`, bit 11 of the flags. -/
def O_NONBLOCK : Flags := BitVec.twoPow 32 11

/-- What `F_SETFL` can change: `O_APPEND`, `O_NONBLOCK`, `O_ASYNC`, `O_DIRECT`, `O_NOATIME`. -/
def settable : Flags := 0x46C00

/-- `flags & O_NONBLOCK` as a condition -/
def nonblock (flags : Flags) : Bool := decide (flags &&& O_NONBLOCK ≠ 0)

theorem nonblock_eq (flags : Flags) : nonblock flags = flags.getLsbD 11 := by
  rw [nonblock, O_NONBLOCK, BitVec.and_twoPow]
  cases flags.getLsbD 11 with
  | true => decide
  | false => decide

theorem nonblock_or (flags : Flags) : nonblock (flags ||| O_NONBLOCK) = true := by
  rw [nonblock_eq, BitVec.getLsbD_or, O_NONBLOCK, BitVec.getLsbD_twoPow]
  simp

theorem nonblock_and_not (flags : Flags) : nonblock (flags &&& ~~~O_NONBLOCK) = false := by
  rw [nonblock_eq, BitVec.getLsbD_and, BitVec.getLsbD_not, O_NONBLOCK, BitVec.getLsbD_twoPow]
  simp

/-- The flags after `F_SETFL` with `arg`. -/
def Flags.setfl (flags arg : Flags) : Flags := flags &&& ~~~settable ||| arg &&& settable

/-- The flags after `FIONBIO`. -/
def Flags.fionbio (flags : Flags) (on : Bool) : Flags :=
  if on then flags ||| O_NONBLOCK else flags &&& ~~~O_NONBLOCK

theorem nonblock_setfl (flags arg : Flags) : nonblock (Flags.setfl flags arg) = nonblock arg := by
  have hsettable : settable.getLsbD 11 = true := by decide
  rw [nonblock_eq, nonblock_eq, Flags.setfl, BitVec.getLsbD_or, BitVec.getLsbD_and,
    BitVec.getLsbD_and, BitVec.getLsbD_not, hsettable]
  simp

theorem nonblock_fionbio (flags : Flags) (on : Bool) :
    nonblock (Flags.fionbio flags on) = on := by
  cases on with
  | true => exact nonblock_or flags
  | false => exact nonblock_and_not flags

/-! ## Descriptors -/

/-- The contexts, the flags in the kernel, and what the program has asked for last. -/
structure Descriptors where
  fds : FdManager
  kernel : Int → Option Flags
  asked : Int → Bool

namespace Descriptors

/-- Any descriptors may be open, none is managed. -/
def start (kernel : Int → Option Flags) : Descriptors := ⟨FdManager.new, kernel, fun _ => false⟩

/-- A call of the kernel that changes the flags of a descriptor. -/
def ctl (s : Descriptors) (fd : Int) (f : Flags → Flags) (ok : Bool) : Descriptors :=
  if ok then { s with kernel := Function.update s.kernel fd ((s.kernel fd).map f) } else s

/-- `fcntl_f(fd, F_SETFL, arg)` -/
def setfl_f (s : Descriptors) (fd : Int) (arg : Flags) (ok : Bool) : Descriptors :=
  s.ctl fd (Flags.setfl · arg) ok

/-- `fcntl_f(fd, F_GETFL)` -/
def getfl_f (s : Descriptors) (fd : Int) : Flags := (s.kernel fd).getD (-1)

/-- `ioctl_f(fd, FIONBIO, &value)` -/
def fionbio_f (s : Descriptors) (fd : Int) (value : Int) (ok : Bool) : Descriptors :=
  s.ctl fd (Flags.fionbio · (value ≠ 0)) ok

/-- What `FdCtx::init` does to the descriptor. -/
def init (s : Descriptors) (fd : Int) (isSocket : Bool) : Descriptors :=
  if isSocket then
    if nonblock (s.getfl_f fd) then s else s.setfl_f fd (s.getfl_f fd ||| O_NONBLOCK) true
  else s

/-- `get(fd, true)` -/
def getCreate (s : Descriptors) (fd : Int) (fstat : Option Bool) : Option Descriptors :=
  match s.fds.lookup fd true with
  | .found _ => some s
  | .create =>
      (s.fds.create fd fstat).map fun fds => { s with fds := fds }.init fd (fstat.getD false)
  | .undefined => none

/-- What the kernel's limit on descriptor numbers cannot exceed, so that the table fits an
`int`. -/
def fdLimit : Nat := 2 ^ 30

/-- The kernel gives out a free number. -/
def opened (s : Descriptors) (fd : Nat) (flags : Flags) : Option Descriptors :=
  if fd < fdLimit ∧ s.kernel fd = none then
    some { s with
      kernel := Function.update s.kernel fd (some flags)
      asked := Function.update s.asked fd false }
  else none

/-- `socket`, which has succeeded. -/
def socket (s : Descriptors) (fd : Nat) (flags : Flags) (fstat : Option Bool) :
    Option Descriptors :=
  (s.opened fd flags).bind fun s => s.getCreate fd fstat

/-- `accept`, which has succeeded. -/
def accept (s : Descriptors) (fd : Nat) (flags : Flags) (fstat : Option Bool) :
    Option Descriptors :=
  (s.opened fd flags).bind fun s => s.getCreate fd fstat

/-- `get(fd)` with the test `!ctx || ctx->isClose() || !ctx->isSocket()`, which gives
`some none`. -/
def socketCtx (s : Descriptors) (fd : Int) : Option (Option (Nat × FdCtx)) :=
  match s.fds.lookup fd false with
  | .found none => some none
  | .found (some p) =>
      (s.fds.heap[p]?).map fun ctx =>
        if ctx.m_isClosed || !ctx.m_isSocket then none else some (p, ctx)
  | _ => none

/-- `fcntl(fd, F_SETFL, arg)` -/
def setfl (s : Descriptors) (fd : Int) (arg : Flags) (ok : Bool) : Option Descriptors :=
  (s.socketCtx fd).map fun
    | none => s.setfl_f fd arg ok
    | some (p, ctx) =>
        let s := { s with fds := s.fds.update p (·.setUserNonblock (nonblock arg)) }
        s.setfl_f fd (if ctx.m_sysNonblock then arg ||| O_NONBLOCK else arg &&& ~~~O_NONBLOCK) ok

/-- `fcntl(fd, F_GETFL)` -/
def getfl (s : Descriptors) (fd : Int) : Option Flags :=
  let arg := s.getfl_f fd
  (s.socketCtx fd).map fun
    | none => arg
    | some (_, ctx) => if ctx.m_userNonblock then arg ||| O_NONBLOCK else arg &&& ~~~O_NONBLOCK

/-- `ioctl(fd, FIONBIO, &value)` -/
def ioctl (s : Descriptors) (fd : Int) (value : Int) (ok : Bool) : Option Descriptors :=
  (s.socketCtx fd).map fun
    | none => s.fionbio_f fd value ok
    | some (p, _) =>
        { s with fds := s.fds.update p (·.setUserNonblock (value ≠ 0)) }.fionbio_f fd value ok

/-- `close`, with the calls of the event registry left out. -/
def close (s : Descriptors) (fd : Int) : Option Descriptors :=
  match s.fds.lookup fd false with
  | .found none => some { s with kernel := Function.update s.kernel fd none }
  | .found (some _) =>
      (s.fds.del fd).map fun fds => { s with
        fds := fds
        kernel := Function.update s.kernel fd none }
  | _ => none

/-- The calls that make, change, ask about and close a descriptor. -/
inductive Act where
  | socket (fd : Nat) (flags : Flags) (fstat : Option Bool)
  | accept (fd : Nat) (flags : Flags) (fstat : Option Bool)
  | setfl (fd : Int) (arg : Flags) (ok : Bool)
  | getfl (fd : Int)
  | ioctl (fd : Int) (value : Int) (ok : Bool)
  | close (fd : Int)
deriving DecidableEq, Repr

/-- The program asks for a mode. -/
def request (s : Descriptors) (fd : Int) (on : Bool) : Descriptors :=
  { s with asked := Function.update s.asked fd on }

/-- One call; `none` when it is not enabled or undefined. -/
def step (s : Descriptors) : Act → Option Descriptors
  | .socket fd flags fstat => s.socket fd flags fstat
  | .accept fd flags fstat => s.accept fd flags fstat
  | .setfl fd arg ok => (s.request fd (nonblock arg)).setfl fd arg ok
  | .getfl fd => (s.getfl fd).map fun _ => s
  | .ioctl fd value ok => (s.request fd (value ≠ 0)).ioctl fd value ok
  | .close fd => s.close fd

end Descriptors

end Hook

end Muqiu
