import Muqiu.Hook.Nonblock

/-!
# The two views of `O_NONBLOCK`

`fcntl` sets the kernel's flag of a managed socket whatever it is asked for; `ioctl` passes its
request on.  So the kernel's flag stays set exactly as long as no `FIONBIO` with 0 succeeds on
a managed socket.  The user's view is right in every state.

`Moves` lists what a call comes to.  A new descriptor (`Gives`) has no entry, because every
entry belongs to an open one (`Sound`).
-/

namespace Muqiu

open Runs

namespace Hook

namespace Descriptors

/-! ## The table behind `get` -/

/-- The descriptor has a context that says it is a socket. -/
def SocketAt (m : FdManager) (i p : Nat) (ctx : FdCtx) : Prop :=
  m.m_datas[i]? = some (some p) ∧ m.heap[p]? = some ctx ∧ ctx.m_isSocket = true

/-- Every entry has a context of its own, which says what the user asked for, and its
descriptor is open. -/
structure Sound (s : Descriptors) : Prop where
  fits : s.fds.Fits
  distinct : ∀ i j p : Nat, s.fds.m_datas[i]? = some (some p) →
    s.fds.m_datas[j]? = some (some p) → i = j
  context : ∀ i p : Nat, s.fds.m_datas[i]? = some (some p) → ∃ ctx, s.fds.heap[p]? = some ctx
  isClosed : s.fds.NoneClosed
  sysNonblock : ∀ i p ctx, SocketAt s.fds i p ctx → ctx.m_sysNonblock = true
  userNonblock : ∀ i p ctx, SocketAt s.fds i p ctx → ctx.m_userNonblock = s.asked i
  isOpen : ∀ i p : Nat, s.fds.m_datas[i]? = some (some p) → s.kernel i ≠ none

theorem start_sound (kernel : Int → Option Flags) : (start kernel).Sound := by
  have hnull : ∀ i p : Nat, (start kernel).fds.m_datas[i]? ≠ some (some p) := by
    intro i p hentry
    have hmem := List.eq_of_mem_replicate (List.mem_of_getElem? hentry)
    cases hmem
  exact ⟨FdManager.new_fits, fun i _ p hi _ => absurd hi (hnull i p),
    fun i p hi => absurd hi (hnull i p), FdManager.new_noneClosed,
    fun i p _ hi => absurd hi.1 (hnull i p), fun i p _ hi => absurd hi.1 (hnull i p),
    fun i p hi => absurd hi (hnull i p)⟩

theorem Sound.socketCtx_iff {s : Descriptors} (h : s.Sound) {fd : Int} {p : Nat} {ctx : FdCtx} :
    s.socketCtx fd = some (some (p, ctx)) ↔ ∃ i : Nat, fd = i ∧ SocketAt s.fds i p ctx := by
  constructor
  · intro hctx
    rw [socketCtx] at hctx
    split at hctx
    · cases hctx
    next q hlookup =>
      obtain ⟨i, hi, hentry⟩ := FdManager.lookup_found hlookup
      obtain ⟨c, hc, heq⟩ := Option.map_eq_some_iff.mp hctx
      split at heq
      · cases heq
      next htest =>
        cases Option.some.inj heq
        rw [Bool.or_eq_true, Bool.not_eq_true', not_or, Bool.not_eq_false] at htest
        exact ⟨i, hi, hentry, hc, htest.2⟩
    · cases hctx
  · rintro ⟨i, rfl, hentry, hc, hsocket⟩
    have hclosed := h.isClosed ctx (List.mem_of_getElem? hc)
    rw [socketCtx, h.fits.lookup, hentry]
    simp [hc, hsocket, hclosed]

/-- A descriptor that is not managed as a socket. -/
theorem Sound.not_socketAt {s : Descriptors} (h : s.Sound) {i p : Nat} {ctx : FdCtx}
    (hnone : s.socketCtx i = some none) : ¬SocketAt s.fds i p ctx := by
  intro hat
  rw [h.socketCtx_iff.mpr ⟨i, rfl, hat⟩] at hnone
  cases hnone

/-! ## The two views -/

/-- The kernel has the flag set, and `F_GETFL` shows what was asked for. -/
structure Agrees (s : Descriptors) (fd : Int) : Prop where
  sys : ∃ flags, s.kernel fd = some flags ∧ nonblock flags = true
  user : ∀ r, s.getfl fd = some r → nonblock r = s.asked fd

/-- Every managed socket. -/
def Coherent (s : Descriptors) : Prop :=
  ∀ fd c, s.socketCtx fd = some (some c) → s.Agrees fd

/-- No `FIONBIO` that succeeds clears the flag of a managed socket. -/
def Keeps (s : Descriptors) (a : Act) (_ : Descriptors) : Prop :=
  match a with
  | .ioctl fd value ok => value = 0 → ok = true → ∀ c, s.socketCtx fd ≠ some (some c)
  | _ => True

/-- The kernel's half, in terms of the table. -/
def SysNonblock (s : Descriptors) : Prop :=
  ∀ i p ctx, SocketAt s.fds i p ctx → ∃ flags, s.kernel i = some flags ∧ nonblock flags = true

/-- `F_GETFL` shows the user's view. -/
theorem Sound.getfl {s : Descriptors} (h : s.Sound) {fd : Int} {c : Nat × FdCtx} {r : Flags}
    (hctx : s.socketCtx fd = some (some c)) (hr : s.getfl fd = some r) :
    nonblock r = s.asked fd := by
  obtain ⟨p, ctx⟩ := c
  obtain ⟨i, rfl, hat⟩ := h.socketCtx_iff.mp hctx
  have heq : s.getfl i = some (if ctx.m_userNonblock then s.getfl_f i ||| O_NONBLOCK
      else s.getfl_f i &&& ~~~O_NONBLOCK) := by
    rw [Descriptors.getfl, hctx]
    rfl
  rw [Option.some.inj (hr.symm.trans heq), ← h.userNonblock i p ctx hat]
  cases ctx.m_userNonblock with
  | true => exact nonblock_or _
  | false => exact nonblock_and_not _

theorem Sound.coherent_iff_sys {s : Descriptors} (h : s.Sound) : s.Coherent ↔ s.SysNonblock := by
  constructor
  · intro hcoherent i p ctx hat
    exact (hcoherent i (p, ctx) (h.socketCtx_iff.mpr ⟨i, rfl, hat⟩)).sys
  · rintro hsys fd ⟨p, ctx⟩ hctx
    obtain ⟨i, rfl, hat⟩ := h.socketCtx_iff.mp hctx
    exact ⟨hsys i p ctx hat, fun r hr => h.getfl hctx hr⟩

/-! ## One call -/

theorem ctl_kernel (s : Descriptors) (fd : Int) (f : Flags → Flags) (ok : Bool) (i : Int) :
    (s.ctl fd f ok).kernel i = if i = fd ∧ ok = true then (s.kernel i).map f else s.kernel i := by
  rw [ctl]
  cases ok with
  | false => simp
  | true =>
      by_cases hi : i = fd
      · rw [hi]
        simp
      · simp [hi]

theorem ctl_fds (s : Descriptors) (fd : Int) (f : Flags → Flags) (ok : Bool) :
    (s.ctl fd f ok).fds = s.fds ∧ (s.ctl fd f ok).asked = s.asked := by
  rw [ctl]
  split
  · exact ⟨rfl, rfl⟩
  · exact ⟨rfl, rfl⟩

theorem Sound.ctl {s : Descriptors} (h : s.Sound) (fd : Int) (f : Flags → Flags) (ok : Bool) :
    (s.ctl fd f ok).Sound := by
  obtain ⟨hfds, hasked⟩ := ctl_fds s fd f ok
  refine ⟨?_, ?_, ?_, ?_, ?_, ?_, ?_⟩
  · rw [hfds]
    exact h.fits
  · rw [hfds]
    exact h.distinct
  · rw [hfds]
    exact h.context
  · rw [hfds]
    exact h.isClosed
  · rw [hfds]
    exact h.sysNonblock
  · rw [hfds, hasked]
    exact h.userNonblock
  · intro i p hentry
    rw [hfds] at hentry
    rw [ctl_kernel]
    split
    · rw [ne_eq, Option.map_eq_none_iff]
      exact h.isOpen i p hentry
    · exact h.isOpen i p hentry

/-- A kernel call on one descriptor: what counts is the flag it leaves there. -/
theorem SysNonblock.ctl_iff {s : Descriptors} (h : s.SysNonblock) (fd : Int) {f : Flags → Flags}
    {on : Bool} (hf : ∀ flags, nonblock (f flags) = on) (ok : Bool) :
    (s.ctl fd f ok).SysNonblock ↔
      (on = false → ok = true → ∀ (i p : Nat) ctx, fd = i → ¬SocketAt s.fds i p ctx) := by
  obtain ⟨hfds, _⟩ := ctl_fds s fd f ok
  rw [SysNonblock, hfds]
  constructor
  · rintro hsys hoff rfl i p ctx rfl hat
    obtain ⟨flags, hflags, hset⟩ := hsys i p ctx hat
    rw [ctl_kernel, if_pos ⟨rfl, rfl⟩] at hflags
    obtain ⟨old, _, heq⟩ := Option.map_eq_some_iff.mp hflags
    rw [← heq, hf, hoff] at hset
    cases hset
  · intro hclear i p ctx hat
    obtain ⟨flags, hflags, hset⟩ := h i p ctx hat
    rw [ctl_kernel]
    split
    next htouched =>
      refine ⟨f flags, by rw [hflags]; rfl, ?_⟩
      rw [hf]
      cases on with
      | true => rfl
      | false => exact absurd hat (hclear rfl htouched.2 i p ctx htouched.1.symm)
    next => exact ⟨flags, hflags, hset⟩

/-- What the user asks of a descriptor that is not managed is not kept. -/
theorem Sound.request {s : Descriptors} (h : s.Sound) {fd : Int} (on : Bool)
    (hnone : s.socketCtx fd = some none) : (s.request fd on).Sound := by
  refine ⟨h.fits, h.distinct, h.context, h.isClosed, h.sysNonblock, ?_, h.isOpen⟩
  intro i p ctx hat
  have hne : (i : Int) ≠ fd := by
    rintro rfl
    exact h.not_socketAt hnone hat
  exact (h.userNonblock i p ctx hat).trans (Function.update_of_ne hne _ _).symm

theorem socketAt_update {m : FdManager} {on : Bool} {i p q : Nat} {ctx : FdCtx}
    (h : SocketAt (m.update p (·.setUserNonblock on)) i q ctx) :
    ∃ old, SocketAt m i q old ∧ ctx = if p = q then old.setUserNonblock on else old := by
  obtain ⟨hentry, hctx, hsocket⟩ := h
  rw [FdManager.update_heap] at hctx
  split at hctx
  next hpq =>
    obtain ⟨old, hold, heq⟩ := Option.map_eq_some_iff.mp hctx
    rw [← heq] at hsocket
    exact ⟨old, ⟨hentry, hold, hsocket⟩, by rw [if_pos hpq, heq]⟩
  next hpq => exact ⟨ctx, ⟨hentry, hctx, hsocket⟩, by rw [if_neg hpq]⟩

/-- The context of a managed socket keeps what the user asks for. -/
theorem Sound.ask {s : Descriptors} (h : s.Sound) {i p : Nat} {ctx : FdCtx}
    (hat : SocketAt s.fds i p ctx) (on : Bool) :
    ({ s.request i on with fds := s.fds.update p (·.setUserNonblock on) }).Sound := by
  refine ⟨h.fits, h.distinct, ?_, h.isClosed.update p fun _ => rfl, ?_, ?_, h.isOpen⟩
  · intro j q hentry
    obtain ⟨old, hold⟩ := h.context j q hentry
    rw [FdManager.update_heap, hold]
    split
    · exact ⟨_, rfl⟩
    · exact ⟨_, rfl⟩
  · intro j q c hc
    obtain ⟨old, hold, heq⟩ := socketAt_update hc
    rw [heq]
    split
    · exact h.sysNonblock j q old hold
    · exact h.sysNonblock j q old hold
  · intro j q c hc
    obtain ⟨old, hold, heq⟩ := socketAt_update hc
    rw [heq]
    split
    next hpq =>
      rw [h.distinct j i p (hpq ▸ hold.1) hat.1]
      exact (Function.update_self (i : Int) on s.asked).symm
    next hpq =>
      have hne : (j : Int) ≠ i := by
        intro hji
        rw [Int.natCast_inj.mp hji] at hold
        exact hpq (Option.some.inj (Option.some.inj (hat.1.symm.trans hold.1)))
      exact (h.userNonblock j q old hold).trans (Function.update_of_ne hne _ _).symm

theorem SysNonblock.ask {s : Descriptors} (h : s.SysNonblock) (p : Nat) (on : Bool) (fd : Int) :
    ({ s.request fd on with fds := s.fds.update p (·.setUserNonblock on) }).SysNonblock := by
  intro j q c hc
  obtain ⟨old, hold, _⟩ := socketAt_update hc
  exact h j q old hold

/-! ## A new descriptor -/

/-- `init` leaves the flag set on a socket and touches nothing else. -/
theorem init_spec (s : Descriptors) (fd : Int) (isSocket : Bool) :
    (s.init fd isSocket).fds = s.fds ∧ (s.init fd isSocket).asked = s.asked ∧
      (∀ i, i ≠ fd → (s.init fd isSocket).kernel i = s.kernel i) ∧
      ∀ flags, s.kernel fd = some flags → ∃ flags', (s.init fd isSocket).kernel fd = some flags' ∧
        (isSocket = true → nonblock flags' = true) := by
  rw [init]
  split
  next hsocket =>
    split
    next hset =>
      refine ⟨rfl, rfl, fun _ _ => rfl, fun flags hflags => ⟨flags, hflags, fun _ => ?_⟩⟩
      rw [getfl_f, hflags] at hset
      exact hset
    next =>
      obtain ⟨hfds, hasked⟩ := ctl_fds s fd (Flags.setfl · (s.getfl_f fd ||| O_NONBLOCK)) true
      refine ⟨hfds, hasked, fun i hi => ?_, fun flags hflags => ?_⟩
      · exact (ctl_kernel s fd _ true i).trans (if_neg fun h => hi h.1)
      · refine ⟨flags.setfl (s.getfl_f fd ||| O_NONBLOCK), ?_, fun _ => ?_⟩
        · rw [setfl_f, ctl_kernel, if_pos ⟨rfl, rfl⟩, hflags]
          rfl
        · rw [nonblock_setfl, nonblock_or]
  next hsocket =>
    exact ⟨rfl, rfl, fun _ _ => rfl, fun flags hflags => ⟨flags, hflags, fun h => absurd h hsocket⟩⟩

/-- A new descriptor gets a new context. -/
structure Gives (s : Descriptors) (fd : Nat) (fstat : Option Bool) (t : Descriptors) : Prop where
  create : s.fds.create fd fstat = some t.fds
  small : fd < fdLimit
  unused : s.kernel fd = none
  asked : t.asked = Function.update s.asked fd false
  others : ∀ i, i ≠ (fd : Int) → t.kernel i = s.kernel i
  flags : ∃ flags, t.kernel fd = some flags ∧ (fstat = some true → nonblock flags = true)

theorem Sound.gives {s t : Descriptors} (h : s.Sound) {fd : Nat} {flags : Flags}
    {fstat : Option Bool}
    (hstep : ((s.opened fd flags).bind fun s => s.getCreate fd fstat) = some t) :
    s.Gives fd fstat t := by
  obtain ⟨u, hopened, hcreate⟩ := Option.bind_eq_some_iff.mp hstep
  rw [opened, Option.ite_none_right_eq_some] at hopened
  obtain ⟨⟨hsmall, hfree⟩, heq⟩ := hopened
  cases Option.some.inj heq
  rw [getCreate] at hcreate
  split at hcreate
  next entry hlookup =>
    cases entry with
    | none => exact absurd hlookup (FdManager.lookup_auto_create fd)
    | some p =>
        obtain ⟨i, hi, hentry⟩ := FdManager.lookup_found hlookup
        rw [Int.natCast_inj.mp hi] at hfree
        exact absurd hfree (h.isOpen i p hentry)
  · obtain ⟨fds, hfds, heq⟩ := Option.map_eq_some_iff.mp hcreate
    obtain ⟨hsame, hasked, hothers, hself⟩ := init_spec
      ⟨fds, Function.update s.kernel fd (some flags), Function.update s.asked fd false⟩
      fd (fstat.getD false)
    obtain ⟨flags', hflags', hset⟩ := hself flags (Function.update_self _ _ _)
    rw [heq] at hsame hasked hothers hflags'
    refine ⟨by rw [hsame]; exact hfds, hsmall, hfree, hasked, fun i hi => ?_,
      flags', hflags', ?_⟩
    · rw [hothers i hi]
      exact Function.update_of_ne hi _ _
    · rintro rfl
      exact hset rfl
  · cases hcreate

section Gives

variable {s t : Descriptors} {fd : Nat} {fstat : Option Bool}

/-- The new context is that of the new descriptor; the others were there before. -/
theorem Gives.entry (hg : s.Gives fd fstat t) {i p : Nat}
    (hentry : t.fds.m_datas[i]? = some (some p)) :
    i = fd ∧ t.fds.heap[p]? = some (FdCtx.new fd fstat) ∧ p = s.fds.heap.length ∨
      i ≠ fd ∧ s.fds.m_datas[i]? = some (some p) := by
  obtain ⟨hheap, hentries⟩ := FdManager.create_spec hg.create
  rcases hentries i p hentry with ⟨hi, rfl⟩ | ⟨hi, hold⟩
  · refine Or.inl ⟨(Int.natCast_inj.mp hi).symm, ?_, rfl⟩
    rw [hheap, List.getElem?_append_right (Nat.le_refl _), Nat.sub_self]
    rfl
  · exact Or.inr ⟨fun h => hi (by rw [h]), hold⟩

theorem Gives.heap_old (hg : s.Gives fd fstat t) (h : s.Sound) {i p : Nat}
    (hold : s.fds.m_datas[i]? = some (some p)) : t.fds.heap[p]? = s.fds.heap[p]? := by
  obtain ⟨ctx, hctx⟩ := h.context i p hold
  rw [(FdManager.create_spec hg.create).1,
    List.getElem?_append_left (List.getElem?_eq_some_iff.mp hctx).1]

/-- A socket of the table after the step. -/
theorem Gives.socketAt (hg : s.Gives fd fstat t) (h : s.Sound) {i p : Nat} {ctx : FdCtx}
    (hat : SocketAt t.fds i p ctx) :
    i = fd ∧ ctx = FdCtx.new fd fstat ∧ fstat = some true ∨ i ≠ fd ∧ SocketAt s.fds i p ctx := by
  rcases hg.entry hat.1 with ⟨hi, hnew, _⟩ | ⟨hi, hold⟩
  · obtain rfl := Option.some.inj (hat.2.1.symm.trans hnew)
    refine Or.inl ⟨hi, rfl, ?_⟩
    have hsocket : fstat.getD false = true := hat.2.2
    cases fstat with
    | none => cases hsocket
    | some b => exact congrArg some hsocket
  · exact Or.inr ⟨hi, hold, (hg.heap_old h hold) ▸ hat.2.1, hat.2.2⟩

theorem Gives.sound (hg : s.Gives fd fstat t) (h : s.Sound) : t.Sound := by
  have hne : ∀ {i : Nat}, i ≠ fd → (i : Int) ≠ fd := fun hi heq => hi (Int.natCast_inj.mp heq)
  refine ⟨h.fits.create hg.small hg.create, ?_, ?_, h.isClosed.create hg.create, ?_, ?_, ?_⟩
  · intro i j p hi hj
    rcases hg.entry hi with ⟨rfl, _, hp⟩ | ⟨_, hi'⟩
    · rcases hg.entry hj with ⟨rfl, _⟩ | ⟨_, hj'⟩
      · rfl
      · obtain ⟨ctx, hctx⟩ := h.context j p hj'
        have := (List.getElem?_eq_some_iff.mp hctx).1
        omega
    · rcases hg.entry hj with ⟨_, _, hp⟩ | ⟨_, hj'⟩
      · obtain ⟨ctx, hctx⟩ := h.context i p hi'
        have := (List.getElem?_eq_some_iff.mp hctx).1
        omega
      · exact h.distinct i j p hi' hj'
  · intro i p hentry
    rcases hg.entry hentry with ⟨_, hnew, _⟩ | ⟨_, hold⟩
    · exact ⟨_, hnew⟩
    · rw [hg.heap_old h hold]
      exact h.context i p hold
  · intro i p ctx hat
    rcases hg.socketAt h hat with ⟨_, rfl, rfl⟩ | ⟨_, hold⟩
    · rfl
    · exact h.sysNonblock i p ctx hold
  · intro i p ctx hat
    rw [hg.asked]
    rcases hg.socketAt h hat with ⟨rfl, rfl, _⟩ | ⟨hi, hold⟩
    · exact (Function.update_self (i : Int) false s.asked).symm
    · rw [Function.update_of_ne (hne hi)]
      exact h.userNonblock i p ctx hold
  · intro i p hentry
    rcases hg.entry hentry with ⟨rfl, _⟩ | ⟨hi, hold⟩
    · obtain ⟨flags, hflags, _⟩ := hg.flags
      rw [hflags]
      exact Option.some_ne_none _
    · rw [hg.others i (hne hi)]
      exact h.isOpen i p hold

theorem Gives.sysNonblock (hg : s.Gives fd fstat t) (h : s.Sound) (hsys : s.SysNonblock) :
    t.SysNonblock := by
  intro i p ctx hat
  rcases hg.socketAt h hat with ⟨rfl, _, hsocket⟩ | ⟨hi, hold⟩
  · obtain ⟨flags, hflags, hset⟩ := hg.flags
    exact ⟨flags, hflags, hset hsocket⟩
  · rw [hg.others i fun heq => hi (Int.natCast_inj.mp heq)]
    exact hsys i p ctx hold

end Gives

/-! ## A descriptor that is closed -/

/-- The descriptor and its context are gone. -/
structure Takes (s : Descriptors) (fd : Int) (t : Descriptors) : Prop where
  fits : t.fds.Fits
  isClosed : t.fds.NoneClosed
  heap : t.fds.heap = s.fds.heap
  entry : ∀ i p : Nat, t.fds.m_datas[i]? = some (some p) →
    (i : Int) ≠ fd ∧ s.fds.m_datas[i]? = some (some p)
  kernel : ∀ i, i ≠ fd → t.kernel i = s.kernel i
  asked : t.asked = s.asked

theorem Sound.takes {s t : Descriptors} (h : s.Sound) {fd : Int} (hstep : s.close fd = some t) :
    s.Takes fd t := by
  rw [close] at hstep
  split at hstep
  next hlookup =>
    cases Option.some.inj hstep
    refine ⟨h.fits, h.isClosed, rfl, fun i p hentry => ⟨?_, hentry⟩,
      fun i hi => Function.update_of_ne hi _ _, rfl⟩
    rintro rfl
    rw [h.fits.lookup, hentry] at hlookup
    cases hlookup
  next p hlookup =>
    obtain ⟨fds, hdel, heq⟩ := Option.map_eq_some_iff.mp hstep
    rw [← heq]
    obtain ⟨j, rfl, hentry⟩ := FdManager.lookup_found hlookup
    obtain ⟨hheap, hlen, hentries⟩ := FdManager.del_spec hdel
    refine ⟨?_, h.isClosed.del hdel, hheap, fun i q hi => ⟨?_, hentries i q hi⟩,
      fun i hi => Function.update_of_ne hi _ _, rfl⟩
    · rw [FdManager.Fits, hlen]
      exact h.fits
    · intro hij
      rw [Int.natCast_inj.mp hij] at hi
      cases hi.symm.trans (h.fits.del hentry hdel)
  · cases hstep

theorem Takes.socketAt {s t : Descriptors} {fd : Int} (ht : s.Takes fd t) {i p : Nat}
    {ctx : FdCtx} (hat : SocketAt t.fds i p ctx) : (i : Int) ≠ fd ∧ SocketAt s.fds i p ctx := by
  obtain ⟨hi, hold⟩ := ht.entry i p hat.1
  exact ⟨hi, hold, ht.heap ▸ hat.2.1, hat.2.2⟩

theorem Takes.sound {s t : Descriptors} {fd : Int} (ht : s.Takes fd t) (h : s.Sound) :
    t.Sound := by
  refine ⟨ht.fits, ?_, ?_, ht.isClosed, ?_, ?_, ?_⟩
  · exact fun i j p hi hj => h.distinct i j p (ht.entry i p hi).2 (ht.entry j p hj).2
  · intro i p hentry
    rw [ht.heap]
    exact h.context i p (ht.entry i p hentry).2
  · exact fun i p ctx hat => h.sysNonblock i p ctx (ht.socketAt hat).2
  · intro i p ctx hat
    rw [ht.asked]
    exact h.userNonblock i p ctx (ht.socketAt hat).2
  · intro i p hentry
    obtain ⟨hi, hold⟩ := ht.entry i p hentry
    rw [ht.kernel i hi]
    exact h.isOpen i p hold

theorem Takes.sysNonblock {s t : Descriptors} {fd : Int} (ht : s.Takes fd t)
    (hsys : s.SysNonblock) : t.SysNonblock := by
  intro i p ctx hat
  obtain ⟨hi, hold⟩ := ht.socketAt hat
  rw [ht.kernel i hi]
  exact hsys i p ctx hold

/-! ## Every sequence of calls -/

/-- What a call comes to. -/
inductive Moves (s : Descriptors) : Act → Descriptors → Prop where
  | gives {a : Act} {fd : Nat} {fstat : Option Bool} {t : Descriptors}
      (ha : ∀ fd value ok, a ≠ .ioctl fd value ok) (h : s.Gives fd fstat t) : Moves s a t
  | same {fd : Int} : Moves s (.getfl fd) s
  | takes {fd : Int} {t : Descriptors} (h : s.Takes fd t) : Moves s (.close fd) t
  /-- The descriptor is not managed as a socket. -/
  | passes {a : Act} {fd : Int} (on ok : Bool) (f : Flags → Flags)
      (hnone : s.socketCtx fd = some none)
      (ha : ∀ fd' value ok, a = .ioctl fd' value ok → fd' = fd) :
      Moves s a ((s.request fd on).ctl fd f ok)
  /-- `fcntl` turns the request into one that sets the flag. -/
  | setfl {i p : Nat} {ctx : FdCtx} (arg : Flags) (ok : Bool) (hat : SocketAt s.fds i p ctx) :
      Moves s (.setfl i arg ok)
        ({ s.request i (nonblock arg) with
          fds := s.fds.update p (·.setUserNonblock (nonblock arg)) }.ctl i
            (Flags.setfl · (arg ||| O_NONBLOCK)) ok)
  /-- `ioctl` passes the request on as it is. -/
  | ioctl {i p : Nat} {ctx : FdCtx} (value : Int) (ok : Bool) (hat : SocketAt s.fds i p ctx) :
      Moves s (.ioctl i value ok)
        ({ s.request i (value ≠ 0) with
          fds := s.fds.update p (·.setUserNonblock (value ≠ 0)) }.ctl i
            (Flags.fionbio · (value ≠ 0)) ok)

theorem Sound.moves {s t : Descriptors} {a : Act} (h : s.Sound) (hstep : s.step a = some t) :
    s.Moves a t := by
  cases a with
  | socket fd flags fstat => exact .gives (by rintro _ _ _ ⟨⟩) (h.gives hstep)
  | accept fd flags fstat => exact .gives (by rintro _ _ _ ⟨⟩) (h.gives hstep)
  | getfl fd =>
      obtain ⟨_, _, rfl⟩ := Option.map_eq_some_iff.mp hstep
      exact .same
  | close fd => exact .takes (h.takes hstep)
  | setfl fd arg ok =>
      obtain ⟨c, (hc : s.socketCtx fd = some c), heq⟩ := Option.map_eq_some_iff.mp hstep
      cases c with
      | none =>
          rw [← heq]
          exact .passes _ ok _ hc (by rintro _ _ _ ⟨⟩)
      | some c =>
          obtain ⟨p, ctx⟩ := c
          obtain ⟨i, rfl, hat⟩ := h.socketCtx_iff.mp hc
          simp only [h.sysNonblock i p ctx hat, if_true] at heq
          rw [← heq]
          exact .setfl arg ok hat
  | ioctl fd value ok =>
      obtain ⟨c, (hc : s.socketCtx fd = some c), heq⟩ := Option.map_eq_some_iff.mp hstep
      cases c with
      | none =>
          rw [← heq]
          refine .passes _ ok _ hc ?_
          rintro _ _ _ ⟨⟩
          rfl
      | some c =>
          obtain ⟨p, ctx⟩ := c
          obtain ⟨i, rfl, hat⟩ := h.socketCtx_iff.mp hc
          rw [← heq]
          exact .ioctl value ok hat

theorem Moves.sound {s t : Descriptors} {a : Act} (hm : s.Moves a t) (h : s.Sound) : t.Sound := by
  cases hm with
  | gives _ hg => exact hg.sound h
  | same => exact h
  | takes ht => exact ht.sound h
  | passes on ok f hnone _ => exact (h.request on hnone).ctl _ f ok
  | setfl arg ok hat => exact (h.ask hat _).ctl _ _ ok
  | ioctl value ok hat => exact (h.ask hat _).ctl _ _ ok

/-- A call keeps the flag of every managed socket exactly when `Keeps` says so. -/
theorem Moves.sysNonblock_iff {s t : Descriptors} {a : Act} (hm : s.Moves a t) (h : s.Sound)
    (hsys : s.SysNonblock) : t.SysNonblock ↔ s.Keeps a t := by
  cases hm with
  | @gives a fd fstat t ha hg =>
      refine ⟨fun _ => ?_, fun _ => hg.sysNonblock h hsys⟩
      cases a with
      | ioctl fd' value ok => exact absurd rfl (ha fd' value ok)
      | _ => trivial
  | same => exact ⟨fun _ => trivial, fun _ => hsys⟩
  | takes ht => exact ⟨fun _ => trivial, fun _ => ht.sysNonblock hsys⟩
  | @passes a fd on ok f hnone ha =>
      refine ⟨fun _ => ?_, fun _ i p ctx hat => ?_⟩
      · cases a with
        | ioctl fd' value ok' =>
            rintro _ _ c hc
            rw [ha fd' value ok' rfl, hnone] at hc
            cases hc
        | _ => trivial
      · rw [(ctl_fds _ fd f ok).1] at hat
        have hne : (i : Int) ≠ fd := by
          rintro rfl
          exact h.not_socketAt hnone hat
        rw [ctl_kernel, if_neg fun heq => hne heq.1]
        exact hsys i p ctx hat
  | setfl arg ok hat =>
      have hset : ∀ flags : Flags, nonblock (flags.setfl (arg ||| O_NONBLOCK)) = true := by
        intro flags
        rw [nonblock_setfl, nonblock_or]
      refine ⟨fun _ => trivial, fun _ => ?_⟩
      exact ((hsys.ask _ _ _).ctl_iff _ hset ok).mpr (by rintro ⟨⟩)
  | @ioctl i p ctx value ok hat =>
      refine ((hsys.ask _ _ _).ctl_iff _ (nonblock_fionbio · _) ok).trans ?_
      constructor
      · intro hclear hzero hok c _
        refine hclear (by simp [hzero]) hok i p (ctx.setUserNonblock (value ≠ 0)) rfl
          ⟨hat.1, ?_, hat.2.2⟩
        rw [FdManager.update_heap, if_pos rfl, hat.2.1]
        rfl
      · intro hkeeps hoff hok
        refine absurd (h.socketCtx_iff.mpr ⟨i, rfl, hat⟩) (hkeeps ?_ hok _)
        simpa using hoff

/-- In a run of socket calls the two views agree in every state exactly when no `FIONBIO`
clears the flag of a managed socket. -/
theorem nonblock_coherent_iff (kernel : Int → Option Flags) (as : List Act) :
    Throughout step Coherent (start kernel) as ↔ Along step Keeps (start kernel) as := by
  have hall : ∀ a ∈ as, True := fun _ _ => trivial
  have hstart : (start kernel).Coherent := by
    refine (start_sound kernel).coherent_iff_sys.mpr fun i p ctx hat => ?_
    have hmem := List.eq_of_mem_replicate (List.mem_of_getElem? hat.1)
    cases hmem
  refine throughout_iff_along (J := Sound) (fun _ _ _ _ hs hstep => (hs.moves hstep).sound hs)
    (fun s a t _ hs hcoherent hstep => ?_) hall (start_sound kernel) hstart
  have hm := hs.moves hstep
  rw [(hm.sound hs).coherent_iff_sys]
  exact hm.sysNonblock_iff hs (hs.coherent_iff_sys.mp hcoherent)

/-- A socket, then `FIONBIO` with 0. -/
def blockingAgain : List Act := [.socket 3 2 (some true), .ioctl 3 0 true]

/-- The kernel's flag is cleared. -/
theorem blockingAgain_not_coherent :
    ¬∀ (kernel : Int → Option Flags) (as : List Act),
      Throughout step Coherent (start kernel) as := by
  intro hall
  obtain ⟨t, ht⟩ : ∃ t, exec step (start fun _ => none) blockingAgain = some t :=
    Option.isSome_iff_exists.mp (by decide)
  have hmanaged : (exec step (start fun _ => none) blockingAgain).bind (·.socketCtx 3) =
      some (some (0, FdCtx.new 3 (some true))) := rfl
  have hkernel : (exec step (start fun _ => none) blockingAgain).bind (·.kernel 3) = some 2 := rfl
  rw [ht] at hmanaged hkernel
  obtain ⟨flags, hflags, hset⟩ := (((hall _ _).final ht) 3 _ hmanaged).sys
  cases Option.some.inj (hflags.symm.trans hkernel)
  revert hset
  decide

end Descriptors

end Hook

end Muqiu
