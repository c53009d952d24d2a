import Mathlib.Algebra.Group.Nat.Defs
import Muqiu.Lib.Runs

/-!
# The descriptor manager

`m_datas` holds shared pointers, so a context is a heap object and a pointer to it its place
in `heap`; a context that no entry points to any more may still be held by a caller.  `get`
takes the lock twice, once to look and once to create, so its two halves are two functions.
Where an index is outside the table the functions are undefined.
-/

namespace Muqiu

/-- The timeout options of `setsockopt`. -/
inductive TimeoutType where
  | SO_RCVTIMEO
  | SO_SNDTIMEO
deriving DecidableEq, Repr

/-- `(uint64_t)-1` -/
def noTimeout : UInt64 := 0xFFFFFFFFFFFFFFFF

/-- What is kept of a descriptor. -/
structure FdCtx where
  m_isInit : Bool
  m_isSocket : Bool
  m_sysNonblock : Bool
  m_userNonblock : Bool
  m_isClosed : Bool
  m_fd : Int
  m_recvTimeout : UInt64
  m_sendTimeout : UInt64
deriving DecidableEq, Repr

namespace FdCtx

/-- The constructor with `init`.  `fstat` tells whether the descriptor is a socket; `none`
when it fails. -/
def new (fd : Int) (fstat : Option Bool) : FdCtx where
  m_isInit := fstat.isSome
  m_isSocket := fstat.getD false
  m_sysNonblock := fstat.getD false
  m_userNonblock := false
  m_isClosed := false
  m_fd := fd
  m_recvTimeout := noTimeout
  m_sendTimeout := noTimeout

/-- What the program has asked for. -/
def setUserNonblock (ctx : FdCtx) (v : Bool) : FdCtx := { ctx with m_userNonblock := v }

/-- The timeout of one of the two kinds, in milliseconds. -/
def setTimeout (ctx : FdCtx) (type : TimeoutType) (v : UInt64) : FdCtx :=
  match type with
  | .SO_RCVTIMEO => { ctx with m_recvTimeout := v }
  | .SO_SNDTIMEO => { ctx with m_sendTimeout := v }

/-- The timeout of one of the two kinds. -/
def getTimeout (ctx : FdCtx) : TimeoutType → UInt64
  | .SO_RCVTIMEO => ctx.m_recvTimeout
  | .SO_SNDTIMEO => ctx.m_sendTimeout

theorem setTimeout_isClosed (ctx : FdCtx) (type : TimeoutType) (v : UInt64) :
    (ctx.setTimeout type v).m_isClosed = ctx.m_isClosed := by
  cases type with
  | SO_RCVTIMEO => rfl
  | SO_SNDTIMEO => rfl

end FdCtx

/-- The slots by descriptor, as addresses of contexts in the heap. -/
structure FdManager where
  m_datas : List (Option Nat)
  heap : List FdCtx

namespace FdManager

/-- The constructor: `m_datas.resize(64)`. -/
def new : FdManager := ⟨List.replicate 64 none, []⟩

/-- `(int)m_datas.size()` -/
def size (m : FdManager) : Int := (BitVec.ofNat 32 m.m_datas.length).toInt

/-- `m_datas.resize(n)` -/
def resize (m : FdManager) (n : Nat) : FdManager :=
  { m with m_datas := m.m_datas.take n ++ List.replicate (n - m.m_datas.length) none }

/-- What the first half of `get` comes to. -/
inductive Lookup where
  | found (ctx : Option Nat)
  | create
  | undefined
deriving DecidableEq, Repr

/-- `get` under the read lock -/
def lookup (m : FdManager) (fd : Int) (auto_create : Bool) : Lookup :=
  if fd = -1 then .found none
  else if m.size ≤ fd then
    if auto_create then .create else .found none
  else if fd < 0 then .undefined
  else
    match m.m_datas[fd.toNat]? with
    | none => .undefined
    | some entry => if entry.isSome || !auto_create then .found entry else .create

/-- `get` under the write lock: a new context goes into the table, whatever is there. -/
def create (m : FdManager) (fd : Int) (fstat : Option Bool) : Option FdManager :=
  let m' := if m.size ≤ fd then m.resize (3 * fd.toNat / 2) else m
  if 0 ≤ fd ∧ fd.toNat < m'.m_datas.length then
    some ⟨m'.m_datas.set fd.toNat (some m.heap.length), m.heap ++ [FdCtx.new fd fstat]⟩
  else none

/-- `del` empties a slot; `none` when it indexes outside. -/
def del (m : FdManager) (fd : Int) : Option FdManager :=
  if m.size ≤ fd then some m
  else if 0 ≤ fd ∧ fd.toNat < m.m_datas.length then
    some { m with m_datas := m.m_datas.set fd.toNat none }
  else none

/-- A call on the context at `p`. -/
def update (m : FdManager) (p : Nat) (f : FdCtx → FdCtx) : FdManager :=
  { m with heap := m.heap.modify p f }

/-! ## The table -/

/-- The table fits an `int`. -/
def Fits (m : FdManager) : Prop := m.m_datas.length < 2 ^ 31

theorem new_fits : new.Fits := by
  rw [Fits, new, List.length_replicate]
  decide

theorem Fits.size {m : FdManager} (h : m.Fits) : m.size = m.m_datas.length := by
  rw [Fits] at h
  rw [FdManager.size, BitVec.toInt_eq_toNat_of_lt]
  · rw [BitVec.toNat_ofNat, Nat.mod_eq_of_lt (by omega)]
  · rw [BitVec.toNat_ofNat, Nat.mod_eq_of_lt (by omega)]
    omega

/-- `get(fd)` gives the entry of the descriptor. -/
theorem Fits.lookup {m : FdManager} (h : m.Fits) (i : Nat) :
    m.lookup i false = .found (m.m_datas[i]?).join := by
  rw [FdManager.lookup, if_neg (by omega), h.size]
  by_cases hlt : i < m.m_datas.length
  · rw [if_neg (by omega), if_neg (by omega), Int.toNat_natCast, List.getElem?_eq_getElem hlt]
    simp
  · rw [if_pos (by omega), List.getElem?_eq_none (by omega)]
    rfl

/-- A context that `get` finds is the entry of the descriptor. -/
theorem lookup_found {m : FdManager} {fd : Int} {auto_create : Bool} {p : Nat}
    (h : m.lookup fd auto_create = .found (some p)) :
    ∃ i : Nat, fd = i ∧ m.m_datas[i]? = some (some p) := by
  rw [FdManager.lookup] at h
  split at h
  · cases h
  · split at h
    · split at h
      · cases h
      · cases h
    · split at h
      · cases h
      next hneg =>
        cases hentry : m.m_datas[fd.toNat]? with
        | none =>
            rw [hentry] at h
            cases h
        | some entry =>
            rw [hentry] at h
            simp only at h
            split at h
            · cases h
              exact ⟨fd.toNat, by omega, hentry⟩
            · cases h

/-- With `auto_create` a null entry is not what `get` finds. -/
theorem lookup_auto_create {m : FdManager} (i : Nat) : m.lookup i true ≠ .found none := by
  rw [FdManager.lookup, if_neg (by omega)]
  split
  · rintro ⟨⟩
  · split
    · rintro ⟨⟩
    · cases m.m_datas[(i : Int).toNat]? with
      | none => rintro ⟨⟩
      | some entry =>
          cases entry with
          | none => rintro ⟨⟩
          | some p => rintro ⟨⟩

theorem resize_entry {m : FdManager} {n i p : Nat}
    (h : (m.resize n).m_datas[i]? = some (some p)) : m.m_datas[i]? = some (some p) := by
  rw [resize, List.getElem?_append] at h
  split at h
  next =>
    rw [List.getElem?_take] at h
    split at h
    · exact h
    · cases h
  next =>
    rw [List.getElem?_replicate] at h
    split at h
    · cases h
    · cases h

/-- A new context has the next place in the heap; the other entries stay, or are cut off. -/
theorem create_spec {m m' : FdManager} {fd : Int} {fstat : Option Bool}
    (h : m.create fd fstat = some m') :
    m'.heap = m.heap ++ [FdCtx.new fd fstat] ∧
      ∀ i p : Nat, m'.m_datas[i]? = some (some p) →
        (fd = i ∧ p = m.heap.length) ∨ (fd ≠ i ∧ m.m_datas[i]? = some (some p)) := by
  rw [create, Option.ite_none_right_eq_some] at h
  obtain ⟨⟨hpos, hlt⟩, heq⟩ := h
  cases Option.some.inj heq
  refine ⟨rfl, fun i p hentry => ?_⟩
  by_cases hi : i = fd.toNat
  · rw [hi, List.getElem?_set_self hlt] at hentry
    cases Option.some.inj hentry
    exact Or.inl ⟨by omega, rfl⟩
  · rw [List.getElem?_set_ne (Ne.symm hi)] at hentry
    refine Or.inr ⟨by omega, ?_⟩
    split at hentry
    · exact resize_entry hentry
    · exact hentry

theorem Fits.create {m m' : FdManager} (h : m.Fits) {fd : Nat} (hfd : fd < 2 ^ 30)
    {fstat : Option Bool} (hcreate : m.create fd fstat = some m') : m'.Fits := by
  rw [FdManager.create, Option.ite_none_right_eq_some] at hcreate
  cases Option.some.inj hcreate.2
  rw [Fits] at h ⊢
  rw [List.length_set]
  split
  · rw [resize, List.length_append, List.length_take, List.length_replicate]
    omega
  · exact h

theorem del_spec {m m' : FdManager} {fd : Int} (h : m.del fd = some m') :
    m'.heap = m.heap ∧ m'.m_datas.length = m.m_datas.length ∧
      ∀ i p : Nat, m'.m_datas[i]? = some (some p) → m.m_datas[i]? = some (some p) := by
  rw [del] at h
  split at h
  · cases Option.some.inj h
    exact ⟨rfl, rfl, fun _ _ hentry => hentry⟩
  · rw [Option.ite_none_right_eq_some] at h
    cases Option.some.inj h.2
    refine ⟨rfl, List.length_set, fun i p hentry => ?_⟩
    rw [List.getElem?_set] at hentry
    split at hentry
    · split at hentry
      · cases hentry
      · cases hentry
    · exact hentry

/-- `del` clears the entry `get` has found. -/
theorem Fits.del {m m' : FdManager} (h : m.Fits) {i p : Nat}
    (hentry : m.m_datas[i]? = some (some p)) (hdel : m.del i = some m') :
    m'.m_datas[i]? = some none := by
  have hlt : i < m.m_datas.length := (List.getElem?_eq_some_iff.mp hentry).1
  rw [FdManager.del, h.size, if_neg (by omega), Option.ite_none_right_eq_some] at hdel
  cases Option.some.inj hdel.2
  rw [Int.toNat_natCast, List.getElem?_set_self hlt]

theorem update_heap (m : FdManager) (p q : Nat) (f : FdCtx → FdCtx) :
    (m.update p f).heap[q]? = if p = q then (m.heap[q]?).map f else m.heap[q]? := by
  rw [update, List.getElem?_modify]
  by_cases hpq : p = q
  · simp [hpq]
  · simp [hpq]

/-! ## The flag nothing sets -/

/-- No context says that its descriptor is closed. -/
def NoneClosed (m : FdManager) : Prop := ∀ ctx ∈ m.heap, ctx.m_isClosed = false

theorem new_noneClosed : new.NoneClosed := by
  rintro _ ⟨⟩

theorem NoneClosed.create {m m' : FdManager} {fd : Int} {fstat : Option Bool}
    (h : m.NoneClosed) (hcreate : m.create fd fstat = some m') : m'.NoneClosed := by
  rw [FdManager.create, Option.ite_none_right_eq_some] at hcreate
  cases Option.some.inj hcreate.2
  intro ctx hctx
  rcases List.mem_append.mp hctx with hold | hnew
  · exact h ctx hold
  · rw [List.mem_singleton.mp hnew]
    rfl

theorem NoneClosed.del {m m' : FdManager} {fd : Int} (h : m.NoneClosed)
    (hdel : m.del fd = some m') : m'.NoneClosed := by
  rw [FdManager.del] at hdel
  split at hdel
  · cases Option.some.inj hdel
    exact h
  · rw [Option.ite_none_right_eq_some] at hdel
    cases Option.some.inj hdel.2
    exact h

theorem NoneClosed.update {m : FdManager} (h : m.NoneClosed) (p : Nat) {f : FdCtx → FdCtx}
    (hf : ∀ ctx, (f ctx).m_isClosed = ctx.m_isClosed) : (m.update p f).NoneClosed := by
  intro ctx hctx
  obtain ⟨i, hi⟩ := List.mem_iff_getElem?.mp hctx
  rw [FdManager.update, List.getElem?_modify] at hi
  obtain ⟨old, hold, heq⟩ := Option.map_eq_some_iff.mp hi
  rw [← heq]
  split
  · rw [hf]
    exact h old (List.mem_of_getElem? hold)
  · exact h old (List.mem_of_getElem? hold)

end FdManager

end Muqiu
