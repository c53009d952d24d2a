import Muqiu.IoManager.Growth
import Muqiu.Hook.FdGet

/-!
# The descriptor tables

`m_fdContexts` and `m_datas` are indexed with a descriptor, an `int` that comes from any caller; a
`Socket` that is closed hands on its `m_sock`, which is -1.  The tests before an index compare the
descriptor with the size of the table as an `int`, and only from above.  Where the table is too
small, `addEvent` and `get` give up the read lock, take the write lock and make the table half as
long again as the descriptor.  Other threads run between the two.

`undefined` is not in the source: it records that an index was outside of its table.  A negative
number that is to become a size counts as such.
-/

namespace Muqiu

open Runs IOManager

namespace Hook

/-- The arguments of `addEvent`. -/
structure AddCall where
  caller : Caller
  fd : Int
  event : Event
  cb : Option Nat
deriving DecidableEq, Repr

/-- The two tables and the threads between two locks. -/
structure Tables where
  w : World
  m : FdManager
  adding : Nat → Option AddCall
  getting : Nat → Option Int
  undefined : Bool

/-- What a thread does under one lock. -/
inductive TableAct where
  /-- `addEvent` under the read lock -/
  | addEvent (thread : Nat) (call : AddCall) (ok : Bool)
  /-- `addEvent` under the write lock -/
  | grow (thread : Nat) (ok : Bool)
  /-- `delEvent`, `cancelEvent`, `cancelAll`, or what does not touch the tables -/
  | manager (a : IOManager.Act)
  /-- `get` under the read lock -/
  | get (thread : Nat) (fd : Int) (auto_create : Bool)
  /-- `get` under the write lock -/
  | create (thread : Nat) (fstat : Option Bool)
  | del (fd : Int)

/-! ## `Socket` -/

/-- `Socket::cancelRead` -/
def cancelRead (m_sock : Int) (ok : Bool) : TableAct := .manager (.cancelEvent m_sock .read ok)

/-- `Socket::cancelWrite` -/
def cancelWrite (m_sock : Int) (ok : Bool) : TableAct := .manager (.cancelEvent m_sock .write ok)

/-- `Socket::cancelAccept`, which cancels what waits to read. -/
def cancelAccept (m_sock : Int) (ok : Bool) : TableAct := .manager (.cancelEvent m_sock .read ok)

/-- `Socket::close`, as far as the manager hears of it. -/
def cancelAll (m_sock : Int) (ok : Bool) : TableAct := .manager (.cancelAll m_sock ok)

/-! ## The indices -/

/-- The index is one of a table of `size` entries. -/
def inside (size : Nat) (fd : Int) : Bool := 0 ≤ fd && fd < size

/-- `addEvent` with the pointer of the table. -/
def addFetched (w : World) (call : AddCall) (ok : Bool) : World :=
  match w.contextAt call.fd with
  | none => w.crash
  | some p => w.addLocked call.caller p call.fd call.event call.cb ok

/-- The descriptor `delEvent`, `cancelEvent` or `cancelAll` is called for. -/
def removed : IOManager.Act → Option Int
  | .delEvent fd _ _ => some fd
  | .cancelEvent fd _ _ => some fd
  | .cancelAll fd _ => some fd
  | _ => none

namespace Tables

/-- Before the first call. -/
def start : Tables where
  w := IOManager.start
  m := FdManager.new
  adding := fun _ => none
  getting := fun _ => none
  undefined := false

/-- A table of `size` entries is indexed. -/
def index (s : Tables) (size : Nat) (fd : Int) : Tables :=
  { s with undefined := !inside size fd }

/-- `addEvent` under the first lock: the slot is read, or the table has to grow first. -/
def addEvent (s : Tables) (thread : Nat) (call : AddCall) (ok : Bool) : Tables :=
  if s.w.tableSize > call.fd then
    { s.index s.w.m_fdContexts.length call.fd with w := addFetched s.w call ok }
  else { s with adding := Function.update s.adding thread (some call) }

/-- The table grows, or shrinks, for a descriptor that was not in it. -/
def grow (s : Tables) (thread : Nat) (call : AddCall) (ok : Bool) : Tables :=
  let w := s.w.contextResize (3 * call.fd.toNat / 2)
  { s.index w.m_fdContexts.length call.fd with
    w := addFetched w call ok
    adding := Function.update s.adding thread none }

/-- The other calls of the manager.  One that removes an event reads the slot of its descriptor,
when the table has it. -/
def manager (s : Tables) (a : IOManager.Act) (w : World) : Tables :=
  match removed a with
  | none => { s with w := w }
  | some fd =>
      if s.w.tableSize ≤ fd then { s with w := w }
      else { s.index s.w.m_fdContexts.length fd with w := w }

/-- `get` under the first lock. -/
def get (s : Tables) (thread : Nat) (fd : Int) (auto_create : Bool) : Tables :=
  match s.m.lookup fd auto_create with
  | .found _ => s
  | .create => { s with getting := Function.update s.getting thread (some fd) }
  | .undefined => { s with undefined := true }

/-- `get` under the second lock. -/
def create (s : Tables) (thread : Nat) (fd : Int) (fstat : Option Bool) : Tables :=
  match s.m.create fd fstat with
  | none => { s with undefined := true }
  | some m => { s with m := m, getting := Function.update s.getting thread none }

/-- `del` -/
def del (s : Tables) (fd : Int) : Tables :=
  match s.m.del fd with
  | none => { s with undefined := true }
  | some m => { s with m := m }

/-- One step; `none` when it is not enabled, or when something undefined has happened. -/
def step (s : Tables) (a : TableAct) : Option Tables :=
  if s.w.crashed ∨ s.undefined then none
  else
    match a with
    | .addEvent thread call ok =>
        if s.adding thread = none then some (s.addEvent thread call ok) else none
    | .grow thread ok => (s.adding thread).map fun call => s.grow thread call ok
    | .manager a =>
        if World.Adds a then none else (IOManager.step s.w a).map fun w => s.manager a w
    | .get thread fd auto_create =>
        if s.getting thread = none then some (s.get thread fd auto_create) else none
    | .create thread fstat => (s.getting thread).map fun fd => s.create thread fd fstat
    | .del fd => some (s.del fd)

/-- The descriptor is not negative, or not less than the size of the table, which is then negative
as an `int`; -1 is tested by `get` alone.  A table is made for no descriptor but those from 2 on,
since half of 0 or 1 adds no entry. -/
def Guarded (s : Tables) : TableAct → Prop
  | .addEvent _ call _ => 0 ≤ call.fd ∨ s.w.tableSize ≤ call.fd
  | .grow thread _ => ∀ call ∈ s.adding thread, 2 ≤ call.fd
  | .manager a => ∀ fd ∈ removed a, 0 ≤ fd ∨ s.w.tableSize ≤ fd
  | .get _ fd _ => -1 ≤ fd ∨ s.m.size ≤ fd
  | .create thread _ => ∀ fd ∈ s.getting thread, 0 ≤ fd ∧ (s.m.size ≤ fd → 2 ≤ fd)
  | .del fd => 0 ≤ fd ∨ s.m.size ≤ fd

end Tables

/-! ## The tests -/

theorem inside_iff {size : Nat} {fd : Int} : inside size fd = true ↔ 0 ≤ fd ∧ fd < size := by
  rw [inside, Bool.and_eq_true, decide_eq_true_iff, decide_eq_true_iff]

theorem tableSize_le (w : World) : w.tableSize ≤ w.m_fdContexts.length :=
  Getting.size_le ⟨w.m_fdContexts, []⟩

/-- Behind the test of the size only a negative descriptor is outside. -/
theorem inside_of_tested {w : World} {fd : Int} (h : fd < w.tableSize) :
    inside w.m_fdContexts.length fd = true ↔ 0 ≤ fd := by
  have hsize := tableSize_le w
  rw [inside_iff]
  exact and_iff_left (by omega)

/-- A table that is made for a descriptor has it from 2 on. -/
theorem inside_of_grown (w : World) (fd : Int) :
    inside (w.contextResize (3 * fd.toNat / 2)).m_fdContexts.length fd = true ↔ 2 ≤ fd := by
  rw [World.length_contextResize, inside_iff]
  omega

theorem lookup_undefined_iff {m : FdManager} {fd : Int} {auto_create : Bool} :
    m.lookup fd auto_create = .undefined ↔ ¬(-1 ≤ fd ∨ m.size ≤ fd) := by
  have hsize := Getting.size_le m
  rw [FdManager.lookup]
  by_cases hnone : fd = -1
  · rw [if_pos hnone]
    exact iff_of_false (fun h => by cases h) (by omega)
  rw [if_neg hnone]
  by_cases htested : m.size ≤ fd
  · rw [if_pos htested]
    refine iff_of_false (fun h => ?_) (by omega)
    split at h
    · cases h
    · cases h
  rw [if_neg htested]
  by_cases hneg : fd < 0
  · rw [if_pos hneg]
    exact iff_of_true rfl (by omega)
  · rw [if_neg hneg, List.getElem?_eq_getElem (by omega)]
    refine iff_of_false (fun h => ?_) (by omega)
    dsimp only at h
    split at h
    · cases h
    · cases h

theorem create_none_iff {m : FdManager} {fd : Int} {fstat : Option Bool} :
    m.create fd fstat = none ↔ ¬(0 ≤ fd ∧ (m.size ≤ fd → 2 ≤ fd)) := by
  have hsize := Getting.size_le m
  rw [FdManager.create, ite_eq_right_iff]
  by_cases htested : m.size ≤ fd
  · simp only [if_pos htested, FdManager.resize, List.length_append, List.length_take,
      List.length_replicate]
    constructor
    · intro h hguard
      cases h ⟨hguard.1, by have := hguard.2 htested; omega⟩
    · intro h hin
      exact absurd ⟨hin.1, fun _ => by omega⟩ h
  · simp only [if_neg htested]
    constructor
    · intro h hguard
      cases h ⟨hguard.1, by omega⟩
    · intro h hin
      exact absurd ⟨hin.1, fun hle => absurd hle htested⟩ h

theorem del_none_iff {m : FdManager} {fd : Int} :
    m.del fd = none ↔ ¬(0 ≤ fd ∨ m.size ≤ fd) := by
  have hsize := Getting.size_le m
  rw [FdManager.del]
  by_cases htested : m.size ≤ fd
  · rw [if_pos htested]
    exact iff_of_false (fun h => by cases h) fun hnot => hnot (Or.inr htested)
  · rw [if_neg htested, or_iff_left htested, ite_eq_right_iff]
    constructor
    · intro h hpos
      cases h ⟨hpos, by omega⟩
    · exact fun h hin => absurd hin.1 h

/-! ## A step -/

namespace Tables

variable {s : Tables}

theorem index_undefined (s : Tables) (size : Nat) (fd : Int) :
    (s.index size fd).undefined = false ↔ inside size fd = true := by
  rw [index, Bool.not_eq_false']

theorem addEvent_undefined (h : s.undefined = false) (thread : Nat) (call : AddCall) (ok : Bool) :
    (s.addEvent thread call ok).undefined = false ↔ 0 ≤ call.fd ∨ s.w.tableSize ≤ call.fd := by
  rw [addEvent]
  by_cases htested : s.w.tableSize > call.fd
  · rw [if_pos htested, or_iff_left (Int.not_le.mpr htested), ← inside_of_tested htested]
    exact index_undefined s _ _
  · rw [if_neg htested]
    exact iff_of_true h (Or.inr (Int.not_lt.mp htested))

theorem grow_undefined (thread : Nat) (call : AddCall) (ok : Bool) :
    (s.grow thread call ok).undefined = false ↔ 2 ≤ call.fd := by
  rw [← inside_of_grown s.w call.fd]
  exact index_undefined s _ _

theorem manager_undefined (h : s.undefined = false) (a : IOManager.Act) (w : World) :
    (s.manager a w).undefined = false ↔ ∀ fd ∈ removed a, 0 ≤ fd ∨ s.w.tableSize ≤ fd := by
  rw [manager]
  cases removed a with
  | none => exact iff_of_true h fun fd hfd => by cases hfd
  | some fd =>
      have hall : (∀ fd' ∈ some fd, 0 ≤ fd' ∨ s.w.tableSize ≤ fd') ↔
          0 ≤ fd ∨ s.w.tableSize ≤ fd := by
        simp only [Option.mem_some_iff, forall_eq']
      rw [hall]
      dsimp only
      by_cases htested : s.w.tableSize ≤ fd
      · rw [if_pos htested]
        exact iff_of_true h (Or.inr htested)
      · rw [if_neg htested, or_iff_left htested, ← inside_of_tested (Int.not_le.mp htested)]
        exact index_undefined s _ _

theorem get_undefined (h : s.undefined = false) (thread : Nat) (fd : Int) (auto_create : Bool) :
    (s.get thread fd auto_create).undefined = false ↔ -1 ≤ fd ∨ s.m.size ≤ fd := by
  have hiff : s.m.lookup fd auto_create ≠ .undefined ↔ -1 ≤ fd ∨ s.m.size ≤ fd := by
    rw [ne_eq, lookup_undefined_iff, Decidable.not_not]
  rw [get, ← hiff]
  cases s.m.lookup fd auto_create with
  | found ctx => exact iff_of_true h fun heq => by cases heq
  | create => exact iff_of_true h fun heq => by cases heq
  | undefined => exact iff_of_false (fun heq => by cases heq) fun hne => hne rfl

theorem create_undefined (h : s.undefined = false) (thread : Nat) (fd : Int)
    (fstat : Option Bool) :
    (s.create thread fd fstat).undefined = false ↔ 0 ≤ fd ∧ (s.m.size ≤ fd → 2 ≤ fd) := by
  have hiff : s.m.create fd fstat ≠ none ↔ 0 ≤ fd ∧ (s.m.size ≤ fd → 2 ≤ fd) := by
    rw [ne_eq, create_none_iff, Decidable.not_not]
  rw [create, ← hiff]
  cases s.m.create fd fstat with
  | none => exact iff_of_false (fun heq => by cases heq) fun hne => hne rfl
  | some m => exact iff_of_true h fun heq => by cases heq

theorem del_undefined (h : s.undefined = false) (fd : Int) :
    (s.del fd).undefined = false ↔ 0 ≤ fd ∨ s.m.size ≤ fd := by
  have hiff : s.m.del fd ≠ none ↔ 0 ≤ fd ∨ s.m.size ≤ fd := by
    rw [ne_eq, del_none_iff, Decidable.not_not]
  rw [del, ← hiff]
  cases s.m.del fd with
  | none => exact iff_of_false (fun heq => by cases heq) fun hne => hne rfl
  | some m => exact iff_of_true h fun heq => by cases heq

/-- A step indexes a table outside exactly when it is not guarded. -/
theorem step_undefined {s' : Tables} {a : TableAct} (h : s.undefined = false)
    (hstep : s.step a = some s') : s'.undefined = false ↔ s.Guarded a := by
  unfold step at hstep
  have hstep := (Option.ite_none_left_eq_some.mp hstep).2
  cases a with
  | addEvent thread call ok =>
      obtain ⟨-, heq⟩ := Option.ite_none_right_eq_some.mp hstep
      cases heq
      exact addEvent_undefined h thread call ok
  | grow thread ok =>
      obtain ⟨call, hcall, rfl⟩ := Option.map_eq_some_iff.mp hstep
      rw [grow_undefined, Guarded, hcall]
      simp only [Option.mem_some_iff, forall_eq']
  | manager a =>
      obtain ⟨-, heq⟩ := Option.ite_none_left_eq_some.mp hstep
      obtain ⟨w, -, rfl⟩ := Option.map_eq_some_iff.mp heq
      exact manager_undefined h a w
  | get thread fd auto_create =>
      obtain ⟨-, heq⟩ := Option.ite_none_right_eq_some.mp hstep
      cases heq
      exact get_undefined h thread fd auto_create
  | create thread fstat =>
      obtain ⟨fd, hfd, rfl⟩ := Option.map_eq_some_iff.mp hstep
      rw [create_undefined h, Guarded, hfd]
      simp only [Option.mem_some_iff, forall_eq']
  | del fd =>
      cases hstep
      exact del_undefined h fd

/-! ## Runs -/

/-- In a run of any calls on any descriptors no table is indexed outside exactly when every step is
guarded. -/
theorem indexed_inside_iff (as : List TableAct) :
    Throughout step (fun s => s.undefined = false) start as ↔
      Along step (fun s a _ => s.Guarded a) start as := by
  refine throughout_iff_along (J := fun _ => True) (Q := fun _ => True) (fun _ _ _ _ _ _ => trivial)
    ?_ (fun _ _ => trivial) trivial rfl
  intro s a s' _ _ h hstep
  exact step_undefined h hstep

/-- A descriptor for which a table is made that fits an `int`. -/
def bound : Int := 1431655766

/-- The calls are for such descriptors; `get` is called for -1 too. -/
def Descriptors : TableAct → Prop
  | .addEvent _ call _ => 0 ≤ call.fd ∧ call.fd < bound
  | .manager a => ∀ fd ∈ removed a, 0 ≤ fd
  | .get _ fd _ => -1 ≤ fd ∧ fd < bound
  | .del fd => 0 ≤ fd
  | _ => True

/-- The tables are not so small that 0 or 1 is outside, and fit an `int`. -/
structure Ample (s : Tables) : Prop where
  contexts : 3 ≤ s.w.m_fdContexts.length ∧ s.w.m_fdContexts.length < 2 ^ 31
  datas : 3 ≤ s.m.m_datas.length ∧ s.m.m_datas.length < 2 ^ 31
  adding : ∀ thread, ∀ call ∈ s.adding thread, 3 ≤ call.fd ∧ call.fd < bound
  getting : ∀ thread, ∀ fd ∈ s.getting thread, 0 ≤ fd ∧ fd < bound

theorem start_ample : start.Ample where
  contexts := by
    rw [start, IOManager.start, World.length_contextResize]
    decide
  datas := by decide
  adding _ _ h := by cases h
  getting _ _ h := by cases h

theorem mem_update {α : Type} {f : Nat → Option α} {thread thread' : Nat} {x : Option α} {a : α}
    (h : a ∈ Function.update f thread x thread') : a ∈ x ∨ a ∈ f thread' := by
  by_cases heq : thread' = thread
  · rw [heq, Function.update_self] at h
    exact Or.inl h
  · rw [Function.update_of_ne heq] at h
    exact Or.inr h

theorem addFetched_table (w : World) (call : AddCall) (ok : Bool) :
    (addFetched w call ok).m_fdContexts = w.m_fdContexts := by
  rw [addFetched]
  cases w.contextAt call.fd with
  | none => rfl
  | some p => exact (World.sameTable_addLocked w call.caller p call.fd call.event call.cb ok).table

theorem Ample.tableSize (h : s.Ample) : s.w.tableSize = s.w.m_fdContexts.length :=
  FdManager.Fits.size (m := ⟨s.w.m_fdContexts, []⟩) h.contexts.2

theorem length_create {m m' : FdManager} {fd : Int} {fstat : Option Bool}
    (h : m.create fd fstat = some m') :
    m'.m_datas.length = if m.size ≤ fd then 3 * fd.toNat / 2 else m.m_datas.length := by
  rw [FdManager.create, Option.ite_none_right_eq_some] at h
  cases Option.some.inj h.2
  rw [List.length_set]
  split
  · rw [FdManager.resize, List.length_append, List.length_take, List.length_replicate]
    omega
  · rfl

theorem Ample.addEvent (h : s.Ample) {thread : Nat} {call : AddCall} {ok : Bool}
    (hcall : call.fd < bound) : (s.addEvent thread call ok).Ample := by
  rw [Tables.addEvent]
  split
  · exact ⟨by rw [addFetched_table]; exact h.contexts, h.datas, h.adding, h.getting⟩
  next hgrow =>
    -- what is not in the table is not less than 3
    rw [h.tableSize] at hgrow
    have hleast := h.contexts.1
    refine ⟨h.contexts, h.datas, fun thread' call' hcall' => ?_, h.getting⟩
    rcases mem_update hcall' with hnew | hold
    · cases hnew
      exact ⟨by omega, hcall⟩
    · exact h.adding thread' call' hold

theorem Ample.grow (h : s.Ample) {thread : Nat} {call : AddCall} {ok : Bool}
    (hcall : 3 ≤ call.fd ∧ call.fd < bound) : (s.grow thread call ok).Ample := by
  obtain ⟨hleast, hbound⟩ := hcall
  rw [bound] at hbound
  refine ⟨?_, h.datas, fun thread' call' hcall' => ?_, h.getting⟩
  · rw [Tables.grow, addFetched_table, World.length_contextResize]
    omega
  · rcases mem_update hcall' with hnew | hold
    · cases hnew
    · exact h.adding thread' call' hold

theorem Ample.manager (h : s.Ample) (a : IOManager.Act) {w : World}
    (htable : w.m_fdContexts = s.w.m_fdContexts) : (s.manager a w).Ample := by
  have hcontexts : 3 ≤ w.m_fdContexts.length ∧ w.m_fdContexts.length < 2 ^ 31 := by
    rw [htable]
    exact h.contexts
  rw [Tables.manager]
  split
  · exact ⟨hcontexts, h.datas, h.adding, h.getting⟩
  · split
    · exact ⟨hcontexts, h.datas, h.adding, h.getting⟩
    · exact ⟨hcontexts, h.datas, h.adding, h.getting⟩

theorem Ample.get (h : s.Ample) {thread : Nat} {fd : Int} {auto_create : Bool}
    (hfd : -1 ≤ fd ∧ fd < bound) : (s.get thread fd auto_create).Ample := by
  rw [Tables.get]
  split
  · exact h
  next hcreate =>
    have hne : fd ≠ -1 := by
      rintro rfl
      cases hcreate
    obtain ⟨hleast, hbound⟩ := hfd
    refine ⟨h.contexts, h.datas, h.adding, fun thread' fd' hfd' => ?_⟩
    rcases mem_update hfd' with hnew | hold
    · cases hnew
      exact ⟨by omega, hbound⟩
    · exact h.getting thread' fd' hold
  · exact ⟨h.contexts, h.datas, h.adding, h.getting⟩

theorem Ample.create (h : s.Ample) {thread : Nat} {fd : Int} {fstat : Option Bool}
    (hfd : 0 ≤ fd ∧ fd < bound) : (s.create thread fd fstat).Ample := by
  obtain ⟨hpos, hbound⟩ := hfd
  obtain ⟨hleast, hfit⟩ := h.datas
  rw [bound] at hbound
  rw [Tables.create]
  split
  · exact ⟨h.contexts, h.datas, h.adding, h.getting⟩
  next m hm =>
    have hlen := length_create hm
    rw [FdManager.Fits.size hfit] at hlen
    refine ⟨h.contexts, ?_, h.adding, fun thread' fd' hfd' => ?_⟩
    · dsimp only
      rw [hlen]
      split
      · omega
      · exact ⟨hleast, hfit⟩
    · rcases mem_update hfd' with hnew | hold
      · cases hnew
      · exact h.getting thread' fd' hold

theorem Ample.del (h : s.Ample) (fd : Int) : (s.del fd).Ample := by
  rw [Tables.del]
  split
  · exact ⟨h.contexts, h.datas, h.adding, h.getting⟩
  next m hm =>
    obtain ⟨-, hlen, -⟩ := FdManager.del_spec hm
    exact ⟨h.contexts, by rw [hlen]; exact h.datas, h.adding, h.getting⟩

/-- Calls for descriptors keep the tables so. -/
theorem Ample.step {s' : Tables} {a : TableAct} (h : s.Ample) (ha : Descriptors a)
    (hstep : s.step a = some s') : s'.Ample := by
  unfold Tables.step at hstep
  have hstep := (Option.ite_none_left_eq_some.mp hstep).2
  cases a with
  | addEvent thread call ok =>
      obtain ⟨-, heq⟩ := Option.ite_none_right_eq_some.mp hstep
      cases heq
      exact h.addEvent ha.2
  | grow thread ok =>
      obtain ⟨call, hcall, rfl⟩ := Option.map_eq_some_iff.mp hstep
      exact h.grow (h.adding thread call hcall)
  | manager a =>
      obtain ⟨hadds, heq⟩ := Option.ite_none_left_eq_some.mp hstep
      obtain ⟨w, hw, rfl⟩ := Option.map_eq_some_iff.mp heq
      exact h.manager a (World.sameTable_step hadds hw).table
  | get thread fd auto_create =>
      obtain ⟨-, heq⟩ := Option.ite_none_right_eq_some.mp hstep
      cases heq
      exact h.get ha
  | create thread fstat =>
      obtain ⟨fd, hfd, rfl⟩ := Option.map_eq_some_iff.mp hstep
      exact h.create (h.getting thread fd hfd)
  | del fd =>
      cases hstep
      exact h.del fd

theorem Ample.guarded (h : s.Ample) {a : TableAct} (ha : Descriptors a) : s.Guarded a := by
  cases a with
  | addEvent thread call ok => exact Or.inl ha.1
  | grow thread ok =>
      intro call hcall
      have := (h.adding thread call hcall).1
      omega
  | manager a => exact fun fd hfd => Or.inl (ha fd hfd)
  | get thread fd auto_create => exact Or.inl ha.1
  | create thread fstat =>
      intro fd hfd
      have hleast := h.datas.1
      refine ⟨(h.getting thread fd hfd).1, fun hsize => ?_⟩
      rw [FdManager.Fits.size h.datas.2] at hsize
      omega
  | del fd => exact Or.inl ha

/-- Calls for descriptors that are not negative and not enormous index no table outside. -/
theorem inside_of_descriptors {as : List TableAct} (h : ∀ a ∈ as, Descriptors a) :
    Throughout step (fun s => s.undefined = false ∧ s.Ample) start as := by
  refine throughout_of_invariant ?_ h ⟨rfl, start_ample⟩
  rintro s a s' ha ⟨hdefined, hample⟩ hstep
  exact ⟨(step_undefined hdefined hstep).mpr (hample.guarded ha), hample.step ha hstep⟩

/-- A socket that is closed cancels what it waits for. -/
theorem closed_socket_outside :
    ¬∀ as : List TableAct, Throughout step (fun s => s.undefined = false) start as := by
  intro h
  obtain ⟨s, hrun, hundefined⟩ : ∃ s, exec step start [cancelAll (-1) true] = some s ∧
      s.undefined = true := ⟨_, rfl, rfl⟩
  have hinside := (h [cancelAll (-1) true]).final hrun
  rw [hundefined] at hinside
  cases hinside

end Tables

end Hook

end Muqiu
