import Muqiu.Lib.TicketQueue
import Muqiu.Scheduler.Model

/-!
# The task queue

A ledger is kept along with a scheduler: every task gets a ticket when it is queued, by
`schedule` or by a worker that queues a fiber again, and a worker's scan takes the ticket of
its task.  The ledger decides nothing; its queue is `m_fibers` in every state.

So in every run a task is taken at most once and by a worker it is not pinned away from, none
disappears, tasks passed over keep their order, every scan takes the first task it may, and
the counter is the number of workers with a task not accounted for.
-/

namespace Muqiu

open Runs TicketQueue

namespace Scheduler

/-! ## Taking the first -/

theorem takeFirst_eq (p : FiberAndThread → Bool) (fts : List FiberAndThread) :
    takeFirst p fts = (fts.find? p).map fun ft => (ft, fts.eraseP p) := by
  induction fts with
  | nil => rfl
  | cons ft fts ih =>
      rw [takeFirst, List.find?_cons, List.eraseP_cons]
      cases hp : p ft with
      | true => rfl
      | false =>
          rw [if_neg Bool.false_ne_true, ih]
          cases fts.find? p <;> rfl

/-! ## A scheduler with its ledger -/

/-- Takers are thread ids. -/
structure Booked where
  s : Scheduler
  book : Ledger FiberAndThread Int

/-- What a step does to the ledger. -/
def record (s : Scheduler) (book : Ledger FiberAndThread Int) :
    Act → Ledger FiberAndThread Int
  | .schedule fts => book.push (fts.filter fun ft => ft.fiber.isSome || ft.cb.isSome)
  | .advance i =>
      match s.workers[i]? with
      | none => book
      | some w =>
          match w.phase with
          | .scan => book.take (s.eligible w.thread) w.thread
          | .requeue f _ => book.push [⟨some f, none, -1⟩]
          | _ => book
  | _ => book

namespace Booked

/-- A step, and its entry in the ledger. -/
def step (b : Booked) (a : Act) : Option Booked :=
  (b.s.step a).map fun s' => ⟨s', record b.s b.book a⟩

/-- A scheduler with nothing on record. -/
def start (s : Scheduler) : Booked := ⟨s, Ledger.empty⟩

/-- The discipline of the queue, in one state. -/
structure Disciplined (b : Booked) : Prop where
  queue : b.s.m_fibers = b.book.queue
  /-- Tickets in the queue increase. -/
  sorted : b.book.queued.Pairwise (· < ·)
  /-- Every ticket is in the queue or was taken, once. -/
  account : (b.book.queued ++ b.book.taken.map Prod.fst).Perm
    (List.range b.book.issued.length)
  /-- Who took it may run it. -/
  pinned : ∀ taken ∈ b.book.taken, ∃ ft, b.book.issued[taken.1]? = some ft ∧
    (ft.thread_id = -1 ∨ ft.thread_id = taken.2)
  counted : b.s.Counted

/-- Worker `w` takes ticket `k`: it may run the task, no smaller ticket in the queue is one of
a task it may run, and the other tickets stay as they are. -/
structure TakesFirst (b b' : Booked) (i : Nat) (w : Worker) (k : Nat) (ft : FiberAndThread) :
    Prop where
  queued : k ∈ b.book.queued
  entry : b.book.issued[k]? = some ft
  eligible : b.s.eligible w.thread ft = true
  first : ∀ j ∈ b.book.queued, ∀ ft', b.book.issued[j]? = some ft' →
    b.s.eligible w.thread ft' = true → k ≤ j
  rest : b'.book.queued = b.book.queued.erase k
  taken : b'.book.taken = b.book.taken ++ [(k, w.thread)]
  worker : b'.s.workers[i]? = some { w with phase := .taken ft }

/-- What a step may do to the queue.  A scan takes the first task the worker may run, or
there is none; any other step takes none off. -/
def Fair (b : Booked) (a : Act) (b' : Booked) : Prop :=
  (∀ i w, a = .advance i → b.s.workers[i]? = some w → w.phase = .scan →
    (∃ k ft, TakesFirst b b' i w k ft) ∨
      (∀ ft ∈ b.s.m_fibers, b.s.eligible w.thread ft = false) ∧ b'.book = b.book) ∧
  ((∀ i w, a = .advance i → b.s.workers[i]? = some w → w.phase ≠ .scan) →
    b'.book.taken = b.book.taken ∧ b.book.queued <+: b'.book.queued)

/-! ## One step -/

/-- Which tasks a worker's step takes off the queue or puts behind it. -/
theorem advance_fibers {s t : Scheduler} {i : Nat} {w : Worker} (h : s.advance i w = some t) :
    t.m_fibers =
      match w.phase with
      | .scan => s.m_fibers.eraseP (s.eligible w.thread)
      | .requeue f _ => s.m_fibers ++ [⟨some f, none, -1⟩]
      | _ => s.m_fibers := by
  cases advance_cases h with
  | scan hphase =>
      rw [hphase, scan, takeFirst_eq]
      cases hfind : s.m_fibers.find? (s.eligible w.thread) with
      | none => exact (List.eraseP_of_forall_not (List.find?_eq_none.mp hfind)).symm
      | some ft => rfl
  | begin ft hphase =>
      rw [hphase, begin]
      split
      · rfl
      · cases w.cb_fiber <;> rfl
      · rfl
  | enter f own hphase => rw [hphase]; rfl
  | account f own hphase => rw [hphase]; rfl
  | look f own hphase =>
      rw [hphase, look]
      split
      · rfl
      · split
        · cases own <;> rfl
        · rfl
  | requeue f own hphase => rw [hphase]; rfl
  | hold f own hphase => rw [hphase]; rfl
  | idle hphase =>
      rw [hphase, goIdle]
      split <;> rfl

theorem Disciplined.valid {b : Booked} (h : b.Disciplined) : b.book.Valid :=
  ⟨h.sorted, h.account⟩

theorem pinned_push {book : Ledger FiberAndThread Int} {fts : List FiberAndThread}
    (h : ∀ taken ∈ book.taken, ∃ ft, book.issued[taken.1]? = some ft ∧
      (ft.thread_id = -1 ∨ ft.thread_id = taken.2)) :
    ∀ taken ∈ (book.push fts).taken, ∃ ft, (book.push fts).issued[taken.1]? = some ft ∧
      (ft.thread_id = -1 ∨ ft.thread_id = taken.2) := by
  intro taken htaken
  obtain ⟨ft, hget, hpin⟩ := h taken htaken
  obtain ⟨hlt, _⟩ := List.getElem?_eq_some_iff.mp hget
  exact ⟨ft, (List.getElem?_append_left hlt).trans hget, hpin⟩

/-- Putting tasks behind the queue, in the scheduler and in the ledger. -/
theorem Disciplined.push {b : Booked} (h : b.Disciplined) {t : Scheduler}
    {fts : List FiberAndThread} (hqueue : t.m_fibers = b.s.m_fibers ++ fts)
    (hcounted : t.Counted) : Disciplined ⟨t, b.book.push fts⟩ where
  queue := by
    show t.m_fibers = (b.book.push fts).queue
    rw [hqueue, h.queue, Ledger.queue_push h.valid]
  sorted := (h.valid.push fts).sorted
  account := (h.valid.push fts).account
  pinned := pinned_push h.pinned
  counted := hcounted

theorem scan_fibers (s : Scheduler) (i : Nat) (w : Worker) :
    (s.scan i w).m_fibers = s.m_fibers.eraseP (s.eligible w.thread) := by
  rw [Scheduler.scan, takeFirst_eq]
  cases hfind : s.m_fibers.find? (s.eligible w.thread) with
  | none => exact (List.eraseP_of_forall_not (List.find?_eq_none.mp hfind)).symm
  | some ft => rfl

/-- The scan, in the scheduler and in the ledger. -/
theorem Disciplined.scan {b : Booked} (h : b.Disciplined) {i : Nat} {w : Worker}
    (hw : b.s.workers[i]? = some w) (hcounted : (b.s.scan i w).Counted) :
    Disciplined ⟨b.s.scan i w, b.book.take (b.s.eligible w.thread) w.thread⟩ ∧
      ((∃ k ft, TakesFirst b ⟨b.s.scan i w, b.book.take (b.s.eligible w.thread) w.thread⟩
          i w k ft) ∨
        (∀ ft ∈ b.s.m_fibers, b.s.eligible w.thread ft = false) ∧
          b.book.take (b.s.eligible w.thread) w.thread = b.book) := by
  have hqueue := scan_fibers b.s i w
  have hvalid := h.valid.take (b.s.eligible w.thread) w.thread
  have hbook := Ledger.queue_take b.book (b.s.eligible w.thread) w.thread
  rw [← h.queue, ← hqueue] at hbook
  have hfind := Ledger.find?_queue b.book (b.s.eligible w.thread)
  rw [← h.queue] at hfind
  cases hk : b.book.queued.find? (b.book.suits (b.s.eligible w.thread)) with
  | none =>
      rw [hk] at hfind
      have hsame : b.book.take (b.s.eligible w.thread) w.thread = b.book := by
        rw [Ledger.take, hk]
      rw [hsame] at hvalid hbook ⊢
      refine ⟨⟨hbook.symm, hvalid.sorted, hvalid.account, h.pinned, hcounted⟩,
        Or.inr ⟨?_, rfl⟩⟩
      intro ft hft
      exact Bool.eq_false_iff.mpr (List.find?_eq_none.mp hfind ft hft)
  | some k =>
      obtain ⟨hmem, hsuits, herase, hfirst⟩ := h.valid.taken_first hk
      obtain ⟨ft, hft, heligible⟩ := Ledger.suits_iff.mp hsuits
      have htake : b.book.take (b.s.eligible w.thread) w.thread =
          { b.book with
            queued := b.book.queued.erase k
            taken := b.book.taken ++ [(k, w.thread)] } := by
        rw [Ledger.take, hk, ← herase]
      have hscan : (b.s.scan i w).workers[i]? = some { w with phase := .taken ft } := by
        rw [hk] at hfind
        have hfind' : b.s.m_fibers.find? (b.s.eligible w.thread) = some ft := hfind.trans hft
        rw [Scheduler.scan, takeFirst_eq, hfind']
        exact List.getElem?_set_self (List.getElem?_eq_some_iff.mp hw).1
      rw [htake] at hvalid hbook ⊢
      refine ⟨⟨hbook.symm, hvalid.sorted, hvalid.account, ?_, hcounted⟩,
        Or.inl ⟨k, ft, hmem, hft, heligible, ?_, rfl, rfl, hscan⟩⟩
      · intro taken htaken
        rcases List.mem_append.mp htaken with hold | hnew
        · exact h.pinned taken hold
        · obtain rfl := List.mem_singleton.mp hnew
          refine ⟨ft, hft, ?_⟩
          rw [Scheduler.eligible, Bool.and_eq_true, Bool.or_eq_true, decide_eq_true_iff,
            decide_eq_true_iff] at heligible
          exact heligible.1
      · exact fun j hj ft' hft' heligible' =>
          hfirst j hj (Ledger.suits_iff.mpr ⟨ft', hft', heligible'⟩)

/-- A step that leaves the queue alone. -/
theorem Disciplined.same {b : Booked} (h : b.Disciplined) {t : Scheduler}
    (hqueue : t.m_fibers = b.s.m_fibers) (hcounted : t.Counted) : Disciplined ⟨t, b.book⟩ :=
  ⟨hqueue.trans h.queue, h.sorted, h.account, h.pinned, hcounted⟩

/-- A step that is no scan takes none off the queue. -/
theorem fair_of_not_scan {b b' : Booked} {a : Act}
    (hscan : ∀ i w, a = .advance i → b.s.workers[i]? = some w → w.phase ≠ .scan)
    (htaken : b'.book.taken = b.book.taken) (hqueued : b.book.queued <+: b'.book.queued) :
    Fair b a b' :=
  ⟨fun i w ha hw hphase => absurd hphase (hscan i w ha hw), fun _ => ⟨htaken, hqueued⟩⟩

/-- A step of `run` keeps the discipline and is fair. -/
theorem Disciplined.advance {b : Booked} {t : Scheduler} {i : Nat} {w : Worker}
    (h : b.Disciplined) (hw : b.s.workers[i]? = some w) (hadv : b.s.advance i w = some t)
    (hcounted : t.Counted) :
    Fair b (.advance i) ⟨t, record b.s b.book (.advance i)⟩ ∧
      Disciplined ⟨t, record b.s b.book (.advance i)⟩ := by
  have hfibers := advance_fibers hadv
  have hsame : ∀ {i' : Nat} {w' : Worker}, Act.advance i = .advance i' →
      b.s.workers[i']? = some w' → w' = w := by
    rintro i' w' hi hw'
    cases hi
    exact Option.some.inj (hw'.symm.trans hw)
  by_cases hscan : w.phase = .scan
  · have ht : t = b.s.scan i w := by
      rw [Scheduler.advance, hscan] at hadv
      exact (Option.some.inj hadv).symm
    have hrecord : record b.s b.book (.advance i) =
        b.book.take (b.s.eligible w.thread) w.thread := by
      simp only [record, hw, hscan]
    subst ht
    rw [hrecord]
    obtain ⟨hdisciplined, hfirst⟩ := h.scan hw hcounted
    refine ⟨⟨?_, fun hnot => absurd hscan (hnot i w rfl hw)⟩, hdisciplined⟩
    intro i' w' hi hw' _
    obtain rfl := hsame hi hw'
    cases hi
    exact hfirst
  · have hnot : ∀ i' w', Act.advance i = .advance i' → b.s.workers[i']? = some w' →
        w'.phase ≠ .scan := by
      intro i' w' hi hw'
      rw [hsame hi hw']
      exact hscan
    by_cases hrequeue : ∃ f own, w.phase = .requeue f own
    · obtain ⟨f, own, hphase⟩ := hrequeue
      have hrecord : record b.s b.book (.advance i) = b.book.push [⟨some f, none, -1⟩] := by
        simp only [record, hw, hphase]
      rw [hphase] at hfibers
      rw [hrecord]
      exact ⟨fair_of_not_scan hnot rfl (List.prefix_append _ _), h.push hfibers hcounted⟩
    · have hrecord : record b.s b.book (.advance i) = b.book := by
        cases hphase : w.phase with
        | scan => exact absurd hphase hscan
        | requeue f own => exact absurd ⟨f, own, hphase⟩ hrequeue
        | _ => simp only [record, hw, hphase]
      have hfibers' : t.m_fibers = b.s.m_fibers := by
        cases hphase : w.phase with
        | scan => exact absurd hphase hscan
        | requeue f own => exact absurd ⟨f, own, hphase⟩ hrequeue
        | _ => rw [hfibers, hphase]
      rw [hrecord]
      exact ⟨fair_of_not_scan hnot rfl List.prefix_rfl, h.same hfibers' hcounted⟩

/-- Every step keeps the discipline and is fair. -/
theorem Disciplined.step {b b' : Booked} {a : Act} (h : b.Disciplined)
    (hstep : Booked.step b a = some b') : Fair b a b' ∧ b'.Disciplined := by
  obtain ⟨t, ht, rfl⟩ := Option.map_eq_some_iff.mp hstep
  have hcounted := step_counted h.counted ht
  cases step_cases ht with
  | schedule fts =>
      exact ⟨fair_of_not_scan (by rintro _ _ ⟨⟩) rfl (List.prefix_append _ _),
        h.push rfl hcounted⟩
  | advance i w hw hadv => exact h.advance hw hadv hcounted
  | setState i st w f own hw hphase hended =>
      exact ⟨fair_of_not_scan (by rintro _ _ ⟨⟩) rfl List.prefix_rfl, h.same rfl hcounted⟩
  | swapOut i w f own hw hphase =>
      exact ⟨fair_of_not_scan (by rintro _ _ ⟨⟩) rfl List.prefix_rfl, h.same rfl hcounted⟩
  | idleOut i st w hw hphase =>
      exact ⟨fair_of_not_scan (by rintro _ _ ⟨⟩) rfl List.prefix_rfl, h.same rfl hcounted⟩
  | stop =>
      exact ⟨fair_of_not_scan (by rintro _ _ ⟨⟩) rfl List.prefix_rfl, h.same rfl hcounted⟩

theorem start_disciplined (threads : List Int) (n : Nat) (state : Nat → FiberState) :
    (Booked.start (startWith threads n state)).Disciplined where
  queue := rfl
  sorted := Ledger.empty_valid.sorted
  account := Ledger.empty_valid.account
  pinned := by
    intro taken htaken
    cases htaken
  counted := start_counted threads

/-- In every run, over any threads and any fibers in any states. -/
theorem queue_discipline (threads : List Int) (n : Nat) (state : Nat → FiberState)
    (as : List Act) :
    Throughout Booked.step Disciplined (Booked.start (startWith threads n state)) as ∧
      Along Booked.step Fair (Booked.start (startWith threads n state)) as := by
  have hstart := start_disciplined threads n state
  have hall : ∀ a ∈ as, True := fun _ _ => trivial
  exact ⟨throughout_of_step (fun _ _ _ h hstep => (h.step hstep).2) hstart as,
    along_of_invariant (fun _ _ _ _ h hstep => (Disciplined.step h hstep).2)
      (fun _ _ _ _ h hstep => (Disciplined.step h hstep).1) hall hstart⟩

end Booked

end Scheduler

end Muqiu
