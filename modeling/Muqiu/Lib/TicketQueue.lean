import Mathlib.Data.List.Basic
import Mathlib.Data.List.Perm.Basic
import Mathlib.Data.List.Range

/-!
# Queues with tickets

A queue from which a taker takes the first entry that suits it.  A `Ledger` gives every entry
a ticket, in the order in which the entries come, and keeps which tickets are in the queue
and which were taken, and by whom.  It is kept along with a queue and decides nothing: `queue`
is the queue itself.

`Valid` says that the tickets in the queue increase, so that entries passed over keep their
order, and that every ticket issued is in the queue or taken, once.
-/

namespace TicketQueue

variable {α β : Type*}

/-- The account of a queue. -/
structure Ledger (α β : Type*) where
  /-- Every entry that came, in order.  Its ticket is its index. -/
  issued : List α
  /-- The tickets in the queue, from the front. -/
  queued : List Nat
  /-- The tickets taken, in order, with their takers. -/
  taken : List (Nat × β)

namespace Ledger

/-- Nothing drawn, nothing waiting and nothing served. -/
def empty : Ledger α β := ⟨[], [], []⟩

/-- The queue. -/
def queue (l : Ledger α β) : List α := l.queued.filterMap (l.issued[·]?)

/-- Entries come. -/
def push (l : Ledger α β) (xs : List α) : Ledger α β :=
  { l with
    issued := l.issued ++ xs
    queued := l.queued ++ List.range' l.issued.length xs.length }

/-- The entry of a ticket suits `p`. -/
def suits (l : Ledger α β) (p : α → Bool) (k : Nat) : Bool := (l.issued[k]?).any p

/-- Taker `b` takes the first entry that suits it, if there is one. -/
def take (l : Ledger α β) (p : α → Bool) (b : β) : Ledger α β :=
  match l.queued.find? (l.suits p) with
  | none => l
  | some k => { l with queued := l.queued.eraseP (l.suits p), taken := l.taken ++ [(k, b)] }

/-- Tickets in the queue increase, and every ticket is in the queue or taken, once. -/
structure Valid (l : Ledger α β) : Prop where
  sorted : l.queued.Pairwise (· < ·)
  account : (l.queued ++ l.taken.map Prod.fst).Perm (List.range l.issued.length)

/-! ## The queue of a ledger -/

theorem empty_valid : (empty : Ledger α β).Valid := ⟨List.Pairwise.nil, List.Perm.refl _⟩

theorem Valid.lt {l : Ledger α β} (h : l.Valid) {k : Nat} (hk : k ∈ l.queued) :
    k < l.issued.length :=
  List.mem_range.mp (h.account.subset (List.mem_append_left _ hk))

theorem filterMap_range_getElem? (xs : List α) :
    (List.range xs.length).filterMap (xs[·]?) = xs := by
  induction xs with
  | nil => rfl
  | cons x xs ih =>
      rw [List.length_cons, List.range_succ_eq_map, List.filterMap_cons, List.filterMap_map]
      exact congrArg (x :: ·) ih

theorem queue_push {l : Ledger α β} (h : l.Valid) (xs : List α) :
    (l.push xs).queue = l.queue ++ xs := by
  have hold : l.queued.filterMap ((l.issued ++ xs)[·]?) = l.queue := by
    apply List.filterMap_congr
    intro k hk
    exact List.getElem?_append_left (h.lt hk)
  have hnew : (List.range' l.issued.length xs.length).filterMap ((l.issued ++ xs)[·]?) = xs := by
    conv_rhs => rw [← filterMap_range_getElem? xs]
    rw [List.range'_eq_map_range, List.filterMap_map]
    apply List.filterMap_congr
    intro k _
    show (l.issued ++ xs)[l.issued.length + k]? = xs[k]?
    rw [List.getElem?_append_right (Nat.le_add_right _ _), Nat.add_sub_cancel_left]
  rw [queue, push, List.filterMap_append, hold, hnew]

theorem suits_iff {l : Ledger α β} {p : α → Bool} {k : Nat} :
    l.suits p k = true ↔ ∃ x, l.issued[k]? = some x ∧ p x = true :=
  Option.any_eq_true _ _

/-- The entry that suits first is the entry of the ticket that suits first. -/
theorem find?_queue (l : Ledger α β) (p : α → Bool) :
    l.queue.find? p = (l.queued.find? (l.suits p)).bind (l.issued[·]?) :=
  List.find?_filterMap

theorem queue_take (l : Ledger α β) (p : α → Bool) (b : β) :
    (l.take p b).queue = l.queue.eraseP p := by
  have herase : l.queue.eraseP p = (l.queued.eraseP (l.suits p)).filterMap (l.issued[·]?) :=
    List.eraseP_filterMap
  rw [herase, take]
  split
  next hnone =>
    rw [List.eraseP_of_forall_not (List.find?_eq_none.mp hnone), queue]
  next => rfl

/-! ## The account stays valid -/

theorem Valid.push {l : Ledger α β} (h : l.Valid) (xs : List α) : (l.push xs).Valid := by
  have hrange : List.range (l.issued ++ xs).length =
      List.range l.issued.length ++ List.range' l.issued.length xs.length := by
    rw [List.length_append, List.range_eq_range', List.range_eq_range',
      ← List.range'_append_1, Nat.zero_add]
  constructor
  · refine List.pairwise_append.mpr ⟨h.sorted, List.pairwise_lt_range', ?_⟩
    intro j hj k hk
    obtain ⟨hle, _⟩ := List.mem_range'_1.mp hk
    exact Nat.lt_of_lt_of_le (h.lt hj) hle
  · rw [Ledger.push, hrange, List.append_assoc]
    refine (List.Perm.append_left _ List.perm_append_comm).trans ?_
    rw [← List.append_assoc]
    exact h.account.append_right _

/-- The ticket taken, when one is: the others keep their order, and none of those that suit
is smaller. -/
theorem Valid.taken_first {l : Ledger α β} (h : l.Valid) {p : α → Bool} {k : Nat}
    (hk : l.queued.find? (l.suits p) = some k) :
    k ∈ l.queued ∧ l.suits p k = true ∧ l.queued.eraseP (l.suits p) = l.queued.erase k ∧
      ∀ j ∈ l.queued, l.suits p j = true → k ≤ j := by
  obtain ⟨hsuits, before, after, hsplit, hbefore⟩ := List.find?_eq_some_iff_append.mp hk
  have hsorted := h.sorted
  have hbefore' : ∀ j ∈ before, ¬l.suits p j = true := by
    intro j hj hsuits'
    have := hbefore j hj
    rw [hsuits'] at this
    cases this
  have hnot : k ∉ before := fun hmem => hbefore' k hmem hsuits
  rw [hsplit] at hsorted ⊢
  refine ⟨List.mem_append_right _ List.mem_cons_self, hsuits, ?_, ?_⟩
  · rw [List.eraseP_append_right _ hbefore', List.eraseP_cons_of_pos hsuits,
      List.erase_append_right _ hnot, List.erase_cons_head]
  · intro j hj hsuits'
    rcases List.mem_append.mp hj with hmem | hmem
    · exact absurd hsuits' (hbefore' j hmem)
    · rcases List.mem_cons.mp hmem with rfl | hafter
      · exact Nat.le_refl _
      · exact Nat.le_of_lt
          ((List.pairwise_cons.mp (List.pairwise_append.mp hsorted).2.1).1 j hafter)

theorem Valid.take {l : Ledger α β} (h : l.Valid) (p : α → Bool) (b : β) :
    (l.take p b).Valid := by
  rw [Ledger.take]
  split
  next => exact h
  next k hk =>
    obtain ⟨hmem, _, herase, _⟩ := h.taken_first hk
    rw [herase]
    refine ⟨h.sorted.sublist List.erase_sublist, ?_⟩
    refine List.Perm.trans ?_ h.account
    rw [List.map_append, List.map_singleton, ← List.append_assoc]
    refine (List.perm_append_singleton k _).trans ?_
    exact (List.perm_cons_erase hmem).symm.append_right _

end Ledger

end TicketQueue
