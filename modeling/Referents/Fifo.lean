/-!
# Queues

A queue gives its items in the order in which it took them.  The items that
came last are kept the other way round, so that both ends are at hand.

* `Fifo.toList_enqueue` — a new item goes to the end.
* `Fifo.dequeue_fst`, `Fifo.toList_dequeue` — the item at the front is taken.
-/

namespace Referents

/-- A queue of items. -/
structure Fifo (α : Type) where
  /-- The items that are taken next, in order. -/
  front : List α := []
  /-- The items after those, the newest one first. -/
  back : List α := []
deriving DecidableEq

namespace Fifo

variable {α : Type}

/-- The items, oldest first. -/
def toList (q : Fifo α) : List α := q.front ++ q.back.reverse

/-- How many items wait. -/
def size (q : Fifo α) : Nat := q.front.length + q.back.length

/-- Whether no item waits. -/
def isEmpty (q : Fifo α) : Bool := q.front.isEmpty && q.back.isEmpty

/-- Puts an item at the end. -/
def enqueue (q : Fifo α) (a : α) : Fifo α := { q with back := a :: q.back }

/-- Takes the item at the front. -/
def dequeue (q : Fifo α) : Option α × Fifo α :=
  match q.front with
  | a :: rest => (some a, { q with front := rest })
  | [] =>
      match q.back.reverse with
      | a :: rest => (some a, ⟨rest, []⟩)
      | [] => (none, q)

@[simp] theorem length_toList (q : Fifo α) : q.toList.length = q.size := by
  simp [toList, size]

@[simp] theorem toList_enqueue (q : Fifo α) (a : α) :
    (q.enqueue a).toList = q.toList ++ [a] := by
  simp [toList, enqueue]

theorem isEmpty_iff (q : Fifo α) : q.isEmpty ↔ q.toList = [] := by
  simp [isEmpty, toList]

theorem dequeue_fst (q : Fifo α) : q.dequeue.1 = q.toList.head? := by
  obtain ⟨front, back⟩ := q
  cases front with
  | cons a rest => rfl
  | nil =>
      simp only [dequeue, toList, List.nil_append]
      cases back.reverse <;> rfl

theorem toList_dequeue (q : Fifo α) : q.dequeue.2.toList = q.toList.tail := by
  obtain ⟨front, back⟩ := q
  cases front with
  | cons a rest => rfl
  | nil =>
      simp only [dequeue, toList, List.nil_append]
      cases h : back.reverse with
      | nil => simp [h]
      | cons a rest => simp

end Fifo

end Referents
