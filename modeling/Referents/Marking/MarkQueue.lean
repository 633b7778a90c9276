import Referents.Fifo
import Referents.Handle
import Referents.Word

/-!
# Mark queues

The objects that are marked but whose edges have not been followed wait in a
queue, first in, first out.  The queue counts what it took and what it gave.

* `MarkQueue.items_push` — a new object goes to the end.
* `MarkQueue.pop_fst`, `MarkQueue.items_pop` — the object at the front is taken.
-/

namespace Referents

/-- A queue of grey objects. -/
structure MarkQueue where
  waiting : Fifo Handle := {}
  /-- How many objects were ever put in. -/
  enqueued : Nat := 0
  /-- How many objects were ever taken out. -/
  processed : Nat := 0
deriving DecidableEq

namespace MarkQueue

/-- Puts an object at the end. -/
def push (q : MarkQueue) (o : Handle) : MarkQueue :=
  { q with waiting := q.waiting.enqueue o, enqueued := wrapCount (q.enqueued + 1) }

/-- Takes the object at the front. -/
def pop (q : MarkQueue) : Option Handle × MarkQueue :=
  match q.waiting.dequeue with
  | (none, _) => (none, q)
  | (some o, waiting) => (some o, { q with waiting, processed := wrapCount (q.processed + 1) })

/-- The objects that wait, in order. -/
def items (q : MarkQueue) : List Handle := q.waiting.toList

/-- Whether nothing waits. -/
def isEmpty (q : MarkQueue) : Bool := q.waiting.isEmpty

/-- How many objects wait. -/
def size (q : MarkQueue) : Nat := q.waiting.size

/-- The queue and its counts as they were at first. -/
def clear (_ : MarkQueue) : MarkQueue := {}

@[simp] theorem items_push (q : MarkQueue) (o : Handle) : (q.push o).items = q.items ++ [o] :=
  Fifo.toList_enqueue q.waiting o

theorem pop_fst (q : MarkQueue) : q.pop.1 = q.items.head? := by
  have h := Fifo.dequeue_fst q.waiting
  unfold pop
  split <;> simp_all [items]

theorem items_pop (q : MarkQueue) : q.pop.2.items = q.items.tail := by
  have hf := Fifo.dequeue_fst q.waiting
  have hr := Fifo.toList_dequeue q.waiting
  unfold pop
  split
  · next h =>
      have hn : q.items = [] := List.head?_eq_none_iff.mp (by simpa [h, items] using hf.symm)
      simp [hn]
  · simp_all [items]

end MarkQueue

end Referents
