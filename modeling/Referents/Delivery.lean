import Referents.Fifo
import Referents.Heap.Chain
import Referents.Log.Journal

/-!
# Delivery

The handler takes the pending chain and hands out its references: final
references go to a finalizer together with their target, which is cleared
afterwards; all others go to a queue from which they can be polled.

A handler can also be left to work in the background.  It then gets to work
whenever somebody waits for a reference.  If it fails there, nobody is told
before the handler is stopped.
-/

namespace Referents

/-- The references that wait to be polled. -/
structure ReferenceQueue where
  waiting : Fifo Handle := {}
deriving DecidableEq

namespace ReferenceQueue

/-- The references, oldest first. -/
def items (q : ReferenceQueue) : List Handle := q.waiting.toList

/-- How many references wait. -/
def size (q : ReferenceQueue) : Nat := q.waiting.size

/-- Whether no reference waits. -/
def isEmpty (q : ReferenceQueue) : Bool := q.waiting.isEmpty

/-- Puts a reference at the end. -/
def enqueue (q : ReferenceQueue) (o : Handle) : ReferenceQueue := ⟨q.waiting.enqueue o⟩

/-- Takes the oldest reference. -/
def poll (q : ReferenceQueue) : Option Handle × ReferenceQueue :=
  let (o, waiting) := q.waiting.dequeue
  (o, ⟨waiting⟩)

@[simp] theorem items_enqueue (q : ReferenceQueue) (o : Handle) :
    (q.enqueue o).items = q.items ++ [o] :=
  Fifo.toList_enqueue q.waiting o

theorem poll_fst (q : ReferenceQueue) : q.poll.1 = q.items.head? := Fifo.dequeue_fst q.waiting

theorem items_poll (q : ReferenceQueue) : q.poll.2.items = q.items.tail :=
  Fifo.toList_dequeue q.waiting

end ReferenceQueue

/-- A call of the finalizer: the reference and its target. -/
structure Finalization where
  reference : Handle
  referent : Option Handle
deriving DecidableEq

/-- What a handler does in the background. -/
inductive Background where
  | stopped
  | running
  /-- It was running and failed. -/
  | failed
deriving DecidableEq

/-- The state of a handler. -/
structure Handler where
  queue : ReferenceQueue := {}
  /-- The calls of the finalizer, in order. -/
  finalizations : Fifo Finalization := {}
  /-- Passes that found something to hand out. -/
  batches : Nat := 0
  /-- References that went to the finalizer. -/
  finalized : Nat := 0
  /-- References that went to the queue. -/
  enqueued : Nat := 0
  background : Background := .stopped
deriving DecidableEq

namespace Handler

/-- Whether the handler was started and not stopped since. -/
def isRunning (handler : Handler) : Bool := handler.background != .stopped

/-- Calls the finalizer. -/
def finalize (handler : Handler) (call : Finalization) : Handler :=
  { handler with
    finalizations := handler.finalizations.enqueue call
    finalized := wrapCount (handler.finalized + 1) }

/-- Puts a reference into the queue. -/
def enqueue (handler : Handler) (o : Handle) : Handler :=
  { handler with
    queue := handler.queue.enqueue o
    enqueued := wrapCount (handler.enqueued + 1) }

/-- Hands out one reference. -/
def deliver (handler : Handler) (h : Heap) (o : Handle) : Except Fault (Handler × Heap) := do
  if (← h.kind o) = some .final then
    let call : Finalization := ⟨o, ← h.referent o⟩
    return (handler.finalize call, ← h.clearReferent o)
  else return (handler.enqueue o, h)

/-- Hands out several references, in order. -/
def deliverAll (handler : Handler) (h : Heap) (objects : List Handle) :
    Except Fault (Handler × Heap) :=
  objects.foldlM (fun (handler, h) o => handler.deliver h o) (handler, h)

/-- Lets the handler run in the background. -/
def start (handler : Handler) : Except Fault Handler :=
  if handler.isRunning then .error (.error .alreadyRunning)
  else .ok { handler with background := .running }

/-- The calls of the finalizer since the last time they were taken. -/
def takeFinalizations (handler : Handler) : List Finalization × Handler :=
  (handler.finalizations.toList, { handler with finalizations := {} })

end Handler

/-- A handler, the heap whose pending chain it takes, and the sink for its lines. -/
structure Delivery where
  handler : Handler
  heap : Heap
  sink : Sink

namespace Delivery

/-- Takes the pending chain and hands out its references; returns their number. -/
def processPending : EStateM Fault Delivery Nat := fun d =>
  match d.heap.takePending with
  | .error f heap => .error f { d with heap }
  | .ok [] heap => .ok 0 { d with heap }
  | .ok pending heap =>
      match d.handler.deliverAll heap pending with
      | .error f => .error f { d with heap }
      | .ok (handler, heap) =>
          let count := pending.length
          let line := s!"Reference handler processed {count} pending references"
          .ok count {
            handler := { handler with batches := wrapCount (handler.batches + 1) }
            heap := heap
            sink := d.sink.write .debug line }

/-- Replaces what the handler does in the background. -/
def withBackground (d : Delivery) (background : Background) : Delivery :=
  { d with handler := { d.handler with background } }

/-- What the handler does in the background while somebody waits. -/
def workInBackground (d : Delivery) : Delivery :=
  if d.handler.background = .running then
    match d.processPending with
    | .ok _ d => d
    | .error _ d => d.withBackground .failed
  else d

/-- Ends the work in the background, and hands out what is left.  If the
handler failed there, this is told now, and nothing is handed out. -/
def stop : EStateM Fault Delivery Unit := fun d =>
  match d.handler.background with
  | .stopped => .error (.error .notRunning) d
  | .failed => .error (.error .handlerFailed) (d.withBackground .stopped)
  | .running =>
      match (d.withBackground .stopped).processPending with
      | .ok _ d => .ok () d
      | .error f d => .error f d

/-- Takes the oldest reference from the queue. -/
def poll (d : Delivery) : Option Handle × Delivery :=
  let (o, queue) := d.handler.queue.poll
  (o, { d with handler := { d.handler with queue } })

/-- Takes the oldest reference from the queue, and waits a while if there is none. -/
def remove (d : Delivery) : Option Handle × Delivery :=
  if d.handler.queue.isEmpty then d.workInBackground.poll else d.poll

end Delivery

end Referents
