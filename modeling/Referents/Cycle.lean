import Referents.Collector
import Referents.Discovery
import Referents.Pool
import Referents.Timing.Timer

/-!
# The state of a collection cycle

A cycle works on the heap and the collector's state, on the processor, on the
times of the cycle, and on the sink that log lines go to.  What the clocks of
the host show, and in which order its threads are through with the units of a
phase, is not computed but read; the readings are parameters.
-/

namespace Referents

/-- The stretches of a cycle that are timed. -/
inductive Section where
  | whole
  | phase (p : Phase)
  | balancing (p : Phase)
  | queue (s : SubPhase) (index : Nat)
  | preclean (k : RefKind)
deriving DecidableEq

/-- What a cycle takes from the host. -/
structure Readings where
  /-- The time in milliseconds. -/
  now : Int := 0
  /-- The nanoseconds that a stretch takes. -/
  took : Section → Nat := fun _ => 0
  /-- The order in which threads are through with the units of a phase. -/
  order : Phase → (n : Nat) → UnitOrder n := fun _ => .byIndex

/-- Everything that a collection cycle works on. -/
structure Cycle (γ : Type) where
  world : World γ
  processor : Processor
  times : PhaseTimes
  sink : Sink

/-- The same cycle with another collector. -/
def Cycle.withCollector {γ δ : Type} (c : Cycle γ) (collector : δ) : Cycle δ :=
  { c with world := ⟨c.world.heap, collector⟩ }

/-- A computation on the state of a cycle. -/
abbrev Step (γ : Type) := EStateM Fault (Cycle γ)

/-- A computation on the state of a cycle that knows its worker. -/
abbrev Pass (γ : Type) := EStateM Fault (Threaded (Cycle γ))

namespace Step

variable {γ α : Type}

/-- A computation that may fail and changes nothing. -/
def ofExcept (x : Except Fault α) : Step γ α :=
  match x with
  | .ok a => pure a
  | .error e => throw e

/-- A computation on the heap and the collector. -/
def onWorld (x : Act γ α) : Step γ α := fun c =>
  match x c.world with
  | .ok a world => .ok a { c with world }
  | .error e world => .error e { c with world }

/-- The processor. -/
def processor : Step γ Processor := Cycle.processor <$> get

/-- Replaces the processor. -/
def setProcessor (p : Processor) : Step γ Unit := modify fun c => { c with processor := p }

/-- Changes the processor, which may fail. -/
def updateProcessor (f : Processor → Except Fault Processor) : Step γ Unit := do
  setProcessor (← ofExcept (f (← processor)))

/-- Changes the processor and the sink, which may fail. -/
def withSink (f : Processor → Sink → Except Fault (Processor × Sink)) : Step γ Unit := do
  let c ← get
  let (processor, sink) ← ofExcept (f c.processor c.sink)
  set { c with processor, sink }

/-- Changes the processor, the heap and the sink, which may fail. -/
def withHeap (f : Processor → Heap → Sink → Except Fault (Processor × Heap × Sink)) :
    Step γ Unit := do
  let c ← get
  let (processor, heap, sink) ← ofExcept (f c.processor c.world.heap c.sink)
  set { c with processor, sink, world := { c.world with heap } }

/-- Changes the times. -/
def updateTimes (f : PhaseTimes → PhaseTimes) : Step γ Unit :=
  modify fun c => { c with times := f c.times }

/-- Changes the times, which may fail. -/
def tryUpdateTimes (f : PhaseTimes → Except Fault PhaseTimes) : Step γ Unit := do
  let c ← get
  let times ← ofExcept (f c.times)
  set { c with times }

/-- Logs an event. -/
def log (e : Event) : Step γ Unit := withSink fun p sink => .ok (p.log sink e)

/-- Logs the lengths of the lists of a kind, where that would be seen. -/
def logLengths (label : String) (k : RefKind) : Step γ Unit :=
  withSink fun p sink => p.logLengths sink label k

/-- Writes a line that is no event. -/
def write (level : Level) (line : String) : Step γ Unit :=
  modify fun c => { c with sink := c.sink.write level line }

/-- Offers an object for discovery under the worker id `worker`. -/
def discover (worker : Option Nat) (o : Handle) (kind : Kind) : Step γ Bool := do
  let c ← get
  let offer ← ofExcept (c.processor.discover c.world.heap c.sink worker o kind)
  set { c with
    processor := offer.processor
    sink := offer.sink
    world := { c.world with heap := offer.heap } }
  return offer.accepted

/-- Runs a computation for another collector, which is made from the present
one and becomes it again. -/
def viaCollector {δ : Type} (enter : γ → δ) (leave : δ → γ) (x : Step δ α) : Step γ (α × δ) :=
  fun c =>
    match x (c.withCollector (enter c.world.collector)) with
    | .ok a d => .ok (a, d.world.collector) (d.withCollector (leave d.world.collector))
    | .error e d => .error e (d.withCollector (leave d.world.collector))

end Step

/-- Runs a pass for another collector, which is made from the present one and
becomes it again. -/
def Pass.viaCollector {γ δ α : Type} (enter : γ → δ) (leave : δ → γ) (x : Pass δ α) :
    Pass γ (α × δ) := fun t =>
  match x { t with state := t.state.withCollector (enter t.state.world.collector) } with
  | .ok a u =>
      let d := u.state.world.collector
      .ok (a, d) { u with state := u.state.withCollector (leave d) }
  | .error e u =>
      let d := u.state.world.collector
      .error e { u with state := u.state.withCollector (leave d) }

end Referents
