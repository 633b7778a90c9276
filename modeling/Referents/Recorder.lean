import Referents.Marking.Marker

/-!
# Recording collectors

A recorder is a marker that keeps a record of what processing asks of it: the
phases and units that were announced, the targets that were to be kept alive,
the links that were stored, and how often the work was to be finished.
-/

namespace Referents

/-- A phase that was announced, and the units that were begun in it. -/
structure PhaseRecord where
  queues : Nat
  multi : Bool
  marksAlive : Bool
  /-- The queue and the worker id of each unit. -/
  units : List (Nat × Option Nat) := []
deriving DecidableEq

/-- A marker and the record. -/
structure Recorder where
  marker : Marker
  phases : List PhaseRecord := []
  kept : Fifo LinkAddr := {}
  stores : Fifo (LinkAddr × Option Handle) := {}
  completions : Nat := 0
deriving DecidableEq

namespace Recorder

/-- The recorder of a marker, with an empty record. -/
def start (marker : Marker) : Recorder := { marker }

/-- A computation of the marker. -/
def onMarker {α : Type} (x : Act Marker α) : Act Recorder α :=
  x.within Recorder.marker fun r marker => { r with marker }

/-- Records a phase. -/
def prepare (queues : Nat) (multi marksAlive : Bool) (r : Recorder) : Recorder :=
  { r with phases := r.phases ++ [{ queues, multi, marksAlive }] }

/-- Records a unit of the last phase. -/
def enterUnit (queue : Nat) (worker : Option Nat) (r : Recorder) : Recorder :=
  let note := fun (p : PhaseRecord) => { p with units := p.units ++ [(queue, worker)] }
  { r with phases := r.phases.modify (r.phases.length - 1) note }

/-- Records a store. -/
def recordStore (a : LinkAddr) (value : Option Handle) : Act Recorder Unit :=
  Act.updateCollector fun r => { r with stores := r.stores.enqueue (a, value) }

/-- Records a target that is to be kept alive. -/
def recordKept (a : LinkAddr) : Act Recorder Unit :=
  Act.updateCollector fun r => { r with kept := r.kept.enqueue a }

/-- The marker's hooks; only phases and units are recorded. -/
def watching : Hooks Recorder :=
  { Marker.hooks.within Recorder.marker (fun r marker => { r with marker }) with
    prepare := prepare
    enterUnit := enterUnit }

/-- Hooks that record everything.  What is alive is told by `alive`, or else by
the marker; the marker does the rest of its work only if `marking`. -/
def recording (alive : Option (Handle → Bool)) (marking : Bool) : Hooks Recorder where
  isAlive o :=
    match alive with
    | some p => pure (p o)
    | none => onMarker (Marker.isMarked o)
  keepAlive a := do
    recordKept a
    if marking then onMarker (Marker.keepAlive a)
  enqueue := barrierEnqueue recordStore
  complete := do
    Act.updateCollector fun r => { r with completions := r.completions + 1 }
    if marking then onMarker Marker.drain
  prepare := prepare
  enterUnit := enterUnit

end Recorder

end Referents
