import Referents.Processor
import Referents.Timing.PhaseTimes

/-!
# The degree of parallelism of a phase

A phase with few references is not worth many threads.  Before a phase the
degree is narrowed to what its references justify, and after the phase it is
what it was before.
-/

namespace Referents

/-- Whether a phase runs on every available thread; a few final references can
keep a large graph alive. -/
def Phase.usesAllThreads (phase : Phase) : Bool := phase == .keepAliveFinal

/-- How many threads to use for `refs` references. -/
def threadCount (refs maxThreads : Nat) (phase : Phase) (refsPerThread processors : Nat) :
    Except Fault Nat :=
  if maxThreads = 0 then .error (.crash .noThreads)
  else if phase.usesAllThreads || refsPerThread = 0 then .ok maxThreads
  else do
    let wanted ← addCounts 1 (refs / refsPerThread)
    return min (min wanted maxThreads) processors

/-- A narrowed degree, and the degree to go back to. -/
structure Narrowed where
  saved : Nat
  processor : Processor

namespace Processor

/-- Narrows the degree for a phase with `refs` references, given how many
workers are active; without a pool there is one.  Nothing changes where
several workers could not share the queues anyway. -/
def narrow (p : Processor) (phase : Phase) (refs : Nat) (activeWorkers : Option Nat) :
    Except Fault Narrowed := do
  if p.isMulti then
    let maxThreads := max 1 (min p.degree (activeWorkers.getD 1))
    let threads ← threadCount refs maxThreads phase p.config.refsPerThread p.config.processorCount
    return ⟨p.degree, ← p.setDegree (max 1 (min threads p.queues))⟩
  else return ⟨p.degree, p⟩

end Processor

/-- The processor `p` with the degree from before it was narrowed. -/
def Narrowed.restore (n : Narrowed) (p : Processor) : Except Fault Processor :=
  p.setDegree n.saved

end Referents
