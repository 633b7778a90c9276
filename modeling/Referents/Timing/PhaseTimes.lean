import Referents.Kind
import Referents.Word

/-!
# Phases and their times

A processing cycle has three phases, made up of five kinds of sub-phases.  The
times and counts of a cycle are collected in milliseconds; times are kept in
the order in which they were first recorded.
-/

namespace Referents

/-- The phases of a processing cycle, in their order. -/
inductive Phase where
  | softWeakFinal
  | keepAliveFinal
  | phantom
deriving DecidableEq

/-- The name of a phase. -/
def Phase.name : Phase → String
  | .softWeakFinal => "SoftWeakFinalRefsPhase"
  | .keepAliveFinal => "KeepAliveFinalRefsPhase"
  | .phantom => "PhantomRefsPhase"

/-- The work within a phase. -/
inductive SubPhase where
  /-- Resolving the lists of a kind. -/
  | resolve (kind : RefKind)
  /-- Keeping the targets of final references alive. -/
  | keepAliveFinal
deriving DecidableEq

/-- The name of a sub-phase. -/
def SubPhase.name : SubPhase → String
  | .resolve kind => kind.listName
  | .keepAliveFinal => "FinalRef (keep alive)"

/-- A duration given in nanoseconds, in milliseconds. -/
def millisOfNanos (ns : Nat) : Float :=
  (Float.ofNat (ns / 1000000000) + Float.ofNat (ns % 1000000000) / 1000000000.0) * 1000.0

/-- Applies `f` to the entry of a key, or adds a new entry at the end. -/
def upsert {κ β : Type} [DecidableEq κ] (key : κ) (f : Option β → β) : List (κ × β) → List (κ × β)
  | [] => [(key, f none)]
  | (k, b) :: rest => if k = key then (k, f (some b)) :: rest else (k, b) :: upsert key f rest

/-- The times of the workers of a sub-phase. -/
structure WorkerTimes where
  /-- How many workers there is a place for. -/
  places : Nat
  /-- The workers with a time of their own; that of the others is zero. -/
  recorded : List (Nat × Float) := []

namespace WorkerTimes

/-- Adds to the time of one worker, for whom a place is made if there is none. -/
def add (t : WorkerTimes) (worker : Nat) (ms : Float) : WorkerTimes where
  places := max t.places (worker + 1)
  recorded := upsert worker (fun old => old.getD 0 + ms) t.recorded

/-- The time of every worker. -/
def toList (t : WorkerTimes) : List Float :=
  (List.range t.places).map fun worker => (t.recorded.lookup worker).getD 0

end WorkerTimes

/-- The times and counts of a processing cycle. -/
structure PhaseTimes where
  maxWorkers : Nat
  discovered : PerKind Nat := .replicate 0
  dropped : PerKind Nat := .replicate 0
  multi : Bool := false
  phases : List (Phase × Float) := []
  balancing : List (Phase × Float) := []
  subPhases : List (SubPhase × WorkerTimes) := []
  skipped : List Phase := []
  total : Float := 0

namespace PhaseTimes

/-- Nothing recorded yet, for as many workers, but at least one. -/
def create (maxWorkers : Nat) : PhaseTimes := { maxWorkers := max 1 maxWorkers }

/-- Forgets everything recorded. -/
def reset (t : PhaseTimes) : PhaseTimes := { maxWorkers := t.maxWorkers }

/-- Sets how many references of a kind were discovered. -/
def setDiscovered (t : PhaseTimes) (k : RefKind) (n : Nat) : PhaseTimes :=
  { t with discovered := t.discovered.set k n }

/-- Adds to how many references of a kind were dropped; the counter wraps around. -/
def addDropped (t : PhaseTimes) (k : RefKind) (n : Nat) : PhaseTimes :=
  { t with dropped := t.dropped.set k (wrapCount (t.dropped.get k + n)) }

/-- Sets whether several workers share the queues. -/
def setMulti (t : PhaseTimes) (multi : Bool) : PhaseTimes := { t with multi }

/-- Adds to the time of a phase. -/
def recordPhase (t : PhaseTimes) (p : Phase) (ns : Nat) : PhaseTimes :=
  { t with phases := upsert p (fun ms => ms.getD 0 + millisOfNanos ns) t.phases }

/-- Adds to the time of the balancing before a phase. -/
def recordBalancing (t : PhaseTimes) (p : Phase) (ns : Nat) : PhaseTimes :=
  { t with balancing := upsert p (fun ms => ms.getD 0 + millisOfNanos ns) t.balancing }

/-- The time of a phase, if any was recorded. -/
def phase? (t : PhaseTimes) (p : Phase) : Option Float := t.phases.lookup p

/-- The time of the balancing before a phase, if any was recorded. -/
def balancing? (t : PhaseTimes) (p : Phase) : Option Float := t.balancing.lookup p

/-- How many bytes a time takes. -/
def timeBytes : Nat := 8

/-- The times of the workers of a sub-phase; at first there is a place for every worker. -/
def workerTimes (t : PhaseTimes) (s : SubPhase) : WorkerTimes :=
  (t.subPhases.lookup s).getD ⟨t.maxWorkers, []⟩

/-- Fails unless there can be room for the places of a sub-phase, where these are new or
have to be extended to that of a worker. -/
def reserveFor (t : PhaseTimes) (s : SubPhase) (worker : Nat) : Except Fault Unit := do
  if (t.subPhases.lookup s).isNone then reserve t.maxWorkers timeBytes
  if (t.workerTimes s).places ≤ worker then reserve (← addCounts worker 1) timeBytes

/-- Adds to the time of one worker. -/
def addWorker (t : PhaseTimes) (s : SubPhase) (worker ns : Nat) : PhaseTimes :=
  let times := (t.workerTimes s).add worker (millisOfNanos ns)
  { t with subPhases := upsert s (fun _ => times) t.subPhases }

/-- Adds to the time of one worker, for whom there has to be room. -/
def recordWorker (t : PhaseTimes) (s : SubPhase) (worker ns : Nat) : Except Fault PhaseTimes := do
  t.reserveFor s worker
  return t.addWorker s worker ns

/-- There is room for the times of as many workers as the times were made for,
and for those of `workers` of them. -/
def HasRoom (t : PhaseTimes) (workers : Nat) : Prop :=
  max t.maxWorkers workers * timeBytes < 0x8000000000000000

instance (t : PhaseTimes) (workers : Nat) : Decidable (t.HasRoom workers) :=
  inferInstanceAs (Decidable (_ < _))

theorem reserve_of_hasRoom {t : PhaseTimes} {workers n : Nat} (hroom : t.HasRoom workers)
    (hn : n ≤ max t.maxWorkers workers) : reserve n timeBytes = .ok () :=
  if_pos (Nat.lt_of_le_of_lt (Nat.mul_le_mul_right timeBytes hn) hroom)

theorem reserveFor_ok {t : PhaseTimes} {workers worker : Nat} (hroom : t.HasRoom workers)
    (hworker : worker < workers) (s : SubPhase) : t.reserveFor s worker = .ok () := by
  have hfirst : reserve t.maxWorkers timeBytes = .ok () :=
    reserve_of_hasRoom hroom (Nat.le_max_left _ _)
  have hplace : reserve (worker + 1) timeBytes = .ok () := reserve_of_hasRoom hroom (by omega)
  have hsucc : addCounts worker 1 = .ok (worker + 1) := by
    refine if_pos ?_
    have hlt : max t.maxWorkers workers * 8 < 0x8000000000000000 := hroom
    rw [countLimit]
    omega
  have hextended : (do reserve (← addCounts worker 1) timeBytes) = .ok () := by
    rw [hsucc]
    exact hplace
  unfold reserveFor
  rw [hfirst]
  split <;> split <;> first | exact hextended | rfl

/-- Where there is room for a worker, its time is added. -/
theorem recordWorker_ok {t : PhaseTimes} {workers worker : Nat} (hroom : t.HasRoom workers)
    (hworker : worker < workers) (s : SubPhase) (ns : Nat) :
    t.recordWorker s worker ns = .ok (t.addWorker s worker ns) := by
  rw [recordWorker, reserveFor_ok hroom hworker]
  rfl

/-- The times of the workers of a sub-phase. -/
def workers (t : PhaseTimes) (s : SubPhase) : List Float :=
  ((t.subPhases.lookup s).map WorkerTimes.toList).getD []

/-- Notes that a phase had nothing to do. -/
def recordSkipped (t : PhaseTimes) (p : Phase) : PhaseTimes :=
  { t with skipped := t.skipped ++ [p] }

/-- Sets the time of the whole cycle. -/
def setTotal (t : PhaseTimes) (ns : Nat) : PhaseTimes := { t with total := millisOfNanos ns }

end PhaseTimes

/-- How many references of each kind a cycle started with. -/
abbrev CycleCounts := PerKind Nat

namespace CycleCounts

/-- The count of a kind; there are no references among plain objects. -/
def count (c : CycleCounts) : Kind → Nat
  | none => 0
  | some k => c.get k

/-- The count of all kinds together. -/
def total (c : CycleCounts) : Except Fault Nat := sumCounts c.toList

end CycleCounts

end Referents
