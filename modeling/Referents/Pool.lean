import Referents.Word

/-!
# Workers

While a unit of parallel work runs, the index of the unit is the **worker id**
of its thread; a caller may also take an id for the length of a body of its
own.  The id is restored when the body is over, whether it returned or failed.

A pool counts the units of a task, starts threads and lets them take the units.
There are as many threads as there are active workers, if there are as many
units.  The caller is one of them; the others are started for every task anew,
which is where an unfit name of the pool shows.

The units are taken in the order of their indices, but which of them is through
first is up to the host.  Here they run one after the other in a given order,
and a failing unit keeps the later ones from running: its failure is the
failure of the task.

* `Pool.startThreads_ok` — a pool with a fit name, or with one active worker, starts
  the threads of every task.
* `worker_withWorker_ok`, `worker_withWorker_error` — the id is restored.
-/

namespace Referents

/-- What the workers of a pool have done. -/
structure PoolCounts where
  /-- Tasks with at least one unit. -/
  runs : Nat := 0
  /-- Units of these tasks. -/
  units : Nat := 0
  /-- Threads that could not be started. -/
  spawnFailures : Nat := 0
deriving DecidableEq

/-- A pool of workers. -/
structure Pool where
  name : String
  maxWorkers : Nat
  activeWorkers : Nat
  counts : PoolCounts := {}
deriving DecidableEq

namespace Pool

/-- A pool of `n` workers, all of them active; there has to be at least one. -/
def create (name : String) (n : Nat) : Except Fault Pool :=
  if n = 0 then .error (.error .emptyPool)
  else .ok { name := name, maxWorkers := n, activeWorkers := n }

/-- Sets how many workers are active: at least one, and at most all of them. -/
def setActive (p : Pool) (n : Nat) : Pool :=
  { p with activeWorkers := max 1 (min n p.maxWorkers) }

/-- Counts a task of `n` units. -/
def count (p : Pool) (n : Nat) : Pool :=
  let c := p.counts
  { p with counts := { c with runs := wrapCount (c.runs + 1), units := wrapCount (c.units + n) } }

/-- How many threads share a task of `n` units. -/
def threads (p : Pool) (n : Nat) : Nat := min n p.activeWorkers

/-- The name of a thread that the pool starts. -/
def threadName (p : Pool) (i : Nat) : String := s!"{p.name}#{i}"

/-- Whether threads can be given the name of the pool. -/
def hasFitName (p : Pool) : Bool := p.name.toList.all fun c => c != '\x00'

/-- Starts the threads for a task of `n` units; that of the caller needs no name. -/
def startThreads (p : Pool) (n : Nat) : Except Fault Unit :=
  if 1 < p.threads n && !p.hasFitName then .error (.crash (.unfitThreadName (p.threadName 1)))
  else .ok ()

/-- The pool can start the threads of any task: they can be given its name, or
the caller is the only one. -/
def CanStart (p : Pool) : Prop := p.hasFitName = true ∨ p.activeWorkers ≤ 1

instance (p : Pool) : Decidable p.CanStart := inferInstanceAs (Decidable (_ ∨ _))

/-- A pool that can start threads starts those of any task. -/
theorem startThreads_ok {p : Pool} (h : p.CanStart) (n : Nat) : p.startThreads n = .ok () := by
  unfold startThreads
  rcases h with hname | hone
  · simp [hname]
  · have hthreads : ¬ 1 < p.threads n := by unfold threads; omega
    simp [hthreads]

/-- Counting a task makes no thread harder to start. -/
theorem CanStart.count {p : Pool} (h : p.CanStart) (n : Nat) : (p.count n).CanStart := h

end Pool

/-- An order in which the units of a task are through: each of the `n` units once. -/
structure UnitOrder (n : Nat) where
  units : List Nat
  perm : units.Perm (List.range n)

namespace UnitOrder

/-- The order in which the units are taken. -/
def byIndex (n : Nat) : UnitOrder n := ⟨List.range n, .refl _⟩

/-- Every unit of a task comes in any order of its units. -/
theorem mem_units_iff {n : Nat} (order : UnitOrder n) {i : Nat} : i ∈ order.units ↔ i < n := by
  rw [order.perm.mem_iff, List.mem_range]

theorem nodup_units {n : Nat} (order : UnitOrder n) : order.units.Nodup :=
  order.perm.nodup_iff.mpr List.nodup_range

end UnitOrder

/-- A state together with the worker id of the calling thread and its pool. -/
structure Threaded (σ : Type) where
  worker : Option Nat := none
  pool : Option Pool := none
  state : σ

namespace Threaded

variable {ε σ τ α : Type}

/-- A computation on the state alone. -/
def lift (x : EStateM ε σ α) : EStateM ε (Threaded σ) α := fun t =>
  match x t.state with
  | .ok a s => .ok a { t with state := s }
  | .error e s => .error e { t with state := s }

/-- The worker id of the calling thread. -/
def currentWorker : EStateM ε (Threaded σ) (Option Nat) := Threaded.worker <$> get

/-- Runs `body` under the worker id `id`. -/
def withWorker (id : Nat) (body : EStateM ε (Threaded σ) α) : EStateM ε (Threaded σ) α := fun t =>
  match body { t with worker := some id } with
  | .ok a s => .ok a { s with worker := t.worker }
  | .error e s => .error e { s with worker := t.worker }

/-- Runs units one after the other, each under its own index. -/
def runEach (unit : Nat → EStateM ε (Threaded σ) α) : List Nat → EStateM ε (Threaded σ) (List α)
  | [] => pure []
  | i :: rest => do
      let a ← withWorker i (unit i)
      return a :: (← runEach unit rest)

/-- Counts a task of `n` units. -/
def countTask (n : Nat) : EStateM ε (Threaded σ) Unit :=
  modify fun t => { t with pool := t.pool.map (Pool.count · n) }

/-- Starts the threads for a task of `n` units. -/
def startThreads (n : Nat) : EStateM Fault (Threaded σ) Unit := fun t =>
  match t.pool with
  | none => .ok () t
  | some p =>
      match p.startThreads n with
      | .ok _ => .ok () t
      | .error f => .error f t

/-- Lets the pool start its threads and run `count` units.  A task without
units is not counted. -/
def runTask (count : Nat) (unit : Nat → EStateM Fault (Threaded σ) α)
    (order : UnitOrder count := .byIndex count) : EStateM Fault (Threaded σ) (List α) := do
  if count = 0 then return []
  countTask count
  startThreads count
  runEach unit order.units

/-- The worker id of the thread at each end of nested bodies: on entering each
of them and after leaving each. -/
def traceWorkers : List Nat → EStateM ε (Threaded σ) (List (Option Nat))
  | [] => do return [← currentWorker]
  | id :: ids => do
      let before ← currentWorker
      let inner ← withWorker id (traceWorkers ids)
      return before :: inner ++ [← currentWorker]

theorem worker_withWorker_ok {id : Nat} {body : EStateM ε (Threaded σ) α} {t u : Threaded σ}
    {a : α} (h : withWorker id body t = .ok a u) : u.worker = t.worker := by
  unfold withWorker at h
  split at h <;> cases h
  rfl

theorem worker_withWorker_error {id : Nat} {body : EStateM ε (Threaded σ) α}
    {t u : Threaded σ} {e : ε} (h : withWorker id body t = .error e u) :
    u.worker = t.worker := by
  unfold withWorker at h
  split at h <;> cases h
  rfl

end Threaded

end Referents
