import Referents.Fault

/-!
# Configuration

The tunables of reference processing, the checks on them, and how they are
read from the environment.

* `validate_eq_ok_iff` — a configuration passes exactly when both degrees and
  the number of processors are positive, at most `maxQueues` queues are asked
  for, and the soft policy has no negative rate.
-/

namespace Referents

/-- What the least-recently-used soft policy takes the free space from. -/
inductive SpaceBasis where
  /-- The free space after the last collection. -/
  | currentHeap
  /-- The room that is left up to the largest heap. -/
  | maxHeap
deriving DecidableEq

/-- What is answered for a reference that is on a list already. -/
inductive Rediscovery where
  /-- It counts as discovered, so its target is not traced. -/
  | treatAsDiscovered
  /-- It does not count as discovered. -/
  | ignore
deriving DecidableEq

/-- The tunables of reference processing. -/
structure Config where
  /-- How many queues are processed in parallel. -/
  processingDegree : Nat
  /-- How many workers discover in parallel; above one each uses its own queue. -/
  discoveryDegree : Nat := 1
  /-- Whether mutators run, and may clear targets, while references are discovered. -/
  concurrentDiscovery : Bool := false
  /-- Whether references are discovered at all. -/
  registerReferences : Bool := true
  /-- Whether several workers may process the queues. -/
  parallelProcessing : Bool := true
  /-- Whether the queues are balanced before every parallel phase. -/
  balancing : Bool := true
  /-- How many references justify one more thread; zero asks for every thread. -/
  refsPerThread : Nat := 1000
  /-- How many milliseconds a soft reference survives for a free megabyte. -/
  softMillisPerMegabyte : Int := 1000
  softBasis : SpaceBasis := .maxHeap
  /-- The number of processors, where it is not taken from the host. -/
  activeProcessors : Option Nat := none
  /-- The number of processors of the host. -/
  hostProcessors : Nat := 1
  rediscovery : Rediscovery := .treatAsDiscovered
  /-- Whether the end of a phase is logged as information. -/
  verbose : Bool := false
  /-- Whether events are logged as JSON lines. -/
  jsonLog : Bool := false
deriving DecidableEq

namespace Config

/-- The most queues that a kind may have. -/
def maxQueues : Nat := 1024

/-- The configuration for a host: half its processors, but at least one and at most four. -/
def forHost (processors : Nat) : Config where
  processingDegree := max 1 (min (processors / 2) 4)
  hostProcessors := processors

/-- The configuration without parallelism. -/
def serial (processors : Nat) : Config :=
  { forHost processors with processingDegree := 1 }

/-- The number of queues of a kind. -/
def queues (c : Config) : Nat := max c.processingDegree c.discoveryDegree

/-- The number of processors to count on. -/
def processorCount (c : Config) : Nat := c.activeProcessors.getD c.hostProcessors

/-- Checks a configuration; of several mistakes the first in this order is reported. -/
def validate (c : Config) : Except ConfigError Unit :=
  if c.processingDegree = 0 then .error .zeroProcessingDegree
  else if c.discoveryDegree = 0 then .error .zeroDiscoveryDegree
  else if maxQueues < c.queues then .error (.tooManyQueues maxQueues c.queues)
  else if c.softMillisPerMegabyte < 0 then .error .negativeSoftRate
  else if c.activeProcessors = some 0 then .error .zeroProcessors
  else .ok ()

theorem validate_eq_ok_iff (c : Config) :
    c.validate = .ok () ↔
      0 < c.processingDegree ∧ 0 < c.discoveryDegree ∧ c.queues ≤ maxQueues ∧
        0 ≤ c.softMillisPerMegabyte ∧ c.activeProcessors ≠ some 0 := by
  unfold validate
  split
  · simp; omega
  split
  · simp; omega
  split
  · simp; omega
  split
  · simp; omega
  split
  · simp_all
  · simp_all; omega

/-- The values of the variables that a configuration is read from. -/
structure Environment where
  processingDegree : Option String := none
  discoveryDegree : Option String := none
  concurrentDiscovery : Option String := none
  refsPerThread : Option String := none
  balancing : Option String := none
  verbose : Option String := none

/-- Reads a count: ASCII digits after at most one plus sign, below `2^64`. -/
def readCount (s : String) : Option Nat :=
  let digits :=
    match s.toList with
    | '+' :: rest => rest
    | cs => cs
  if digits.isEmpty || !digits.all Char.isDigit then none
  else
    let n := digits.foldl (fun n c => 10 * n + (c.toNat - '0'.toNat)) 0
    if n < 0x10000000000000000 then some n else none

/-- Reads a switch: `1` and `true` in any case turn it on, all else turns it off. -/
def readSwitch (s : String) : Bool :=
  s == "1" || s.toList.map Char.toLower == "true".toList

/-- A host's configuration with the settings of the environment.  A count that
cannot be read leaves the default. -/
def ofEnvironment (processors : Nat) (env : Environment) : Config :=
  let base := forHost processors
  let count (setting : Option String) (default : Nat) : Nat :=
    (setting.bind readCount).getD default
  let switch (setting : Option String) (default : Bool) : Bool :=
    (setting.map readSwitch).getD default
  { base with
    processingDegree := count env.processingDegree base.processingDegree
    discoveryDegree := count env.discoveryDegree base.discoveryDegree
    concurrentDiscovery := switch env.concurrentDiscovery base.concurrentDiscovery
    refsPerThread := count env.refsPerThread base.refsPerThread
    balancing := switch env.balancing base.balancing
    verbose := switch env.verbose base.verbose }

end Config

end Referents
