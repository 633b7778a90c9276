import Referents.Kind

/-!
# Failures

Three things can go wrong.  An **error** is reported to the caller, who may
go on; a **breach** is a broken invariant of the lists, caught by a check; a
**crash** is an operation that has no result.  Breaches and crashes end the
computation, and so does running out of the bound on a loop, which no
well-formed list ever does.  The wording of every failure is in this module.
-/

namespace Referents

/-- What is wrong with a configuration. -/
inductive ConfigError where
  /-- A degree of parallelism is out of range. -/
  | degree (detail : String)
  /-- The rate of the soft policy is out of range. -/
  | softPolicy (detail : String)
  /-- The number of processors is out of range. -/
  | processorCount (detail : String)
deriving DecidableEq

namespace ConfigError

/-- No queue is processed at all. -/
def zeroProcessingDegree : ConfigError := .degree "mt_processing_degree must be > 0"

/-- No worker discovers at all. -/
def zeroDiscoveryDegree : ConfigError := .degree "mt_discovery_degree must be > 0"

/-- More queues are asked for than there may be. -/
def tooManyQueues (limit got : Nat) : ConfigError :=
  .degree s!"at most {limit} queues are supported, got {got}"

/-- The soft policy has a negative rate. -/
def negativeSoftRate : ConfigError := .softPolicy "soft_ref_lru_policy_ms_per_mb must be >= 0"

/-- The number of processors is given as zero. -/
def zeroProcessors : ConfigError := .processorCount "active_processor_count must be > 0"

/-- The wording of a configuration error. -/
def message : ConfigError → String
  | .degree d => s!"Invalid degree: {d}"
  | .softPolicy d => s!"Invalid soft reference policy: {d}"
  | .processorCount d => s!"Invalid processor count: {d}"

end ConfigError

/-- An error that is reported to the caller. -/
inductive Error where
  /-- The configuration was rejected. -/
  | configuration (detail : String)
  /-- An argument makes no sense. -/
  | invalidArgument (detail : String)
  /-- A handle is not one of the table's. -/
  | invalidHandle (index size : Nat)
  /-- An operation was called at the wrong time. -/
  | invalidState (expected actual : String)
  /-- There are no more handles. -/
  | resourceExhausted (resource : String)
  /-- A thread could not be started. -/
  | workerSpawn (name reason : String)
  /-- The library contradicts itself. -/
  | internal (detail : String)
deriving DecidableEq

namespace Error

/-- A configuration error as an error of the library. -/
def ofConfig (e : ConfigError) : Error := .configuration e.message

/-- A reference object was asked for without a reference kind. -/
def notAReferenceKind : Error := .invalidArgument "reference objects need a reference kind"

/-- A pool was asked for without workers. -/
def emptyPool : Error := .invalidArgument "worker pool needs at least one worker"

/-- The table cannot grow. -/
def handlesExhausted : Error := .resourceExhausted "object handles"

/-- The handler was started twice. -/
def alreadyRunning : Error := .invalidState "stopped" "running"

/-- The handler was stopped before it was started. -/
def notRunning : Error := .invalidState "running" "stopped"

/-- The handler gave up in the background. -/
def handlerFailed : Error := .internal "reference handler thread panicked"

/-- The wording of an error. -/
def message : Error → String
  | .configuration d => s!"Configuration error: {d}"
  | .invalidArgument d => s!"Invalid argument: {d}"
  | .invalidHandle i n => s!"Invalid object handle {i} (table holds {n} objects)"
  | .invalidState e a => s!"Invalid state: expected {e}, got {a}"
  | .resourceExhausted r => s!"Resource exhausted: {r}"
  | .workerSpawn n r => s!"Failed to spawn thread {n}: {r}"
  | .internal d => s!"Internal error: {d}"

/-- Whether the error shows a mistake in the library itself. -/
def isBug : Error → Bool
  | .internal _ => true
  | _ => false

/-- Whether the same call may succeed later. -/
def isRecoverable : Error → Bool
  | .workerSpawn _ _ => true
  | .resourceExhausted _ => true
  | _ => false

end Error

/-- A broken invariant. -/
inductive Breach where
  /-- A plain object was offered for discovery. -/
  | notAReference (obj : Handle)
  /-- Discovery was enabled twice. -/
  | nestedEnable
  /-- A list that has to be empty is not. -/
  | listNotEmpty (name : String) (position : Nat)
  /-- More active queues are asked for than there are. -/
  | degreeMismatch (degree queues : Nat)
  /-- A worker has no queue. -/
  | queueOutOfBounds (id limit : Nat)
  /-- A discovered link leads outside the table. -/
  | badDiscovered (obj : Handle)
  /-- A listed reference has a referent that it may not have. -/
  | badReferent (referent : Option Handle)
  /-- A member to be dropped is not in the table. -/
  | badMember
  /-- A list leads back to its head. -/
  | cyclicList
  /-- A final reference is processed a second time. -/
  | inactiveFinal (obj : Handle)
  /-- References are left where none may be. -/
  | referencesLeft (kind : RefKind) (count : Nat)
  /-- Balancing onto no queue, or onto more than there are. -/
  | badBalanceDegree (degree queues : Nat)
  /-- Balancing lost or left references. -/
  | balanceIncomplete (before after : Nat)
  /-- Balancing onto a list that is not among the active ones. -/
  | badBalanceTarget
  /-- Balancing has come to a list without moving anything to it. -/
  | nothingToMove
  /-- Balancing for a phase of one worker. -/
  | serialBalancing
  /-- Queues were to take turns although every worker has its own. -/
  | turnWithWorkers
  /-- A reference is put on a list while its discovered link is in use. -/
  | alreadyLinked (obj : Handle)
  /-- Final references were dropped while their targets were kept alive. -/
  | droppedFinals
deriving DecidableEq

/-- The wording of a broken invariant. -/
def Breach.message : Breach → String
  | .notAReference o => s!"{o.text} is not a reference"
  | .nestedEnable => "nested call?"
  | .listNotEmpty n i => s!"Found non-empty discovered list {n} at {i}"
  | .degreeMismatch v m => s!"Mismatch between processing degree {v} and number of queues {m}"
  | .queueOutOfBounds i m => s!"Id is out of bounds id {i} and max id {m}"
  | .badDiscovered o => s!"expected an oop or null for discovered field of {o.text}"
  | .badReferent r => s!"bad referent {Handle.longTextOption r} found in discovered list"
  | .badMember => "dropping a bad reference"
  | .cyclicList => "cyclic discovered list"
  | .inactiveFinal o => s!"enqueued FinalReference {o.text}"
  | .referencesLeft k n => s!"{k.name}s must be empty but has {n} elements"
  | .badBalanceDegree v m => s!"bad processing degree {v} for {m} queues"
  | .balanceIncomplete t b => s!"Balancing was incomplete: {t} != {b}"
  | .badBalanceTarget => "Sanity Check!"
  | .nothingToMove => "otherwise the code below will fail"
  | .serialBalancing => "Should not call this otherwise"
  | .turnWithWorkers => "Round robin should only be used in serial discovery"
  | .alreadyLinked o => s!"discovered field of {o.text} already set"
  | .droppedFinals => "This phase does not remove anything."

/-- An operation that has no result. -/
inductive Crash where
  /-- A handle, a list or a queue is past the end. -/
  | indexOutOfBounds (size index : Nat)
  /-- A handle is too narrow for an index. -/
  | handleTooNarrow (index : Nat)
  /-- A plain object has no list. -/
  | noList
  /-- A count grew out of its range. -/
  | addOverflow
  /-- A difference fell out of its range. -/
  | subOverflow
  /-- More room was asked for than can be addressed. -/
  | capacityOverflow
  /-- More was taken off a list than was on it. -/
  | lengthUnderflow
  /-- A cursor was used past the end of its list. -/
  | pastEnd
  /-- A referent was to be kept alive in a pass that keeps nothing alive. -/
  | noKeepAlive
  /-- A thread count was asked for with no thread allowed. -/
  | noThreads
  /-- A unit of work gave up. -/
  | unitFailed (unit : Nat)
  /-- A thread was to be given a name with a zero character in it. -/
  | unfitThreadName (name : String)
deriving DecidableEq

/-- The wording of a crash. -/
def Crash.message : Crash → String
  | .indexOutOfBounds n i => s!"index out of bounds: the len is {n} but the index is {i}"
  | .handleTooNarrow i => s!"object index {i} exceeds handle width"
  | .noList => "ReferenceType::None has no discovered list"
  | .addOverflow => "attempt to add with overflow"
  | .subOverflow => "attempt to subtract with overflow"
  | .capacityOverflow => "capacity overflow"
  | .lengthUnderflow => "discovered list length underflow"
  | .pastEnd => "discovered list iterator used past the end"
  | .noKeepAlive => "make_referent_alive on an iterator without keep-alive"
  | .noThreads => "must allow at least one thread"
  | .unitFailed i => s!"unit {i} failed"
  | .unfitThreadName name =>
      let bytes := name.toUTF8.toList
      let place := (bytes.takeWhile fun b => b != 0).length
      let shown := ", ".intercalate (bytes.map fun b => toString b.toNat)
      s!"thread name may not contain interior null bytes: NulError({place}, [{shown}])"

/-- Everything that can go wrong. -/
inductive Fault where
  | error (e : Error)
  | breach (b : Breach)
  | crash (c : Crash)
  /-- A loop went on for longer than any well-formed list allows. -/
  | endless
deriving DecidableEq

namespace Fault

/-- The wording of a failure. -/
def message : Fault → String
  | .error e => e.message
  | .breach b => b.message
  | .crash c => c.message
  | .endless => "the loop does not end"

/-- Whether the failure ends the computation around it. -/
def isFatal : Fault → Bool
  | .error _ => false
  | _ => true

end Fault

/-- Fails with `b` unless `cond` holds. -/
def require (cond : Bool) (b : Breach) : Except Fault Unit :=
  if cond then .ok () else .error (.breach b)

/-- The handle of slot `i`, which has to fit. -/
def Handle.ofIndex (i : Nat) : Except Fault Handle :=
  match Handle.ofIndex? i with
  | some o => .ok o
  | none => .error (.crash (.handleTooNarrow i))

/-- The reference kind of an object that has to be a reference. -/
def Kind.refKind : Kind → Except Fault RefKind
  | some k => .ok k
  | none => .error (.crash .noList)

end Referents
