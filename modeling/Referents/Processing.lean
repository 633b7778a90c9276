import Referents.Balance
import Referents.Cycle
import Referents.Degree
import Referents.Resolution

/-!
# Processing cycles

A processing cycle resolves everything that was discovered, in three phases.

1. Soft, weak and final references whose target is null or reachable are
   dropped; the other soft and weak ones are cleared and published.
2. The targets of the final references that are left are kept alive, and these
   references are published.
3. Phantom references are resolved against what is reachable by then.

A phase is a task of one unit for every queue.  The units run on the workers
of a pool if several workers may share the queues, and otherwise in the
calling thread, which then visits all queues.
-/

namespace Referents

/-- The kinds of references that a phase works on. -/
def Phase.kinds : Phase → List RefKind
  | .softWeakFinal => [.soft, .weak, .final]
  | .keepAliveFinal => [.final]
  | .phantom => [.phantom]

/-- The kinds of references of which a phase leaves none. -/
def Phase.finishes : Phase → List RefKind
  | .softWeakFinal => [.soft, .weak]
  | .keepAliveFinal => [.final]
  | .phantom => [.phantom]

/-- The kinds whose lists are logged before a phase, and those logged after it,
with the labels. -/
def Phase.labels : Phase → List (String × RefKind) × List (String × RefKind)
  | .softWeakFinal =>
      ([("SoftWeakFinalRefsPhase Soft before", .soft),
        ("SoftWeakFinalRefsPhase Weak before", .weak),
        ("SoftWeakFinalRefsPhase Final before", .final)],
       [("SoftWeakFinalRefsPhase Final after", .final)])
  | .keepAliveFinal => ([], [])
  | .phantom => ([("PhantomRefsPhase Phantom before", .phantom)], [])

variable {γ : Type}

namespace Step

/-- Adds to the times of the worker of a queue; without parallelism the first
worker does everything. -/
def recordWorker (readings : Readings) (s : SubPhase) (queue : Nat) : Step γ Unit := do
  let worker := if (← processor).isMulti then queue else 0
  tryUpdateTimes fun t => t.recordWorker s worker (readings.took (.queue s queue))

/-- Resolves the list of a kind and queue. -/
def resolveQueue (hooks : Hooks γ) (publishing : Bool) (queue : Nat) (k : RefKind) :
    Step γ Unit := do
  let p ← processor
  let list ← ofExcept (p.list k queue)
  let headKind ← onWorld (list.head.mapM fun o => Act.read fun h => h.kind o)
  let r ← onWorld (resolveList hooks p.config.concurrentDiscovery publishing list)
  setProcessor (p.setList k queue r.list)
  if let some kind := headKind then log (.listProcessed kind.name r.visited r.dropped)
  updateTimes fun t => t.addDropped k r.dropped

/-- Resolves the list of a kind and queue, and takes the time. -/
def resolveTimed (hooks : Hooks γ) (readings : Readings) (publishing : Bool) (queue : Nat)
    (k : RefKind) : Step γ Unit := do
  resolveQueue hooks publishing queue k
  recordWorker readings (.resolve k) queue

/-- Keeps the targets of the final references of a queue alive, and publishes them. -/
def keepFinalQueue (hooks : Hooks γ) (queue : Nat) : Step γ Unit := do
  let p ← processor
  let list ← ofExcept (p.list .final queue)
  let list ← onWorld (keepFinalList hooks list)
  setProcessor (p.setList .final queue list)

/-- The unit of a phase for one queue.  Where it works on one list only, the time
that the collector needs to finish is counted in. -/
def unit (hooks : Hooks γ) (readings : Readings) (phase : Phase) (queue : Nat) : Step γ Unit :=
  match phase with
  | .softWeakFinal => do
      resolveTimed hooks readings true queue .soft
      resolveTimed hooks readings true queue .weak
      resolveTimed hooks readings false queue .final
      onWorld hooks.complete
  | .keepAliveFinal => do
      keepFinalQueue hooks queue
      onWorld hooks.complete
      recordWorker readings .keepAliveFinal queue
  | .phantom => do
      resolveQueue hooks true queue .phantom
      onWorld hooks.complete
      recordWorker readings (.resolve .phantom) queue

/-- How many references a phase has to deal with. -/
def phaseSize (phase : Phase) : Step γ Nat := do
  let c ← get
  match phase with
  | .keepAliveFinal => ofExcept (c.processor.total .final)
  | phase => ofExcept (sumCounts (phase.kinds.map c.times.discovered.get))

/-- Balances the lists of a phase if several workers may share them. -/
def balanceFor (readings : Readings) (phase : Phase) : Step γ Unit := do
  if (← processor).isMulti then
    phase.kinds.forM fun k => withHeap fun p h sink => p.balanceIfNeeded h sink k
    updateTimes fun t => t.recordBalancing phase (readings.took (.balancing phase))

end Step

namespace Pass

/-- Runs the units of a phase, on the pool if `pooled`. -/
def dispatch (hooks : Hooks γ) (readings : Readings) (pooled : Bool) (phase : Phase) :
    Pass γ Unit := do
  let p ← Threaded.lift Step.processor
  let multi := pooled && p.isMulti
  let marksAlive := phase == .keepAliveFinal
  Threaded.lift do
    Step.log (.phaseStart phase.name p.degree multi marksAlive)
    Step.onWorld (Act.updateCollector (hooks.prepare p.degree multi marksAlive))
  let unit := fun (queue : Nat) => do
    let worker ← Threaded.currentWorker
    Threaded.lift do
      Step.onWorld (Act.updateCollector (hooks.enterUnit queue worker))
      Step.unit hooks readings phase queue
  if multi then discard <| Threaded.runTask p.degree unit (readings.order phase p.degree)
  else (List.range p.queues).forM unit

/-- Works on the references of a phase with a degree that `size` of them justify. -/
def runNarrowed (hooks : Hooks γ) (readings : Readings) (pooled : Bool) (phase : Phase)
    (size : Nat) : Pass γ Unit := do
  let pool := (← get).pool
  let active := if pooled then pool.map Pool.activeWorkers else none
  let (before, after) := phase.labels
  Threaded.lift do
    Step.updateProcessor fun p => Narrowed.processor <$> p.narrow phase size active
    Step.balanceFor readings phase
    before.forM fun (label, k) => Step.logLengths label k
  dispatch hooks readings pooled phase
  Threaded.lift do
    phase.finishes.forM fun k => do Step.ofExcept ((← Step.processor).verifyNone k)
    after.forM fun (label, k) => Step.logLengths label k

/-- Runs a phase that has references to deal with.  However it ends, the degree
is what it was before. -/
def runPhase (hooks : Hooks γ) (readings : Readings) (pooled : Bool) (phase : Phase)
    (size : Nat) : Pass γ Unit := do
  let saved ← Threaded.lift (Processor.degree <$> Step.processor)
  tryFinally (runNarrowed hooks readings pooled phase size)
    (Threaded.lift (Step.updateProcessor fun p => p.setDegree saved))

/-- Notes that a phase is over. -/
def endPhase (readings : Readings) (phase : Phase) : Step γ Unit := do
  let ns := readings.took (.phase phase)
  Step.updateTimes fun t => t.recordPhase phase ns
  Step.log (.phaseEnd phase.name (millisOfNanos ns))

/-- Runs a phase, or skips it if there are no references for it.  However that
ends, its time is taken. -/
def phase (hooks : Hooks γ) (readings : Readings) (pooled : Bool) (phase : Phase) :
    Pass γ Unit :=
  let body : Pass γ Unit := do
    let size ← Threaded.lift (Step.phaseSize phase)
    if size = 0 then
      Threaded.lift do
        Step.updateTimes fun t => t.recordSkipped phase
        Step.log (.phaseSkipped phase.name "no references")
    else runPhase hooks readings pooled phase size
  tryFinally body (Threaded.lift (endPhase readings phase))

/-- Stops discovery, counts what was discovered, and advances the clock. -/
def begin (readings : Readings) : Step γ CycleCounts := do
  Step.updateProcessor fun p => .ok p.disable
  let p ← Step.processor
  let soft ← Step.ofExcept (p.total .soft)
  let weak ← Step.ofExcept (p.total .weak)
  let final ← Step.ofExcept (p.total .final)
  let phantom ← Step.ofExcept (p.total .phantom)
  let counts : CycleCounts := ⟨soft, weak, final, phantom⟩
  Step.updateTimes fun t => { t with discovered := counts }
  let (advanced, clock) := p.clock.advanceTo readings.now
  Step.setProcessor { p with clock }
  unless advanced do Step.log (.clockWarp readings.now clock.millis)
  Step.updateTimes fun t => t.setMulti p.isMulti
  return counts

/-- Resolves everything that was discovered, on the pool if `pooled` and there
is one.  Returns how many references there were of each kind. -/
def process (hooks : Hooks γ) (readings : Readings) (pooled : Bool) : Pass γ CycleCounts := do
  let pool := (← get).pool
  let pooled := pooled && pool.isSome
  let counts ← Threaded.lift (begin readings)
  phase hooks readings pooled .softWeakFinal
  phase hooks readings pooled .keepAliveFinal
  phase hooks readings pooled .phantom
  Threaded.lift do
    let ns := readings.took .whole
    Step.updateTimes fun t => t.setTotal ns
    Step.ofExcept (← Step.processor).verifyEmpty
    let millis := millisOfNanos ns
    Step.log (.summary counts.soft counts.weak counts.final counts.phantom millis)
  return counts

end Pass

end Referents
