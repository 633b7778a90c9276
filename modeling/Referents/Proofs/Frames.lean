import Referents.Processing
import Referents.Proofs.Degree
import Referents.Proofs.Execution

/-!
# What a computation leaves as it was

A phase narrows the degree, and what follows may fail at any step: a collector may
refuse an answer, a pool may be unable to start a thread, a list may be broken.  What is
said of a computation here is said of the state in which it ends, whether it returned or
failed, and so needs no assumption on collector, lists and pool.

* `Leaves` — a part of the state is what it was, however a computation ends.
* `Leaves.bind`, `Leaves.forM`, `Threaded.leaves_runTask` — the same for what is put
  together from such computations.
* `Pass.leaves_runPhase` — after a phase the degree is what it was before, although it is
  another one while the phase lasts.
* `Pass.leaves_process` — so it is after a cycle.
-/

namespace Referents

variable {ε σ τ υ α β γ : Type}

/-- The state in which a computation ends, whether it returns or fails. -/
def endState (x : EStateM ε σ α) (s : σ) : σ :=
  match x s with
  | .ok _ s' => s'
  | .error _ s' => s'

theorem endState_of_ok {x : EStateM ε σ α} {s s' : σ} {a : α} (h : x s = .ok a s') :
    endState x s = s' := by simp [endState, h]

theorem endState_of_error {x : EStateM ε σ α} {s s' : σ} {e : ε} (h : x s = .error e s') :
    endState x s = s' := by simp [endState, h]

/-- What is done at the end starts where the computation before it ended. -/
theorem endState_tryFinally (x : EStateM ε σ α) (y : EStateM ε σ β) (s : σ) :
    endState (tryFinally x y) s = endState y (endState x s) := by
  cases hx : x s with
  | ok a s₁ =>
      cases hy : y s₁ with
      | ok b s₂ => simp [endState, tryFinally_ok hx hy, hx, hy]
      | error e s₂ =>
          simp [endState, tryFinally, tryFinally', Functor.map, EStateM.map, hx, hy]
  | error e s₁ =>
      cases hy : y s₁ with
      | ok b s₂ => simp [endState, tryFinally_error hx hy, hx, hy]
      | error e' s₂ =>
          simp [endState, tryFinally, tryFinally', Functor.map, EStateM.map, hx, hy]

/-- If `P` holds of the part `f` of the state before a computation, then this part is the
same after it, however it ends. -/
def Leaves (f : σ → τ) (P : τ → Prop) (x : EStateM ε σ α) : Prop :=
  ∀ s, P (f s) → f (endState x s) = f s

section Leaves

variable {f : σ → τ} {P : τ → Prop}

/-- Returning a value leaves everything. -/
theorem leaves_pure (a : α) : Leaves f P (pure a : EStateM ε σ α) := fun _ _ => rfl

/-- Reading the state leaves everything. -/
theorem leaves_get : Leaves f P (get : EStateM ε σ σ) := fun _ _ => rfl

/-- A change of the state leaves the parts that it does not change. -/
theorem leaves_modify {g : σ → σ} (hg : ∀ s, P (f s) → f (g s) = f s) :
    Leaves f P (modify g : EStateM ε σ PUnit) := hg

namespace Leaves

/-- What is left in every case is left by a run that returns. -/
theorem of_ok {x : EStateM ε σ α} (hx : Leaves f (fun _ => True) x) {s s' : σ} {a : α}
    (hrun : x s = .ok a s') : f s' = f s := by
  rw [← endState_of_ok hrun]
  exact hx s trivial

/-- What depends on a part that is left is left. -/
theorem comp {x : EStateM ε σ α} (hx : Leaves f (fun _ => True) x) (g : τ → υ) {Q : υ → Prop} :
    Leaves (g ∘ f) Q x := fun s _ => congrArg g (hx s trivial)

/-- Of two computations in a row the second starts with what the first has left. -/
theorem bind {x : EStateM ε σ α} {g : α → EStateM ε σ β} (hx : Leaves f P x)
    (hg : ∀ a, Leaves f P (g a)) : Leaves f P (x >>= g) := by
  intro s hs
  have hfirst := hx s hs
  cases hrun : x s with
  | ok a s' =>
      rw [endState_of_ok hrun] at hfirst
      have hstate : endState (x >>= g) s = endState (g a) s' := by
        rw [endState, bind_ok hrun, endState]
      rw [hstate, hg a s' (hfirst ▸ hs), hfirst]
  | error e s' =>
      rw [endState_of_error hrun] at hfirst
      rw [endState_of_error (bind_error hrun), hfirst]

/-- A computation that goes on from what it reads in the state knows the part. -/
theorem read {g : σ → EStateM ε σ β} (hg : ∀ s, Leaves f (fun v => P v ∧ v = f s) (g s)) :
    Leaves f P (get >>= g) := fun s hs => hg s s ⟨hs, rfl⟩

/-- Changing the answer leaves what was left. -/
theorem map {x : EStateM ε σ α} (hx : Leaves f P x) (g : α → β) : Leaves f P (g <$> x) := by
  rw [map_eq_pure_bind]
  exact hx.bind fun _ => leaves_pure _

/-- A loop leaves what its body leaves, also if it is broken off. -/
theorem forM {ι : Type} {g : ι → EStateM ε σ Unit} {l : List ι} (hg : ∀ i, Leaves f P (g i)) :
    Leaves f P (l.forM g) := by
  induction l with
  | nil => exact leaves_pure ()
  | cons i rest ih => exact (hg i).bind fun _ => ih

/-- A computation and what is done at its end leave what both leave. -/
theorem tryFinally {x : EStateM ε σ α} {y : EStateM ε σ β} (hx : Leaves f P x)
    (hy : Leaves f P y) : Leaves f P (tryFinally x y) := by
  intro s hs
  rw [endState_tryFinally, hy _ (by rwa [hx s hs]), hx s hs]

end Leaves

end Leaves

/-! ### Workers -/

namespace Threaded

variable {f : σ → τ} {P : τ → Prop}

/-- A computation on the state of a worker leaves what it leaves of the state. -/
theorem leaves_lift {x : EStateM ε σ α} (hx : Leaves f P x) :
    Leaves (fun t : Threaded σ => f t.state) P (lift x) := by
  intro t ht
  have hstate : (endState (lift x) t).state = endState x t.state := by
    cases hrun : x t.state <;> simp [endState, lift, hrun]
  exact (congrArg f hstate).trans (hx t.state ht)

/-- The body of a worker leaves what it would leave without the worker's id. -/
theorem leaves_withWorker {id : Nat} {x : EStateM ε (Threaded σ) α}
    (hx : Leaves (fun t => f t.state) P x) :
    Leaves (fun t : Threaded σ => f t.state) P (withWorker id x) := by
  intro t ht
  have hbody := hx { t with worker := some id } ht
  cases hrun : x { t with worker := some id } with
  | ok a u =>
      rw [endState_of_ok hrun] at hbody
      rw [endState_of_ok (withWorker_ok hrun)]
      exact hbody
  | error e u =>
      rw [endState_of_error hrun] at hbody
      rw [endState_of_error (withWorker_error hrun)]
      exact hbody

/-- Units in any order leave what each of them leaves. -/
theorem leaves_runEach {unit : Nat → EStateM ε (Threaded σ) α}
    (hunit : ∀ i, Leaves (fun t => f t.state) P (unit i)) (units : List Nat) :
    Leaves (fun t : Threaded σ => f t.state) P (runEach unit units) := by
  induction units with
  | nil => exact leaves_pure _
  | cons i rest ih =>
      exact (leaves_withWorker (hunit i)).bind fun _ => ih.bind fun _ => leaves_pure _

/-- Starting threads changes nothing, whether they start or not. -/
theorem endState_startThreads (n : Nat) (t : Threaded σ) : endState (startThreads n) t = t := by
  cases hpool : t.pool with
  | none => simp [endState, startThreads, hpool]
  | some p => cases hstart : p.startThreads n <;> simp [endState, startThreads, hpool, hstart]

/-- A task leaves what its units leave, also where threads cannot be started for it. -/
theorem leaves_runTask {n : Nat} {unit : Nat → EStateM Fault (Threaded σ) α}
    (hunit : ∀ i, Leaves (fun t => f t.state) P (unit i)) (order : UnitOrder n) :
    Leaves (fun t : Threaded σ => f t.state) P (runTask n unit order) := by
  unfold runTask
  split
  · exact leaves_pure _
  · refine Leaves.bind (leaves_modify fun _ _ => rfl) fun _ => ?_
    refine Leaves.bind (fun t _ => ?_) fun _ => leaves_runEach hunit _
    rw [endState_startThreads]

end Threaded

/-! ### The processor in a cycle -/

/-- What no step of a phase changes in a processor. -/
def Processor.shape (p : Processor) : Config × Nat := (p.config, p.degree)

/-- The configuration and the degree of the processor. -/
def Cycle.shape (c : Cycle γ) : Config × Nat := c.processor.shape

/-- Logging the lengths of lists changes the journal only. -/
theorem Processor.shape_logLengths {p p' : Processor} {sink sink' : Sink} {label : String}
    {k : RefKind} (hrun : p.logLengths sink label k = .ok (p', sink')) : p'.shape = p.shape := by
  unfold logLengths at hrun
  split at hrun
  · obtain ⟨n, -, hrun⟩ := exists_of_except_bind_ok hrun
    cases hrun
    rfl
  · cases hrun
    rfl

/-- Balancing the lists of a kind leaves configuration and degree. -/
theorem Processor.shape_balanceIfNeeded {p p' : Processor} {h h' : Heap} {sink sink' : Sink}
    {k : RefKind} (hrun : p.balanceIfNeeded h sink k = .ok (p', h', sink')) :
    p'.shape = p.shape := by
  obtain ⟨-, -, hrun⟩ := exists_of_except_bind_ok hrun
  split at hrun
  · obtain ⟨total, -, hrun⟩ := exists_of_except_bind_ok hrun
    obtain ⟨⟨g, lists⟩, -, hrun⟩ := exists_of_except_bind_ok hrun
    cases hrun
    rfl
  · cases hrun
    rfl

/-- Narrowing changes the degree, and never the configuration. -/
theorem Processor.config_narrow {p : Processor} {phase : Phase} {size : Nat} {active : Option Nat}
    {n : Narrowed} (hn : p.narrow phase size active = .ok n) : n.processor.config = p.config := by
  unfold narrow at hn
  split at hn
  · obtain ⟨threads, -, hn⟩ := exists_of_except_bind_ok hn
    obtain ⟨p', hset, hn⟩ := exists_of_except_bind_ok hn
    cases hn
    obtain ⟨-, rfl⟩ := setDegree_eq hset
    rfl
  · cases hn
    rfl

namespace Step

variable {f : Cycle γ → τ} {P : τ → Prop} {Q : Config × Nat → Prop}

/-- What was computed beside the state leaves the state. -/
theorem leaves_ofExcept (x : Except Fault α) : Leaves f P (ofExcept x : Step γ α) := by
  cases x <;> exact fun _ _ => rfl

/-- A computation may go on from what returned only. -/
theorem leaves_of_except {x : Except Fault α} {g : α → Step γ β}
    (hg : ∀ a, x = .ok a → Leaves f P (g a)) : Leaves f P (ofExcept x >>= g : Step γ β) := by
  cases x with
  | ok a => exact hg a rfl
  | error e => exact fun _ _ => rfl

/-- A computation on the world leaves what does not depend on the world. -/
theorem leaves_onWorld (x : Act γ α) (hf : ∀ c w, f { c with world := w } = f c) :
    Leaves f P (onWorld x : Step γ α) := by
  intro c _
  cases hrun : x c.world <;> simp [endState, onWorld, hrun, hf]

/-- Taking times leaves the processor. -/
theorem leaves_updateTimes (g : PhaseTimes → PhaseTimes) :
    Leaves Cycle.shape Q (updateTimes g : Step γ Unit) := leaves_modify fun _ _ => rfl

/-- Times that may not fit leave the processor too. -/
theorem leaves_tryUpdateTimes (g : PhaseTimes → Except Fault PhaseTimes) :
    Leaves Cycle.shape Q (tryUpdateTimes g : Step γ Unit) :=
  Leaves.read fun _ => (leaves_ofExcept _).bind fun _ => fun _ hs => hs.2.symm

/-- A processor of the same shape may be put in the place of the one there is. -/
theorem leaves_setProcessor {p : Processor} (hp : ∀ v, Q v → v = p.shape) :
    Leaves Cycle.shape Q (setProcessor p : Step γ Unit) := fun _ hs => (hp _ hs).symm

/-- Changing the processor leaves the times. -/
theorem leaves_times_updateProcessor {R : PhaseTimes → Prop}
    (g : Processor → Except Fault Processor) :
    Leaves Cycle.times R (updateProcessor g : Step γ Unit) :=
  (leaves_get.map _).bind fun _ => leaves_of_except fun _ _ _ _ => rfl

/-- Offering a reference leaves the times. -/
theorem leaves_times_discover {R : PhaseTimes → Prop} (worker : Option Nat) (o : Handle)
    (kind : Kind) : Leaves Cycle.times R (discover worker o kind : Step γ Bool) :=
  Leaves.read fun _ => leaves_of_except fun _ _ =>
    Leaves.bind (fun _ hs => hs.2.symm) fun _ => leaves_pure _

/-- Changing the processor leaves what the change, where there is one, leaves. -/
theorem leaves_updateProcessor {g : Processor → Except Fault Processor} {f : Processor → τ}
    (hg : ∀ p p', P (f p) → g p = .ok p' → f p' = f p) :
    Leaves (fun c : Cycle γ => f c.processor) P (updateProcessor g : Step γ Unit) := fun c hc =>
  leaves_of_except (f := fun c : Cycle γ => f c.processor) (P := fun v => v = f c.processor)
    (x := g c.processor) (g := setProcessor)
    (fun p' hrun _ hs => (hg c.processor p' hc hrun).trans hs.symm) c rfl

/-- A computation that goes on from the processor knows its shape. -/
theorem leaves_of_processor {g : Processor → Step γ α}
    (hg : ∀ p, Leaves Cycle.shape (fun v => Q v ∧ v = p.shape) (g p)) :
    Leaves Cycle.shape Q (processor >>= g) := fun c hs => hg c.processor c ⟨hs, rfl⟩

/-- Logging leaves configuration and degree. -/
theorem leaves_log (e : Event) : Leaves Cycle.shape Q (log e : Step γ Unit) := fun _ _ => rfl

/-- Logging lengths leaves configuration and degree, also where a length overflows. -/
theorem leaves_logLengths (label : String) (k : RefKind) :
    Leaves Cycle.shape Q (logLengths label k : Step γ Unit) :=
  Leaves.read fun _ => leaves_of_except fun _ hrun _ hs =>
    (Processor.shape_logLengths hrun).trans hs.2.symm

/-- Noting the time of a worker leaves the processor, whether there is room for it or not. -/
theorem leaves_recordWorker (readings : Readings) (s : SubPhase) (queue : Nat) :
    Leaves Cycle.shape Q (recordWorker readings s queue : Step γ Unit) :=
  leaves_of_processor fun _ => leaves_tryUpdateTimes _

/-- Resolving a list leaves configuration and degree, whatever the collector answers. -/
theorem leaves_resolveQueue (hooks : Hooks γ) (publishing : Bool) (queue : Nat) (k : RefKind) :
    Leaves Cycle.shape Q (resolveQueue hooks publishing queue k) := by
  refine leaves_of_processor fun p => (leaves_ofExcept _).bind fun list => ?_
  refine (leaves_onWorld _ fun _ _ => rfl).bind fun kind => ?_
  refine (leaves_onWorld _ fun _ _ => rfl).bind fun r => ?_
  refine (leaves_setProcessor fun _ hv => hv.2).bind fun _ => ?_
  cases kind with
  | none => exact leaves_updateTimes _
  | some kind => exact (leaves_log _).bind fun _ => leaves_updateTimes _

/-- Keeping the referents of a list alive leaves configuration and degree. -/
theorem leaves_keepFinalQueue (hooks : Hooks γ) (queue : Nat) :
    Leaves Cycle.shape Q (keepFinalQueue hooks queue) :=
  leaves_of_processor fun _ => (leaves_ofExcept _).bind fun _ =>
    (leaves_onWorld _ fun _ _ => rfl).bind fun _ => leaves_setProcessor fun _ hv => hv.2

/-- The unit of a phase leaves the degree. -/
theorem leaves_unit (hooks : Hooks γ) (readings : Readings) (phase : Phase) (queue : Nat) :
    Leaves Cycle.shape Q (unit hooks readings phase queue) := by
  have hcomplete : Leaves Cycle.shape Q (onWorld hooks.complete : Step γ Unit) :=
    leaves_onWorld _ fun _ _ => rfl
  have hresolve : ∀ publishing k,
      Leaves Cycle.shape Q (resolveTimed hooks readings publishing queue k) := fun publishing k =>
    (leaves_resolveQueue hooks publishing queue k).bind fun _ =>
      leaves_recordWorker readings _ queue
  cases phase with
  | softWeakFinal =>
      exact (hresolve true .soft).bind fun _ => (hresolve true .weak).bind fun _ =>
        (hresolve false .final).bind fun _ => hcomplete
  | keepAliveFinal =>
      exact (leaves_keepFinalQueue hooks queue).bind fun _ => hcomplete.bind fun _ =>
        leaves_recordWorker readings _ queue
  | phantom =>
      exact (leaves_resolveQueue hooks true queue .phantom).bind fun _ =>
        hcomplete.bind fun _ => leaves_recordWorker readings _ queue

/-- Balancing before a phase leaves configuration and degree. -/
theorem leaves_balanceFor (readings : Readings) (phase : Phase) :
    Leaves Cycle.shape Q (balanceFor readings phase : Step γ Unit) := by
  refine leaves_of_processor fun p => ?_
  split
  · refine (Leaves.forM fun k => Leaves.read fun c => ?_).bind fun _ => leaves_updateTimes _
    exact leaves_of_except fun r hrun _ hs =>
      (Processor.shape_balanceIfNeeded hrun).trans hs.2.symm
  · exact leaves_pure ()

/-- Counting the references of a phase leaves everything. -/
theorem leaves_phaseSize (phase : Phase) : Leaves f P (phaseSize phase : Step γ Nat) := by
  refine leaves_get.bind fun c => ?_
  cases phase <;> exact leaves_ofExcept _

end Step

namespace Pass

variable {Q : Config × Nat → Prop}

/-- The configuration and the degree of the processor in a pass. -/
def shape (t : Threaded (Cycle γ)) : Config × Nat := t.state.shape

/-- A step of a cycle leaves the same for a pass. -/
theorem leaves_lift {x : Step γ α} (hx : Leaves Cycle.shape Q x) :
    Leaves shape Q (Threaded.lift x : Pass γ α) := Threaded.leaves_lift hx

/-- All units of a phase leave the degree that it was narrowed to. -/
theorem leaves_dispatch (hooks : Hooks γ) (readings : Readings) (pooled : Bool) (phase : Phase) :
    Leaves shape Q (dispatch hooks readings pooled phase) := by
  refine (leaves_lift (leaves_get.map _)).bind fun p => ?_
  refine (leaves_lift ((Step.leaves_log _).bind fun _ =>
    Step.leaves_onWorld _ fun _ _ => rfl)).bind fun _ => ?_
  have hunit : ∀ queue, Leaves shape Q (do
      let worker ← Threaded.currentWorker
      Threaded.lift do
        Step.onWorld (Act.updateCollector (hooks.enterUnit queue worker))
        Step.unit hooks readings phase queue : Pass γ Unit) := fun queue =>
    (leaves_get.map _).bind fun worker => leaves_lift
      ((Step.leaves_onWorld _ fun _ _ => rfl).bind fun _ =>
        Step.leaves_unit hooks readings phase queue)
  split
  · exact (Threaded.leaves_runTask hunit _).map _
  · exact Leaves.forM hunit

/-- What leaves configuration and degree leaves the configuration. -/
theorem leaves_config {x : Pass γ α} (hx : Leaves shape (fun _ => True) x) {R : Config → Prop} :
    Leaves (fun t => t.state.processor.config) R x := hx.comp Prod.fst

/-- A narrowed phase leaves the configuration. -/
theorem leaves_runNarrowed (hooks : Hooks γ) (readings : Readings) (pooled : Bool) (phase : Phase)
    (size : Nat) {R : Config → Prop} :
    Leaves (fun t => t.state.processor.config) R
      (runNarrowed hooks readings pooled phase size) := by
  have hnarrow : ∀ active : Option Nat, Leaves (fun c : Cycle γ => c.processor.config) R
      (Step.updateProcessor fun p => Narrowed.processor <$> p.narrow phase size active) := by
    refine fun active => Step.leaves_updateProcessor fun p p' _ hrun => ?_
    cases hn : p.narrow phase size active with
    | error e => rw [hn] at hrun; cases hrun
    | ok n =>
        rw [hn] at hrun
        cases hrun
        exact Processor.config_narrow hn
  refine leaves_get.bind fun t => Leaves.bind ?_ fun _ => ?_
  · refine Threaded.leaves_lift ((hnarrow _).bind fun _ => ?_)
    exact ((Step.leaves_balanceFor readings phase).bind fun _ =>
      Leaves.forM fun _ => Step.leaves_logLengths _ _).comp Prod.fst
  · refine leaves_config ((leaves_dispatch hooks readings pooled phase).bind fun _ => leaves_lift ?_)
    exact (Leaves.forM fun k => (leaves_get.map _).bind fun p => Step.leaves_ofExcept _).bind
      fun _ => Leaves.forM fun _ => Step.leaves_logLengths _ _

/-- A phase ends with the degree that it began with, narrowed or not, returning or failing. -/
theorem leaves_runPhase (hooks : Hooks γ) (readings : Readings) (pooled : Bool) (phase : Phase)
    (size : Nat) : Leaves shape (fun v => v.2 ≤ v.1.queues)
      (runPhase hooks readings pooled phase size) := by
  intro t ht
  have hsaved : (Threaded.lift (Processor.degree <$> Step.processor) : Pass γ Nat) t =
      .ok t.state.processor.degree t := rfl
  obtain ⟨u, hu⟩ : ∃ u, u = endState (runNarrowed hooks readings pooled phase size) t := ⟨_, rfl⟩
  have hconfig : u.state.processor.config = t.state.processor.config := by
    rw [hu]
    exact leaves_runNarrowed hooks readings pooled phase size (R := fun _ => True) t trivial
  have hrestore := Processor.setDegree_ok (p := u.state.processor)
    (n := t.state.processor.degree) (by rw [Processor.queues, hconfig]; exact ht)
  have hend : endState (runPhase hooks readings pooled phase size) t = { u with state :=
      { u.state with processor :=
        { u.state.processor with degree := t.state.processor.degree, turn := 0 } } } := by
    rw [endState, runPhase, bind_ok hsaved, ← endState, endState_tryFinally, ← hu]
    exact endState_of_ok (Threaded.lift_ok (Step.updateProcessor_ok hrestore))
  rw [hend]
  exact congrArg (·, t.state.processor.degree) hconfig

/-- The same for a phase that may be skipped, and whose time is taken. -/
theorem leaves_phase (hooks : Hooks γ) (readings : Readings) (pooled : Bool) (phase : Phase) :
    Leaves shape (fun v => v.2 ≤ v.1.queues) (Pass.phase hooks readings pooled phase) := by
  refine Leaves.tryFinally ((leaves_lift (Step.leaves_phaseSize phase)).bind fun size => ?_)
    (leaves_lift ((Step.leaves_updateTimes _).bind fun _ => Step.leaves_log _))
  split
  · exact leaves_lift ((Step.leaves_updateTimes _).bind fun _ => Step.leaves_log _)
  · exact leaves_runPhase hooks readings pooled phase size

/-- What a cycle starts with leaves configuration and degree. -/
theorem leaves_begin (readings : Readings) {Q : Config × Nat → Prop} :
    Leaves Cycle.shape Q (begin readings : Step γ CycleCounts) := by
  have htotal : ∀ (p : Processor) (k : RefKind) {R : Config × Nat → Prop},
      Leaves Cycle.shape R (Step.ofExcept (p.total k) : Step γ Nat) := fun _ _ _ =>
    Step.leaves_ofExcept _
  have hdisable : Leaves Cycle.shape Q (Step.updateProcessor fun p => .ok p.disable : Step γ Unit) :=
    Step.leaves_updateProcessor (f := Processor.shape) fun _ _ _ hp => by cases hp; rfl
  refine hdisable.bind fun _ => Step.leaves_of_processor fun p => ?_
  refine (htotal p .soft).bind fun _ => (htotal p .weak).bind fun _ =>
    (htotal p .final).bind fun _ => (htotal p .phantom).bind fun _ => ?_
  refine (Step.leaves_updateTimes _).bind fun _ => ?_
  refine (Step.leaves_setProcessor fun _ hv => hv.2).bind fun _ => ?_
  dsimp only
  split
  · exact (Step.leaves_updateTimes _).bind fun _ => leaves_pure _
  · exact (Step.leaves_log _).bind fun _ =>
      (Step.leaves_updateTimes _).bind fun _ => leaves_pure _

/-- However a cycle ends, and whatever it fails at, the processor has the degree that the
cycle was called with. -/
theorem leaves_process (hooks : Hooks γ) (readings : Readings) (pooled : Bool) :
    Leaves shape (fun v => v.2 ≤ v.1.queues) (process hooks readings pooled) := by
  have hphase := fun pooled => leaves_phase hooks readings pooled
  refine leaves_get.bind fun t => (leaves_lift (leaves_begin readings)).bind fun counts => ?_
  refine (hphase _ .softWeakFinal).bind fun _ => (hphase _ .keepAliveFinal).bind fun _ =>
    (hphase _ .phantom).bind fun _ => Leaves.bind (leaves_lift ?_) fun _ => leaves_pure _
  exact (Step.leaves_updateTimes _).bind fun _ => (leaves_get.map _).bind fun p =>
    (Step.leaves_ofExcept _).bind fun _ => Step.leaves_log _

end Pass

end Referents
