import Referents.Proofs.Ledger
import Referents.Proofs.Operations

/-!
# Histories of a program

A program allocates and drops objects, collects again and again, and its handler
hands out what the collections published, at any time: also late, so that several
collections come before one pass.  A collection goes through its **stages** in
order: the marks are removed, discovery is enabled, roots are marked and traced,
the lists may be precleaned, and everything is resolved.  In between mutators and
the handler do as they like.

* `Runtime.Op`, `Runtime.History` — what a program does, and what is noted of it.
* `Runtime.Op.run_ok` — every operation returns where it is allowed, and keeps
  the ledger.
* `Runtime.handed_out_once` — over every history what was published since the last
  pass is pending, and the next pass hands it out; no reference is handed out twice.
-/

namespace Referents

/-- A program: the heap with its marker and processor, and the handler. -/
structure Runtime where
  core : Threaded (Cycle Marker)
  handler : Handler

namespace Runtime

/-- The objects of a program. -/
def heap (x : Runtime) : Heap := x.core.state.world.heap

/-- The references that are pending. -/
def pending (x : Runtime) : List Handle := x.core.state.pending

/-- What the handler works on. -/
def delivery (x : Runtime) : Delivery := ⟨x.handler, x.heap, x.core.state.sink⟩

/-- The program after the handler has worked. -/
def withDelivery (x : Runtime) (d : Delivery) : Runtime where
  core := { x.core with state := { x.core.state with
    world := { x.core.state.world with heap := d.heap }
    sink := d.sink } }
  handler := d.handler

/-- A computation that leaves the handler alone. -/
def onCore {α : Type} (y : Pass Marker α) : EStateM Fault Runtime α := fun x =>
  match y x.core with
  | .ok a core => .ok a { x with core }
  | .error f core => .error f { x with core }

/-- A computation of the handler. -/
def onDelivery {α : Type} (y : EStateM Fault Delivery α) : EStateM Fault Runtime α := fun x =>
  match y x.delivery with
  | .ok a d => .ok a (x.withDelivery d)
  | .error f d => .error f (x.withDelivery d)

/-- How far a collection is. -/
inductive Stage where
  | resting
  | unmarked
  | discovering
  | rooted
  | traced
deriving DecidableEq

/-- The operations of mutators, collections and the handler.  A yield check gets its
answers from a state of its own. -/
inductive Op : Type 1 where
  | allocate (generation : Generation)
  | allocateReference (kind : Kind) (referent : Option Handle) (generation : Generation)
  | addEdge (source target : Handle)
  | clearReferent (o : Handle)
  | usePolicy (policy : SoftPolicy)
  | setupPolicy (clearAll : Bool) (space : Occupancy)
  | setScope (scope : Scope)
  | setKnownAlive (alive : Option (Handle → Bool))
  | setMulti (multi : Bool)
  | reset
  | enable
  | markRoots (roots : List Handle)
  | trace (worker : Option Nat)
  | preclean (τ : Type) (check : YieldCheck τ) (answers : τ) (readings : Readings)
  | process (readings : Readings) (pool : Option Pool)
  | handOut
  | poll

namespace Op

/-- Runs an operation, and notes what it did. -/
def run : Op → EStateM Fault Runtime Note
  | .allocate generation => silently (discard (Step.attempt (Act.transform fun h =>
      h.allocate generation)))
  | .allocateReference kind referent generation => do
      match ← onCore (Threaded.lift (Step.attempt (Act.transform fun h =>
        h.allocateReference kind referent generation))) with
      | some o => return .create o kind referent
      | none => return .silent
  | .addEdge source target => silently (discard (Step.attempt (Act.update fun h =>
      h.addEdge source target)))
  | .clearReferent o => do
      onCore (Threaded.lift (Step.onWorld (Act.update fun h => h.clearReferent o)))
      return .clear o
  | .usePolicy policy => setting fun p => p.withPolicy policy
  | .setupPolicy clearAll space => setting fun p => p.setupPolicy clearAll space
  | .setScope scope => setting fun p => { p with scope }
  | .setKnownAlive alive => setting fun p => { p with knownAlive := alive }
  | .setMulti multi => setting fun p => { p with multiDiscovery := multi }
  | .reset => silently (Step.onWorld Marker.reset)
  | .enable => silently (Step.updateProcessor Processor.enable)
  | .markRoots roots => silently (Step.onWorld (Marker.markAll roots))
  | .trace worker => silently (Marker.trace worker)
  | .preclean τ check answers readings => silently (discard
      (Step.viaCollector (·, answers) Prod.fst
        (Step.preclean (Marker.hooks.beside τ) (check.beside Marker) readings)))
  | .process readings pool => do
      let before := (← get).pending
      onCore do
        modify fun t => { t with pool }
        discard (Pass.process Marker.hooks readings true)
      let after := (← get).pending
      return .publish (after.take (after.length - before.length))
  | .handOut => do
      let before := (← get).handler
      discard (onDelivery Delivery.processPending)
      let after := (← get).handler
      return .handOut (after.queue.items.drop before.queue.items.length)
        (after.finalizations.toList.drop before.finalizations.toList.length)
  | .poll => do
      let o ← onDelivery fun d => .ok d.poll.1 d.poll.2
      return .poll o
where
  /-- Runs a computation of which nothing is noted. -/
  silently (y : Step Marker Unit) : EStateM Fault Runtime Note := do
    onCore (Threaded.lift y)
    return .silent
  /-- Changes a setting of the processor. -/
  setting (f : Processor → Processor) : EStateM Fault Runtime Note :=
    silently (Step.updateProcessor fun p => .ok (f p))

/-- The stage after an operation, if it may come in the stage before. -/
def next : Op → Stage → Option Stage
  | .reset, .resting => some .unmarked
  | .enable, .unmarked => some .discovering
  | .markRoots _, .discovering => some .rooted
  | .trace _, .rooted => some .traced
  | .preclean .., .traced => some .traced
  | .process .., .traced => some .resting
  | .reset, _ | .enable, _ | .markRoots _, _ | .trace _, _ => none
  | .preclean .., _ | .process .., _ => none
  | _, stage => some stage

/-- What an operation may be asked for.  Between discovery and processing targets are
cleared only if discovery is concurrent.  A cycle gets a pool that can start threads, and has
room for the times of its workers. -/
def Allowed (stage : Stage) (x : Runtime) : Op → Prop
  | .clearReferent o => x.heap.holds o = true ∧
      (x.core.state.processor.config.concurrentDiscovery = false → stage ≠ .traced)
  | .markRoots roots => ∀ o ∈ roots, x.heap.holds o = true
  | .trace worker => x.core.state.processor.multiDiscovery = true →
      worker.getD 0 < x.core.state.processor.queues
  | .process readings pool => readings.now < 2 ^ 63 ∧ (∀ p ∈ pool, p.CanStart) ∧
      x.core.state.times.HasRoom x.core.state.processor.queues
  | _ => True

end Op

/-- The program `start` has come to the state `x` in the given stage, and the notes
were made on the way. -/
inductive History (start : Runtime) : List Note → Stage → Runtime → Prop
  | start : History start [] .resting start
  | step {notes : List Note} {stage stage' : Stage} {x x' : Runtime} {op : Op} {note : Note} :
      History start notes stage x → op.Allowed stage x → op.next stage = some stage' →
      op.run x = .ok note x' → History start (notes ++ [note]) stage' x'

/-! ### Every operation -/

/-- What the pass of a program returns, the program returns. -/
theorem onCore_ok {α : Type} {y : Pass Marker α} {x : Runtime} {a : α}
    {core : Threaded (Cycle Marker)} (h : y x.core = .ok a core) :
    onCore y x = .ok a { x with core } := by
  simp [onCore, h]

/-- What the handler of a program returns, the program returns. -/
theorem onDelivery_ok {α : Type} {y : EStateM Fault Delivery α} {x : Runtime} {a : α}
    {d : Delivery} (h : y x.delivery = .ok a d) : onDelivery y x = .ok a (x.withDelivery d) := by
  simp [onDelivery, h]

/-- What all histories keep.  Only between discovery and processing something is
listed. -/
structure Kept (notes : List Note) (stage : Stage) (x : Runtime) (r : Roster)
    (ps : List Handle) : Prop where
  accounted : Accounted x.core.state r ps
  ledger : Ledger notes x.heap x.handler ps
  empty : stage ≠ .traced → r = Roster.none
  off : stage = .resting ∨ stage = .unmarked → x.core.state.processor.enabled = false

/-- An operation returns, and histories go on. -/
def Continues (notes : List Note) (stage : Stage) (x : Runtime)
    (y : EStateM Fault Runtime Note) : Prop :=
  ∃ note x' r ps, y x = .ok note x' ∧ Kept (notes ++ [note]) stage x' r ps

namespace Kept

variable {notes : List Note} {stage stage' : Stage} {x : Runtime} {r r' : Roster}
variable {ps : List Handle} {c : Cycle Marker}

/-- A step that hands out nothing. -/
theorem advance {note : Note} {S : Handle → Prop} {core : Threaded (Cycle Marker)}
    (hk : Kept notes stage x r ps) (ha : Accounted core.state r' (note.published ++ ps))
    (hf : x.heap.Fades S core.state.world.heap) (hhanded : note.handed = [])
    (hpolled : note.polled = []) (howed : note.owed ps = note.published ++ ps)
    (hpointed : ∀ o ∈ note.published, x.heap.target o ≠ none)
    (hcleared : ∀ o, S o → note = .clear o)
    (hnew : ∀ o, core.state.world.heap.kindOf o = some .final → x.heap.holds o = true ∨
      note = .create o (some .final) (core.state.world.heap.target o))
    (hempty : stage' ≠ .traced → r' = Roster.none)
    (hoff : stage' = .resting ∨ stage' = .unmarked → core.state.processor.enabled = false) :
    Kept (notes ++ [note]) stage' { x with core } r' (note.published ++ ps) where
  accounted := ha
  ledger := hk.ledger.advance hf hk.accounted.registered.pending.held hhanded hpolled howed
    hpointed ha.registered.pending.nodup hcleared hnew
  empty := hempty
  off := hoff

/-- A step of which nothing is noted. -/
theorem silently (hk : Kept notes stage x r ps) {y : Step Marker Unit}
    (hrun : y x.core.state = .ok () c) (ha : Accounted c r' ps)
    (hf : x.heap.Fades (fun _ => False) c.world.heap)
    (hnew : ∀ o, c.world.heap.kindOf o = some .final → x.heap.holds o = true)
    (hempty : stage' ≠ .traced → r' = Roster.none)
    (hoff : stage' = .resting ∨ stage' = .unmarked → c.processor.enabled = false) :
    Continues notes stage' x (Op.run.silently y) := by
  refine ⟨.silent, { x with core := { x.core with state := c } }, r', ps,
    (bind_ok (onCore_ok (Threaded.lift_ok hrun))).trans rfl, ?_⟩
  exact hk.advance ha hf rfl rfl rfl
    (fun _ ho => nomatch ho) (fun _ hS => hS.elim) (fun o ho => .inl (hnew o ho)) hempty hoff

/-! ### Mutators -/

/-- An allocation keeps the invariant, also if the table is full. -/
theorem allocate (hk : Kept notes stage x r ps) (generation : Generation) :
    Continues notes stage x (Op.run (.allocate generation)) := by
  rcases x.heap.push_cases (.fresh none generation none) with ⟨o, g, hg⟩ | hfull
  · have hgrown := Heap.push_grown hg
    refine hk.silently (map_ok (fun _ => ()) (Step.attempt_ok (Act.transform_ok hg)))
      (hk.accounted.grown hgrown rfl) (hk.accounted.push_fresh hgrown rfl).1.fades ?_ hk.empty
      hk.off
    intro p hp
    have hkind := hgrown.kindOf p
    rw [show g.kindOf p = some .final from hp] at hkind
    split at hkind
    · cases hkind
    · exact Heap.holds_of_kindOf hkind.symm
  · exact hk.silently (map_ok (fun _ => ()) (Step.attempt_error (Act.transform_error hfull)))
      hk.accounted (Heap.Keeps.refl _).fades (fun _ => Heap.holds_of_kindOf) hk.empty hk.off

/-- A new reference is noted with its kind and target, and keeps the invariant. -/
theorem allocateReference (hk : Kept notes stage x r ps) (kind : Kind)
    (referent : Option Handle) (generation : Generation) :
    Continues notes stage x (Op.run (.allocateReference kind referent generation)) := by
  rcases x.heap.allocateReference_cases kind referent generation with ⟨o, g, hg⟩ | ⟨e, he⟩
  · obtain ⟨-, ht, hgrown⟩ := Heap.allocateReference_grown hg
    have hkeeps := (hk.accounted.push_fresh hgrown ht).1
    refine ⟨.create o kind referent, _, r, ps, (bind_ok (onCore_ok (Threaded.lift_ok
      (Step.attempt_ok (Act.transform_ok hg))))).trans rfl, ?_⟩
    refine hk.advance (hk.accounted.grown hgrown ht) hkeeps.fades rfl rfl rfl
      (fun _ ho => nomatch ho) (fun _ hS => hS.elim) (fun p hp => ?_) hk.empty hk.off
    have hkind := hgrown.kindOf p
    have htarget := hgrown.link .referent p
    rw [show g.kindOf p = some .final from hp] at hkind
    by_cases hpo : p = o
    · rw [if_pos hpo] at hkind htarget
      refine .inr ?_
      have hreferent : g.target p = referent := htarget.trans (Link.target_of referent)
      have hfinal : kind = some .final := hkind.symm
      show Note.create o kind referent = .create p (some .final) (g.target p)
      rw [hreferent, hfinal, hpo]
    · rw [if_neg hpo] at hkind
      exact .inl (Heap.holds_of_kindOf hkind.symm)
  · refine ⟨.silent, _, r, ps, (bind_ok (onCore_ok (Threaded.lift_ok
      (Step.attempt_error (Act.transform_error he))))).trans rfl, ?_⟩
    exact hk.advance hk.accounted (Heap.Keeps.refl _).fades rfl rfl rfl (fun _ ho => nomatch ho)
      (fun _ hS => hS.elim) (fun _ ho => .inl (Heap.holds_of_kindOf ho)) hk.empty hk.off

/-- A new edge keeps the invariant, also if it is refused. -/
theorem addEdge (hk : Kept notes stage x r ps) (source target : Handle) :
    Continues notes stage x (Op.run (.addEdge source target)) := by
  rcases x.heap.addEdge_cases source target with ⟨g, hg⟩ | ⟨e, he⟩
  · have hedged := Heap.addEdge_edged hg
    exact hk.silently (map_ok (fun _ => ()) (Step.attempt_ok (Act.update_ok hg)))
      (hk.accounted.edged hedged) hedged.keeps.fades
      (fun o ho => Heap.holds_of_kindOf ((congrFun (hedged.kindOf fun _ => rfl) o).symm.trans ho))
      hk.empty hk.off
  · exact hk.silently (map_ok (fun _ => ()) (Step.attempt_error (Act.update_error he)))
      hk.accounted (Heap.Keeps.refl _).fades (fun _ => Heap.holds_of_kindOf) hk.empty hk.off

/-- A target may be cleared, but not of a listed reference unless discovery is concurrent. -/
theorem clearReferent (hk : Kept notes stage x r ps) {o : Handle} (ho : x.heap.holds o = true)
    (hfree : x.core.state.processor.config.concurrentDiscovery = false → stage ≠ .traced) :
    Continues notes stage x (Op.run (.clearReferent o)) := by
  have hunlisted : x.core.state.processor.config.concurrentDiscovery = false →
      ∀ k, ¬ r.lists k o := by
    intro hconcurrent k hlisted
    obtain ⟨q, hq⟩ := hlisted
    rw [hk.empty (hfree hconcurrent)] at hq
    cases hq
  refine ⟨.clear o, _, r, ps, (bind_ok (onCore_ok (Threaded.lift_ok (Step.onWorld_ok
    (Act.update_ok (Heap.setReferent_ok ho)))))).trans rfl, ?_⟩
  exact hk.advance (hk.accounted.clear hunlisted) (x.heap.fades_clear o) rfl rfl rfl
    (fun _ ho => nomatch ho) (fun p hp => by rw [hp])
    (fun p hp => .inl (Heap.holds_of_kindOf ((congrFun Heap.kindOf_write p).symm.trans hp)))
    hk.empty hk.off

/-- A setting that is neither a list, nor a degree or turn, nor a clock. -/
theorem setting (hk : Kept notes stage x r ps) {f : Processor → Processor} {p : Processor}
    (hp : f x.core.state.processor = p) (hlists : p.lists = x.core.state.processor.lists)
    (hconfig : p.config = x.core.state.processor.config)
    (hdegree : p.degree = x.core.state.processor.degree)
    (hturn : p.turn = x.core.state.processor.turn)
    (hclock : p.clock = x.core.state.processor.clock)
    (hsnapshot : p.snapshot = x.core.state.processor.snapshot)
    (henabled : p.enabled = x.core.state.processor.enabled) :
    Continues notes stage x (Op.run.setting f) := by
  have hs := hk.accounted.toSound.of_setting hlists hconfig hdegree hturn
    (by rw [hclock]; exact hk.accounted.clock) hsnapshot
  refine hk.silently (Step.updateProcessor_ok (congrArg Except.ok hp))
    (hk.accounted.of_keeps hs (.refl _) hk.accounted.waiting hconfig) (Heap.Keeps.refl _).fades
    (fun _ => Heap.holds_of_kindOf) hk.empty fun hstage => ?_
  rw [henabled]
  exact hk.off hstage

/-! ### Collections -/

/-- A collection begins with all marks cleared. -/
theorem reset (hk : Kept notes .resting x r ps) :
    Continues notes .unmarked x (Op.run .reset) := by
  have hrun : (Marker.reset : Act Marker Unit) x.core.state.world =
      .ok () ⟨x.heap.clearMarks, {}⟩ := rfl
  exact hk.silently (Step.onWorld_ok hrun) hk.accounted.reset x.heap.keeps_clearMarks.fades
    (fun o => Heap.held_of_traits Heap.traits_clearMarks) (fun _ => hk.empty (by simp))
    fun _ => hk.off (.inl rfl)

/-- Discovery is enabled, since nothing is listed between collections. -/
theorem enable (hk : Kept notes .unmarked x r ps) :
    Continues notes .discovering x (Op.run .enable) := by
  obtain rfl : r = Roster.none := hk.empty (by simp)
  obtain ⟨hrun, ha⟩ := hk.accounted.enable_ok (hk.off (.inr rfl))
  exact hk.silently hrun ha (Heap.Keeps.refl _).fades (fun o => Heap.holds_of_kindOf)
    (fun _ => rfl) (by simp)

/-- The roots are marked. -/
theorem markRoots (hk : Kept notes .discovering x r ps) {roots : List Handle}
    (hroots : ∀ o ∈ roots, x.heap.holds o = true) :
    Continues notes .rooted x (Op.run (.markRoots roots)) := by
  obtain ⟨w, new, hrun, hgrows, -⟩ := Marker.markAll_ok hroots
  exact hk.silently (Step.onWorld_ok hrun) (hk.accounted.grows hgrows) hgrows.keeps.fades
    (fun o => Heap.held_of_traits hgrows.traits) (fun _ => hk.empty (by simp)) (by simp)

/-- Everything is traced from the roots, and every listed reference can be resolved. -/
theorem trace (hk : Kept notes .rooted x r ps) {worker : Option Nat}
    (hworker : x.core.state.processor.multiDiscovery = true →
      worker.getD 0 < x.core.state.processor.queues) :
    Continues notes .traced x (Op.run (.trace worker)) := by
  obtain rfl : r = Roster.none := hk.empty (by simp)
  obtain ⟨c, r', hrun, ha, hfades, htraits⟩ := hk.accounted.trace_ok hworker
  exact hk.silently hrun ha hfades (fun o => Heap.held_of_traits htraits) (by simp) (by simp)

/-- Precleaning may be cut anywhere, and keeps the invariant. -/
theorem preclean (hk : Kept notes .traced x r ps) (τ : Type) (check : YieldCheck τ)
    (answers : τ) (readings : Readings) :
    Continues notes .traced x (Op.run (.preclean τ check answers readings)) := by
  obtain ⟨out, c, r', hrun, ha, hfades, htraits⟩ :=
    hk.accounted.preclean_ok check answers readings
  exact hk.silently (map_ok (fun _ => ()) hrun) ha hfades
    (fun o => Heap.held_of_traits htraits) (by simp) (by simp)

/-- What was noted as published is what came to the pending chain. -/
theorem process (hk : Kept notes .traced x r ps) {readings : Readings}
    (hnow : readings.now < 2 ^ 63) {pool : Option Pool} (hpool : ∀ p ∈ pool, p.CanStart)
    (hroom : x.core.state.times.HasRoom x.core.state.processor.queues) :
    Continues notes .resting x (Op.run (.process readings pool)) := by
  have hequipped : Pass.Equipped true { x.core with pool } := ⟨fun _ => hpool, hroom⟩
  obtain ⟨core, counts, pub, hrun, ha, hfades, htraits, hpointed, hoff⟩ :=
    Accounted.process_ok (t := { x.core with pool }) hk.accounted hnow hequipped
  have hcore : (do
      modify fun t => { t with pool }
      discard (Pass.process Marker.hooks readings true) : Pass Marker Unit) x.core =
        .ok () core := (bind_ok (modify_ok _ x.core)).trans (map_ok (fun _ => ()) hrun)
  have hbefore : x.pending = ps := hk.accounted.pending_eq
  have hafter : ({ x with core } : Runtime).pending = pub ++ ps := ha.pending_eq
  refine ⟨.publish pub, { x with core }, Roster.none, pub ++ ps, ?_, ?_⟩
  · refine (bind_ok (get_ok x)).trans ((bind_ok (onCore_ok hcore)).trans
      ((bind_ok (get_ok _)).trans ?_))
    rw [hbefore, hafter, List.length_append, Nat.add_sub_cancel, List.take_left]
    rfl
  · exact hk.advance ha hfades rfl rfl rfl hpointed
      (fun _ hS => hS.elim) (fun o ho => .inl (Heap.held_of_traits htraits ho)) (fun _ => rfl)
      fun _ => hoff

/-! ### The handler -/

/-- A pass of the handler takes what is pending, and nothing else. -/
theorem processPending_ok (hk : Kept notes stage x r ps) :
    ∃ d, Delivery.processPending x.delivery = .ok ps.length d ∧ d.heap.pendingHead = none ∧
      d.handler.queue.items = x.handler.queue.items ++ x.heap.forQueue ps ∧
      d.handler.finalizations.toList =
        x.handler.finalizations.toList ++ x.heap.forFinalizer ps ∧
      Kept (notes ++ [.handOut (x.heap.forQueue ps) (x.heap.forFinalizer ps)]) stage
        (x.withDelivery d) r [] := by
  obtain ⟨d, hrun, hd⟩ := Delivery.processPending_ok (d := x.delivery)
    hk.accounted.registered.pending
  have hrelinks := Heap.relinks_detachAll (x.heap.withPending none) ps
  have htraits : ((x.heap.withPending none).detachAll ps).traits = x.heap.traits :=
    hrelinks.objects.traits
  have htarget : ∀ o, ((x.heap.withPending none).detachAll ps).target o = x.heap.target o :=
    hrelinks.target_eq
  obtain ⟨ha, hfades, hgone⟩ := hk.accounted.handOut hd
  have hqueue : d.handler.queue.items = x.handler.queue.items ++ x.heap.forQueue ps := by
    rw [← Heap.forQueue_congr htraits]
    exact hd.queue
  have hcalls : d.handler.finalizations.toList =
      x.handler.finalizations.toList ++ x.heap.forFinalizer ps := by
    rw [← Heap.forFinalizer_congr htraits htarget]
    exact hd.calls
  refine ⟨d, hrun, ha.registered.pending.head, hqueue, hcalls, ?_, ?_, hk.empty, hk.off⟩
  · exact ha.congr rfl rfl
  · exact hk.ledger.handOut hk.accounted.processed hfades
      (fun o ho => (Heap.holds_congr (hd.objects.traits.trans htraits) o).symm.trans ho) hgone
      hqueue hcalls

/-- What is handed out was pending, or waits in the queue. -/
theorem handOut (hk : Kept notes stage x r ps) : Continues notes stage x (Op.run .handOut) := by
  obtain ⟨d, hrun, -, hqueue, hcalls, hk'⟩ := hk.processPending_ok
  refine ⟨_, _, r, [], ?_, hk'⟩
  refine (bind_ok (get_ok x)).trans ((bind_ok (map_ok (fun _ => ())
    (onDelivery_ok hrun))).trans ((bind_ok (get_ok _)).trans ?_))
  show EStateM.Result.ok (Note.handOut (d.handler.queue.items.drop _)
    (d.handler.finalizations.toList.drop _)) _ = _
  rw [hqueue, hcalls, List.drop_left, List.drop_left]

/-- What is polled was in the queue. -/
theorem poll (hk : Kept notes stage x r ps) : Continues notes stage x (Op.run .poll) := by
  refine ⟨.poll x.delivery.poll.1, x.withDelivery x.delivery.poll.2, r, ps, rfl, ?_, ?_, hk.empty,
    hk.off⟩
  · exact hk.accounted
  · exact hk.ledger.poll (ReferenceQueue.poll_fst _) (ReferenceQueue.items_poll _) rfl

end Kept

variable {notes : List Note} {stage stage' : Stage} {x start : Runtime} {r : Roster}
variable {ps : List Handle}

/-- Every operation returns where it is allowed, and histories go on. -/
theorem Op.run_ok (hk : Kept notes stage x r ps) {op : Op} (ha : op.Allowed stage x)
    (hnext : op.next stage = some stage') : Continues notes stage' x op.run := by
  cases op with
  | allocate generation =>
      obtain rfl : stage = stage' := Option.some.inj hnext
      exact hk.allocate generation
  | allocateReference kind referent generation =>
      obtain rfl : stage = stage' := Option.some.inj hnext
      exact hk.allocateReference kind referent generation
  | addEdge source target =>
      obtain rfl : stage = stage' := Option.some.inj hnext
      exact hk.addEdge source target
  | clearReferent o =>
      obtain rfl : stage = stage' := Option.some.inj hnext
      exact hk.clearReferent ha.1 ha.2
  | usePolicy policy =>
      obtain rfl : stage = stage' := Option.some.inj hnext
      exact hk.setting rfl rfl rfl rfl rfl rfl rfl rfl
  | setupPolicy clearAll space =>
      obtain rfl : stage = stage' := Option.some.inj hnext
      cases clearAll with
      | true => exact hk.setting rfl rfl rfl rfl rfl rfl rfl rfl
      | false => exact hk.setting rfl rfl rfl rfl rfl rfl rfl rfl
  | setScope scope =>
      obtain rfl : stage = stage' := Option.some.inj hnext
      exact hk.setting rfl rfl rfl rfl rfl rfl rfl rfl
  | setKnownAlive alive =>
      obtain rfl : stage = stage' := Option.some.inj hnext
      exact hk.setting rfl rfl rfl rfl rfl rfl rfl rfl
  | setMulti multi =>
      obtain rfl : stage = stage' := Option.some.inj hnext
      exact hk.setting rfl rfl rfl rfl rfl rfl rfl rfl
  | reset =>
      cases stage <;> cases hnext
      exact hk.reset
  | enable =>
      cases stage <;> cases hnext
      exact hk.enable
  | markRoots roots =>
      cases stage <;> cases hnext
      exact hk.markRoots ha
  | trace worker =>
      cases stage <;> cases hnext
      exact hk.trace ha
  | preclean τ check answers readings =>
      cases stage <;> cases hnext
      exact hk.preclean τ check answers readings
  | process readings pool =>
      cases stage <;> cases hnext
      obtain ⟨hnow, hpool, hroom⟩ := ha
      exact hk.process hnow hpool hroom
  | handOut =>
      obtain rfl : stage = stage' := Option.some.inj hnext
      exact hk.handOut
  | poll =>
      obtain rfl : stage = stage' := Option.some.inj hnext
      exact hk.poll

/-! ### Histories -/

/-- After any history the invariant holds, with some roster and chain. -/
theorem History.kept (hx : History start notes stage x)
    (hstart : Kept [] .resting start Roster.none []) : ∃ r ps, Kept notes stage x r ps := by
  induction hx with
  | start => exact ⟨_, _, hstart⟩
  | step _ ha hnext hrun ih =>
      obtain ⟨r, ps, hk⟩ := ih
      obtain ⟨note, x', r', ps', hrun', hk'⟩ := Op.run_ok hk ha hnext
      rw [hrun] at hrun'
      cases hrun'
      exact ⟨r', ps', hk'⟩

/-- A program before its first operation: no objects, and a new handler. -/
structure Fresh (x : Runtime) : Prop where
  world : x.core.state.world = ⟨.empty, {}⟩
  handler : x.handler = {}

/-- The invariant holds of a fresh program. -/
theorem Fresh.kept (hx : start.Fresh) {config : Config} (hvalid : config.validate = .ok ())
    {scope : Scope} {clock : SoftClock} (hclock : IsStamp clock.millis)
    (hcreate : Processor.create config scope clock = .ok start.core.state.processor) :
    Kept [] .resting start Roster.none [] := by
  have huntouched := Heap.untouched_empty
  have hheap : start.core.state.world.heap = .empty := by rw [hx.world]
  have hs : Sound start.core.state Roster.none [] := by
    refine sound_of_create hvalid hclock hcreate ?_ ?_ ?_
    · rw [hheap]
      exact huntouched.toSane
    · rw [hheap]
      exact huntouched.following
    · rw [hheap]
      exact huntouched.pending
  obtain ⟨p, hcreate', -, -, hoff, -⟩ := Processor.create_ok hvalid scope clock
  rw [hcreate] at hcreate'
  cases hcreate'
  constructor
  case accounted =>
    refine .of_sound hs ?_ (fun _ k o ⟨_, ho⟩ => nomatch ho) fun _ ho => nomatch ho
    rw [hx.world]
    exact fun o ho => nomatch ho
  case ledger =>
    refine .start ?_ ?_ ?_
    · rw [heap, hheap]
      exact Heap.not_holds_empty
    · rw [hx.handler]
      rfl
    · rw [hx.handler]
      rfl
  case empty => exact fun _ => rfl
  case off => exact fun _ => hoff

/-- Over every history of a program, from its beginning on, the ledger is in order:
what was published since the last pass of the handler is pending, and everything
that was published before was handed out, once and to the right place.  The next
pass hands out all that is pending, and nothing else.  And no operation fails where
it is allowed. -/
theorem handed_out_once {config : Config} (hvalid : config.validate = .ok ()) (scope : Scope)
    {clock : SoftClock} (hclock : IsStamp clock.millis) :
    ∃ p, Processor.create config scope clock = .ok p ∧
      ∀ start : Runtime, start.core.state.processor = p → start.Fresh →
        ∀ (notes : List Note) (stage : Stage) (x : Runtime), History start notes stage x →
          Ledger notes x.heap x.handler x.pending ∧
          (∃ d, Delivery.processPending x.delivery = .ok x.pending.length d ∧
            d.heap.pendingHead = none ∧
            d.handler.queue.items = x.handler.queue.items ++ x.heap.forQueue x.pending ∧
            d.handler.finalizations.toList =
              x.handler.finalizations.toList ++ x.heap.forFinalizer x.pending) ∧
          ∀ (op : Op) (stage' : Stage), op.Allowed stage x → op.next stage = some stage' →
            ∃ note x', op.run x = .ok note x' := by
  obtain ⟨p, hcreate, -⟩ := Processor.create_ok hvalid scope clock
  refine ⟨p, hcreate, fun start hp hfresh notes stage x hx => ?_⟩
  rw [← hp] at hcreate
  obtain ⟨r, ps, hk⟩ := hx.kept (hfresh.kept hvalid hclock hcreate)
  have hpending : x.pending = ps := hk.accounted.pending_eq
  obtain ⟨d, hrun, hhead, hqueue, hcalls, -⟩ := hk.processPending_ok
  rw [hpending]
  refine ⟨hk.ledger, ⟨d, hrun, hhead, hqueue, hcalls⟩, fun op stage' ha hnext => ?_⟩
  obtain ⟨note, x', r', ps', hrun', -⟩ := Op.run_ok hk ha hnext
  exact ⟨note, x', hrun'⟩

/-! ### Programs that run -/

instance (stage : Stage) (x : Runtime) : (op : Op) → Decidable (op.Allowed stage x)
  | .clearReferent _ => inferInstanceAs (Decidable (_ ∧ (_ → _)))
  | .markRoots roots => inferInstanceAs (Decidable (∀ o ∈ roots, x.heap.holds o = true))
  | .trace _ => inferInstanceAs (Decidable (_ → _))
  | .process readings pool => inferInstanceAs (Decidable (readings.now < 2 ^ 63 ∧
      (∀ p ∈ pool, p.CanStart) ∧ x.core.state.times.HasRoom x.core.state.processor.queues))
  | .allocate _ | .allocateReference .. | .addEdge .. | .usePolicy _ | .setupPolicy .. | .setScope _
  | .setKnownAlive _ | .setMulti _ | .reset | .enable | .preclean .. | .handOut | .poll =>
      isTrue trivial

/-- Runs several operations, unless one is not allowed or fails. -/
def runAll : List Op → List Note → Stage → Runtime → Option (List Note × Stage × Runtime)
  | [], notes, stage, x => some (notes, stage, x)
  | op :: ops, notes, stage, x =>
      if op.Allowed stage x then
        match op.next stage, op.run x with
        | some stage, .ok note x => runAll ops (notes ++ [note]) stage x
        | _, _ => none
      else none

/-- A run that can be computed is a history. -/
theorem History.of_runAll {ops : List Op} {notes' : List Note} {x' : Runtime}
    (hx : History start notes stage x)
    (hrun : runAll ops notes stage x = some (notes', stage', x')) :
    History start notes' stage' x' := by
  induction ops generalizing notes stage x with
  | nil =>
      cases hrun
      exact hx
  | cons op ops ih =>
      unfold runAll at hrun
      split at hrun
      · next ha =>
          split at hrun
          · next stage₁ note x₁ hnext hop => exact ih (hx.step ha hnext hop) hrun
          · cases hrun
      · cases hrun

/-- A new program with two queues. -/
def pairProgram : Runtime where
  core := { state := { pairStart.state with world := ⟨.empty, {}⟩ } }
  handler := {}

/-- A weak and a final reference to one object are published.  Before they are handed
out there is another collection. -/
def pairLife : List Op :=
  [.allocate .young, .allocateReference (some .weak) (some (.low 0)) .young,
    .allocateReference (some .final) (some (.low 0)) .young,
    .reset, .enable, .markRoots [.low 1, .low 2], .trace none, .process {} none,
    .reset, .enable, .markRoots [.low 1, .low 2], .trace none,
    .process {} (some { name := "pair", maxWorkers := 2, activeWorkers := 2 }),
    .handOut, .poll]

/-- The example's life returns: two references are published, one is queued and polled. -/
theorem pairLife_runs : ∃ notes x, runAll pairLife [] .resting pairProgram =
      some (notes, .resting, x) ∧ notes.flatMap Note.published = [.low 2, .low 1] ∧
    notes.flatMap Note.queued = [.low 1] ∧
    notes.flatMap Note.calls = [⟨.low 2, some (.low 0)⟩] ∧
    notes.flatMap Note.polled = [.low 1] := by
  have hrun : (runAll pairLife [] .resting pairProgram).map (fun y =>
      (y.2.1, y.1.flatMap Note.published, y.1.flatMap Note.queued, y.1.flatMap Note.calls,
        y.1.flatMap Note.polled)) =
      some (.resting, [.low 2, .low 1], [.low 1], [⟨.low 2, some (.low 0)⟩], [.low 1]) := by
    decide +kernel
  obtain ⟨⟨notes, stage, x⟩, hsome, heq⟩ := Option.map_eq_some_iff.mp hrun
  simp only [Prod.mk.injEq] at heq
  obtain ⟨rfl, hpublished, hqueued, hcalls, hpolled⟩ := heq
  exact ⟨notes, x, hsome, hpublished, hqueued, hcalls, hpolled⟩

/-- In this program the weak reference is polled, and the finalizer is called once. -/
theorem handed_out_once_of_pair : pairConfig.validate = .ok () ∧ IsStamp 0 ∧
    ∃ notes x, History pairProgram notes .resting x ∧ Ledger notes x.heap x.handler x.pending ∧
      notes.flatMap Note.calls = [⟨.low 2, some (.low 0)⟩] ∧
      notes.flatMap Note.polled = [.low 1] := by
  have hvalid : pairConfig.validate = .ok () := rfl
  have hclock : IsStamp (SoftClock.mk 0).millis := by decide
  obtain ⟨p, hcreate, hall⟩ := handed_out_once hvalid .wholeHeap hclock
  obtain ⟨notes, x, hrun, -, -, hcalls, hpolled⟩ := pairLife_runs
  have hx : History pairProgram notes .resting x := History.start.of_runAll hrun
  rw [pair_created] at hcreate
  obtain ⟨hledger, -⟩ := hall pairProgram (Except.ok.inj hcreate) ⟨rfl, rfl⟩ notes .resting x hx
  exact ⟨hvalid, hclock, notes, x, hx, hledger, hcalls, hpolled⟩

end Runtime

end Referents
