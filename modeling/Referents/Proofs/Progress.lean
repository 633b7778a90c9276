import Referents.Processing
import Referents.Proofs.Balance
import Referents.Proofs.EventWindow
import Referents.Proofs.Settling

/-!
# Progress of a cycle

The state of a cycle is followed from a starting point on: which roster it has
reached by now, which references were published, which calls the collector
got, and that nothing but lists, links and records has changed.

* `Cycle.Alike` — logging and timing change neither heap nor lists.
* `Progress` — the invariant of a cycle at work; `Progress.extend` adds a step.
* `Progress.resolveQueue_ok`, `Progress.keepFinalQueue_ok` — one list is worked
  on, and progress is made.
-/

namespace Referents

variable {γ : Type} {hooks : Hooks γ} {I : List Call → World γ → Prop}

/-- Two states of a cycle that differ in logs, times and the sink only. -/
structure Cycle.Alike (c c' : Cycle γ) : Prop where
  world : c'.world = c.world
  lists : c'.processor.lists = c.processor.lists
  setup : c'.processor.setup = c.processor.setup
  degree : c'.processor.degree = c.processor.degree
  turn : c'.processor.turn = c.processor.turn
  discovered : c'.times.discovered = c.times.discovered
  dropped : c'.times.dropped = c.times.dropped
  maxWorkers : c'.times.maxWorkers = c.times.maxWorkers

/-- Being alike is passed on. -/
theorem Cycle.Alike.trans {c c' c'' : Cycle γ} (h : c.Alike c') (h' : c'.Alike c'') :
    c.Alike c'' :=
  ⟨h'.world.trans h.world, h'.lists.trans h.lists, h'.setup.trans h.setup,
    h'.degree.trans h.degree, h'.turn.trans h.turn, h'.discovered.trans h.discovered,
    h'.dropped.trans h.dropped, h'.maxWorkers.trans h.maxWorkers⟩

namespace Step

/-- Logging leaves a cycle that is alike. -/
theorem log_ok (e : Event) (c : Cycle γ) :
    ∃ c', (log e : Step γ Unit) c = .ok () c' ∧ c.Alike c' :=
  ⟨_, withSink_ok rfl, rfl, rfl, rfl, rfl, rfl, rfl, rfl, rfl⟩

/-- Writing a line leaves a cycle that is alike. -/
theorem write_ok (level : Level) (line : String) (c : Cycle γ) :
    ∃ c', (write level line : Step γ Unit) c = .ok () c' ∧ c.Alike c' :=
  ⟨_, rfl, rfl, rfl, rfl, rfl, rfl, rfl, rfl, rfl⟩

/-- Taking times other than counts leaves a cycle that is alike. -/
theorem updateTimes_ok {f : PhaseTimes → PhaseTimes}
    (hf : ∀ t, (f t).discovered = t.discovered ∧ (f t).dropped = t.dropped ∧
      (f t).maxWorkers = t.maxWorkers) (c : Cycle γ) :
    ∃ c', (updateTimes f : Step γ Unit) c = .ok () c' ∧ c.Alike c' := by
  obtain ⟨hdiscovered, hdropped, hmaxWorkers⟩ := hf c.times
  exact ⟨_, rfl, rfl, rfl, rfl, rfl, rfl, hdiscovered, hdropped, hmaxWorkers⟩

/-- The time of a worker is recorded where there is room for those of all queues. -/
theorem recordWorker_ok {c : Cycle γ} (hroom : c.times.HasRoom c.processor.queues) {queue : Nat}
    (hqueue : queue < c.processor.queues) (readings : Readings) (s : SubPhase) :
    ∃ c', (recordWorker readings s queue : Step γ Unit) c = .ok () c' ∧ c.Alike c' := by
  have hworker : (if c.processor.isMulti = true then queue else 0) < c.processor.queues := by
    split <;> omega
  have htimes := PhaseTimes.recordWorker_ok hroom hworker s (readings.took (.queue s queue))
  exact ⟨_, (bind_ok (processor_ok c)).trans (tryUpdateTimes_ok htimes),
    rfl, rfl, rfl, rfl, rfl, rfl, rfl, rfl⟩

/-- The lengths of lists can be logged if their sum does not overflow. -/
theorem logLengths_ok {c : Cycle γ} {k : RefKind} {n : Nat} (label : String)
    (htotal : c.processor.total k = .ok n) :
    ∃ c', (logLengths label k : Step γ Unit) c = .ok () c' ∧ c.Alike c' := by
  have hlog := Processor.logLengths_eq (p := c.processor) c.sink label htotal
  exact ⟨_, withSink_ok hlog, rfl, rfl, rfl, rfl, rfl, rfl, rfl, rfl⟩

/-- The cycle with more references counted as dropped. -/
def countDropped (k : RefKind) (n : Nat) (c : Cycle γ) : Cycle γ :=
  { c with times := c.times.addDropped k n }

/-- After a list was resolved only records are written. -/
theorem recordQueue_ok (head : Option Kind) (visited dropped : Nat) (k : RefKind) (c : Cycle γ) :
    ∃ c', (do
        if let some kind := head then log (.listProcessed kind.name visited dropped)
        updateTimes fun t => t.addDropped k dropped : Step γ Unit) c = .ok () c' ∧
      (countDropped k dropped c).Alike c' := by
  cases head with
  | none => exact ⟨_, rfl, rfl, rfl, rfl, rfl, rfl, rfl, rfl, rfl⟩
  | some kind =>
      obtain ⟨c₁, hlog, halike⟩ := log_ok (.listProcessed kind.name visited dropped) c
      exact ⟨countDropped k dropped c₁, (bind_ok hlog).trans (modify_ok _ c₁),
        halike.world, halike.lists, halike.setup, halike.degree, halike.turn, halike.discovered,
        by simp only [countDropped, PhaseTimes.addDropped, halike.dropped], halike.maxWorkers⟩

/-- The kind of the first member of a list can be read. -/
theorem headKind_ok {c : Cycle γ} {head : Option Handle}
    (hheld : ∀ o, head = some o → c.world.heap.holds o = true) :
    (onWorld (head.mapM fun o => Act.read fun h => h.kind o) : Step γ (Option Kind)) c =
      .ok (head.map c.world.heap.kindOf) c := by
  cases head with
  | none => rfl
  | some o =>
      have hread : (Act.read fun h => h.kind o : Act γ Kind) c.world =
          .ok (c.world.heap.kindOf o) c.world := Act.read_ok (Heap.kind_ok (hheld o rfl))
      exact onWorld_ok (map_ok some hread)

end Step

variable {prev calls more : List Call} {r₀ r r' : Roster} {ps ps₀ pub pub' kept : List Handle}
variable {c₀ c c' : Cycle γ} {readings : Readings} {k : RefKind} {q : Nat}

/-- From the cycle `c` to the cycle `c'` the list of a kind and queue was resolved, and
its members in `kept` were spared. -/
structure QueueResolved (I : List Call → World γ → Prop) (prev : List Call) (r : Roster)
    (ps : List Handle) (k : RefKind) (q : Nat) (c : Cycle γ) (more : List Call)
    (kept : List Handle) (c' : Cycle γ) : Prop where
  registered : Registered c'.processor c'.world.heap
    (r.set k q (if (k != .final) = true then [] else kept))
    ((if (k != .final) = true then kept else []) ++ ps)
  sublist : kept.Sublist (r k q)
  gone : ∀ o ∈ r k q, o ∉ kept → c'.world.heap.following o = none
  verdicts : Cursor.Verdicts c.world.heap (k != .final) (r k q) (r k q) kept more c'.world.heap
  inv : I (prev ++ more) c'.world
  setup : c'.processor.setup = c.processor.setup
  degree : c'.processor.degree = c.processor.degree
  turn : c'.processor.turn = c.processor.turn
  discovered : c'.times.discovered = c.times.discovered
  dropped : c'.times.dropped =
    (c.times.addDropped k ((r k q).length - kept.length)).dropped
  maxWorkers : c'.times.maxWorkers = c.times.maxWorkers

/-- The list of a kind and queue can be resolved. -/
theorem Step.resolveQueue_ok (hh : hooks.Resolving I)
    (hr : Registered c.processor c.world.heap r ps)
    (hres : Cursor.Resolvable c.world.heap c.processor.config.concurrentDiscovery (r k q))
    (hI : I prev c.world) (hq : q < c.processor.queues) :
    ∃ c' more kept, Step.resolveQueue hooks (k != .final) q k c = .ok () c' ∧
      QueueResolved I prev r ps k q c more kept c' := by
  obtain ⟨l, hl, hlists⟩ := hr.list_ok hq
  obtain ⟨l', w, kept, more, hresolve, hsub, hlists', hpends, hgone, hv, -, hI'⟩ :=
    resolveList_ok hh (k != .final) hlists hres hr.pending (hr.free k q) hI
  have hreg := hr.replace (l := l') hv.agrees hlists'
    (by
      intro o ho
      split at ho
      · cases ho
      · exact hsub.subset ho)
    hpends
    (by
      intro o ho
      rcases List.mem_append.mp ho with ho | ho
      · refine .inr (hsub.subset ?_)
        split at ho
        · exact ho
        · cases ho
      · exact .inl ho)
    (by
      intro o ho hps
      split at ho
      · cases ho
      · next hf =>
          rw [if_neg hf, List.nil_append] at hps
          exact hr.free k q o (hsub.subset ho) hps)
  have hhead : ∀ o, l.head = some o → c.world.heap.holds o = true := fun o ho =>
    hlists.held o (List.mem_of_head? (hlists.head.symm.trans ho))
  -- what follows only writes records
  obtain ⟨c', hrest, halike⟩ := Step.recordQueue_ok (l.head.map c.world.heap.kindOf)
    (r k q).length ((r k q).length - kept.length) k
    { c with world := w, processor := c.processor.setList k q l' }
  refine ⟨c', more, kept, ?_, ?_⟩
  · refine (bind_ok (Step.processor_ok c)).trans ?_
    refine (bind_ok (Step.ofExcept_ok hl)).trans ?_
    refine (bind_ok (Step.headKind_ok hhead)).trans ?_
    refine (bind_ok (Step.onWorld_ok hresolve)).trans ?_
    exact (bind_ok (modify_ok _ _)).trans hrest
  · have hworld : c'.world = w := halike.world
    constructor
    case registered =>
      rw [hworld]
      exact hreg.of_lists halike.lists (Processor.config_eq_of_setup halike.setup)
    case sublist => exact hsub
    case gone =>
      rw [hworld]
      exact hgone
    case verdicts =>
      rw [hworld]
      exact hv
    case inv =>
      rw [hworld]
      exact hI'
    case setup => exact halike.setup
    case degree => exact halike.degree
    case turn => exact halike.turn
    case discovered => exact halike.discovered
    case dropped => exact halike.dropped
    case maxWorkers => exact halike.maxWorkers

/-- From the cycle `c` to the cycle `c'` the final references of a queue were kept
alive and published. -/
structure QueueSealed (I : List Call → World γ → Prop) (prev : List Call) (r : Roster)
    (ps : List Handle) (q : Nat) (c : Cycle γ) (more : List Call) (c' : Cycle γ) : Prop where
  registered : Registered c'.processor c'.world.heap (r.set .final q []) (r .final q ++ ps)
  sealed : Cursor.Sealed c.world.heap (r .final q) (r .final q) more c'.world.heap
  inv : I (prev ++ more) c'.world
  setup : c'.processor.setup = c.processor.setup
  degree : c'.processor.degree = c.processor.degree
  turn : c'.processor.turn = c.processor.turn
  times : c'.times = c.times

/-- The final references of a queue can be kept alive. -/
theorem Step.keepFinalQueue_ok (hh : hooks.KeepingFinals I)
    (hr : Registered c.processor c.world.heap r ps)
    (htargets : ∀ o ∈ r .final q, ∃ t, c.world.heap.target o = some t ∧
      c.world.heap.holds t = true)
    (hfresh : ∀ o ∈ r .final q, c.world.heap.nextLink o = none)
    (hI : I prev c.world) (hq : q < c.processor.queues) :
    ∃ c' more, Step.keepFinalQueue hooks q c = .ok () c' ∧ QueueSealed I prev r ps q c more c' := by
  obtain ⟨l, hl, hlists⟩ := hr.list_ok (k := .final) hq
  obtain ⟨w, more, hkeep, hpends, hs, -, hI₁⟩ := keepFinalList_ok hh hlists htargets hfresh
    hr.pending (hr.free .final q) hI
  have hreg := hr.replace (l := .empty) hs.agrees (DiscoveredList.lists_empty _) (by simp)
    hpends (fun o ho => (List.mem_append.mp ho).elim .inr .inl) (by simp)
  refine ⟨{ c with world := w, processor := c.processor.setList .final q .empty }, more, ?_,
    hreg, hs, hI₁, rfl, rfl, rfl, rfl⟩
  refine (bind_ok (Step.processor_ok c)).trans ?_
  refine (bind_ok (Step.ofExcept_ok hl)).trans ?_
  exact (bind_ok (Step.onWorld_ok hkeep)).trans (modify_ok _ _)

/-- A cycle that started in the state `c₀` with roster `r₀` and pending chain
`ps₀` has come to the state `c` with roster `r`; by now the references `pub`
were published, and the collector got the `calls` after the calls `prev`. -/
structure Progress (I : List Call → World γ → Prop) (prev : List Call) (r₀ : Roster)
    (ps₀ : List Handle) (c₀ : Cycle γ) (calls : List Call) (r : Roster) (pub : List Handle)
    (c : Cycle γ) : Prop where
  start : Registered c₀.processor c₀.world.heap r₀ ps₀
  registered : Registered c.processor c.world.heap r (pub ++ ps₀)
  points : Pointing c₀.processor.config.concurrentDiscovery c.world.heap r
  settles : Settles calls r₀ c₀.world.heap pub r c.world.heap
  inv : I (prev ++ calls) c.world
  setup : c.processor.setup = c₀.processor.setup
  degree : c.processor.degree = c₀.processor.degree
  turn : c.processor.turn ≤ c₀.processor.turn
  discovered : c.times.discovered = c₀.times.discovered
  maxWorkers : c.times.maxWorkers = c₀.times.maxWorkers

namespace Progress

/-- A cycle that has just begun has made no progress. -/
theorem refl (hr : Registered c₀.processor c₀.world.heap r₀ ps₀)
    (hpoints : Pointing c₀.processor.config.concurrentDiscovery c₀.world.heap r₀)
    (hI : I prev c₀.world) : Progress I prev r₀ ps₀ c₀ [] r₀ [] c₀ where
  start := hr
  registered := hr
  points := hpoints
  settles := .refl r₀ _
  inv := by simpa using hI
  setup := rfl
  degree := rfl
  turn := Nat.le_refl _
  discovered := rfl
  maxWorkers := rfl

/-- The configuration is that of the beginning. -/
theorem config_eq (hp : Progress I prev r₀ ps₀ c₀ calls r pub c) :
    c.processor.config = c₀.processor.config := Processor.config_eq_of_setup hp.setup

/-- The queues are those of the beginning. -/
theorem queues_eq (hp : Progress I prev r₀ ps₀ c₀ calls r pub c) :
    c.processor.queues = c₀.processor.queues := Processor.queues_congr hp.config_eq

/-- Whether several queues work is as it was at the beginning. -/
theorem isMulti_eq (hp : Progress I prev r₀ ps₀ c₀ calls r pub c) :
    c.processor.isMulti = c₀.processor.isMulti := by
  rw [Processor.isMulti, hp.config_eq, hp.degree, Processor.isMulti]

/-- The degree stays positive. -/
theorem degree_pos (hp : Progress I prev r₀ ps₀ c₀ calls r pub c)
    (hpos : 1 ≤ c₀.processor.degree) : 1 ≤ c.processor.degree := by
  rw [hp.degree]
  exact hpos

/-- The degree stays within the queues. -/
theorem degree_le_queues (hp : Progress I prev r₀ ps₀ c₀ calls r pub c)
    (hdegree : c₀.processor.degree ≤ c₀.processor.queues) :
    c.processor.degree ≤ c.processor.queues := by
  rw [hp.degree, hp.queues_eq]
  exact hdegree

/-- There is as much room for times as at the start. -/
theorem hasRoom (hp : Progress I prev r₀ ps₀ c₀ calls r pub c)
    (hroom : c₀.times.HasRoom c₀.processor.queues) : c.times.HasRoom c.processor.queues := by
  rw [PhaseTimes.HasRoom, hp.maxWorkers, hp.queues_eq]
  exact hroom

/-- Only lists, setup and counts matter to the progress of a cycle. -/
theorem alike (hp : Progress I prev r₀ ps₀ c₀ calls r pub c) (h : c.Alike c') :
    Progress I prev r₀ ps₀ c₀ calls r pub c' where
  start := hp.start
  registered := by
    rw [h.world]
    exact hp.registered.of_lists h.lists (Processor.config_eq_of_setup h.setup)
  points := by rw [h.world]; exact hp.points
  settles := by rw [h.world]; exact hp.settles
  inv := by rw [h.world]; exact hp.inv
  setup := h.setup.trans hp.setup
  degree := h.degree.trans hp.degree
  turn := by rw [h.turn]; exact hp.turn
  discovered := h.discovered.trans hp.discovered
  maxWorkers := h.maxWorkers.trans hp.maxWorkers

/-- One more step of a cycle. -/
theorem extend (hp : Progress I prev r₀ ps₀ c₀ calls r pub c) (c' : Cycle γ)
    (hregistered : Registered c'.processor c'.world.heap r' (pub' ++ (pub ++ ps₀)))
    (hsettles : Settles more r c.world.heap pub' r' c'.world.heap)
    (hI : I (prev ++ calls ++ more) c'.world)
    (hsetup : c'.processor.setup = c.processor.setup)
    (hdegree : c'.processor.degree = c.processor.degree)
    (hturn : c'.processor.turn ≤ c.processor.turn)
    (hdiscovered : c'.times.discovered = c.times.discovered)
    (hmaxWorkers : c'.times.maxWorkers = c.times.maxWorkers) :
    Progress I prev r₀ ps₀ c₀ (calls ++ more) r' (pub' ++ pub) c' where
  start := hp.start
  registered := by rw [List.append_assoc]; exact hregistered
  points := hp.points.settles hsettles
  settles := hp.settles.trans hsettles hp.start.disjoint fun _ _ => hp.start.lists_held
  inv := by rw [← List.append_assoc]; exact hI
  setup := hsetup.trans hp.setup
  degree := hdegree.trans hp.degree
  turn := Nat.le_trans hturn hp.turn
  discovered := hdiscovered.trans hp.discovered
  maxWorkers := hmaxWorkers.trans hp.maxWorkers

/-- Two stretches of a cycle, one after the other. -/
theorem trans {calls' : List Call} {r'' : Roster} {c'' : Cycle γ}
    (hp : Progress I prev r₀ ps₀ c₀ calls r pub c)
    (hp' : Progress I (prev ++ calls) r (pub ++ ps₀) c calls' r'' pub' c'') :
    Progress I prev r₀ ps₀ c₀ (calls ++ calls') r'' (pub' ++ pub) c'' :=
  hp.extend _ hp'.registered hp'.settles hp'.inv hp'.setup hp'.degree hp'.turn hp'.discovered
    hp'.maxWorkers

/-- The collector changes its own state. -/
theorem collector (hp : Progress I prev r₀ ps₀ c₀ calls r pub c) {g : γ}
    (hI : I (prev ++ calls) { c.world with collector := g }) :
    Progress I prev r₀ ps₀ c₀ calls r pub
      { c with world := { c.world with collector := g } } :=
  { hp with inv := hI }

/-- The collector finishes its work. -/
theorem complete_ok (hh : hooks.Storing I) (hp : Progress I prev r₀ ps₀ c₀ calls r pub c) :
    ∃ c', (Step.onWorld hooks.complete : Step γ Unit) c = .ok () c' ∧ c'.times = c.times ∧
      Progress I prev r₀ ps₀ c₀ (calls ++ [.complete]) r pub c' := by
  obtain ⟨w, hcomplete, hkeeps, hI⟩ := hh.complete hp.inv
  refine ⟨{ c with world := w }, Step.onWorld_ok hcomplete, rfl, ?_⟩
  have hheld : ∀ kind o, r.lists kind o → c.world.heap.holds o = true := fun _ _ =>
    hp.registered.lists_held
  exact hp.extend { c with world := w } (show Registered c.processor w.heap r ([] ++ (pub ++ ps₀))
    from hp.registered.keeps hkeeps) (.ofKeeps hkeeps _ _ hheld) hI rfl rfl (Nat.le_refl _) rfl rfl

/-- Taking the time of a worker. -/
theorem recordWorker_ok (hp : Progress I prev r₀ ps₀ c₀ calls r pub c)
    (hroom : c₀.times.HasRoom c₀.processor.queues) (hq : q < c.processor.queues)
    (readings : Readings) (s : SubPhase) :
    ∃ c', (Step.recordWorker readings s q : Step γ Unit) c = .ok () c' ∧ c.Alike c' ∧
      Progress I prev r₀ ps₀ c₀ calls r pub c' := by
  obtain ⟨c', hrun, halike⟩ := Step.recordWorker_ok (hp.hasRoom hroom) hq readings s
  exact ⟨c', hrun, halike, hp.alike halike⟩

/-- Resolving the list of a kind and queue. -/
theorem resolveQueue_ok (hh : hooks.Resolving I) (hp : Progress I prev r₀ ps₀ c₀ calls r pub c)
    (k : RefKind) (hq : q < c.processor.queues) :
    ∃ c' more kept, Step.resolveQueue hooks (k != .final) q k c = .ok () c' ∧
      Progress I prev r₀ ps₀ c₀ (calls ++ more)
        (r.set k q (if (k != .final) = true then [] else kept))
        ((if (k != .final) = true then kept else []) ++ pub) c' ∧
      QueueResolved I (prev ++ calls) r (pub ++ ps₀) k q c more kept c' := by
  have hres := hp.points.resolvable k q
  rw [← hp.config_eq] at hres
  obtain ⟨c', more, kept, hrun, hresolved⟩ :=
    Step.resolveQueue_ok hh hp.registered hres hp.inv hq
  refine ⟨c', more, kept, hrun, ?_, hresolved⟩
  exact hp.extend c' hresolved.registered
    (.ofResolved hp.registered hresolved.sublist hresolved.gone hresolved.verdicts)
    hresolved.inv hresolved.setup hresolved.degree (Nat.le_of_eq hresolved.turn)
    hresolved.discovered hresolved.maxWorkers

/-- Keeping the final references of a queue alive publishes all of them. -/
theorem keepFinalQueue_ok (hh : hooks.KeepingFinals I)
    (hp : Progress I prev r₀ ps₀ c₀ calls r pub c) (hq : q < c.processor.queues)
    (htargets : ∀ o ∈ r .final q, c.world.heap.target o ≠ none)
    (hfresh : ∀ o ∈ r .final q, c.world.heap.nextLink o = none) :
    ∃ c' more, Step.keepFinalQueue hooks q c = .ok () c' ∧
      Progress I prev r₀ ps₀ c₀ (calls ++ more) (r.set .final q []) (r .final q ++ pub) c' ∧
      QueueSealed I (prev ++ calls) r (pub ++ ps₀) q c more c' := by
  have hsome : ∀ o ∈ r .final q, ∃ t, c.world.heap.target o = some t := fun o ho =>
    Option.ne_none_iff_exists'.mp (htargets o ho)
  obtain ⟨c', more, hrun, hsealed⟩ := Step.keepFinalQueue_ok hh hp.registered
    (fun o ho => (hsome o ho).imp fun t ht => ⟨ht, hp.points.target .final o ⟨q, ho⟩ t ht⟩)
    hfresh hp.inv hq
  refine ⟨c', more, hrun, ?_, hsealed⟩
  exact hp.extend c' hsealed.registered (.ofSealed hp.registered hsealed.sealed hsome)
    hsealed.inv hsealed.setup hsealed.degree (Nat.le_of_eq hsealed.turn)
    (by rw [hsealed.times]) (by rw [hsealed.times])

end Progress

end Referents
