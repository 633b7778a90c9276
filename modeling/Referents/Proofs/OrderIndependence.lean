import Referents.Proofs.CycleOutcome
import Referents.Proofs.Operations

/-!
# Collections do not depend on orders

Whether a reference is offered depends on whether its target happens to be marked
by the time the reference is met, and the list on which it is put depends on workers
and turns.  So two collections of one graph may well discover different references.

The end is the same.  What the trace marks does not depend on orders, and of the
references that it marks those that are stranded then are on lists in either case.
All others that are on lists are dropped, so that it does not matter whether they
were discovered.

* `Heap.SameGraph` — the same objects and links, with the edges in any order.
* `Marker.Traced.congr` — tracing arrives at the same objects.
* `Marker.Collected` — the outcome of a collection in terms of the graph and of the
  marks of its trace; `Marker.collect_ok` — every collection has it.
* `Marker.Collected.marks_eq`, `Marker.Collected.mem_iff`, `Marker.Collected.link_eq` —
  it leaves nothing open.
* `Marker.collections_agree` — two collections of one graph come to the same.
-/

namespace Referents

/-! ### Edges in any order -/

namespace Heap

variable {h g g' : Heap} {o p : Handle} {es es' : List (Handle × Handle)} {S T : Handle → Prop}

/-- Both heaps have the same objects with the same links and the same edges.  The edges
may be in another order, and there may be several copies of an edge. -/
structure SameGraph (h g : Heap) : Prop where
  bare : ∀ o, (g.traits o).map Traits.bare = (h.traits o).map Traits.bare
  link : g.link = h.link
  edges : ∀ o p, p ∈ g.edgesOf o ↔ p ∈ h.edgesOf o

namespace SameGraph

theorem symm (hg : h.SameGraph g) : g.SameGraph h :=
  ⟨fun o => (hg.bare o).symm, hg.link.symm, fun o p => (hg.edges o p).symm⟩

/-- Targets are the same. -/
theorem target_eq (hg : h.SameGraph g) (o : Handle) : g.target o = h.target o :=
  congrFun hg.link _

/-- Next links are the same. -/
theorem nextLink_eq (hg : h.SameGraph g) (o : Handle) : g.nextLink o = h.nextLink o :=
  congrFun hg.link _

/-- Kinds are the same. -/
theorem kindOf_eq (hg : h.SameGraph g) (o : Handle) : g.kindOf o = h.kindOf o := by
  have hbare := congrArg (Option.bind · Prod.fst) (hg.bare o)
  rw [Option.bind_map, Option.bind_map] at hbare
  exact hbare

/-- The same handles are held. -/
theorem holds_eq (hg : h.SameGraph g) (o : Handle) : g.holds o = h.holds o := by
  have hbare := congrArg Option.isSome (hg.bare o)
  rw [Option.isSome_map, Option.isSome_map] at hbare
  rw [Bool.eq_iff_iff, holds_iff_traits, holds_iff_traits, hbare]

/-- Policies see the same. -/
theorem survey_eq (hg : h.SameGraph g) : g.survey = h.survey :=
  survey_congr hg.bare hg.target_eq hg.nextLink_eq hg.edges

/-- The same objects are reached, from the same start or a larger one. -/
theorem reaches (hg : h.SameGraph g) (ho : h.Reaches S o) (hST : ∀ q, S q → T q) :
    g.Reaches T o :=
  reaches_of_closed (fun q hq => .base (hST q hq))
    (fun _ hq p hp => .edge hq ((hg.edges _ p).mpr hp)) ho

end SameGraph

/-- Adds edges, each from the first to the second object of a pair. -/
def addEdges (h : Heap) (es : List (Handle × Handle)) : Except Fault Heap :=
  es.foldlM (fun h e => h.addEdge e.1 e.2) h

/-- Adding edges changes nothing else. -/
theorem addEdges_edges (hg : h.addEdges es = .ok g) :
    (∀ o, (g.traits o).map Traits.bare = (h.traits o).map Traits.bare) ∧ g.link = h.link ∧
      ∀ o p, p ∈ g.edgesOf o ↔ p ∈ h.edgesOf o ∨ (o, p) ∈ es := by
  induction es generalizing h with
  | nil =>
      cases hg
      simp
  | cons e rest ih =>
      obtain ⟨a, b⟩ := e
      cases hadd : h.addEdge a b with
      | error fault =>
          rw [addEdges, List.foldlM_cons, hadd] at hg
          cases hg
      | ok h₁ =>
          rw [addEdges, List.foldlM_cons, except_bind_ok hadd] at hg
          have he := addEdge_edged hadd
          obtain ⟨hbare, hlink, hedges⟩ := ih hg
          refine ⟨fun o => (hbare o).trans ?_, hlink.trans he.link, fun o p => ?_⟩
          · rw [he.traits, Option.map_map]
            refine Option.map_congr fun t _ => ?_
            simp only [Function.comp]
            split <;> rfl
          · rw [hedges, he.mem_edgesOf_iff, List.mem_cons, Prod.mk.injEq, or_assoc]

/-- The order in which edges were added does not matter, nor does it if one was added
several times. -/
theorem sameGraph_of_addEdges (hg : h.addEdges es = .ok g) (hg' : h.addEdges es' = .ok g')
    (hes : ∀ e, e ∈ es' ↔ e ∈ es) : g.SameGraph g' := by
  obtain ⟨hbare, hlink, hedges⟩ := addEdges_edges hg
  obtain ⟨hbare', hlink', hedges'⟩ := addEdges_edges hg'
  refine ⟨fun o => (hbare' o).trans (hbare o).symm, hlink'.trans hlink.symm, fun o p => ?_⟩
  rw [hedges, hedges', hes]

end Heap

namespace Marker

variable {p p' : Processor} {h h' g g' : Heap} {o : Handle} {S T : Handle → Prop}

/-- Tracing arrives at the same objects in the same graph, by the same rules. -/
theorem Traced.congr (ho : Traced p h S o) (hp : p.JudgesLike p') (hg : h.SameGraph g)
    (hST : ∀ q, S q → T q) : Traced p' g T o := by
  induction ho with
  | root ho => exact .root (hST _ ho)
  | edge _ hq ih => exact .edge ih ((hg.edges _ _).mpr hq)
  | @target o t k _ hk hdeclined ht ih =>
      apply Traced.target ih ((hg.kindOf_eq o).trans hk) _ ((hg.target_eq o).trans ht)
      rw [Processor.declines_eq hp hg.survey_eq (Heap.holds_of_kindOf hk)]
      exact hdeclined

/-! ### The outcome of a collection -/

/-- What a collection of the heap `h` leaves in the heap `h'`, if its trace marks what is
in `m`, and the references `pub` are published. -/
structure Collected (h : Heap) (m : Handle → Bool) (pub : List Handle) (h' : Heap) : Prop where
  marks : ∀ o, h'.marks o = true ↔ h.Reaches (fun q => m q = true ∨ ∃ x, m x = true ∧
    h.kindOf x = some .final ∧ h.target x = some q ∧ m q = false) o
  published : ∀ o, o ∈ pub ↔ m o = true ∧ ∃ k, h.kindOf o = some k ∧
    h.Strands (if k = .phantom then h'.marks else m) o
  cleared : ∀ o ∈ pub, h.kindOf o ≠ some .final →
    h'.target o = none ∧ h'.nextLink o = h.nextLink o
  sealed : ∀ o ∈ pub, h.kindOf o = some .final →
    h'.target o = h.target o ∧ h'.nextLink o = some o
  unpublished : ∀ o, o ∉ pub → h'.target o = h.target o ∧ h'.nextLink o = h.nextLink o

namespace Collected

variable {m : Handle → Bool} {pub pub' : List Handle}

/-- What is marked in one collection is marked in the other. -/
theorem marks_le (hc : Collected h m pub h') (hc' : Collected g m pub' g') (hg : h.SameGraph g)
    (ho : h'.marks o = true) : g'.marks o = true := by
  rw [hc'.marks]
  apply hg.reaches ((hc.marks o).mp ho)
  intro q hq
  refine hq.imp_right fun hrevived => ?_
  obtain ⟨x, hx, hk, ht, hm⟩ := hrevived
  exact ⟨x, hx, (hg.kindOf_eq x).trans hk, (hg.target_eq x).trans ht, hm⟩

/-- The same objects are marked in the end. -/
theorem marks_eq (hc : Collected h m pub h') (hc' : Collected g m pub' g')
    (hg : h.SameGraph g) : g'.marks = h'.marks := by
  funext o
  exact Bool.eq_iff_iff.mpr ⟨hc'.marks_le hc hg.symm, hc.marks_le hc' hg⟩

/-- The same references are published. -/
theorem mem_iff (hc : Collected h m pub h') (hc' : Collected g m pub' g') (hg : h.SameGraph g)
    (o : Handle) : o ∈ pub' ↔ o ∈ pub := by
  simp only [hc'.published, hc.published, hc.marks_eq hc' hg, hg.kindOf_eq,
    Heap.strands_congr (hg.target_eq o)]

/-- All targets and next links are the same. -/
theorem link_eq (hc : Collected h m pub h') (hc' : Collected g m pub' g') (hg : h.SameGraph g)
    (o : Handle) : g'.target o = h'.target o ∧ g'.nextLink o = h'.nextLink o := by
  have htarget := hg.target_eq o
  have hnext := hg.nextLink_eq o
  by_cases hm : o ∈ pub
  · have hm' := (hc.mem_iff hc' hg o).mpr hm
    by_cases hk : h.kindOf o = some .final
    · have hs := hc.sealed o hm hk
      have hs' := hc'.sealed o hm' ((hg.kindOf_eq o).trans hk)
      exact ⟨(hs'.1.trans htarget).trans hs.1.symm, hs'.2.trans hs.2.symm⟩
    · have hs := hc.cleared o hm hk
      have hs' := hc'.cleared o hm' (by rwa [hg.kindOf_eq])
      exact ⟨hs'.1.trans hs.1.symm, (hs'.2.trans hnext).trans hs.2.symm⟩
  · have hs := hc.unpublished o hm
    have hs' := hc'.unpublished o (mt (hc.mem_iff hc' hg o).mp hm)
    exact ⟨(hs'.1.trans htarget).trans hs.1.symm, (hs'.2.trans hnext).trans hs.2.symm⟩

end Collected

section

variable {p₀ : Processor} {h₀ : Heap} {r : Roster} {ps pub : List Handle} {c c' : Cycle Marker}
variable {k : RefKind}

/-- A marked reference that is stranded after the trace is on a list of its kind. -/
theorem Discovering.lists_of_strands (hd : Discovering p₀ h₀ ps r c)
    (hj : Judged (fun _ => False) r c.world.heap []) (hk : h₀.kindOf o = some k)
    (hm : c.world.heap.marks o = true) (hs : h₀.Strands c.world.heap.marks o) :
    r.lists k o := by
  have hkind : c.world.heap.kindOf o ≠ none := by
    rw [Heap.kindOf_congr hd.traits, hk]
    simp
  rw [← Heap.strands_congr (hd.target_eq o)] at hs
  obtain ⟨k', hl⟩ := (hj o id hm (by simp) hkind).resolve_left (not_not_intro hs)
  rw [hd.kinds hl, Option.some.injEq] at hk
  exact hk ▸ hl

/-- Which references were listed besides the stranded ones makes no difference to a cycle. -/
theorem Outcome.collected (ho : Outcome r ps c pub c') (hd : Discovering p₀ h₀ ps r c)
    (hj : Judged (fun _ => False) r c.world.heap []) :
    Collected h₀ c.world.heap.marks pub c'.world.heap := by
  constructor
  case marks =>
    intro x
    rw [ho.marks, Heap.reaches_congr hd.traits]
    have hsame : ∀ q, (c.world.heap.marks q = true ∨ ∃ o, r.lists .final o ∧
        c.world.heap.target o = some q ∧ c.world.heap.marks q = false) ↔
        (c.world.heap.marks q = true ∨ ∃ o, c.world.heap.marks o = true ∧
          h₀.kindOf o = some .final ∧ h₀.target o = some q ∧ c.world.heap.marks q = false) := by
      intro q
      refine or_congr_right (exists_congr fun o => ?_)
      rw [hd.target_eq]
      constructor
      · intro hrevived
        obtain ⟨hl, ht, hm⟩ := hrevived
        exact ⟨hd.marked .final o hl, hd.kinds hl, ht, hm⟩
      · intro hrevived
        obtain ⟨hmarked, hk, ht, hm⟩ := hrevived
        exact ⟨hd.lists_of_strands hj hk hmarked ⟨q, ht, hm⟩, ht, hm⟩
    exact Heap.reaches_congr_start hsame
  case published =>
    intro o
    constructor
    · intro hpub
      obtain ⟨k, hl⟩ := ho.listed o hpub
      rw [ho.published k o hl, Heap.strands_congr (hd.target_eq o)] at hpub
      exact ⟨hd.marked k o hl, k, hd.kinds hl, hpub⟩
    · intro hstranded
      obtain ⟨hm, k, hk, hs⟩ := hstranded
      -- who is stranded by the marks of the end was stranded by those of the trace
      have hs₀ : h₀.Strands c.world.heap.marks o := by
        split at hs
        · obtain ⟨t, ht, hunmarked⟩ := hs
          refine ⟨t, ht, ?_⟩
          by_contra hmarked
          rw [ho.grown (by simpa using hmarked)] at hunmarked
          cases hunmarked
        · exact hs
      rw [ho.published k o (hd.lists_of_strands hj hk hm hs₀),
        Heap.strands_congr (hd.target_eq o)]
      exact hs
  case cleared =>
    intro o hpub hk
    obtain ⟨k, hl⟩ := ho.listed o hpub
    have hne : k ≠ .final := fun hfinal => hk (hfinal ▸ hd.kinds hl)
    rw [← hd.nextLink_eq]
    exact ho.cleared k o hl hne hpub
  case sealed =>
    intro o hpub hk
    obtain ⟨k, hl⟩ := ho.listed o hpub
    rw [hd.kinds hl, Option.some.injEq] at hk
    rw [← hd.target_eq]
    exact ho.sealed o (hk ▸ hl) hpub
  case unpublished =>
    intro o hno
    rw [← hd.target_eq, ← hd.nextLink_eq]
    exact ho.unpublished hno

end

/-- A collection may start: nothing is marked, listed or pending, and nothing is being
discovered. -/
structure Collectable (t : Threaded (Cycle Marker)) : Prop where
  sound : Sound t.state Roster.none []
  unmarked : ∀ o, t.state.world.heap.marks o = false
  resting : t.state.world.collector.queue.items = []
  off : t.state.processor.enabled = false
  worker : t.state.processor.multiDiscovery = true →
    t.worker.getD 0 < t.state.processor.queues

/-- It may start with a new processor, over a table without marks and chains. -/
theorem Collectable.of_create {t : Threaded (Cycle Marker)} {config : Config}
    (hvalid : config.validate = .ok ()) {scope : Scope} {clock : SoftClock}
    (hclock : IsStamp clock.millis)
    (hcreate : Processor.create config scope clock = .ok t.state.processor)
    (hsane : t.state.world.heap.Sane) (hunlinked : ∀ o, t.state.world.heap.following o = none)
    (hpending : t.state.world.heap.pendingHead = none)
    (hunmarked : ∀ o, t.state.world.heap.marks o = false)
    (hresting : t.state.world.collector.queue.items = [])
    (hworker : 1 < config.discoveryDegree → t.worker.getD 0 < config.queues) : Collectable t := by
  obtain ⟨p, hcreate', hconfig, -, hoff, -, -, -, -, hmulti, -⟩ :=
    Processor.create_ok hvalid scope clock
  rw [hcreate] at hcreate'
  cases hcreate'
  constructor
  case sound => exact sound_of_create hvalid hclock hcreate hsane hunlinked hpending
  case unmarked => exact hunmarked
  case resting => exact hresting
  case off => exact hoff
  case worker =>
    rw [hmulti, Processor.queues, hconfig]
    exact fun hdegree => hworker (of_decide_eq_true hdegree)

/-- A collection returns.  What its trace marks is what tracing arrives at from the roots,
and its outcome is determined by these marks. -/
theorem collect_ok {t : Threaded (Cycle Marker)} (hc : Collectable t) {roots : List Handle}
    (hroots : ∀ o ∈ roots, t.state.world.heap.holds o = true) (readings : Readings)
    {pooled : Bool} (hequipped : Pass.Equipped pooled t) :
    ∃ t₁ t₂ counts pub, (Threaded.lift (traceRoots roots t.worker) : Pass Marker Unit) t =
        .ok () t₁ ∧
      Pass.process hooks readings pooled t₁ = .ok counts t₂ ∧
      (∀ o, t₁.state.world.heap.marks o = true ↔
        Traced t.state.processor.discovering t.state.world.heap (· ∈ roots) o) ∧
      Collected t.state.world.heap t₁.state.world.heap.marks pub t₂.state.world.heap ∧
      t₂.state.world.heap.chain t₂.state.world.heap.pendingHead = ⟨pub, true⟩ ∧ pub.Nodup := by
  have hs := hc.sound
  have htimely := (hs.enable_ok hc.off).2.timely
  have htrace : Traceable t.state.processor.discovering t.state.world.heap [] t.worker :=
    ⟨hs.sane.targets, by simp, htimely, hs.degree, hc.worker⟩
  obtain ⟨c₁, r, hrun₁, hd, hmarking, hempty, hj, htraced⟩ := traceRoots_ok hs.registered hs.covers
    hc.off hs.turn hs.sane.edges hc.unmarked hc.resting hroots htrace
  have hqueues : c₁.processor.queues = t.state.processor.queues :=
    (Processor.queues_eq_of_setup hd.setup).trans rfl
  have hdegree : c₁.processor.degree = t.state.processor.degree := hd.degree
  have hroom : c₁.times.HasRoom c₁.processor.queues := by
    rw [(leaves_traceRoots roots t.worker).of_ok hrun₁, hqueues]
    exact hequipped.room
  obtain ⟨t₂, pub, hrun₂, ho, -, -⟩ := process_ok (t := { t with state := c₁ }) hd.registered
    (hd.ready htrace _) hmarking hempty
    (by show 1 ≤ c₁.processor.degree; rw [hdegree]; exact hs.positive)
    (by show c₁.processor.degree ≤ c₁.processor.queues; rw [hdegree, hqueues]; exact hs.degree)
    readings ⟨hequipped.canStart, hroom⟩
  have hpending := ho.registered.pending
  rw [List.append_nil] at hpending
  exact ⟨{ t with state := c₁ }, t₂, _, pub, Threaded.lift_ok hrun₁, hrun₂, htraced,
    ho.collected hd hj, hpending.chain_eq, hpending.nodup⟩

/-- Two collections of the same graph from the same roots, by the same rules for what is
declined, both return and come to the same.  They end with the same marks, targets and
next links, and the same references are pending.  The order of roots and edges makes no
difference to this, and neither do the workers, the degree, the configuration, the pool
and the order in which units are through: the outcome is determined by what tracing
arrives at from the roots. -/
theorem collections_agree {t u : Threaded (Cycle Marker)} (ht : Collectable t)
    (hu : Collectable u) (hgraph : t.state.world.heap.SameGraph u.state.world.heap)
    (hrules : t.state.processor.discovering.JudgesLike u.state.processor.discovering)
    (roots roots' : List Handle) (hheld : ∀ o ∈ roots, t.state.world.heap.holds o = true)
    (hroots : ∀ o, o ∈ roots' ↔ o ∈ roots) (readings readings' : Readings)
    {pooled pooled' : Bool} (hequipped : Pass.Equipped pooled t)
    (hequipped' : Pass.Equipped pooled' u) :
    ∃ t₁ t₂ u₁ u₂ counts counts' pub pub',
      (Threaded.lift (traceRoots roots t.worker) : Pass Marker Unit) t = .ok () t₁ ∧
      Pass.process hooks readings pooled t₁ = .ok counts t₂ ∧
      (Threaded.lift (traceRoots roots' u.worker) : Pass Marker Unit) u = .ok () u₁ ∧
      Pass.process hooks readings' pooled' u₁ = .ok counts' u₂ ∧
      (∀ o, t₁.state.world.heap.marks o = true ↔
        Traced t.state.processor.discovering t.state.world.heap (· ∈ roots) o) ∧
      Collected t.state.world.heap t₁.state.world.heap.marks pub t₂.state.world.heap ∧
      u₂.state.world.heap.marks = t₂.state.world.heap.marks ∧
      (∀ o, u₂.state.world.heap.target o = t₂.state.world.heap.target o ∧
        u₂.state.world.heap.nextLink o = t₂.state.world.heap.nextLink o) ∧
      t₂.state.world.heap.chain t₂.state.world.heap.pendingHead = ⟨pub, true⟩ ∧
      u₂.state.world.heap.chain u₂.state.world.heap.pendingHead = ⟨pub', true⟩ ∧
      pub'.Perm pub := by
  have hheld' : ∀ o ∈ roots', u.state.world.heap.holds o = true := fun o ho => by
    rw [hgraph.holds_eq]
    exact hheld o ((hroots o).mp ho)
  obtain ⟨t₁, t₂, counts, pub, htrace, hprocess, htraced, hc, hchain, hnodup⟩ :=
    collect_ok ht hheld readings hequipped
  obtain ⟨u₁, u₂, counts', pub', htrace', hprocess', htraced', hc', hchain', hnodup'⟩ :=
    collect_ok hu hheld' readings' hequipped'
  have hmarks : u₁.state.world.heap.marks = t₁.state.world.heap.marks := by
    funext o
    rw [Bool.eq_iff_iff, htraced, htraced']
    exact ⟨fun ho => ho.congr hrules.symm hgraph.symm fun q => (hroots q).mp,
      fun ho => ho.congr hrules hgraph fun q => (hroots q).mpr⟩
  rw [hmarks] at hc'
  exact ⟨t₁, t₂, u₁, u₂, counts, counts', pub, pub', htrace, hprocess, htrace', hprocess',
    htraced, hc, hc.marks_eq hc' hgraph, hc.link_eq hc' hgraph, hchain, hchain',
    (List.perm_ext_iff_of_nodup hnodup' hnodup).mpr (hc.mem_iff hc' hgraph)⟩

/-! ### Two orders -/

/-- An object with edges, a weak reference, its target, another one, and its target. -/
def crossedHeap (edges : List Handle) : Heap where
  slots := ((((Table.empty.push
    { Slot.fresh none .young none with edges }).push
    (.fresh (some .weak) .young (some (.low 2)))).push
    (.fresh none .young none)).push
    (.fresh (some .weak) .young (some (.low 4)))).push
    (.fresh none .young none)
  pending := .null

/-- A new processor over this table. -/
def crossedCycle (config : Config) (edges : List Handle) : Threaded (Cycle Marker) where
  worker := some 1
  pool := some { name := "crossed", maxWorkers := 2, activeWorkers := 2 }
  state := {
    world := ⟨crossedHeap edges, {}⟩
    processor := {
      config, scope := .wholeHeap, knownAlive := none, enabled := false
      multiDiscovery := 1 < config.discoveryDegree, degree := config.processingDegree, turn := 0
      lists := .replicate (Array.replicate config.queues .empty), clock := ⟨0⟩, snapshot := 0
      policy := .lru config.softBasis config.softMillisPerMegabyte, clearAll := false
      journal := { config := { json := config.jsonLog, verbose := config.verbose } } }
    times := .create config.queues
    sink := {} }

/-- One queue, and roots with the first reference in front. -/
def crossedSerial : Threaded (Cycle Marker) := crossedCycle (.serial 1) [.low 2, .low 3]

/-- Two queues, edges in the opposite order and one of them twice. -/
def crossedParallel : Threaded (Cycle Marker) :=
  crossedCycle { processingDegree := 2, discoveryDegree := 2, refsPerThread := 1 }
    [.low 3, .low 2, .low 3]

/-- A crossed graph in order is ready for a collection under any valid configuration. -/
theorem crossed_collectable {config : Config} {edges : List Handle}
    (hvalid : config.validate = .ok ()) (hworker : 1 < config.discoveryDegree → 1 < config.queues)
    (hsane : (crossedHeap edges).Sane)
    (hslots : ∀ s ∈ (crossedHeap edges).slots.toList, s.get .discovered = none ∧ s.marked = false) :
    Collectable (crossedCycle config edges) := by
  have hcreate : Processor.create config .wholeHeap ⟨0⟩ =
      .ok (crossedCycle config edges).state.processor := by
    rw [Processor.create, hvalid]
    rfl
  apply Collectable.of_create hvalid _ hcreate hsane
  case hunlinked =>
    exact fun o => Heap.forall_link (P := (· = none)) .discovered rfl
      fun s hs => (hslots s hs).1
  case hpending => exact Link.target_null
  case hunmarked =>
    exact fun o => Heap.forall_marks (P := (· = false)) rfl
      fun s hs => (hslots s hs).2
  case hresting => rfl
  case hworker => exact hworker
  decide

/-- So it is where one thread works on one queue. -/
theorem crossedSerial_collectable : Collectable crossedSerial :=
  crossed_collectable rfl (by decide) (.of_slots (by decide) (by decide) (by decide)) (by decide)

/-- So it is where pools, queues and edges are others. -/
theorem crossedParallel_collectable : Collectable crossedParallel :=
  crossed_collectable rfl (by decide) (.of_slots (by decide) (by decide) (by decide)) (by decide)

/-- Threads are through with the last units first. -/
def backwards (n : Nat) : UnitOrder n := ⟨(List.range n).reverse, List.reverse_perm _⟩

/-- The first collection discovers both references, and drops the first again; the second
one meets it only after its target, and runs its units in the opposite order.  Still they
publish the same reference. -/
theorem collections_agree_of_crossed :
    Collectable crossedSerial ∧ Collectable crossedParallel ∧
    Pass.Equipped false crossedSerial ∧ Pass.Equipped true crossedParallel ∧
    (crossedHeap [.low 2, .low 3]).SameGraph (crossedHeap [.low 3, .low 2, .low 3]) ∧
    ∃ t₁ t₂ u₁ u₂ counts counts',
      (Threaded.lift (traceRoots [.low 1, .low 0] (some 1)) : Pass Marker Unit)
        crossedSerial = .ok () t₁ ∧
      Pass.process hooks {} false t₁ = .ok counts t₂ ∧
      (Threaded.lift (traceRoots [.low 0, .low 1, .low 0] (some 1)) : Pass Marker Unit)
        crossedParallel = .ok () u₁ ∧
      Pass.process hooks { order := fun _ => backwards } true u₁ = .ok counts' u₂ ∧
      t₁.state.members .weak 0 = [.low 3, .low 1] ∧ u₁.state.members .weak 0 = [] ∧
      u₁.state.members .weak 1 = [.low 3] ∧
      u₂.state.world.heap.marks = t₂.state.world.heap.marks ∧
      u₂.state.pending.Perm t₂.state.pending := by
  have hequipped : Pass.Equipped false crossedSerial := ⟨by decide, by decide⟩
  have hequipped' : Pass.Equipped true crossedParallel := ⟨by decide, by decide⟩
  have hgraph :
      (crossedHeap [.low 2, .low 3]).SameGraph (crossedHeap [.low 3, .low 2, .low 3]) := by
    have hadd : (crossedHeap []).addEdges [(.low 0, .low 2), (.low 0, .low 3)] =
        .ok (crossedHeap [.low 2, .low 3]) := rfl
    have hadd' : (crossedHeap []).addEdges
        [(.low 0, .low 3), (.low 0, .low 2), (.low 0, .low 3)] =
        .ok (crossedHeap [.low 3, .low 2, .low 3]) := rfl
    exact Heap.sameGraph_of_addEdges hadd hadd' fun e => by grind
  obtain ⟨t₁, t₂, u₁, u₂, counts, counts', pub, pub', htrace, hprocess, htrace', hprocess',
    -, -, hmarks, -, hchain, hchain', hpub⟩ := collections_agree crossedSerial_collectable
      crossedParallel_collectable hgraph ⟨rfl, rfl, rfl, rfl, rfl, rfl⟩
      [.low 1, .low 0] [.low 0, .low 1, .low 0] (by decide) (fun o => by grind) {} { order := fun _ => backwards }
      hequipped hequipped'
  obtain ⟨_, t, hrun, hmembers⟩ := exists_of_run
    (x := (Threaded.lift (traceRoots [.low 1, .low 0] (some 1)) : Pass Marker Unit))
    (s := crossedSerial)
    (P := fun _ t => t.state.members .weak 0 = [.low 3, .low 1]) (by decide +kernel)
  obtain ⟨_, u, hrun', hmembers'⟩ := exists_of_run
    (x := (Threaded.lift (traceRoots [.low 0, .low 1, .low 0] (some 1)) : Pass Marker Unit))
    (s := crossedParallel)
    (P := fun _ u => u.state.members .weak 0 = [] ∧ u.state.members .weak 1 = [.low 3])
    (by decide +kernel)
  rw [show crossedSerial.worker = some 1 from rfl, hrun] at htrace
  rw [show crossedParallel.worker = some 1 from rfl, hrun'] at htrace'
  cases htrace
  cases htrace'
  obtain ⟨hmembers₀, hmembers₁⟩ := of_decide_eq_true hmembers'
  refine ⟨crossedSerial_collectable, crossedParallel_collectable, hequipped, hequipped', hgraph,
    t₁, t₂, u₁, u₂, counts, counts', hrun, hprocess, hrun', hprocess', of_decide_eq_true hmembers, hmembers₀, hmembers₁,
    hmarks, ?_⟩
  rw [Cycle.pending, Cycle.pending, hchain, hchain']
  exact hpub

end Marker

end Referents
