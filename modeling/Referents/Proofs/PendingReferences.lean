import Referents.Proofs.Collecting
import Referents.Proofs.Operations

/-!
# Pending references in later collections

References that were published stay chained until they are taken, and meanwhile mutators
may let them point to objects again.  The next collections meet them like any others.  What
keeps a trace from putting them on a list is their link: whoever is linked to something
counts as discovered.  The last reference of the chain is linked to nothing, though.  Unless
it is a final reference, it may be put on a list, and then it links to itself or to the next
member there: the chain runs into the list, and who takes it gets a reference twice.

* `Move`, `Moves` — collections, with anything else that happens in between.
* `Moves.collecting` — what they keep, if no pending reference is put on a list.
* `Marker.retrace_ok` — marks are removed, and everything is traced from some roots.
* `Exposed` — which pending references may be put on a list.
* `Undisturbed` — what a trace should leave of the pending chain.
* `undisturbed_iff` — it does so exactly if the last reference is not put on a list.
-/

namespace Referents

namespace Cycle

variable {γ : Type}

/-- Whether an object is on a list. -/
def Lists (c : Cycle γ) (o : Handle) : Prop := ∃ k q, o ∈ c.members k q

/-- The members of all lists. -/
def listed (c : Cycle γ) : List Handle :=
  RefKind.all.flatMap fun k => (List.range (c.processor.listsOf k).size).flatMap (c.members k)

/-- The listed references are those on some list. -/
theorem mem_listed {c : Cycle γ} {o : Handle} : o ∈ c.listed ↔ c.Lists o := by
  simp only [listed, List.mem_flatMap, List.mem_range]
  constructor
  · exact fun ⟨k, _, q, _, ho⟩ => ⟨k, q, ho⟩
  · intro hlists
    obtain ⟨k, q, ho⟩ := hlists
    refine ⟨k, k.mem_all, q, ?_, ho⟩
    by_contra hq
    have hnone : (c.processor.listsOf k)[q]? = none := by
      rw [Array.getElem?_eq_none_iff]
      omega
    rw [members, Processor.list, hnone] at ho
    cases ho

instance (c : Cycle γ) (o : Handle) : Decidable (c.Lists o) := decidable_of_iff _ mem_listed

instance (c : Cycle γ) : Decidable (∀ k q, c.members k q = []) :=
  decidable_of_iff (c.listed = []) (by
    simp only [List.eq_nil_iff_forall_not_mem, mem_listed, Lists, not_exists]
    exact ⟨fun h k q o => h o k q, fun h o k q => h k q o⟩)

/-- Nothing that is pending in `c` is on a list in `c'`. -/
def Spares (c c' : Cycle γ) : Prop := ∀ o ∈ c.pending, ¬ c'.Lists o

instance (c c' : Cycle γ) : Decidable (c.Spares c') :=
  inferInstanceAs (Decidable (∀ o ∈ c.pending, ¬ c'.Lists o))

end Cycle

/-- The lists, as read off the heap, are those of the roster. -/
theorem Listing.lists_iff {γ : Type} {c : Cycle γ} {r : Roster} {o : Handle}
    (hl : Listing c.processor c.world.heap r) : c.Lists o ↔ ∃ k, r.lists k o := by
  simp only [Cycle.Lists, hl.members_eq, Roster.lists]

/-- Only the last member of the pending chain is linked to nothing. -/
theorem Heap.Pends.getLast?_of_free {h : Heap} {ps : List Handle} {o : Handle} (hps : h.Pends ps)
    (ho : o ∈ ps) (hfree : h.following o = none) : ps.getLast? = some o := by
  obtain ⟨front, back, rfl⟩ := List.append_of_mem ho
  have hlink := (Heap.linked_append.mp hps.linked).2.1
  rw [hfree, Option.or_none] at hlink
  rw [List.head?_eq_none_iff.mp hlink.symm, List.getLast?_append]
  rfl

/-! ### Collections, one after the other -/

/-- The steps of collections with the marker, and whatever else happens to a cycle.  A yield
check gets its answers from a state of its own. -/
inductive Move : Type 1 where
  | op (op : Op Marker)
  | reset
  | markRoots (roots : List Handle)
  | trace (worker : Option Nat)
  | preclean (τ : Type) (check : YieldCheck τ) (answers : τ) (readings : Readings)
  | process (readings : Readings) (pool : Option Pool)

namespace Move

/-- Makes a move. -/
def run : Move → Pass Marker Unit
  | .op x => x.run
  | .reset => Threaded.lift (Step.onWorld Marker.reset)
  | .markRoots roots => Threaded.lift (Step.onWorld (Marker.markAll roots))
  | .trace worker => Threaded.lift (Marker.trace worker)
  | .preclean _ check answers readings => Threaded.lift (discard
      (Step.viaCollector (·, answers) Prod.fst
        (Step.preclean (Marker.hooks.beside _) (check.beside Marker) readings)))
  | .process readings pool => do
      modify fun t => { t with pool }
      discard (Pass.process Marker.hooks readings true)

/-- When a move may be made.  A trace starts with empty lists, and a cycle gets a pool that can
start threads, and has room for the times of its workers. -/
def Allowed (c : Cycle Marker) : Move → Prop
  | .op x => x.Plain ∧ x.Allowed c
  | .reset => True
  | .markRoots roots => ∀ o ∈ roots, c.world.heap.holds o = true
  | .trace worker => (∀ k q, c.members k q = []) ∧
      (c.processor.multiDiscovery = true → worker.getD 0 < c.processor.queues)
  | .preclean .. => True
  | .process readings pool => (c.processor.config.concurrentDiscovery = false →
        ∀ k q, ∀ o ∈ c.members k q, c.world.heap.target o ≠ none) ∧ readings.now < 2 ^ 63 ∧
      (∀ p ∈ pool, p.CanStart) ∧ c.times.HasRoom c.processor.queues

/-- A trace is to put no pending reference on a list. -/
def Sparing (c c' : Cycle Marker) : Move → Prop
  | .trace _ => c.Spares c'
  | _ => True

/-- Whether a move takes the pending chain. -/
def Takes : Move → Prop
  | .op .takePending => True
  | _ => False

end Move

/-- The moves `ms` lead from the state `t` to the state `u`, each of them allowed where it
stands, and no trace among them puts a pending reference on a list. -/
inductive Moves : List Move → Threaded (Cycle Marker) → Threaded (Cycle Marker) → Prop
  | nil (t : Threaded (Cycle Marker)) : Moves [] t t
  | cons {m : Move} {ms : List Move} {t u v : Threaded (Cycle Marker)} :
      m.Allowed t.state → m.run t = .ok () u → m.Sparing t.state u.state → Moves ms u v →
      Moves (m :: ms) t v

variable {t u : Threaded (Cycle Marker)} {c c' : Cycle Marker} {r : Roster}
variable {ps roots : List Handle} {worker : Option Nat} {o : Handle}

/-- If a trace put no pending reference on a list, collections go on. -/
theorem Collecting.explored (hc : Collecting c Roster.none ps)
    (hd : Marker.Exploring c.processor c.world.heap r c')
    (hw : Marker.MarkingOff (fun _ => True) c'.world) (hspared : ∀ o ∈ ps, ¬ c'.Lists o) :
    Collecting c' r ps := by
  refine hc.discovered (hd.discovering hc.positive hc.registered.pending hc.covers ?_) hw
  exact fun k o ho hl => hspared o ho (hd.listing.lists_iff.mpr ⟨k, hl⟩)

/-- A trace returns. -/
theorem Collecting.trace_ok (hc : Collecting c Roster.none ps)
    (hworker : c.processor.multiDiscovery = true → worker.getD 0 < c.processor.queues) :
    ∃ c' r', Marker.trace worker c = .ok () c' ∧ (c.Spares c' → Collecting c' r' ps) := by
  obtain ⟨-, c', r', hrun, -, hd, hw, -⟩ := Marker.explore_ok (hc.explorable hworker)
    (.start hc.registered.listing (lt_max_of_lt_left hc.turn)) hc.marking
  refine ⟨c', r', hrun, fun hspares => hc.explored hd hw fun o ho => hspares o ?_⟩
  rwa [hc.pending_eq]

/-- Every move returns where it is allowed.  What is pending stays so until it is taken. -/
theorem Move.run_ok (hc : Collecting t.state r ps) {m : Move} (ha : m.Allowed t.state) :
    ∃ u r' ps', m.run t = .ok () u ∧ (m.Sparing t.state u.state → Collecting u.state r' ps') ∧
      (¬ m.Takes → ∃ pub, ps' = pub ++ ps) := by
  cases m with
  | op x =>
      obtain ⟨u, r', hrun, htended⟩ := x.plain_ok hc.toSound ha.1 ha.2
      have hleaves : x.leaves ps = ps ∨ x.leaves ps = [] ∧ Move.Takes (.op x) := by
        cases x with
        | takePending => exact .inr ⟨rfl, trivial⟩
        | _ => exact .inl rfl
      refine ⟨u, r', x.leaves ps, hrun, fun _ => hc.of_tended htended fun o ho => ?_,
        fun htakes => ?_⟩
      · rcases hleaves with heq | ⟨heq, -⟩
        · rwa [heq] at ho
        · rw [heq] at ho
          cases ho
      · exact ⟨[], hleaves.resolve_right fun htaken => htakes htaken.2⟩
  | reset =>
      have hrun : (Marker.reset : Act Marker Unit) t.state.world =
          .ok () ⟨t.state.world.heap.clearMarks, {}⟩ := rfl
      exact ⟨_, r, ps, Threaded.lift_ok (Step.onWorld_ok hrun), fun _ => hc.reset,
        fun _ => ⟨[], rfl⟩⟩
  | markRoots roots =>
      obtain ⟨w, new, hrun, hgrows, -⟩ := Marker.markAll_ok ha
      exact ⟨_, r, ps, Threaded.lift_ok (Step.onWorld_ok hrun), fun _ => hc.grows hgrows,
        fun _ => ⟨[], rfl⟩⟩
  | trace worker =>
      rw [hc.eq_none ha.1] at hc
      obtain ⟨c', r', hrun, hspared⟩ := hc.trace_ok ha.2
      exact ⟨{ t with state := c' }, r', ps, Threaded.lift_ok hrun, hspared, fun _ => ⟨[], rfl⟩⟩
  | preclean τ check answers readings =>
      obtain ⟨out, c', r', -, hrun, hc', -⟩ := hc.preclean_ok check answers readings
      exact ⟨_, r', ps, Threaded.lift_ok (map_ok (fun _ => ()) hrun), fun _ => hc',
        fun _ => ⟨[], rfl⟩⟩
  | process readings pool =>
      obtain ⟨hnull, hnow, hpool, hroom⟩ := ha
      have hequipped : Pass.Equipped true { t with pool } := ⟨fun _ => hpool, hroom⟩
      obtain ⟨u, counts, pub, -, hrun, hc', -⟩ :=
        Collecting.process_ok (t := { t with pool }) hc (fun hconcurrent k o ⟨q, ho⟩ =>
          hnull hconcurrent k q o (by rwa [hc.members_eq])) hnow hequipped
      exact ⟨u, _, _, (bind_ok (modify_ok _ t)).trans (map_ok (fun _ => ()) hrun), fun _ => hc',
        fun _ => ⟨pub, rfl⟩⟩

/-- Collections go on, and what is pending stays at the end of the chain until it is taken. -/
theorem Moves.collecting {ms : List Move} (hmoves : Moves ms t u)
    (hc : Collecting t.state r ps) :
    ∃ r' ps', Collecting u.state r' ps' ∧ ((∀ m ∈ ms, ¬ m.Takes) → ∃ pub, ps' = pub ++ ps) := by
  induction hmoves generalizing r ps with
  | nil => exact ⟨r, ps, hc, fun _ => ⟨[], rfl⟩⟩
  | cons ha hrun hsparing _ ih =>
      obtain ⟨v, r₁, ps₁, hrun₁, hc₁, hkept₁⟩ := Move.run_ok hc ha
      rw [hrun] at hrun₁
      cases hrun₁
      obtain ⟨r', ps', hc', hkept⟩ := ih (hc₁ hsparing)
      refine ⟨r', ps', hc', fun htakes => ?_⟩
      obtain ⟨pub₁, rfl⟩ := hkept₁ (htakes _ List.mem_cons_self)
      obtain ⟨pub, rfl⟩ := hkept fun m hm => htakes m (List.mem_cons_of_mem _ hm)
      exact ⟨pub ++ pub₁, (List.append_assoc ..).symm⟩

/-! ### Another trace -/

/-- Marks are removed, discovery is enabled, and everything is traced from the roots. -/
def Marker.retrace (roots : List Handle) (worker : Option Nat) : Step Marker Unit := do
  Step.onWorld Marker.reset
  Marker.traceRoots roots worker

/-- Takes the references that are pending. -/
def Step.take : Step Marker (List Handle) := Step.onWorld (Act.onHeap Heap.takePending)

/-- The pending reference `o` of the cycle `c` has a target and no link, and is not refused,
so that the trace that led to `c'` could put it on a list. -/
structure Exposed (c c' : Cycle Marker) (o : Handle) : Prop where
  last : c.pending.getLast? = some o
  kind : ∃ k, c.world.heap.kindOf o = some k ∧ k ≠ .final ∧
    ¬ c.processor.discovering.Refuses c.world.heap o k
  target : c.world.heap.target o ≠ none
  marked : c'.world.heap.marks o = true

/-- The trace that led from the state `t` to the cycle `c'` has left the pending chain alone:
a walk along it meets the same references, none of them is on a list, and whenever the chain
is taken later, each of them is handed out once. -/
structure Undisturbed (t : Threaded (Cycle Marker)) (c' : Cycle Marker) : Prop where
  walk : c'.world.heap.chain c'.world.heap.pendingHead =
    t.state.world.heap.chain t.state.world.heap.pendingHead
  spared : t.state.Spares c'
  taken : ∀ ms v, Moves ms { t with state := c' } v → (∀ m ∈ ms, ¬ m.Takes) →
    ∃ pub w, Step.take v.state = .ok (pub ++ t.state.pending) w ∧ (pub ++ t.state.pending).Nodup

namespace Marker

/-- What a trace starts from after marks were removed and discovery was enabled. -/
def unmarked (c : Cycle Marker) : Cycle Marker :=
  { c with processor := c.processor.discovering, world := ⟨c.world.heap.clearMarks, {}⟩ }

theorem traits_unmarked (c : Cycle Marker) :
    (unmarked c).world.heap.traits = c.world.heap.traits := Heap.traits_clearMarks

theorem link_unmarked (c : Cycle Marker) :
    (unmarked c).world.heap.link = c.world.heap.link := Heap.link_clearMarks

theorem collecting_unmarked (hc : Collecting c Roster.none ps) :
    Collecting (unmarked c) Roster.none ps :=
  hc.reset.of_keeps (hc.reset.of_processor rfl rfl hc.positive hc.degree hc.turn hc.clock hc.clock)
    (.refl _) hc.reset.waiting

/-- A trace from any roots returns.  It judges all marked references that are linked to
nothing. -/
theorem retrace_ok (hc : Collecting c Roster.none ps) (hoff : c.processor.enabled = false)
    (hroots : ∀ o ∈ roots, c.world.heap.holds o = true)
    (hworker : c.processor.multiDiscovery = true → worker.getD 0 < c.processor.queues) :
    ∃ c' r, retrace roots worker c = .ok () c' ∧
      Exploring (unmarked c).processor (unmarked c).world.heap r c' ∧
      MarkingOff (fun _ => True) c'.world ∧
      Judged (Obstructed (unmarked c).processor (unmarked c).world.heap) r c'.world.heap [] := by
  have hc₁ := collecting_unmarked hc
  have hreset : (Step.onWorld reset : Step Marker Unit) c =
      .ok () { c with world := ⟨c.world.heap.clearMarks, {}⟩ } := rfl
  have henable : (Step.updateProcessor Processor.enable : Step Marker Unit)
      { c with world := ⟨c.world.heap.clearMarks, {}⟩ } = .ok () (unmarked c) :=
    Step.updateProcessor_ok (Processor.enable_ok hc.registered hoff)
  obtain ⟨w, -, c', r, hmark, htrace, -, hd, hw, -, -, hj, -⟩ :=
    exploreRoots_ok (c := unmarked c) hc₁.registered.listing (lt_max_of_lt_left hc₁.turn)
      hc₁.sane.edges (fun _ => Heap.marks_clearMarks) rfl hroots (hc₁.explorable hworker)
  have hmarkRoots : (Step.onWorld (markAll roots) : Step Marker Unit) (unmarked c) =
      .ok () { unmarked c with world := w } := Step.onWorld_ok hmark
  have htraceRoots : traceRoots roots worker { c with world := ⟨c.world.heap.clearMarks, {}⟩ } =
      .ok () c' := (bind_ok henable).trans ((bind_ok hmarkRoots).trans htrace)
  exact ⟨c', r, (bind_ok hreset).trans htraceRoots, hd,
    ⟨hw.edges, hw.marked, fun _ hE => absurd trivial hE⟩, hj⟩

end Marker

namespace Collecting

variable {k : RefKind}

/-- What is refused does not depend on marks. -/
theorem declines_unmarked (hc : Collecting c r ps) (ho : c.world.heap.holds o = true) :
    (Marker.unmarked c).processor.declines (Marker.unmarked c).world.heap o k = .ok true ↔
      c.processor.discovering.Refuses c.world.heap o k := by
  have hsame : (Marker.unmarked c).processor.declines (Marker.unmarked c).world.heap o k =
      c.processor.discovering.declines c.world.heap o k :=
    Processor.declines_eq (.refl _) (Heap.survey_of_traits (Marker.traits_unmarked c)
      (fun _ => congrFun (Marker.link_unmarked c) _)
      fun _ => congrFun (Marker.link_unmarked c) _) ho k
  rw [hsame]
  exact Processor.declines_iff (hc.sane.timely hc.clock) ho

section Retraced

variable (hc : Collecting c Roster.none ps)
variable (hd : Marker.Exploring (Marker.unmarked c).processor (Marker.unmarked c).world.heap r c')

include hc hd

/-- A pending reference that was put on a list is the last one, and it was exposed. -/
theorem exposed (ho : o ∈ ps) (hl : r.lists k o) : Exposed c c' o := by
  have hkind := hd.kinds hl
  have hfree := hd.free k o hl
  have hpoints := hd.pointing k o hl
  rw [Heap.following, Marker.link_unmarked] at hfree
  rw [Heap.target, Marker.link_unmarked] at hpoints
  refine ⟨?_, ⟨k, ?_, ?_, fun hrefuses => ?_⟩, hpoints, hd.marked k o hl⟩
  · rw [hc.pending_eq]
    exact hc.registered.pending.getLast?_of_free ho hfree
  · rw [← hkind, Heap.kindOf_congr (Marker.traits_unmarked c)]
  · rintro rfl
    exact (Marker.collecting_unmarked hc).sealed o ho hkind (hd.fresh o hl)
  · rw [← hc.declines_unmarked (Heap.holds_of_target_ne_none hpoints), hd.wanted k o hl] at hrefuses
    cases hrefuses

/-- An exposed reference whose target was not marked after all was put on a list. -/
theorem lists_of_exposed (he : Exposed c c' o)
    (hj : Marker.Judged (Marker.Obstructed (Marker.unmarked c).processor
      (Marker.unmarked c).world.heap) r c'.world.heap [])
    (hstrands : c'.world.heap.Strands c'.world.heap.marks o) : c'.Lists o := by
  obtain ⟨k, hk, -⟩ := he.kind
  have hlast := he.last
  rw [hc.pending_eq] at hlast
  have hfree : (Marker.unmarked c).world.heap.following o = none := by
    rw [Heap.following, Marker.link_unmarked]
    exact hc.registered.pending.linked.getLast? hlast
  have hkind : c'.world.heap.kindOf o ≠ none := by
    rw [Heap.kindOf_congr (hd.traits.trans (Marker.traits_unmarked c)), hk]
    exact Option.some_ne_none k
  have hjudged := hj o (fun hobstructed => hobstructed.1 hfree) he.marked List.not_mem_nil hkind
  exact hd.listing.lists_iff.mpr (hjudged.resolve_left (not_not_intro hstrands))

/-- If the last reference was not put on a list, no pending one was. -/
theorem spares (hlast : ∀ o, c.pending.getLast? = some o → ¬ c'.Lists o) : c.Spares c' := by
  intro o ho hlists
  obtain ⟨k, hl⟩ := hd.listing.lists_iff.mp hlists
  rw [hc.pending_eq] at ho
  exact hlast o (hc.exposed hd ho hl).last hlists

/-- If the last reference was put on a list, the chain runs on along that list up to its
last member, and this one is taken twice. -/
theorem take_of_lists (ho : ps.getLast? = some o) (hlists : c'.Lists o) :
    ∃ handed d, Step.take c' = .ok handed d ∧ ¬ handed.Nodup := by
  obtain ⟨k, q, hq⟩ := hd.listing.lists_iff.mp hlists
  obtain ⟨l, -, hl⟩ := hd.listing.list_ok (k := k) (hd.listing.lt_queues hq)
  obtain ⟨front, rfl⟩ := List.getLast?_eq_some_iff.mp ho
  obtain ⟨before, after, hsplit⟩ := List.append_of_mem hq
  have hps := hc.registered.pending
  -- no other pending reference is on a list
  have hfront : ∀ x ∈ front, ∀ k, ¬ r.lists k x := by
    intro x hx k hl
    have hlast := (hc.exposed hd (List.mem_append_left _ hx) hl).last
    rw [hc.pending_eq, ho, Option.some.injEq] at hlast
    exact (List.nodup_append.mp hps.nodup).2.2 x hx o (by simp) hlast.symm
  have hlinkFront : ∀ x ∈ front, c'.world.heap.following x = c.world.heap.following x :=
    fun x hx => (hd.following_eq (hfront x hx)).trans (congrFun (Marker.link_unmarked c) _)
  have hhead : c'.world.heap.pendingHead = (front ++ [o]).head? := by
    rw [hd.pending, Marker.unmarked, Heap.pendingHead_clearMarks, hps.head]
  have hlinked : c'.world.heap.Linked (some o) front :=
    (Heap.linked_congr hlinkFront).mpr (Heap.linked_append.mp hps.linked).1
  have hheld : ∀ x ∈ front, c'.world.heap.holds x = true := by
    intro x hx
    rw [hd.holds_eq]
    exact hps.held x (List.mem_append_left _ hx)
  obtain ⟨handed, g, hrun, htwice⟩ := Heap.takePending_into (hsplit ▸ hl) hhead hlinked
    (List.nodup_append.mp hps.nodup).1 hheld fun x hx hmem => hfront x hx k ⟨q, hsplit ▸ hmem⟩
  have hact : (Act.onHeap Heap.takePending : Act Marker (List Handle)) c'.world =
      .ok handed { c'.world with heap := g } := by
    simp only [Act.onHeap, hrun]
  exact ⟨handed, _, Step.onWorld_ok hact, htwice⟩

end Retraced

end Collecting

/-- The chain is left alone if the last reference was not put on a list. -/
theorem Collecting.undisturbed (hc : Collecting t.state Roster.none ps)
    (hd : Marker.Exploring (Marker.unmarked t.state).processor
      (Marker.unmarked t.state).world.heap r c')
    (hw : Marker.MarkingOff (fun _ => True) c'.world) (hspares : t.state.Spares c') :
    Undisturbed t c' := by
  have hc' := (Marker.collecting_unmarked hc).explored hd hw fun o ho =>
    hspares o (by rwa [hc.pending_eq])
  refine ⟨?_, hspares, fun ms v hmoves htakes => ?_⟩
  · rw [hc'.registered.pending.chain_eq, hc.registered.pending.chain_eq]
  · obtain ⟨r', ps', hcv, hkept⟩ := hmoves.collecting hc'
    obtain ⟨pub, rfl⟩ := hkept htakes
    obtain ⟨w, hrun, -⟩ := hcv.takePending_ok
    rw [hc.pending_eq]
    exact ⟨pub, w, hrun, hcv.registered.pending.nodup⟩

/-- After any collections from a new processor, whatever mutators did to targets, another
trace from any roots returns.  Only the last pending reference can be put on a list by it:
one that points to something, is marked and not refused, and is no final reference; and it is
if its target was not marked after all.  The pending chain is left alone exactly if that did
not happen, and otherwise a reference is taken twice. -/
theorem undisturbed_iff {config : Config} (hvalid : config.validate = .ok ()) (scope : Scope)
    {clock : SoftClock} (hclock : IsStamp clock.millis) :
    ∃ p, Processor.create config scope clock = .ok p ∧
      ∀ start : Threaded (Cycle Marker), start.state.processor = p →
        start.state.world.heap.Sane → (∀ o, start.state.world.heap.following o = none) →
        start.state.world.heap.pendingHead = none → start.state.world.collector = {} →
        ∀ (ms : List Move) (t : Threaded (Cycle Marker)), Moves ms start t →
          Op.enable.Allowed t.state →
          ∀ (roots : List Handle) (worker : Option Nat),
            (∀ o ∈ roots, t.state.world.heap.holds o = true) →
            (t.state.processor.multiDiscovery = true →
              worker.getD 0 < t.state.processor.queues) →
            ∃ c', Marker.retrace roots worker t.state = .ok () c' ∧
              (∀ o ∈ t.state.pending, c'.Lists o → Exposed t.state c' o) ∧
              (∀ o, Exposed t.state c' o → c'.world.heap.Strands c'.world.heap.marks o →
                c'.Lists o) ∧
              (Undisturbed t c' ↔ ∀ o, t.state.pending.getLast? = some o → ¬ c'.Lists o) ∧
              (¬ Undisturbed t c' →
                ∃ handed d, Step.take c' = .ok handed d ∧ ¬ handed.Nodup) := by
  obtain ⟨p, hcreate, -⟩ := Processor.create_ok hvalid scope clock
  refine ⟨p, hcreate, fun start hp hsane hunlinked hpending hnew ms t hmoves hallowed roots worker
    hroots hworker => ?_⟩
  rw [← hp] at hcreate
  have hstart : Collecting start.state Roster.none [] := by
    refine ⟨sound_of_create hvalid hclock hcreate hsane hunlinked hpending, ?_,
      fun _ ho => nomatch ho⟩
    rw [hnew]
    exact fun _ ho => nomatch ho
  obtain ⟨r, ps, hc, -⟩ := hmoves.collecting hstart
  rw [hc.eq_none hallowed.2] at hc
  obtain ⟨c', r', hrun, hd, hw, hj⟩ := Marker.retrace_ok hc hallowed.1 hroots hworker
  have hiff : Undisturbed t c' ↔ ∀ o, t.state.pending.getLast? = some o → ¬ c'.Lists o :=
    ⟨fun hu o ho => hu.spared o (List.mem_of_getLast? ho),
      fun hlast => hc.undisturbed hd hw (hc.spares hd hlast)⟩
  refine ⟨c', hrun, fun o ho hlists => ?_, fun o he => hc.lists_of_exposed hd he hj, hiff, ?_⟩
  · obtain ⟨k, hl⟩ := hd.listing.lists_iff.mp hlists
    exact hc.exposed hd (by rwa [← hc.pending_eq]) hl
  · intro hdisturbed
    simp only [hiff, not_forall, not_not] at hdisturbed
    obtain ⟨o, hlast, hlists⟩ := hdisturbed
    rw [hc.pending_eq] at hlast
    exact hc.take_of_lists hd hlast hlists

/-! ### Runs -/

instance (c : Cycle Marker) : (x : Op Marker) → Decidable (x.Plain ∧ x.Allowed c)
  | .clearReferent _ => inferInstanceAs (Decidable (True ∧ _ = true))
  | .setReferent .. => inferInstanceAs (Decidable (True ∧ _ = true ∧ _ = true))
  | .stamp .. => inferInstanceAs (Decidable (True ∧ _ = true ∧ IsStamp _))
  | .advanceClock _ => inferInstanceAs (Decidable (True ∧ (_ : Int) < _))
  | .enable => inferInstanceAs (Decidable (True ∧ _ = false ∧ ∀ k q, c.members k q = []))
  | .setDegree _ => inferInstanceAs (Decidable (True ∧ 1 ≤ _ ∧ _ ≤ _))
  | .discover .. => inferInstanceAs (Decidable (True ∧ _ = some _ ∧ _ ∉ _ ∧ (_ = true → _ < _)))
  | .preclean .. | .process .. => isFalse fun hplain => hplain.1
  | .allocate _ | .allocateReference .. | .addEdge .. | .usePolicy _ | .setupPolicy .. | .setScope _
  | .setKnownAlive _ | .disable | .setMulti _ | .balanceAll | .abandon | .takePending =>
      isTrue ⟨trivial, trivial⟩

namespace Move

instance (c : Cycle Marker) : (m : Move) → Decidable (m.Allowed c)
  | .op x => inferInstanceAs (Decidable (x.Plain ∧ x.Allowed c))
  | .markRoots roots => inferInstanceAs (Decidable (∀ o ∈ roots, c.world.heap.holds o = true))
  | .trace _ => inferInstanceAs (Decidable ((∀ k q, c.members k q = []) ∧ (_ = true → _ < _)))
  | .process readings pool => decidable_of_iff ((c.processor.config.concurrentDiscovery = false →
      ∀ o ∈ c.listed, c.world.heap.target o ≠ none) ∧ readings.now < 2 ^ 63 ∧
      (∀ p ∈ pool, p.CanStart) ∧ c.times.HasRoom c.processor.queues) (by
        simp only [Cycle.mem_listed, Cycle.Lists, Allowed]
        exact and_congr_left' (imp_congr_right fun _ =>
          ⟨fun h k q o ho => h o ⟨k, q, ho⟩, fun h o ⟨k, q, ho⟩ => h k q o ho⟩))
  | .reset | .preclean .. => isTrue trivial

instance (c c' : Cycle Marker) : (m : Move) → Decidable (m.Sparing c c')
  | .trace _ => inferInstanceAs (Decidable (c.Spares c'))
  | .op _ | .reset | .markRoots _ | .preclean .. | .process .. => isTrue trivial

/-- Makes several moves, unless one is not allowed, fails, or puts a pending reference on a
list. -/
def runAll : List Move → Threaded (Cycle Marker) → Option (Threaded (Cycle Marker))
  | [], t => some t
  | m :: ms, t =>
      if m.Allowed t.state then
        match m.run t with
        | .ok _ u => if m.Sparing t.state u.state then runAll ms u else none
        | .error .. => none
      else none

end Move

/-- Moves that can be computed are moves. -/
theorem Moves.of_runAll {ms : List Move} (hrun : Move.runAll ms t = some u) : Moves ms t u := by
  induction ms generalizing t with
  | nil =>
      cases hrun
      exact .nil _
  | cons m ms ih =>
      unfold Move.runAll at hrun
      split at hrun
      · next ha =>
          split at hrun
          · next v hmove =>
              split at hrun
              · next hsparing => exact .cons ha hmove hsparing (ih hrun)
              · cases hrun
          · cases hrun
      · cases hrun

/-- Where moves lead can be found by making them. -/
theorem Moves.exists_of_runAll {ms : List Move} {P : Threaded (Cycle Marker) → Bool}
    (h : (Move.runAll ms t).any P = true) : ∃ u, Moves ms t u ∧ P u = true := by
  obtain ⟨u, hrun, hu⟩ := (Option.any_eq_true ..).mp h
  exact ⟨u, .of_runAll hrun, hu⟩

namespace Marker

/-- Whether the cycle after another trace and the references that are taken then pass a test. -/
def retraces (roots : List Handle) (test : Cycle Marker → List Handle → Bool)
    (c : Cycle Marker) : Bool :=
  match retrace roots none c with
  | .ok _ c' =>
      match Step.take c' with
      | .ok handed _ => test c' handed
      | .error .. => false
  | .error .. => false

theorem exists_of_retraces {test : Cycle Marker → List Handle → Bool}
    (h : retraces roots test c = true) : ∃ c' handed d,
      retrace roots none c = .ok () c' ∧ Step.take c' = .ok handed d ∧ test c' handed = true := by
  unfold retraces at h
  split at h
  · next c' hrun =>
      split at h
      · next handed d htake => exact ⟨c', handed, d, hrun, htake, h⟩
      · cases h
  · cases h

end Marker

/-- A second weak reference to the first object, and a collection from both of them. -/
def collectBoth : List Move :=
  [.op (.allocateReference (some .weak) (some (.low 0)) .young), .op .enable,
    .markRoots [.low 1, .low 2], .trace none, .process {} none]

/-- Then the first reference of the pending chain is let point to a new object. -/
def repointFirst : List Move :=
  collectBoth ++ [.op (.allocate .young), .op (.setReferent (.low 2) (some (.low 3)))]

/-- It points to an object that is not marked, but it is not put on a list, and both
references are taken once. -/
theorem undisturbed_iff_of_first : pairConfig.validate = .ok () ∧ IsStamp 0 ∧
    ∃ t c' d, Moves repointFirst pairStart t ∧ t.state.pending = [.low 2, .low 1] ∧
      t.state.world.heap.target (.low 2) = some (.low 3) ∧
      Marker.retrace [.low 1, .low 2] none t.state = .ok () c' ∧ Undisturbed t c' ∧
      Step.take c' = .ok [.low 2, .low 1] d := by
  have hvalid : pairConfig.validate = .ok () := rfl
  have hclock : IsStamp (SoftClock.mk 0).millis := by decide
  obtain ⟨p, hcreate, hall⟩ := undisturbed_iff hvalid .wholeHeap hclock
  rw [pair_created] at hcreate
  have hruns : (Move.runAll repointFirst pairStart).any (fun t =>
      decide ((Move.op .enable).Allowed t.state ∧
        t.state.pending = [.low 2, .low 1] ∧
        t.state.world.heap.target (.low 2) = some (.low 3) ∧
        (∀ o : Handle, o ∈ [.low 1, .low 2] → t.state.world.heap.holds o = true) ∧
        t.state.processor.multiDiscovery = false) &&
      Marker.retraces [.low 1, .low 2]
        (fun c' handed => handed = [.low 2, .low 1] ∧ ¬ c'.Lists (.low 1)) t.state) = true := by
    decide +kernel
  obtain ⟨t, hmoves, ht⟩ := Moves.exists_of_runAll hruns
  rw [Bool.and_eq_true, decide_eq_true_eq] at ht
  obtain ⟨⟨hallowed, hpending, htarget, hheld, hserial⟩, hretraced⟩ := ht
  obtain ⟨c', handed, d, hrun, htake, hfacts⟩ := Marker.exists_of_retraces hretraced
  obtain ⟨rfl, hunlisted⟩ := of_decide_eq_true hfacts
  obtain ⟨c'', hrun', -, -, hiff, -⟩ := hall pairStart (Except.ok.inj hcreate) pair_sane
    pair_unlinked (by decide) rfl repointFirst t hmoves hallowed.2 [.low 1, .low 2] none hheld
    (by rw [hserial]; exact fun hmulti => nomatch hmulti)
  rw [hrun] at hrun'
  cases hrun'
  refine ⟨hvalid, hclock, t, c', d, hmoves, hpending, htarget, hrun, hiff.mpr fun o ho => ?_, htake⟩
  rw [hpending] at ho
  cases ho
  exact hunlisted

/-- A weak reference was published and is let point to a new object. -/
def repointLast : List Move :=
  [.op .enable, .markRoots [.low 1], .trace none, .process {} none, .op (.allocate .young),
    .op (.setReferent (.low 1) (some (.low 2)))]

/-- It is the only one on the chain, and so the last: the next trace puts it on a list, and
it is taken twice. -/
theorem last_taken_twice : ∃ t c' d, Moves repointLast pairStart t ∧ Op.enable.Allowed t.state ∧
    t.state.pending = [.low 1] ∧ Marker.retrace [.low 1] none t.state = .ok () c' ∧
    c'.members .weak 0 = [.low 1] ∧ ¬ Undisturbed t c' ∧
    Step.take c' = .ok [.low 1, .low 1] d := by
  have hruns : (Move.runAll repointLast pairStart).any (fun t =>
      decide ((Move.op .enable).Allowed t.state ∧ t.state.pending = [.low 1]) &&
      Marker.retraces [.low 1]
        (fun c' handed => handed = [.low 1, .low 1] ∧ c'.members .weak 0 = [.low 1]) t.state) =
        true := by decide +kernel
  obtain ⟨t, hmoves, ht⟩ := Moves.exists_of_runAll hruns
  rw [Bool.and_eq_true, decide_eq_true_eq] at ht
  obtain ⟨⟨hallowed, hpending⟩, hretraced⟩ := ht
  obtain ⟨c', handed, d, hrun, htake, hfacts⟩ := Marker.exists_of_retraces hretraced
  obtain ⟨rfl, hmembers⟩ := of_decide_eq_true hfacts
  refine ⟨t, c', d, hmoves, hallowed.2, hpending, hrun, hmembers, fun hu => ?_, htake⟩
  exact hu.spared (.low 1) (by rw [hpending]; simp) ⟨.weak, 0, by rw [hmembers]; simp⟩

end Referents
