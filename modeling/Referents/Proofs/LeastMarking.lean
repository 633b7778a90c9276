import Referents.Proofs.Operations
import Referents.Proofs.Tracing

/-!
# What a trace marks

A trace decides on the fly which targets it follows: those of references that are
declined when they are offered.  The order in which objects are met matters for
which references are offered at all, but not for what is marked in the end.  That is
the least set of objects that has the roots, with every object what its edges lead
to, and with every reference that is refused its target.

References whose target was left unmarked are on lists, each on one list of its
kind, and every object of the set was visited once.

* `Marker.Attains` — the sets that a trace has to mark at least.
* `Marker.Explored` — what marking roots and tracing from them leaves behind.
* `Marker.marks_least` — from a reset marker and empty lists, any roots can be
  traced, and the least such set is marked.
-/

namespace Referents

namespace Marker

variable {p : Processor} {h : Heap} {c c' : Cycle Marker} {roots visited : List Handle}
variable {worker : Option Nat} {S : Handle → Prop} {o : Handle} {k : RefKind}

/-- The set has the roots, is closed under edges, and has the target of each of its
references that is refused. -/
structure Attains (p : Processor) (h : Heap) (roots : List Handle) (S : Handle → Prop) :
    Prop where
  roots : ∀ o ∈ roots, S o
  edges : h.Closed S
  targets : ∀ o k t, S o → h.kindOf o = some k → p.Refuses h o k → h.target o = some t → S t

/-- What tracing arrives at is such a set. -/
theorem attains_traced (htimely : p.Timely h) :
    Attains p h roots (Traced p h (· ∈ roots)) where
  roots _ ho := .root ho
  edges _ ho _ hq := .edge ho hq
  targets _ _ _ ho hk hrefuses ht :=
    .target ho hk ((Processor.declines_iff htimely (Heap.holds_of_kindOf hk)).mpr hrefuses) ht

/-- It lies in every such set. -/
theorem Attains.of_traced (ha : Attains p h roots S) (htimely : p.Timely h)
    (ho : Traced p h (· ∈ roots) o) : S o := by
  induction ho with
  | root hroot => exact ha.roots _ hroot
  | edge _ hq ih => exact ha.edges _ ih _ hq
  | target _ hk hdeclined ht ih =>
      have hrefuses := (Processor.declines_iff htimely (Heap.holds_of_kindOf hk)).mp hdeclined
      exact ha.targets _ _ _ ih hk hrefuses ht

/-- If only final references that were processed before have both a target and a link, then
no reference is kept off the lists by its link. -/
theorem not_obstructed_of_linked (htimely : p.Timely h)
    (hlinked : ∀ o, h.kindOf o ≠ none → h.target o ≠ none → h.following o ≠ none →
      h.kindOf o = some .final ∧ h.nextLink o ≠ none) (o : Handle) : ¬ Obstructed p h o := by
  intro hobstructed
  obtain ⟨hlink, hto, k, hk, hwanted⟩ := hobstructed
  obtain ⟨hfinal, hnext⟩ := hlinked o (by rw [hk]; exact Option.some_ne_none k) hto hlink
  rw [hk, Option.some.injEq] at hfinal
  rw [(Processor.declines_iff htimely (Heap.holds_of_kindOf hk)).mpr (.inactive hfinal hnext)]
    at hwanted
  cases hwanted

namespace Exploring

variable {r : Roster} {q : Nat}

/-- Whoever is on a list is marked and has a target, and is not refused. -/
theorem wanted_member (hd : Exploring p h r c') (htimely : p.Timely h) (ho : o ∈ r k q) :
    c'.world.heap.marks o = true ∧ h.kindOf o = some k ∧ h.target o ≠ none ∧
      ¬ p.Refuses h o k := by
  have hl : r.lists k o := ⟨q, ho⟩
  refine ⟨hd.marked k o hl, hd.kinds hl, hd.pointing k o hl, fun hrefuses => ?_⟩
  have hdeclined := (Processor.declines_iff htimely (Heap.holds_of_kindOf (hd.kinds hl))).mpr
    hrefuses
  rw [hd.wanted k o hl] at hdeclined
  cases hdeclined

/-- A marked reference that was judged and has an unmarked target is on one list of its
kind. -/
theorem listed_once {t : Handle} (hd : Exploring p h r c')
    (hjudged : Judged (Obstructed p h) r c'.world.heap []) (hfree : ¬ Obstructed p h o)
    (ho : c'.world.heap.marks o = true) (hk : h.kindOf o = some k) (ht : h.target o = some t)
    (hunreached : c'.world.heap.marks t = false) :
    ∃ q, o ∈ r k q ∧ ∀ k' q', o ∈ r k' q' → k' = k ∧ q' = q := by
  have hstrands : c'.world.heap.Strands c'.world.heap.marks o :=
    ⟨t, (hd.target_eq o).trans ht, hunreached⟩
  have hkind : c'.world.heap.kindOf o ≠ none := by
    rw [Heap.kindOf_congr hd.traits, hk]
    exact Option.some_ne_none k
  obtain ⟨k', hl⟩ := (hjudged o hfree ho List.not_mem_nil hkind).resolve_left
    (not_not_intro hstrands)
  have hkk : k' = k := Option.some.inj ((hd.kinds hl).symm.trans hk)
  subst hkk
  obtain ⟨q, hq⟩ := hl
  exact ⟨q, hq, fun k₁ q₁ hq₁ => hd.listing.apart hq₁ hq⟩

end Exploring

/-- References of the heap `h` were offered to the processor `p` while everything was
traced from the roots; the objects `visited` were taken from the queue, in this order. -/
structure Explored (p : Processor) (h : Heap) (roots visited : List Handle)
    (c : Cycle Marker) : Prop where
  traits : c.world.heap.traits = h.traits
  target : ∀ o, c.world.heap.target o = h.target o
  resting : c.world.collector.queue.items = []
  attains : Attains p h roots fun o => c.world.heap.marks o = true
  least : ∀ S, Attains p h roots S → ∀ o, c.world.heap.marks o = true → S o
  list : ∀ k q, q < c.processor.queues → ∃ l, c.processor.list k q = .ok l ∧
    c.world.heap.chain l.head = ⟨c.members k q, true⟩ ∧ l.length = (c.members k q).length
  distinct : ∀ k q, (c.members k q).Nodup
  listed : ∀ o k t, c.world.heap.marks o = true → h.kindOf o = some k → h.target o = some t →
    c.world.heap.marks t = false →
    ∃ q, o ∈ c.members k q ∧ ∀ k' q', o ∈ c.members k' q' → k' = k ∧ q' = q
  wanted : ∀ k q, ∀ o ∈ c.members k q, c.world.heap.marks o = true ∧ h.kindOf o = some k ∧
    h.target o ≠ none ∧ ¬ p.Refuses h o k
  once : visited.Nodup
  all : ∀ o, o ∈ visited ↔ c.world.heap.marks o = true
  enqueued : c.world.collector.queue.enqueued = visited.length
  processed : c.world.collector.queue.processed = visited.length
  counted : c.world.collector.marked = visited.length

/-- From a reset marker and empty lists everything can be traced from any roots, if only
final references that were processed before have both a target and a link.  The marks are
the least set that has the roots, what its edges lead to, and the targets of its refused
references.  A marked reference with an unmarked target is on one list, of its kind, no
refused reference is on any, and each marked object was queued and visited once. -/
theorem marks_least (hsane : c.world.heap.Sane)
    (hlists : Listing c.processor c.world.heap Roster.none)
    (hqueues : 0 < c.processor.queues) (hdegree : c.processor.degree ≤ c.processor.queues)
    (hturn : c.processor.turn < max c.processor.degree 1)
    (hworker : c.processor.multiDiscovery = true → worker.getD 0 < c.processor.queues)
    (hsnapshot : IsStamp c.processor.snapshot)
    (hreset : c.world.collector = {}) (hunmarked : ∀ o, c.world.heap.marks o = false)
    (hlinked : ∀ o, c.world.heap.kindOf o ≠ none → c.world.heap.target o ≠ none →
      c.world.heap.following o ≠ none →
      c.world.heap.kindOf o = some .final ∧ c.world.heap.nextLink o ≠ none)
    (roots : List Handle) (hroots : ∀ o ∈ roots, c.world.heap.holds o = true) :
    ∃ w c' visited, markAll roots c.world = .ok () w ∧
      trace worker { c with world := w } = .ok () c' ∧
      Visits worker { c with world := w } visited c' ∧
      Explored c.processor c.world.heap roots visited c' := by
  have htimely := hsane.timely hsnapshot
  have hresting : c.world.collector.queue.items = [] := by
    rw [hreset]
    rfl
  obtain ⟨w, visited, c', r, hmark, htrace, hvisits, hd, -, hempty, htallied, hjudged, hmarked⟩ :=
    exploreRoots_ok hlists hturn hsane.edges hunmarked hresting hroots
      ⟨hsane.targets, htimely, hqueues, hdegree, hworker⟩
  have hfree := not_obstructed_of_linked htimely hlinked
  have hmarks := hmarked hfree
  obtain ⟨hnodup, hall, henqueued, hcounted, hprocessed⟩ := htallied hreset
  rw [hempty, List.append_nil] at hnodup hall henqueued hcounted
  have hmembers := hd.listing.members_eq
  refine ⟨w, c', visited, hmark, htrace, hvisits, ?_⟩
  constructor
  case traits => exact hd.traits
  case target => exact hd.target_eq
  case resting => exact hempty
  case attains =>
    have hsame : (fun o => c'.world.heap.marks o = true) =
        Traced c.processor c.world.heap (· ∈ roots) := funext fun o => propext (hmarks o)
    rw [hsame]
    exact attains_traced htimely
  case least => exact fun S hS o ho => hS.of_traced htimely ((hmarks o).mp ho)
  case list =>
    intro k q hq
    obtain ⟨l, hlist, hl⟩ := hd.listing.list_ok (k := k) hq
    rw [hmembers]
    exact ⟨l, hlist, hl.chain_eq, hl.length⟩
  case distinct =>
    intro k q
    rw [hmembers]
    exact (hd.listing.spread k).nodup q
  case listed =>
    intro o k t ho hk ht hunreached
    simp only [hmembers]
    exact hd.listed_once hjudged (hfree o) ho hk ht hunreached
  case wanted =>
    intro k q o ho
    rw [hmembers] at ho
    exact hd.wanted_member htimely ho
  case once => exact hnodup
  case all => exact fun o => (hall o).symm
  case enqueued => exact henqueued
  case processed => exact hprocessed
  case counted => exact hcounted

/-! ### A run -/

/-- The root has edges to a weak reference, a soft one, and a final one that was processed
before and is still chained in front of a weak one. -/
def mixedHeap : Heap where
  slots := (((((((Table.empty.push
    { Slot.fresh none .young none with edges := [.low 1, .low 2, .low 3] }).push
    (.fresh (some .weak) .young (some (.low 4)))).push
    (.fresh (some .soft) .young (some (.low 5)))).push
    { Slot.fresh (some .final) .young (some (.low 6)) with
      discovered := .of (some (.low 7)), next := .of (some (.low 3)) }).push
    (.fresh none .young none)).push
    (.fresh none .young none)).push
    (.fresh none .young none)).push
    (.fresh (some .weak) .young none)
  pending := .of (some (.low 3))

/-- References are being discovered in two queues, and soft references are kept. -/
def mixedCycle : Cycle Marker where
  world := ⟨mixedHeap, {}⟩
  processor := { pairStart.state.processor with enabled := true, policy := .never }
  times := .create 1
  sink := {}

theorem mixed_sane : mixedCycle.world.heap.Sane :=
  .of_slots (by decide) (by decide) (by decide)

/-- Only the final reference has both a target and a link. -/
theorem mixed_linked (o : Handle) (hk : mixedCycle.world.heap.kindOf o ≠ none) :
    mixedCycle.world.heap.target o ≠ none → mixedCycle.world.heap.following o ≠ none →
    mixedCycle.world.heap.kindOf o = some .final ∧ mixedCycle.world.heap.nextLink o ≠ none := by
  obtain ⟨k, hk⟩ := Option.ne_none_iff_exists'.mp hk
  have hall : ∀ o ∈ mixedHeap.objects, mixedHeap.target o ≠ none →
      mixedHeap.following o ≠ none →
      mixedHeap.kindOf o = some .final ∧ mixedHeap.nextLink o ≠ none := by decide
  exact hall o (Heap.mem_objects.mpr (Heap.holds_of_kindOf hk))

/-- The weak reference is listed, and the targets of the other two are marked. -/
theorem marks_least_of_mixed : mixedCycle.world.heap.Sane ∧
    Listing mixedCycle.processor mixedCycle.world.heap Roster.none ∧
    (∀ o, mixedCycle.world.heap.marks o = false) ∧
    ∃ w c visited, markAll [.low 0, .low 1] mixedCycle.world = .ok () w ∧
      trace none { mixedCycle with world := w } = .ok () c ∧
      Visits none { mixedCycle with world := w } visited c ∧
      Explored mixedCycle.processor mixedHeap [.low 0, .low 1] visited c ∧
      c.members .weak 0 = [.low 1] ∧ visited.length = 6 ∧
      mixedHeap.objects.filter c.world.heap.marks = [0, 1, 2, 3, 5, 6].map .low := by
  have hlists : Listing mixedCycle.processor mixedCycle.world.heap Roster.none := .of_empty rfl
  have hunmarked : ∀ o, mixedCycle.world.heap.marks o = false := fun o =>
    Heap.forall_marks (P := (· = false)) rfl (by decide)
  have hworker : mixedCycle.processor.multiDiscovery = true →
      (none : Option Nat).getD 0 < mixedCycle.processor.queues := by decide
  obtain ⟨w, c, visited, hmark, htrace, hvisits, hexplored⟩ := marks_least mixed_sane hlists
    (by decide) (by decide) (by decide) hworker (by decide) rfl hunmarked mixed_linked
    [.low 0, .low 1] (by decide)
  obtain ⟨_, v, hmark', hrun⟩ := exists_of_run (x := markAll [.low 0, .low 1])
    (s := mixedCycle.world)
    (P := fun _ v => match trace none { mixedCycle with world := v } with
      | .ok _ d => d.members .weak 0 = [.low 1] ∧ d.world.collector.queue.enqueued = 6 ∧
          mixedHeap.objects.filter d.world.heap.marks = [0, 1, 2, 3, 5, 6].map .low
      | .error _ _ => false) (by decide +kernel)
  rw [hmark] at hmark'
  cases hmark'
  rw [htrace] at hrun
  obtain ⟨hmembers, hcount, hmarks⟩ := of_decide_eq_true hrun
  exact ⟨mixed_sane, hlists, hunmarked, w, c, visited, hmark, htrace, hvisits, hexplored, hmembers,
    hexplored.enqueued.symm.trans hcount, hmarks⟩

end Marker

end Referents
