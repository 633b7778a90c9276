import Referents.Proofs.Discovery
import Referents.Proofs.Frames
import Referents.Proofs.Hooks
import Referents.Proofs.Marking
import Referents.Proofs.Settling

/-!
# What tracing leaves behind

Tracing follows edges, and offers every reference that it meets whose target is
not marked yet.  Whatever comes of the offer, the reference is no danger
afterwards: it is on a list, so that the next cycle resolves it, or its target
is marked like the target of an edge.

Which references are offered depends on the order in which objects are met, but
what is marked does not: it is what edges lead to, and the targets of references
that would be declined.

* `Marker.Judged` — every marked reference that does not wait any more is on a
  list, or has a target that is null or marked.
* `Marker.Traced`, `Marker.Faithful` — what may be marked, and that nothing else is.
* `Marker.Exploring` — the lists while references are being discovered.
* `Marker.Offering`, `Marker.offer_ok` — what comes of an offer.
* `Marker.Visits`, `Marker.visits_ok` — one object after the other is visited.
* `Marker.exploreRoots_ok` — roots are marked and traced.
* `Marker.Discovering` — the same beside a pending chain of processed references.
* `Marker.traceRoots_ok` — discovery is enabled, roots are marked and traced.
-/

namespace Referents

/-- The target of a reference is neither null nor marked. -/
def Heap.Strands (h : Heap) (marks : Handle → Bool) (o : Handle) : Prop :=
  ∃ t, h.target o = some t ∧ marks t = false

instance (h : Heap) (marks : Handle → Bool) (o : Handle) : Decidable (h.Strands marks o) :=
  decidable_of_iff ((h.target o).any (fun t => !marks t) = true) (by
    cases ht : h.target o <;> simp [Heap.Strands, ht])

/-- A reference is not stranded if its target is null or marked. -/
theorem Heap.not_strands_iff {h : Heap} {marks : Handle → Bool} {o : Handle} :
    ¬ h.Strands marks o ↔ h.target o = none ∨ ∃ t, h.target o = some t ∧ marks t = true := by
  cases ht : h.target o with
  | none => simp [Heap.Strands, ht]
  | some t => simp [Heap.Strands, ht]

/-- Whether a reference is stranded depends on its target and the marks. -/
theorem Heap.strands_congr {h g : Heap} {marks : Handle → Bool} {o : Handle}
    (ht : g.target o = h.target o) : g.Strands marks o ↔ h.Strands marks o := by
  rw [Heap.Strands, Heap.Strands, ht]

namespace Marker

variable {p₀ : Processor} {h₀ : Heap} {r r' : Roster} {ps : List Handle}
variable {c : Cycle Marker} {worker : Option Nat} {o : Handle} {k : RefKind}
variable {w w' : World Marker} {new waiting : List Handle} {E : Handle → Prop}

/-- Every marked reference that does not wait is on a list, or not stranded, unless
it is in `E`. -/
def Judged (E : Handle → Prop) (r : Roster) (h : Heap) (waiting : List Handle) : Prop :=
  ∀ o, ¬ E o → h.marks o = true → o ∉ waiting → h.kindOf o ≠ none →
    ¬ h.Strands h.marks o ∨ ∃ k, r.lists k o

/-- Fewer references need to be judged if more are excepted. -/
theorem Judged.mono {E' : Handle → Prop} {h : Heap} (hj : Judged E r h waiting)
    (hE : ∀ o, E o → E' o) : Judged E' r h waiting :=
  fun o ho => hj o fun hm => ho (hE o hm)

/-- One object less waits, because it has been judged. -/
theorem Judged.settle (hj : Judged E r w.heap (o :: waiting))
    (ho : ¬ E o → w.heap.kindOf o ≠ none → ¬ w.heap.Strands w.heap.marks o ∨ ∃ k, r.lists k o) :
    Judged E r w.heap waiting := by
  intro x hE hx hwait hk
  by_cases hxo : x = o
  · rw [hxo] at hE hk ⊢
    exact ho hE hk
  · exact hj x hE hx (by rw [List.mem_cons, not_or]; exact ⟨hxo, hwait⟩) hk

/-- Objects that are newly marked wait. -/
theorem Judged.grows (hj : Judged E r w.heap waiting) (hg : Grows w new w') :
    Judged E r w'.heap (waiting ++ new) := by
  intro x hE hx hwait hk
  rw [List.mem_append, not_or] at hwait
  rw [Heap.kindOf_congr hg.traits] at hk
  refine (hj x hE (((hg.marks x).mp hx).resolve_right hwait.2) hwait.1 hk).imp (fun hsafe => ?_) id
  intro hstrands
  obtain ⟨t, ht, hm⟩ := hstrands
  rw [Heap.target, hg.link] at ht
  refine hsafe ⟨t, ht, ?_⟩
  by_contra hmarked
  rw [(hg.marks t).mpr (.inl (by simpa using hmarked))] at hm
  cases hm

/-- More references on lists, and other links. -/
theorem Judged.relink {h g : Heap} (hj : Judged E r h waiting) (hg : h.SameObjects g)
    (htarget : ∀ x, g.target x = h.target x) (hlists : ∀ k x, r.lists k x → r'.lists k x) :
    Judged E r' g waiting := by
  intro x hE hx hwait hk
  rw [hg.marks] at hx ⊢
  rw [Heap.kindOf_congr hg.traits] at hk
  rw [Heap.strands_congr (htarget x)]
  exact (hj x hE hx hwait hk).imp id fun ⟨k, hl⟩ => ⟨k, hlists k x hl⟩

/-- What tracing from the objects in `S` arrives at: edges are followed, and the targets
of references that are declined. -/
inductive Traced (p : Processor) (h : Heap) (S : Handle → Prop) : Handle → Prop
  | root {o : Handle} : S o → Traced p h S o
  | edge {o q : Handle} : Traced p h S o → q ∈ h.edgesOf o → Traced p h S q
  | target {o t : Handle} {k : RefKind} : Traced p h S o → h.kindOf o = some k →
      p.declines h o k = .ok true → h.target o = some t → Traced p h S t

/-- Only what is traced from `S` is marked, and whoever waits does so once and is on no
list yet. -/
structure Faithful (p₀ : Processor) (h₀ : Heap) (S : Handle → Prop) (r : Roster) (h : Heap)
    (waiting : List Handle) : Prop where
  roots : ∀ o, S o → h.marks o = true
  traced : ∀ o, h.marks o = true → Traced p₀ h₀ S o
  nodup : waiting.Nodup
  unlisted : ∀ o ∈ waiting, ∀ k, ¬ r.lists k o

namespace Faithful

variable {S : Handle → Prop} {h g : Heap} {q : Nat}

/-- One object less waits. -/
theorem tail (hf : Faithful p₀ h₀ S r h (o :: waiting)) : Faithful p₀ h₀ S r h waiting :=
  ⟨hf.roots, hf.traced, hf.nodup.of_cons,
    fun x hx => hf.unlisted x (List.mem_cons_of_mem o hx)⟩

/-- More objects are marked that tracing arrives at. -/
theorem grows (hf : Faithful p₀ h₀ S r w.heap waiting) (hg : Grows w new w')
    (hwaiting : ∀ o ∈ waiting, w.heap.marks o = true)
    (hlisted : ∀ k o, r.lists k o → w.heap.marks o = true)
    (hnew : ∀ o ∈ new, Traced p₀ h₀ S o) : Faithful p₀ h₀ S r w'.heap (waiting ++ new) where
  roots o ho := (hg.marks o).mpr (.inl (hf.roots o ho))
  traced o ho := ((hg.marks o).mp ho).elim (hf.traced o) (hnew o)
  nodup := by
    refine List.nodup_append.mpr ⟨hf.nodup, hg.nodup, fun o ho p hp hop => ?_⟩
    have hfresh := hg.fresh p hp
    rw [← hop, hwaiting o ho] at hfresh
    cases hfresh
  unlisted o ho k hl := by
    rcases List.mem_append.mp ho with ho | ho
    · exact hf.unlisted o ho k hl
    · have hfresh := hg.fresh o ho
      rw [hlisted k o hl] at hfresh
      cases hfresh

/-- The next object is put on a list. -/
theorem push (hf : Faithful p₀ h₀ S r h (o :: waiting)) (hg : h.SameObjects g) :
    Faithful p₀ h₀ S (r.set k q (o :: r k q)) g waiting where
  roots x hx := by rw [hg.marks]; exact hf.roots x hx
  traced x hx := hf.traced x (by rwa [hg.marks] at hx)
  nodup := hf.nodup.of_cons
  unlisted x hx k' hl := by
    rcases Roster.lists_push.mp hl with ⟨-, rfl⟩ | hl
    · exact (List.nodup_cons.mp hf.nodup).1 hx
    · exact hf.unlisted x (List.mem_cons_of_mem o hx) k' hl

/-- If everything marked was judged and edges lead nowhere else, all that tracing
arrives at is marked. -/
theorem marks_iff (hf : Faithful p₀ h₀ S r h waiting) (htraits : h.traits = h₀.traits)
    (htarget : ∀ o, h.target o = h₀.target o)
    (hkinds : ∀ k o, r.lists k o → h₀.kindOf o = some k)
    (hwanted : ∀ k o, r.lists k o → p₀.declines h₀ o k = .ok false)
    (hclosed : h.Closed fun o => h.marks o = true) (hj : Judged (fun _ => False) r h []) :
    h.marks o = true ↔ Traced p₀ h₀ S o := by
  refine ⟨hf.traced o, fun ho => ?_⟩
  induction ho with
  | root ho => exact hf.roots _ ho
  | edge _ hq ih => exact hclosed _ ih _ (by rwa [Heap.edgesOf_congr htraits])
  | @target o t k _ hk hdeclined ht ih =>
      have hkind : h.kindOf o ≠ none := by
        rw [Heap.kindOf_congr htraits, hk]
        simp
      rcases hj o id ih (by simp) hkind with hsafe | ⟨k', hl⟩
      · rw [Heap.not_strands_iff, htarget, ht] at hsafe
        simpa using hsafe
      · -- a listed reference was not declined
        have hwant := hwanted k' o hl
        rw [hkinds k' o hl, Option.some.injEq] at hk
        rw [hk, hdeclined] at hwant
        cases hwant

end Faithful

/-- What offering references of the heap `h₀` to the processor `p₀` relies on. -/
structure Explorable (p₀ : Processor) (h₀ : Heap) (worker : Option Nat) : Prop where
  targets : h₀.TargetsHeld
  timely : p₀.Timely h₀
  queues : 0 < p₀.queues
  degree : p₀.degree ≤ p₀.queues
  worker : p₀.multiDiscovery = true → worker.getD 0 < p₀.queues

/-- While references of the heap `h₀` are discovered, only lists, links of listed
references and marks change.  Whoever is listed is marked, was linked to nothing, was not
to be declined, and can be resolved. -/
structure Exploring (p₀ : Processor) (h₀ : Heap) (r : Roster) (c : Cycle Marker) : Prop where
  listing : Listing c.processor c.world.heap r
  size : c.world.heap.size = h₀.size
  traits : c.world.heap.traits = h₀.traits
  pending : c.world.heap.pendingHead = h₀.pendingHead
  link : ∀ a, (a.field = .discovered → ¬ ∃ k, r.lists k a.obj) →
    c.world.heap.link a = h₀.link a
  setup : c.processor.setup = p₀.setup
  degree : c.processor.degree = p₀.degree
  turn : c.processor.turn < max p₀.degree 1
  free : ∀ k o, r.lists k o → h₀.following o = none
  wanted : ∀ k o, r.lists k o → p₀.declines h₀ o k = .ok false
  fresh : ∀ o, r.lists .final o → h₀.nextLink o = none
  pointing : ∀ k o, r.lists k o → h₀.target o ≠ none
  marked : ∀ k o, r.lists k o → c.world.heap.marks o = true

namespace Exploring

/-- Links other than those of lists do not change. -/
theorem stable (hd : Exploring p₀ h₀ r c) (a : LinkAddr) (ha : a.field ≠ .discovered) :
    c.world.heap.link a = h₀.link a := hd.link a fun e => absurd e ha

/-- Targets do not change. -/
theorem target_eq (hd : Exploring p₀ h₀ r c) (o : Handle) :
    c.world.heap.target o = h₀.target o := hd.stable ⟨o, .referent⟩ (by simp)

/-- Whether a reference was processed does not change. -/
theorem nextLink_eq (hd : Exploring p₀ h₀ r c) (o : Handle) :
    c.world.heap.nextLink o = h₀.nextLink o := hd.stable ⟨o, .next⟩ (by simp)

/-- The objects of the table do not change. -/
theorem holds_eq (hd : Exploring p₀ h₀ r c) (o : Handle) :
    c.world.heap.holds o = h₀.holds o := by rw [Heap.holds, Heap.holds, hd.size]

/-- The target of a reference is in the table. -/
theorem holds_target {t : Handle} (hd : Exploring p₀ h₀ r c) (ht : Explorable p₀ h₀ worker)
    (hto : c.world.heap.target o = some t) : c.world.heap.holds t = true := by
  rw [hd.holds_eq]
  exact ht.targets o t ((hd.target_eq o).symm.trans hto)

/-- Who is not listed links to what it linked to. -/
theorem following_eq (hd : Exploring p₀ h₀ r c) (ho : ∀ k, ¬ r.lists k o) :
    c.world.heap.following o = h₀.following o := hd.link ⟨o, .discovered⟩ fun _ ⟨k, hl⟩ => ho k hl

/-- Listed references are of the kind of their list. -/
theorem kinds (hd : Exploring p₀ h₀ r c) (ho : r.lists k o) : h₀.kindOf o = some k := by
  obtain ⟨q, hq⟩ := ho
  rw [← Heap.kindOf_congr hd.traits]
  exact hd.listing.kinds k q o hq

/-- Before anything is discovered. -/
theorem start (hl : Listing c.processor c.world.heap Roster.none)
    (hturn : c.processor.turn < max c.processor.degree 1) :
    Exploring c.processor c.world.heap Roster.none c where
  listing := hl
  size := rfl
  traits := rfl
  pending := rfl
  link _ _ := rfl
  setup := rfl
  degree := rfl
  turn := hturn
  free _ _ := fun ⟨_, ho⟩ => nomatch ho
  wanted _ _ := fun ⟨_, ho⟩ => nomatch ho
  fresh _ := fun ⟨_, ho⟩ => nomatch ho
  pointing _ _ := fun ⟨_, ho⟩ => nomatch ho
  marked _ _ := fun ⟨_, ho⟩ => nomatch ho

/-- Only the processor and the heap matter. -/
theorem of_eq {c' : Cycle Marker} (hd : Exploring p₀ h₀ r c)
    (hp : c'.processor = c.processor) (hh : c'.world.heap = c.world.heap) :
    Exploring p₀ h₀ r c' where
  listing := by rw [hp, hh]; exact hd.listing
  size := by rw [hh]; exact hd.size
  traits := by rw [hh]; exact hd.traits
  pending := by rw [hh]; exact hd.pending
  link := by rw [hh]; exact hd.link
  setup := by rw [hp]; exact hd.setup
  degree := by rw [hp]; exact hd.degree
  turn := by rw [hp]; exact hd.turn
  free := hd.free
  wanted := hd.wanted
  fresh := hd.fresh
  pointing := hd.pointing
  marked := by rw [hh]; exact hd.marked

/-- The marker marks objects. -/
theorem grows (hd : Exploring p₀ h₀ r c) (hg : Grows c.world new w) :
    Exploring p₀ h₀ r { c with world := w } where
  listing := hd.listing.of_following (fun _ => hg.keeps.holds) hg.keeps.kind
    fun o => hg.keeps.following o id
  size := hg.size.trans hd.size
  traits := hg.traits.trans hd.traits
  pending := hg.pending.trans hd.pending
  link a ha := by rw [hg.link]; exact hd.link a ha
  setup := hd.setup
  degree := hd.degree
  turn := hd.turn
  free := hd.free
  wanted := hd.wanted
  fresh := hd.fresh
  pointing := hd.pointing
  marked k o ho := (hg.marks o).mpr (.inl (hd.marked k o ho))

/-- Listed references can be resolved, whether or not targets may be null. -/
theorem ready (hd : Exploring p₀ h₀ r c) (htargets : h₀.TargetsHeld) (nullReferent : Bool) :
    Ready nullReferent c.world.heap r where
  target k o _ t hto := by
    rw [hd.target_eq] at hto
    rw [hd.holds_eq]
    exact htargets o t hto
  null k o ho hto := by
    rw [hd.target_eq] at hto
    exact absurd hto (hd.pointing k o ho)
  fresh o ho := (hd.nextLink_eq o).trans (hd.fresh o ho)

/-- Whether a reference is declined does not change. -/
theorem declines_eq (hd : Exploring p₀ h₀ r c) (ho : h₀.holds o = true) (k : RefKind) :
    c.processor.declines c.world.heap o k = p₀.declines h₀ o k :=
  Processor.declines_eq (Processor.judgesLike_of_setup hd.setup)
    (Heap.survey_of_traits hd.traits hd.target_eq hd.nextLink_eq) ho k

/-- A reference can be offered. -/
theorem discover_ok (ht : Explorable p₀ h₀ worker) (hd : Exploring p₀ h₀ r c)
    (hk : h₀.kindOf o = some k) :
    ∃ offer, c.processor.discover c.world.heap c.sink worker o (some k) = .ok offer ∧
      c.processor.Offered c.world.heap r worker o k offer := by
  have hqueues : c.processor.queues = p₀.queues := Processor.queues_eq_of_setup hd.setup
  have hmulti : c.processor.multiDiscovery = p₀.multiDiscovery :=
    show c.processor.setup.multiDiscovery = p₀.setup.multiDiscovery by rw [hd.setup]
  have hsnapshot : c.processor.snapshot = p₀.snapshot :=
    show c.processor.setup.snapshot = p₀.setup.snapshot by rw [hd.setup]
  apply Processor.discover_ok hd.listing
  case hp =>
    intro x tr htr
    rw [hsnapshot]
    rw [hd.traits] at htr
    exact ht.timely x tr htr
  case hk => rw [Heap.kindOf_congr hd.traits, hk]
  case hqueues => rw [hqueues]; exact ht.queues
  case hdegree => rw [hd.degree, hqueues]; exact ht.degree
  case hturn => rw [hd.degree]; exact hd.turn
  case hworker => rw [hmulti, hqueues]; exact ht.worker

/-- A marked reference with a target is put on a list. -/
theorem push {p : Processor} {g : Heap} {q : Nat} {sink : Sink} (hd : Exploring p₀ h₀ r c)
    (hlisting : Listing p g (r.set k q (o :: r k q)))
    (hrelinks : c.world.heap.Relinks (· = o) g) (hsetup : p.setup = c.processor.setup)
    (hdegree : p.degree = c.processor.degree) (hturn : p.turn < max c.processor.degree 1)
    (hfree : c.world.heap.following o = none) (hwanted : p₀.declines h₀ o k = .ok false)
    (hactive : k = .final → c.world.heap.nextLink o = none)
    (hto : c.world.heap.target o ≠ none) (hmarked : c.world.heap.marks o = true) :
    Exploring p₀ h₀ (r.set k q (o :: r k q))
      { c with processor := p, sink, world := { c.world with heap := g } } where
  listing := hlisting
  size := hrelinks.objects.size.trans hd.size
  traits := hrelinks.objects.traits.trans hd.traits
  pending := hrelinks.pending.trans hd.pending
  link a ha := by
    have hnot : a.field = .discovered → ¬ ∃ k, r.lists k a.obj := fun hf ⟨k', hl⟩ =>
      ha hf ⟨k', Roster.lists_push.mpr (.inr hl)⟩
    refine (hrelinks.link a fun hf hao => ha hf ⟨k, ?_⟩).trans (hd.link a hnot)
    exact Roster.lists_push.mpr (.inl ⟨rfl, hao⟩)
  setup := hsetup.trans hd.setup
  degree := hdegree.trans hd.degree
  turn := by rw [← hd.degree]; exact hturn
  free k' x hx := by
    rcases Roster.lists_push.mp hx with ⟨-, rfl⟩ | hx
    · rw [← hd.following_eq fun k' => hd.listing.not_listed hfree]
      exact hfree
    · exact hd.free k' x hx
  wanted k' x hx := by
    rcases Roster.lists_push.mp hx with ⟨rfl, rfl⟩ | hx
    · exact hwanted
    · exact hd.wanted k' x hx
  fresh x hx := by
    rcases Roster.lists_push.mp hx with ⟨hfinal, rfl⟩ | hx
    · rw [← hd.nextLink_eq]
      exact hactive hfinal.symm
    · exact hd.fresh x hx
  pointing k' x hx := by
    rcases Roster.lists_push.mp hx with ⟨-, rfl⟩ | hx
    · rw [← hd.target_eq]
      exact hto
    · exact hd.pointing k' x hx
  marked k' x hx := by
    show g.marks x = true
    rw [hrelinks.objects.marks]
    rcases Roster.lists_push.mp hx with ⟨-, rfl⟩ | hx
    · exact hmarked
    · exact hd.marked k' x hx

end Exploring

/-- The reference would be put on a list if its link were null: it is on some chain, so
that it counts as discovered. -/
def Obstructed (p₀ : Processor) (h₀ : Heap) (o : Handle) : Prop :=
  h₀.following o ≠ none ∧ h₀.target o ≠ none ∧
    ∃ k, h₀.kindOf o = some k ∧ p₀.declines h₀ o k = .ok false

/-- What comes of offering the reference `o` of kind `k`. -/
inductive Offering (p₀ : Processor) (h₀ : Heap) (o : Handle) (k : RefKind) (r : Roster)
    (c : Cycle Marker) : Roster → Cycle Marker → Prop
  /-- Nothing: it is not stranded, or on a list or chain already. -/
  | kept {c' : Cycle Marker}
      (why : ¬ c.world.heap.Strands c.world.heap.marks o ∨ (∃ k', r.lists k' o) ∨
        Obstructed p₀ h₀ o)
      (world : c'.world = c.world) : Offering p₀ h₀ o k r c r c'
  /-- It was put on a list. -/
  | listed {c' : Cycle Marker} {g : Heap} (q : Nat)
      (relinks : c.world.heap.Relinks (· = o) g) (world : c'.world = { c.world with heap := g }) :
      Offering p₀ h₀ o k r c (r.set k q (o :: r k q)) c'
  /-- It was declined, or is on a list or chain already, and its target was marked. -/
  | followed {c' : Cycle Marker} {t : Handle} {new : List Handle}
      (why : p₀.declines h₀ o k = .ok true ∨ (∃ k', r.lists k' o) ∨ Obstructed p₀ h₀ o)
      (target : c.world.heap.target o = some t) (grows : Grows c.world new c'.world)
      (marked : c'.world.heap.marks t = true) (only : ∀ p ∈ new, p = t) :
      Offering p₀ h₀ o k r c r c'

namespace Offering

variable {c' : Cycle Marker} {S : Handle → Prop}

/-- What was followed before an offer is followed after it. -/
theorem following (hoff : Offering p₀ h₀ o k r c r' c') (hf : Following E o c.world) :
    Following E o c'.world := by
  cases hoff with
  | kept why world => rwa [world]
  | listed q relinks world =>
      rw [world]
      exact hf.relink relinks.objects
  | followed why target grows marked only => exact hf.grows grows

/-- The counts of the marker follow what an offer marks. -/
theorem tallied {seen : List Handle} (hoff : Offering p₀ h₀ o k r c r' c')
    (ht : Tallied seen c.world) : Tallied seen c'.world := by
  cases hoff with
  | kept why world => rwa [world]
  | listed q relinks world =>
      rw [world]
      exact ht.relink relinks.objects
  | followed why target grows marked only => exact ht.grows grows

/-- The reference is judged by its target, or it is on a list afterwards, unless it is
obstructed. -/
theorem judged (hoff : Offering p₀ h₀ o k r c r' c')
    (hj : Judged (Obstructed p₀ h₀) r c.world.heap (o :: c.world.collector.queue.items)) :
    Judged (Obstructed p₀ h₀) r' c'.world.heap c'.world.collector.queue.items := by
  cases hoff with
  | kept why world =>
      rw [world]
      exact hj.settle fun hfree _ => why.imp_right fun hl => hl.resolve_right hfree
  | @listed _ g q relinks world =>
      have hj' : Judged (Obstructed p₀ h₀) (r.set k q (o :: r k q)) g
          (o :: c.world.collector.queue.items) :=
        hj.relink relinks.objects relinks.target_eq fun k' x hx => Roster.lists_push.mpr (.inr hx)
      rw [world]
      exact Judged.settle (w := { c.world with heap := g }) hj' fun _ _ =>
        .inr ⟨k, Roster.lists_push.mpr (.inl ⟨rfl, rfl⟩)⟩
  | @followed _ t new why target grows marked only =>
      rw [grows.queue]
      refine (hj.grows grows).settle fun _ _ => .inl (Heap.not_strands_iff.mpr
        (.inr ⟨t, ?_, marked⟩))
      rw [Heap.target, grows.link]
      exact target

/-- The target of a reference is marked only if the reference is declined. -/
theorem faithful (hoff : Offering p₀ h₀ o k r c r' c') (hfree : ¬ Obstructed p₀ h₀ o)
    (hd : Exploring p₀ h₀ r c) (hf : Following E o c.world) (hk : h₀.kindOf o = some k)
    (hfaithful : Faithful p₀ h₀ S r c.world.heap (o :: c.world.collector.queue.items)) :
    Faithful p₀ h₀ S r' c'.world.heap c'.world.collector.queue.items := by
  cases hoff with
  | kept why world =>
      rw [world]
      exact hfaithful.tail
  | listed q relinks world =>
      rw [world]
      exact hfaithful.push relinks.objects
  | @followed _ t new why target grows marked only =>
      have hdeclined := why.resolve_right fun hl => (hl.resolve_right hfree).elim fun k' hl =>
        hfaithful.unlisted o List.mem_cons_self k' hl
      rw [grows.queue]
      apply hfaithful.tail.grows grows hf.marked hd.marked
      intro p hp
      rw [only p hp]
      exact .target (hfaithful.traced o hf.taken) hk hdeclined ((hd.target_eq o).symm.trans target)

end Offering

/-- A reference to an object that is not marked yet is listed, or this object is marked. -/
theorem discoverOrFollow_ok {t : Handle} (ht : Explorable p₀ h₀ worker)
    (hd : Exploring p₀ h₀ r c) (hmarked : c.world.heap.marks o = true)
    (hk : h₀.kindOf o = some k) (hto : c.world.heap.target o = some t) :
    ∃ c' r', (do
        if ← Step.discover worker o (some k) then pure ()
        else Step.onWorld (discard (markAndPush t)) : Step Marker Unit) c = .ok () c' ∧
      Exploring p₀ h₀ r' c' ∧ effort c'.world ≤ effort c.world ∧
      Offering p₀ h₀ o k r c r' c' := by
  have hheld : h₀.holds o = true := Heap.holds_of_kindOf hk
  have hpoints : c.world.heap.target o ≠ none := by
    rw [hto]
    simp
  obtain ⟨off, hdiscover, hoffered⟩ := hd.discover_ok ht hk
  have hoff := Step.discover_ok hdiscover
  -- where the reference is declined, its target is marked
  have hrefused : off.accepted = false → off.processor = c.processor →
      off.heap = c.world.heap →
      (p₀.declines h₀ o k = .ok true ∨ (∃ k', r.lists k' o) ∨ Obstructed p₀ h₀ o) →
      ∃ c' r', (do
          if ← Step.discover worker o (some k) then pure ()
          else Step.onWorld (discard (markAndPush t)) : Step Marker Unit) c = .ok () c' ∧
        Exploring p₀ h₀ r' c' ∧ effort c'.world ≤ effort c.world ∧
        Offering p₀ h₀ o k r c r' c' := by
    intro hno hp hh why
    rw [hno, hp, hh] at hoff
    obtain ⟨w', new, hmark, hgrows, heffort, hmarkedT, hnew⟩ := markAndPush_ok (hd.holds_target ht hto)
    have hrun := Step.onWorld_ok (c := { c with sink := off.sink })
      (map_ok (fun _ => ()) hmark)
    exact ⟨{ c with sink := off.sink, world := w' }, r, (bind_ok hoff).trans hrun,
      (hd.grows hgrows).of_eq rfl rfl, heffort, .followed why hto hgrows hmarkedT hnew⟩
  cases hoffered with
  | declined refused processor heap why =>
      rw [hd.declines_eq hheld] at why
      exact hrefused refused processor heap (.inl why)
  | known answer linked active processor heap wanted =>
      rw [hd.declines_eq hheld] at wanted
      have hplaced : (∃ k', r.lists k' o) ∨ Obstructed p₀ h₀ o := by
        by_cases hl : ∃ k', r.lists k' o
        · exact .inl hl
        · rw [hd.following_eq (not_exists.mp hl)] at linked
          rw [hd.target_eq] at hpoints
          exact .inr ⟨linked, hpoints, k, hk, wanted⟩
      cases haccepted : off.accepted with
      | false => exact hrefused haccepted processor heap (.inr hplaced)
      | true =>
          rw [haccepted, processor, heap] at hoff
          exact ⟨{ c with sink := off.sink }, r, (bind_ok hoff).trans rfl, hd.of_eq rfl rfl,
            Nat.le_refl _, .kept (.inr hplaced) rfl⟩
  | listed q queue taken active free listing relinks setup degree turned turn wanted =>
      rw [taken] at hoff
      rw [hd.declines_eq hheld] at wanted
      refine ⟨_, _, (bind_ok hoff).trans rfl,
        hd.push listing relinks setup degree turn free wanted active hpoints hmarked, ?_,
        .listed q relinks rfl⟩
      simp only [effort, Heap.unmarked_congr relinks.objects]
      exact Nat.le_refl _

/-- Offering a reference returns. -/
theorem offer_ok (ht : Explorable p₀ h₀ worker) (hd : Exploring p₀ h₀ r c)
    (hmarked : c.world.heap.marks o = true) (hk : h₀.kindOf o = some k) :
    ∃ c' r', offer worker o k c = .ok () c' ∧ Exploring p₀ h₀ r' c' ∧
      effort c'.world ≤ effort c.world ∧ Offering p₀ h₀ o k r c r' c' := by
  have hheld : c.world.heap.holds o = true := Heap.holds_of_marks hmarked
  have hreferent : (Step.onWorld (Act.read fun h => h.referent o) : Step Marker _) c =
      .ok (c.world.heap.target o) c := Step.onWorld_ok (Act.read_ok (Heap.referent_ok hheld))
  unfold offer
  cases hto : c.world.heap.target o with
  | none =>
      rw [hto] at hreferent
      exact ⟨c, r, (bind_ok hreferent).trans rfl, hd, Nat.le_refl _,
        .kept (.inl (Heap.not_strands_iff.mpr (.inl hto))) rfl⟩
  | some t =>
      rw [hto] at hreferent
      have hisMarked : (Step.onWorld (isMarked t) : Step Marker Bool) c =
          .ok (c.world.heap.marks t) c :=
        Step.onWorld_ok (Act.read_ok (Heap.isMarked_ok (hd.holds_target ht hto)))
      cases hm : c.world.heap.marks t with
      | true =>
          rw [hm] at hisMarked
          exact ⟨c, r, (bind_ok hreferent).trans ((bind_ok hisMarked).trans rfl), hd, Nat.le_refl _,
            .kept (.inl (Heap.not_strands_iff.mpr (.inr ⟨t, hto, hm⟩))) rfl⟩
      | false =>
          rw [hm] at hisMarked
          obtain ⟨c', r', hrun, hrest⟩ := discoverOrFollow_ok ht hd hmarked hk hto
          exact ⟨c', r', (bind_ok hreferent).trans ((bind_ok hisMarked).trans hrun), hrest⟩

/-! ### A whole trace -/

/-- One object is visited: it is offered, if it is a reference, and its edges are followed. -/
def visit (worker : Option Nat) (o : Handle) : Step Marker Unit := do
  let kind ← Step.onWorld (Act.read fun h => h.kind o)
  if let some k := kind then offer worker o k
  Step.onWorld (followEdges o)

/-- Waiting objects are taken out of the queue and visited one after the other, until
none waits. -/
inductive Visits (worker : Option Nat) : Cycle Marker → List Handle → Cycle Marker → Prop
  | done {c c' : Cycle Marker} (empty : (Step.onWorld next : Step Marker _) c = .ok none c') :
      Visits worker c [] c'
  | more {c v d c' : Cycle Marker} {o : Handle} {os : List Handle}
      (taken : (Step.onWorld next : Step Marker _) c = .ok (some o) v)
      (visited : visit worker o v = .ok () d) (rest : Visits worker d os c') :
      Visits worker c (o :: os) c'

/-- A trace takes an object, visits it and goes on. -/
theorem traceFrom_succ {v d : Cycle Marker} {fuel : Nat}
    (htaken : (Step.onWorld next : Step Marker _) c = .ok (some o) v)
    (hvisited : visit worker o v = .ok () d) :
    traceFrom worker (fuel + 1) c = traceFrom worker fuel d := by
  have hvisit : traceFrom worker (fuel + 1) c = (do visit worker o; traceFrom worker fuel) v := by
    refine (bind_ok htaken).trans ?_
    simp only [visit, bind_assoc]
    refine congrFun (congrArg (_ >>= ·) (funext fun kind => ?_)) v
    cases kind with
    | none => rfl
    | some k => simp only [bind_assoc]
  exact hvisit.trans (bind_ok hvisited)

/-- A trace with enough fuel visits one object after the other. -/
theorem Visits.traceFrom_eq {c' : Cycle Marker} {os : List Handle} (hv : Visits worker c os c')
    {fuel : Nat} (hfuel : os.length < fuel) : traceFrom worker fuel c = .ok () c' := by
  induction hv generalizing fuel with
  | done empty =>
      obtain ⟨n, rfl⟩ := Nat.exists_eq_add_of_lt hfuel
      exact (bind_ok empty).trans rfl
  | more taken visited rest ih =>
      obtain ⟨n, rfl⟩ : ∃ n, fuel = n + 1 := ⟨fuel - 1, by omega⟩
      exact (traceFrom_succ taken visited).trans (ih (by simpa using hfuel))

/-- What visiting the objects `os` keeps: the objects are tallied, references that are not
obstructed are judged, and, if none is, only what is traced is marked. -/
structure Carries (p₀ : Processor) (h₀ : Heap) (r : Roster) (w : World Marker)
    (os : List Handle) (r' : Roster) (w' : World Marker) : Prop where
  tallied : ∀ seen, Tallied seen w → Tallied (seen ++ os) w'
  judged : Judged (Obstructed p₀ h₀) r w.heap w.collector.queue.items →
    Judged (Obstructed p₀ h₀) r' w'.heap w'.collector.queue.items
  faithful : (∀ o, ¬ Obstructed p₀ h₀ o) →
    ∀ S, Faithful p₀ h₀ S r w.heap w.collector.queue.items →
    Faithful p₀ h₀ S r' w'.heap w'.collector.queue.items

theorem Carries.refl (w : World Marker) : Carries p₀ h₀ r w [] r w :=
  ⟨fun seen ht => by rwa [List.append_nil], id, fun _ _ hf => hf⟩

/-- What visits keep they keep one after the other. -/
theorem Carries.trans {r'' : Roster} {w'' : World Marker} {os os' : List Handle}
    (hc : Carries p₀ h₀ r w os r' w') (hc' : Carries p₀ h₀ r' w' os' r'' w'') :
    Carries p₀ h₀ r w (os ++ os') r'' w'' where
  tallied seen ht := by
    rw [← List.append_assoc]
    exact hc'.tallied _ (hc.tallied seen ht)
  judged hj := hc'.judged (hc.judged hj)
  faithful hfree S hf := hc'.faithful hfree S (hc.faithful hfree S hf)

/-- The next object can be taken and visited. -/
theorem visit_ok {rest : List Handle} (ht : Explorable p₀ h₀ worker)
    (hd : Exploring p₀ h₀ r c) (hw : MarkingOff E c.world)
    (hitems : c.world.collector.queue.items = o :: rest) :
    ∃ v d r', (Step.onWorld next : Step Marker _) c = .ok (some o) v ∧
      visit worker o v = .ok () d ∧ Exploring p₀ h₀ r' d ∧ MarkingOff E d.world ∧
      effort d.world < effort c.world ∧ Carries p₀ h₀ r c.world [o] r' d.world := by
  obtain ⟨v, hnext, htakes⟩ := next_of_cons hitems
  obtain ⟨hf, hless⟩ := hw.taken htakes
  have hd₁ : Exploring p₀ h₀ r { c with world := v } := hd.of_eq rfl htakes.heap
  have hkind : (Step.onWorld (Act.read fun h => h.kind o) : Step Marker Kind)
      { c with world := v } = .ok (v.heap.kindOf o) { c with world := v } :=
    Step.onWorld_ok (Act.read_ok (Heap.kind_ok (Heap.holds_of_marks hf.taken)))
  -- after the offer, if there is one, the object does not count as waiting any more
  obtain ⟨c₂, r₂, hoffer, hd₂, hf₂, heffort₂, htallied, hjudged, hfaithful⟩ : ∃ c₂ r₂,
      visit worker o { c with world := v } = (Step.onWorld (followEdges o) : Step Marker Unit) c₂ ∧
      Exploring p₀ h₀ r₂ c₂ ∧ Following E o c₂.world ∧ effort c₂.world ≤ effort v ∧
      (∀ seen, Tallied seen v → Tallied seen c₂.world) ∧
      (Judged (Obstructed p₀ h₀) r v.heap (o :: v.collector.queue.items) →
        Judged (Obstructed p₀ h₀) r₂ c₂.world.heap c₂.world.collector.queue.items) ∧
      ∀ S, ¬ Obstructed p₀ h₀ o → Faithful p₀ h₀ S r v.heap (o :: v.collector.queue.items) →
        Faithful p₀ h₀ S r₂ c₂.world.heap c₂.world.collector.queue.items := by
    cases hk : v.heap.kindOf o with
    | none =>
        rw [hk] at hkind
        exact ⟨{ c with world := v }, r, bind_ok hkind, hd₁, hf, Nat.le_refl _, fun _ => id,
          fun hj => hj.settle fun _ hne => absurd hk hne, fun S _ hfaithful => hfaithful.tail⟩
    | some k =>
        rw [hk] at hkind
        rw [Heap.kindOf_congr hd₁.traits] at hk
        obtain ⟨c₂, r₂, hrun, hd₂, heffort, hoff⟩ := offer_ok ht hd₁ hf.taken hk
        exact ⟨c₂, r₂, (bind_ok hkind).trans (bind_ok hrun), hd₂, hoff.following hf, heffort,
          fun _ => hoff.tallied, hoff.judged,
          fun S hfree hfaithful => hoff.faithful hfree hd₁ hf hk hfaithful⟩
  obtain ⟨w₃, new, hfollow, hgrows, heffort₃, hnew, hw₃⟩ := followEdges_ok hf₂
  refine ⟨{ c with world := v }, { c₂ with world := w₃ }, r₂, Step.onWorld_ok hnext,
    hoffer.trans (Step.onWorld_ok hfollow), hd₂.grows hgrows, hw₃, ?_, fun seen htally => ?_,
    fun hj => ?_, fun hfree S hfaith => ?_⟩
  · show effort w₃ < effort c.world
    omega
  · exact (htallied _ (htally.takes htakes)).grows hgrows
  · rw [htakes.before, ← htakes.heap, ← htakes.queue] at hj
    show Judged (Obstructed p₀ h₀) r₂ w₃.heap w₃.collector.queue.items
    rw [hgrows.queue]
    exact (hjudged hj).grows hgrows
  · rw [htakes.before, ← htakes.heap, ← htakes.queue] at hfaith
    have hfaith₂ := hfaithful S (hfree o) hfaith
    show Faithful p₀ h₀ S r₂ w₃.heap w₃.collector.queue.items
    rw [hgrows.queue]
    apply hfaith₂.grows hgrows hf₂.marked hd₂.marked
    intro p hp
    refine .edge (hfaith₂.traced o hf₂.taken) ?_
    rw [← Heap.edgesOf_congr hd₂.traits]
    exact hnew p hp

/-- Waiting objects are visited until none waits; each visit takes one object out of the
queue, and an object enters it only once. -/
theorem visits_ok {n : Nat} (ht : Explorable p₀ h₀ worker) (hd : Exploring p₀ h₀ r c)
    (hw : MarkingOff E c.world) (hn : effort c.world ≤ n) :
    ∃ os c' r', Visits worker c os c' ∧ os.length ≤ n ∧ Exploring p₀ h₀ r' c' ∧
      MarkingOff E c'.world ∧ c'.world.collector.queue.items = [] ∧
      Carries p₀ h₀ r c.world os r' c'.world := by
  induction n generalizing c r with
  | zero =>
      have hitems : c.world.collector.queue.items = [] := by
        rw [effort] at hn
        exact List.length_eq_zero_iff.mp (by omega)
      exact ⟨[], c, r, .done (Step.onWorld_ok (next_of_empty hitems)), Nat.le_refl _, hd, hw,
        hitems, .refl _⟩
  | succ n ih =>
      cases hitems : c.world.collector.queue.items with
      | nil =>
          exact ⟨[], c, r, .done (Step.onWorld_ok (next_of_empty hitems)), Nat.zero_le _, hd, hw,
            hitems, .refl _⟩
      | cons o rest =>
          obtain ⟨v, d, r₁, hnext, hvisit, hd₁, hw₁, hless, hcarries⟩ := visit_ok ht hd hw hitems
          obtain ⟨os, c', r', hvisits, hlength, hd', hw', hempty, hcarries'⟩ :=
            ih hd₁ hw₁ (by omega)
          exact ⟨o :: os, c', r', .more hnext hvisit hvisits, Nat.succ_le_succ hlength, hd', hw',
            hempty, hcarries.trans hcarries'⟩

/-- A trace returns, with an empty queue. -/
theorem explore_ok (ht : Explorable p₀ h₀ worker) (hd : Exploring p₀ h₀ r c)
    (hw : MarkingOff E c.world) :
    ∃ os c' r', trace worker c = .ok () c' ∧ Visits worker c os c' ∧ Exploring p₀ h₀ r' c' ∧
      MarkingOff E c'.world ∧ c'.world.collector.queue.items = [] ∧
      Carries p₀ h₀ r c.world os r' c'.world := by
  obtain ⟨os, c', r', hvisits, hlength, hdone⟩ := visits_ok ht hd hw (Nat.le_refl _)
  have hfuel := effort_lt_drainBound c.world
  exact ⟨os, c', r', (bind_ok (get_ok c)).trans (hvisits.traceFrom_eq (by omega)), hvisits, hdone⟩

/-- Marking roots and tracing returns, where nothing is marked, listed or waiting before. -/
theorem exploreRoots_ok {roots : List Handle}
    (hl : Listing c.processor c.world.heap Roster.none)
    (hturn : c.processor.turn < max c.processor.degree 1) (hedges : c.world.heap.EdgesHeld)
    (hunmarked : ∀ o, c.world.heap.marks o = false)
    (hresting : c.world.collector.queue.items = [])
    (hroots : ∀ o ∈ roots, c.world.heap.holds o = true)
    (ht : Explorable c.processor c.world.heap worker) :
    ∃ w os c' r, markAll roots c.world = .ok () w ∧ trace worker { c with world := w } = .ok () c' ∧
      Visits worker { c with world := w } os c' ∧ Exploring c.processor c.world.heap r c' ∧
      Marking c'.world ∧ c'.world.collector.queue.items = [] ∧
      (c.world.collector = {} → Tallied os c'.world) ∧
      Judged (Obstructed c.processor c.world.heap) r c'.world.heap [] ∧
      ((∀ o, ¬ Obstructed c.processor c.world.heap o) →
        ∀ o, c'.world.heap.marks o = true ↔ Traced c.processor c.world.heap (· ∈ roots) o) := by
  obtain ⟨w, new, hmark, hgrows, -, hmarked, hnew⟩ := markAll_ok hroots
  have hnone : ∀ o, c.world.heap.marks o ≠ true := by simp [hunmarked]
  have hw : Marking c.world := .of_closed hedges hresting fun o ho => absurd ho (hnone o)
  have hqueue := hgrows.queue
  rw [hresting, List.nil_append] at hqueue
  have hmarks : ∀ o, w.heap.marks o = true → o ∈ roots := fun o ho =>
    hnew o (((hgrows.marks o).mp ho).resolve_left (hnone o))
  -- the marked roots all wait
  have hj : Judged (Obstructed c.processor c.world.heap) Roster.none w.heap
      w.collector.queue.items := by
    intro o _ ho hwait
    rw [hqueue] at hwait
    exact absurd (((hgrows.marks o).mp ho).resolve_left (hnone o)) hwait
  have hf : Faithful c.processor c.world.heap (· ∈ roots) Roster.none w.heap
      w.collector.queue.items := by
    rw [hqueue]
    exact ⟨hmarked, fun o ho => .root (hmarks o ho), hgrows.nodup, fun _ _ _ ⟨_, hl⟩ => nomatch hl⟩
  obtain ⟨os, c', r, htrace, hvisits, hd', hw', hempty, hcarries⟩ :=
    explore_ok ht ((Exploring.start hl hturn).grows hgrows) (hw.grows hgrows)
  have hj' := hcarries.judged hj
  rw [hempty] at hj'
  refine ⟨w, os, c', r, hmark, htrace, hvisits, hd', hw', hempty, fun hreset => ?_, hj',
    fun hfree o => ?_⟩
  · exact hcarries.tallied [] ((Tallied.start hreset hunmarked).grows hgrows)
  · exact (hcarries.faithful hfree _ hf).marks_iff hd'.traits hd'.target_eq (fun _ _ => hd'.kinds)
      hd'.wanted (Marking.closed hw' hempty) (hj'.mono hfree)

/-! ### Beside a pending chain -/

/-- What a trace of the heap `h₀` with the processor `p₀` relies on.  References
that are pending are not offered, or declined as processed before. -/
structure Traceable (p₀ : Processor) (h₀ : Heap) (ps : List Handle) (worker : Option Nat) :
    Prop where
  targets : h₀.TargetsHeld
  inert : ∀ o ∈ ps, h₀.target o = none ∨ h₀.kindOf o = some .final ∧ h₀.nextLink o ≠ none
  timely : p₀.Timely h₀
  degree : p₀.degree ≤ p₀.queues
  worker : p₀.multiDiscovery = true → worker.getD 0 < p₀.queues

/-- References are being discovered, and the pending ones stay what they were. -/
structure Discovering (p₀ : Processor) (h₀ : Heap) (ps : List Handle) (r : Roster)
    (c : Cycle Marker) : Prop extends Exploring p₀ h₀ r c where
  registered : Registered c.processor c.world.heap r ps
  covers : r.Covers c.world.heap ps
  inTurn : c.processor.turn < p₀.degree

/-- Where no pending reference was put on a list, the pending chain is what it was. -/
theorem Exploring.discovering (hd : Exploring p₀ h₀ r c) (hpos : 0 < p₀.degree)
    (hps : h₀.Pends ps) (hcovers : Roster.none.Covers h₀ ps)
    (hunlisted : ∀ k, ∀ o ∈ ps, ¬ r.lists k o) : Discovering p₀ h₀ ps r c where
  toExploring := hd
  inTurn := by
    have hturn := hd.turn
    rwa [Nat.max_eq_left hpos] at hturn
  registered := by
    refine .of_listing hd.listing (hps.congr hd.pending (fun o ho => ?_) fun o _ => ?_) hunlisted
    · exact hd.following_eq fun k => hunlisted k o ho
    · rw [hd.holds_eq]
      exact id
  covers o ho := by
    by_cases hl : ∃ k, r.lists k o
    · exact .inl hl
    · rw [hd.following_eq (not_exists.mp hl)] at ho
      exact .inr ((hcovers o ho).resolve_left fun ⟨_, _, ho⟩ => nomatch ho)

namespace Traceable

/-- Traceable references can be explored, if any queue takes part. -/
theorem explorable (ht : Traceable p₀ h₀ ps worker) (hpos : 0 < p₀.degree) :
    Explorable p₀ h₀ worker :=
  ⟨ht.targets, ht.timely, Nat.lt_of_lt_of_le hpos ht.degree, ht.degree, ht.worker⟩

/-- A pending reference with a target is declined. -/
theorem declines (ht : Traceable p₀ h₀ ps worker) (ho : o ∈ ps) (hto : h₀.target o ≠ none)
    (hk : h₀.kindOf o = some k) : p₀.declines h₀ o k = .ok true := by
  rcases ht.inert o ho with hnone | ⟨hfinal, hnext⟩
  · exact absurd hnone hto
  · rw [hfinal, Option.some.injEq] at hk
    exact (Processor.declines_iff ht.timely (Heap.holds_of_target_ne_none hto)).mpr
      (.inactive hk.symm hnext)

/-- Every reference that is linked to something is pending, so that none is obstructed. -/
theorem not_obstructed (ht : Traceable p₀ h₀ ps worker) (hcovers : Roster.none.Covers h₀ ps)
    (o : Handle) : ¬ Obstructed p₀ h₀ o := by
  intro hobstructed
  obtain ⟨hlinked, hto, k, hk, hwanted⟩ := hobstructed
  have hps := (hcovers o hlinked).resolve_left fun ⟨_, _, ho⟩ => nomatch ho
  rw [ht.declines hps hto hk] at hwanted
  cases hwanted

/-- No pending reference was put on a list. -/
theorem discovering (ht : Traceable p₀ h₀ ps worker) (hpos : 0 < p₀.degree) (hps : h₀.Pends ps)
    (hcovers : Roster.none.Covers h₀ ps) (hd : Exploring p₀ h₀ r c) :
    Discovering p₀ h₀ ps r c := by
  refine hd.discovering hpos hps hcovers fun k o ho hl => ?_
  have hwanted := hd.wanted k o hl
  rw [ht.declines ho (hd.pointing k o hl) (hd.kinds hl)] at hwanted
  cases hwanted

end Traceable

/-- Listed references can be resolved, whether or not targets may be null. -/
theorem Discovering.ready (ht : Traceable p₀ h₀ ps worker) (hd : Discovering p₀ h₀ ps r c)
    (nullReferent : Bool) : Ready nullReferent c.world.heap r :=
  hd.toExploring.ready ht.targets nullReferent

/-- A trace with nothing listed before returns. -/
theorem trace_ok (hr : Registered c.processor c.world.heap Roster.none ps)
    (hcovers : Roster.none.Covers c.world.heap ps)
    (hturn : c.processor.turn < c.processor.degree) (hw : MarkingOff E c.world)
    (ht : Traceable c.processor c.world.heap ps worker) :
    ∃ c' r', trace worker c = .ok () c' ∧ Discovering c.processor c.world.heap ps r' c' ∧
      MarkingOff E c'.world ∧ c'.world.collector.queue.items = [] := by
  have hpos : 0 < c.processor.degree := Nat.zero_lt_of_lt hturn
  obtain ⟨-, c', r', htrace, -, hd, hw', hempty, -⟩ :=
    explore_ok (ht.explorable hpos) (.start hr.listing (lt_max_of_lt_left hturn)) hw
  exact ⟨c', r', htrace, ht.discovering hpos hr.pending hcovers hd, hw', hempty⟩

/-- Discovery is enabled, and everything is traced that the roots lead to. -/
def traceRoots (roots : List Handle) (worker : Option Nat) : Step Marker Unit := do
  Step.updateProcessor Processor.enable
  Step.onWorld (markAll roots)
  trace worker

/-- Offering a reference leaves the times. -/
theorem leaves_offer {P : PhaseTimes → Prop} (worker : Option Nat) (o : Handle) (k : RefKind) :
    Leaves Cycle.times P (offer worker o k) := by
  refine (Step.leaves_onWorld _ fun _ _ => rfl).bind fun target => ?_
  cases target with
  | none => exact leaves_pure ()
  | some t =>
      refine (Step.leaves_onWorld _ fun _ _ => rfl).bind fun marked => ?_
      split
      · exact leaves_pure ()
      · refine (Step.leaves_times_discover worker o (some k)).bind fun taken => ?_
        split
        · exact leaves_pure ()
        · exact Step.leaves_onWorld _ fun _ _ => rfl

/-- A trace leaves the times, also if it fails. -/
theorem leaves_traceFrom {P : PhaseTimes → Prop} (worker : Option Nat) (fuel : Nat) :
    Leaves Cycle.times P (traceFrom worker fuel) := by
  induction fuel with
  | zero => exact fun _ _ => rfl
  | succ fuel ih =>
      refine (Step.leaves_onWorld _ fun _ _ => rfl).bind fun waiting => ?_
      cases waiting with
      | none => exact leaves_pure ()
      | some o =>
          refine (Step.leaves_onWorld _ fun _ _ => rfl).bind fun kind => ?_
          have hrest : Leaves Cycle.times P (do
              Step.onWorld (followEdges o)
              traceFrom worker fuel : Step Marker Unit) :=
            (Step.leaves_onWorld _ fun _ _ => rfl).bind fun _ => ih
          cases kind with
          | none => exact hrest
          | some k => exact (leaves_offer worker o k).bind fun _ => hrest

/-- A trace takes no times. -/
theorem leaves_traceRoots {P : PhaseTimes → Prop} (roots : List Handle) (worker : Option Nat) :
    Leaves Cycle.times P (traceRoots roots worker) :=
  (Step.leaves_times_updateProcessor _).bind fun _ =>
    (Step.leaves_onWorld _ fun _ _ => rfl).bind fun _ =>
      leaves_get.bind fun _ => leaves_traceFrom worker _

/-- Tracing from roots returns, if nothing is marked and nothing listed before. -/
theorem traceRoots_ok {roots : List Handle}
    (hr : Registered c.processor c.world.heap Roster.none ps)
    (hcovers : Roster.none.Covers c.world.heap ps) (hoff : c.processor.enabled = false)
    (hturn : c.processor.turn < c.processor.degree)
    (hedges : c.world.heap.EdgesHeld) (hunmarked : ∀ o, c.world.heap.marks o = false)
    (hresting : c.world.collector.queue.items = [])
    (hroots : ∀ o ∈ roots, c.world.heap.holds o = true)
    (ht : Traceable c.processor.discovering c.world.heap ps worker) :
    ∃ c' r, traceRoots roots worker c = .ok () c' ∧
      Discovering c.processor.discovering c.world.heap ps r c' ∧ Marking c'.world ∧
      c'.world.collector.queue.items = [] ∧ Judged (fun _ => False) r c'.world.heap [] ∧
      ∀ o, c'.world.heap.marks o = true ↔
        Traced c.processor.discovering c.world.heap (· ∈ roots) o := by
  have henable : (Step.updateProcessor Processor.enable : Step Marker Unit) c =
      .ok () { c with processor := c.processor.discovering } :=
    Step.updateProcessor_ok (Processor.enable_ok hr hoff)
  have hpos : 0 < c.processor.discovering.degree := Nat.zero_lt_of_lt hturn
  obtain ⟨w, -, c', r, hmark, htrace, -, hd, hw, hempty, -, hj, hmarks⟩ :=
    exploreRoots_ok (c := { c with processor := c.processor.discovering })
      (hr.listing.of_lists rfl rfl) (lt_max_of_lt_left hturn) hedges hunmarked hresting hroots
      (ht.explorable hpos)
  have hmarkRoots : (Step.onWorld (markAll roots) : Step Marker Unit)
      { c with processor := c.processor.discovering } =
      .ok () { c with processor := c.processor.discovering, world := w } :=
    Step.onWorld_ok hmark
  have hfree : ∀ o, ¬ Obstructed c.processor.discovering c.world.heap o :=
    ht.not_obstructed hcovers
  exact ⟨c', r, (bind_ok henable).trans ((bind_ok hmarkRoots).trans htrace),
    ht.discovering hpos hr.pending hcovers hd, hw, hempty, hj.mono hfree, hmarks hfree⟩

end Marker

end Referents
