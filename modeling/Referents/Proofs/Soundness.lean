import Referents.Proofs.Heap.Growth
import Referents.Proofs.MarkingCollector
import Referents.Proofs.Preclean
import Referents.Proofs.Processing
import Referents.Proofs.Unlinking

/-!
# What all operations keep

A cycle is **sound** if its lists and its pending chain have a roster that
accounts for every link, and the rest of its state is such that no operation
fails: targets, edges and stamps are in order, listed final references were not
processed before, and there is a degree and a turn for every choice of a queue.

Each operation is shown to return from a sound state, and to leave one.

* `Sound` — the invariant.
* `Sound.of_heap`, `Sound.of_processor` — what a mutator and a new setting leave
  as it was.
* `Tended`, `Relisted` — a sound cycle after an operation that leaves marks and the
  collector, or everything but the lists.
* `Sound.discover_ok`, `Sound.balanceAll_ok`, `Sound.abandon_ok`,
  `Sound.takePending_ok` — operations that move references.
* `Hooks.Unobtrusive` — a collector that writes no links of its own, such as the marker.
* `Worked`, `Sound.preclean_ok`, `Sound.process_ok` — what the operations amount
  to that ask such a collector.
-/

namespace Referents

variable {γ : Type} {c c' : Cycle γ} {r : Roster} {ps : List Handle}
variable {hooks : Hooks γ} {J : World γ → Prop}

/-- A clock reading that is not negative. -/
def IsStamp (i : Int) : Prop := 0 ≤ i ∧ i < 2 ^ 63

instance (i : Int) : Decidable (IsStamp i) := inferInstanceAs (Decidable (_ ∧ _))

/-- The lists and the pending chain of a cycle are in order. -/
structure Sound (c : Cycle γ) (r : Roster) (ps : List Handle) : Prop where
  registered : Registered c.processor c.world.heap r ps
  covers : r.Covers c.world.heap ps
  sane : c.world.heap.Sane
  fresh : ∀ o, r.lists .final o → c.world.heap.nextLink o = none
  positive : 1 ≤ c.processor.degree
  degree : c.processor.degree ≤ c.processor.queues
  turn : c.processor.turn < c.processor.degree
  clock : IsStamp c.processor.clock.millis
  snapshot : IsStamp c.processor.snapshot

/-- The cycle `c'` is sound, and neither the collector nor what objects are, their marks,
or which of them were processed has changed since `c`. -/
structure Tended (c c' : Cycle γ) (r' : Roster) (ps' : List Handle) : Prop
    extends Sound c' r' ps' where
  endures : c.world.heap.Endures c'.world.heap
  collector : c'.world.collector = c.world.collector

/-- The cycle `c'` is sound, and since `c` only the lists have changed. -/
structure Relisted (c c' : Cycle γ) (r' : Roster) (ps' : List Handle) : Prop
    extends Sound c' r' ps' where
  relinks : c.world.heap.Relinks (fun _ => True) c'.world.heap
  setup : c'.processor.setup = c.processor.setup
  collector : c'.world.collector = c.world.collector

/-- A cycle whose lists were changed is a sound one. -/
theorem Relisted.tended {r' : Roster} {ps' : List Handle} (hs : Relisted c c' r' ps') :
    Tended c c' r' ps' := ⟨hs.toSound, hs.relinks.endures, hs.collector⟩

namespace Processor

variable {p p' : Processor}

/-- The clock is part of the setup. -/
theorem clock_eq_of_setup (h : p'.setup = p.setup) : p'.clock = p.clock :=
  show p'.setup.clock = p.setup.clock by rw [h]

/-- The snapshot is part of the setup. -/
theorem snapshot_eq_of_setup (h : p'.setup = p.setup) : p'.snapshot = p.snapshot :=
  show p'.setup.snapshot = p.setup.snapshot by rw [h]

end Processor

/-- The time between two readings from zero on is a reading. -/
theorem Heap.Orderly.timely {h : Heap} (hh : h.Orderly) {p : Processor}
    (hsnapshot : IsStamp p.snapshot) : p.Timely h := by
  intro o t ht
  have hstamp := hh.stamps o t ht
  simp only [isClockReading, Bool.and_eq_true, decide_eq_true_eq]
  unfold IsStamp at hsnapshot
  omega

/-- A clock that is advanced never shows less. -/
theorem SoftClock.isStamp_advanceTo {clock : SoftClock} (hclock : IsStamp clock.millis) {now : Int}
    (hnow : now < 2 ^ 63) : IsStamp (clock.advanceTo now).2.millis := by
  obtain ⟨hpos, hlt⟩ := hclock
  unfold advanceTo
  split
  · exact ⟨hpos, hlt⟩
  · exact ⟨by show 0 ≤ max clock.millis now; omega, by show max clock.millis now < 2 ^ 63; omega⟩

namespace Sound

/-- Idle times can be taken. -/
theorem timely (hs : Sound c r ps) : c.processor.Timely c.world.heap :=
  hs.sane.timely hs.snapshot

/-- There is a queue. -/
theorem queues_pos (hs : Sound c r ps) : 0 < c.processor.queues :=
  Nat.lt_of_lt_of_le hs.positive hs.degree

/-! ### Mutators and settings -/

/-- Whoever touches neither links of lists nor marks of processed references
leaves all lists and chains. -/
theorem of_heap (hs : Sound c r ps) {w : World γ}
    (hheld : ∀ o, c.world.heap.holds o = true → w.heap.holds o = true)
    (hkind : ∀ o, c.world.heap.holds o = true → w.heap.kindOf o = c.world.heap.kindOf o)
    (hfollowing : ∀ o, w.heap.following o = c.world.heap.following o)
    (hnext : ∀ o, c.world.heap.holds o = true → w.heap.nextLink o = c.world.heap.nextLink o)
    (hpending : w.heap.pendingHead = c.world.heap.pendingHead) (hsane : w.heap.Sane) :
    Sound { c with world := w } r ps where
  registered := hs.registered.of_following hheld hkind hfollowing hpending
  covers o ho := hs.covers o (by rw [hfollowing] at ho; exact ho)
  sane := hsane
  fresh o ho := (hnext o (hs.registered.lists_held ho)).trans (hs.fresh o ho)
  positive := hs.positive
  degree := hs.degree
  turn := hs.turn
  clock := hs.clock
  snapshot := hs.snapshot

/-- A change of the heap that touches no link keeps a cycle sound. -/
theorem of_keeps (hs : Sound c r ps) {w : World γ} (hw : c.world.heap.Keeps w.heap)
    (hsane : w.heap.Sane) : Sound { c with world := w } r ps :=
  hs.of_heap (fun _ => hw.holds) hw.kind (fun o => hw.following o id) (fun _ ho => hw.link_eq ho)
    hw.pending hsane

/-- A reference gets another target. -/
theorem retarget (hs : Sound c r ps) (o : Handle) {v : Option Handle}
    (hv : c.world.heap.holdsOption v = true) :
    Sound { c with world := { c.world with heap := c.world.heap.write ⟨o, .referent⟩ v } } r ps :=
  hs.of_heap (fun _ ho => by rw [Heap.holds_write]; exact ho) (fun _ _ => by rw [Heap.kindOf_write])
    (fun _ => Heap.link_write_of_field_ne (by simp))
    (fun _ _ => Heap.link_write_of_field_ne (by simp)) Heap.pendingHead_write (hs.sane.retarget hv)

/-- A new object is on no list. -/
theorem push_fresh (hs : Sound c r ps) {kind : Kind} {gen : Generation}
    {referent : Option Handle} {o : Handle} {g : Heap}
    (hg : Heap.Grown (.fresh kind gen referent) o c.world.heap g)
    (ht : c.world.heap.holdsOption referent = true) :
    c.world.heap.Keeps g ∧ g.Sane := by
  refine ⟨hg.keeps Link.target_null fun x hx => ?_, hs.sane.grown hg ht⟩
  have hreferent : referent = some x := (Link.target_of referent).symm.trans hx
  rw [hreferent] at ht
  exact ht

/-- Other settings of the processor do not matter. -/
theorem of_processor (hs : Sound c r ps) {p : Processor}
    (hlists : p.lists = c.processor.lists) (hconfig : p.config = c.processor.config)
    (hpos : 1 ≤ p.degree) (hdegree : p.degree ≤ c.processor.queues) (hturn : p.turn < p.degree)
    (hclock : IsStamp p.clock.millis) (hsnapshot : IsStamp p.snapshot) :
    Sound { c with processor := p } r ps where
  registered := hs.registered.of_lists hlists hconfig
  covers := hs.covers
  sane := hs.sane
  fresh := hs.fresh
  positive := hpos
  degree := by
    show p.degree ≤ p.queues
    rwa [Processor.queues, hconfig]
  turn := hturn
  clock := hclock
  snapshot := hsnapshot

/-- A setting that is neither a list, nor a degree or turn, nor a clock. -/
theorem of_setting (hs : Sound c r ps) {p : Processor} (hlists : p.lists = c.processor.lists)
    (hconfig : p.config = c.processor.config) (hdegree : p.degree = c.processor.degree)
    (hturn : p.turn = c.processor.turn) (hclock : IsStamp p.clock.millis)
    (hsnapshot : p.snapshot = c.processor.snapshot) : Sound { c with processor := p } r ps := by
  refine hs.of_processor hlists hconfig ?_ ?_ ?_ hclock ?_
  · rw [hdegree]
    exact hs.positive
  · rw [hdegree]
    exact hs.degree
  · rw [hdegree, hturn]
    exact hs.turn
  · rw [hsnapshot]
    exact hs.snapshot

/-- With nothing listed, discovery can be enabled. -/
theorem enable_ok (hs : Sound c Roster.none ps) (hoff : c.processor.enabled = false) :
    (Step.updateProcessor Processor.enable : Step γ Unit) c =
        .ok () { c with processor := c.processor.discovering } ∧
      Sound { c with processor := c.processor.discovering } Roster.none ps :=
  ⟨Step.updateProcessor_ok (Processor.enable_ok hs.registered hoff),
    hs.of_processor rfl rfl hs.positive hs.degree hs.turn hs.clock hs.clock⟩

/-- The sink and the times do not matter at all. -/
theorem congr (hs : Sound c r ps) (hworld : c'.world = c.world)
    (hprocessor : c'.processor = c.processor) : Sound c' r ps := by
  obtain ⟨world, processor, times, sink⟩ := c'
  cases hworld
  cases hprocessor
  exact ⟨hs.registered, hs.covers, hs.sane, hs.fresh, hs.positive, hs.degree, hs.turn, hs.clock,
    hs.snapshot⟩

/-- Nothing happened. -/
theorem relisted (hs : Sound c r ps) (hworld : c'.world = c.world)
    (hprocessor : c'.processor = c.processor) : Relisted c c' r ps :=
  ⟨hs.congr hworld hprocessor, by rw [hworld]; exact .refl _ _, by rw [hprocessor], by rw [hworld]⟩

/-- A change of the heap that keeps links and marks. -/
theorem keeping (hs : Sound c r ps) {g : Heap} (hkeeps : c.world.heap.Keeps g)
    (hmarks : ∀ o, c.world.heap.holds o = true → g.marks o = c.world.heap.marks o)
    (hsane : g.Sane) : Tended c { c with world := { c.world with heap := g } } r ps :=
  ⟨hs.of_keeps hkeeps hsane, hkeeps.endures hmarks, rfl⟩

/-! ### Moving references -/

/-- Only links of lists and chains changed, and nothing of the processor but
lists and turn. -/
theorem of_moved (hs : Sound c r ps) {r' : Roster} {ps' : List Handle}
    (hregistered : Registered c'.processor c'.world.heap r' ps')
    (hcovers : r'.Covers c'.world.heap ps')
    (htraits : c'.world.heap.traits = c.world.heap.traits)
    (hlink : ∀ a, a.field ≠ .discovered → c'.world.heap.link a = c.world.heap.link a)
    (hfresh : ∀ o, r'.lists .final o → c.world.heap.nextLink o = none)
    (hsetup : c'.processor.setup = c.processor.setup)
    (hdegree : c'.processor.degree = c.processor.degree)
    (hturn : c'.processor.turn < c.processor.degree) : Sound c' r' ps' where
  registered := hregistered
  covers := hcovers
  sane := by
    refine hs.sane.congr htraits fun o t ht => ?_
    rw [Heap.holds_congr htraits]
    exact hs.sane.targets o t ((hlink ⟨o, .referent⟩ (by simp)).symm.trans ht)
  fresh o ho := (hlink ⟨o, .next⟩ (by simp)).trans (hfresh o ho)
  positive := by rw [hdegree]; exact hs.positive
  degree := by
    rw [hdegree, Processor.queues_eq_of_setup hsetup]
    exact hs.degree
  turn := by rw [hdegree]; exact hturn
  clock := by rw [Processor.clock_eq_of_setup hsetup]; exact hs.clock
  snapshot := by rw [Processor.snapshot_eq_of_setup hsetup]; exact hs.snapshot

/-- A reference that is not pending is put on a list. -/
theorem push (hs : Sound c r ps) {p : Processor} {g : Heap} {sink : Sink} {o : Handle}
    {k : RefKind} {q : Nat} (hl : Listing p g (r.set k q (o :: r k q)))
    (hg : c.world.heap.Relinks (· = o) g) (hsetup : p.setup = c.processor.setup)
    (hdegree : p.degree = c.processor.degree) (hturn : p.turn < max c.processor.degree 1)
    (hactive : k = .final → c.world.heap.nextLink o = none) (hps : o ∉ ps) :
    Sound { c with processor := p, sink, world := { c.world with heap := g } }
      (r.set k q (o :: r k q)) ps := by
  refine hs.of_moved (hs.registered.push hl hg hps) (hs.covers.push hg) hg.objects.traits
    (fun a ha => hg.link a fun e => absurd e ha) (fun x hx => ?_) hsetup hdegree ?_
  · rcases Roster.lists_push.mp hx with ⟨hfinal, rfl⟩ | hx
    · exact hactive hfinal.symm
    · exact hs.fresh x hx
  · rwa [Nat.max_eq_left hs.positive] at hturn

/-- Offering a reference has one of the outcomes that there are. -/
theorem offered (hs : Sound c r ps) {o : Handle} {k : RefKind} {worker : Option Nat}
    (hk : c.world.heap.kindOf o = some k)
    (hworker : c.processor.multiDiscovery = true → worker.getD 0 < c.processor.queues) :
    ∃ offer, c.processor.discover c.world.heap c.sink worker o (some k) = .ok offer ∧
      c.processor.Offered c.world.heap r worker o k offer :=
  Processor.discover_ok hs.registered.listing hs.timely hk hs.queues_pos hs.degree
    (lt_max_of_lt_left hs.turn) hworker

/-- Offering a reference returns.  One that is pending must have been processed before. -/
theorem discover_ok (hs : Sound c r ps) {o : Handle} {k : RefKind} {worker : Option Nat}
    (hk : c.world.heap.kindOf o = some k)
    (hworker : c.processor.multiDiscovery = true → worker.getD 0 < c.processor.queues)
    (hpending : o ∈ ps → k = .final ∧ c.world.heap.nextLink o ≠ none) :
    ∃ offer c' r', c.processor.discover c.world.heap c.sink worker o (some k) = .ok offer ∧
      (Step.discover worker o (some k) : Step γ Bool) c = .ok offer.accepted c' ∧
      Relisted c c' r' ps := by
  obtain ⟨offer, hdiscover, hoffered⟩ := hs.offered hk hworker
  refine ⟨offer, _, Exists.imp (fun r' hr' => ⟨hdiscover, Step.discover_ok hdiscover, hr'⟩) ?_⟩
  cases hoffered with
  | declined refused processor heap => exact ⟨r, hs.relisted (by rw [heap]) processor⟩
  | known answer linked active processor heap => exact ⟨r, hs.relisted (by rw [heap]) processor⟩
  | listed q queue taken active free listing relinks setup degree turned turn =>
      have hps : o ∉ ps := fun ho => (hpending ho).2 (active (hpending ho).1)
      exact ⟨_, hs.push listing relinks setup degree turn active hps,
        relinks.mono fun _ _ => trivial, setup, rfl⟩

/-- Balancing the lists of every kind returns; no reference leaves the lists of its kind. -/
theorem balanceAll_ok (hs : Sound c r ps) :
    ∃ c' r', (Step.withHeap Processor.balanceAll : Step γ Unit) c = .ok () c' ∧
      Relisted c c' r' ps := by
  obtain ⟨p, g, sink, r', hbalance, hregistered, hsame, hrelinks, hsetup, hdegree, hturn⟩ :=
    Processor.balanceAll_ok hs.registered hs.positive hs.degree c.sink
  refine ⟨_, r', Step.withHeap_ok hbalance, hs.of_moved hregistered ?_ hrelinks.objects.traits
    (fun a ha => hrelinks.link a fun e => absurd e ha)
    (fun o ho => hs.fresh o ((hsame .final o).mp ho)) hsetup hdegree
    (by rw [hturn]; exact hs.turn), hrelinks.mono fun _ _ => trivial, hsetup, rfl⟩
  intro o ho
  by_cases hl : ∃ k, r.lists k o
  · exact .inl (hl.imp fun k => (hsame k o).mpr)
  · rw [hrelinks.agreesOff.following o hl] at ho
    exact .inr ((hs.covers o ho).resolve_left hl)

/-- Giving up a discovery returns, and no list has a member any more. -/
theorem abandon_ok (hs : Sound c r ps) :
    ∃ c', (Step.withHeap Processor.abandon : Step γ Unit) c = .ok () c' ∧
      Relisted c c' Roster.none ps := by
  obtain ⟨p, g, sink, habandon, hregistered, hrelinks, hgone, hsetup, hdegree, hturn⟩ :=
    Processor.abandon_ok hs.registered c.sink
  refine ⟨_, Step.withHeap_ok habandon, hs.of_moved hregistered ?_ hrelinks.objects.traits
    (fun a ha => hrelinks.link a fun e => absurd e ha) (fun o ⟨_, ho⟩ => nomatch ho) hsetup
    hdegree (by rw [hturn]; exact hs.turn), hrelinks.mono fun _ _ => trivial, hsetup, rfl⟩
  intro o ho
  have hnot : ¬ ∃ k, r.lists k o := fun ⟨k, hk⟩ => ho (hgone k o hk)
  rw [hrelinks.agreesOff.following o hnot] at ho
  exact .inr ((hs.covers o ho).resolve_left hnot)

/-- When the pending chain is taken apart, nothing is pending any more. -/
theorem takePending (hs : Sound c r ps) : Sound { c with world := { c.world with
    heap := (c.world.heap.withPending none).detachAll ps } } r [] := by
  have hrelinks := Heap.relinks_detachAll (c.world.heap.withPending none) ps
  exact hs.of_moved hs.registered.takePending
    (hs.covers.takePending hs.registered.pending.held) hrelinks.objects.traits
    (fun a ha => hrelinks.link a fun e => absurd e ha) hs.fresh rfl rfl hs.turn

/-- Taking the pending chain returns its members. -/
theorem takePending_ok (hs : Sound c r ps) :
    ∃ c', (Step.onWorld (Act.onHeap Heap.takePending) : Step γ (List Handle)) c = .ok ps c' ∧
      Tended c c' r [] := by
  have htake := Heap.takePending_ok hs.registered.pending
  have hrun : (Act.onHeap Heap.takePending : Act γ (List Handle)) c.world =
      .ok ps { c.world with heap := (c.world.heap.withPending none).detachAll ps } := by
    simp [Act.onHeap, htake]
  have hendures := (Heap.relinks_detachAll (c.world.heap.withPending none) ps).endures
  exact ⟨_, Step.onWorld_ok hrun, hs.takePending,
    ⟨hendures.kind, hendures.next, hendures.marks⟩, rfl⟩

end Sound

/-! ### Collectors -/

/-- A collector that returns whatever it is asked, and writes no link but the one
that it is told to store.  The invariant `J` is its own; it is not about links,
and may rely on a table in order. -/
structure Hooks.Unobtrusive (hooks : Hooks γ) (J : World γ → Prop) : Prop where
  relink : ∀ {w} {h : Heap}, J w → w.heap.Orderly → w.heap.SameObjects h → J { w with heap := h }
  isAlive : ∀ {w} {r : Handle}, J w → w.heap.Orderly → w.heap.holds r = true →
    ∃ answer w', hooks.isAlive r w = .ok answer w' ∧ w.heap.Keeps w'.heap ∧ J w' ∧
      w'.heap.Orderly
  keepAlive : ∀ {w} {o r : Handle}, J w → w.heap.Orderly → w.heap.target o = some r →
    w.heap.holds r = true → ∃ w', hooks.keepAlive ⟨o, .referent⟩ w = .ok () w' ∧
      w.heap.Keeps w'.heap ∧ J w' ∧ w'.heap.Orderly
  enqueue : ∀ {w} {o : Handle} (v : Option Handle), J w → w.heap.Orderly →
    w.heap.holds o = true → ∃ w', hooks.enqueue ⟨o, .discovered⟩ v w = .ok () w' ∧
      (w.heap.write ⟨o, .discovered⟩ v).Keeps w'.heap ∧ J w' ∧ w'.heap.Orderly
  complete : ∀ {w}, J w → w.heap.Orderly → ∃ w', hooks.complete w = .ok () w' ∧
    w.heap.Keeps w'.heap ∧ J w' ∧ w'.heap.Orderly
  prepare : ∀ {w} (queues : Nat) (multi marksAlive : Bool), J w →
    J { w with collector := hooks.prepare queues multi marksAlive w.collector }
  enterUnit : ∀ {w} (queue : Nat) (worker : Option Nat), J w →
    J { w with collector := hooks.enterUnit queue worker w.collector }

namespace Hooks.Unobtrusive

/-- An unobtrusive collector stores links as it should. -/
theorem storing (hh : hooks.Unobtrusive J) : hooks.Storing fun _ w => J w ∧ w.heap.Orderly where
  relink hI hh' := ⟨hh.relink hI.1 hI.2 hh', hI.2.congr hh'.traits⟩
  store v hI ho := hh.enqueue v hI.1 hI.2 ho
  complete hI := hh.complete hI.1 hI.2
  prepare queues multi marksAlive hI := ⟨hh.prepare queues multi marksAlive hI.1, hI.2⟩
  enterUnit queue worker hI := ⟨hh.enterUnit queue worker hI.1, hI.2⟩

/-- An unobtrusive collector answers what is alive. -/
theorem answering (hh : hooks.Unobtrusive J) :
    hooks.Answering fun _ w => J w ∧ w.heap.Orderly where
  relink hI hh' := ⟨hh.relink hI.1 hI.2 hh', hI.2.congr hh'.traits⟩
  isAlive hI hr := hh.isAlive hI.1 hI.2 hr

/-- An unobtrusive collector keeps final referents alive. -/
theorem keepingFinals (hh : hooks.Unobtrusive J) :
    hooks.KeepingFinals fun _ w => J w ∧ w.heap.Orderly where
  toStoring := hh.storing
  keepAlive hI ho hr := hh.keepAlive hI.1 hI.2 ho hr

/-- An unobtrusive collector serves to resolve lists. -/
theorem resolving (hh : hooks.Unobtrusive J) :
    hooks.Resolving fun _ w => J w ∧ w.heap.Orderly where
  toStoring := hh.storing
  isAlive hI hr := hh.isAlive hI.1 hI.2 hr
  keepAlive hI ho hr _ := hh.keepAlive hI.1 hI.2 ho hr

/-- Another state may be kept beside the state of the collector. -/
theorem beside (hh : hooks.Unobtrusive J) (τ : Type) :
    (hooks.beside τ).Unobtrusive fun w => J ⟨w.heap, w.collector.1⟩ where
  relink hJ ho hs := hh.relink hJ ho hs
  isAlive hJ ho hr := by
    obtain ⟨answer, w', hask, hdone⟩ := hh.isAlive hJ ho hr
    exact ⟨answer, _, Act.beside_ok hask, hdone⟩
  keepAlive hJ ho htarget hr := by
    obtain ⟨w', hkeep, hdone⟩ := hh.keepAlive hJ ho htarget hr
    exact ⟨_, Act.beside_ok hkeep, hdone⟩
  enqueue v hJ ho hheld := by
    obtain ⟨w', hstore, hdone⟩ := hh.enqueue v hJ ho hheld
    exact ⟨_, Act.beside_ok hstore, hdone⟩
  complete hJ ho := by
    obtain ⟨w', hcomplete, hdone⟩ := hh.complete hJ ho
    exact ⟨_, Act.beside_ok hcomplete, hdone⟩
  prepare queues multi marksAlive hJ := hh.prepare queues multi marksAlive hJ
  enterUnit queue worker hJ := hh.enterUnit queue worker hJ

end Hooks.Unobtrusive

/-- Answers that come from a state of their own do not touch the collector. -/
theorem YieldCheck.respects_beside {τ : Type} (check : YieldCheck τ) (J : World γ → Prop) :
    (check.beside γ).Respects fun w => J ⟨w.heap, w.collector.1⟩ where
  atList hJ := hJ
  atReference hJ := hJ

/-- The marker is such a collector, and leaves the traits of all objects. -/
theorem Marker.unobtrusive (E : Handle → Prop) (traits : Handle → Option Traits) :
    Marker.hooks.Unobtrusive fun w => MarkingOff E w ∧ w.heap.traits = traits where
  relink hw _ hh := ⟨hw.1.relink hh, hh.traits.trans hw.2⟩
  isAlive hw ho hr := ⟨_, _, isMarked_ok hr, .refl _, hw, ho⟩
  keepAlive hw ho htarget hr := by
    obtain ⟨w', new, hmark, hgrows, -⟩ := markAndPush_ok hr
    exact ⟨w', (keepAlive_eq htarget).trans (map_ok (fun _ => ()) hmark), hgrows.keeps,
      ⟨hw.1.grows hgrows, hgrows.traits.trans hw.2⟩, ho.congr hgrows.traits⟩
  enqueue v hw ho hheld := ⟨_, enqueue_ok v hheld, .refl _,
    ⟨hw.1.relink (Heap.sameObjects_write _ _ _), Heap.traits_write.trans hw.2⟩,
    ho.congr Heap.traits_write⟩
  complete hw ho := by
    obtain ⟨w', hdrain, hkeeps, -, htraits, hw', -⟩ := drain_ok hw.1
    exact ⟨w', hdrain, hkeeps, ⟨hw', htraits.trans hw.2⟩, ho.congr htraits⟩
  prepare _ _ _ hw := hw
  enterUnit _ _ hw := hw

/-- A collector with the invariant `J` has settled references on the way from `c` to
`c'`, and published the references `pub`. -/
structure Worked (J : World γ → Prop) (c c' : Cycle γ) (r r' : Roster) (ps pub : List Handle) :
    Prop where
  sound : Sound c' r' (pub ++ ps)
  settles : ∃ calls, Settles calls r c.world.heap pub r' c'.world.heap
  inv : J c'.world
  config : c'.processor.config = c.processor.config
  degree : c'.processor.degree = c.processor.degree

namespace Sound

/-- References were settled, and the table is in order still. -/
theorem of_settled (hs : Sound c r ps) {calls : List Call} {pub : List Handle} {r' : Roster}
    (horderly : c'.world.heap.Orderly)
    (hsettles : Settles calls r c.world.heap pub r' c'.world.heap)
    (hregistered : Registered c'.processor c'.world.heap r' (pub ++ ps))
    (hconfig : c'.processor.config = c.processor.config)
    (hdegree : c'.processor.degree = c.processor.degree)
    (hturn : c'.processor.turn ≤ c.processor.turn)
    (hclock : IsStamp c'.processor.clock.millis) (hsnapshot : IsStamp c'.processor.snapshot) :
    Sound c' r' (pub ++ ps) where
  registered := hregistered
  covers := hsettles.covers hs.covers
  sane := ⟨horderly, hsettles.agrees.targets hs.sane.targets⟩
  fresh o ho := (hsettles.next .final o ho).trans (hs.fresh o (hsettles.listed .final o ho))
  positive := by rw [hdegree]; exact hs.positive
  degree := by
    rw [hdegree, Processor.queues, hconfig]
    exact hs.degree
  turn := by rw [hdegree]; exact Nat.lt_of_le_of_lt hturn hs.turn
  clock := hclock
  snapshot := hsnapshot

/-- Precleaning returns, whenever it is cut short, and publishes nothing. -/
theorem preclean_ok (hs : Sound c r ps) (hh : hooks.Unobtrusive J) (hJ : J c.world)
    {check : YieldCheck γ} (hcheck : check.Respects J) (readings : Readings) :
    ∃ out c' r', (Step.preclean hooks check readings : Step γ (Bool × Timer)) c = .ok out c' ∧
      Worked J c c' r r' ps [] := by
  obtain ⟨out, c', calls, r', hrun, hclean⟩ := Step.preclean_ok hh.answering
    (fun _ => ⟨fun hI => ⟨hcheck.atList hI.1, hI.2⟩, fun hI => ⟨hcheck.atReference hI.1, hI.2⟩⟩)
    readings hs.registered (fun _ o _ => hs.sane.targets o) ⟨hJ, hs.sane.toOrderly⟩
  have hconfig := Processor.config_eq_of_setup hclean.setup
  refine ⟨out, c', r', hrun, hs.of_settled hclean.inv.2 hclean.settles hclean.registered
    hconfig hclean.degree (Nat.le_of_eq hclean.turn) ?_ ?_, ⟨calls, hclean.settles⟩,
    hclean.inv.1, hconfig, hclean.degree⟩
  · rw [Processor.clock_eq_of_setup hclean.setup]
    exact hs.clock
  · rw [Processor.snapshot_eq_of_setup hclean.setup]
    exact hs.snapshot

/-- A processing cycle returns, and puts what it published in front of the pending
chain.  Discovery is over then. -/
theorem process_ok {t : Threaded (Cycle γ)} (hs : Sound t.state r ps)
    (hh : hooks.Unobtrusive J) (hJ : J t.state.world)
    (hnull : t.state.processor.config.concurrentDiscovery = false →
      ∀ k o, r.lists k o → t.state.world.heap.target o ≠ none)
    {readings : Readings} (hnow : readings.now < 2 ^ 63) {pooled : Bool}
    (hequipped : Pass.Equipped pooled t) :
    ∃ t' counts pub, Pass.process hooks readings pooled t = .ok counts t' ∧
      Worked J t.state t'.state r Roster.none ps pub ∧ t'.state.processor.enabled = false := by
  have hready : Ready t.state.processor.config.concurrentDiscovery t.state.world.heap r := by
    refine ⟨fun _ o _ => hs.sane.targets o, fun k o ho hnone => ?_, hs.fresh⟩
    cases hconcurrent : t.state.processor.config.concurrentDiscovery with
    | true => rfl
    | false => exact absurd hnone (hnull hconcurrent k o ho)
  obtain ⟨t', s, hrun, hlead, -, -, hJ', -⟩ := Pass.process_ok hh.resolving
    (fun _ => hh.keepingFinals) (fun _ => hh.resolving) (fun _ _ hI => hI) (fun _ _ _ hI _ => hI)
    hs.registered hready ⟨hJ, hs.sane.toOrderly⟩ hs.positive hs.degree readings hequipped
  have hnone : s.roster₃ = Roster.none := by
    funext k q
    exact hlead.empty k q
  have hsettles := hlead.settles hs.registered
  rw [hnone] at hsettles
  have hconfig := (Processor.config_eq_of_setup hlead.setup).trans rfl
  refine ⟨t', _, s.published, hrun, ⟨hs.of_settled hJ'.2 hsettles hlead.registered hconfig
    hlead.degree hlead.turn ?_ ?_, ⟨_, hsettles⟩, hJ'.1, hconfig, hlead.degree⟩, ?_⟩
  · rw [Processor.clock_eq_of_setup hlead.setup]
    exact SoftClock.isStamp_advanceTo hs.clock hnow
  · rw [Processor.snapshot_eq_of_setup hlead.setup]
    exact hs.snapshot
  · show t'.state.processor.setup.enabled = false
    rw [hlead.setup]
    rfl

end Sound

end Referents
