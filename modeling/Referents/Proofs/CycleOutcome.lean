import Referents.Proofs.MarkingCollector
import Referents.Proofs.Processing
import Referents.Proofs.Tracing

/-!
# The outcome of a cycle with the marker

With the marker as its collector a cycle goes by two sets of marks: those it
finds, and those that are there once the targets of final references have been
kept alive.  A reference is **stranded** by marks if its target is neither null
nor marked.  Soft, weak and final references are published if the first marks
strand them, and phantom references if the second do; all others are dropped.

* `Stages.Judged` — the stages of a cycle with the marker.
* `Marker.Outcome` — what such a cycle leaves of references, lists and marks.
* `Marker.process_ok` — the cycle returns with this outcome.
* `Marker.cycle_outcome` — the outcome in terms of the heap alone.
-/

namespace Referents

/-- Whoever met a fate other than that of a final reference was published
exactly if the answers of the collector strand it. -/
theorem Fate.mem_iff {calls : List Call} {h g : Heap} {pub : List Handle} {k : RefKind}
    {o : Handle} {marks : Handle → Bool} (hf : Fate calls h pub g k o) (hk : k ≠ .final)
    (hanswers : ∀ r answer, .isAlive r answer ∈ calls → marks r = answer) :
    o ∈ pub ↔ h.Strands marks o := by
  cases hf with
  | dropped unlisted link target next why =>
      refine iff_of_false unlisted (Heap.not_strands_iff.mpr ?_)
      exact why.imp id fun ⟨t, ht, hcall⟩ => ⟨t, ht, hanswers t true hcall⟩
  | cleared weak listed target next why =>
      obtain ⟨t, ht, hcall⟩ := why
      exact iff_of_true listed ⟨t, ht, hanswers t false hcall⟩
  | finalized final listed target next why => exact absurd final hk

/-- The stages of a cycle with the marker: in the first and the last phase it
only answers, in between it revives. -/
structure Stages.Judged (s : Stages Marker) (now : Int) (r : Roster) (ps : List Handle)
    (c c' : Cycle Marker) : Prop extends s.Lead now r ps c c' where
  before : Marker.Steady c.world s.calls₁ s.world₁
  between : Marker.Reviving s.world₁ s.calls₂ s.world₂
  after : Marker.Steady s.world₂ s.calls₃ c'.world

namespace Stages.Judged

variable {s : Stages Marker} {now : Int} {r : Roster} {ps : List Handle}
variable {c c' : Cycle Marker} {k : RefKind} {o : Handle}

theorem size (hj : s.Judged now r ps c c') : c'.world.heap.size = c.world.heap.size :=
  hj.after.objects.size.trans (hj.between.size.trans hj.before.objects.size)

theorem traits (hj : s.Judged now r ps c c') : c'.world.heap.traits = c.world.heap.traits :=
  hj.after.objects.traits.trans (hj.between.traits.trans hj.before.objects.traits)

/-- The final references that the first phase leaves are those that are stranded. -/
theorem lists_final_iff (hj : s.Judged now r ps c c') :
    s.roster₁.lists .final o ↔ r.lists .final o ∧ c.world.heap.Strands c.world.heap.marks o := by
  constructor
  · intro ho
    obtain ⟨t, ht, hcall⟩ := hj.first.done.spared rfl o ho
    exact ⟨hj.first.settles.listed .final o ho, t, ht, hj.before.answers t false hcall⟩
  · intro hl
    obtain ⟨ho, hstrands⟩ := hl
    by_contra hgone
    cases hj.first.settles.fate .final o ho hgone with
    | dropped unlisted link target next why =>
        refine Heap.not_strands_iff.mpr ?_ hstrands
        exact why.imp id fun ⟨t, ht, hcall⟩ => ⟨t, ht, hj.before.answers t true hcall⟩
    | cleared weak listed target next why => exact weak rfl
    | finalized final listed target next why => exact hj.first.done.weak (by simp) o listed ho

/-- The second phase keeps the targets of these alive, and publishes them. -/
theorem sealed (hj : s.Judged now r ps c c') (ho : s.roster₁.lists .final o) :
    o ∈ s.pub₂ ∧ ∃ t, c.world.heap.target o = some t ∧ .keepAlive o t ∈ s.calls₂ := by
  have hgone : ¬ s.roster₂.lists .final o := by
    intro hlisted
    obtain ⟨q, hq⟩ := hlisted
    rw [hj.second.done.finished .final (by simp [Phase.finishes])] at hq
    cases hq
  have htarget : s.world₁.heap.target o = c.world.heap.target o :=
    hj.first.settles.target .final o ho
  obtain ⟨-, t₀, ht₀, -⟩ := hj.lists_final_iff.mp ho
  cases hj.second.settles.fate .final o ho hgone with
  | dropped unlisted link target next why =>
      rcases why with hnone | ⟨t, ht, hcall⟩
      · rw [htarget, ht₀] at hnone
        cases hnone
      · exact absurd hcall (hj.between.silent t true)
  | cleared weak listed target next why => exact absurd rfl weak
  | finalized final listed target next why =>
      obtain ⟨t, ht, hcall⟩ := why
      exact ⟨listed, t, htarget.symm.trans ht, hcall⟩

/-- What was kept alive are the targets of the stranded final references. -/
theorem kept_iff (hj : s.Judged now r ps c c') (x : Handle) :
    (∃ o, .keepAlive o x ∈ s.calls₂) ↔
      ∃ o, r.lists .final o ∧ c.world.heap.target o = some x ∧ c.world.heap.marks x = false := by
  constructor
  · intro hkept
    obtain ⟨o, hcall⟩ := hkept
    obtain ⟨ho, ht⟩ := hj.second.done.kept rfl o x hcall
    have htarget : c.world.heap.target o = some x :=
      (hj.first.settles.target .final o ho).symm.trans ht
    obtain ⟨hlisted, t, ht, hm⟩ := hj.lists_final_iff.mp ho
    rw [htarget] at ht
    cases ht
    exact ⟨o, hlisted, htarget, hm⟩
  · intro hstranded
    obtain ⟨o, hlisted, ht, hm⟩ := hstranded
    obtain ⟨-, t, ht', hcall⟩ := hj.sealed (hj.lists_final_iff.mpr ⟨hlisted, x, ht, hm⟩)
    rw [ht] at ht'
    cases ht'
    exact ⟨o, hcall⟩

/-- In the end what is marked is what is reached from the marks at the start and
from the targets of the stranded final references. -/
theorem marks_iff (hj : s.Judged now r ps c c') (x : Handle) :
    c'.world.heap.marks x = true ↔ c.world.heap.Reaches (fun y => c.world.heap.marks y = true ∨
      ∃ o, r.lists .final o ∧ c.world.heap.target o = some y ∧ c.world.heap.marks y = false)
      x := by
  rw [hj.after.objects.marks, hj.between.marks_iff hj.second.done.rested,
    Heap.reaches_congr hj.before.objects.traits, hj.before.objects.marks]
  exact Heap.reaches_congr_start fun y => or_congr_right (hj.kept_iff y)

/-- What the second phase publishes are final references. -/
theorem final_of_mem (hj : s.Judged now r ps c c') (hr : r.Disjoint) (ho : r.lists k o)
    (hpub : o ∈ s.pub₂) : k = .final := by
  have hk := hj.second.mem_kinds hr hj.first.settles.listed ho hpub
  simpa [Phase.kinds] using hk

/-- What the third phase publishes are phantom references. -/
theorem phantom_of_mem (hj : s.Judged now r ps c c') (hr : r.Disjoint) (ho : r.lists k o)
    (hpub : o ∈ s.pub₃) : k = .phantom := by
  have hk := hj.third.mem_kinds hr
    (fun k o hl => hj.first.settles.listed k o (hj.second.settles.listed k o hl)) ho hpub
  simpa [Phase.kinds] using hk

/-- The first phase publishes soft and weak references only. -/
theorem not_mem_first (hj : s.Judged now r ps c c') (hr : r.Disjoint) (ho : r.lists k o)
    (hk : k = .final ∨ k = .phantom) : o ∉ s.pub₁ := by
  intro hpub
  rcases hk with rfl | rfl
  · exact hj.first.done.weak (by simp) o hpub ho
  · have hphantom := hj.first.mem_kinds hr (fun _ _ hl => hl) ho hpub
    simp [Phase.kinds] at hphantom

/-- Soft and weak references are published in the first phase. -/
theorem mem_published_early_iff (hj : s.Judged now r ps c c') (hr : r.Disjoint)
    (ho : r.lists k o) (hfinal : k ≠ .final) (hphantom : k ≠ .phantom) :
    o ∈ s.published ↔ c.world.heap.Strands c.world.heap.marks o := by
  have hnot₂ : o ∉ s.pub₂ := fun hpub => hfinal (hj.final_of_mem hr ho hpub)
  have hnot₃ : o ∉ s.pub₃ := fun hpub => hphantom (hj.phantom_of_mem hr ho hpub)
  have hgone : ¬ s.roster₁.lists k o := by
    intro hlisted
    obtain ⟨q, hq⟩ := hlisted
    rw [hj.first.done.finished k (by cases k <;> simp_all [Phase.finishes]) q] at hq
    cases hq
  rw [Stages.mem_published,
    ← (hj.first.settles.fate k o ho hgone).mem_iff hfinal hj.before.answers]
  simp [hnot₂, hnot₃]

/-- Final references are published in the second, all that the first has left. -/
theorem mem_published_final_iff (hj : s.Judged now r ps c c') (hr : r.Disjoint)
    (ho : r.lists .final o) :
    o ∈ s.published ↔ c.world.heap.Strands c.world.heap.marks o := by
  have hnot₁ : o ∉ s.pub₁ := hj.not_mem_first hr ho (.inl rfl)
  have hnot₃ : o ∉ s.pub₃ := fun hpub => nomatch hj.phantom_of_mem hr ho hpub
  rw [Stages.mem_published]
  constructor
  · intro hpub
    obtain ⟨k, hl, -⟩ := hj.second.settles.published o (by simpa [hnot₁, hnot₃] using hpub)
    rw [hr k .final o (hj.first.settles.listed k o hl) ho] at hl
    exact (hj.lists_final_iff.mp hl).2
  · exact fun hs => .inr (.inl (hj.sealed (hj.lists_final_iff.mpr ⟨ho, hs⟩)).1)

/-- Phantom references are published in the third, which goes by the marks that the second has
made. -/
theorem mem_published_phantom_iff (hj : s.Judged now r ps c c') (hr : r.Disjoint)
    (ho : r.lists .phantom o) :
    o ∈ s.published ↔ c.world.heap.Strands c'.world.heap.marks o := by
  have hnot₁ : o ∉ s.pub₁ := hj.not_mem_first hr ho (.inr rfl)
  have hnot₂ : o ∉ s.pub₂ := fun hpub => nomatch hj.final_of_mem hr ho hpub
  have hroster₁ : s.roster₁ .phantom = r .phantom :=
    hj.first.done.others .phantom (by simp [Phase.kinds])
  have hroster₂ : s.roster₂ .phantom = r .phantom :=
    (hj.second.done.others .phantom (by simp [Phase.kinds])).trans hroster₁
  have ho₁ : s.roster₁.lists .phantom o := by rwa [Roster.lists, hroster₁]
  have ho₂ : s.roster₂.lists .phantom o := by rwa [Roster.lists, hroster₂]
  have htarget : s.world₂.heap.target o = c.world.heap.target o :=
    (hj.second.settles.target .phantom o ho₂).trans (hj.first.settles.target .phantom o ho₁)
  rw [Stages.mem_published, hj.after.objects.marks, ← Heap.strands_congr htarget,
    ← (hj.third.settles.fate .phantom o ho₂ hj.toLead.empty_lists).mem_iff (by simp)
      hj.after.answers]
  simp [hnot₁, hnot₂]

/-- A listed reference is published if and only if it is stranded by the marks that its phase
goes by. -/
theorem mem_published_iff (hj : s.Judged now r ps c c')
    (hr : Registered c.processor c.world.heap r ps) (ho : r.lists k o) :
    o ∈ s.published ↔ c.world.heap.Strands
      (if k = .phantom then c'.world.heap.marks else c.world.heap.marks) o := by
  by_cases hphantom : k = .phantom
  · subst hphantom
    exact hj.mem_published_phantom_iff hr.disjoint ho
  · rw [if_neg hphantom]
    by_cases hfinal : k = .final
    · subst hfinal
      exact hj.mem_published_final_iff hr.disjoint ho
    · exact hj.mem_published_early_iff hr.disjoint ho hfinal hphantom

end Stages.Judged

namespace Marker

variable {r : Roster} {ps pub : List Handle} {c c' : Cycle Marker}

/-- What a cycle makes of the lists with roster `r` and of the pending chain `ps`
when it publishes the references `pub`. -/
structure Outcome (r : Roster) (ps : List Handle) (c : Cycle Marker) (pub : List Handle)
    (c' : Cycle Marker) : Prop where
  registered : Registered c'.processor c'.world.heap Roster.none (pub ++ ps)
  degree : c'.processor.degree = c.processor.degree
  turn : c'.processor.turn ≤ c.processor.turn
  size : c'.world.heap.size = c.world.heap.size
  traits : c'.world.heap.traits = c.world.heap.traits
  resting : c'.world.collector.queue.items = []
  marks : ∀ x, c'.world.heap.marks x = true ↔
    c.world.heap.Reaches (fun y => c.world.heap.marks y = true ∨
      ∃ o, r.lists .final o ∧ c.world.heap.target o = some y ∧ c.world.heap.marks y = false) x
  listed : ∀ o ∈ pub, ∃ k, r.lists k o
  published : ∀ k o, r.lists k o → (o ∈ pub ↔ c.world.heap.Strands
    (if k = .phantom then c'.world.heap.marks else c.world.heap.marks) o)
  dropped : ∀ k o, r.lists k o → o ∉ pub → c'.world.heap.following o = none ∧
    c'.world.heap.target o = c.world.heap.target o ∧
    c'.world.heap.nextLink o = c.world.heap.nextLink o
  cleared : ∀ k o, r.lists k o → k ≠ .final → o ∈ pub → c'.world.heap.target o = none ∧
    c'.world.heap.nextLink o = c.world.heap.nextLink o
  sealed : ∀ o, r.lists .final o → o ∈ pub →
    c'.world.heap.target o = c.world.heap.target o ∧ c'.world.heap.nextLink o = some o
  others : ∀ a, (∀ k, ¬ r.lists k a.obj) → c'.world.heap.link a = c.world.heap.link a

theorem Outcome.of_judged {s : Stages Marker} {now : Int} (hj : s.Judged now r ps c c')
    (hr : Registered c.processor c.world.heap r ps) : Outcome r ps c s.published c' := by
  have hsettles := hj.toLead.settles hr
  have hfate := fun k o ho => hsettles.fate k o ho hj.toLead.empty_lists
  constructor
  case registered => exact hj.registered
  case degree => exact hj.degree
  case turn => exact hj.turn
  case size => exact hj.size
  case traits => exact hj.traits
  case resting =>
    rw [hj.after.collector]
    exact hj.after.empty
  case marks => exact hj.marks_iff
  case listed => exact fun o ho => (hsettles.published o ho).imp fun _ hl => hl.1
  case published => exact fun k o ho => hj.mem_published_iff hr ho
  case dropped =>
    intro k o ho hno
    cases hfate k o ho with
    | dropped unlisted link target next why => exact ⟨link, target, next⟩
    | cleared weak listed target next why => exact absurd listed hno
    | finalized final listed target next why => exact absurd listed hno
  case cleared =>
    intro k o ho hk hm
    cases hfate k o ho with
    | dropped unlisted link target next why => exact absurd hm unlisted
    | cleared weak listed target next why => exact ⟨target, next⟩
    | finalized final listed target next why => exact absurd final hk
  case sealed =>
    intro o ho hm
    cases hfate .final o ho with
    | dropped unlisted link target next why => exact absurd hm unlisted
    | cleared weak listed target next why => exact absurd rfl weak
    | finalized final listed target next why => exact ⟨target, next⟩
  case others =>
    intro a ha
    by_cases hheld : c.world.heap.holds a.obj = true
    · exact hsettles.agrees.link a hheld fun ⟨k, hk⟩ => ha k hk
    · have hheld' : ¬ c'.world.heap.holds a.obj = true := by
        rwa [Heap.holds, hj.size]
      rw [Heap.link_of_not_holds hheld, Heap.link_of_not_holds hheld']

/-- What was marked stays marked. -/
theorem Outcome.grown {o : Handle} (ho : Outcome r ps c pub c')
    (hm : c.world.heap.marks o = true) : c'.world.heap.marks o = true :=
  (ho.marks o).mpr (.base (.inl hm))

/-- Whoever is not published keeps its target and its next link. -/
theorem Outcome.unpublished {o : Handle} (ho : Outcome r ps c pub c') (hm : o ∉ pub) :
    c'.world.heap.target o = c.world.heap.target o ∧
      c'.world.heap.nextLink o = c.world.heap.nextLink o := by
  by_cases hl : ∃ k, r.lists k o
  · obtain ⟨k, hl⟩ := hl
    exact (ho.dropped k o hl hm).2
  · have hnot : ∀ k, ¬ r.lists k o := fun k hk => hl ⟨k, hk⟩
    exact ⟨ho.others ⟨o, .referent⟩ hnot, ho.others ⟨o, .next⟩ hnot⟩

/-- A cycle with the marker returns, whatever the configuration, the degree, the lists
and the order in which units are through. -/
theorem process_ok {t : Threaded (Cycle Marker)}
    (hr : Registered t.state.processor t.state.world.heap r ps)
    (hready : Ready t.state.processor.config.concurrentDiscovery t.state.world.heap r)
    (hmarking : Marking t.state.world) (hresting : t.state.world.collector.queue.items = [])
    (hpos : 1 ≤ t.state.processor.degree)
    (hdegree : t.state.processor.degree ≤ t.state.processor.queues)
    (readings : Readings) {pooled : Bool} (hequipped : Pass.Equipped pooled t) :
    ∃ t' pub, Pass.process hooks readings pooled t =
        .ok (Pass.listedCounts r t.state.processor.queues) t' ∧
      Outcome r ps t.state pub t'.state ∧
      t'.state.processor.setup = (t.state.processor.afterCycle readings.now).setup ∧
      ((pooled && t.pool.isSome) = false →
        pub.Sublist (r.visitOrder t.state.processor.queues)) := by
  obtain ⟨t', s, hrun, hlead, h₁, h₂, h₃, hordered⟩ := Pass.process_ok
    (steady_resolving t.state.world) reviving_keeping steady_resolving
    (fun calls w hs => by
      obtain ⟨heap, collector⟩ := w
      have hcollector : collector = t.state.world.collector := hs.collector
      subst hcollector
      exact .start (hmarking.relink hs.objects) hresting)
    (fun _ _ _ hs hrested => .start (hs.rested hrested))
    hr hready (.start hresting) hpos hdegree readings hequipped
  exact ⟨t', s.published, hrun, .of_judged ⟨hlead, h₁, h₂, h₃⟩ hr, hlead.setup, hordered⟩

/-- A cycle with the marker over any lists, any pending chain and any mark set
that is closed under edges, with any configuration and degree, without a pool or with
one whose units are through in any order, returns.
Its lists are empty afterwards, and the published references were put in front
of the pending chain.  Soft, weak and final references were dropped if their
targets were null or marked before the cycle, and phantom references if their
targets were null or marked after it.  By then the mark set is what edges reach
from the old one and from the targets of the published final references. -/
theorem cycle_outcome {t : Threaded (Cycle Marker)}
    (hr : Registered t.state.processor t.state.world.heap r ps)
    (hready : Ready t.state.processor.config.concurrentDiscovery t.state.world.heap r)
    (hedges : t.state.world.heap.EdgesHeld)
    (hclosed : t.state.world.heap.Closed fun o => t.state.world.heap.marks o = true)
    (hresting : t.state.world.collector.queue.items = [])
    (hpos : 1 ≤ t.state.processor.degree)
    (hdegree : t.state.processor.degree ≤ t.state.processor.queues)
    (readings : Readings) {pooled : Bool} (hequipped : Pass.Equipped pooled t) :
    ∃ t' pub, Pass.process hooks readings pooled t =
        .ok (Pass.listedCounts r t.state.processor.queues) t' ∧
      (∀ k q, q < t.state.processor.queues → t'.state.processor.list k q = .ok .empty) ∧
      (∀ k o, r.lists k o → k ≠ .phantom → (o ∉ pub ↔ t.state.world.heap.target o = none ∨
        ∃ x, t.state.world.heap.target o = some x ∧ t.state.world.heap.marks x = true)) ∧
      (∀ x, t'.state.world.heap.marks x = true ↔ t.state.world.heap.Reaches
        (fun y => t.state.world.heap.marks y = true ∨
          ∃ o ∈ pub, r.lists .final o ∧ t.state.world.heap.target o = some y) x) ∧
      (∀ o, r.lists .phantom o → (o ∉ pub ↔ t.state.world.heap.target o = none ∨
        ∃ x, t.state.world.heap.target o = some x ∧ t'.state.world.heap.marks x = true)) ∧
      t'.state.world.heap.chain t'.state.world.heap.pendingHead = ⟨pub ++ ps, true⟩ ∧
      (pub ++ ps).Nodup ∧ (∀ o ∈ pub, ∃ k, r.lists k o) ∧
      (∀ k o, r.lists k o → o ∉ pub → t'.state.world.heap.following o = none ∧
        t'.state.world.heap.target o = t.state.world.heap.target o ∧
        t'.state.world.heap.nextLink o = t.state.world.heap.nextLink o) ∧
      (∀ k o, r.lists k o → k ≠ .final → o ∈ pub → t'.state.world.heap.target o = none) ∧
      (∀ o, r.lists .final o → o ∈ pub →
        t'.state.world.heap.target o = t.state.world.heap.target o ∧
        t'.state.world.heap.nextLink o = some o) ∧
      (∀ a, (∀ k, ¬ r.lists k a.obj) →
        t'.state.world.heap.link a = t.state.world.heap.link a) ∧
      t'.state.world.heap.traits = t.state.world.heap.traits ∧
      t'.state.processor.degree = t.state.processor.degree ∧
      t'.state.processor.enabled = false := by
  obtain ⟨t', pub, hrun, ho, hsetup, -⟩ := process_ok hr hready
    (.of_closed hedges hresting hclosed) hresting hpos hdegree readings hequipped
  have hqueues : t'.state.processor.queues = t.state.processor.queues := by
    rw [Processor.queues, Processor.config_eq_of_setup hsetup, Processor.queues]
    rfl
  have henabled : t'.state.processor.setup.enabled = false := by rw [hsetup]; rfl
  have hstranded : ∀ o, r.lists .final o → (o ∈ pub ↔
      t.state.world.heap.Strands t.state.world.heap.marks o) := fun o hl => by
    simpa using ho.published .final o hl
  refine ⟨t', pub, hrun, fun k q hq => ho.registered.list_empty (by rw [hqueues]; exact hq),
    fun k o hl hk => ?_, fun x => ?_, fun o hl => ?_, ho.registered.pending.chain_eq,
    ho.registered.pending.nodup, ho.listed, ho.dropped,
    fun k o hl hk hm => (ho.cleared k o hl hk hm).1, ho.sealed, ho.others, ho.traits, ho.degree,
    henabled⟩
  · rw [ho.published k o hl, if_neg hk]
    exact Heap.not_strands_iff
  · rw [ho.marks]
    constructor
    · refine fun hx => hx.mono fun y hy => hy.imp id ?_
      intro htargets
      obtain ⟨o, hl, htarget, hm⟩ := htargets
      exact ⟨o, (hstranded o hl).mpr ⟨y, htarget, hm⟩, hl, htarget⟩
    · refine fun hx => hx.mono fun y hy => hy.imp id ?_
      intro htargets
      obtain ⟨o, hpub, hl, htarget⟩ := htargets
      obtain ⟨y', htarget', hm⟩ := (hstranded o hl).mp hpub
      rw [htarget] at htarget'
      cases htarget'
      exact ⟨o, hl, htarget, hm⟩
  · rw [ho.published .phantom o hl, if_pos rfl]
    exact Heap.not_strands_iff

/-! ### A cycle over references of all kinds -/

/-- Seven objects: a chain of two plain ones, a final reference to the first and a
weak and a phantom reference to the second, and a marked object with a soft
reference to it. -/
def revivalHeap : Heap where
  slots := ((((((Table.empty.push
    { Slot.fresh none .young none with edges := [.low 1] }).push
    (.fresh none .young none)).push
    { Slot.fresh (some .final) .young (some (.low 0)) with
      discovered := .of (some (.low 2)) }).push
    { Slot.fresh (some .weak) .young (some (.low 1)) with
      discovered := .of (some (.low 3)) }).push
    { Slot.fresh (some .phantom) .young (some (.low 1)) with
      discovered := .of (some (.low 4)) }).push
    { Slot.fresh none .young none with marked := true }).push
    { Slot.fresh (some .soft) .young (some (.low 5)) with
      discovered := .of (some (.low 6)) }
  pending := .null

/-- Each reference is on the only list of its kind. -/
def revivalRoster : Roster := fun k q =>
  if q = 0 then
    match k with
    | .soft => [.low 6]
    | .weak => [.low 3]
    | .final => [.low 2]
    | .phantom => [.low 4]
  else []

/-- A processor with one queue that holds these references, and a pool of two workers. -/
def revivalCycle : Threaded (Cycle Marker) where
  pool := some { name := "revival", maxWorkers := 2, activeWorkers := 2 }
  state := {
    world := ⟨revivalHeap, {}⟩
    processor := {
      config := .serial 1, scope := .wholeHeap, knownAlive := none, enabled := true
      multiDiscovery := false, degree := 1, turn := 0
      lists := ⟨#[⟨.of (some (.low 6)), 1⟩], #[⟨.of (some (.low 3)), 1⟩],
        #[⟨.of (some (.low 2)), 1⟩], #[⟨.of (some (.low 4)), 1⟩]⟩
      clock := ⟨0⟩, snapshot := 0, policy := .always, clearAll := false
      journal := { config := {} } }
    times := .create 1
    sink := {} }

theorem revival_registered :
    Registered revivalCycle.state.processor revivalHeap revivalRoster [] := by
  constructor
  case size => intro k; cases k <;> rfl
  case spread =>
    intro k
    constructor
    case listed =>
      intro q l hl
      cases q with
      | zero =>
          cases k <;> (cases hl; exact ⟨by decide, by decide, by decide, by decide, by decide⟩)
      | succ q => cases k <;> cases hl
    case beyond =>
      intro q hq
      cases q with
      | zero => cases k <;> exact absurd hq (by decide)
      | succ q => rfl
    case apart =>
      intro q q' o ho ho'
      cases q <;> cases q' <;> simp_all [revivalRoster]
  case kinds =>
    intro k q o ho
    cases q with
    | zero => cases k <;> (cases List.mem_singleton.mp ho; decide)
    | succ q => cases ho
  case pending => exact ⟨by decide, trivial, List.nodup_nil, by simp⟩
  case free => simp

theorem revival_ready : Ready false revivalHeap revivalRoster := by
  have hall : ∀ k o, revivalRoster.lists k o →
      (revivalHeap.target o).any revivalHeap.holds = true ∧ revivalHeap.nextLink o = none := by
    intro k o hlisted
    obtain ⟨q, ho⟩ := hlisted
    cases q with
    | zero => cases k <;> (cases List.mem_singleton.mp ho; exact ⟨by decide, by decide⟩)
    | succ q => cases ho
  constructor
  case target =>
    intro k o ho t ht
    simpa [ht] using (hall k o ho).1
  case null =>
    intro k o ho ht
    simpa [ht] using (hall k o ho).1
  case fresh => exact fun o ho => (hall .final o ho).2

/-- The final and the weak reference are published.  The phantom reference is
dropped, because the final one made its target reachable, and so is the soft
reference, whose target is marked. -/
theorem cycle_outcome_of_revival :
    Registered revivalCycle.state.processor revivalHeap revivalRoster [] ∧
    Ready false revivalHeap revivalRoster ∧ Pass.Equipped true revivalCycle ∧
    ∃ t', ∃ pub : List Handle, Pass.process hooks {} true revivalCycle = .ok ⟨1, 1, 1, 1⟩ t' ∧
      Handle.low 2 ∈ pub ∧ Handle.low 3 ∈ pub ∧ Handle.low 4 ∉ pub ∧ Handle.low 6 ∉ pub := by
  have hequipped : Pass.Equipped true revivalCycle := ⟨by decide, by decide⟩
  refine ⟨revival_registered, revival_ready, hequipped, ?_⟩
  obtain ⟨t', pub, hrun, -, hjudged, hmarks, hphantom, -⟩ :=
    cycle_outcome (t := revivalCycle) revival_registered revival_ready
      (Heap.forall_edgesOf (P := fun _ q => revivalHeap.holds q = true) (by decide))
      (fun o ho p hp => Heap.forall_edgesOf (h := revivalHeap)
        (P := fun marked q => marked = true → revivalHeap.marks q = true) (by decide) o p hp ho)
      rfl (by decide) (by decide) {} hequipped
  -- the targets of the final and of the weak reference were not marked before the cycle
  have hstranded : ∀ k o x, revivalRoster.lists k o → k ≠ .phantom →
      revivalHeap.target o = some x → revivalHeap.marks x = false → o ∈ pub := by
    intro k o x ho hk hx hm
    by_contra hno
    rcases (hjudged k o ho hk).mp hno with hnone | ⟨y, hy, hmarked⟩
    · rw [show revivalCycle.state.world.heap.target o = some x from hx] at hnone
      cases hnone
    · rw [show revivalCycle.state.world.heap.target o = some x from hx] at hy
      cases hy
      rw [show revivalCycle.state.world.heap.marks x = false from hm] at hmarked
      cases hmarked
  have hfinal : Handle.low 2 ∈ pub :=
    hstranded .final _ (.low 0) ⟨0, by decide⟩ (by decide) (by decide) (by decide)
  have hrevived : t'.state.world.heap.marks (.low 1) = true :=
    (hmarks (.low 1)).mpr (.edge
      (.base (.inr ⟨.low 2, hfinal, ⟨0, by decide⟩, (by decide : _ = some (.low 0))⟩)) (by decide))
  exact ⟨t', pub, hrun, hfinal,
    hstranded .weak _ (.low 1) ⟨0, by decide⟩ (by decide) (by decide) (by decide),
    (hphantom _ ⟨0, by decide⟩).mpr (.inr ⟨.low 1, by decide, hrevived⟩),
    (hjudged .soft _ ⟨0, by decide⟩ (by decide)).mpr (.inr ⟨.low 5, by decide, by decide⟩)⟩

end Marker

end Referents
