import Referents.Proofs.Accounting
import Referents.Proofs.CycleOutcome
import Referents.Proofs.Operations
import Referents.Proofs.Preclean

/-!
# Precleaning makes no difference

Precleaning drops references early: those whose target is null, or alive by
then.  Until the lists are resolved, targets may be cleared and more objects may
be marked, but no mark is taken back, so the cycle would have dropped these
references as well.  What the cycle does with the others does not depend on
them.

* `Meanwhile` — what may happen between precleaning and the cycle.
* `Marker.preclean_thins` — precleaning takes out references that nobody strands.
* `Marker.Thinned.meanwhile` — and this stays so, whatever happens meanwhile.
* `Marker.preclean_transparent` — the cycle comes to the same with precleaning
  and without.
-/

namespace Referents

variable {r r₁ : Roster} {ps pub pub₁ : List Handle} {k : RefKind} {o : Handle}

/-! ### What happens meanwhile -/

/-- A step between precleaning and the cycle: an object is marked, a mutator clears a
target, or the marker changes its own state. -/
inductive Meanwhile where
  | mark (o : Handle)
  | clear (o : Handle)
  | marker (g : Marker)

namespace Meanwhile

/-- Takes the step. -/
def run : Meanwhile → Step Marker Unit
  | .mark o => Step.onWorld (discard (Act.transform fun h => h.mark o))
  | .clear o => Step.onWorld (Act.update fun h => h.clearReferent o)
  | .marker g => Step.onWorld (Act.updateCollector fun _ => g)

/-- Takes several steps. -/
def runAll (steps : List Meanwhile) : Step Marker Unit := steps.forM run

/-- Whether the object of the step is in the table. -/
def Held (h : Heap) : Meanwhile → Prop
  | .mark o => h.holds o = true
  | .clear o => h.holds o = true
  | .marker _ => True

/-- What the step makes of a world. -/
def on (w : World Marker) : Meanwhile → World Marker
  | .mark o => { w with heap := w.heap.setMark o }
  | .clear o => { w with heap := w.heap.write ⟨o, .referent⟩ none }
  | .marker g => { w with collector := g }

variable {x : Meanwhile} {steps : List Meanwhile} {c c' : Cycle Marker} {w w' : World Marker}

/-- A step on an object of the table is taken without a fault. -/
theorem run_ok (hx : x.Held c.world.heap) : x.run c = .ok () { c with world := x.on c.world } := by
  cases x with
  | mark o =>
      exact Step.onWorld_ok (map_ok (fun _ => ()) (Act.transform_ok (Heap.mark_ok hx)))
  | clear o => exact Step.onWorld_ok (Act.update_ok (Heap.setReferent_ok hx))
  | marker g => rfl

end Meanwhile

/-- Between the heaps `h` and `g` objects were marked and targets were cleared. -/
structure Heap.Weakens (h g : Heap) : Prop where
  size : g.size = h.size
  traits : g.traits = h.traits
  pending : g.pendingHead = h.pendingHead
  following : ∀ o, g.following o = h.following o
  next : ∀ o, g.nextLink o = h.nextLink o
  grown : ∀ o, h.marks o = true → g.marks o = true
  target : ∀ o, g.target o = h.target o ∨ g.target o = none

namespace Heap.Weakens

variable {h g k : Heap}

theorem refl (h : Heap) : h.Weakens h :=
  ⟨rfl, rfl, rfl, fun _ => rfl, fun _ => rfl, fun _ ho => ho, fun _ => .inl rfl⟩

/-- Objects may be marked, and targets cleared, in several steps. -/
theorem trans (hg : h.Weakens g) (hk : g.Weakens k) : h.Weakens k where
  size := hk.size.trans hg.size
  traits := hk.traits.trans hg.traits
  pending := hk.pending.trans hg.pending
  following o := (hk.following o).trans (hg.following o)
  next o := (hk.next o).trans (hg.next o)
  grown o ho := hk.grown o (hg.grown o ho)
  target o := (hk.target o).elim (fun e => e ▸ hg.target o) .inr

/-- Marks and targets do not matter for lists and chain. -/
theorem registered {p : Processor} (hg : h.Weakens g) (hr : Registered p h r ps) :
    Registered p g r ps :=
  hr.of_following (fun o ho => by rwa [Heap.holds, hg.size])
    (fun o _ => by rw [Heap.kindOf_congr hg.traits]) hg.following hg.pending

/-- References are as ready to be resolved with more marks and fewer targets. -/
theorem ready (hg : h.Weakens g) (hready : Ready true h r) : Ready true g r where
  target k o ho t ht := by
    rw [Heap.holds, hg.size]
    rcases hg.target o with hsame | hnone
    · exact hready.target k o ho t (hsame ▸ ht)
    · rw [hnone] at ht
      cases ht
  null _ _ _ _ := rfl
  fresh o ho := (hg.next o).trans (hready.fresh o ho)

end Heap.Weakens

namespace Meanwhile

variable {x : Meanwhile} {steps : List Meanwhile} {c c' : Cycle Marker} {w w' : World Marker}
variable {S : Handle → Prop}

/-- A step marks at most, and clears at most a target. -/
theorem on_weakens (hx : x.Held w.heap) : w.heap.Weakens (x.on w).heap := by
  cases x with
  | mark o =>
      refine ⟨Heap.size_setMark, Heap.traits_setMark, Heap.pendingHead_setMark,
        fun p => congrFun Heap.link_setMark _, fun p => congrFun Heap.link_setMark _,
        fun p hp => ?_, fun p => .inl (congrFun Heap.link_setMark _)⟩
      simp only [on, Heap.marks_setMark hx, hp, ite_self]
  | clear o =>
      refine ⟨Heap.size_write, Heap.traits_write, Heap.pendingHead_write,
        fun p => Heap.link_write_of_ne (by simp), fun p => Heap.link_write_of_ne (by simp),
        fun p hp => by rw [on, Heap.marks_write]; exact hp, fun p => ?_⟩
      by_cases hpo : p = o
      · subst hpo
        exact .inr (Heap.link_write_self (show w.heap.holds p = true from hx))
      · exact .inl (Heap.link_write_of_ne (by simpa using hpo))
  | marker g => exact .refl _

/-- What chains look like makes no difference to a step. -/
theorem on_relinks (hx : x.Held w.heap) (hsame : w.heap.Relinks S w'.heap) :
    (x.on w).heap.Relinks S (x.on w').heap := by
  cases x with
  | mark o =>
      have hx' : w'.heap.holds o = true := (hsame.holds_eq o).trans hx
      refine ⟨⟨?_, ?_, ?_⟩, ?_, fun a ha => ?_⟩
      · exact (Heap.size_setMark.trans hsame.objects.size).trans Heap.size_setMark.symm
      · exact (Heap.traits_setMark.trans hsame.objects.traits).trans Heap.traits_setMark.symm
      · funext p
        simp only [on, Heap.marks_setMark hx, Heap.marks_setMark hx', hsame.objects.marks]
      · exact (Heap.pendingHead_setMark.trans hsame.pending).trans Heap.pendingHead_setMark.symm
      · simp only [on, Heap.link_setMark]
        exact hsame.link a ha
  | clear o =>
      have hx' : w'.heap.holds o = true := (hsame.holds_eq o).trans hx
      refine ⟨⟨?_, ?_, ?_⟩, ?_, fun a ha => ?_⟩
      · exact (Heap.size_write.trans hsame.objects.size).trans Heap.size_write.symm
      · exact (Heap.traits_write.trans hsame.objects.traits).trans Heap.traits_write.symm
      · exact (Heap.marks_write.trans hsame.objects.marks).trans Heap.marks_write.symm
      · exact (Heap.pendingHead_write.trans hsame.pending).trans Heap.pendingHead_write.symm
      · by_cases hao : a = ⟨o, .referent⟩
        · subst hao
          exact (Heap.link_write_self (show w'.heap.holds o = true from hx')).trans
            (Heap.link_write_self (show w.heap.holds o = true from hx)).symm
        · simp only [on, Heap.link_write_of_ne hao]
          exact hsame.link a ha
  | marker g => exact hsame

/-- What a step makes of the marker does not depend on the heap. -/
theorem on_collector (hsame : w'.collector = w.collector) :
    (x.on w').collector = (x.on w).collector := by
  cases x <;> simp [on, hsame]

/-- Which steps can be taken depends on the size of the table only. -/
theorem Held.congr {h g : Heap} (hx : x.Held h) (hsize : g.size = h.size) : x.Held g := by
  cases x with
  | mark o => exact (congrArg (fun n => decide (o.index < n)) hsize).trans hx
  | clear o => exact (congrArg (fun n => decide (o.index < n)) hsize).trans hx
  | marker g => trivial

/-- What several steps make of a world. -/
def after (steps : List Meanwhile) (w : World Marker) : World Marker :=
  steps.foldl (fun w x => x.on w) w

/-- Steps on objects of the table are taken one after the other without a fault. -/
theorem runAll_ok (hsteps : ∀ x ∈ steps, x.Held c.world.heap) :
    runAll steps c = .ok () { c with world := after steps c.world } := by
  induction steps generalizing c with
  | nil => rfl
  | cons x rest ih =>
      have hx := hsteps x List.mem_cons_self
      refine (bind_ok (run_ok hx)).trans (ih fun y hy => ?_)
      exact (hsteps y (List.mem_cons_of_mem x hy)).congr (on_weakens hx).size

/-- Several steps mark at most, and clear at most targets. -/
theorem after_weakens (hsteps : ∀ x ∈ steps, x.Held w.heap) :
    w.heap.Weakens (after steps w).heap := by
  induction steps generalizing w with
  | nil => exact .refl _
  | cons x rest ih =>
      have hx := on_weakens (hsteps x List.mem_cons_self)
      exact hx.trans (ih fun y hy => (hsteps y (List.mem_cons_of_mem x hy)).congr hx.size)

/-- What chains look like makes no difference to several steps. -/
theorem after_relinks (hsteps : ∀ x ∈ steps, x.Held w.heap) (hsame : w.heap.Relinks S w'.heap) :
    (after steps w).heap.Relinks S (after steps w').heap := by
  induction steps generalizing w w' with
  | nil => exact hsame
  | cons x rest ih =>
      have hx := hsteps x List.mem_cons_self
      refine ih (fun y hy => ?_) (on_relinks hx hsame)
      exact (hsteps y (List.mem_cons_of_mem x hy)).congr (on_weakens hx).size

/-- What several steps make of the marker does not depend on the heap. -/
theorem after_collector (hsame : w'.collector = w.collector) :
    (after steps w').collector = (after steps w).collector := by
  induction steps generalizing w w' with
  | nil => exact hsame
  | cons x rest ih => exact ih (on_collector hsame)

end Meanwhile

/-! ### What precleaning takes out -/

namespace Hooks

variable {γ : Type} {hooks : Hooks γ} {h : Heap} {alive : Handle → Bool}

/-- While marks are those of the heap `h`, the hooks take for alive what is in
`alive`, and change nothing when they are asked. -/
def Sees (hooks : Hooks γ) (h : Heap) (alive : Handle → Bool) : Prop :=
  ∀ w o, w.heap.marks = h.marks → w.heap.holds o = true → hooks.isAlive o w = .ok (alive o) w

/-- A given judgement may stand in the place of any other. -/
theorem sees_withAlive (hooks : Hooks γ) (h : Heap) (alive : Handle → Bool) :
    (hooks.withAlive alive).Sees h alive := fun _ _ _ _ => rfl

/-- What the hooks see they see with something carried beside the collector. -/
theorem Sees.beside (hsees : hooks.Sees h alive) (τ : Type) :
    (hooks.beside τ).Sees h alive := by
  intro w o hmarks ho
  have hask := hsees ⟨w.heap, w.collector.1⟩ o hmarks ho
  simp only [Hooks.beside, within, Act.within, hask]

/-- What a marker sees alive it judges alive. -/
def Judges (watch : Hooks Marker) (h : Heap) (alive : Handle → Bool) : Prop :=
  ∀ w o, w.heap.marks = h.marks → w.heap.holds o = true → watch.isAlive o w = .ok (alive o) w

end Hooks

/-- The marker takes for alive what is marked. -/
theorem Marker.judges (h : Heap) : Marker.hooks.Judges h h.marks := fun w o hmarks ho => by
  rw [← hmarks]
  exact Marker.isMarked_ok ho

namespace Marker

variable {alive : Handle → Bool} {watch : Hooks Marker} {c c₁ d d₁ t t₁ : Cycle Marker}

/-- Since the world `w₀` nobody has done more than ask what is alive. -/
structure Watched (alive : Handle → Bool) (τ : Type) (w₀ : World Marker) (calls : List Call)
    (w : World (Marker × τ)) : Prop where
  objects : w₀.heap.SameObjects w.heap
  collector : w.collector.1 = w₀.collector
  answers : ∀ o answer, .isAlive o answer ∈ calls → alive o = answer

/-- While it is only asked, a marker answers by what it sees alive. -/
theorem watched_answering {w₀ : World Marker} (hwatch : watch.Judges w₀.heap alive) (τ : Type) :
    (watch.beside τ).Answering (Watched alive τ w₀) where
  relink hw hh := ⟨hw.objects.trans hh, hw.collector, hw.answers⟩
  isAlive {calls w r} hw hr := by
    have hsees : watch.Sees w₀.heap alive := hwatch
    exact ⟨alive r, w, hsees.beside τ w r hw.objects.marks hr, .refl _, hw.objects, hw.collector,
      Truthful.answer hw.answers r⟩

/-- The cycle `c₁` is the cycle `c` without references that nobody strands if `alive` is
alive: its lists have the roster `r₁` in place of `r`, and what listed references link
to may be different. -/
structure Thinned (alive : Handle → Bool) (r : Roster) (ps : List Handle) (c : Cycle Marker)
    (r₁ : Roster) (c₁ : Cycle Marker) : Prop where
  start : Registered c.processor c.world.heap r ps
  registered : Registered c₁.processor c₁.world.heap r₁ ps
  relinks : c.world.heap.Relinks (fun o => ∃ k, r.lists k o) c₁.world.heap
  sublist : ∀ k q, (r₁ k q).Sublist (r k q)
  unlinked : ∀ k o, r.lists k o → ¬ r₁.lists k o → c₁.world.heap.following o = none
  dead : ∀ k o, r.lists k o → ¬ r₁.lists k o → ¬ c.world.heap.Strands alive o
  collector : c₁.world.collector = c.world.collector
  config : c₁.processor.config = c.processor.config
  degree : c₁.processor.degree = c.processor.degree
  maxWorkers : c₁.times.maxWorkers = c.times.maxWorkers

/-- Precleaning returns, whenever it is told to stop, and only thins the lists. -/
theorem preclean_thins (hr : Registered c.processor c.world.heap r ps)
    (htargets : ∀ k o, r.lists k o → ∀ t, c.world.heap.target o = some t →
      c.world.heap.holds t = true)
    (hwatch : watch.Judges c.world.heap alive) {τ : Type} (check : YieldCheck τ) (answers : τ)
    (readings : Readings) :
    ∃ out c₁ r₁, Step.viaCollector (·, answers) Prod.fst
        (Step.preclean (watch.beside τ) (check.beside Marker) readings) c = .ok out c₁ ∧
      Thinned alive r ps c r₁ c₁ := by
  have hcheck : ∀ calls, (check.beside Marker).Respects (Watched alive τ c.world calls) :=
    fun _ => ⟨fun hw => ⟨hw.objects, hw.collector, hw.answers⟩,
      fun hw => ⟨hw.objects, hw.collector, hw.answers⟩⟩
  obtain ⟨out, d, calls, r₁, hrun, hclean⟩ := Step.preclean_ok
    (c := c.withCollector (c.world.collector, answers)) (watched_answering hwatch τ) hcheck
    readings hr htargets ⟨⟨rfl, rfl, rfl⟩, rfl, by simp⟩
  have hwatched := hclean.inv
  rw [List.nil_append] at hwatched
  obtain ⟨hrelinks, hgone⟩ := hclean.relinks hwatched.objects
  refine ⟨_, _, r₁, Step.viaCollector_ok hrun, ?_⟩
  constructor
  case start => exact hr
  case registered => exact hclean.registered
  case relinks => exact hrelinks
  case sublist => exact hclean.sublist
  case unlinked => exact hgone
  case dead =>
    intro k o ho hno
    rw [Heap.not_strands_iff]
    cases hclean.settles.fate k o ho hno with
    | dropped unlisted link target next why =>
        exact why.imp_right fun ⟨t, ht, hcall⟩ => ⟨t, ht, hwatched.answers t true hcall⟩
    | cleared weak listed target next why => cases listed
    | finalized final listed target next why => cases listed
  case collector => exact hwatched.collector
  case config => exact Processor.config_eq_of_setup hclean.setup
  case degree => exact hclean.degree
  case maxWorkers => exact hclean.maxWorkers

namespace Thinned

/-- Whoever is still on a list was on it before. -/
theorem lists_of (ht : Thinned alive r ps c r₁ c₁) (ho : r₁.lists k o) : r.lists k o :=
  ho.imp fun q hq => (ht.sublist k q).subset hq

/-- Whatever happens meanwhile, those that were taken out are not stranded then. -/
theorem meanwhile (ht : Thinned alive r ps c r₁ c₁) {steps : List Meanwhile}
    (hsteps : ∀ x ∈ steps, x.Held c.world.heap)
    (halive : ∀ o, alive o = true → (Meanwhile.after steps c.world).heap.marks o = true) :
    Meanwhile.runAll steps c₁ =
        .ok () { c₁ with world := Meanwhile.after steps c₁.world } ∧
      Thinned (Meanwhile.after steps c.world).heap.marks r ps
        { c with world := Meanwhile.after steps c.world } r₁
        { c₁ with world := Meanwhile.after steps c₁.world } := by
  have hsteps₁ : ∀ x ∈ steps, x.Held c₁.world.heap := fun x hx =>
    (hsteps x hx).congr ht.relinks.objects.size
  have hweakens := Meanwhile.after_weakens hsteps
  have hweakens₁ := Meanwhile.after_weakens hsteps₁
  refine ⟨Meanwhile.runAll_ok hsteps₁, ?_⟩
  constructor
  case start => exact hweakens.registered ht.start
  case registered => exact hweakens₁.registered ht.registered
  case relinks => exact Meanwhile.after_relinks hsteps ht.relinks
  case sublist => exact ht.sublist
  case unlinked =>
    exact fun k o ho hno => (hweakens₁.following o).trans (ht.unlinked k o ho hno)
  case dead =>
    intro k o ho hno
    have hdead := ht.dead k o ho hno
    rw [Heap.not_strands_iff] at hdead ⊢
    rcases hweakens.target o with hsame | hnone
    · rw [hsame]
      exact hdead.imp_right fun ⟨t, htarget, hm⟩ => ⟨t, htarget, halive t hm⟩
    · exact .inl hnone
  case collector => exact Meanwhile.after_collector ht.collector
  case config => exact ht.config
  case degree => exact ht.degree
  case maxWorkers => exact ht.maxWorkers

/-- Precleaning leaves the number of queues. -/
theorem queues_eq (ht : Thinned alive r ps c r₁ c₁) : c₁.processor.queues = c.processor.queues :=
  Processor.queues_congr ht.config

/-- Precleaning leaves the room for the times of workers. -/
theorem hasRoom (ht : Thinned alive r ps c r₁ c₁)
    (hroom : c.times.HasRoom c.processor.queues) : c₁.times.HasRoom c₁.processor.queues := by
  rw [PhaseTimes.HasRoom, ht.maxWorkers, ht.queues_eq]
  exact hroom

/-- The references that are left are as ready to be resolved as before. -/
theorem ready (ht : Thinned alive r ps c r₁ c₁) (hready : Ready true c.world.heap r) :
    Ready true c₁.world.heap r₁ where
  target k o ho x hx := by
    rw [ht.relinks.target_eq] at hx
    rw [ht.relinks.holds_eq]
    exact hready.target k o (ht.lists_of ho) x hx
  null _ _ _ _ := rfl
  fresh o ho := (ht.relinks.nextLink_eq o).trans (hready.fresh o (ht.lists_of ho))

/-- The marker is in the middle of its work as it was before. -/
theorem marking (ht : Thinned alive r ps c r₁ c₁) (hmarking : Marking c.world) :
    Marking c₁.world := by
  have hsame := hmarking.relink ht.relinks.objects
  rw [← ht.collector] at hsame
  exact hsame

/-! ### Two cycles -/

variable {t t₁ : Cycle Marker}

/-- Whoever is stranded was not taken out. -/
theorem lists_iff (ht : Thinned alive r ps d r₁ d₁) (hs : d.world.heap.Strands alive o) :
    r₁.lists k o ↔ r.lists k o := by
  refine ⟨ht.lists_of, fun ho => ?_⟩
  by_contra hno
  exact ht.dead k o ho hno hs

/-- Both cycles mark the same. -/
theorem marks_eq (ht : Thinned d.world.heap.marks r ps d r₁ d₁) (ho : Outcome r ps d pub t)
    (ho₁ : Outcome r₁ ps d₁ pub₁ t₁) : t₁.world.heap.marks = t.world.heap.marks := by
  have hstart : ∀ y, (d₁.world.heap.marks y = true ∨ ∃ o, r₁.lists .final o ∧
        d₁.world.heap.target o = some y ∧ d₁.world.heap.marks y = false) ↔
      (d.world.heap.marks y = true ∨ ∃ o, r.lists .final o ∧
        d.world.heap.target o = some y ∧ d.world.heap.marks y = false) := by
    intro y
    simp only [ht.relinks.objects.marks, ht.relinks.target_eq]
    refine or_congr_right (exists_congr fun o => and_congr_left fun hy => ?_)
    exact ht.lists_iff ⟨y, hy.1, hy.2⟩
  funext x
  rw [Bool.eq_iff_iff, ho₁.marks, ho.marks, Heap.reaches_congr ht.relinks.objects.traits]
  exact Heap.reaches_congr_start hstart

/-- Both publish the same. -/
theorem mem_pub_iff (ht : Thinned d.world.heap.marks r ps d r₁ d₁) (ho : Outcome r ps d pub t)
    (ho₁ : Outcome r₁ ps d₁ pub₁ t₁) (o : Handle) : o ∈ pub₁ ↔ o ∈ pub := by
  have hmarks := ht.marks_eq ho ho₁
  have hsame : ∀ k, r.lists k o → r₁.lists k o → (o ∈ pub₁ ↔ o ∈ pub) := by
    intro k hl hl₁
    rw [ho.published k o hl, ho₁.published k o hl₁, hmarks, ht.relinks.objects.marks]
    exact Heap.strands_congr (ht.relinks.target_eq o)
  constructor
  · intro hm
    obtain ⟨k, hl₁⟩ := ho₁.listed o hm
    exact (hsame k (ht.lists_of hl₁) hl₁).mp hm
  · intro hm
    obtain ⟨k, hl⟩ := ho.listed o hm
    obtain ⟨x, hx, hunmarked⟩ := (ho.published k o hl).mp hm
    -- what is not marked after the cycle was not marked before
    have hbefore : d.world.heap.marks x = false := by
      split at hunmarked
      · by_contra hmarked
        rw [Bool.not_eq_false] at hmarked
        rw [ho.grown hmarked] at hunmarked
        cases hunmarked
      · exact hunmarked
    exact (hsame k hl ((ht.lists_iff ⟨x, hx, hbefore⟩).mpr hl)).mpr hm

/-- Both leave the same targets and next links. -/
theorem link_eq (ht : Thinned d.world.heap.marks r ps d r₁ d₁) (ho : Outcome r ps d pub t)
    (ho₁ : Outcome r₁ ps d₁ pub₁ t₁) (o : Handle) :
    t₁.world.heap.target o = t.world.heap.target o ∧
      t₁.world.heap.nextLink o = t.world.heap.nextLink o := by
  have htarget := ht.relinks.target_eq o
  have hnext := ht.relinks.nextLink_eq o
  have hmem := ht.mem_pub_iff ho ho₁ o
  by_cases hm : o ∈ pub
  · obtain ⟨k, hl⟩ := ho.listed o hm
    obtain ⟨k', hl₁⟩ := ho₁.listed o (hmem.mpr hm)
    obtain rfl : k' = k := ht.start.disjoint k' k o (ht.lists_of hl₁) hl
    by_cases hk : k' = .final
    · subst hk
      have h := ho.sealed o hl hm
      have h₁ := ho₁.sealed o hl₁ (hmem.mpr hm)
      exact ⟨(h₁.1.trans htarget).trans h.1.symm, h₁.2.trans h.2.symm⟩
    · have h := ho.cleared k' o hl hk hm
      have h₁ := ho₁.cleared k' o hl₁ hk (hmem.mpr hm)
      exact ⟨h₁.1.trans h.1.symm, (h₁.2.trans hnext).trans h.2.symm⟩
  · have h := ho.unpublished hm
    have h₁ := ho₁.unpublished (mt hmem.mp hm)
    exact ⟨(h₁.1.trans htarget).trans h.1.symm, (h₁.2.trans hnext).trans h.2.symm⟩

/-- Both leave the same links of the references that are not published. -/
theorem following_eq (ht : Thinned d.world.heap.marks r ps d r₁ d₁) (ho : Outcome r ps d pub t)
    (ho₁ : Outcome r₁ ps d₁ pub₁ t₁) (hno : o ∉ pub) :
    t₁.world.heap.following o = t.world.heap.following o := by
  have hno₁ : o ∉ pub₁ := mt (ht.mem_pub_iff ho ho₁ o).mp hno
  by_cases hl : ∃ k, r.lists k o
  · obtain ⟨k, hl⟩ := hl
    rw [(ho.dropped k o hl hno).1]
    by_cases hl₁ : ∃ k, r₁.lists k o
    · obtain ⟨k', hl₁⟩ := hl₁
      exact (ho₁.dropped k' o hl₁ hno₁).1
    · rw [← ht.unlinked k o hl fun h => hl₁ ⟨k, h⟩]
      exact ho₁.others ⟨o, .discovered⟩ fun k' h => hl₁ ⟨k', h⟩
  · have hl₁ : ∀ k, ¬ r₁.lists k o := fun k h => hl ⟨k, ht.lists_of h⟩
    have hsame := ht.relinks.link ⟨o, .discovered⟩ fun _ => hl
    exact ((ho₁.others ⟨o, .discovered⟩ hl₁).trans hsame).trans
      (ho.others ⟨o, .discovered⟩ fun k h => hl ⟨k, h⟩).symm

/-- Where the queues are visited in their order, both publish in the same order. -/
theorem pub_eq (ht : Thinned d.world.heap.marks r ps d r₁ d₁) (ho : Outcome r ps d pub t)
    (ho₁ : Outcome r₁ ps d₁ pub₁ t₁) {n : Nat} (hsub : pub.Sublist (r.visitOrder n))
    (hsub₁ : pub₁.Sublist (r₁.visitOrder n)) : pub₁ = pub := by
  have hnodup := ht.start.nodup_visitOrder n
  have hfilter := eq_filter_of_sublist (p := fun o => decide (o ∈ pub)) hsub hnodup (by simp)
  have hfilter₁ := eq_filter_of_sublist (p := fun o => decide (o ∈ pub))
    (hsub₁.trans (Roster.visitOrder_sublist ht.sublist n)) hnodup
    fun o _ => by rw [decide_eq_true_iff, ht.mem_pub_iff ho ho₁]
  exact hfilter₁.trans hfilter.symm

end Thinned

/-- Precleaning with any judgement of what is alive, told to stop at any point or at
none, is not noticed in the cycle that follows, whatever is marked and cleared in
between, as long as what was judged alive is marked by the time of the cycle.  With
precleaning and without, whatever clocks show and in whatever order units are through
in either, the cycle leaves the same marks, targets and next links, the
same links of all objects that it did not publish, and the same references in front
of the pending chain; without a pool they come in the same order. -/
theorem preclean_transparent {t : Threaded (Cycle Marker)}
    (hr : Registered t.state.processor t.state.world.heap r ps)
    (hready : Ready true t.state.world.heap r)
    (hconcurrent : t.state.processor.config.concurrentDiscovery = true)
    (hpos : 1 ≤ t.state.processor.degree)
    (hdegree : t.state.processor.degree ≤ t.state.processor.queues)
    (hwatch : watch.Judges t.state.world.heap alive) {steps : List Meanwhile}
    (hsteps : ∀ x ∈ steps, x.Held t.state.world.heap)
    (halive : ∀ o, alive o = true →
      (Meanwhile.after steps t.state.world).heap.marks o = true)
    (hedges : t.state.world.heap.EdgesHeld)
    (hclosed : t.state.world.heap.Closed fun o =>
      (Meanwhile.after steps t.state.world).heap.marks o = true)
    (hresting : (Meanwhile.after steps t.state.world).collector.queue.items = [])
    {τ : Type} (check : YieldCheck τ) (answers : τ)
    (cleanReadings readings₁ readings₂ : Readings) {pooled : Bool}
    (hequipped : Pass.Equipped pooled t) :
    ∃ out c₁ d₁ d t₁ t₂ counts₁ counts₂ pub₁ pub₂,
      Step.viaCollector (·, answers) Prod.fst (Step.preclean (watch.beside τ)
        (check.beside Marker) cleanReadings) t.state = .ok out c₁ ∧
      Meanwhile.runAll steps c₁ = .ok () d₁ ∧
      Pass.process hooks readings₁ pooled { t with state := d₁ } = .ok counts₁ t₁ ∧
      Meanwhile.runAll steps t.state = .ok () d ∧
      Pass.process hooks readings₂ pooled { t with state := d } = .ok counts₂ t₂ ∧
      t₁.state.world.heap.marks = t₂.state.world.heap.marks ∧
      (∀ o, t₁.state.world.heap.target o = t₂.state.world.heap.target o ∧
        t₁.state.world.heap.nextLink o = t₂.state.world.heap.nextLink o) ∧
      t₁.state.world.heap.chain t₁.state.world.heap.pendingHead = ⟨pub₁ ++ ps, true⟩ ∧
      t₂.state.world.heap.chain t₂.state.world.heap.pendingHead = ⟨pub₂ ++ ps, true⟩ ∧
      pub₁.Perm pub₂ ∧
      (∀ o, o ∉ pub₂ →
        t₁.state.world.heap.following o = t₂.state.world.heap.following o) ∧
      ((pooled && t.pool.isSome) = false → pub₁ = pub₂) := by
  obtain ⟨out, c₁, r₁, hpreclean, hthin⟩ :=
    preclean_thins hr hready.target hwatch check answers cleanReadings
  obtain ⟨hsteps₁, hthin'⟩ := hthin.meanwhile hsteps halive
  have hweakens := Meanwhile.after_weakens hsteps
  have hmarking : Marking (Meanwhile.after steps t.state.world) := by
    apply Marking.of_closed _ hresting
    · intro o ho p hp
      rw [Heap.edgesOf_congr hweakens.traits] at hp
      exact hclosed o ho p hp
    · intro o p hp
      rw [Heap.edgesOf_congr hweakens.traits] at hp
      rw [Heap.holds_congr hweakens.traits]
      exact hedges o p hp
  obtain ⟨t₂, pub₂, hprocess₂, hout₂, -, hserial₂⟩ := process_ok
    (t := { t with state :=
      { t.state with world := Meanwhile.after steps t.state.world } }) hthin'.start
    (by rw [hconcurrent]; exact hweakens.ready hready) hmarking hresting hpos hdegree readings₂
    ⟨hequipped.canStart, hequipped.room⟩
  obtain ⟨t₁, pub₁, hprocess₁, hout₁, -, hserial₁⟩ := process_ok
    (t := { t with state := { c₁ with world := Meanwhile.after steps c₁.world } })
    hthin'.registered
    (by rw [hthin'.config, hconcurrent]; exact hthin'.ready (hweakens.ready hready))
    (hthin'.marking hmarking) (by rw [hthin'.collector]; exact hresting)
    (by rw [hthin'.degree]; exact hpos) (by rw [hthin'.degree, hthin'.queues_eq]; exact hdegree)
    readings₁ ⟨hequipped.canStart, hthin'.hasRoom hequipped.room⟩
  refine ⟨out, c₁, _, _, t₁, t₂, _, _, pub₁, pub₂, hpreclean, hsteps₁, hprocess₁,
    Meanwhile.runAll_ok hsteps, hprocess₂, hthin'.marks_eq hout₂ hout₁,
    hthin'.link_eq hout₂ hout₁, hout₁.registered.pending.chain_eq,
    hout₂.registered.pending.chain_eq, ?_, fun o => hthin'.following_eq hout₂ hout₁, ?_⟩
  · rw [List.perm_ext_iff_of_nodup hout₁.registered.pending.nodup.of_append_left
      hout₂.registered.pending.nodup.of_append_left]
    exact hthin'.mem_pub_iff hout₂ hout₁
  · intro hserial
    have hsub₁ := hserial₁ hserial
    rw [hthin'.queues_eq] at hsub₁
    exact hthin'.pub_eq hout₂ hout₁ (hserial₂ hserial) hsub₁

/-! ### Three weak references -/

/-- Three plain objects, the first of them marked, and a weak reference to each; the
references are on one list, the last one first. -/
def threeWeakHeap : Heap where
  slots := (((((Table.empty.push
    { Slot.fresh none .young none with marked := true }).push
    (.fresh none .young none)).push
    (.fresh none .young none)).push
    { Slot.fresh (some .weak) .young (some (.low 0)) with
      discovered := .of (some (.low 3)) }).push
    { Slot.fresh (some .weak) .young (some (.low 1)) with
      discovered := .of (some (.low 3)) }).push
    { Slot.fresh (some .weak) .young (some (.low 2)) with
      discovered := .of (some (.low 4)) }
  pending := .null

def threeWeakRoster : Roster := fun k q =>
  match k, q with
  | .weak, 0 => [.low 5, .low 4, .low 3]
  | _, _ => []

/-- A processor with one queue that holds these references. -/
def threeWeakCycle : Threaded (Cycle Marker) where
  state := {
    world := ⟨threeWeakHeap, {}⟩
    processor := {
      config := { Config.serial 1 with concurrentDiscovery := true }, scope := .wholeHeap
      knownAlive := none, enabled := true, multiDiscovery := false, degree := 1, turn := 0
      lists := ⟨#[.empty], #[⟨.of (some (.low 5)), 3⟩], #[.empty], #[.empty]⟩
      clock := ⟨0⟩, snapshot := 0, policy := .always, clearAll := false
      journal := { config := {} } }
    times := .create 1
    sink := {} }

/-- The members of the example's lists are its three weak references. -/
theorem mem_threeWeakRoster {q : Nat} (ho : o ∈ threeWeakRoster k q) :
    k = .weak ∧ q = 0 ∧ o ∈ [Handle.low 5, .low 4, .low 3] := by
  unfold threeWeakRoster at ho
  split at ho
  · exact ⟨rfl, rfl, ho⟩
  · cases ho

/-- The three weak references are on one list, and nothing is pending. -/
theorem threeWeak_registered :
    Registered threeWeakCycle.state.processor threeWeakHeap threeWeakRoster [] := by
  constructor
  case size => intro k; cases k <;> rfl
  case spread =>
    intro k
    constructor
    case listed =>
      intro q l hl
      match q with
      | 0 => cases k <;> (cases hl; exact ⟨by decide, by decide, by decide, by decide, by decide⟩)
      | q + 1 => cases k <;> cases hl
    case beyond =>
      intro q hq
      match q with
      | 0 => cases k <;> exact absurd hq (by decide)
      | q + 1 => cases k <;> rfl
    case apart =>
      intro q q' o ho ho'
      rw [(mem_threeWeakRoster ho).2.1, (mem_threeWeakRoster ho').2.1]
  case kinds =>
    intro k q o ho
    obtain ⟨rfl, -, hmem⟩ := mem_threeWeakRoster ho
    exact (by decide : ∀ o ∈ [Handle.low 5, .low 4, .low 3],
      threeWeakHeap.kindOf o = some .weak) o hmem
  case pending => exact ⟨by decide, trivial, List.nodup_nil, by simp⟩
  case free => simp

/-- Precleaning drops the first reference, whose target is marked; then the target of
the last one is cleared.  The cycle publishes the second one, and would have done so
without precleaning. -/
theorem preclean_transparent_of_threeWeak :
    Registered threeWeakCycle.state.processor threeWeakHeap threeWeakRoster [] ∧
    Pass.Equipped false threeWeakCycle ∧
    ∃ c₁ t₁ t₂,
      (∃ out, Step.viaCollector (·, ()) Prod.fst (Step.preclean (hooks.beside Unit)
        ((.never : YieldCheck Unit).beside Marker) {}) threeWeakCycle.state = .ok out c₁) ∧
      c₁.members .weak 0 = [.low 5, .low 4] ∧
      (∃ d₁ counts, Meanwhile.runAll [.clear (.low 5)] c₁ = .ok () d₁ ∧
        Pass.process hooks {} false { threeWeakCycle with state := d₁ } = .ok counts t₁) ∧
      (∃ d counts, Meanwhile.runAll [.clear (.low 5)] threeWeakCycle.state = .ok () d ∧
        Pass.process hooks {} false { threeWeakCycle with state := d } = .ok counts t₂) ∧
      t₁.state.pending = t₂.state.pending := by
  have hlisted : ∀ k o, threeWeakRoster.lists k o →
      (threeWeakHeap.target o).any threeWeakHeap.holds = true ∧
        threeWeakHeap.nextLink o = none := by
    intro k o ho
    obtain ⟨q, ho⟩ := ho
    obtain ⟨-, -, hmem⟩ := mem_threeWeakRoster ho
    exact (by decide : ∀ o ∈ [Handle.low 5, .low 4, .low 3],
      (threeWeakHeap.target o).any threeWeakHeap.holds = true ∧
        threeWeakHeap.nextLink o = none) o hmem
  have hready : Ready true threeWeakHeap threeWeakRoster := by
    constructor
    case target => exact fun k o ho t ht => by simpa [ht] using (hlisted k o ho).1
    case null => exact fun _ _ _ _ => rfl
    case fresh => exact fun o ho => (hlisted .final o ho).2
  have hsteps : ∀ x ∈ [Meanwhile.clear (.low 5)], x.Held threeWeakHeap := by
    intro x hx
    rw [List.mem_singleton.mp hx]
    exact (by decide : threeWeakHeap.holds (.low 5) = true)
  have hequipped : Pass.Equipped false threeWeakCycle := ⟨by decide, by decide⟩
  have hnone : ∀ o, ∀ p ∈ threeWeakHeap.edgesOf o, False :=
    Heap.forall_edgesOf (P := fun _ _ => False) (by decide)
  obtain ⟨out, c₁, d₁, d, t₁, t₂, counts₁, counts₂, pub₁, pub₂, hpreclean, hsteps₁, hprocess₁,
    hsteps₂, hprocess₂, -, -, hchain₁, hchain₂, -, -, hserial⟩ :=
    preclean_transparent (t := threeWeakCycle) threeWeak_registered hready rfl (by decide)
      (by decide) (judges threeWeakHeap) hsteps
      (Meanwhile.after_weakens (w := threeWeakCycle.state.world) hsteps).grown
      (fun o p hp => (hnone o p hp).elim) (fun o _ p hp => (hnone o p hp).elim) rfl
      (.never : YieldCheck Unit) () {} {} {} hequipped
  have hmembers : (match Step.viaCollector (·, ()) Prod.fst (Step.preclean (hooks.beside Unit)
      ((.never : YieldCheck Unit).beside Marker) {}) threeWeakCycle.state with
    | .ok _ c => c.members .weak 0
    | .error _ _ => []) = [.low 5, .low 4] := by decide +kernel
  rw [hpreclean] at hmembers
  refine ⟨threeWeak_registered, hequipped, c₁, t₁, t₂, ⟨out, hpreclean⟩, hmembers, ⟨d₁, counts₁, hsteps₁, hprocess₁⟩,
    ⟨d, counts₂, hsteps₂, hprocess₂⟩, ?_⟩
  rw [Cycle.pending, Cycle.pending, hchain₁, hchain₂, hserial rfl]

end Marker

end Referents
