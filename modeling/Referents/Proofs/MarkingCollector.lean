import Referents.Proofs.Marking

/-!
# The marker as a collector

In the phases that resolve references the marker only answers: what it is told
to keep alive is marked already, so the marks and its queue stay as they are
(`Steady`).  In the phase that keeps final references alive it marks their
targets, and whenever it has finished its work, what is marked is what is
reached from the old marks and these targets (`Reviving`).

* `Marker.steady_resolving` — the marker serves the resolving phases.
* `Marker.reviving_keeping` — and the phase in between.
-/

namespace Referents

namespace Marker

variable {w₀ w : World Marker} {calls : List Call} {o r : Handle}

/-- Marking a marked object does nothing. -/
theorem markAndPush_of_marks (hm : w.heap.marks o = true) : markAndPush o w = .ok false w := by
  have hmark := Act.transform_ok (f := fun h => h.mark o)
    (Heap.mark_ok (Heap.holds_of_marks hm))
  rw [hm, Heap.setMark_of_marks hm] at hmark
  exact bind_ok hmark

/-- With an empty queue nothing is drained. -/
theorem drain_of_empty (hempty : w.collector.queue.items = []) : drain w = .ok () w :=
  (bind_ok (get_ok w)).trans ((bind_ok (next_of_empty hempty)).trans rfl)

/-- The marker takes for alive what is marked. -/
theorem isMarked_ok (ho : w.heap.holds o = true) :
    isMarked o w = .ok (w.heap.marks o) w := Act.read_ok (Heap.isMarked_ok ho)

/-- Keeping a referent alive is marking it. -/
theorem keepAlive_eq (ho : w.heap.target o = some r) :
    keepAlive ⟨o, .referent⟩ w = (discard (markAndPush r) : Act Marker Unit) w := by
  have hload : (Act.read fun h => h.load ⟨o, .referent⟩ : Act Marker (Option Handle)) w =
      .ok (some r) w :=
    Act.read_ok ((Heap.load_ok (Heap.holds_of_link ho)).trans (congrArg Except.ok ho))
  exact bind_ok hload

/-- The marker stores links without a barrier. -/
theorem enqueue_ok (v : Option Handle) (ho : w.heap.holds o = true) :
    hooks.enqueue ⟨o, .discovered⟩ v w =
      .ok () { w with heap := w.heap.write ⟨o, .discovered⟩ v } :=
  Act.update_ok (Heap.store_ok ho)

/-- Since the world `w₀` nothing was marked, and what was alive is what is marked. -/
structure Steady (w₀ : World Marker) (calls : List Call) (w : World Marker) : Prop where
  objects : w₀.heap.SameObjects w.heap
  collector : w.collector = w₀.collector
  empty : w₀.collector.queue.items = []
  answers : ∀ r answer, .isAlive r answer ∈ calls → w₀.heap.marks r = answer

/-- A marker with an empty queue is steady at the start. -/
theorem Steady.start (hempty : w.collector.queue.items = []) : Steady w [] w :=
  ⟨⟨rfl, rfl, rfl⟩, rfl, hempty, fun _ _ hcall => by cases hcall⟩

/-- A call that is no answer tells nothing about what is alive. -/
theorem Steady.snoc {h : Heap} {call : Call} (hs : Steady w₀ calls w)
    (hh : w.heap.SameObjects h) (hcall : ∀ r answer, call ≠ .isAlive r answer) :
    Steady w₀ (calls ++ [call]) { w with heap := h } where
  objects := hs.objects.trans hh
  collector := hs.collector
  empty := hs.empty
  answers := Truthful.append hs.answers fun r answer hmem =>
    absurd (List.mem_singleton.mp hmem).symm (hcall r answer)

/-- A steady marker serves to resolve lists. -/
theorem steady_resolving (w₀ : World Marker) : hooks.Resolving (Steady w₀) where
  relink hs hh := ⟨hs.objects.trans hh, hs.collector, hs.empty, hs.answers⟩
  store v hs ho :=
    ⟨_, enqueue_ok v ho, .refl _, hs.snoc (Heap.sameObjects_write _ _ _) (by simp)⟩
  complete {calls w} hs := by
    have hempty : w.collector.queue.items = [] := by rw [hs.collector]; exact hs.empty
    exact ⟨w, drain_of_empty hempty, .refl _, hs.snoc ⟨rfl, rfl, rfl⟩ (by simp)⟩
  prepare _ _ _ hs := hs
  enterUnit _ _ hs := hs
  isAlive {calls w r} hs hr := by
    refine ⟨_, w, isMarked_ok hr, .refl _, ⟨hs.objects, hs.collector, hs.empty, ?_⟩⟩
    rw [hs.objects.marks]
    exact Truthful.answer hs.answers r
  keepAlive {calls w o r} hs ho hr hcall := by
    have hm : w.heap.marks r = true := by
      rw [hs.objects.marks]
      exact hs.answers r true hcall
    exact ⟨w, (keepAlive_eq ho).trans (map_ok (fun _ => ()) (markAndPush_of_marks hm)),
      .refl _, hs.snoc ⟨rfl, rfl, rfl⟩ (by simp)⟩

/-- Since the world `w₀` the targets of some references were marked, and some
edges were followed. -/
structure Reviving (w₀ : World Marker) (calls : List Call) (w : World Marker) : Prop where
  size : w.heap.size = w₀.heap.size
  traits : w.heap.traits = w₀.heap.traits
  marking : Marking w
  grown : ∀ o, w₀.heap.marks o = true → w.heap.marks o = true
  kept : ∀ o t, .keepAlive o t ∈ calls → w.heap.marks t = true
  reach : ∀ x, w.heap.marks x = true → w₀.heap.Reaches
    (fun y => w₀.heap.marks y = true ∨ ∃ o, .keepAlive o y ∈ calls) x
  rested : Rested calls → w.collector.queue.items = []
  silent : ∀ r answer, .isAlive r answer ∉ calls

/-- A marker with an empty queue has revived nothing yet. -/
theorem Reviving.start (hmarking : Marking w) (hempty : w.collector.queue.items = []) :
    Reviving w [] w :=
  ⟨rfl, rfl, hmarking, fun _ ho => ho, fun _ _ hcall => (by cases hcall),
    fun _ hx => .base (.inl hx), fun _ => hempty, fun _ _ hcall => by cases hcall⟩

/-- When the work is finished, the marked objects are those that are reached
from the old marks and the kept targets. -/
theorem Reviving.marks_iff (hs : Reviving w₀ calls w) (hrested : Rested calls) (x : Handle) :
    w.heap.marks x = true ↔ w₀.heap.Reaches
      (fun y => w₀.heap.marks y = true ∨ ∃ o, .keepAlive o y ∈ calls) x := by
  refine ⟨hs.reach x, fun hx => ?_⟩
  refine Heap.reaches_of_closed (T := fun x => w.heap.marks x = true) ?_ ?_ hx
  · intro y hcases
    rcases hcases with hy | ⟨o, hcall⟩
    · exact hs.grown y hy
    · exact hs.kept o y hcall
  · intro y hy p hp
    rw [← Heap.edgesOf_congr hs.traits] at hp
    exact hs.marking.closed (hs.rested hrested) y hy p hp

/-- Links do not matter to what was revived. -/
theorem Reviving.relink {h : Heap} (hs : Reviving w₀ calls w) (hh : w.heap.SameObjects h) :
    Reviving w₀ calls { w with heap := h } where
  size := hh.size.trans hs.size
  traits := hh.traits.trans hs.traits
  marking := hs.marking.relink hh
  grown o ho := by rw [hh.marks]; exact hs.grown o ho
  kept o t hcall := by rw [hh.marks]; exact hs.kept o t hcall
  reach x hx := by
    rw [hh.marks] at hx
    exact hs.reach x hx
  rested := hs.rested
  silent := hs.silent

/-- Calls that end in another one than `complete` are not at rest. -/
theorem not_rested_snoc {call : Call} (hcall : call ≠ .complete) :
    ¬ Rested (calls ++ [call]) := by
  intro hlast
  rcases hlast with h | h
  · simp at h
  · rw [List.getLast?_concat] at h
    exact hcall (Option.some.inj h)

/-- More of the same set is reached when it is known with more calls. -/
theorem Reviving.reach_snoc (hs : Reviving w₀ calls w) (call : Call) (x : Handle)
    (hx : w.heap.marks x = true) : w₀.heap.Reaches
      (fun y => w₀.heap.marks y = true ∨ ∃ o, .keepAlive o y ∈ calls ++ [call]) x :=
  (hs.reach x hx).mono fun _ hy =>
    hy.imp id fun ⟨o, hcall⟩ => ⟨o, List.mem_append_left _ hcall⟩

/-- Nobody was asked what is alive. -/
theorem Reviving.silent_snoc (hs : Reviving w₀ calls w) {call : Call}
    (hcall : ∀ r answer, call ≠ .isAlive r answer) (r : Handle) (answer : Bool) :
    .isAlive r answer ∉ calls ++ [call] := by
  intro hmem
  rcases List.mem_append.mp hmem with hmem | hmem
  · exact hs.silent r answer hmem
  · exact hcall r answer (List.mem_singleton.mp hmem).symm

/-- The marker serves to keep final referents alive. -/
theorem reviving_keeping (w₀ : World Marker) : hooks.KeepingFinals (Reviving w₀) where
  relink hs hh := hs.relink hh
  store {calls w o} v hs ho := by
    have hs' := hs.relink (w.heap.sameObjects_write ⟨o, .discovered⟩ v)
    refine ⟨_, enqueue_ok v ho, .refl _, hs'.size, hs'.traits, hs'.marking, hs'.grown, ?_,
      hs'.reach_snoc _, fun hr => absurd hr (not_rested_snoc (by simp)),
      hs.silent_snoc (by simp)⟩
    intro q t hcall
    exact hs'.kept q t (by simpa using hcall)
  complete {calls w} hs := by
    obtain ⟨w', hdrain, hd⟩ := drain_ok hs.marking
    refine ⟨w', hdrain, hd.keeps, hd.size.trans hs.size, hd.traits.trans hs.traits, hd.marking,
      ?_, ?_, ?_, fun _ => hd.empty, hs.silent_snoc (by simp)⟩
    · intro o ho
      exact hd.grown o (hs.grown o ho)
    · intro o t hcall
      exact hd.grown t (hs.kept o t (by simpa using hcall))
    · intro x hx
      exact ((Heap.reaches_congr hs.traits).mp (hd.reach x hx)).trans (hs.reach_snoc _)
  prepare _ _ _ hs := hs
  enterUnit _ _ hs := hs
  keepAlive {calls w o r} hs ho hr := by
    obtain ⟨w', new, hmark, hgrows, -, hmarked, hnew⟩ := markAndPush_ok hr
    refine ⟨w', (keepAlive_eq ho).trans (map_ok (fun _ => ()) hmark), hgrows.keeps,
      hgrows.size.trans hs.size, hgrows.traits.trans hs.traits, hs.marking.grows hgrows,
      fun q hq => (hgrows.marks q).mpr (.inl (hs.grown q hq)), ?_, ?_,
      fun hrest => absurd hrest (not_rested_snoc (by simp)), hs.silent_snoc (by simp)⟩
    · intro q t hcall
      rcases List.mem_append.mp hcall with hcall | hcall
      · exact (hgrows.marks t).mpr (.inl (hs.kept q t hcall))
      · rw [List.mem_singleton, Call.keepAlive.injEq] at hcall
        rw [hcall.2]
        exact hmarked
    · intro x hx
      rcases (hgrows.marks x).mp hx with hold | hx
      · exact hs.reach_snoc _ x hold
      · rw [hnew x hx]
        exact .base (.inr ⟨o, by simp⟩)

end Marker

end Referents
