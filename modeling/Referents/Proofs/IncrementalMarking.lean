import Referents.Proofs.Heap.Growth
import Referents.Proofs.MarkingCollector

/-!
# Marking in increments

A marker is handed objects one after another, and follows edges in between.
Whatever the order, once nothing waits what is marked is what is reached from
the objects that were handed in so far; targets of references are no edges.

The calls of `markAndPush` and their answers are **noted** here, in those that
are made directly and in those that following edges makes.

* `Marker.Noted` — the notes and the counts of a run that returns are right;
  shown along the recursion of the run, whatever it started from.
* `Marker.Handed` — what is marked lies between the objects handed in and what
  is reached from them; kept by every request (`Marker.Request.run_ok`).
* `Marker.increments_mark_reachable` — both put together.
-/

namespace Referents

namespace Heap

variable {h g : Heap} {o : Handle} {s : Slot}

/-- Every link leads to an object of the table. -/
def LinksHeld (h : Heap) : Prop := ∀ a o, h.link a = some o → h.holds o = true

/-- On an untouched graph every link leads to an object. -/
theorem Untouched.linksHeld (hu : h.Untouched) : h.LinksHeld := by
  intro a o ho
  obtain ⟨p, f⟩ := a
  cases f with
  | referent => exact hu.targets p o ho
  | discovered => rw [show h.link ⟨p, .discovered⟩ = none from hu.following p] at ho; cases ho
  | next => rw [show h.link ⟨p, .next⟩ = none from hu.next p] at ho; cases ho

/-- A table that has just grown has no more objects than there are handles. -/
theorem Grown.size_le (hg : Grown s o h g) : g.size ≤ 0xFFFFFFFF := by
  rw [hg.size, ← hg.index]
  exact o.index_lt

/-- There are no more objects than handles. -/
theorem Built.size_le (hb : h.Built) : h.size ≤ 0xFFFFFFFF := by
  induction hb with
  | empty => exact Nat.zero_le _
  | allocate _ hg _ => exact (push_grown hg).size_le
  | allocateReference _ hg _ => exact (allocateReference_grown hg).2.2.size_le
  | addEdge _ hg ih =>
      rw [(addEdge_edged hg).size]
      exact ih

/-- Every object is counted once. -/
theorem objects_nodup (h : Heap) : h.objects.Nodup := by
  refine List.Nodup.filterMap ?_ List.nodup_range
  intro i j o hi hj
  exact (Handle.ofIndex?_eq_some_iff.mp hi).symm.trans (Handle.ofIndex?_eq_some_iff.mp hj)

/-- The census counts the marked objects. -/
theorem census_marked (hsize : h.size ≤ 0xFFFFFFFF) :
    h.census.marked = (h.objects.filter h.marks).length := by
  suffices hplaces : ∀ places : List Nat, (∀ i ∈ places, i < 0xFFFFFFFF) →
      (places.filterMap h.slots.get?).countP Slot.marked =
        ((places.filterMap Handle.ofIndex?).filter h.marks).length by
    refine hplaces (List.range h.size) ?_
    intro i hi
    exact Nat.lt_of_lt_of_le (List.mem_range.mp hi) hsize
  intro places
  induction places with
  | nil => intro _; rfl
  | cons i rest ih =>
      intro hlt
      have hi := hlt i List.mem_cons_self
      have hrest := ih fun j hj => hlt j (List.mem_cons_of_mem i hj)
      have hplace : Handle.ofIndex? i = some ⟨i, hi⟩ := Handle.ofIndex?_eq_some_iff.mpr rfl
      have hmarks : h.marks ⟨i, hi⟩ = (h.slots.get? i).any Slot.marked := rfl
      rw [List.filterMap_cons_some hplace, List.filter_cons, hmarks]
      cases hs : h.slots.get? i with
      | none =>
          rw [List.filterMap_cons_none hs]
          exact hrest
      | some s =>
          rw [List.filterMap_cons_some hs, List.countP_cons, hrest]
          by_cases hm : s.marked = true <;> simp [hm]

/-- Any list of the marked objects without repetitions has the length of the census. -/
theorem length_eq_census {ms : List Handle} (hsize : h.size ≤ 0xFFFFFFFF) (hnodup : ms.Nodup)
    (hms : ∀ o, o ∈ ms ↔ h.marks o = true) : ms.length = h.census.marked := by
  rw [census_marked hsize]
  refine ((List.perm_ext_iff_of_nodup hnodup (h.objects_nodup.filter _)).mpr ?_).length_eq
  intro o
  rw [hms, List.mem_filter, mem_objects]
  exact ⟨fun hm => ⟨holds_of_marks hm, hm⟩, And.right⟩

/-- Only an object of the table can be marked. -/
theorem holds_of_mark {r : Bool × Heap} (hm : h.mark o = .ok r) : h.holds o = true := by
  cases hs : h.slot? o with
  | none => simp [mark, slot, hs, bind, Except.bind] at hm
  | some s => exact holds_iff_slot.mpr ⟨s, hs⟩

end Heap

namespace Marker

/-! ### Requests and notes -/

/-- What a marker is asked for. -/
inductive Request where
  /-- To mark one object. -/
  | mark (o : Handle)
  /-- To mark some roots. -/
  | markAll (objects : List Handle)
  /-- To mark the object in a link field. -/
  | keepAlive (a : LinkAddr)
  /-- To follow edges until nothing waits. -/
  | drain
  /-- To finish its work as the collector of a cycle. -/
  | complete
deriving DecidableEq

/-- An object that was to be marked, and whether it had been unmarked. -/
abbrev Note := Handle × Bool

/-- The objects that were found unmarked. -/
def hits (notes : List Note) : List Handle := (notes.filter Prod.snd).map Prod.fst

/-- Marks an object, and notes the answer. -/
def markNoting (o : Handle) : Act Marker (List Note) := do
  let unmarked ← markAndPush o
  return [(o, unmarked)]

/-- Does something for every item, and puts the notes together. -/
def noteEach {ι : Type} (f : ι → Act Marker (List Note)) : List ι → Act Marker (List Note)
  | [] => return []
  | i :: rest => do
      let notes ← f i
      let more ← noteEach f rest
      return notes ++ more

/-- Marks the objects that `o` has edges to, and notes the answers. -/
def followNoting (o : Handle) : Act Marker (List Note) := do
  noteEach markNoting (← Act.read fun h => h.edges o)

/-- Follows the edges of waiting objects, and notes the answers. -/
def drainFromNoting : Nat → Act Marker (List Note)
  | 0 => throw .endless
  | fuel + 1 => do
      match ← next with
      | none => return []
      | some o => do
          let notes ← followNoting o
          let more ← drainFromNoting fuel
          return notes ++ more

namespace Request

/-- Does what is asked for. -/
def run : Request → Act Marker Unit
  | .mark o => discard (markAndPush o)
  | .markAll objects => Marker.markAll objects
  | .keepAlive a => Marker.keepAlive a
  | .drain => Marker.drain
  | .complete => hooks.complete

/-- Does what is asked for, and notes the answers of `markAndPush`. -/
def runNoting : Request → Act Marker (List Note)
  | .mark o => markNoting o
  | .markAll objects => noteEach markNoting objects
  | .keepAlive a => do
      match ← Act.read fun h => h.load a with
      | none => return []
      | some o => markNoting o
  | .drain | .complete => do drainFromNoting (drainBound (← get))

/-- The request is about objects of the table. -/
def Allowed (h : Heap) : Request → Prop
  | .mark o => h.holds o = true
  | .markAll objects => ∀ o ∈ objects, h.holds o = true
  | .keepAlive a => h.holds a.obj = true
  | .drain | .complete => True

instance decidableAllowed (h : Heap) : (r : Request) → Decidable (r.Allowed h)
  | .mark o => inferInstanceAs (Decidable (h.holds o = true))
  | .markAll objects => inferInstanceAs (Decidable (∀ o ∈ objects, h.holds o = true))
  | .keepAlive a => inferInstanceAs (Decidable (h.holds a.obj = true))
  | .drain | .complete => inferInstanceAs (Decidable True)

/-- The request empties the queue. -/
def Drains : Request → Prop
  | .drain | .complete => True
  | .mark _ | .markAll _ | .keepAlive _ => False

/-- The objects that the request hands in. -/
def handed (h : Heap) : Request → List Handle
  | .mark o => [o]
  | .markAll objects => objects
  | .keepAlive a => (h.link a).toList
  | .drain | .complete => []

/-- What may be asked for depends on the size of the table only. -/
theorem allowed_congr {h g : Heap} (hsize : g.size = h.size) (r : Request) :
    r.Allowed g ↔ r.Allowed h := by
  have hholds : g.holds = h.holds := by
    funext o
    rw [Heap.holds, Heap.holds, hsize]
  cases r <;> simp only [Allowed, hholds]

/-- What a request hands to the marker depends on the links only. -/
theorem handed_congr {h g : Heap} (hlink : g.link = h.link) : handed g = handed h := by
  funext r
  cases r <;> simp only [handed, hlink]

end Request

variable {w w' w'' v : World Marker} {o : Handle} {notes more : List Note} {new : List Handle}
variable {given : List Handle} {r : Request} {rs : List Request}

/-! ### Noting changes nothing -/

/-- Discarding an answer maps it to nothing. -/
theorem discard_eq_map {α : Type} (x : Act Marker α) : discard x = (fun _ => ()) <$> x := by
  show Functor.mapConst () x = _
  rw [LawfulFunctor.map_const]
  rfl

/-- Apart from its note, marking with a note is marking. -/
theorem discard_markNoting (o : Handle) : discard (markNoting o) = discard (markAndPush o) := by
  simp [discard_eq_map, markNoting]

/-- If every single step does the same without its notes, so do all steps together. -/
theorem discard_noteEach {ι : Type} {f : ι → Act Marker (List Note)} {g : ι → Act Marker Unit}
    (hfg : ∀ i, discard (f i) = g i) (l : List ι) : discard (noteEach f l) = l.forM g := by
  induction l with
  | nil => rfl
  | cons i rest ih =>
      show _ = g i >>= fun _ => rest.forM g
      rw [← hfg, ← ih]
      simp [discard_eq_map, noteEach]

/-- Apart from its notes, following edges with notes is following edges. -/
theorem discard_followNoting (o : Handle) : discard (followNoting o) = followEdges o := by
  have hall := fun os => discard_noteEach discard_markNoting os
  simp only [discard_eq_map] at hall
  simp [discard_eq_map, followNoting, followEdges, markAll, hall]

/-- Apart from its notes, draining with notes is draining. -/
theorem discard_drainFromNoting (fuel : Nat) :
    discard (drainFromNoting fuel) = drainFrom fuel := by
  induction fuel with
  | zero => rfl
  | succ fuel ih =>
      have hfollow := discard_followNoting
      simp only [discard_eq_map] at ih hfollow ⊢
      rw [drainFromNoting, drainFrom, map_bind]
      congr 1
      funext o
      cases o with
      | none => simp
      | some o => simp [← ih, ← hfollow]

/-- What is asked for is done the same way when it is noted. -/
theorem Request.discard_runNoting (r : Request) : discard r.runNoting = r.run := by
  cases r with
  | mark o => exact discard_markNoting o
  | markAll objects => exact discard_noteEach discard_markNoting objects
  | keepAlive a =>
      have hmark := discard_markNoting
      simp only [discard_eq_map] at hmark
      rw [discard_eq_map, runNoting, run, Marker.keepAlive, map_bind]
      congr 1
      funext o
      cases o with
      | none => simp
      | some o => simp [discard_eq_map, hmark]
  | drain =>
      have hdrain := discard_drainFromNoting
      simp only [discard_eq_map] at hdrain ⊢
      simp [runNoting, run, Marker.drain, hdrain]
  | complete =>
      have hdrain := discard_drainFromNoting
      simp only [discard_eq_map] at hdrain ⊢
      simp [runNoting, run, hooks, Marker.drain, hdrain]

/-- So is a run of requests that returns. -/
theorem exists_notes (hrun : rs.forM Request.run w = .ok () w') :
    ∃ notes, noteEach Request.runNoting rs w = .ok notes w' := by
  rw [← discard_noteEach Request.discard_runNoting, discard_eq_map] at hrun
  cases hnoting : noteEach Request.runNoting rs w with
  | ok notes v =>
      rw [map_ok _ hnoting] at hrun
      cases hrun
      exact ⟨notes, rfl⟩
  | error e v =>
      have herror := bind_error (f := fun _ => pure ()) hnoting
      rw [map_eq_pure_bind] at hrun
      rw [hrun] at herror
      cases herror

/-! ### The notes and the counts -/

/-- The hits of two lists of notes in a row. -/
theorem hits_append : hits (notes ++ more) = hits notes ++ hits more := by
  rw [hits, hits, hits, List.filter_append, List.map_append]

/-- The notes tell what was marked since the world `w`: each object in them was
unmarked, and was found so once.  The counts of the marker have followed. -/
structure Noted (w : World Marker) (notes : List Note) (w' : World Marker) : Prop where
  marks : ∀ o, w'.heap.marks o = true ↔ w.heap.marks o = true ∨ o ∈ hits notes
  fresh : ∀ o ∈ hits notes, w.heap.marks o = false
  nodup : (hits notes).Nodup
  tallied : ∀ seen, Tallied seen w → ∃ taken, Tallied (seen ++ taken) w'

namespace Noted

theorem refl (w : World Marker) : Noted w [] w where
  marks o := by simp [hits]
  fresh o ho := by cases ho
  nodup := List.nodup_nil
  tallied seen ht := ⟨[], by simpa using ht⟩

/-- Notes are put together, since what was marked in the first part is not found again. -/
theorem trans (h : Noted w notes w') (h' : Noted w' more w'') : Noted w (notes ++ more) w'' where
  marks o := by rw [h'.marks, h.marks, hits_append, List.mem_append, or_assoc]
  fresh o ho := by
    rw [hits_append] at ho
    rcases List.mem_append.mp ho with ho | ho
    · exact h.fresh o ho
    · by_contra hm
      have hfresh := h'.fresh o ho
      rw [(h.marks o).mpr (.inl (by simpa using hm))] at hfresh
      cases hfresh
  nodup := by
    rw [hits_append]
    refine List.nodup_append.mpr ⟨h.nodup, h'.nodup, ?_⟩
    intro o ho p hp hop
    have hfresh := h'.fresh p hp
    rw [(h.marks p).mpr (.inr (hop ▸ ho))] at hfresh
    cases hfresh
  tallied seen ht := by
    obtain ⟨taken, ht'⟩ := h.tallied seen ht
    obtain ⟨taken', ht''⟩ := h'.tallied _ ht'
    exact ⟨taken ++ taken', by rwa [← List.append_assoc]⟩

/-- Marking the objects that were hit. -/
theorem of_grows (hg : Grows w (hits notes) w') : Noted w notes w' where
  marks := hg.marks
  fresh := hg.fresh
  nodup := hg.nodup
  tallied seen ht := ⟨[], by simpa using ht.grows hg⟩

/-- Taking an object out of the queue. -/
theorem of_takes {rest : List Handle} (ht : Takes w o rest w') : Noted w [] w' where
  marks p := by simp [ht.heap, hits]
  fresh p hp := by cases hp
  nodup := List.nodup_nil
  tallied seen htallied := ⟨[o], htallied.takes ht⟩

end Noted

/-- Only an object of the table is marked and put in the queue. -/
theorem holds_of_markAndPush {b : Bool} (hrun : markAndPush o w = .ok b w') :
    w.heap.holds o = true := by
  obtain ⟨unmarked, v, htransform, -⟩ := exists_of_bind_ok hrun
  obtain ⟨r, u, hread, -⟩ := exists_of_bind_ok htransform
  exact Heap.holds_of_mark (Act.eq_of_read_ok hread).2

/-- Marking an object, or finding it marked, is told truly by its note. -/
theorem markNoting_noted (hrun : markNoting o w = .ok notes w') : Noted w notes w' := by
  obtain ⟨unmarked, v, hmark, hnotes⟩ := exists_of_bind_ok hrun
  cases hnotes
  obtain ⟨v, new, hmark', hgrows, -, hmarked, hnew⟩ := markAndPush_ok (holds_of_markAndPush hmark)
  rw [hmark] at hmark'
  cases hmark'
  refine .of_grows ?_
  cases hm : w.heap.marks o with
  | true =>
      -- an object that is marked already is not hit
      have hnone : new = [] := by
        refine List.eq_nil_iff_forall_not_mem.mpr fun p hp => ?_
        have hfresh := hgrows.fresh p hp
        rw [hnew p hp, hm] at hfresh
        cases hfresh
      rw [hnone] at hgrows
      exact hgrows
  | false =>
      have hmem : o ∈ new := ((hgrows.marks o).mp hmarked).resolve_left (by simp [hm])
      have hone : new = [o] :=
        List.perm_singleton.mp ((List.perm_ext_iff_of_nodup hgrows.nodup (List.nodup_singleton o)).mpr
          fun p => ⟨fun hp => List.mem_singleton.mpr (hnew p hp),
            fun hp => List.mem_singleton.mp hp ▸ hmem⟩)
      rw [hone] at hgrows
      exact hgrows

/-- Notes that are true for every item are true for all items. -/
theorem noteEach_noted {ι : Type} {f : ι → Act Marker (List Note)} {l : List ι}
    (hf : ∀ i w w' notes, f i w = .ok notes w' → Noted w notes w')
    (hrun : noteEach f l w = .ok notes w') : Noted w notes w' := by
  induction l generalizing w notes with
  | nil =>
      cases hrun
      exact .refl _
  | cons i rest ih =>
      obtain ⟨first, v, hi, hrun⟩ := exists_of_bind_ok hrun
      obtain ⟨others, u, hrest, hnotes⟩ := exists_of_bind_ok hrun
      cases hnotes
      exact (hf i _ _ _ hi).trans (ih hrest)

/-- The notes of one object's edges are true. -/
theorem followNoting_noted (hrun : followNoting o w = .ok notes w') : Noted w notes w' := by
  obtain ⟨edges, v, hread, hmarks⟩ := exists_of_bind_ok hrun
  obtain ⟨rfl, -⟩ := Act.eq_of_read_ok hread
  exact noteEach_noted (fun _ _ _ _ => markNoting_noted) hmarks

/-- The notes of a drain are true. -/
theorem drainFromNoting_noted {fuel : Nat} (hrun : drainFromNoting fuel w = .ok notes w') :
    Noted w notes w' := by
  induction fuel generalizing w notes with
  | zero => cases hrun
  | succ fuel ih =>
      cases hitems : w.collector.queue.items with
      | nil =>
          rw [drainFromNoting, bind_ok (next_of_empty hitems)] at hrun
          cases hrun
          exact .refl _
      | cons o rest =>
          obtain ⟨v, hnext, htakes⟩ := next_of_cons hitems
          rw [drainFromNoting, bind_ok hnext] at hrun
          obtain ⟨first, u, hfollow, hrun⟩ := exists_of_bind_ok hrun
          obtain ⟨others, t, hdrain, hnotes⟩ := exists_of_bind_ok hrun
          cases hnotes
          exact (Noted.of_takes htakes).trans ((followNoting_noted hfollow).trans (ih hdrain))

/-- The notes of a request are right, whatever the marker has done before. -/
theorem Request.runNoting_noted (hrun : r.runNoting w = .ok notes w') : Noted w notes w' := by
  cases r with
  | mark o => exact markNoting_noted hrun
  | markAll objects => exact noteEach_noted (fun _ _ _ _ => markNoting_noted) hrun
  | keepAlive a =>
      obtain ⟨target, v, hread, hmark⟩ := exists_of_bind_ok hrun
      obtain ⟨rfl, -⟩ := Act.eq_of_read_ok hread
      cases target with
      | none =>
          cases hmark
          exact .refl _
      | some o => exact markNoting_noted hmark
  | drain => exact drainFromNoting_noted ((bind_ok (get_ok w)).symm.trans hrun)
  | complete => exact drainFromNoting_noted ((bind_ok (get_ok w)).symm.trans hrun)

/-! ### What is handed in and what is reached -/

/-- The objects in `given` were handed in since the world `v`: they are marked,
and what is marked is reached from them. -/
structure Handed (v : World Marker) (given : List Handle) (w : World Marker) : Prop where
  size : w.heap.size = v.heap.size
  traits : w.heap.traits = v.heap.traits
  link : ∀ a, v.heap.holds a.obj = true → w.heap.link a = v.heap.link a
  marking : Marking w
  kept : ∀ o ∈ given, w.heap.marks o = true
  reach : ∀ o, w.heap.marks o = true → v.heap.Reaches (· ∈ given) o

namespace Handed

/-- A marker that was reset has been handed nothing, and has marked nothing. -/
theorem start (hedges : v.heap.EdgesHeld) (hreset : v.collector = {})
    (hunmarked : ∀ o, v.heap.marks o = false) : Handed v [] v where
  size := rfl
  traits := rfl
  link _ _ := rfl
  marking := .of_closed hedges (by rw [hreset]; rfl) fun o ho => by simp [hunmarked] at ho
  kept o ho := by cases ho
  reach o ho := by simp [hunmarked] at ho

/-- Marking keeps what is in the table. -/
theorem holds (hs : Handed v given w) (o : Handle) : w.heap.holds o = v.heap.holds o := by
  rw [Heap.holds, Heap.holds, hs.size]

/-- More objects are handed in, and those that were not marked wait. -/
theorem grows {next : List Handle} (hs : Handed v given w) (hg : Grows w new w')
    (hnew : ∀ p ∈ new, p ∈ next) (hnext : ∀ o ∈ next, w'.heap.marks o = true) :
    Handed v (given ++ next) w' where
  size := hg.size.trans hs.size
  traits := hg.traits.trans hs.traits
  link a ha := (congrFun hg.link a).trans (hs.link a ha)
  marking := hs.marking.grows hg
  kept o ho := by
    rcases List.mem_append.mp ho with ho | ho
    · exact (hg.marks o).mpr (.inl (hs.kept o ho))
    · exact hnext o ho
  reach o ho := by
    rcases (hg.marks o).mp ho with ho | ho
    · exact (hs.reach o ho).mono fun q hq => List.mem_append_left _ hq
    · exact .base (List.mem_append_right _ (hnew o ho))

/-- Edges were followed. -/
theorem drained (hs : Handed v given w) (hd : Drained (fun _ => False) w w') :
    Handed v given w' where
  size := hd.size.trans hs.size
  traits := hd.traits.trans hs.traits
  link a ha := (hd.keeps.link_eq (by rw [hs.holds]; exact ha)).trans (hs.link a ha)
  marking := hd.marking
  kept o ho := hd.grown o (hs.kept o ho)
  reach o ho := ((Heap.reaches_congr hs.traits).mp (hd.reach o ho)).trans hs.reach

/-- Once nothing waits, what is marked is what is reached. -/
theorem marks_iff (hs : Handed v given w) (hempty : w.collector.queue.items = []) (o : Handle) :
    w.heap.marks o = true ↔ v.heap.Reaches (· ∈ given) o := by
  refine ⟨hs.reach o, fun ho => ?_⟩
  refine Heap.reaches_of_closed (T := fun o => w.heap.marks o = true) hs.kept ?_ ho
  intro p hp q hq
  rw [← Heap.edgesOf_congr hs.traits] at hq
  exact hs.marking.closed hempty p hp q hq

end Handed

/-- A request returns, and hands in what it is about. -/
theorem Request.run_ok (hs : Handed v given w) (hlinks : v.heap.LinksHeld)
    (hr : r.Allowed v.heap) :
    ∃ w', r.run w = .ok () w' ∧ Handed v (given ++ r.handed v.heap) w' ∧
      (r.Drains → w'.collector.queue.items = []) := by
  have hmark : ∀ o, v.heap.holds o = true →
      ∃ w', (discard (markAndPush o) : Act Marker Unit) w = .ok () w' ∧
        Handed v (given ++ [o]) w' := by
    intro o ho
    obtain ⟨w', new, hmark, hgrows, -, hmarked, hnew⟩ :=
      markAndPush_ok (w := w) (by rw [hs.holds]; exact ho)
    refine ⟨w', map_ok (fun _ => ()) hmark, hs.grows hgrows ?_ ?_⟩
    · intro p hp
      exact List.mem_singleton.mpr (hnew p hp)
    · intro p hp
      rw [List.mem_singleton.mp hp]
      exact hmarked
  have hdrain : ∃ w', Marker.drain w = .ok () w' ∧ Handed v (given ++ []) w' ∧
      w'.collector.queue.items = [] := by
    obtain ⟨w', hrun, hd⟩ := drain_ok hs.marking
    exact ⟨w', hrun, by simpa using hs.drained hd, hd.empty⟩
  cases r with
  | mark o =>
      obtain ⟨w', hrun, hs'⟩ := hmark o hr
      exact ⟨w', hrun, hs', False.elim⟩
  | markAll objects =>
      have hheld : ∀ o ∈ objects, w.heap.holds o = true := by
        intro o ho
        rw [hs.holds]
        exact hr o ho
      obtain ⟨w', new, hrun, hgrows, -, hmarked, hnew⟩ := markAll_ok hheld
      exact ⟨w', hrun, hs.grows hgrows hnew hmarked, False.elim⟩
  | keepAlive a =>
      have ha : w.heap.holds a.obj = true := by rw [hs.holds]; exact hr
      have hload : (Act.read fun h => h.load a : Act Marker (Option Handle)) w =
          .ok (v.heap.link a) w :=
        Act.read_ok ((Heap.load_ok ha).trans (congrArg Except.ok (hs.link a hr)))
      cases htarget : v.heap.link a with
      | none =>
          rw [htarget] at hload
          refine ⟨w, (bind_ok hload).trans rfl, ?_, False.elim⟩
          simpa [handed, htarget] using hs
      | some o =>
          rw [htarget] at hload
          obtain ⟨w', hrun, hs'⟩ := hmark o (hlinks a o htarget)
          refine ⟨w', (bind_ok hload).trans hrun, ?_, False.elim⟩
          simpa [handed, htarget] using hs'
  | drain =>
      obtain ⟨w', hrun, hs', hempty⟩ := hdrain
      exact ⟨w', hrun, hs', fun _ => hempty⟩
  | complete =>
      obtain ⟨w', hrun, hs', hempty⟩ := hdrain
      exact ⟨w', hrun, hs', fun _ => hempty⟩

/-- So does a run of requests; if the last one empties the queue, nothing waits. -/
theorem requests_ok (hs : Handed v given w) (hlinks : v.heap.LinksHeld)
    (hrs : ∀ r ∈ rs, r.Allowed v.heap) :
    ∃ w', rs.forM Request.run w = .ok () w' ∧
      Handed v (given ++ rs.flatMap (Request.handed v.heap)) w' ∧
      ∀ r, rs.getLast? = some r → r.Drains → w'.collector.queue.items = [] := by
  induction rs generalizing w given with
  | nil => exact ⟨w, rfl, by simpa using hs, fun r hr => by cases hr⟩
  | cons r rest ih =>
      obtain ⟨w₁, hrun, hs₁, hempty⟩ := Request.run_ok hs hlinks (hrs r List.mem_cons_self)
      obtain ⟨w', hrest, hs', hlast⟩ := ih hs₁ fun q hq => hrs q (List.mem_cons_of_mem r hq)
      refine ⟨w', (bind_ok hrun).trans hrest, by simpa using hs', ?_⟩
      intro q hq hdrains
      cases rest with
      | nil =>
          cases hrest
          rw [List.getLast?_singleton] at hq
          cases hq
          exact hempty hdrains
      | cons p rest => exact hlast q (by rwa [List.getLast?_cons_cons] at hq) hdrains

end Marker

open Marker

/-- The marker is reset on a graph that was built by allocations and new edges,
and is handed objects in any number of increments.  When it has followed all
edges, what is marked is what is reached from these objects along edges.  Each
marked object was found unmarked once, and all counts agree with the census. -/
theorem increments_mark_reachable {w : World Marker} (hb : w.heap.clearMarks.Built)
    {rs : List Request} (hrs : ∀ r ∈ rs, r.Allowed w.heap)
    (hlast : rs.getLast? = some .drain ∨ rs.getLast? = some .complete) :
    ∃ v w' notes, reset w = .ok () v ∧ rs.forM Request.run v = .ok () w' ∧
      noteEach Request.runNoting rs v = .ok notes w' ∧
      (∀ o, w'.heap.marks o = true ↔
        w.heap.Reaches (· ∈ rs.flatMap (Request.handed w.heap)) o) ∧
      (hits notes).Nodup ∧ (∀ o, o ∈ hits notes ↔ w'.heap.marks o = true) ∧
      w'.collector.marked = w'.heap.census.marked ∧
      w'.collector.queue.enqueued = w'.heap.census.marked ∧
      w'.collector.queue.processed = w'.heap.census.marked := by
  have hu := hb.untouched
  have hallowed : ∀ r ∈ rs, r.Allowed w.heap.clearMarks := fun r hr =>
    (r.allowed_congr Heap.size_clearMarks).mpr (hrs r hr)
  have hstart : Handed ⟨w.heap.clearMarks, {}⟩ [] ⟨w.heap.clearMarks, {}⟩ :=
    .start hu.edges rfl hu.marks
  obtain ⟨w', hrun, hs, hdrained⟩ := requests_ok hstart hu.linksHeld hallowed
  obtain ⟨notes, hnoting⟩ := exists_notes hrun
  have hnoted := noteEach_noted (fun _ _ _ _ => Request.runNoting_noted) hnoting
  obtain ⟨seen, ht⟩ := hnoted.tallied [] (.start rfl hu.marks)
  have hempty : w'.collector.queue.items = [] := by
    rcases hlast with hlast | hlast
    · exact hdrained _ hlast trivial
    · exact hdrained _ hlast trivial
  have hsize : w'.heap.size ≤ 0xFFFFFFFF := by
    rw [hs.size]
    exact hb.size_le
  have hcensus : seen.length = w'.heap.census.marked := by
    refine Heap.length_eq_census hsize (by simpa [hempty] using ht.nodup) fun o => ?_
    rw [ht.marks, hempty, List.nil_append, List.append_nil]
  refine ⟨_, w', notes, rfl, hrun, hnoting, ?_, hnoted.nodup, ?_, ?_, ?_, ?_⟩
  · intro o
    rw [hs.marks_iff hempty, Heap.reaches_congr Heap.traits_clearMarks, List.nil_append,
      Request.handed_congr Heap.link_clearMarks]
  · intro o
    rw [hnoted.marks, hu.marks]
    simp
  · rw [ht.counted, hempty, ← hcensus]
    simp
  · rw [ht.enqueued, hempty, ← hcensus]
    simp
  · rw [ht.processed, ← hcensus]
    simp

/-- A ring of the objects 0 and 1; the latter has another edge to the weak
reference 3, whose target is the object 2. -/
def ringHeap : Heap where
  slots := (((Table.empty.push
    { Slot.fresh none .young none with edges := [.low 1] }).push
    { Slot.fresh none .young none with edges := [.low 0, .low 3] }).push
    (.fresh none .young none)).push
    (.fresh (some .weak) .young (some (.low 2)))
  pending := .null

/-- The graph of the example was built by a program. -/
theorem ringHeap_built : ringHeap.Built := by
  obtain ⟨h₁, hh₁⟩ : ∃ h, Heap.empty.allocate .young = .ok (.low 0, h) := ⟨_, rfl⟩
  obtain ⟨h₂, hh₂⟩ : ∃ h, h₁.allocate .young = .ok (.low 1, h) := by cases hh₁; exact ⟨_, rfl⟩
  obtain ⟨h₃, hh₃⟩ : ∃ h, h₂.allocate .young = .ok (.low 2, h) := by
    cases hh₁; cases hh₂; exact ⟨_, rfl⟩
  obtain ⟨h₄, hh₄⟩ : ∃ h, h₃.allocateReference (some .weak) (some (.low 2)) .young =
      .ok (.low 3, h) := by cases hh₁; cases hh₂; cases hh₃; exact ⟨_, rfl⟩
  obtain ⟨h₅, hh₅⟩ : ∃ h, h₄.addEdge (.low 0) (.low 1) = .ok h := by
    cases hh₁; cases hh₂; cases hh₃; cases hh₄; exact ⟨_, rfl⟩
  obtain ⟨h₆, hh₆⟩ : ∃ h, h₅.addEdge (.low 1) (.low 0) = .ok h := by
    cases hh₁; cases hh₂; cases hh₃; cases hh₄; cases hh₅; exact ⟨_, rfl⟩
  have hh₇ : h₆.addEdge (.low 1) (.low 3) = .ok ringHeap := by
    cases hh₁; cases hh₂; cases hh₃; cases hh₄; cases hh₅; cases hh₆; rfl
  have hobjects : h₄.Built :=
    .allocateReference (.allocate (.allocate (.allocate .empty hh₁) hh₂) hh₃) hh₄
  exact .addEdge (.addEdge (.addEdge hobjects hh₅) hh₆) hh₇

/-- The target of the weak reference is marked when it is handed in, and not before. -/
theorem increments_mark_reachable_ring : ringHeap.clearMarks.Built ∧
    (∃ v w', reset ⟨ringHeap, { marked := 7 }⟩ = .ok () v ∧
      [Request.mark (.low 0), .drain].forM Request.run v = .ok () w' ∧
      w'.heap.marks (.low 3) = true ∧ w'.heap.marks (.low 2) = false ∧
      w'.collector.marked = 3) ∧
    ∃ v w' notes, reset ⟨ringHeap, { marked := 7 }⟩ = .ok () v ∧
      [Request.mark (.low 0), .drain, .markAll [.low 3, .low 1], .keepAlive ⟨.low 3, .referent⟩,
        .complete].forM Request.run v = .ok () w' ∧
      noteEach Request.runNoting [Request.mark (.low 0), .drain, .markAll [.low 3, .low 1],
        .keepAlive ⟨.low 3, .referent⟩, .complete] v = .ok notes w' ∧
      hits notes = [.low 0, .low 1, .low 3, .low 2] ∧ w'.collector.queue.processed = 4 := by
  have hbuilt : ringHeap.clearMarks.Built := ringHeap_built
  have hallowed₁ : ∀ r ∈ [Request.mark (.low 0), .drain], r.Allowed ringHeap := by decide
  have hallowed₂ : ∀ r ∈ [Request.mark (.low 0), .drain, .markAll [.low 3, .low 1],
      .keepAlive ⟨.low 3, .referent⟩, .complete], r.Allowed ringHeap := by decide
  obtain ⟨v₁, w₁, -, hreset₁, hrun₁, -⟩ :=
    increments_mark_reachable (w := ⟨ringHeap, { marked := 7 }⟩) hbuilt hallowed₁ (.inl rfl)
  obtain ⟨v₂, w₂, notes, hreset₂, hrun₂, hnoting, -⟩ :=
    increments_mark_reachable (w := ⟨ringHeap, { marked := 7 }⟩) hbuilt hallowed₂ (.inr rfl)
  obtain ⟨_, u₁, hu₁, hfirst⟩ := exists_of_run (x := [.mark (.low 0), .drain].forM Request.run)
    (s := ⟨ringHeap.clearMarks, {}⟩)
    (P := fun _ w => w.heap.marks (.low 3) = true ∧ w.heap.marks (.low 2) = false ∧
      w.collector.marked = 3) (by decide +kernel)
  obtain ⟨notes', u₂, hu₂, hsecond⟩ := exists_of_run
    (x := noteEach Request.runNoting [.mark (.low 0), .drain, .markAll [.low 3, .low 1],
      .keepAlive ⟨.low 3, .referent⟩, .complete])
    (s := ⟨ringHeap.clearMarks, {}⟩)
    (P := fun notes w => hits notes = [.low 0, .low 1, .low 3, .low 2] ∧
      w.collector.queue.processed = 4) (by decide +kernel)
  cases hreset₁
  cases hreset₂
  rw [hu₁] at hrun₁
  cases hrun₁
  rw [hu₂] at hnoting
  cases hnoting
  exact ⟨hbuilt, ⟨_, w₁, rfl, hu₁, of_decide_eq_true hfirst⟩,
    _, w₂, notes, rfl, hrun₂, hu₂, of_decide_eq_true hsecond⟩

end Referents
