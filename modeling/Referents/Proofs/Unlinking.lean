import Referents.Discovery
import Referents.Proofs.Discovery
import Referents.Proofs.Heap.Trail

/-!
# Taking lists and chains apart

Taking a chain apart nulls the links of its members one after the other.  Each
link is read before it is nulled, so the walk ends where the trail of its head
ends: at null, or at an object whose link it has nulled.

* `Heap.Trail.unlink_ok`, `Heap.unlink_ok` — a discovered list is taken apart.
* `Heap.Trail.takePending_ok`, `Heap.takePending_ok` — the pending chain is taken apart,
  and its members are returned in order.
* `Heap.takePending_into` — a chain that runs into a list gives one member twice.
* `Processor.abandon_ok` — all lists of a processor are taken apart.
-/

namespace Referents

namespace Heap

variable {h g : Heap} {o : Handle} {stop : Option Handle} {ms ps : List Handle}
variable {S : Handle → Prop}

/-- The links of some objects are nulled. -/
def detachAll (h : Heap) (ms : List Handle) : Heap :=
  ms.foldl (fun h o => h.write ⟨o, .discovered⟩ none) h

/-- Detaching an object returns what followed it, and sets its link to null. -/
theorem detach_ok (ho : h.holds o = true) :
    h.detach o = .ok (h.following o, h.write ⟨o, .discovered⟩ none) := by
  unfold detach
  exact (except_bind_ok (discovered_ok ho)).trans (except_bind_ok (setDiscovered_ok ho))

/-- Detaching objects changes their links only. -/
theorem relinks_detachAll (h : Heap) (ms : List Handle) : h.Relinks (· ∈ ms) (h.detachAll ms) := by
  induction ms generalizing h with
  | nil => exact .refl _ h
  | cons o rest ih =>
      exact (relinks_write (S := (· ∈ o :: rest)) List.mem_cons_self).trans
        ((ih _).mono fun p hp => List.mem_cons_of_mem o hp)

/-- A detached object links to nothing. -/
theorem following_detachAll (hheld : ∀ o ∈ ms, h.holds o = true) (ho : o ∈ ms) :
    (h.detachAll ms).following o = none := by
  induction ms generalizing h with
  | nil => cases ho
  | cons p rest ih =>
      have hrest : ∀ q ∈ rest, (h.write ⟨p, .discovered⟩ none).holds q = true := fun q hq => by
        rw [holds_write]
        exact hheld q (List.mem_cons_of_mem p hq)
      by_cases hor : o ∈ rest
      · exact ih hrest hor
      · have hop : o = p := (List.mem_cons.mp ho).resolve_right hor
        have hlink := (relinks_detachAll (h.write ⟨p, .discovered⟩ none) rest).link
          ⟨o, .discovered⟩ fun _ => hor
        rw [detachAll, List.foldl_cons]
        refine hlink.trans ?_
        rw [hop]
        exact link_write_self (hheld p List.mem_cons_self)

/-- Detaching an object that links to nothing changes nothing. -/
theorem detach_of_unlinked (ho : h.holds o = true) (hfree : h.following o = none) :
    h.detach o = .ok (none, h) := by
  rw [detach_ok ho, hfree, write_link hfree ho]

/-- Taking a list apart nulls the links of what remains of its trail.  It stops early at a
member that links to itself, which is the last one. -/
theorem Remains.unlinkFrom_ok (hr : h.Remains stop ms) {fuel : Nat} (hfuel : ms.length < fuel) :
    unlinkFrom fuel h (ms.head?.or stop) = .ok (h.detachAll ms) := by
  induction ms generalizing h fuel with
  | nil =>
      cases hstop : stop with
      | none => cases fuel <;> rfl
      | some o =>
          obtain ⟨fuel, rfl⟩ : ∃ n, fuel = n + 1 := ⟨fuel - 1, by omega⟩
          obtain ⟨ho, hfree⟩ := (hr.stop o hstop).resolve_left List.not_mem_nil
          refine (except_bind_ok (detach_of_unlinked ho hfree)).trans ?_
          cases fuel <;> rfl
  | cons o rest ih =>
      obtain ⟨fuel, rfl⟩ : ∃ n, fuel = n + 1 := ⟨fuel - 1, by omega⟩
      have hdetach := detach_ok (hr.held o List.mem_cons_self)
      have hrest := ih hr.detach (Nat.lt_of_succ_lt_succ hfuel)
      rw [← hr.linked.1] at hrest
      refine (except_bind_ok hdetach).trans ?_
      dsimp only
      by_cases hself : h.following o = some o
      · have hlast : rest = [] := by
          cases rest with
          | nil => rfl
          | cons p rest =>
              have hp : p = o := by simpa [hself] using hr.linked.1.symm
              exact absurd (hp ▸ List.mem_cons_self) (List.nodup_cons.mp hr.nodup).1
        rw [if_pos hself, hlast]
        rfl
      · rw [if_neg hself]
        exact hrest

/-- Unlinking a trail detaches its objects. -/
theorem Trail.unlink_ok {head : Option Handle} (ht : h.Trail head stop ms) :
    h.unlink head = .ok (h.detachAll ms) := by
  have hlength := length_le_size ht.nodup ht.held
  have hfuel : ms.length < h.size + 2 := by omega
  have hunlink := ht.remains.unlinkFrom_ok hfuel
  rwa [ht.head_eq] at hunlink

/-- Unlinking a list detaches its members. -/
theorem unlink_ok {l : DiscoveredList} (hl : l.Lists h ms) :
    h.unlink l.head = .ok (h.detachAll ms) := hl.trail.unlink_ok

/-- Draining a chain nulls the links of what remains of its trail.  The object that the last
link leads to is met once more, since its link is null only then. -/
theorem Remains.drainFrom_ok (hr : h.Remains stop ms) {fuel : Nat} (hfuel : ms.length < fuel) :
    drainFrom fuel (ms.head?.or stop) h = .ok (ms ++ stop.toList) (h.detachAll ms) := by
  induction ms generalizing h fuel with
  | nil =>
      cases hstop : stop with
      | none => cases fuel <;> rfl
      | some o =>
          obtain ⟨fuel, rfl⟩ : ∃ n, fuel = n + 1 := ⟨fuel - 1, by omega⟩
          obtain ⟨ho, hfree⟩ := (hr.stop o hstop).resolve_left List.not_mem_nil
          have hend : drainFrom fuel none h = .ok [] h := by cases fuel <;> rfl
          simp only [List.head?_nil, Option.none_or, drainFrom, detach_of_unlinked ho hfree, hend]
          rfl
  | cons o rest ih =>
      obtain ⟨fuel, rfl⟩ : ∃ n, fuel = n + 1 := ⟨fuel - 1, by omega⟩
      have hdetach := detach_ok (hr.held o List.mem_cons_self)
      have hrest := ih hr.detach (Nat.lt_of_succ_lt_succ hfuel)
      rw [← hr.linked.1] at hrest
      simp only [List.head?_cons, Option.some_or, drainFrom, hdetach, hrest]
      rfl

/-- The trail of the pending head is taken, and nothing is pending any more.  Where it leads
back to one of its members, that member is returned twice. -/
theorem Trail.takePending_ok (ht : h.Trail h.pendingHead stop ps) :
    h.takePending = .ok (ps ++ stop.toList) ((h.withPending none).detachAll ps) := by
  have hlength := length_le_size ht.nodup ht.held
  have hfuel : ps.length < h.size + 2 := by omega
  have hdrain := (ht.withPending none).remains.drainFrom_ok hfuel
  rw [ht.head_eq] at hdrain
  exact hdrain

/-- The pending chain is taken, and nothing is pending any more. -/
theorem takePending_ok (hps : h.Pends ps) :
    h.takePending = .ok ps ((h.withPending none).detachAll ps) := by
  have htake := hps.trail.takePending_ok
  rwa [Option.toList_none, List.append_nil] at htake

/-- A pending chain that runs into a list at its member `o` is taken up to the last member
of the list, and this one is returned twice. -/
theorem takePending_into {l : DiscoveredList} {front before after : List Handle}
    (hl : l.Lists h (before ++ o :: after)) (hhead : h.pendingHead = (front ++ [o]).head?)
    (hlinked : h.Linked (some o) front) (hnodup : front.Nodup)
    (hheld : ∀ x ∈ front, h.holds x = true) (hapart : ∀ x ∈ front, x ∉ before ++ o :: after) :
    ∃ handed g, h.takePending = .ok handed g ∧ ¬ handed.Nodup := by
  have hlast : (front ++ o :: after).getLast? = (before ++ o :: after).getLast? := by
    rw [List.getLast?_append, List.getLast?_append, List.getLast?_cons]
    rfl
  have hrest : h.Linked (before ++ o :: after).getLast? (o :: after) :=
    (linked_append.mp hl.linked).2
  have hchain : (front ++ o :: after).Nodup :=
    List.nodup_append.mpr ⟨hnodup, (List.nodup_append.mp hl.nodup).2.1, fun x hx y hy hxy =>
      hapart x hx (List.mem_append_right _ (hxy ▸ hy))⟩
  have hmembers : ∀ x ∈ front ++ o :: after, h.holds x = true := fun x hx =>
    (List.mem_append.mp hx).elim (hheld x) fun hx => hl.held x (List.mem_append_right _ hx)
  have htrail : h.Trail h.pendingHead (before ++ o :: after).getLast? (front ++ o :: after) :=
    ⟨by rw [hhead]; cases front <;> rfl, linked_append.mpr ⟨hlinked, hrest⟩, hchain, hmembers,
      fun x hx => List.mem_of_getLast? (hlast.trans hx)⟩
  refine ⟨_, _, htrail.takePending_ok, fun hall => ?_⟩
  obtain ⟨x, hx⟩ : ∃ x, (front ++ o :: after).getLast? = some x := by
    rw [List.getLast?_append, List.getLast?_cons]
    exact ⟨_, rfl⟩
  rw [← hlast, hx] at hall
  exact (List.nodup_append.mp hall).2.2 x (List.mem_of_getLast? hx) x
    (List.mem_singleton_self x) rfl

end Heap

variable {p : Processor} {h g : Heap} {r : Roster} {ps : List Handle}

/-- After the pending chain was taken its members are in no place, and the lists
are as they were. -/
theorem Registered.takePending (hr : Registered p h r ps) :
    Registered p ((h.withPending none).detachAll ps) r [] := by
  have hrelinks := Heap.relinks_detachAll (h.withPending none) ps
  have hlink : ∀ k q, ∀ o ∈ r k q,
      ((h.withPending none).detachAll ps).following o = h.following o := fun k q o ho =>
    hrelinks.link ⟨o, .discovered⟩ fun _ hm => hr.free k q o ho hm
  constructor
  case size => exact hr.size
  case spread =>
    intro k
    refine (hr.spread k).congr (hlink k) fun o ho => ?_
    rw [hrelinks.holds_eq]
    exact ho
  case kinds =>
    intro k q o ho
    rw [Heap.kindOf_congr hrelinks.objects.traits]
    exact hr.kinds k q o ho
  case pending =>
    exact ⟨hrelinks.pending.trans (Heap.pendingHead_withPending h none), trivial, List.nodup_nil,
      fun _ ho => (nomatch ho)⟩
  case free => exact fun _ _ _ _ ho => nomatch ho

/-- All links are covered once the pending references were taken. -/
theorem Roster.Covers.takePending (hc : r.Covers h ps) (hheld : ∀ o ∈ ps, h.holds o = true) :
    r.Covers ((h.withPending Option.none).detachAll ps) [] := by
  intro o ho
  have hnot : o ∉ ps := fun hm => ho (Heap.following_detachAll hheld hm)
  have hlink := (Heap.relinks_detachAll (h.withPending Option.none) ps).link
    ⟨o, .discovered⟩ fun _ => hnot
  exact .inl ((hc o fun e => ho (hlink.trans e)).resolve_right hnot)

namespace Processor

/-- What is among all lists is the list of its place. -/
theorem mem_allLists {x : RefKind × Nat × DiscoveredList} (hx : x ∈ p.allLists) :
    (p.listsOf x.1)[x.2.1]? = some x.2.2 := by
  obtain ⟨k, -, hk⟩ := List.mem_flatMap.mp hx
  obtain ⟨y, hy, rfl⟩ := List.mem_map.mp hk
  have hget := List.mk_mem_zipIdx_iff_getElem?.mp hy
  rwa [Array.getElem?_toList] at hget

/-- Every kind and queue has its place, in order. -/
theorem places_allLists (p : Processor) : (p.allLists.map fun x => (x.1, x.2.1)) =
    RefKind.all.flatMap fun k => (List.range (p.listsOf k).size).map fun q => (k, q) := by
  simp only [allLists, List.map_flatMap, List.map_map]
  refine congrArg (RefKind.all.flatMap ·) (funext fun k => ?_)
  have hsnd := List.zipIdx_map_snd 0 (p.listsOf k).toList
  rw [Array.length_toList, ← List.range_eq_range'] at hsnd
  rw [← hsnd, List.map_map]
  rfl

/-- No place is named twice. -/
theorem nodup_allLists (p : Processor) : (p.allLists.map fun x => (x.1, x.2.1)).Nodup := by
  rw [places_allLists]
  refine List.nodup_flatMap.mpr ⟨fun k _ => ?_, ?_⟩
  · exact List.nodup_range.map fun q q' e => (Prod.mk.inj e).2
  · have hall : RefKind.all.Nodup := by decide
    refine hall.pairwise_of_forall_ne fun k _ k' _ hne => ?_
    intro x hx hx'
    obtain ⟨q, -, rfl⟩ := List.mem_map.mp hx
    obtain ⟨q', -, he⟩ := List.mem_map.mp hx'
    exact hne (Prod.mk.inj he).1.symm

/-- The members of several lists. -/
def members (r : Roster) (lists : List (RefKind × Nat × DiscoveredList)) : List Handle :=
  lists.flatMap fun x => r x.1 x.2.1

/-- The members of distinct lists have no repetitions. -/
theorem nodup_members (hr : Registered p h r ps)
    {lists : List (RefKind × Nat × DiscoveredList)}
    (hnodup : (lists.map fun x => (x.1, x.2.1)).Nodup) : (members r lists).Nodup := by
  refine List.nodup_flatMap.mpr ⟨fun x _ => (hr.spread x.1).nodup x.2.1, ?_⟩
  refine (List.pairwise_map.mp hnodup).imp fun {x y} hne o ho ho' => hne ?_
  obtain ⟨hk, hq⟩ := hr.apart ho ho'
  rw [hk, hq]

/-- All lists are taken apart. -/
theorem unlinkAll_ok (hr : Registered p h r ps) :
    unlinkAll h (p.allLists.map fun x => x.2.2) =
      .ok ((members r p.allLists).length, h.detachAll (members r p.allLists)) := by
  obtain ⟨b, hfold, rfl⟩ := except_foldlM_ok (l := p.allLists)
    (f := fun (b : Nat × Heap) (x : RefKind × Nat × DiscoveredList) => do
      let count ← addCounts b.1 x.2.2.length
      return (count, ← b.2.unlink x.2.2.head))
    (fun done b => b = ((members r done).length, h.detachAll (members r done)))
    (by
      intro done x rest b hlists heq
      subst heq
      have hnodup := p.nodup_allLists
      rw [hlists, List.map_append] at hnodup
      have hx : x ∈ p.allLists := by rw [hlists]; simp
      have hl : x.2.2.Lists h (r x.1 x.2.1) := (hr.spread x.1).listed _ _ (mem_allLists hx)
      have hsplit : members r (done ++ [x]) = members r done ++ r x.1 x.2.1 := by
        simp [members]
      have hfresh : (members r (done ++ [x])).Nodup := by
        refine nodup_members hr (List.Nodup.sublist ?_ p.nodup_allLists)
        rw [hlists]
        exact List.Sublist.map _ (List.Sublist.append (List.Sublist.refl done)
          (List.Sublist.cons_cons x (List.nil_sublist rest)))
      rw [hsplit] at hfresh
      have hlength := Heap.length_lt_of_nodup hfresh
      rw [List.length_append] at hlength
      have hrelinks := Heap.relinks_detachAll h (members r done)
      have hl' : x.2.2.Lists (h.detachAll (members r done)) (r x.1 x.2.1) :=
        hl.congr (fun o ho => hrelinks.link ⟨o, .discovered⟩ fun _ hm =>
            (List.nodup_append.mp hfresh).2.2 o hm o ho rfl)
          fun o _ ho => by rw [hrelinks.holds_eq]; exact ho
      have hcount : addCounts (members r done).length x.2.2.length =
          .ok (members r (done ++ [x])).length := by
        rw [hl.length, addCounts, hsplit, List.length_append]
        exact if_pos (by rw [countLimit]; omega)
      refine ⟨_, (except_bind_ok hcount).trans (except_bind_ok (Heap.unlink_ok hl')), ?_⟩
      rw [hsplit, Heap.detachAll, Heap.detachAll, Heap.detachAll, List.foldl_append])
    (b := (0, h)) rfl
  rw [unlinkAll, List.foldlM_map]
  exact hfold

/-- All references of the first queues, by kind. -/
def listed (r : Roster) (queues : Nat) : List Handle :=
  RefKind.all.flatMap fun k => gather (r k) queues

/-- The members of all lists are the listed references. -/
theorem members_allLists (hr : Registered p h r ps) :
    members r p.allLists = listed r p.queues := by
  have hplaces : members r p.allLists =
      (p.allLists.map fun x => (x.1, x.2.1)).flatMap fun place => r place.1 place.2 := by
    rw [List.flatMap_map]
    rfl
  rw [hplaces, places_allLists, List.flatMap_assoc]
  refine congrArg (RefKind.all.flatMap ·) (funext fun k => ?_)
  rw [List.flatMap_map, hr.size k]
  rfl

/-- The listed references are those on the list of any kind. -/
theorem mem_listed (hr : Registered p h r ps) {o : Handle} :
    o ∈ listed r p.queues ↔ ∃ k, r.lists k o := by
  constructor
  · intro ho
    obtain ⟨k, -, hk⟩ := List.mem_flatMap.mp ho
    obtain ⟨q, -, hq⟩ := mem_gather.mp hk
    exact ⟨k, q, hq⟩
  · intro hlisted
    obtain ⟨k, q, ho⟩ := hlisted
    exact List.mem_flatMap.mpr ⟨k, k.mem_all, mem_gather.mpr ⟨q, hr.lt_queues ho, ho⟩⟩

/-- The processor with all lists empty. -/
def emptied (p : Processor) : Processor :=
  { p with lists := .replicate (Array.replicate p.queues .empty) }

/-- Giving up a discovery takes all lists apart, and logs how many references were on them. -/
theorem abandon_eq (hr : Registered p h r ps) (sink : Sink) :
    ∃ announced, p.abandon h sink =
      let logged := p.emptied.log announced (.discoveryAbandoned (listed r p.queues).length)
      .ok (logged.1, h.detachAll (listed r p.queues), logged.2) := by
  have hunlink := unlinkAll_ok hr
  rw [members_allLists hr] at hunlink
  exact ⟨_, (except_bind_ok hunlink).trans rfl⟩

/-- Giving up a discovery empties all lists; their members are in no place any more. -/
theorem abandon_ok (hr : Registered p h r ps) (sink : Sink) :
    ∃ p' g sink', p.abandon h sink = .ok (p', g, sink') ∧ Registered p' g Roster.none ps ∧
      h.Relinks (fun o => ∃ k, r.lists k o) g ∧
      (∀ k o, r.lists k o → g.following o = none) ∧ p'.setup = p.setup ∧
      p'.degree = p.degree ∧ p'.turn = p.turn := by
  have hrelinks := Heap.relinks_detachAll h (listed r p.queues)
  have hpending : ∀ o ∈ ps, o ∉ listed r p.queues := by
    intro o ho hm
    obtain ⟨k, q, hkq⟩ := (mem_listed hr).mp hm
    exact hr.free k q o hkq ho
  obtain ⟨announced, habandon⟩ := abandon_eq hr sink
  refine ⟨_, _, _, habandon, ?_, hrelinks.mono fun o => (mem_listed hr).mp,
    fun k o ho => ?_, rfl, rfl, rfl⟩
  · exact .of_empty rfl (hr.pending.congr hrelinks.pending
      (fun o ho => hrelinks.link ⟨o, .discovered⟩ fun _ => hpending o ho)
      fun o _ ho => by rw [hrelinks.holds_eq]; exact ho)
  · exact Heap.following_detachAll
      (fun x hx => ((mem_listed hr).mp hx).elim fun _ ⟨_, hl⟩ => hr.held hl)
      ((mem_listed hr).mpr ⟨k, ho⟩)

end Processor

end Referents
