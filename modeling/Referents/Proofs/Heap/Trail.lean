import Referents.Proofs.Heap.Linked

/-!
# Trails

Whatever the links of a heap hold, following them from a head meets one object
after the other until a link is null, or leads back to an object that was met
before.  The distinct objects on the way are the **trail** of the head, and the
link of the last one is its stop.  A discovered list is a trail that stops at its
last member, and the pending chain is one that stops at null.

* `exists_trail` — every head has a trail.
* `Trail.mem_iff` — its members are the objects that the head leads to.
* `Trail.stop_eq_none_iff` — it stops at null exactly if one of them links to
  nothing, or if there are none.
* `Remains.detach` — what remains of a trail whose first link was nulled.
-/

namespace Referents

namespace Heap

variable {h : Heap} {o : Handle} {head stop : Option Handle} {ms : List Handle}

/-- Following the links from `head` on meets the object. -/
inductive LeadsTo (h : Heap) (head : Option Handle) : Handle → Prop
  | start {o : Handle} : head = some o → LeadsTo h head o
  | step {o p : Handle} : LeadsTo h head o → h.following o = some p → LeadsTo h head p

/-- Every link of a list or chain leads to an object of the table. -/
def FollowingHeld (h : Heap) : Prop := ∀ o p, h.following o = some p → h.holds p = true

/-- The distinct objects `ms` are linked in this order from `head` on, and the link of the
last one is null or leads back to one of them. -/
structure Trail (h : Heap) (head stop : Option Handle) (ms : List Handle) : Prop where
  head : head = ms.head?
  linked : h.Linked stop ms
  nodup : ms.Nodup
  held : ∀ o ∈ ms, h.holds o = true
  stop : ∀ o, stop = some o → o ∈ ms

/-- A path of distinct objects that leads to `o` goes on to be a trail.  The objects that are
not on it yet become fewer with every step. -/
theorem exists_trail_from (hlinks : h.FollowingHeld) (fuel : Nat) (ms : List Handle)
    (hfuel : h.size < ms.length + fuel) (hlinked : h.Linked (some o) ms) (hnodup : ms.Nodup)
    (hheld : ∀ x ∈ ms, h.holds x = true) (ho : h.holds o = true) :
    ∃ stop ns, h.Trail (ms ++ [o]).head? stop ns := by
  induction fuel generalizing ms o with
  | zero =>
      have hlength := length_le_size hnodup hheld
      omega
  | succ fuel ih =>
      by_cases hmem : o ∈ ms
      · have hhead : (ms ++ [o]).head? = ms.head? := by
          cases ms with
          | nil => cases hmem
          | cons x rest => rfl
        exact ⟨some o, ms, hhead, hlinked, hnodup, hheld, fun x hx => Option.some.inj hx ▸ hmem⟩
      · have hlonger : h.Linked (h.following o) (ms ++ [o]) :=
          linked_append.mpr ⟨by simpa using hlinked, by simp, trivial⟩
        have hnodupLonger : (ms ++ [o]).Nodup := by
          refine List.nodup_append.mpr ⟨hnodup, List.nodup_singleton o, ?_⟩
          intro x hx y hy hxy
          exact hmem (List.mem_singleton.mp hy ▸ hxy ▸ hx)
        have hheldLonger : ∀ x ∈ ms ++ [o], h.holds x = true := by
          intro x hx
          rcases List.mem_append.mp hx with hx | hx
          · exact hheld x hx
          · exact List.mem_singleton.mp hx ▸ ho
        cases hnext : h.following o with
        | none =>
            rw [hnext] at hlonger
            exact ⟨none, ms ++ [o], rfl, hlonger, hnodupLonger, hheldLonger, fun x hx => nomatch hx⟩
        | some p =>
            rw [hnext] at hlonger
            obtain ⟨stop, ns, htrail⟩ := ih (ms ++ [o])
              (by rw [List.length_append, List.length_singleton]; omega) hlonger hnodupLonger
              hheldLonger (hlinks o p hnext)
            have hhead : (ms ++ [o] ++ [p]).head? = (ms ++ [o]).head? := by
              cases ms <;> rfl
            exact ⟨stop, ns, hhead ▸ htrail⟩

/-- Every head has a trail. -/
theorem exists_trail (hlinks : h.FollowingHeld) (hhead : h.holdsOption head = true) :
    ∃ stop ms, h.Trail head stop ms := by
  cases head with
  | none =>
      refine ⟨none, [], rfl, trivial, List.nodup_nil, ?_, ?_⟩ <;> exact fun o ho => nomatch ho
  | some o =>
      exact exists_trail_from hlinks (h.size + 1) [] (by simp) trivial
        List.nodup_nil (fun x hx => nomatch hx) hhead

/-- Linked objects are met from wherever the first of them is met. -/
theorem Linked.leadsTo (hlinked : h.Linked stop ms)
    (hfirst : ∀ o, ms.head? = some o → h.LeadsTo head o) : ∀ o ∈ ms, h.LeadsTo head o := by
  induction ms with
  | nil => exact fun o ho => nomatch ho
  | cons o rest ih =>
      have ho : h.LeadsTo head o := hfirst o rfl
      intro x hx
      rcases List.mem_cons.mp hx with rfl | hx
      · exact ho
      · refine ih hlinked.2 ?_ x hx
        intro p hp
        exact .step ho (by rw [hlinked.1, hp, Option.some_or])

namespace Trail

theorem withPending (ht : h.Trail head stop ms) (pending : Option Handle) :
    (h.withPending pending).Trail head stop ms :=
  ⟨ht.head, linked_withPending.mpr ht.linked, ht.nodup, ht.held, ht.stop⟩

/-- The members of a trail are the objects that its head leads to. -/
theorem mem_iff (ht : h.Trail head stop ms) : o ∈ ms ↔ h.LeadsTo head o := by
  constructor
  · exact ht.linked.leadsTo (fun x hx => .start (ht.head.trans hx)) o
  · intro ho
    induction ho with
    | start hhead => exact List.mem_of_head? (ht.head.symm.trans hhead)
    | step _ hlink ih =>
        rcases ht.linked.following_of_mem ih with hstop | ⟨p, hp, hnext⟩
        · exact ht.stop _ (hstop.symm.trans hlink)
        · exact Option.some.inj (hnext.symm.trans hlink) ▸ hp

/-- The way from the first member on begins at the head; an empty trail has no stop. -/
theorem head_eq (ht : h.Trail head stop ms) : ms.head?.or stop = head := by
  cases ms with
  | nil =>
      cases hstop : stop with
      | none => exact ht.head.symm
      | some o => exact nomatch ht.stop o hstop
  | cons o rest => exact ht.head.symm

/-- The link of the last member is the stop. -/
theorem following_last (ht : h.Trail head stop ms) (hlast : ms.getLast? = some o) :
    h.following o = stop := by
  obtain ⟨init, rfl⟩ := List.getLast?_eq_some_iff.mp hlast
  exact (linked_append.mp ht.linked).2.1

/-- A trail stops at null exactly if the way from its head ends. -/
theorem stop_eq_none_iff (ht : h.Trail head stop ms) :
    stop = none ↔ head = none ∨ ∃ o, h.LeadsTo head o ∧ h.following o = none := by
  constructor
  · rintro rfl
    cases hlast : ms.getLast? with
    | none =>
        rw [List.getLast?_eq_none_iff] at hlast
        exact .inl (by rw [ht.head, hlast]; rfl)
    | some o =>
        exact .inr ⟨o, ht.mem_iff.mp (List.mem_of_getLast? hlast), ht.following_last hlast⟩
  · rintro (hhead | ⟨o, ho, hnull⟩)
    · exact (Option.or_eq_none_iff.mp (ht.head_eq.trans hhead)).2
    · rcases ht.linked.following_of_mem (ht.mem_iff.mpr ho) with hstop | ⟨p, -, hlink⟩
      · exact hstop.symm.trans hnull
      · rw [hnull] at hlink
        cases hlink

end Trail

/-! ### Trails that are being taken apart -/

/-- What remains of a trail when its first members were taken off it: the stop may be one of
those, which link to nothing. -/
structure Remains (h : Heap) (stop : Option Handle) (ms : List Handle) : Prop where
  linked : h.Linked stop ms
  nodup : ms.Nodup
  held : ∀ o ∈ ms, h.holds o = true
  stop : ∀ o, stop = some o → o ∈ ms ∨ h.holds o = true ∧ h.following o = none

theorem Trail.remains (ht : h.Trail head stop ms) : h.Remains stop ms :=
  ⟨ht.linked, ht.nodup, ht.held, fun o ho => .inl (ht.stop o ho)⟩

/-- The link of the first member is nulled. -/
theorem Remains.detach (hr : h.Remains stop (o :: ms)) :
    (h.write ⟨o, .discovered⟩ none).Remains stop ms := by
  obtain ⟨hno, hnodup⟩ := List.nodup_cons.mp hr.nodup
  have hnulled : (h.write ⟨o, .discovered⟩ none).following o = none :=
    link_write_self (hr.held o List.mem_cons_self)
  refine ⟨(linked_write_of_not_mem hno).mpr hr.linked.2, hnodup, ?_, ?_⟩
  · intro p hp
    rw [holds_write]
    exact hr.held p (List.mem_cons_of_mem o hp)
  · intro p hp
    rw [holds_write]
    by_cases hpo : p = o
    · subst hpo
      exact .inr ⟨hr.held p List.mem_cons_self, hnulled⟩
    · rw [Heap.following, link_write_of_obj_ne hpo]
      exact (hr.stop p hp).imp_left fun hm => (List.mem_cons.mp hm).resolve_left hpo

end Heap

/-- A discovered list is a trail that stops at its last member. -/
theorem DiscoveredList.Lists.trail {l : DiscoveredList} {h : Heap} {ms : List Handle}
    (hl : l.Lists h ms) : h.Trail l.head ms.getLast? ms :=
  ⟨hl.head, hl.linked, hl.nodup, hl.held, fun _ ho => List.mem_of_getLast? ho⟩

/-- The pending chain is a trail that stops at null. -/
theorem Heap.Pends.trail {h : Heap} {ps : List Handle} (hps : h.Pends ps) :
    h.Trail h.pendingHead none ps :=
  ⟨hps.head, hps.linked, hps.nodup, hps.held, fun _ ho => nomatch ho⟩

end Referents
