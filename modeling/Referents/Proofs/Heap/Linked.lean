import Mathlib.Data.List.Nodup
import Mathlib.Data.List.Perm.Subperm
import Referents.DiscoveredList
import Referents.Heap.Chain
import Referents.Proofs.Heap.View

/-!
# Chains as lists of their members

A chain is described by the list of its members in order: each of them links
to the next, and the last one to the **stop** of the chain.  The stop of a
discovered list is its own last member, that of the pending chain is null.

* `linked_append` — a chain can be cut anywhere.
* `Linked.write_last`, `linked_write_of_not_mem` — where a chain leads after a
  store.
* `DiscoveredList.Lists.chain_eq`, `Heap.Pends.chain_eq` — a walk along the
  links meets the members.
* `length_lt_of_nodup` — there are fewer members than handles.
-/

namespace Referents

namespace Heap

variable {h g : Heap} {o p : Handle} {ms ns : List Handle} {stop v : Option Handle}

/-- Each of some objects links to the one after it, and the last one to `stop`. -/
def Linked (h : Heap) (stop : Option Handle) : List Handle → Prop
  | [] => True
  | o :: rest => h.following o = rest.head?.or stop ∧ h.Linked stop rest

instance decidableLinked (h : Heap) (stop : Option Handle) :
    (ms : List Handle) → Decidable (h.Linked stop ms)
  | [] => inferInstanceAs (Decidable True)
  | _ :: rest =>
      have := decidableLinked h stop rest
      inferInstanceAs (Decidable (_ ∧ _))

/-- A chain of two parts is linked if the first part links to the second. -/
theorem linked_append :
    h.Linked stop (ms ++ ns) ↔ h.Linked (ns.head?.or stop) ms ∧ h.Linked stop ns := by
  induction ms with
  | nil => simp [Linked]
  | cons o rest ih =>
      simp only [List.cons_append, Linked, ih, List.head?_append, Option.or_assoc, and_assoc]

/-- Only the links of the members matter. -/
theorem linked_congr (hms : ∀ o ∈ ms, g.following o = h.following o) :
    g.Linked stop ms ↔ h.Linked stop ms := by
  induction ms with
  | nil => simp [Linked]
  | cons o rest ih =>
      rw [Linked, Linked, hms o List.mem_cons_self,
        ih fun p hp => hms p (List.mem_cons_of_mem o hp)]

/-- A write to an object beside the chain leaves the chain linked. -/
theorem linked_write_of_not_mem (ho : o ∉ ms) :
    (h.write ⟨o, .discovered⟩ v).Linked stop ms ↔ h.Linked stop ms :=
  linked_congr fun _ hp => link_write_of_obj_ne fun e => ho (e ▸ hp)

/-- Another pending head leaves the chain linked. -/
theorem linked_withPending {head : Option Handle} :
    (h.withPending head).Linked stop ms ↔ h.Linked stop ms :=
  linked_congr fun _ _ => rfl

/-- Storing into the link of the last member moves the stop of the chain. -/
theorem Linked.write_last (hms : h.Linked stop (ms ++ [o])) (hnodup : (ms ++ [o]).Nodup)
    (ho : h.holds o = true) : (h.write ⟨o, .discovered⟩ v).Linked v (ms ++ [o]) := by
  have hnot : o ∉ ms := fun hm => (List.nodup_append.mp hnodup).2.2 o hm o (by simp) rfl
  rw [linked_append] at hms ⊢
  exact ⟨(linked_write_of_not_mem hnot).mpr hms.1, link_write_self ho, trivial⟩

/-- A member links to the stop of the chain or to a member. -/
theorem Linked.following_of_mem (hms : h.Linked stop ms) (ho : o ∈ ms) :
    h.following o = stop ∨ ∃ p ∈ ms, h.following o = some p := by
  induction ms with
  | nil => cases ho
  | cons q rest ih =>
      rcases List.mem_cons.mp ho with rfl | hrest
      · cases rest with
        | nil => exact .inl (by simpa [Linked] using hms.1)
        | cons p rest => exact .inr ⟨p, by simp, by simpa [Linked] using hms.1⟩
      · rcases ih hms.2 hrest with hstop | ⟨p, hp, hlink⟩
        · exact .inl hstop
        · exact .inr ⟨p, List.mem_cons_of_mem q hp, hlink⟩

/-! ### Counting members -/

/-- Distinct objects of a range are no more than the range has places. -/
theorem length_le_of_index_lt {n : Nat} (hnodup : ms.Nodup) (hms : ∀ o ∈ ms, o.index < n) :
    ms.length ≤ n := by
  have hinj : (ms.map Handle.index).Nodup :=
    hnodup.map_on fun a _ b _ hab => Handle.ext hab
  have hsub : ms.map Handle.index ⊆ List.range n := by
    intro i hi
    obtain ⟨o, ho, rfl⟩ := List.mem_map.mp hi
    exact List.mem_range.mpr (hms o ho)
  simpa using (List.subperm_of_subset hinj hsub).length_le

/-- There are no more distinct objects than slots. -/
theorem length_le_size (hnodup : ms.Nodup) (hheld : ∀ o ∈ ms, h.holds o = true) :
    ms.length ≤ h.size :=
  length_le_of_index_lt hnodup fun o ho => of_decide_eq_true (hheld o ho)

/-- There are fewer distinct handles than link words. -/
theorem length_lt_of_nodup (hnodup : ms.Nodup) : ms.length < 2 ^ 32 := by
  have := length_le_of_index_lt hnodup fun o _ => o.index_lt
  omega

/-! ### Walking along a chain -/

/-- Enough fuel follows a linked chain to its end: null, or a link to itself. -/
theorem chainFrom_of_linked (hstop : stop = none ∨ stop = ms.getLast?)
    (hlinked : h.Linked stop ms) (hnodup : ms.Nodup) (hheld : ∀ o ∈ ms, h.holds o = true)
    {fuel : Nat} (hfuel : ms.length ≤ fuel) :
    h.chainFrom fuel ms.head? = ⟨ms, true⟩ := by
  induction ms generalizing fuel with
  | nil => cases fuel <;> rfl
  | cons o rest ih =>
      obtain ⟨fuel, rfl⟩ : ∃ n, fuel = n + 1 := ⟨fuel - 1, by simp at hfuel; omega⟩
      obtain ⟨s, hs⟩ := holds_iff_slot.mp (hheld o List.mem_cons_self)
      have hlink : s.discovered.target = rest.head?.or stop := by
        have := hlinked.1
        rwa [following, link, hs, Option.bind_some] at this
      simp only [List.head?_cons, chainFrom, hs, hlink]
      cases rest with
      | nil =>
          rcases hstop with rfl | rfl
          · simp [chainFrom]
          · simp
      | cons p rest =>
          have hne : p ≠ o := fun e => (List.nodup_cons.mp hnodup).1 (by simp [e])
          have := ih (by simpa using hstop) hlinked.2 (List.nodup_cons.mp hnodup).2
            (fun q hq => hheld q (List.mem_cons_of_mem o hq)) (Nat.le_of_succ_le_succ hfuel)
          simp only [List.head?_cons] at this
          simp [hne, this]

/-- The view of a linked chain is its members, and tells that it ends. -/
theorem chain_of_linked (hstop : stop = none ∨ stop = ms.getLast?)
    (hlinked : h.Linked stop ms) (hnodup : ms.Nodup) (hheld : ∀ o ∈ ms, h.holds o = true) :
    h.chain ms.head? = ⟨ms, true⟩ :=
  chainFrom_of_linked hstop hlinked hnodup hheld
    (Nat.le_succ_of_le (length_le_size hnodup hheld))

/-- The pending chain has the members `ps`, in this order. -/
structure Pends (h : Heap) (ps : List Handle) : Prop where
  head : h.pendingHead = ps.head?
  linked : h.Linked none ps
  nodup : ps.Nodup
  held : ∀ o ∈ ps, h.holds o = true

/-- The view of the pending chain is its members. -/
theorem Pends.chain_eq (hps : h.Pends ns) : h.chain h.pendingHead = ⟨ns, true⟩ := by
  rw [hps.head]
  exact chain_of_linked (.inl rfl) hps.linked hps.nodup hps.held

/-- The pending chain depends on its head and on the links of its members. -/
theorem Pends.congr (hps : h.Pends ns) (hhead : g.pendingHead = h.pendingHead)
    (hlink : ∀ o ∈ ns, g.following o = h.following o)
    (hheld : ∀ o ∈ ns, h.holds o = true → g.holds o = true) : g.Pends ns where
  head := hhead.trans hps.head
  linked := (linked_congr hlink).mpr hps.linked
  nodup := hps.nodup
  held o ho := hheld o ho (hps.held o ho)

end Heap

namespace DiscoveredList

variable {l : DiscoveredList} {h g : Heap} {o : Handle} {ms : List Handle}

/-- A discovered list has the members `ms`, in this order. -/
structure Lists (l : DiscoveredList) (h : Heap) (ms : List Handle) : Prop where
  head : l.head = ms.head?
  length : l.length = ms.length
  linked : h.Linked ms.getLast? ms
  nodup : ms.Nodup
  held : ∀ o ∈ ms, h.holds o = true

/-- The view of a list is its members. -/
theorem Lists.chain_eq (hl : l.Lists h ms) : h.chain l.head = ⟨ms, true⟩ := by
  rw [hl.head]
  exact Heap.chain_of_linked (.inr rfl) hl.linked hl.nodup hl.held

/-- A list depends on the links of its members only. -/
theorem Lists.congr (hl : l.Lists h ms) (hlink : ∀ o ∈ ms, g.following o = h.following o)
    (hheld : ∀ o ∈ ms, h.holds o = true → g.holds o = true) : l.Lists g ms where
  head := hl.head
  length := hl.length
  linked := (Heap.linked_congr hlink).mpr hl.linked
  nodup := hl.nodup
  held o ho := hheld o ho (hl.held o ho)

/-- The empty list has no members. -/
theorem lists_empty (h : Heap) : empty.Lists h [] where
  head := head_empty
  length := rfl
  linked := trivial
  nodup := List.nodup_nil
  held o ho := by cases ho

/-- The members determine the list, whatever the heap. -/
theorem Lists.unique {l' : DiscoveredList} (hl : l.Lists h ms) (hl' : l'.Lists g ms) : l = l' := by
  obtain ⟨headLink, length⟩ := l
  obtain ⟨headLink', length'⟩ := l'
  have hhead : headLink.target = headLink'.target := hl.head.trans hl'.head.symm
  have hlength : length = length' := hl.length.trans hl'.length.symm
  rw [← Link.of_target headLink, hhead, Link.of_target, hlength]

/-- A list without members is the empty one. -/
theorem Lists.eq_empty (hl : l.Lists h []) : l = empty := hl.unique (lists_empty h)

/-- Whether a list is empty can be told from its head. -/
theorem Lists.isEmpty_iff (hl : l.Lists h ms) : l.isEmpty = true ↔ ms = [] := by
  rw [isEmpty, hl.head, Option.isNone_iff_eq_none, List.head?_eq_none_iff]

/-- The link of a listed object is never null. -/
theorem Lists.following_ne_none (hl : l.Lists h ms) (ho : o ∈ ms) : h.following o ≠ none := by
  intro hnone
  rcases hl.linked.following_of_mem ho with hstop | ⟨p, _, hlink⟩
  · rw [hnone] at hstop
    rw [List.getLast?_eq_none_iff.mp hstop.symm] at ho
    cases ho
  · rw [hnone] at hlink
    cases hlink

end DiscoveredList

end Referents
