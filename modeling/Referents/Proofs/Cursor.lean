import Referents.Cursor
import Referents.Proofs.Execution
import Referents.Proofs.Heap.Linked

/-!
# Where a cursor stands

A cursor has **passed** some members of its list, has **kept** some of those,
and has the **rest** before it.  At every moment the list consists of the kept
members followed by the rest, in their old order, and every dropped member is
unlinked.

* `at_start`, `At.lists` — at first nothing is passed, and at the end the list
  holds what was kept.
* `At.load_ok` — the links of the next member can be loaded.
* `At.drop_ok`, `At.advance_ok` — dropping the next member and keeping it are
  the two ways on; neither the check against circles nor the one on the length
  ever fails.
-/

namespace Referents

/-- The heap after the member `o` was taken off a list, where `last` is the
last kept member before it and `rest` comes after it. -/
def Heap.bypass (h : Heap) (last : Option Handle) (o : Handle) (rest : List Handle) : Heap :=
  match last with
  | none => h.write ⟨o, .discovered⟩ none
  | some k => (h.write ⟨o, .discovered⟩ none).write ⟨k, .discovered⟩ (rest.head?.or (some k))

namespace Heap

variable {h : Heap} {last : Option Handle} {o p : Handle} {rest : List Handle}

/-- Taking an object out of a chain leaves the traits. -/
@[simp] theorem traits_bypass : (h.bypass last o rest).traits = h.traits := by
  cases last <;> simp [bypass]

/-- Taking an object out of a chain leaves the marks. -/
@[simp] theorem marks_bypass : (h.bypass last o rest).marks = h.marks := by
  cases last <;> simp [bypass]

/-- Taking an object out of a chain allocates nothing. -/
@[simp] theorem size_bypass : (h.bypass last o rest).size = h.size := by
  cases last <;> simp [bypass]

/-- Taking an object out of a chain keeps what is held. -/
@[simp] theorem holds_bypass : (h.bypass last o rest).holds p = h.holds p := by simp [holds]

/-- Taking an object out of a chain leaves the pending chain. -/
@[simp] theorem pendingHead_bypass : (h.bypass last o rest).pendingHead = h.pendingHead := by
  cases last <;> simp [bypass]

/-- Taking an object out of a chain changes discovered links only. -/
@[simp] theorem link_bypass_of_field_ne {f : LinkField} (hf : f ≠ .discovered) :
    (h.bypass last o rest).link ⟨p, f⟩ = h.link ⟨p, f⟩ := by
  cases last <;> simp [bypass, hf]

/-- Of the other members only the last one before it gets another link. -/
theorem link_bypass_of_ne {f : LinkField} (hp : p ≠ o) (hlast : some p ≠ last) :
    (h.bypass last o rest).link ⟨p, f⟩ = h.link ⟨p, f⟩ := by
  cases last with
  | none => simp [bypass, hp]
  | some k => simp [bypass, hp, show p ≠ k from fun e => hlast (by rw [e])]

/-- The link of the member that was taken off is null. -/
theorem following_bypass (ho : h.holds o = true) (hlast : last ≠ some o) :
    (h.bypass last o rest).following o = none := by
  cases last with
  | none => exact link_write_self ho
  | some k =>
      have hk : o ≠ k := fun e => hlast (by rw [e])
      rw [bypass, following, link_write_of_obj_ne hk]
      exact link_write_self ho

/-- Taking a member off leaves the others linked in the same order. -/
theorem Linked.bypass {ks : List Handle}
    (hlinked : h.Linked (ks ++ o :: rest).getLast? (ks ++ o :: rest))
    (hnodup : (ks ++ o :: rest).Nodup) (hheld : ∀ p ∈ ks, h.holds p = true) :
    (h.bypass ks.getLast? o rest).Linked (ks ++ rest).getLast? (ks ++ rest) := by
  obtain ⟨hks, horest, hapart⟩ := List.nodup_append.mp hnodup
  have ho : o ∉ rest := (List.nodup_cons.mp horest).1
  have hoks : o ∉ ks := fun hm => hapart o hm o List.mem_cons_self rfl
  have hcut := linked_append.mp hlinked
  have htail : (h.write ⟨o, .discovered⟩ none).Linked rest.getLast? rest := by
    refine (linked_write_of_not_mem ho).mpr ?_
    cases rest with
    | nil => trivial
    | cons p rest =>
        have := hcut.2.2
        rwa [List.getLast?_append_of_ne_nil _ (by simp), List.getLast?_cons_cons] at this
  rcases List.eq_nil_or_concat ks with rfl | ⟨init, k, rfl⟩
  · exact htail
  · rw [List.concat_eq_append] at *
    have hk : k ∉ rest := fun hm => hapart k (by simp) k (List.mem_cons_of_mem o hm) rfl
    have hstop : (init ++ [k] ++ rest).getLast? = rest.getLast?.or (some k) := by
      rw [List.getLast?_append, List.getLast?_concat]
    have hfront : (h.write ⟨o, .discovered⟩ none).Linked (some o) (init ++ [k]) :=
      (linked_write_of_not_mem hoks).mpr hcut.1
    have hheldk := hheld k (by simp)
    rw [hstop, List.getLast?_concat, Heap.bypass, linked_append]
    constructor
    · have hmoved := hfront.write_last (v := rest.head?.or (some k)) hks (by simpa using hheldk)
      cases rest with
      | nil => exact hmoved
      | cons p rest => exact hmoved
    · refine (linked_write_of_not_mem hk).mpr ?_
      cases rest with
      | nil => trivial
      | cons p rest =>
          have hlast : (p :: rest).getLast?.or (some k) = (p :: rest).getLast? := by
            rw [List.getLast?_cons]
            rfl
          rw [hlast]
          exact htail

end Heap

namespace Cursor

variable {c : Cursor} {h g : Heap} {l : DiscoveredList} {o : Handle}
variable {passed kept rest ms : List Handle}

/-- The cursor has passed some members, kept some of them, and has the rest before it. -/
structure At (c : Cursor) (h : Heap) (passed kept rest : List Handle) : Prop where
  current : c.current = rest.head?
  last : c.kept = kept.getLast?
  head : c.list.head = (kept ++ rest).head?
  length : c.list.length = kept.length + rest.length
  linked : h.Linked (kept ++ rest).getLast? (kept ++ rest)
  sublist : kept.Sublist passed
  nodup : (passed ++ rest).Nodup
  held : ∀ o ∈ passed ++ rest, h.holds o = true
  gone : ∀ o ∈ passed, o ∉ kept → h.following o = none
  first : c.first = (passed ++ rest).head?
  visited : c.visited = passed.length
  dropped : c.dropped + kept.length = passed.length

/-- A cursor starts before the first member of a list. -/
theorem at_start (hl : l.Lists h ms) : (start l).At h [] [] ms where
  current := hl.head
  last := rfl
  head := hl.head
  length := by simpa [start] using hl.length
  linked := hl.linked
  sublist := .slnil
  nodup := hl.nodup
  held := hl.held
  gone o ho := by cases ho
  first := hl.head
  visited := rfl
  dropped := rfl

/-- What was kept and what is still to come have no repetitions. -/
theorem At.kept_nodup (hc : c.At h passed kept rest) : (kept ++ rest).Nodup :=
  (hc.sublist.append (List.Sublist.refl rest)).nodup hc.nodup

/-- At every moment the list holds what was kept and what is still to come. -/
theorem At.lists_append (hc : c.At h passed kept rest) : c.list.Lists h (kept ++ rest) where
  head := hc.head
  length := hc.length.trans List.length_append.symm
  linked := hc.linked
  nodup := hc.kept_nodup
  held o ho := hc.held o ((hc.sublist.append (List.Sublist.refl rest)).subset ho)

/-- At the end the list holds what was kept. -/
theorem At.lists (hc : c.At h passed kept []) : c.list.Lists h kept := by
  simpa using hc.lists_append

/-- There is a current member as long as any is still to come. -/
theorem At.hasCurrent (hc : c.At h passed kept rest) : c.hasCurrent = !rest.isEmpty := by
  rw [Cursor.hasCurrent, hc.current]
  cases rest <;> rfl

/-- A position depends on the links of the members only. -/
theorem At.congr (hc : c.At h passed kept rest)
    (hlink : ∀ o ∈ passed ++ rest, g.following o = h.following o)
    (hheld : ∀ o ∈ passed ++ rest, h.holds o = true → g.holds o = true) :
    c.At g passed kept rest where
  current := hc.current
  last := hc.last
  head := hc.head
  length := hc.length
  linked := (Heap.linked_congr fun o ho => hlink o (by
    rcases List.mem_append.mp ho with hk | hr
    · exact List.mem_append_left rest (hc.sublist.subset hk)
    · exact List.mem_append_right passed hr)).mpr hc.linked
  sublist := hc.sublist
  nodup := hc.nodup
  held o ho := hheld o ho (hc.held o ho)
  gone o ho hk := (hlink o (List.mem_append_left rest ho)).trans (hc.gone o ho hk)
  first := hc.first
  visited := hc.visited
  dropped := hc.dropped

/-- Loading changes nothing about where a cursor stands. -/
theorem At.loaded (hc : c.At h passed kept rest) (following referent : Option Handle) :
    { c with following, referent }.At h passed kept rest :=
  { hc with }

/-- The current member is the next one to come. -/
theorem At.member_ok (hc : c.At h passed kept (o :: rest)) : c.member = .ok o := by
  rw [member, hc.current]
  rfl

/-- The next member links to the one after it, or to itself if it is the last. -/
theorem At.following_eq (hc : c.At h passed kept (o :: rest)) :
    h.following o = rest.head?.or (some o) := by
  have hlink := (Heap.linked_append.mp hc.linked).2.1
  cases rest with
  | nil => simpa using hlink
  | cons p rest => simpa using hlink

/-- The current member was not passed before, and does not come again. -/
theorem At.not_mem (hc : c.At h passed kept (o :: rest)) :
    o ∉ passed ∧ o ∉ rest ∧ ∀ p ∈ passed, p ∉ rest := by
  have hn := List.nodup_append.mp hc.nodup
  refine ⟨fun ho => hn.2.2 o ho o List.mem_cons_self rfl, (List.nodup_cons.mp hn.2.1).1, ?_⟩
  exact fun p hp hr => hn.2.2 p hp p (List.mem_cons_of_mem o hr) rfl

/-- Loading the current member finds what follows it and its target. -/
theorem At.load_ok (nullReferent : Bool) (hc : c.At h passed kept (o :: rest))
    (htarget : ∀ r, h.target o = some r → h.holds r = true)
    (hnull : h.target o = none → nullReferent = true) :
    c.load nullReferent h =
      .ok { c with following := rest.head?.or (some o), referent := h.target o } := by
  have ho : h.holds o = true := hc.held o (by simp)
  have hnext : h.holdsOption (rest.head?.or (some o)) = true := by
    cases rest with
    | nil => exact ho
    | cons p rest => exact hc.held p (by simp)
  unfold load
  rw [except_bind_ok hc.member_ok, except_bind_ok (Heap.discovered_ok ho), hc.following_eq,
    except_bind_ok (require_ok _ hnext), except_bind_ok (Heap.referent_ok ho)]
  cases ht : h.target o with
  | none => exact except_bind_ok (require_ok _ (hnull ht))
  | some r => exact except_bind_ok (require_ok _ (htarget r ht))

/-- The check against circles never fails. -/
theorem skip_ok (hcur : c.current = some o) (hfol : c.following = rest.head?.or (some o))
    (ho : o ∉ rest) (hfirst : ∀ p ∈ rest, c.first ≠ some p) :
    c.skip = .ok { c with current := rest.head?, visited := c.visited + 1 } := by
  have hnext : (if c.following = some o then none else c.following) = rest.head? := by
    rw [hfol]
    cases rest with
    | nil => simp
    | cons p rest => simp [show p ≠ o from fun e => ho (by simp [e])]
  have hcheck : (rest.head?.isNone || rest.head? != c.first) = true := by
    cases rest with
    | nil => rfl
    | cons p rest => simpa using fun e => hfirst p List.mem_cons_self e.symm
  have hmember : c.member = .ok o := by rw [member, hcur]
  unfold skip
  rw [except_bind_ok hmember]
  simp only [hnext]
  exact except_bind_ok (require_ok _ hcheck)

/-- The cursor does not come back to the first member. -/
theorem At.first_ne (hc : c.At h passed kept (o :: rest)) : ∀ p ∈ rest, c.first ≠ some p := by
  intro p hp hfirst
  obtain ⟨-, ho, hpassed⟩ := hc.not_mem
  rw [hc.first] at hfirst
  cases passed with
  | nil =>
      have hop : o = p := by simpa using hfirst
      exact ho (hop ▸ hp)
  | cons q passed =>
      have hqp : q = p := by simpa using hfirst
      exact hpassed q List.mem_cons_self (hqp ▸ hp)

/-- The last kept member is a member that was passed. -/
theorem At.mem_of_last {k : Handle} (hc : c.At h passed kept rest) (hk : c.kept = some k) :
    k ∈ kept ∧ k ∈ passed := by
  have hmem : k ∈ kept := List.mem_of_getLast? (hc.last.symm.trans hk)
  exact ⟨hmem, hc.sublist.subset hmem⟩

/-- The last kept member links to the next member, over those that were dropped between. -/
theorem At.following_last {k : Handle} (hc : c.At h passed kept (o :: rest))
    (hk : c.kept = some k) : h.following k = some o := by
  obtain ⟨init, hinit⟩ : ∃ init, kept = init ++ [k] :=
    List.getLast?_eq_some_iff.mp (hc.last.symm.trans hk)
  have hlinked := hc.linked
  rw [hinit, List.append_assoc, Heap.linked_append] at hlinked
  exact hlinked.2.1

/-- The list after the next member was dropped. -/
def afterDrop (c : Cursor) (rest : List Handle) : Cursor :=
  match c.kept with
  | none =>
      { c with
        list := { (c.list.setHead rest.head?) with length := c.list.length - 1 }
        dropped := c.dropped + 1 }
  | some _ =>
      { c with
        list := { c.list with length := c.list.length - 1 }
        dropped := c.dropped + 1 }

/-- But for its list and its count of dropped members the cursor is as it was. -/
theorem afterDrop_eq (c : Cursor) (rest : List Handle) :
    c.afterDrop rest = { c with list := (c.afterDrop rest).list, dropped := c.dropped + 1 } := by
  unfold afterDrop
  split <;> rfl

/-- A dropped member is taken off the length. -/
theorem length_afterDrop (c : Cursor) (rest : List Handle) :
    (c.afterDrop rest).list.length = c.list.length - 1 := by
  unfold afterDrop
  split <;> rfl

/-- A drop does not move the cursor. -/
theorem current_afterDrop (c : Cursor) (rest : List Handle) :
    (c.afterDrop rest).current = c.current := by rw [afterDrop_eq]

/-- The check on the length never fails. -/
theorem At.drop_eq (hc : c.At h passed kept (o :: rest))
    (hfol : c.following = rest.head?.or (some o)) :
    c.drop h = .ok (c.afterDrop rest, h.bypass kept.getLast? o rest) := by
  have ho : h.holds o = true := hc.held o (by simp)
  have hlink : (if c.following = some o then c.kept else c.following) = rest.head?.or c.kept := by
    rw [hfol]
    cases rest with
    | nil => simp
    | cons p rest =>
        have hp : p ≠ o := fun e => hc.not_mem.2.1 (by simp [e])
        simp [hp]
  have hlength : 1 ≤ c.list.length := by
    rw [hc.length, List.length_cons]
    omega
  unfold drop
  rw [except_bind_ok hc.member_ok, except_bind_ok (require_ok _ ho),
    except_bind_ok (Heap.setDiscovered_ok ho), ← hc.last]
  simp only [hlink, afterDrop, Heap.bypass]
  cases hk : c.kept with
  | none => simp [DiscoveredList.shrink, DiscoveredList.setHead, hlength, bind, Except.bind,
      pure, Except.pure]
  | some k =>
      have hheld : (h.write ⟨o, .discovered⟩ none).holds k = true := by
        rw [Heap.holds_write]
        exact hc.held k (List.mem_append_left _ (hc.mem_of_last hk).2)
      simp only
      rw [except_bind_ok (Heap.setDiscovered_ok hheld)]
      simp [DiscoveredList.shrink, hlength, bind, Except.bind, pure, Except.pure]

/-- After a drop the current member is still the dropped one, until the cursor moves. -/
theorem At.member_afterDrop (hc : c.At h passed kept (o :: rest)) :
    (c.afterDrop rest).member = .ok o := by
  rw [member, current_afterDrop, hc.current]
  rfl

/-- Dropping the next member and skipping on. -/
theorem At.drop_ok (hc : c.At h passed kept (o :: rest))
    (hfol : c.following = rest.head?.or (some o)) :
    ∃ d, (c.afterDrop rest).skip = .ok d ∧
      d.At (h.bypass kept.getLast? o rest) (passed ++ [o]) kept rest := by
  obtain ⟨hpassed, hrest, hapart⟩ := hc.not_mem
  have ho : h.holds o = true := hc.held o (by simp)
  have hkept : o ∉ kept := fun hm => hpassed (hc.sublist.subset hm)
  have hlast : kept.getLast? ≠ some o := fun e => hkept (List.mem_of_getLast? e)
  have hsplit : passed ++ [o] ++ rest = passed ++ o :: rest := by simp
  refine ⟨{ c.afterDrop rest with current := rest.head?, visited := c.visited + 1 }, ?_, ?_⟩
  · have hfol' : (c.afterDrop rest).following = rest.head?.or (some o) := by
      rw [afterDrop_eq]
      exact hfol
    have hfirst : (c.afterDrop rest).first = c.first := by rw [afterDrop_eq]
    have hvisited : (c.afterDrop rest).visited = c.visited := by rw [afterDrop_eq]
    rw [← hvisited]
    exact skip_ok ((c.current_afterDrop rest).trans hc.current) hfol' hrest
      (by rw [hfirst]; exact hc.first_ne)
  · constructor
    case current => rfl
    case last =>
      rw [afterDrop_eq]
      exact hc.last
    case head =>
      have hhead := hc.head
      have hkeptLast := hc.last
      rw [afterDrop]
      split
      · next hk =>
          rw [hk] at hkeptLast
          rw [List.getLast?_eq_none_iff.mp hkeptLast.symm]
          exact DiscoveredList.head_setHead c.list rest.head?
      · next k hk =>
          cases kept with
          | nil => simp [hk] at hkeptLast
          | cons q ks => exact hhead
    case length =>
      have hlength := hc.length
      rw [List.length_cons] at hlength
      show (c.afterDrop rest).list.length = kept.length + rest.length
      rw [length_afterDrop]
      omega
    case linked =>
      exact hc.linked.bypass hc.kept_nodup fun p hp =>
        hc.held p (List.mem_append_left _ (hc.sublist.subset hp))
    case sublist => exact hc.sublist.trans (List.sublist_append_left passed [o])
    case nodup => rw [hsplit]; exact hc.nodup
    case held =>
      intro p hp
      rw [Heap.holds_bypass]
      exact hc.held p (by rwa [hsplit] at hp)
    case gone =>
      intro p hp hpk
      by_cases hpo : p = o
      · rw [hpo]
        exact Heap.following_bypass ho hlast
      · have hpast : p ∈ passed := by simpa [hpo] using hp
        have hne : some p ≠ kept.getLast? := fun e => hpk (List.mem_of_getLast? e.symm)
        rw [Heap.following, Heap.link_bypass_of_ne hpo hne]
        exact hc.gone p hpast hpk
    case first =>
      rw [hsplit, ← hc.first, afterDrop_eq]
    case visited => simp [hc.visited]
    case dropped =>
      have hdropped := hc.dropped
      rw [afterDrop_eq, List.length_append, List.length_singleton]
      show c.dropped + 1 + kept.length = passed.length + 1
      omega

/-- Keeping the next member and going on. -/
theorem At.advance_ok (hc : c.At h passed kept (o :: rest))
    (hfol : c.following = rest.head?.or (some o)) :
    ∃ d, c.advance = .ok d ∧ d.At h (passed ++ [o]) (kept ++ [o]) rest := by
  obtain ⟨hpassed, hrest, hapart⟩ := hc.not_mem
  have hsplit : passed ++ [o] ++ rest = passed ++ o :: rest := by simp
  have hkept : kept ++ [o] ++ rest = kept ++ o :: rest := by simp
  refine ⟨{ c with kept := c.current, current := rest.head?, visited := c.visited + 1 }, ?_, ?_⟩
  · exact skip_ok hc.current hfol hrest hc.first_ne
  · constructor
    case current => rfl
    case last => simpa using hc.current
    case head => rw [hkept]; exact hc.head
    case length =>
      have := hc.length
      simp only [List.length_cons, List.length_append, List.length_nil] at this ⊢
      omega
    case linked => rw [hkept]; exact hc.linked
    case sublist => exact hc.sublist.append (List.Sublist.refl [o])
    case nodup => rw [hsplit]; exact hc.nodup
    case held => rw [hsplit]; exact hc.held
    case gone =>
      intro p hp hpk
      have hpo : p ≠ o := fun e => hpk (by simp [e])
      exact hc.gone p (by simpa [hpo] using hp) fun hm => hpk (List.mem_append_left [o] hm)
    case first => rw [hsplit]; exact hc.first
    case visited => simp [hc.visited]
    case dropped =>
      have := hc.dropped
      simp only [List.length_append, List.length_singleton]
      omega

end Cursor

end Referents
