import Mathlib.Data.List.Flatten
import Referents.Processor
import Referents.Proofs.Execution
import Referents.Proofs.Heap.Agreement
import Referents.Proofs.Heap.Linked

/-!
# The roster of a processor

A **roster** says which references are on which list of a processor, the
**listing** of the processor: each list has exactly the members that the roster
gives, all of the right kind, and no reference is on two lists.  The processor is
**registered** with a roster and a pending chain if moreover no reference is both
on a list and pending.

* `Spread.total` — the lengths of the lists of a kind never add up to more than
  a count can hold, and their sum is the number of members.
* `Listing.list_ok`, `Registered.total_ok` — lists and totals of a registered
  processor can be taken.
* `Registered.verifyEmpty_ok`, `Registered.verifyNone_ok` — the checks for
  references that are left pass where the roster has none.
* `Registered.replace` — one list is replaced by some of its members, and
  others of them become pending.
* `Processor.setup` — what processing never changes about a processor.
-/

namespace Referents

variable {h g : Heap} {o : Handle} {m : Nat → List Handle}

/-! ### Sums of counts -/

/-- Adding up counts from `a` on does not overflow if the total does not. -/
theorem foldlM_addCounts {ns : List Nat} {a : Nat} (hsum : a + ns.sum < 2 ^ 64) :
    ns.foldlM addCounts a = .ok (a + ns.sum) := by
  induction ns generalizing a with
  | nil => simp [pure, Except.pure]
  | cons n ns ih =>
      rw [List.sum_cons] at hsum ⊢
      have hadd : addCounts a n = .ok (a + n) := by
        rw [addCounts, countLimit, if_pos (by omega)]
      rw [List.foldlM_cons, except_bind_ok hadd, ih (by omega), Nat.add_assoc]

/-- Counts whose sum fits into a word are added up without a fault. -/
theorem sumCounts_ok {ns : List Nat} (hsum : ns.sum < 2 ^ 64) : sumCounts ns = .ok ns.sum := by
  rw [sumCounts, foldlM_addCounts (by omega), Nat.zero_add]

/-! ### The lists of one kind -/

/-- The members of the first `n` lists. -/
def gather (m : Nat → List Handle) (n : Nat) : List Handle := (List.range n).flatMap m

/-- The gathered members are those of the first `n` queues. -/
theorem mem_gather {n : Nat} : o ∈ gather m n ↔ ∃ q < n, o ∈ m q := by
  simp [gather]

/-- The gathered members are as many as those of all queues together. -/
theorem length_gather (m : Nat → List Handle) (n : Nat) :
    (gather m n).length = ((List.range n).map fun q => (m q).length).sum := by
  simp [gather, List.length_flatMap]

/-- The lists of a kind have the members `m`, and no object is on two of them. -/
structure Spread (h : Heap) (lists : Array DiscoveredList) (m : Nat → List Handle) : Prop where
  listed : ∀ q (l : DiscoveredList), lists[q]? = some l → l.Lists h (m q)
  beyond : ∀ q, lists.size ≤ q → m q = []
  apart : ∀ q q' o, o ∈ m q → o ∈ m q' → q = q'

namespace Spread

variable {lists : Array DiscoveredList}

/-- Every queue has a list, and this list lists the members of the queue. -/
theorem list_ok (hs : Spread h lists m) {q : Nat} (hq : q < lists.size) :
    ∃ l, lists[q]? = some l ∧ l.Lists h (m q) :=
  ⟨lists[q], Array.getElem?_eq_getElem hq, hs.listed q _ (Array.getElem?_eq_getElem hq)⟩

/-- A queue lists no reference twice. -/
theorem nodup (hs : Spread h lists m) (q : Nat) : (m q).Nodup := by
  by_cases hq : q < lists.size
  · obtain ⟨l, -, hl⟩ := hs.list_ok hq
    exact hl.nodup
  · rw [hs.beyond q (by omega)]
    exact List.nodup_nil

/-- A queue with members has a list. -/
theorem lt_size (hs : Spread h lists m) {q : Nat} (ho : o ∈ m q) : q < lists.size := by
  by_contra hq
  rw [hs.beyond q (by omega)] at ho
  cases ho

/-- Members of lists are held. -/
theorem held (hs : Spread h lists m) {q : Nat} (ho : o ∈ m q) : h.holds o = true := by
  obtain ⟨l, -, hl⟩ := hs.list_ok (hs.lt_size ho)
  exact hl.held o ho

/-- The discovered link of a member is never null: the last one has a link to itself. -/
theorem following_ne_none (hs : Spread h lists m) {q : Nat} (ho : o ∈ m q) :
    h.following o ≠ none := by
  obtain ⟨l, -, hl⟩ := hs.list_ok (hs.lt_size ho)
  exact hl.following_ne_none ho

/-- No reference is listed twice, in the same queue or in two. -/
theorem nodup_gather (hs : Spread h lists m) (n : Nat) : (gather m n).Nodup := by
  refine List.nodup_flatMap.mpr ⟨fun q _ => hs.nodup q, ?_⟩
  refine List.nodup_range.pairwise_of_forall_ne fun q _ q' _ hne => ?_
  exact fun o ho ho' => hne (hs.apart q q' o ho ho')

/-- There are fewer members than handles, so a sum of lengths is far from an overflow. -/
theorem length_gather_lt (hs : Spread h lists m) (n : Nat) : (gather m n).length < 2 ^ 32 :=
  Heap.length_lt_of_nodup (hs.nodup_gather n)

/-- The recorded lengths are the numbers of members. -/
theorem lengths_eq (hs : Spread h lists m) :
    lists.toList.map DiscoveredList.length =
      (List.range lists.size).map fun q => (m q).length := by
  apply List.ext_getElem?
  intro q
  by_cases hq : q < lists.size
  · obtain ⟨l, hl, hlists⟩ := hs.list_ok hq
    have hq' : q < lists.toList.length := by simpa using hq
    have hl' : lists[q] = l := by
      rw [Array.getElem?_eq_getElem hq] at hl
      exact Option.some.inj hl
    simp [hq, hl', hlists.length]
  · simp [hq]

/-- The sum of the lengths is the number of members. -/
theorem total (hs : Spread h lists m) :
    sumCounts (lists.toList.map DiscoveredList.length) =
      .ok (gather m lists.size).length := by
  have hlt := hs.length_gather_lt lists.size
  rw [hs.lengths_eq, sumCounts_ok (by rw [← length_gather]; omega), ← length_gather]

/-- Lists stay lists as long as the links of their members do. -/
theorem congr (hs : Spread h lists m) (hlink : ∀ q, ∀ o ∈ m q, g.following o = h.following o)
    (hheld : ∀ o, h.holds o = true → g.holds o = true) : Spread g lists m where
  listed q l hl := (hs.listed q l hl).congr (hlink q) fun o _ => hheld o
  beyond := hs.beyond
  apart := hs.apart

/-- One list is replaced by another with some of its members. -/
theorem replace (hs : Spread h lists m) {q : Nat} {l : DiscoveredList} {kept : List Handle}
    (hg : h.AgreesOff (· ∈ m q) g) (hl : l.Lists g kept) (hkept : ∀ o ∈ kept, o ∈ m q) :
    Spread g (lists.setIfInBounds q l) (fun q' => if q' = q then kept else m q') where
  listed q' l' hl' := by
    by_cases hq : q' = q
    · subst hq
      rw [Array.getElem?_setIfInBounds, if_pos rfl] at hl'
      split at hl'
      · cases hl'
        simpa using hl
      · cases hl'
    · rw [Array.getElem?_setIfInBounds, if_neg fun e => hq e.symm] at hl'
      rw [if_neg hq]
      refine (hs.listed q' l' hl').congr (fun o ho => ?_) fun o _ => hg.holds
      exact hg.following o fun hm => hq (hs.apart q' q o ho hm)
  beyond q' hq' := by
    rw [Array.size_setIfInBounds] at hq'
    split
    · next hq =>
        subst hq
        apply List.eq_nil_iff_forall_not_mem.mpr
        intro o ho
        rw [hs.beyond q' hq'] at hkept
        cases hkept o ho
    · exact hs.beyond q' hq'
  apart q₁ q₂ o h₁ h₂ := by
    have hsub : ∀ q', o ∈ (if q' = q then kept else m q') → o ∈ m q' := by
      intro q' ho
      split at ho
      · next hq => rw [hq]; exact hkept o ho
      · exact ho
    exact hs.apart q₁ q₂ o (hsub q₁ h₁) (hsub q₂ h₂)

end Spread

/-! ### All lists -/

/-- The members of every list, by kind and queue. -/
abbrev Roster := RefKind → Nat → List Handle

namespace Roster

/-- The roster without references. -/
def none : Roster := fun _ _ => []

/-- Whether a reference is on a list of a kind. -/
def lists (r : Roster) (k : RefKind) (o : Handle) : Prop := ∃ q, o ∈ r k q

/-- Replaces the members of one list. -/
def set (r : Roster) (k : RefKind) (q : Nat) (ms : List Handle) : Roster := fun k' q' =>
  if k' = k ∧ q' = q then ms else r k' q'

/-- A queue has the members that it was given. -/
@[simp] theorem set_self (r : Roster) (k : RefKind) (q : Nat) (ms : List Handle) :
    r.set k q ms k q = ms := by simp [set]

/-- Other queues keep their members. -/
theorem set_of_ne (r : Roster) {k k' : RefKind} {q q' : Nat} (ms : List Handle)
    (hne : ¬ (k' = k ∧ q' = q)) : r.set k q ms k' q' = r k' q' := by
  rw [set, if_neg hne]

/-- Queues of other kinds keep their members. -/
theorem set_of_kind_ne (r : Roster) {k k' : RefKind} (q : Nat) (ms : List Handle)
    (hne : k' ≠ k) : r.set k q ms k' = r k' := by
  funext q'
  exact r.set_of_ne ms fun e => hne e.1

/-- The queues of a kind after one of them was given other members. -/
theorem set_kind (r : Roster) (k : RefKind) (q : Nat) (ms : List Handle) :
    r.set k q ms k = fun q' => if q' = q then ms else r k q' := by
  funext q'
  simp [set]

end Roster

namespace Processor

variable {p p' : Processor} {k : RefKind} {q : Nat}

/-- The number of queues is a matter of the configuration. -/
theorem queues_congr (h : p'.config = p.config) : p'.queues = p.queues := by
  rw [queues, h, queues]

/-- Replacing the lists of a kind leaves the other kinds. -/
theorem listsOf_setLists (p : Processor) (k : RefKind) (lists : Array DiscoveredList)
    (k' : RefKind) :
    (p.setLists k lists).listsOf k' = if k' = k then lists else p.listsOf k' := by
  split
  · next hk =>
      rw [hk]
      exact PerKind.get_set_self _ _ _
  · next hk => exact PerKind.get_set_of_ne _ _ hk

/-- Replacing a list leaves the other lists. -/
theorem listsOf_setList (p : Processor) (k : RefKind) (q : Nat) (l : DiscoveredList)
    (k' : RefKind) : (p.setList k q l).listsOf k' =
      if k' = k then (p.listsOf k).setIfInBounds q l else p.listsOf k' :=
  p.listsOf_setLists k _ k'

/-- Replacing a list leaves the number of lists. -/
theorem size_listsOf_setList (p : Processor) (k : RefKind) (q : Nat) (l : DiscoveredList)
    (k' : RefKind) : ((p.setList k q l).listsOf k').size = (p.listsOf k').size := by
  rw [listsOf_setList]
  split
  · next hk => rw [hk, Array.size_setIfInBounds]
  · rfl

/-- Where a list is replaced, only the lists of its kind are spread anew. -/
theorem spread_setList {r : Roster} {l : DiscoveredList} {ms : List Handle}
    (hself : Spread g ((p.listsOf k).setIfInBounds q l) fun q' => if q' = q then ms else r k q')
    (hothers : ∀ k', k' ≠ k → Spread g (p.listsOf k') (r k')) (k' : RefKind) :
    Spread g ((p.setList k q l).listsOf k') (r.set k q ms k') := by
  rw [listsOf_setList]
  split
  · next hk =>
      rw [hk, Roster.set_kind]
      exact hself
  · next hk =>
      rw [Roster.set_of_kind_ne _ _ _ hk]
      exact hothers k' hk

/-- A list that was put in its place is found there. -/
theorem getElem?_setList_self (hq : q < (p.listsOf k).size) (l : DiscoveredList) :
    ((p.setList k q l).listsOf k)[q]? = some l := by
  rw [listsOf_setList, if_pos rfl, Array.getElem?_setIfInBounds_self_of_lt hq]

/-- The other lists are found as before. -/
theorem getElem?_setList_of_ne {k' : RefKind} {q' : Nat} (hne : k' = k → q' ≠ q)
    (l : DiscoveredList) : ((p.setList k q l).listsOf k')[q']? = (p.listsOf k')[q']? := by
  rw [listsOf_setList]
  split
  · next hk => rw [Array.getElem?_setIfInBounds_ne (hne hk).symm, hk]
  · rfl

/-- Every queue within bounds has a list, which is read without a fault. -/
theorem exists_list (hq : q < (p.listsOf k).size) :
    ∃ l, (p.listsOf k)[q]? = some l ∧ p.list k q = .ok l :=
  ⟨_, Array.getElem?_eq_getElem hq, by rw [list, Array.getElem?_eq_getElem hq]⟩

/-- The recorded lengths queue by queue. -/
theorem getElem?_lengths (p : Processor) (k : RefKind) (q : Nat) :
    (p.lengths k)[q]? = (p.listsOf k)[q]?.map DiscoveredList.length := by
  rw [lengths, List.getElem?_map, Array.getElem?_toList]

/-- Replacing a list changes no length but its own. -/
theorem lengths_setList {l l' : DiscoveredList} (hl : (p.listsOf k)[q]? = some l)
    {k' : RefKind} {q' : Nat} (hlength : k' = k → q' = q → l'.length = l.length) :
    ((p.setList k q l').lengths k')[q']? = (p.lengths k')[q']? := by
  rw [getElem?_lengths, getElem?_lengths]
  by_cases hself : k' = k ∧ q' = q
  · obtain ⟨rfl, rfl⟩ := hself
    obtain ⟨hq, -⟩ := Array.getElem?_eq_some_iff.mp hl
    rw [getElem?_setList_self hq, hl, Option.map_some, Option.map_some, hlength rfl rfl]
  · rw [getElem?_setList_of_ne fun hk hq => hself ⟨hk, hq⟩]

end Processor

/-- The lists of a processor have the members that the roster gives. -/
structure Listing (p : Processor) (h : Heap) (r : Roster) : Prop where
  size : ∀ k, (p.listsOf k).size = p.queues
  spread : ∀ k, Spread h (p.listsOf k) (r k)
  kinds : ∀ k q, ∀ o ∈ r k q, h.kindOf o = some k

namespace Listing

variable {p p' : Processor} {r : Roster} {k : RefKind} {q : Nat}

/-- Empty lists. -/
theorem of_empty (hlists : p.lists = .replicate (Array.replicate p.queues .empty)) :
    Listing p h Roster.none := by
  have hof : ∀ k, p.listsOf k = Array.replicate p.queues .empty := by
    intro k
    rw [Processor.listsOf, hlists, PerKind.get_replicate]
  constructor
  case size =>
    intro k
    rw [hof, Array.size_replicate]
  case spread =>
    intro k
    refine ⟨fun q l hl => ?_, fun _ _ => rfl, fun _ _ _ ho => (nomatch ho)⟩
    rw [hof, Array.getElem?_replicate] at hl
    split at hl
    · cases hl
      exact DiscoveredList.lists_empty _
    · cases hl
  case kinds => exact fun _ _ _ ho => nomatch ho

/-- Only the lists of a processor and their number matter. -/
theorem of_lists (hl : Listing p h r) (hlists : p'.lists = p.lists)
    (hconfig : p'.config = p.config) : Listing p' h r := by
  have hof : p'.listsOf = p.listsOf := by
    funext k
    rw [Processor.listsOf, hlists, Processor.listsOf]
  refine ⟨?_, by rw [hof]; exact hl.spread, hl.kinds⟩
  rw [hof, Processor.queues_congr hconfig]
  exact hl.size

/-- Whoever touches no link of a list leaves every reference where it is. -/
theorem of_following (hl : Listing p h r) (hheld : ∀ o, h.holds o = true → g.holds o = true)
    (hkind : ∀ o, h.holds o = true → g.kindOf o = h.kindOf o)
    (hfollowing : ∀ o, g.following o = h.following o) : Listing p g r where
  size := hl.size
  spread k := (hl.spread k).congr (fun _ o _ => hfollowing o) hheld
  kinds k q o ho := (hkind o ((hl.spread k).held ho)).trans (hl.kinds k q o ho)

/-- Members of lists are held. -/
theorem held (hl : Listing p h r) (ho : o ∈ r k q) : h.holds o = true := (hl.spread k).held ho

/-- Members are in the queues that there are. -/
theorem lt_queues (hl : Listing p h r) (ho : o ∈ r k q) : q < p.queues := by
  rw [← hl.size k]
  exact (hl.spread k).lt_size ho

/-- There are no members beyond the last queue. -/
theorem beyond (hl : Listing p h r) (hq : p.queues ≤ q) : r k q = [] :=
  (hl.spread k).beyond q (by rw [hl.size k]; exact hq)

/-- No reference is on two lists. -/
theorem apart (hl : Listing p h r) {k' : RefKind} {q' : Nat} (ho : o ∈ r k q)
    (ho' : o ∈ r k' q') : k = k' ∧ q = q' := by
  have hk : k = k' := by
    have hkind := hl.kinds k q o ho
    rw [hl.kinds k' q' o ho'] at hkind
    exact (Option.some.inj hkind).symm
  subst hk
  exact ⟨rfl, (hl.spread k).apart q q' o ho ho'⟩

/-- A reference whose link is null is on no list. -/
theorem not_listed (hl : Listing p h r) (hfree : h.following o = none) : ¬ r.lists k o :=
  fun ⟨_, ho⟩ => (hl.spread k).following_ne_none ho hfree

/-- The list of a queue is read without a fault, and lists the members of the queue. -/
theorem list_ok (hl : Listing p h r) (hq : q < p.queues) :
    ∃ l, p.list k q = .ok l ∧ l.Lists h (r k q) := by
  obtain ⟨l, hget, hlists⟩ := (hl.spread k).list_ok (by rw [hl.size k]; exact hq)
  exact ⟨l, by rw [Processor.list, hget], hlists⟩

/-- The length of all lists of a kind is the number of its members. -/
theorem total_ok (hl : Listing p h r) (k : RefKind) :
    p.total k = .ok (gather (r k) p.queues).length := by
  rw [Processor.total, Processor.lengths, (hl.spread k).total, hl.size k]

end Listing

/-- The lists of a processor have the members that the roster gives, the
pending chain has the members `ps`, and no reference is in two places. -/
structure Registered (p : Processor) (h : Heap) (r : Roster) (ps : List Handle) : Prop where
  size : ∀ k, (p.listsOf k).size = p.queues
  spread : ∀ k, Spread h (p.listsOf k) (r k)
  kinds : ∀ k q, ∀ o ∈ r k q, h.kindOf o = some k
  pending : h.Pends ps
  free : ∀ k q, ∀ o ∈ r k q, o ∉ ps

/-- Every link of a list or chain is the link of a reference that is listed or pending. -/
def Roster.Covers (r : Roster) (h : Heap) (ps : List Handle) : Prop :=
  ∀ o, h.following o ≠ Option.none → (∃ k, r.lists k o) ∨ o ∈ ps

namespace Registered

variable {p p' : Processor} {r : Roster} {ps : List Handle} {k : RefKind} {q : Nat}

/-- The lists of a registered state, without its pending chain. -/
theorem listing (hr : Registered p h r ps) : Listing p h r := ⟨hr.size, hr.spread, hr.kinds⟩

/-- A listing and a pending chain that share no reference. -/
theorem of_listing (hl : Listing p h r) (hps : h.Pends ps) (hfree : ∀ k, ∀ o ∈ ps, ¬ r.lists k o) :
    Registered p h r ps :=
  ⟨hl.size, hl.spread, hl.kinds, hps, fun k q o ho hm => hfree k o hm ⟨q, ho⟩⟩

/-- Empty lists. -/
theorem of_empty (hlists : p.lists = .replicate (Array.replicate p.queues .empty))
    (hps : h.Pends ps) : Registered p h Roster.none ps :=
  .of_listing (.of_empty hlists) hps fun _ _ _ ⟨_, ho⟩ => nomatch ho

/-- Only the lists of a processor and their number matter. -/
theorem of_lists (hr : Registered p h r ps) (hlists : p'.lists = p.lists)
    (hconfig : p'.config = p.config) : Registered p' h r ps :=
  .of_listing (hr.listing.of_lists hlists hconfig) hr.pending
    fun k o ho ⟨q, hl⟩ => hr.free k q o hl ho

/-- Whoever touches no link of a list leaves every reference where it is. -/
theorem of_following (hr : Registered p h r ps) (hheld : ∀ o, h.holds o = true → g.holds o = true)
    (hkind : ∀ o, h.holds o = true → g.kindOf o = h.kindOf o)
    (hfollowing : ∀ o, g.following o = h.following o) (hpending : g.pendingHead = h.pendingHead) :
    Registered p g r ps :=
  .of_listing (hr.listing.of_following hheld hkind hfollowing)
    (hr.pending.congr hpending (fun o _ => hfollowing o) fun o _ => hheld o)
    fun k o ho ⟨q, hl⟩ => hr.free k q o hl ho

/-- So does a collector that touches no links at all. -/
theorem keeps (hr : Registered p h r ps) (hg : h.Keeps g) : Registered p g r ps :=
  hr.of_following (fun _ => hg.holds) hg.kind (fun o => hg.following o id) hg.pending

/-- Registered members are held. -/
theorem held (hr : Registered p h r ps) (ho : o ∈ r k q) : h.holds o = true := hr.listing.held ho

/-- Registered members are in the queues that there are. -/
theorem lt_queues (hr : Registered p h r ps) (ho : o ∈ r k q) : q < p.queues :=
  hr.listing.lt_queues ho

/-- No reference is registered beyond the last queue. -/
theorem beyond (hr : Registered p h r ps) (hq : p.queues ≤ q) : r k q = [] :=
  hr.listing.beyond hq

/-- No reference is on two lists. -/
theorem apart (hr : Registered p h r ps) {k' : RefKind} {q' : Nat} (ho : o ∈ r k q)
    (ho' : o ∈ r k' q') : k = k' ∧ q = q' := hr.listing.apart ho ho'

/-- The list of a queue is read without a fault. -/
theorem list_ok (hr : Registered p h r ps) (hq : q < p.queues) :
    ∃ l, p.list k q = .ok l ∧ l.Lists h (r k q) := hr.listing.list_ok hq

/-- The total of a kind is the number of its members. -/
theorem total_ok (hr : Registered p h r ps) (k : RefKind) :
    p.total k = .ok (gather (r k) p.queues).length := hr.listing.total_ok k

/-- The members of a kind are fewer than the handles. -/
theorem length_gather_lt (hr : Registered p h r ps) (k : RefKind) (n : Nat) :
    (gather (r k) n).length < 2 ^ 32 := (hr.spread k).length_gather_lt n

/-- A kind without references has empty lists. -/
theorem eq_nil_of_total (hr : Registered p h r ps)
    (htotal : (gather (r k) p.queues).length = 0) (q : Nat) : r k q = [] := by
  apply List.eq_nil_iff_forall_not_mem.mpr
  intro o ho
  have hmem : o ∈ gather (r k) p.queues := mem_gather.mpr ⟨q, hr.lt_queues ho, ho⟩
  rw [List.length_eq_zero_iff.mp htotal] at hmem
  cases hmem

/-- Empty queues gather nothing. -/
theorem gather_eq_nil (hnone : ∀ q, r k q = []) (n : Nat) : gather (r k) n = [] := by
  simp [gather, hnone]

/-- The check that a kind has no members passes if it has none. -/
theorem verifyNone_ok (hr : Registered p h r ps) (hnone : ∀ q, r k q = []) :
    p.verifyNone k = .ok () := by
  have htotal := hr.total_ok k
  rw [gather_eq_nil hnone] at htotal
  unfold Processor.verifyNone
  rw [except_bind_ok htotal]
  rfl

/-- Where no reference is registered, the head of every list is null. -/
theorem isEmpty_of_mem (hr : Registered p h r ps) (hnone : ∀ k q, r k q = [])
    {l : DiscoveredList} (hl : l ∈ (p.listsOf k).toList) : l.isEmpty = true := by
  obtain ⟨q, hq, rfl⟩ := List.mem_iff_getElem.mp hl
  have hlists := (hr.spread k).listed q _ (Array.getElem?_eq_getElem (by simpa using hq))
  exact hlists.isEmpty_iff.mpr (hnone k q)

/-- The check before discovery is enabled passes if no reference is listed. -/
theorem verifyEmpty_ok (hr : Registered p h r ps) (hnone : ∀ k q, r k q = []) :
    p.verifyEmpty = .ok () := by
  have hall : ∀ x ∈ p.allLists.zipIdx, x.1.2.2.isEmpty = true := by
    intro x hx
    have hmem : x.1 ∈ p.allLists := List.fst_mem_of_mem_zipIdx hx
    obtain ⟨k, -, hk⟩ := List.mem_flatMap.mp hmem
    obtain ⟨y, hy, hyx⟩ := List.mem_map.mp hk
    rw [← hyx]
    exact hr.isEmpty_of_mem hnone (List.fst_mem_of_mem_zipIdx hy)
  exact except_forM_ok fun x hx => require_ok _ (hall x hx)

/-- Where nothing is listed, every list is the empty one. -/
theorem list_empty (hr : Registered p h Roster.none ps) (hq : q < p.queues) :
    p.list k q = .ok .empty := by
  obtain ⟨l, hl, hlists⟩ := hr.list_ok (k := k) hq
  rw [hl, DiscoveredList.Lists.eq_empty hlists]

/-- One list is replaced by some of its members, and others become pending. -/
theorem replace (hr : Registered p h r ps) {l : DiscoveredList} {kept ps' : List Handle}
    (hg : h.AgreesOff (· ∈ r k q) g) (hl : l.Lists g kept) (hkept : ∀ o ∈ kept, o ∈ r k q)
    (hps : g.Pends ps') (hnew : ∀ o ∈ ps', o ∈ ps ∨ o ∈ r k q)
    (hdisjoint : ∀ o ∈ kept, o ∉ ps') :
    Registered (p.setList k q l) g (r.set k q kept) ps' := by
  have hsub : ∀ k' q', ∀ o ∈ r.set k q kept k' q', o ∈ r k' q' := by
    intro k' q' o ho
    by_cases hkq : k' = k ∧ q' = q
    · obtain ⟨rfl, rfl⟩ := hkq
      rw [Roster.set_self] at ho
      exact hkept o ho
    · rwa [Roster.set_of_ne _ _ hkq] at ho
  constructor
  case size => exact fun k' => (p.size_listsOf_setList k q l k').trans (hr.size k')
  case spread =>
    refine Processor.spread_setList ((hr.spread k).replace hg hl hkept) fun k' hk => ?_
    refine (hr.spread k').congr (fun q' o ho => ?_) fun o => hg.holds
    exact hg.following o fun hm => hk (hr.apart ho hm).1
  case kinds =>
    intro k' q' o ho
    have hold := hsub k' q' o ho
    exact (hg.kind o (hr.held hold)).trans (hr.kinds k' q' o hold)
  case pending => exact hps
  case free =>
    intro k' q' o ho hpend
    rcases hnew o hpend with hold | hlisted
    · exact hr.free k' q' o (hsub k' q' o ho) hold
    · obtain ⟨rfl, rfl⟩ := hr.apart (hsub k' q' o ho) hlisted
      rw [Roster.set_self] at ho
      exact hdisjoint o ho hpend

/-- The lists of a kind are replaced by others with the same members. -/
theorem rearrange (hr : Registered p h r ps) {lists : Array DiscoveredList}
    (hg : h.Relinks (fun o => ∃ q, o ∈ r k q) g) (hsize : lists.size = p.queues)
    (hspread : Spread g lists m) (hsame : ∀ o, (∃ q, o ∈ m q) ↔ ∃ q, o ∈ r k q) :
    Registered (p.setLists k lists) g (fun k' => if k' = k then m else r k') ps := by
  have hof := p.listsOf_setLists k lists
  have hsub : ∀ k' q, ∀ o ∈ (if k' = k then m else r k') q, ∃ q', o ∈ r k' q' := by
    intro k' q o ho
    split at ho
    · next hk =>
        subst hk
        exact (hsame o).mp ⟨q, ho⟩
    · exact ⟨q, ho⟩
  have hagrees := hg.agreesOff
  constructor
  case size =>
    intro k'
    rw [hof]
    split
    · exact hsize
    · exact hr.size k'
  case spread =>
    intro k'
    rw [hof]
    by_cases hk : k' = k
    · rw [if_pos hk, if_pos hk]
      exact hspread
    · rw [if_neg hk, if_neg hk]
      refine (hr.spread k').congr (fun q o ho => ?_) fun o => hagrees.holds
      exact hagrees.following o fun ⟨q', ho'⟩ => hk (hr.apart ho ho').1
  case kinds =>
    intro k' q o ho
    obtain ⟨q', ho'⟩ := hsub k' q o ho
    exact (hagrees.kind o (hr.held ho')).trans (hr.kinds k' q' o ho')
  case pending =>
    refine hr.pending.congr hg.pending (fun o ho => ?_) fun o _ => hagrees.holds
    exact hagrees.following o fun ⟨q, hq⟩ => hr.free k q o hq ho
  case free =>
    intro k' q o ho
    obtain ⟨q', ho'⟩ := hsub k' q o ho
    exact hr.free k' q' o ho'

end Registered

/-! ### What processing leaves of a processor -/

namespace Processor

variable {p : Processor}

/-- A processor without its lists, its degree, its turn and its journal. -/
def setup (p : Processor) : Processor :=
  { p with lists := .replicate #[], degree := 0, turn := 0, journal := { config := {} } }

/-- Replacing a list leaves the setup. -/
@[simp] theorem setup_setList (k : RefKind) (q : Nat) (l : DiscoveredList) :
    (p.setList k q l).setup = p.setup := rfl

/-- Replacing the lists of a kind leaves the setup. -/
@[simp] theorem setup_setLists (k : RefKind) (lists : Array DiscoveredList) :
    (p.setLists k lists).setup = p.setup := rfl

/-- Logging leaves the setup. -/
@[simp] theorem setup_log (sink : Sink) (e : Event) : (p.log sink e).1.setup = p.setup := rfl

/-- The configuration is part of the setup. -/
theorem config_eq_of_setup {p' : Processor} (h : p'.setup = p.setup) : p'.config = p.config :=
  show p'.setup.config = p.setup.config by rw [h]

/-- The number of queues is part of the setup. -/
theorem queues_eq_of_setup {p' : Processor} (h : p'.setup = p.setup) : p'.queues = p.queues :=
  queues_congr (config_eq_of_setup h)

end Processor

end Referents
