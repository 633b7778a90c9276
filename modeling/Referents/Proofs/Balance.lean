import Mathlib.Algebra.Order.BigOperators.Group.List
import Mathlib.Algebra.Order.Group.Nat
import Referents.Balance
import Referents.Proofs.Roster

/-!
# Balancing loses nothing

Balancing moves runs of members from list to list.  Each move cuts the first
members of one list off and puts them in front of another, so that the lists
have the same members as before, each once.

The **average** is more than the members divided by the number of queues, so
at any time some of the first lists is shorter than that.  A search that passes
over full lists therefore finds one before it comes round, which bounds the
number of steps; afterwards every list that is not among the first is empty.

* `Balancing.Spreads.move_ok` — one move, and what it leaves where.
* `Balancing.Retains` — the last members of the first lists stay where they are.
* `Balancing.Draining`, `Balancing.drain_ok` — relieving one list, by induction
  on the steps left.
* `balanceLists_ok` — balancing returns, keeps the members, and leaves none
  beyond the first queues.
-/

namespace Referents

variable {h : Heap} {o : Handle} {m m₀ : Nat → List Handle} {n : Nat}

/-- If the members are few then some list is short. -/
theorem exists_short {average queues : Nat} (hqueues : queues ≤ n)
    (hfew : (gather m n).length < queues * average) : ∃ q < queues, (m q).length < average := by
  by_contra hnone
  push Not at hnone
  have hsplit : (gather m queues).length ≤ (gather m n).length := by
    rw [length_gather, length_gather]
    obtain ⟨d, rfl⟩ := Nat.exists_eq_add_of_le hqueues
    rw [List.range_add, List.map_append, List.sum_append]
    omega
  have hmany : queues * average ≤ (gather m queues).length := by
    rw [length_gather]
    have := List.card_nsmul_le_sum ((List.range queues).map fun q => (m q).length) average
      (by simpa using hnone)
    simpa using this
  omega

namespace DiscoveredList

variable {l : DiscoveredList} {front rest ms : List Handle} {head tail : Handle}
variable {stop v : Option Handle}

/-- What is left of a list when its first members are cut off after `tail`. -/
theorem Lists.behead (hl : l.Lists h (front ++ rest)) (hlast : front.getLast? = some tail) :
    ({ (l.setHead rest.head?) with length := l.length - front.length } : DiscoveredList).Lists
      (h.write ⟨tail, .discovered⟩ v) rest := by
  have htail : tail ∉ rest := fun hm =>
    (List.nodup_append.mp hl.nodup).2.2 tail (List.mem_of_getLast? hlast) tail hm rfl
  constructor
  case head => exact head_setHead l rest.head?
  case length =>
    have := hl.length
    rw [List.length_append] at this
    simp only
    omega
  case linked =>
    refine (Heap.linked_write_of_not_mem htail).mpr ?_
    cases rest with
    | nil => trivial
    | cons p rest =>
        have hlinked := (Heap.linked_append.mp hl.linked).2
        rwa [List.getLast?_append_of_ne_nil _ (by simp)] at hlinked
  case nodup => exact (List.nodup_append.mp hl.nodup).2.1
  case held =>
    intro p hp
    rw [Heap.holds_write]
    exact hl.held p (List.mem_append_right front hp)

/-- A list with a run of members put in front of it. -/
theorem Lists.prepend (hl : l.Lists h ms) (hfront : h.Linked stop front)
    (hnodup : (front ++ ms).Nodup) (hheld : ∀ p ∈ front, h.holds p = true)
    (hhead : front.head? = some head) (hlast : front.getLast? = some tail) :
    ((l.setHead (some head)).grow front.length).Lists
      (h.write ⟨tail, .discovered⟩ (some (l.head.getD tail))) (front ++ ms) := by
  obtain ⟨hnodupFront, -, hapart⟩ := List.nodup_append.mp hnodup
  have htail : tail ∈ front := List.mem_of_getLast? hlast
  obtain ⟨init, hinit⟩ : ∃ init, front = init ++ [tail] := List.getLast?_eq_some_iff.mp hlast
  constructor
  case head =>
    rw [List.head?_append, hhead]
    exact head_setHead l (some head)
  case length =>
    have hfrontLength := Heap.length_lt_of_nodup hnodupFront
    have hlength := Heap.length_lt_of_nodup hl.nodup
    have hl' := hl.length
    simp only [grow, setHead, wrapCount, countLimit, List.length_append]
    omega
  case linked =>
    rw [Heap.linked_append]
    constructor
    · have hmoved := (hinit ▸ hfront).write_last (v := some (l.head.getD tail))
        (hinit ▸ hnodupFront) (hheld tail htail)
      rw [← hinit] at hmoved
      rw [hl.head] at hmoved ⊢
      cases ms with
      | nil => simpa [hlast] using hmoved
      | cons p ms => exact hmoved
    · refine (Heap.linked_write_of_not_mem fun hm => hapart tail htail tail hm rfl).mpr ?_
      cases ms with
      | nil => trivial
      | cons p ms =>
          rw [List.getLast?_append_of_ne_nil _ (by simp)]
          exact hl.linked
  case nodup => exact hnodup
  case held =>
    intro p hp
    rw [Heap.holds_write]
    rcases List.mem_append.mp hp with hp | hp
    · exact hheld p hp
    · exact hl.held p hp

end DiscoveredList

namespace Balancing

variable {b b' : Balancing} {source count average queues : Nat} {stop : Option Handle}
variable {src dst : DiscoveredList}

/-- A balancing in progress: the lists have the members `m`, which are those of
`m₀` on the heap `h` at the start. -/
structure Spreads (h : Heap) (m₀ : Nat → List Handle) (n : Nat) (b : Balancing)
    (m : Nat → List Handle) : Prop where
  spread : Spread b.heap b.lists m
  size : b.lists.size = n
  same : ∀ o, (∃ q, o ∈ m q) ↔ ∃ q, o ∈ m₀ q
  relinks : h.Relinks (fun o => ∃ q, o ∈ m₀ q) b.heap

/-- A list is read exactly where there is one. -/
theorem list_eq_ok_iff {q : Nat} {l : DiscoveredList} :
    b.list q = .ok l ↔ b.lists[q]? = some l := by
  unfold list
  cases b.lists[q]? <;> simp

/-- Every queue has a list with the members that the spread gives. -/
theorem Spreads.list_ok (hb : Spreads h m₀ n b m) {q : Nat} (hq : q < n) :
    ∃ l, b.list q = .ok l ∧ l.Lists b.heap (m q) := by
  obtain ⟨l, hl, hlists⟩ := hb.spread.list_ok (by rw [hb.size]; exact hq)
  exact ⟨l, list_eq_ok_iff.mpr hl, hlists⟩

/-- A list that was read has the members that the spread gives. -/
theorem Spreads.lists_of_list (hb : Spreads h m₀ n b m) {q : Nat} {l : DiscoveredList}
    (hl : b.list q = .ok l) : l.Lists b.heap (m q) :=
  hb.spread.listed q l (list_eq_ok_iff.mp hl)

/-- Walking over some members ends at the last of them. -/
theorem splitAfter_ok {front : List Handle} (tail : Handle)
    (hlinked : h.Linked stop front) (hheld : ∀ o ∈ front, h.holds o = true) :
    splitAfter h front.length tail (front.head?.or stop) =
      .ok (front.getLast?.getD tail, stop) := by
  induction front generalizing tail with
  | nil => rfl
  | cons o front ih =>
      have hlink := Heap.discovered_ok (hheld o List.mem_cons_self)
      rw [hlinked.1] at hlink
      have hrest := ih o hlinked.2 fun p hp => hheld p (List.mem_cons_of_mem o hp)
      rw [List.getLast?_cons]
      exact (except_bind_ok hlink).trans hrest

/-- The members of each list after a run of them was moved. -/
def moved (m : Nat → List Handle) (source target : Nat) (front rest : List Handle) :
    Nat → List Handle := fun q =>
  if q = target then front ++ m target else if q = source then rest else m q

section Moved

variable {target : Nat} {front rest : List Handle} {lists : Array DiscoveredList} {q : Nat}

theorem moved_target : moved m source target front rest target = front ++ m target := if_pos rfl

theorem moved_source (hne : source ≠ target) :
    moved m source target front rest source = rest := by
  rw [moved, if_neg hne, if_pos rfl]

theorem moved_of_ne (hqt : q ≠ target) (hqs : q ≠ source) :
    moved m source target front rest q = m q := by
  rw [moved, if_neg hqt, if_neg hqs]

/-- A move keeps the members of all lists together. -/
theorem exists_mem_moved (hne : source ≠ target) (hsplit : m source = front ++ rest) :
    (∃ q, o ∈ moved m source target front rest q) ↔ ∃ q, o ∈ m q := by
  constructor
  · intro hlisted
    obtain ⟨q, ho⟩ := hlisted
    by_cases hqt : q = target
    · rw [hqt, moved_target] at ho
      rcases List.mem_append.mp ho with ho | ho
      · exact ⟨source, by rw [hsplit]; exact List.mem_append_left rest ho⟩
      · exact ⟨target, ho⟩
    by_cases hqs : q = source
    · rw [hqs, moved_source hne] at ho
      exact ⟨source, by rw [hsplit]; exact List.mem_append_right front ho⟩
    · exact ⟨q, by rwa [moved_of_ne hqt hqs] at ho⟩
  · intro hlisted
    obtain ⟨q, ho⟩ := hlisted
    by_cases hqt : q = target
    · exact ⟨target, by rw [moved_target]; exact List.mem_append_right front (hqt ▸ ho)⟩
    by_cases hqs : q = source
    · rw [hqs, hsplit] at ho
      rcases List.mem_append.mp ho with ho | ho
      · exact ⟨target, by rw [moved_target]; exact List.mem_append_left _ ho⟩
      · exact ⟨source, by rwa [moved_source hne]⟩
    · exact ⟨q, by rwa [moved_of_ne hqt hqs]⟩

/-- Who is on a list after a move was moved to the target or was on the list before. -/
theorem mem_of_mem_moved (hs : Spread h lists m) (hne : source ≠ target)
    (hsplit : m source = front ++ rest) (ho : o ∈ moved m source target front rest q) :
    (o ∈ front ∧ q = target) ∨ (o ∉ front ∧ o ∈ m q) := by
  by_cases hfront : o ∈ front
  · refine .inl ⟨hfront, ?_⟩
    have hmem : o ∈ m source := by rw [hsplit]; exact List.mem_append_left rest hfront
    by_contra hqt
    by_cases hqs : q = source
    · rw [hqs, moved_source hne] at ho
      have hnodup := hs.nodup source
      rw [hsplit] at hnodup
      exact (List.nodup_append.mp hnodup).2.2 o hfront o ho rfl
    · rw [moved_of_ne hqt hqs] at ho
      exact hqs (hs.apart q source o ho hmem)
  · refine .inr ⟨hfront, ?_⟩
    by_cases hqt : q = target
    · rw [hqt, moved_target] at ho
      exact hqt ▸ (List.mem_append.mp ho).resolve_left hfront
    by_cases hqs : q = source
    · rw [hqs, moved_source hne] at ho
      rw [hqs, hsplit]
      exact List.mem_append_right front ho
    · rwa [moved_of_ne hqt hqs] at ho

/-- No reference is on two lists after a move. -/
theorem apart_moved (hs : Spread h lists m) (hne : source ≠ target)
    (hsplit : m source = front ++ rest) (q q' : Nat) (p : Handle)
    (hp : p ∈ moved m source target front rest q)
    (hp' : p ∈ moved m source target front rest q') : q = q' := by
  rcases mem_of_mem_moved hs hne hsplit hp with ⟨hpf, hq⟩ | ⟨hpf, hq⟩
  · rcases mem_of_mem_moved hs hne hsplit hp' with ⟨-, hq'⟩ | ⟨hpf', -⟩
    · exact hq.trans hq'.symm
    · exact absurd hpf hpf'
  · rcases mem_of_mem_moved hs hne hsplit hp' with ⟨hpf', -⟩ | ⟨-, hq'⟩
    · exact absurd hpf' hpf
    · exact hs.apart q q' p hq hq'

end Moved

/-- The lists after a move: the source begins later, and the target earlier. -/
theorem Spreads.spread_moved (hb : Spreads h m₀ n b m) (hsource : source < n)
    (htarget : b.target < n) (hne : source ≠ b.target) {front rest : List Handle}
    {head tail : Handle} (hsplit : m source = front ++ rest) (hhead : front.head? = some head)
    (hlast : front.getLast? = some tail) (hsrc : src.Lists b.heap (front ++ rest))
    (hdst : dst.Lists b.heap (m b.target)) :
    Spread (b.heap.write ⟨tail, .discovered⟩ (some (dst.head.getD tail)))
      ((b.lists.setIfInBounds b.target
        ((dst.setHead (some head)).grow front.length)).setIfInBounds source
          { (src.setHead rest.head?) with length := src.length - front.length })
      (moved m source b.target front rest) := by
  have hmem : ∀ p ∈ front, p ∈ m source := fun p hp => by
    rw [hsplit]
    exact List.mem_append_left rest hp
  have hnodup : (front ++ m b.target).Nodup := by
    refine List.nodup_append.mpr ⟨(List.nodup_append.mp hsrc.nodup).1, hdst.nodup, ?_⟩
    intro p hp _ hp' heq
    subst heq
    exact hne (hb.spread.apart _ _ p (hmem p hp) hp')
  constructor
  case listed =>
    intro q l hl
    rw [Array.getElem?_setIfInBounds, Array.getElem?_setIfInBounds] at hl
    by_cases hqs : q = source
    · rw [if_pos hqs.symm, if_pos (by simpa [hb.size, hqs] using hsource)] at hl
      cases hl
      rw [hqs, moved_source hne]
      exact hsrc.behead hlast
    rw [if_neg fun e => hqs e.symm] at hl
    by_cases hqt : q = b.target
    · rw [if_pos hqt.symm, if_pos (by simpa [hb.size, hqt] using htarget)] at hl
      cases hl
      rw [hqt, moved_target]
      exact hdst.prepend (Heap.linked_append.mp hsrc.linked).1 hnodup
        (fun p hp => hsrc.held p (List.mem_append_left rest hp)) hhead hlast
    · rw [if_neg fun e => hqt e.symm] at hl
      rw [moved_of_ne hqt hqs]
      refine (hb.spread.listed q l hl).congr (fun p hp => ?_) fun p _ hp => by
        rw [Heap.holds_write]; exact hp
      refine Heap.link_write_of_obj_ne fun e => hqs ?_
      exact hb.spread.apart q source p hp (hmem p (e ▸ List.mem_of_getLast? hlast))
  case beyond =>
    intro q hq
    have hq' : n ≤ q := by simpa [hb.size] using hq
    rw [moved_of_ne (by omega) (by omega)]
    exact hb.spread.beyond q (by rw [hb.size]; exact hq')
  case apart => exact apart_moved hb.spread hne hsplit

/-- A move takes the first members of a list to the target. -/
theorem Spreads.move_ok (hb : Spreads h m₀ n b m) (hsource : source < n) (htarget : b.target < n)
    (hne : source ≠ b.target) {front rest : List Handle} {head : Handle}
    (hsplit : m source = front ++ rest) (hhead : front.head? = some head) :
    ∃ b', b.move source front.length head = .ok b' ∧ b'.target = b.target ∧
      Spreads h m₀ n b' (moved m source b.target front rest) := by
  obtain ⟨src, hsrcOk, hsrc⟩ := hb.list_ok hsource
  obtain ⟨dst, hdstOk, hdst⟩ := hb.list_ok htarget
  rw [hsplit] at hsrc
  have hfront : front ≠ [] := by
    intro hnil
    subst hnil
    cases hhead
  obtain ⟨tail, hlast⟩ := Option.isSome_iff_exists.mp (List.getLast?_isSome.mpr hfront)
  have htail : tail ∈ front := List.mem_of_getLast? hlast
  have hheld : ∀ p ∈ front, b.heap.holds p = true := fun p hp =>
    hsrc.held p (List.mem_append_left rest hp)
  have hwalk := splitAfter_ok head (Heap.linked_append.mp hsrc.linked).1 hheld
  rw [hhead, Option.some_or, hlast, Option.getD_some] at hwalk
  -- the last member of a list that is moved as a whole links to itself
  have hlink : (if rest.head?.or (front ++ rest).getLast? = some tail then none
      else rest.head?.or (front ++ rest).getLast?) = rest.head? := by
    cases rest with
    | nil => simp [hlast]
    | cons p rest =>
        have hp : p ≠ tail := fun e =>
          (List.nodup_append.mp hsrc.nodup).2.2 tail htail p (by simp) e.symm
        simp [hp]
  have hlength : front.length ≤ src.length := by
    rw [hsrc.length, List.length_append]
    omega
  have hlisted : ∃ q, tail ∈ m q := ⟨source, by
    rw [hsplit]
    exact List.mem_append_left rest htail⟩
  refine ⟨{ b with
    heap := b.heap.write ⟨tail, .discovered⟩ (some (dst.head.getD tail))
    lists := (b.lists.setIfInBounds b.target
      ((dst.setHead (some head)).grow front.length)).setIfInBounds source
        { (src.setHead rest.head?) with length := src.length - front.length } }, ?_, rfl, ?_⟩
  · unfold move
    rw [except_bind_ok hsrcOk, except_bind_ok hdstOk, except_bind_ok hwalk]
    simp only
    rw [except_bind_ok (Heap.setDiscovered_ok (hheld tail htail)), hlink]
    have hshrink : (src.setHead rest.head?).shrink front.length =
        .ok { (src.setHead rest.head?) with length := src.length - front.length } :=
      if_pos hlength
    rw [except_bind_ok hshrink]
    rfl
  · exact ⟨hb.spread_moved hsource htarget hne hsplit hhead hlast hsrc hdst, by simp [hb.size],
      fun o => (exists_mem_moved hne hsplit).trans (hb.same o),
      hb.relinks.trans (Heap.relinks_write ((hb.same tail).mp hlisted))⟩

/-- The members after the first `count` of one list were moved to another. -/
structure Filled (source target count : Nat) (m m' : Nat → List Handle) : Prop where
  left : m' source = (m source).drop count
  filled : m' target = (m source).take count ++ m target
  others : ∀ q, q ≠ source → q ≠ target → m' q = m q

/-- The source has `count` members less. -/
theorem Filled.source_length {m' : Nat → List Handle} {target : Nat}
    (hf : Filled source target count m m') : (m' source).length = (m source).length - count := by
  rw [hf.left, List.length_drop]

/-- The target has `count` members more. -/
theorem Filled.target_length {m' : Nat → List Handle} {target : Nat}
    (hf : Filled source target count m m') (hle : count ≤ (m source).length) :
    (m' target).length = (m target).length + count := by
  rw [hf.filled, List.length_append, List.length_take, Nat.min_eq_left hle, Nat.add_comm]

/-- On the way from `m` to `m'` the first lists keep their last members, as far as
these are no more than the average. -/
def Retains (average queues : Nat) (m m' : Nat → List Handle) : Prop :=
  ∀ q < queues, ∀ ms, ms <:+ m q → ms.length ≤ average → ms <:+ m' q

theorem Retains.refl (average queues : Nat) (m : Nat → List Handle) :
    Retains average queues m m := fun _ _ _ hms _ => hms

/-- What a list retains over two moves it retains over both. -/
theorem Retains.trans {m' m'' : Nat → List Handle} (hm : Retains average queues m m')
    (hm' : Retains average queues m' m'') : Retains average queues m m'' :=
  fun q hq ms hms hlength => hm' q hq ms (hm q hq ms hms hlength) hlength

/-- A move takes from the front, and one of the first lists gives only what exceeds
the average. -/
theorem Filled.retains {m' : Nat → List Handle} {target : Nat}
    (hf : Filled source target count m m')
    (hexcess : source < queues → count ≤ (m source).length - average) :
    Retains average queues m m' := by
  intro q hq ms hms hlength
  by_cases hqt : q = target
  · rw [hqt, hf.filled]
    rw [hqt] at hms
    exact hms.trans (List.suffix_append _ _)
  by_cases hqs : q = source
  · subst hqs
    have hcount := hexcess hq
    have hle := hms.length_le
    rw [hf.left]
    refine List.suffix_of_suffix_length_le hms (List.drop_suffix count _) ?_
    rw [List.length_drop]
    omega
  · rw [hf.others q hqs hqt]
    exact hms

/-- The first members of a list can be moved to the target. -/
theorem Spreads.fill_ok (hb : Spreads h m₀ n b m) (hsource : source < n) (htarget : b.target < n)
    (hne : source ≠ b.target) (hpos : 0 < count) (hle : count ≤ (m source).length)
    (hsrc : b.list source = .ok src) :
    ∃ head b' m', src.head = some head ∧ b.move source count head = .ok b' ∧
      b'.target = b.target ∧ Spreads h m₀ n b' m' ∧ Filled source b.target count m m' := by
  have hfront : ((m source).take count).length = count := by
    rw [List.length_take]
    omega
  obtain ⟨head, hhead⟩ : ∃ head, ((m source).take count).head? = some head := by
    cases hms : m source with
    | nil =>
        rw [hms, List.length_nil] at hle
        omega
    | cons o rest =>
        obtain ⟨count, rfl⟩ : ∃ k, count = k + 1 := ⟨count - 1, by omega⟩
        exact ⟨o, rfl⟩
  have hsplit : m source = (m source).take count ++ (m source).drop count :=
    (List.take_append_drop _ _).symm
  obtain ⟨b', hmove, htarget', hb'⟩ := hb.move_ok hsource htarget hne hsplit hhead
  rw [hfront] at hmove
  refine ⟨head, b', _, ?_, hmove, htarget', hb', ?_⟩
  · rw [(hb.lists_of_list hsrc).head, hsplit, List.head?_append, hhead]
    rfl
  · constructor
    case left => exact moved_source hne
    case filled => exact moved_target
    case others => exact fun q hqs hqt => moved_of_ne hqt hqs

/-- The `j` targets before the present one are full. -/
def Passed (m : Nat → List Handle) (average queues target j : Nat) : Prop :=
  ∀ i, 1 ≤ i → i ≤ j → average ≤ (m ((target + queues - i) % queues)).length

/-- A target that is full is passed as well, round the circle of the first lists. -/
theorem Passed.next {target j : Nat} (hp : Passed m average queues target j)
    (htarget : target < queues) (hfull : average ≤ (m target).length) (hj : j < queues) :
    Passed m average queues ((target + 1) % queues) (j + 1) := by
  intro i hi hij
  have hstep : ((target + 1) % queues + queues - i) % queues =
      (target + queues - (i - 1)) % queues := by
    have hmod : (target + 1) % queues = if target + 1 = queues then 0 else target + 1 := by
      split
      · next e => rw [e, Nat.mod_self]
      · exact Nat.mod_eq_of_lt (by omega)
    rw [hmod]
    split
    · next e =>
        have : target + queues - (i - 1) = (0 + queues - i) + queues := by omega
        rw [this, Nat.add_mod_right]
    · congr 1
      omega
  rw [hstep]
  by_cases hone : i = 1
  · rw [hone, Nat.sub_self, Nat.sub_zero, Nat.add_mod_right, Nat.mod_eq_of_lt htarget]
    exact hfull
  · exact hp (i - 1) (by omega) (by omega)

/-- Whoever has gone round has seen every target. -/
theorem Passed.all {target : Nat} (hp : Passed m average queues target queues)
    (htarget : target < queues) {q : Nat} (hq : q < queues) : average ≤ (m q).length := by
  by_cases hle : q < target
  · have := hp (target - q) (by omega) (by omega)
    rwa [show target + queues - (target - q) = q + queues by omega, Nat.add_mod_right,
      Nat.mod_eq_of_lt hq] at this
  · have := hp (target + queues - q) (by omega) (by omega)
    rwa [show target + queues - (target + queues - q) = q by omega,
      Nat.mod_eq_of_lt hq] at this

/-- Full lists stay full. -/
theorem Passed.mono {m' : Nat → List Handle} {target j : Nat}
    (hp : Passed m average queues target j) (hqueues : 0 < queues)
    (hm : ∀ q < queues, average ≤ (m q).length → average ≤ (m' q).length) :
    Passed m' average queues target j :=
  fun i hi hij => hm _ (Nat.mod_lt _ hqueues) (hp i hi hij)

/-- What relieving one list has done to the members of all. -/
structure Relieved (average queues source : Nat) (m m' : Nat → List Handle) : Prop where
  short : (m' source).length ≤ average
  emptied : queues ≤ source → m' source = []
  others : ∀ q, q ≠ source → q < queues → (m q).length ≤ average → (m' q).length ≤ average
  beyond : ∀ q, q ≠ source → queues ≤ q → m' q = m q
  retains : Retains average queues m m'

/-- Whether there still is something to take from a list. -/
def Burdened (average source : Nat) (all : Bool) (m : Nat → List Handle) : Prop :=
  average < (m source).length ∨ all = true

/-- What is taken to fill a target is something, and no more than there is. -/
theorem fill_count {all : Bool} {room : Nat} (hall : all = true → queues ≤ source ∧ m source ≠ [])
    (hburden : Burdened average source all m) (hroom : 0 < room)
    (hcount : count =
      min (if all = true then (m source).length else (m source).length - average) room) :
    0 < count ∧ count ≤ (m source).length ∧ count ≤ room := by
  have hexcess : 0 < (if all = true then (m source).length else (m source).length - average) := by
    split
    · next h => exact List.length_pos_iff.mpr (hall h).2
    · next h =>
        rcases hburden with hlong | h'
        · omega
        · exact absurd h' h
  have hle : (if all = true then (m source).length else (m source).length - average) ≤
      (m source).length := by
    split <;> omega
  omega

/-- A list is being relieved: all of it has to move, or what exceeds the average.  The
`j` targets before the present one are full, and the fuel lasts for those to come. -/
structure Draining (average queues source fuel j target : Nat) (all : Bool)
    (m : Nat → List Handle) : Prop where
  whole : all = true → queues ≤ source ∧ m source ≠ []
  partly : all = false → queues ≤ source → m source = []
  passed : Passed m average queues target j
  le : j ≤ queues
  steps : 1 ≤ fuel ∧ (Burdened average source all m → 2 * (queues - j) + 2 ≤ fuel ∨
    average ≤ (m target).length ∧ 2 * (queues - j) + 1 ≤ fuel)

section Draining

variable {fuel j target : Nat} {all : Bool} {m₁ m' : Nat → List Handle}

/-- A full target is passed over. -/
theorem Draining.next (hd : Draining average queues source (fuel + 1) j target all m)
    (htarget : target < queues) (hburden : Burdened average source all m)
    (hfull : average ≤ (m target).length) (hj : j < queues) :
    Draining average queues source fuel (j + 1) ((target + 1) % queues) all m where
  whole := hd.whole
  partly := hd.partly
  passed := hd.passed.next htarget hfull hj
  le := hj
  steps := by
    have hsteps : 2 * (queues - j) + 1 ≤ fuel + 1 := by
      rcases hd.steps.2 hburden with h | ⟨-, h⟩ <;> omega
    exact ⟨by omega, fun _ => .inl (by omega)⟩

/-- When a target was filled, it is full or nothing is left to take. -/
theorem Draining.fill (hd : Draining average queues source (fuel + 1) j target all m)
    (hpos : 0 < queues) (hburden : Burdened average source all m)
    (hroom : (m target).length < average)
    (hcount : count = min (if all = true then (m source).length else (m source).length - average)
      (average - (m target).length))
    (hf : Filled source target count m m₁) :
    Draining average queues source fuel j target (all && (m₁ source).length != 0) m₁ := by
  have hsize := fill_count hd.whole hburden (by omega) hcount
  have hsource := hf.source_length
  have htarget := hf.target_length hsize.2.1
  constructor
  case whole =>
    intro hall
    simp only [Bool.and_eq_true, bne_iff_ne, ne_eq, List.length_eq_zero_iff] at hall
    exact ⟨(hd.whole hall.1).1, hall.2⟩
  case partly =>
    intro hall hle
    apply List.length_eq_zero_iff.mp
    cases all with
    | true => simpa using hall
    | false =>
        rw [hd.partly rfl hle, List.length_nil] at hsize
        omega
  case passed =>
    refine hd.passed.mono hpos fun q hq hlong => ?_
    by_cases hqt : q = target
    · rw [hqt] at hlong ⊢
      omega
    by_cases hqs : q = source
    · have hoff : all = false := by
        by_contra hon
        have := (hd.whole (by simpa using hon)).1
        omega
      rw [hoff, if_neg (by simp)] at hcount
      rw [hqs] at hlong ⊢
      omega
    · rwa [hf.others q hqs hqt]
  case le => exact hd.le
  case steps =>
    have hsteps : 2 * (queues - j) + 2 ≤ fuel + 1 := by
      rcases hd.steps.2 hburden with h | ⟨h, -⟩ <;> omega
    refine ⟨by omega, fun hburden₁ => .inr ⟨?_, by omega⟩⟩
    rw [Burdened] at hburden₁
    cases all with
    | true =>
        have hleft : (m₁ source).length ≠ 0 := by
          rcases hburden₁ with hlong | hleft
          · omega
          · simpa using hleft
        rw [if_pos rfl] at hcount
        omega
    | false =>
        have hlong : average < (m₁ source).length := by simpa using hburden₁
        rw [if_neg (by simp)] at hcount
        omega

/-- Relieving a list goes on after a target was filled. -/
theorem Relieved.of_filled (hf : Filled source target count m m₁) (htarget : target < queues)
    (hshort : (m₁ target).length ≤ average) (hretains : Retains average queues m m₁)
    (hr : Relieved average queues source m₁ m') : Relieved average queues source m m' where
  short := hr.short
  emptied := hr.emptied
  others q hqs hq hlength := by
    refine hr.others q hqs hq ?_
    by_cases hqt : q = target
    · rwa [hqt]
    · rwa [hf.others q hqs hqt]
  beyond q hqs hq := by
    rw [hr.beyond q hqs hq, hf.others q hqs (by omega)]
  retains := hretains.trans hr.retains

end Draining

/-- Relieving a list returns: while it is burdened, a target that is not full
lies ahead. -/
theorem drain_ok {fuel j : Nat} {all : Bool} (hb : Spreads h m₀ n b m)
    (hsource : source < n) (hpos : 0 < queues) (hqueues : queues ≤ n)
    (hfew : ∀ m', (∀ o, (∃ q, o ∈ m' q) ↔ ∃ q, o ∈ m₀ q) → (gather m' n).Nodup →
      (gather m' n).length < queues * average)
    (htarget : b.target < queues)
    (hd : Draining average queues source fuel j b.target all m) :
    ∃ b' m', drain average queues source fuel all b = .ok b' ∧ Spreads h m₀ n b' m' ∧
      b'.target < queues ∧ Relieved average queues source m m' := by
  induction fuel generalizing b m j all with
  | zero => exact absurd hd.steps.1 (by omega)
  | succ fuel ih =>
      obtain ⟨src, hsrcOk, hsrc⟩ := hb.list_ok hsource
      obtain ⟨dst, hdstOk, hdst⟩ := hb.list_ok (Nat.lt_of_lt_of_le htarget hqueues)
      rw [drain, except_bind_ok hsrcOk, hsrc.length]
      by_cases hburden : Burdened average source all m
      · rw [if_pos (show average < (m source).length ∨ all = true from hburden),
          except_bind_ok (require_ok _ (decide_eq_true htarget)), except_bind_ok hdstOk, hdst.length]
        by_cases hfull : average ≤ (m b.target).length
        · -- the target is full: it is passed over
          rw [if_pos hfull]
          have hj : j < queues := by
            obtain ⟨q, hq, hlt⟩ : ∃ q < queues, (m q).length < average :=
              exists_short hqueues (hfew m hb.same (hb.spread.nodup_gather n))
            refine hd.le.lt_of_ne fun hall => ?_
            have hpassed := hd.passed
            rw [hall] at hpassed
            have := hpassed.all htarget hq
            omega
          exact ih (b := { b with target := (b.target + 1) % queues })
            ⟨hb.spread, hb.size, hb.same, hb.relinks⟩ (Nat.mod_lt _ hpos)
            (hd.next htarget hburden hfull hj)
        · -- the target is filled
          rw [if_neg hfull]
          obtain ⟨count, hcount⟩ : ∃ count, count =
              min (if all = true then (m source).length else (m source).length - average)
                (average - (m b.target).length) := ⟨_, rfl⟩
          have hsize := fill_count hd.whole hburden (by omega) hcount
          have hne : source ≠ b.target := by
            intro hnil
            subst hnil
            rcases hburden with hlong | hall
            · omega
            · have := (hd.whole hall).1
              omega
          obtain ⟨head, b₁, m₁, hhead, hmove, htarget₁, hb₁, hfilled⟩ :=
            hb.fill_ok hsource (Nat.lt_of_lt_of_le htarget hqueues) hne hsize.1 hsize.2.1 hsrcOk
          obtain ⟨left, hleftOk, hleft⟩ := hb₁.list_ok hsource
          have hd₁ := hd.fill hpos hburden (by omega) hcount hfilled
          rw [← hleft.length, ← htarget₁] at hd₁
          have hretains : Retains average queues m m₁ := by
            refine hfilled.retains fun hactive => ?_
            have hoff : all ≠ true := fun hon => absurd (hd.whole hon).1 (by omega)
            rw [if_neg hoff] at hcount
            omega
          have htargetLength := hfilled.target_length hsize.2.1
          obtain ⟨b', m', hdrain, hb', htarget', hrelieved⟩ := ih hb₁ (htarget₁ ▸ htarget) hd₁
          refine ⟨b', m', ?_, hb', htarget',
            hrelieved.of_filled hfilled htarget (by omega) hretains⟩
          simp only [hhead]
          rw [← hcount, except_bind_ok (require_ok _ (decide_eq_true hsize.1)),
            except_bind_ok hmove, except_bind_ok hleftOk]
          exact hdrain
      · rw [if_neg (show ¬ (average < (m source).length ∨ all = true) from hburden)]
        have hnot := not_or.mp hburden
        have hoff : all = false := by simpa using hnot.2
        exact ⟨b, m, rfl, hb, htarget, by omega, hd.partly hoff, fun _ _ _ h => h,
          fun _ _ _ => rfl, .refl _ _ _⟩

/-- A source gives what it has to give, since the targets have room for it. -/
theorem relieve_ok (hb : Spreads h m₀ n b m) (hsource : source < n) (hpos : 0 < queues)
    (hqueues : queues ≤ n)
    (hfew : ∀ m', (∀ o, (∃ q, o ∈ m' q) ↔ ∃ q, o ∈ m₀ q) → (gather m' n).Nodup →
      (gather m' n).length < queues * average)
    (htarget : b.target < queues) :
    ∃ b' m', relieve average queues b source = .ok b' ∧ Spreads h m₀ n b' m' ∧
      b'.target < queues ∧ Relieved average queues source m m' := by
  obtain ⟨src, hsrcOk, hsrc⟩ := hb.list_ok hsource
  have hlength : src.length = (m source).length := hsrc.length
  rw [relieve, except_bind_ok hsrcOk]
  refine drain_ok (j := 0) hb hsource hpos hqueues hfew htarget ?_
  constructor
  case whole =>
    intro hall
    simp only [Bool.and_eq_true, decide_eq_true_eq, bne_iff_ne, ne_eq, hlength,
      List.length_eq_zero_iff] at hall
    exact hall
  case partly =>
    intro hall hle
    simpa [hlength, hle] using hall
  case passed =>
    intro i hi hi'
    omega
  case le => exact Nat.zero_le queues
  case steps => exact ⟨by omega, fun _ => .inl (by omega)⟩

end Balancing

/-! ### All lists of a kind -/

variable {lists lists' : Array DiscoveredList} {m' : Nat → List Handle} {queues : Nat}

/-- Lists without members add nothing. -/
theorem gather_of_beyond (hqueues : queues ≤ n) (hbeyond : ∀ q, queues ≤ q → m q = []) :
    gather m n = gather m queues := by
  obtain ⟨d, rfl⟩ := Nat.exists_eq_add_of_le hqueues
  have hrest : ((List.range d).map (queues + ·)).flatMap m = [] := by
    simpa [List.flatMap_eq_nil_iff] using fun q _ => hbeyond (queues + q) (Nat.le_add_right _ _)
  rw [gather, List.range_add, List.flatMap_append, hrest, List.append_nil, gather]

/-- Lists with the same members, each once, are permutations of each other. -/
theorem Spread.gather_perm {g : Heap} (hs : Spread h lists m) (hs' : Spread g lists' m')
    (hsize : lists'.size = lists.size) (hsame : ∀ o, (∃ q, o ∈ m' q) ↔ ∃ q, o ∈ m q) :
    (gather m' lists.size).Perm (gather m lists.size) := by
  refine (List.perm_ext_iff_of_nodup (hs'.nodup_gather _) (hs.nodup_gather _)).mpr fun o => ?_
  rw [mem_gather, mem_gather]
  constructor
  · intro hlisted
    obtain ⟨q, -, ho⟩ := hlisted
    obtain ⟨q', ho'⟩ := (hsame o).mp ⟨q, ho⟩
    exact ⟨q', hs.lt_size ho', ho'⟩
  · intro hlisted
    obtain ⟨q, -, ho⟩ := hlisted
    obtain ⟨q', ho'⟩ := (hsame o).mpr ⟨q, ho⟩
    exact ⟨q', hsize ▸ hs'.lt_size ho', ho'⟩

/-- Once every list has been relieved, and none beyond the first has members left,
the check at the end passes. -/
theorem balanceLists_of_relieved {b : Balancing} (hs : Spread h lists m) (hpos : 0 < queues)
    (hqueues : queues ≤ lists.size)
    (hfold : (List.range lists.size).foldlM
      (Balancing.relieve ((gather m lists.size).length / queues + 1) queues)
      { heap := h, lists, target := 0 } = .ok b)
    (hs' : Spread b.heap b.lists m') (hsize : b.lists.size = lists.size)
    (hsame : ∀ o, (∃ q, o ∈ m' q) ↔ ∃ q, o ∈ m q) (hbeyond : ∀ q, queues ≤ q → m' q = []) :
    balanceLists h lists queues = .ok (b.heap, b.lists) := by
  have hlt := hs.length_gather_lt lists.size
  have hchecked : require (0 < queues && queues ≤ lists.size)
      (.badBalanceDegree queues lists.size) = .ok () :=
    require_ok _ (by simp [hpos, hqueues])
  have haverage : addCounts ((gather m lists.size).length / queues) 1 =
      .ok ((gather m lists.size).length / queues + 1) := by
    have := Nat.div_le_self (gather m lists.size).length queues
    exact if_pos (by rw [countLimit]; omega)
  have hbalanced : sumCounts ((b.lists.toList.map DiscoveredList.length).take queues) =
      .ok (gather m lists.size).length := by
    have hlength := (hs.gather_perm hs' hsize hsame).length_eq
    rw [gather_of_beyond hqueues hbeyond, length_gather] at hlength
    rw [hs'.lengths_eq, ← List.map_take, List.take_range, hsize, Nat.min_eq_left hqueues,
      sumCounts_ok (by omega), hlength]
  unfold balanceLists
  rw [except_bind_ok hchecked]
  simp only
  rw [except_bind_ok hs.total, except_bind_ok haverage, except_bind_ok hfold,
    except_bind_ok hbalanced, except_bind_ok (require_ok _ (by simp))]
  rfl

/-- What balancing onto the first lists does to the members of all. -/
structure Leveled (average queues : Nat) (m m' : Nat → List Handle) : Prop where
  same : ∀ o, (∃ q, o ∈ m' q) ↔ ∃ q, o ∈ m q
  short : ∀ q < queues, (m' q).length ≤ average
  beyond : ∀ q, queues ≤ q → m' q = []
  retains : Balancing.Retains average queues m m'

/-- Balancing returns; it keeps the members, and leaves none beyond the first queues. -/
theorem balanceLists_ok (hs : Spread h lists m) (hpos : 0 < queues)
    (hqueues : queues ≤ lists.size) :
    ∃ h' lists' m', balanceLists h lists queues = .ok (h', lists') ∧ Spread h' lists' m' ∧
      lists'.size = lists.size ∧
      Leveled ((gather m lists.size).length / queues + 1) queues m m' ∧
      h.Relinks (fun o => ∃ q, o ∈ m q) h' := by
  obtain ⟨average, haverage⟩ : ∃ average, average = (gather m lists.size).length / queues + 1 :=
    ⟨_, rfl⟩
  have hfew : ∀ m', (∀ o, (∃ q, o ∈ m' q) ↔ ∃ q, o ∈ m q) → (gather m' lists.size).Nodup →
      (gather m' lists.size).length < queues * average := by
    intro m' hm' hnodup
    have hsub : gather m' lists.size ⊆ gather m lists.size := by
      intro o ho
      obtain ⟨q, -, hq⟩ := mem_gather.mp ho
      obtain ⟨q', ho'⟩ := (hm' o).mp ⟨q, hq⟩
      exact mem_gather.mpr ⟨q', hs.lt_size ho', ho'⟩
    have hle := (List.subperm_of_subset hnodup hsub).length_le
    have := Nat.lt_mul_div_succ (gather m lists.size).length hpos
    rw [haverage]
    omega
  obtain ⟨b, hfold, m', hb, -, hretains, hdone⟩ := except_foldlM_ok
    (f := Balancing.relieve average queues)
    (fun done b => ∃ m', Balancing.Spreads h m lists.size b m' ∧ b.target < queues ∧
      Balancing.Retains average queues m m' ∧
      ∀ q ∈ done, (q < queues → (m' q).length ≤ average) ∧ (queues ≤ q → m' q = []))
    (l := List.range lists.size) (b := { heap := h, lists, target := 0 })
    (by
      intro done q rest b hitems hbalancing
      obtain ⟨m', hb, htarget, hretains, hdone⟩ := hbalancing
      have hq : q < lists.size := List.mem_range.mp (by rw [hitems]; simp)
      obtain ⟨b', m'', hrelieve, hb', htarget', hrel⟩ :=
        Balancing.relieve_ok hb hq hpos hqueues hfew htarget
      refine ⟨b', hrelieve, m'', hb', htarget', hretains.trans hrel.retains, fun q' hq' => ?_⟩
      by_cases hqq : q' = q
      · rw [hqq]
        exact ⟨fun _ => hrel.short, hrel.emptied⟩
      · have hold := hdone q' (by simpa [hqq] using hq')
        refine ⟨fun hlt => hrel.others q' hqq hlt (hold.1 hlt), fun hle => ?_⟩
        rw [hrel.beyond q' hqq hle, hold.2 hle])
    ⟨m, ⟨hs, rfl, fun _ => Iff.rfl, .refl _ h⟩, hpos, .refl _ _ _, by simp⟩
  have hbeyond : ∀ q, queues ≤ q → m' q = [] := by
    intro q hq
    by_cases hqn : q < lists.size
    · exact (hdone q (List.mem_range.mpr hqn)).2 hq
    · exact hb.spread.beyond q (by rw [hb.size]; omega)
  rw [haverage] at hfold
  refine ⟨b.heap, b.lists, m', balanceLists_of_relieved hs hpos hqueues hfold hb.spread hb.size
    hb.same hbeyond, hb.spread, hb.size, ⟨hb.same, fun q hq => ?_, hbeyond, ?_⟩, hb.relinks⟩
  · rw [← haverage]
    exact (hdone q (List.mem_range.mpr (Nat.lt_of_lt_of_le hq hqueues))).1 hq
  · rw [← haverage]
    exact hretains

namespace Processor

variable {p : Processor} {r : Roster} {ps : List Handle} {k : RefKind}

/-- Balancing a kind returns; it keeps the references of the kind, and leaves
none beyond the active queues. -/
theorem balanceKind_ok (hr : Registered p h r ps) (hpos : 0 < p.degree)
    (hdegree : p.degree ≤ p.queues) (sink : Sink) :
    ∃ p' h' sink' r', p.balanceKind h sink k = .ok (p', h', sink') ∧ Registered p' h' r' ps ∧
      p'.setup = p.setup ∧ p'.degree = p.degree ∧ p'.turn = p.turn ∧
      (∀ k', k' ≠ k → r' k' = r k') ∧ (∀ o, r'.lists k o ↔ r.lists k o) ∧
      (∀ q, p.degree ≤ q → r' k q = []) ∧ h.Relinks (r.lists k) h' := by
  obtain ⟨h', lists', m', hbalance, hspread, hsize, hleveled, hrelinks⟩ :=
    balanceLists_ok (hr.spread k) hpos (by rw [hr.size k]; exact hdegree)
  have hr' := hr.rearrange hrelinks (hsize.trans (hr.size k)) hspread hleveled.same
  obtain ⟨logged, hlogged⟩ : ∃ x, x = (p.setLists k lists').log sink
      (.balanced k.name (gather (r k) p.queues).length p.degree) := ⟨_, rfl⟩
  refine ⟨logged.1, h', logged.2, fun k' => if k' = k then m' else r k', ?_,
    hr'.of_lists (by rw [hlogged]; rfl) (by rw [hlogged]; rfl), by rw [hlogged]; rfl,
    by rw [hlogged]; rfl, by rw [hlogged]; rfl, fun k' hk => if_neg hk, fun o => ?_,
    fun q hq => ?_, hrelinks⟩
  · unfold balanceKind
    rw [except_bind_ok (hr.total_ok k), except_bind_ok hbalance, hlogged]
    rfl
  · simp only [Roster.lists, if_pos]
    exact hleveled.same o
  · simp only [if_pos]
    exact hleveled.beyond q hq

/-- Where several workers share the queues the check passes, and a kind is balanced if that
is needed. -/
theorem balanceIfNeeded_eq (hmulti : p.isMulti = true) (h : Heap) (sink : Sink) (k : RefKind) :
    p.balanceIfNeeded h sink k =
      if p.needsBalance k then p.balanceKind h sink k else .ok (p, h, sink) :=
  except_bind_ok (require_ok _ hmulti)

/-- Balancing all kinds returns; no reference leaves the lists of its kind. -/
theorem balanceAll_ok (hr : Registered p h r ps) (hpos : 0 < p.degree)
    (hdegree : p.degree ≤ p.queues) (sink : Sink) :
    ∃ p' h' sink' r', p.balanceAll h sink = .ok (p', h', sink') ∧ Registered p' h' r' ps ∧
      (∀ k o, r'.lists k o ↔ r.lists k o) ∧ h.Relinks (fun o => ∃ k, r.lists k o) h' ∧
      p'.setup = p.setup ∧ p'.degree = p.degree ∧ p'.turn = p.turn := by
  obtain ⟨⟨p', h', sink'⟩, hfold, r', hbalanced⟩ :=
    except_foldlM_ok (l := RefKind.all)
      (f := fun (b : Processor × Heap × Sink) k => b.1.balanceKind b.2.1 b.2.2 k)
      (fun _ b => ∃ r', Registered b.1 b.2.1 r' ps ∧ (∀ k o, r'.lists k o ↔ r.lists k o) ∧
        h.Relinks (fun o => ∃ k, r.lists k o) b.2.1 ∧ b.1.setup = p.setup ∧
        b.1.degree = p.degree ∧ b.1.turn = p.turn)
      (by
        intro done k rest s _ hbalanced
        obtain ⟨p₁, h₁, sink₁⟩ := s
        obtain ⟨r₁, hr₁, hsame₁, hrelinks₁, hsetup₁, hdegree₁, hturn₁⟩ := hbalanced
        have hqueues := queues_eq_of_setup hsetup₁
        obtain ⟨p₂, h₂, sink₂, r₂, hbalance, hr₂, hsetup₂, hdegree₂, hturn₂, hothers, hsame₂, -,
          hrelinks₂⟩ := balanceKind_ok (k := k) hr₁ (by rw [hdegree₁]; exact hpos)
            (by rw [hdegree₁, hqueues]; exact hdegree) sink₁
        refine ⟨(p₂, h₂, sink₂), hbalance, r₂, hr₂, fun k' o => ?_,
          hrelinks₁.trans (hrelinks₂.mono fun o ho => ⟨k, (hsame₁ k o).mp ho⟩),
          hsetup₂.trans hsetup₁, hdegree₂.trans hdegree₁, hturn₂.trans hturn₁⟩
        by_cases hk : k' = k
        · rw [hk, hsame₂, hsame₁]
        · rw [Roster.lists, hothers k' hk]
          exact hsame₁ k' o)
      (b := (p, h, sink)) ⟨r, hr, fun _ _ => Iff.rfl, .refl _ _, rfl, rfl, rfl⟩
  exact ⟨p', h', sink', r', hfold, hbalanced⟩

end Processor

end Referents
