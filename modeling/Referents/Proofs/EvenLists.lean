import Referents.Proofs.Balance

/-!
# Balanced lists are even

Balancing brings every list down to the **fair share**, one more than the members
of all lists divided by the number of queues.  What a list gives away it gives from
its front: its last members stay, in their order, behind what it is given.  Lists
beyond the first queues give everything.

* `Balancing.relieve_of_short` — a list that is no longer than its share is left alone.
* `balanceLists_of_even` — so lists that are balanced already do not change.
* `balancing_evens_lists` — what balancing any lists arrives at.
-/

namespace Referents

variable {h : Heap} {lists : Array DiscoveredList} {m : Nat → List Handle} {queues : Nat}

/-- One more than the members of the first `n` lists divided by the number of queues. -/
def fairShare (m : Nat → List Handle) (n queues : Nat) : Nat := (gather m n).length / queues + 1

namespace Balancing

variable {b : Balancing} {average source : Nat} {src : DiscoveredList}

theorem relieve_of_short (hsrc : b.list source = .ok src) (hshort : src.length ≤ average)
    (hempty : queues ≤ source → src.length = 0) : relieve average queues b source = .ok b := by
  have hnone : (decide (queues ≤ source) && src.length != 0) = false := by
    by_cases hle : queues ≤ source
    · simp [hempty hle]
    · simp [hle]
  rw [relieve, except_bind_ok hsrc, hnone, drain, except_bind_ok hsrc,
    if_neg (by simpa using hshort)]
  rfl

end Balancing

/-- Lists that are balanced do not change. -/
theorem balanceLists_of_even (hs : Spread h lists m) (hpos : 0 < queues)
    (hqueues : queues ≤ lists.size)
    (hshort : ∀ q < queues, (m q).length ≤ fairShare m lists.size queues)
    (hbeyond : ∀ q, queues ≤ q → m q = []) : balanceLists h lists queues = .ok (h, lists) := by
  obtain ⟨b, hfold, rfl⟩ := except_foldlM_ok
    (f := Balancing.relieve (fairShare m lists.size queues) queues)
    (fun _ b => b = { heap := h, lists, target := 0 })
    (l := List.range lists.size) (b := { heap := h, lists, target := 0 })
    (by
      intro done q rest b hitems hb
      subst hb
      obtain ⟨l, hl, hlists⟩ := hs.list_ok (q := q) (List.mem_range.mp (by rw [hitems]; simp))
      refine ⟨_, Balancing.relieve_of_short (Balancing.list_eq_ok_iff.mpr hl) ?_ fun hle => ?_,
        rfl⟩
      · rw [hlists.length]
        by_cases hq : q < queues
        · exact hshort q hq
        · simp [hbeyond q (by omega)]
      · rw [hlists.length, hbeyond q hle, List.length_nil])
    rfl
  exact balanceLists_of_relieved hs hpos hqueues hfold hs rfl (fun _ => Iff.rfl) hbeyond

/-- Balancing returns, for lists of any lengths: none of its assertions fails, and no list
is looked for that is not there.  Afterwards the lists are in order
and have the same members, each once.  None beyond the first queues has any, and none
of the first has more than the fair share.  Each of the first lists ends with the last
of its old members, as many as the share allows, in their old order.  Nothing but the
links of listed references changes, and balancing once more changes nothing at all. -/
theorem balancing_evens_lists (hs : Spread h lists m) (hpos : 0 < queues)
    (hqueues : queues ≤ lists.size) :
    ∃ h' lists' m', balanceLists h lists queues = .ok (h', lists') ∧
      Spread h' lists' m' ∧ lists'.size = lists.size ∧
      (gather m' lists.size).Nodup ∧ (gather m' lists.size).Perm (gather m lists.size) ∧
      (∀ q, queues ≤ q → m' q = []) ∧
      (∀ q < queues, (m' q).length ≤ fairShare m lists.size queues) ∧
      (∀ q < queues, (m q).drop ((m q).length - fairShare m lists.size queues) <:+ m' q) ∧
      h.Relinks (fun o => ∃ q, o ∈ m q) h' ∧
      balanceLists h' lists' queues = .ok (h', lists') := by
  obtain ⟨h', lists', m', hrun, hs', hsize, hleveled, hrelinks⟩ :=
    balanceLists_ok hs hpos hqueues
  have hperm := hs.gather_perm hs' hsize hleveled.same
  have hshare : fairShare m' lists'.size queues = fairShare m lists.size queues := by
    rw [fairShare, hsize, hperm.length_eq, fairShare]
  refine ⟨h', lists', m', hrun, hs', hsize, hs'.nodup_gather _, hperm, hleveled.beyond,
    hleveled.short, fun q hq => ?_, hrelinks, ?_⟩
  · refine hleveled.retains q hq _ (List.drop_suffix _ _) ?_
    rw [List.length_drop]
    show (m q).length - ((m q).length - fairShare m lists.size queues) ≤
      fairShare m lists.size queues
    omega
  · refine balanceLists_of_even hs' hpos (by rw [hsize]; exact hqueues) ?_ hleveled.beyond
    rw [hshare]
    exact hleveled.short

/-! ### Three lists -/

/-- A table with five weak references on two lists. -/
def unevenHeap : Heap where
  slots := [.low 1, .low 2, .low 3, .low 3, .low 4].foldl (fun slots following => slots.push
    { Slot.fresh (some .weak) .young none with discovered := .of (some following) }) .empty
  pending := .null

/-- Four references are on the first list and one is on the third. -/
def unevenLists : Array DiscoveredList :=
  #[⟨.of (some (.low 0)), 4⟩, .empty, ⟨.of (some (.low 4)), 1⟩]

/-- The members of these lists. -/
def unevenMembers : Nat → List Handle
  | 0 => [.low 0, .low 1, .low 2, .low 3]
  | 2 => [.low 4]
  | _ => []

theorem uneven_spread : Spread unevenHeap unevenLists unevenMembers := by
  constructor
  case listed =>
    intro q l hl
    match q with
    | 0 => cases hl; exact ⟨by decide, by decide, by decide, by decide, by decide⟩
    | 1 => cases hl; exact ⟨by decide, by decide, by decide, by decide, by decide⟩
    | 2 => cases hl; exact ⟨by decide, by decide, by decide, by decide, by decide⟩
    | q + 3 => cases hl
  case beyond =>
    intro q hq
    match q with
    | 0 => exact absurd hq (by decide)
    | 1 => exact absurd hq (by decide)
    | 2 => exact absurd hq (by decide)
    | q + 3 => rfl
  case apart =>
    intro q q' o ho ho'
    match q, q' with
    | 0, 0 | 2, 2 => rfl
    | 0, 2 =>
        exact absurd ho' ((by decide : ∀ o ∈ unevenMembers 0, o ∉ unevenMembers 2) o ho)
    | 2, 0 =>
        exact absurd ho ((by decide : ∀ o ∈ unevenMembers 0, o ∉ unevenMembers 2) o ho')
    | 1, _ | _ + 3, _ => cases ho
    | _, 1 | _, _ + 3 => cases ho'

/-- Balanced onto two queues the first list keeps its last three references, and the
third gives its only one away. -/
theorem balancing_evens_uneven : 0 < 2 ∧ 2 ≤ unevenLists.size ∧
    Spread unevenHeap unevenLists unevenMembers ∧
    ∃ h' lists' m', balanceLists unevenHeap unevenLists 2 = .ok (h', lists') ∧
      Spread h' lists' m' ∧ m' 2 = [] ∧ (m' 0).length ≤ 3 ∧
      [.low 1, .low 2, .low 3] <:+ m' 0 ∧ (gather m' 3).Perm (gather unevenMembers 3) ∧
      balanceLists h' lists' 2 = .ok (h', lists') := by
  obtain ⟨h', lists', m', hrun, hs', -, -, hperm, hbeyond, hshort, hkept, -, hagain⟩ :=
    balancing_evens_lists uneven_spread (show 0 < 2 by decide) (by decide)
  exact ⟨by decide, by decide, uneven_spread, h', lists', m', hrun, hs', hbeyond 2 (by decide),
    hshort 0 (by decide), hkept 0 (by decide), hperm, hagain⟩

end Referents
