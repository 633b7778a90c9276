import Referents.Proofs.Heap.Agreement

/-!
# Building object graphs

A mutator allocates objects, adds edges and stamps soft references.  An
allocation adds one slot and leaves all others; a new edge is found at its
source only.  None of this touches a link of another object, so lists and
chains stay as they are.

* `Heap.Grown`, `Heap.Edged`, `Heap.Stamped` — what an allocation, a new edge
  and a new stamp change.
* `Heap.Sane` — edges and targets stay in the table, and the stamps of soft
  references are clock readings.
* `Heap.Built`, `Heap.Built.untouched` — a graph that only a mutator has worked
  on has no marks and no links of lists.
-/

namespace Referents

namespace Heap

variable {h g : Heap} {o p a b : Handle} {s : Slot}

/-! ### Allocation -/

/-- The heap `g` is `h` with the slot `s` of the new object `o`. -/
structure Grown (s : Slot) (o : Handle) (h g : Heap) : Prop where
  index : o.index = h.size
  size : g.size = h.size + 1
  slot : ∀ p, g.slot? p = if p = o then some s else h.slot? p
  pending : g.pendingHead = h.pendingHead

/-- A slot that was pushed belongs to a new object at the end of the table. -/
theorem push_grown (hg : h.push s = .ok (o, g)) : Grown s o h g := by
  unfold push at hg
  split at hg
  · next n hn =>
      cases hg
      have hindex : o.index = h.size := Handle.ofIndex?_eq_some_iff.mp hn
      refine ⟨hindex, by simp [size], fun p => ?_, rfl⟩
      simp only [slot?, Table.get?_push]
      by_cases hp : p = o
      · rw [hp, if_pos rfl]
        exact if_pos hindex
      · rw [if_neg hp]
        exact if_neg fun e => hp (Handle.ext (e.trans hindex.symm))
  · cases hg

/-- An allocation fails only if there are no more handles. -/
theorem push_cases (h : Heap) (s : Slot) :
    (∃ o g, h.push s = .ok (o, g)) ∨ h.push s = .error (.error .handlesExhausted) := by
  unfold push
  split
  · exact .inl ⟨_, _, rfl⟩
  · exact .inr rfl

/-- A reference is allocated with a kind and a held referent, or not at all. -/
theorem allocateReference_grown {kind : Kind} {referent : Option Handle} {gen : Generation}
    (hg : h.allocateReference kind referent gen = .ok (o, g)) :
    kind.isSome = true ∧ h.holdsOption referent = true ∧
      Grown (.fresh kind gen referent) o h g := by
  unfold allocateReference at hg
  cases kind with
  | none => cases hg
  | some k =>
      cases referent with
      | none => exact ⟨rfl, rfl, push_grown hg⟩
      | some t =>
          have hg : (h.check t >>= fun _ => h.push (.fresh (some k) gen (some t))) =
              .ok (o, g) := hg
          by_cases ht : h.holds t = true
          · refine ⟨rfl, ht, push_grown ?_⟩
            rw [show h.check t = .ok () from if_pos ht] at hg
            exact hg
          · simp only [check, if_neg ht] at hg
            cases hg

/-- A request for a reference fails only with a reported error. -/
theorem allocateReference_cases (h : Heap) (kind : Kind) (referent : Option Handle)
    (gen : Generation) :
    (∃ o g, h.allocateReference kind referent gen = .ok (o, g)) ∨
      ∃ e, h.allocateReference kind referent gen = .error (.error e) := by
  have hpush : (∃ o g, h.push (.fresh kind gen referent) = .ok (o, g)) ∨
      ∃ e, h.push (.fresh kind gen referent) = .error (.error e) :=
    (h.push_cases _).imp id fun hfull => ⟨_, hfull⟩
  cases kind with
  | none => exact .inr ⟨_, rfl⟩
  | some k =>
      cases referent with
      | none => exact hpush
      | some t =>
          by_cases ht : h.holds t = true
          · simpa [allocateReference, check, ht, bind, Except.bind] using hpush
          · exact .inr ⟨.invalidHandle t.index h.size,
              by simp [allocateReference, check, ht, bind, Except.bind]⟩

namespace Grown

/-- The new object is held, and nothing else but what was held before. -/
theorem holds (hg : Grown s o h g) (p : Handle) : g.holds p = true ↔ p = o ∨ h.holds p = true := by
  simp only [Heap.holds, decide_eq_true_eq, hg.size]
  constructor
  · intro hp
    rcases Nat.lt_succ_iff_lt_or_eq.mp hp with hp | hp
    · exact .inr hp
    · exact .inl (Handle.ext (hp.trans hg.index.symm))
  · intro hcases
    rcases hcases with rfl | hp
    · rw [hg.index]
      omega
    · omega

/-- The new object was not held before. -/
theorem not_holds (hg : Grown s o h g) : ¬ h.holds o = true := by
  simp [Heap.holds, hg.index]

/-- The links of the new object are those of its slot, all others are as before. -/
theorem link (hg : Grown s o h g) (f : LinkField) (p : Handle) :
    g.link ⟨p, f⟩ = if p = o then s.get f else h.link ⟨p, f⟩ := by
  rw [Heap.link, hg.slot]
  split
  · rfl
  · rfl

/-- The traits of the new object are those of its slot, all others are as before. -/
theorem traits (hg : Grown s o h g) (p : Handle) :
    g.traits p = if p = o then some s.traits else h.traits p := by
  rw [Heap.traits, hg.slot]
  split <;> rfl

/-- The mark of the new object is that of its slot, all others are as before. -/
theorem marks (hg : Grown s o h g) (p : Handle) :
    g.marks p = if p = o then s.marked else h.marks p := by
  rw [Heap.marks, hg.slot]
  split
  · simp
  · rfl

/-- The kind of the new object is that of its slot, all others are as before. -/
theorem kindOf (hg : Grown s o h g) (p : Handle) :
    g.kindOf p = if p = o then s.kind else h.kindOf p := by
  rw [Heap.kindOf, hg.traits]
  split
  · rfl
  · rfl

/-- The edges of the new object are those of its slot, all others are as before. -/
theorem edgesOf (hg : Grown s o h g) (p : Handle) :
    g.edgesOf p = if p = o then s.edges else h.edgesOf p := by
  rw [Heap.edgesOf, hg.traits]
  split
  · rfl
  · rfl

/-- An object that was held before is another one. -/
theorem ne_of_holds (hg : Grown s o h g) (hp : h.holds p = true) : p ≠ o :=
  fun e => hg.not_holds (e ▸ hp)

/-- A new object without links of lists leaves all lists and chains. -/
theorem keeps (hg : Grown s o h g) (hs : s.get .discovered = none)
    (ht : ∀ t, s.get .referent = some t → h.holds t = true) : h.Keeps g where
  size := by rw [hg.size]; omega
  kind p hp := by rw [hg.kindOf, if_neg (hg.ne_of_holds hp)]
  link a ha _ := by
    have hlink := hg.link a.field a.obj
    rw [if_neg (hg.ne_of_holds ha)] at hlink
    exact hlink
  following p _ := by
    rw [Heap.following, hg.link]
    split
    · next hp =>
        rw [hs, hp]
        exact (link_of_not_holds hg.not_holds).symm
    · rfl
  targets htargets p t hpt := by
    rw [Heap.target, hg.link] at hpt
    rw [hg.holds]
    split at hpt
    · exact .inr (ht t hpt)
    · exact .inr (htargets p t hpt)
  pending := hg.pending

end Grown

/-! ### Edges and stamps -/

/-- The heap `g` is `h` with the traits of `a` changed by `f`. -/
structure Retraited (a : Handle) (f : Traits → Traits) (h g : Heap) : Prop where
  size : g.size = h.size
  pending : g.pendingHead = h.pendingHead
  link : g.link = h.link
  marks : g.marks = h.marks
  traits : ∀ p, g.traits p = (h.traits p).map fun t => if p = a then f t else t

/-- A change of a slot that keeps links and mark changes the traits of one object. -/
theorem modify_retraited {f : Slot → Slot} {f' : Traits → Traits} (ha : h.holds a = true)
    (hlink : ∀ s x, (f s).get x = s.get x) (hmarked : ∀ s, (f s).marked = s.marked)
    (htraits : ∀ s, (f s).traits = f' s.traits) :
    ∃ g, h.modify a f = .ok g ∧ Retraited a f' h g := by
  obtain ⟨s, hs⟩ := holds_iff_slot.mp ha
  refine ⟨_, modify_eq_ok _ hs, size_put _ _ _, rfl, ?_, ?_, ?_⟩
  · funext x
    exact view_put_of_eq (fun t => t.bind fun t => t.get x.field) hs (hlink s x.field)
  · funext p
    exact view_put_of_eq (Option.any Slot.marked) hs (hmarked s)
  · intro p
    simp only [Heap.traits, view_put (Option.map Slot.traits) hs]
    split
    · next hp => rw [hp, hs]; simp [htraits]
    · cases h.slot? p <;> rfl

namespace Retraited

variable {f : Traits → Traits}

/-- The same handles are held. -/
theorem holds (hg : Retraited a f h g) (p : Handle) : g.holds p = h.holds p := by
  rw [Heap.holds, Heap.holds, hg.size]

/-- Kinds are as before if the change of the traits keeps them. -/
theorem kindOf (hg : Retraited a f h g) (hf : ∀ t, (f t).kind = t.kind) : g.kindOf = h.kindOf := by
  funext p
  rw [Heap.kindOf, Heap.kindOf, hg.traits]
  cases h.traits p with
  | none => rfl
  | some t => by_cases hp : p = a <;> simp [hp, hf]

/-- Lists and chains are about links and kinds only. -/
theorem keeps (hg : Retraited a f h g) (hf : ∀ t, (f t).kind = t.kind) : h.Keeps g :=
  keeps_of_link hg.size (hg.kindOf hf) hg.link hg.pending

end Retraited

/-- The heap `g` is `h` with an edge from `a` to `b`. -/
structure Edged (a b : Handle) (h g : Heap) : Prop
    extends Retraited a (fun t => { t with edges := t.edges ++ [b] }) h g where
  source : h.holds a = true
  target : h.holds b = true

/-- An edge between held objects is added without a fault. -/
theorem addEdge_eq_ok (ha : h.holds a = true) (hb : h.holds b = true) :
    ∃ g, h.addEdge a b = .ok g ∧ Edged a b h g := by
  obtain ⟨g, hmodify, hg⟩ : ∃ g, h.modify a (fun s => { s with edges := s.edges ++ [b] }) = .ok g ∧
      Retraited a (fun t => { t with edges := t.edges ++ [b] }) h g :=
    modify_retraited ha (fun s x => by cases x <;> rfl) (fun _ => rfl) fun _ => rfl
  refine ⟨g, ?_, hg, ha, hb⟩
  simpa [addEdge, check, ha, hb, bind, Except.bind] using hmodify

/-- An edge is added between held objects, and only there. -/
theorem addEdge_edged (hg : h.addEdge a b = .ok g) : Edged a b h g := by
  by_cases ha : h.holds a = true
  · by_cases hb : h.holds b = true
    · obtain ⟨g', hg', he⟩ := addEdge_eq_ok ha hb
      rw [hg] at hg'
      cases hg'
      exact he
    · simp [addEdge, check, ha, hb, bind, Except.bind] at hg
  · simp [addEdge, check, ha, bind, Except.bind] at hg

/-- A request for an edge fails only with a reported error. -/
theorem addEdge_cases (h : Heap) (a b : Handle) :
    (∃ g, h.addEdge a b = .ok g) ∨ ∃ e, h.addEdge a b = .error (.error e) := by
  by_cases ha : h.holds a = true
  · by_cases hb : h.holds b = true
    · exact .inl ((addEdge_eq_ok ha hb).imp fun _ hg => hg.1)
    · exact .inr ⟨.invalidHandle b.index h.size,
        by simp [addEdge, check, ha, hb, bind, Except.bind]⟩
  · exact .inr ⟨.invalidHandle a.index h.size, by simp [addEdge, check, ha, bind, Except.bind]⟩

/-- A new edge touches no link. -/
theorem Edged.keeps (he : Edged a b h g) : h.Keeps g := he.toRetraited.keeps fun _ => rfl

/-- The new edge is the only one that was added. -/
theorem Edged.mem_edgesOf_iff (he : Edged a b h g) {q : Handle} :
    q ∈ g.edgesOf p ↔ q ∈ h.edgesOf p ∨ p = a ∧ q = b := by
  rw [Heap.edgesOf, he.traits, Heap.edgesOf]
  by_cases hp : p = a
  · obtain ⟨t, ht⟩ := Option.isSome_iff_exists.mp (holds_iff_traits.mp he.source)
    subst hp
    simp [ht]
  · cases ht : h.traits p with
    | none => simp [hp]
    | some t => simp [hp]

/-- The heap `g` is `h` with the stamp `clock` on `a`. -/
abbrev Stamped (a : Handle) (clock : Int) : Heap → Heap → Prop :=
  Retraited a fun t => { t with timestamp := clock }

/-- A held object is stamped without a fault. -/
theorem setTimestamp_stamped (clock : Int) (ha : h.holds a = true) :
    ∃ g, h.setTimestamp a clock = .ok g ∧ Stamped a clock h g :=
  modify_retraited ha (fun s x => by cases x <;> rfl) (fun _ => rfl) fun _ => rfl

/-- A stamp leaves the edges. -/
theorem Stamped.edgesOf {clock : Int} (hg : Stamped a clock h g) : g.edgesOf = h.edgesOf := by
  funext p
  rw [Heap.edgesOf, Heap.edgesOf, hg.traits]
  cases h.traits p with
  | none => rfl
  | some t => by_cases hp : p = a <;> simp [hp]

/-! ### Tables in order -/

/-- Edges stay in the table, and stamps are clock readings from zero on. -/
structure Orderly (h : Heap) : Prop where
  edges : h.EdgesHeld
  stamps : ∀ o t, h.traits o = some t → 0 ≤ t.timestamp ∧ t.timestamp < 2 ^ 63

/-- So do targets. -/
structure Sane (h : Heap) : Prop extends h.Orderly where
  targets : h.TargetsHeld

/-- Links and marks do not matter for edges and stamps. -/
theorem Orderly.congr (hs : h.Orderly) (htraits : g.traits = h.traits) : g.Orderly where
  edges o q hq := by
    rw [edgesOf_congr htraits] at hq
    rw [holds_congr htraits]
    exact hs.edges o q hq
  stamps o t ht := hs.stamps o t (by rwa [htraits] at ht)

/-- Whether a table is in order can be read off its slots. -/
theorem Sane.of_slots (hedges : ∀ s ∈ h.slots.toList, ∀ q ∈ s.edges, h.holds q = true)
    (htargets : ∀ s ∈ h.slots.toList, h.holdsOption s.referent.target = true)
    (hstamps : ∀ s ∈ h.slots.toList, 0 ≤ s.timestamp ∧ s.timestamp < 2 ^ 63) : h.Sane where
  edges := forall_edgesOf (P := fun _ q => h.holds q = true) hedges
  targets o t ht := by
    have hheld : h.holdsOption (h.target o) = true :=
      forall_link (P := fun v => h.holdsOption v = true) .referent rfl htargets
    rw [ht] at hheld
    exact hheld
  stamps _ _ ht := forall_traits (P := fun t => 0 ≤ t.timestamp ∧ t.timestamp < 2 ^ 63) hstamps ht

/-- A table in order stays in order when it grows. -/
theorem Sane.grown (hs : h.Sane) {kind : Kind} {gen : Generation} {referent : Option Handle}
    (hg : Grown (.fresh kind gen referent) o h g) (ht : h.holdsOption referent = true) :
    g.Sane where
  edges p q hq := by
    rw [hg.edgesOf] at hq
    rw [hg.holds]
    split at hq
    · cases hq
    · exact .inr (hs.edges p q hq)
  targets p t hpt := by
    rw [Heap.target, hg.link] at hpt
    rw [hg.holds]
    split at hpt
    · have hreferent : referent = some t := by simpa [Slot.get, Slot.fresh] using hpt
      rw [hreferent] at ht
      exact .inr ht
    · exact .inr (hs.targets p t hpt)
  stamps p t hpt := by
    rw [hg.traits] at hpt
    split at hpt
    · cases hpt
      exact ⟨Int.le_refl 0, by simp [Slot.traits, Slot.fresh]⟩
    · exact hs.stamps p t hpt

/-- A table in order stays in order with a new edge. -/
theorem Sane.edged (hs : h.Sane) (he : Edged a b h g) : g.Sane where
  edges p q hq := by
    rw [he.holds]
    rcases he.mem_edgesOf_iff.mp hq with hq | ⟨-, rfl⟩
    · exact hs.edges p q hq
    · exact he.target
  targets := he.keeps.targets hs.targets
  stamps p t hpt := by
    rw [he.traits] at hpt
    obtain ⟨t', ht', rfl⟩ := Option.map_eq_some_iff.mp hpt
    have hstamp := hs.stamps p t' ht'
    split
    · exact hstamp
    · exact hstamp

/-- A table in order stays in order with a stamp from the clock. -/
theorem Sane.stamped {clock : Int} (hs : h.Sane) (hg : Stamped a clock h g) (hpos : 0 ≤ clock)
    (hlt : clock < 2 ^ 63) : g.Sane where
  edges p q hq := by
    rw [Stamped.edgesOf hg] at hq
    rw [hg.holds]
    exact hs.edges p q hq
  targets := (hg.keeps fun _ => rfl).targets hs.targets
  stamps p t hpt := by
    rw [hg.traits] at hpt
    obtain ⟨t', ht', rfl⟩ := Option.map_eq_some_iff.mp hpt
    split
    · exact ⟨hpos, hlt⟩
    · exact hs.stamps p t' ht'

/-- Links and marks may change as long as targets stay in the table. -/
theorem Sane.congr (hs : h.Sane) (htraits : g.traits = h.traits) (htargets : g.TargetsHeld) :
    g.Sane := ⟨hs.toOrderly.congr htraits, htargets⟩

/-- A reference may get any target in the table. -/
theorem Sane.retarget {v : Option Handle} (hs : h.Sane) (hv : h.holdsOption v = true) :
    (h.write ⟨o, .referent⟩ v).Sane := by
  refine hs.congr traits_write fun p t ht => ?_
  rw [holds_write]
  by_cases hp : p = o
  · subst hp
    have hheld : h.holds p = true := by simpa using holds_of_link ht
    rw [Heap.target, link_write_self hheld] at ht
    rw [ht] at hv
    exact hv
  · rw [Heap.target, link_write_of_obj_ne hp] at ht
    exact hs.targets p t ht

/-- A table that no collector has worked on: no marks, no links but targets, and
nothing pending. -/
structure Untouched (h : Heap) : Prop extends h.Sane where
  following : ∀ o, h.following o = none
  next : ∀ o, h.nextLink o = none
  marks : ∀ o, h.marks o = false
  pending : h.pendingHead = none
  unstamped : ∀ o t, h.traits o = some t → t.timestamp = 0

/-- The empty table holds nothing. -/
theorem not_holds_empty (o : Handle) : ¬ Heap.empty.holds o = true := by
  simp [Heap.holds, Heap.size, Heap.empty]

/-- The empty table has no slots. -/
theorem slot?_empty (o : Handle) : Heap.empty.slot? o = none := by
  cases hs : Heap.empty.slot? o with
  | none => rfl
  | some s => exact absurd (holds_iff_slot.mpr ⟨s, hs⟩) (not_holds_empty o)

/-- No collector has worked on the empty table. -/
theorem untouched_empty : Heap.empty.Untouched where
  edges o q hq := by simp [Heap.edgesOf, Heap.traits, slot?_empty] at hq
  targets o t ht := by simp [Heap.target, Heap.link, slot?_empty] at ht
  stamps o t ht := by simp [Heap.traits, slot?_empty] at ht
  following o := by simp [Heap.link, slot?_empty]
  next o := by simp [Heap.link, slot?_empty]
  marks o := by simp [Heap.marks, slot?_empty]
  pending := Link.target_null
  unstamped o t ht := by simp [Heap.traits, slot?_empty] at ht

/-- Allocation is no work of a collector. -/
theorem Untouched.grown (hu : h.Untouched) {kind : Kind} {gen : Generation}
    {referent : Option Handle} (hg : Grown (.fresh kind gen referent) o h g)
    (ht : h.holdsOption referent = true) : g.Untouched where
  toSane := hu.toSane.grown hg ht
  following p := by
    rw [Heap.following, hg.link]
    split
    · exact Link.target_null
    · exact hu.following p
  next p := by
    rw [Heap.nextLink, hg.link]
    split
    · exact Link.target_null
    · exact hu.next p
  marks p := by
    rw [hg.marks]
    split
    · rfl
    · exact hu.marks p
  pending := hg.pending.trans hu.pending
  unstamped p t hpt := by
    rw [hg.traits] at hpt
    split at hpt
    · cases hpt
      rfl
    · exact hu.unstamped p t hpt

/-- An edge is no work of a collector. -/
theorem Untouched.edged (hu : h.Untouched) (he : Edged a b h g) : g.Untouched where
  toSane := hu.toSane.edged he
  following p := by rw [Heap.following, he.link]; exact hu.following p
  next p := by rw [Heap.nextLink, he.link]; exact hu.next p
  marks p := by rw [he.marks]; exact hu.marks p
  pending := he.pending.trans hu.pending
  unstamped p t hpt := by
    rw [he.traits] at hpt
    obtain ⟨t', ht', rfl⟩ := Option.map_eq_some_iff.mp hpt
    have hstamp := hu.unstamped p t' ht'
    split
    · exact hstamp
    · exact hstamp

/-- A graph that was built by allocations and new edges alone. -/
inductive Built : Heap → Prop
  | empty : Built .empty
  | allocate {h g : Heap} {o : Handle} {gen : Generation} :
      Built h → h.allocate gen = .ok (o, g) → Built g
  | allocateReference {h g : Heap} {o : Handle} {kind : Kind} {referent : Option Handle}
      {gen : Generation} :
      Built h → h.allocateReference kind referent gen = .ok (o, g) → Built g
  | addEdge {h g : Heap} {a b : Handle} : Built h → h.addEdge a b = .ok g → Built g

/-- On a graph that was built by a program alone no collector has worked. -/
theorem Built.untouched (hb : h.Built) : h.Untouched := by
  induction hb with
  | empty => exact untouched_empty
  | allocate _ hg ih => exact ih.grown (push_grown hg) rfl
  | allocateReference _ hg ih =>
      obtain ⟨-, ht, hgrown⟩ := allocateReference_grown hg
      exact ih.grown hgrown ht
  | addEdge _ hg ih => exact ih.edged (addEdge_edged hg)

end Heap

end Referents
