import Referents.Proofs.Heap.Linked
import Referents.Proofs.Hooks

/-!
# What a visit to a list asks of the collector

A visit to a list passes its members one by one.  Each member costs some calls
of the collector, and is then dropped or kept; a member that is kept in order
to be published is linked to the one kept before it.  The **transcript** of a
visit tells which calls these are, in order, and nothing else is called.

* `Asked`, `Sealing` — the calls for one member, when a list is resolved and
  when final references are kept alive.
* `Told.stored` — the stores of a visit whose members are published are the
  links of the chain, each of them once and in order.
* `Told.consultations` — the other calls of a visit are those for its members,
  in order.
* `Transcript.kept_eq` — which members are kept if the answers do not change.
-/

namespace Referents

/-- The calls for a member that is dropped, or spared, where a list is
resolved; its target is kept alive only if `keeping`. -/
inductive Asked (h : Heap) (keeping : Bool) (o : Handle) : (spared : Bool) → List Call → Prop
  /-- Nothing is asked about a null target. -/
  | null (ht : h.target o = none) : Asked h keeping o false []
  | alive {r : Handle} (ht : h.target o = some r) :
      Asked h keeping o false (.isAlive r true :: if keeping then [.keepAlive o r] else [])
  | dead {r : Handle} (ht : h.target o = some r) : Asked h keeping o true [.isAlive r false]

/-- The calls for a final reference whose target is kept alive. -/
inductive Sealing (h : Heap) (o : Handle) : (spared : Bool) → List Call → Prop
  | keep {r : Handle} (ht : h.target o = some r) : Sealing h o true [.keepAlive o r]

/-- The call that links the last of some members to `v`. -/
def linkCalls (kept : List Handle) (v : Option Handle) : List Call :=
  kept.getLast?.toList.map fun p => .store ⟨p, .discovered⟩ v

/-- The stores that link some members to a chain that goes on at `stop`. -/
def chainStores (stop : Option Handle) : List Handle → List (LinkAddr × Option Handle)
  | [] => []
  | o :: rest => (⟨o, .discovered⟩, rest.head?.or stop) :: chainStores stop rest

/-- The calls of a visit that has passed some members and kept some of these,
where `costs` tells which calls one member costs. -/
inductive Transcript (costs : Handle → Bool → List Call → Prop) (publishing : Bool) :
    List Handle → List Handle → List Call → Prop
  | start : Transcript costs publishing [] [] []
  | drop {passed kept calls said : List _} {o : Handle}
      (past : Transcript costs publishing passed kept calls) (member : costs o false said) :
      Transcript costs publishing (passed ++ [o]) kept (calls ++ said)
  | keep {passed kept calls said : List _} {o : Handle}
      (past : Transcript costs publishing passed kept calls) (member : costs o true said) :
      Transcript costs publishing (passed ++ [o]) (kept ++ [o])
        (calls ++ said ++ if publishing then linkCalls kept (some o) else [])

/-- The calls of a visit to the whole list `ms`, and of publishing what was
kept in front of a chain that starts at `old`. -/
def Told (costs : Handle → Bool → List Call → Prop) (publishing : Bool) (ms kept : List Handle)
    (old : Option Handle) (calls : List Call) : Prop :=
  ∃ visit, Transcript costs publishing ms kept visit ∧
    calls = visit ++ if publishing then linkCalls kept old else []

variable {costs : Handle → Bool → List Call → Prop} {publishing : Bool} {h : Heap} {o : Handle}
variable {ms passed kept : List Handle} {calls : List Call} {old : Option Handle}

/-- Linking a member keeps nothing alive. -/
theorem keepAlive_not_mem_linkCalls (kept : List Handle) (v : Option Handle) (p q : Handle) :
    .keepAlive p q ∉ linkCalls kept v := by
  simp [linkCalls]

/-- What a collector is consulted about for a member that is dropped, or spared. -/
def Heap.consultations (h : Heap) (o : Handle) (spared : Bool) : List Consultation :=
  match h.target o with
  | none => []
  | some r => if spared then [.asked r false] else [.asked r true, .kept ⟨o, .referent⟩]

/-! ### Stores -/

/-- The link to the end of a chain is stored last. -/
theorem chainStores_concat (stop : Option Handle) (init : List Handle) (p : Handle) :
    chainStores stop (init ++ [p]) = chainStores (some p) init ++ [(⟨p, .discovered⟩, stop)] := by
  induction init with
  | nil => rfl
  | cons o rest ih => cases rest <;> simp_all [chainStores]

/-- If the members are linked, then each was told to link as it does. -/
theorem chainStores_of_linked {stop : Option Handle} (hlinked : h.Linked stop ms) :
    chainStores stop ms = ms.map fun o => (⟨o, .discovered⟩, h.following o) := by
  induction ms with
  | nil => rfl
  | cons o rest ih => rw [chainStores, List.map_cons, hlinked.1, ih hlinked.2]

/-- Of the kept members only the last is told to link. -/
theorem filterMap_linkCalls_concat (v : Option Handle) (init : List Handle) (p : Handle) :
    (linkCalls (init ++ [p]) v).filterMap Call.stored? = [(⟨p, .discovered⟩, v)] := by
  simp [linkCalls, Call.stored?]

/-- Together with the link that comes next, the stores of a visit are those of
the chain up to there. -/
theorem Transcript.stored (hcosts : ∀ o b said, costs o b said → said.filterMap Call.stored? = [])
    (ht : Transcript costs true ms kept calls) (next : Option Handle) :
    calls.filterMap Call.stored? ++ (linkCalls kept next).filterMap Call.stored? =
      chainStores next kept := by
  induction ht generalizing next with
  | start => rfl
  | drop past member ih => rw [List.filterMap_append, hcosts _ _ _ member, List.append_nil, ih]
  | @keep passed kept calls said o past member ih =>
      rw [if_pos rfl, List.filterMap_append, List.filterMap_append, hcosts _ _ _ member,
        List.append_nil, ih (some o), filterMap_linkCalls_concat, chainStores_concat]

/-- Publishing stores the links of the published chain, and no others. -/
theorem Told.stored (hcosts : ∀ o b said, costs o b said → said.filterMap Call.stored? = [])
    (ht : Told costs true ms kept old calls) :
    calls.filterMap Call.stored? = chainStores old kept := by
  obtain ⟨visit, hvisit, rfl⟩ := ht
  rw [if_pos rfl, List.filterMap_append, hvisit.stored hcosts]

/-- Asking what is alive stores nothing. -/
theorem Asked.stored {keeping spared : Bool} {said : List Call}
    (ha : Asked h keeping o spared said) : said.filterMap Call.stored? = [] := by
  cases ha with
  | null ht => rfl
  | alive ht => cases keeping <;> rfl
  | dead ht => rfl

/-- Keeping a referent alive stores nothing. -/
theorem Sealing.stored {spared : Bool} {said : List Call} (hs : Sealing h o spared said) :
    said.filterMap Call.stored? = [] := by
  cases hs with
  | keep ht => rfl

/-- If some references are published in front of a chain, they were told to link as they do. -/
theorem Heap.Pends.chainStores_eq {g : Heap} {ps : List Handle} (hps : h.Pends ps)
    (hpends : g.Pends (kept ++ ps)) :
    chainStores h.pendingHead kept = kept.map fun o => (⟨o, .discovered⟩, g.following o) := by
  apply chainStores_of_linked
  have hlinked := (Heap.linked_append.mp hpends.linked).1
  rwa [Option.or_none, ← hps.head] at hlinked

/-! ### Consultations -/

/-- Linking the members consults about nothing. -/
theorem filterMap_linkCalls (publishing : Bool) (kept : List Handle) (v : Option Handle) :
    (if publishing then linkCalls kept v else []).filterMap Call.consultation? = [] := by
  cases publishing with
  | false => rfl
  | true =>
      rw [if_pos rfl, linkCalls, List.filterMap_map]
      exact List.filterMap_eq_nil_iff.mpr fun _ _ => rfl

/-- What was kept was passed in the same order. -/
theorem Transcript.sublist (ht : Transcript costs publishing passed kept calls) :
    kept.Sublist passed := by
  induction ht with
  | start => exact .slnil
  | drop past member ih => exact ih.trans (List.sublist_append_left _ _)
  | keep past member ih => exact ih.append (.refl _)

/-- The members are consulted about in order, each by what becomes of it. -/
theorem Transcript.consultations {about : Handle → Bool → List Consultation}
    (hcosts : ∀ o b said, costs o b said → said.filterMap Call.consultation? = about o b)
    (ht : Transcript costs publishing passed kept calls) (hnodup : passed.Nodup) :
    calls.filterMap Call.consultation? = passed.flatMap fun o => about o (decide (o ∈ kept)) := by
  induction ht with
  | start => rfl
  | @drop passed kept calls said o past member ih =>
      have ho : o ∉ kept := fun hk =>
        (List.nodup_append.mp hnodup).2.2 o (past.sublist.subset hk) o (by simp) rfl
      rw [List.filterMap_append, ih (List.nodup_append.mp hnodup).1, hcosts _ _ _ member]
      simp [ho]
  | @keep passed kept calls said o past member ih =>
      -- the verdicts on the members before `o` stay as they were
      have hbefore : (passed.flatMap fun p => about p (decide (p ∈ kept ++ [o]))) =
          passed.flatMap fun p => about p (decide (p ∈ kept)) := by
        refine List.flatMap_congr fun p hp => ?_
        have hpo : p ≠ o := (List.nodup_append.mp hnodup).2.2 p hp o (by simp)
        simp [hpo]
      rw [List.filterMap_append, List.filterMap_append, ih (List.nodup_append.mp hnodup).1,
        hcosts _ _ _ member, filterMap_linkCalls, List.flatMap_append, hbefore]
      simp

/-- A member is consulted about by its referent and what was answered. -/
theorem Asked.consultations {spared : Bool} {said : List Call} (ha : Asked h true o spared said) :
    said.filterMap Call.consultation? = h.consultations o spared := by
  cases ha <;> simp [Heap.consultations, Call.consultation?, *]

/-- A final reference is consulted about once. -/
theorem Sealing.consultations {spared : Bool} {said : List Call} (hs : Sealing h o spared said) :
    said.filterMap Call.consultation? = [.kept ⟨o, .referent⟩] := by
  cases hs with
  | keep ht => rfl

/-- Publishing consults about nothing. -/
theorem Told.consultations {about : Handle → Bool → List Consultation}
    (hcosts : ∀ o b said, costs o b said → said.filterMap Call.consultation? = about o b)
    (ht : Told costs publishing ms kept old calls) (hnodup : ms.Nodup) :
    calls.filterMap Call.consultation? = ms.flatMap fun o => about o (decide (o ∈ kept)) := by
  obtain ⟨visit, hvisit, rfl⟩ := ht
  rw [List.filterMap_append, hvisit.consultations hcosts hnodup, filterMap_linkCalls,
    List.append_nil]

/-! ### Who is kept -/

/-- Whether a member stays on its list: it has a target, and that is not alive. -/
def Heap.stays (h : Heap) (alive : Handle → Bool) (o : Handle) : Bool :=
  (h.target o).any fun r => !alive r

/-- A member is kept or dropped as its target demands. -/
theorem Asked.stays_eq {alive : Handle → Bool} {keeping spared : Bool} {said : List Call}
    (ha : Asked h keeping o spared said) (ht : Truthful alive said) :
    h.stays alive o = spared := by
  cases ha with
  | null hnull => simp [Heap.stays, hnull]
  | @alive r hr => simp [Heap.stays, hr, ht r true (by simp)]
  | @dead r hr => simp [Heap.stays, hr, ht r false (by simp)]

/-- Where the answers do not change, a visit keeps those whose target is not alive. -/
theorem Transcript.kept_eq {alive : Handle → Bool} {keeping : Bool}
    (ht : Transcript (Asked h keeping) publishing passed kept calls)
    (htrue : Truthful alive calls) : kept = passed.filter (h.stays alive) := by
  induction ht with
  | start => rfl
  | @drop passed kept calls said o past member ih =>
      have hstays := member.stays_eq htrue.of_append.2
      rw [List.filter_append, ← ih htrue.of_append.1]
      simp [hstays]
  | @keep passed kept calls said o past member ih =>
      have hstays := member.stays_eq htrue.of_append.1.of_append.2
      rw [List.filter_append, ← ih htrue.of_append.1.of_append.1]
      simp [hstays]

end Referents
