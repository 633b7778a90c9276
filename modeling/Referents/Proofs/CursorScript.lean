import Referents.Proofs.Callbacks

/-!
# Scripts for a cursor

A **script** decides for one member of a list after another whether the cursor
drops it, keeps it, or keeps and enqueues it.  The caller may stop at any time;
what matters is the part of the script that was carried out by then.

* `At.carryOut_ok` — one decision moves a cursor on by one member.
* `At.follow_ok` — so does a script, by induction on it.
* `follow_reshapes_list` — the list holds what was kept and what is to come,
  and publishing puts what was kept in front of the pending chain.
-/

namespace Referents

/-- What is decided about a member. -/
inductive Decision where
  | drop
  | keep
  | enqueue
deriving DecidableEq

namespace Cursor

variable {γ : Type}

/-- Visits the current member as it was decided. -/
def carryOut (hooks : Hooks γ) (d : Decision) (c : Cursor) : Act γ Cursor := do
  let c ← Act.read (c.load true)
  match d with
  | .drop =>
      let c ← Act.transform c.drop
      Act.ofExcept c.skip
  | .keep => Act.ofExcept c.advance
  | .enqueue =>
      let c ← c.enqueue hooks
      Act.ofExcept c.advance

/-- Carries a script out until it or the list ends, and returns the visited members. -/
def follow (hooks : Hooks γ) : List Decision → Cursor → Act γ (List Handle × Cursor)
  | [], c => return ([], c)
  | d :: ds, c =>
      match c.current with
      | none => return ([], c)
      | some o => do
          let c ← c.carryOut hooks d
          let (visited, c) ← follow hooks ds c
          return (o :: visited, c)

/-- The members that a script keeps. -/
def spared (ms : List Handle) (ds : List Decision) : List Handle :=
  ((ms.zip ds).filter fun p => p.2 ≠ .drop).map Prod.fst

variable {hooks : Hooks γ} {w : World γ} {c : Cursor} {l : DiscoveredList} {h : Heap}
variable {o : Handle} {passed kept rest ms ps : List Handle} {d : Decision} {ds : List Decision}

@[simp] theorem spared_nil : spared ms [] = [] := by simp [spared]

@[simp] theorem nil_spared : spared [] ds = [] := rfl

theorem spared_cons : spared (o :: ms) (d :: ds) =
    if d = .drop then spared ms ds else o :: spared ms ds := by
  cases d <;> rfl

/-- Every member that is visited is kept or dropped. -/
theorem length_spared (ms : List Handle) (ds : List Decision) :
    (spared ms ds).length + (ds.take ms.length).count .drop = (ms.take ds.length).length := by
  induction ms generalizing ds with
  | nil => simp
  | cons o ms ih =>
      cases ds with
      | nil => simp
      | cons d ds =>
          have hrest := ih ds
          rw [spared_cons, List.length_cons, List.length_cons, List.take_succ_cons,
            List.take_succ_cons, List.count_cons, List.length_cons]
          rcases d with _ | _ | _ <;> simp only [reduceCtorEq, if_true, if_false,
            List.length_cons, beq_iff_eq] <;> omega

/-! ### One decision -/

/-- The heap holds all the links of the chain of kept members, so a plain store
that enqueues one more member changes nothing. -/
theorem At.enqueue_plain_ok (hplain : hooks.enqueue = plainEnqueue)
    (hc : c.At w.heap passed kept (o :: rest)) :
    ∃ c', c.enqueue hooks w = .ok c' w ∧ c'.At w.heap passed kept (o :: rest) ∧
      c'.following = c.following := by
  have hmember : (Act.ofExcept c.member : Act γ Handle) w = .ok o w :=
    Act.ofExcept_ok hc.member_ok
  cases hk : c.kept with
  | none =>
      have hkept : kept = [] := List.getLast?_eq_none_iff.mp (hc.last.symm.trans hk)
      refine ⟨{ c with list := c.list.setHead (some o) }, ?_, ?_, rfl⟩
      · refine (bind_ok hmember).trans ?_
        simp only [hk]
        rfl
      · subst hkept
        exact { hc with head := DiscoveredList.head_setHead c.list (some o) }
  | some k =>
      have hheld : w.heap.holds k = true :=
        hc.held k (List.mem_append_left _ (hc.mem_of_last hk).2)
      have hstore := Hooks.plainEnqueue_ok (some o) hheld
      rw [Heap.write_link (hc.following_last hk) hheld] at hstore
      refine ⟨c, ?_, hc, rfl⟩
      refine (bind_ok hmember).trans ?_
      simp only [hk]
      rw [hplain]
      exact bind_ok hstore

/-- One decision moves a cursor on by one member. -/
theorem At.carryOut_ok (hplain : hooks.enqueue = plainEnqueue)
    (hc : c.At w.heap passed kept (o :: rest))
    (htarget : ∀ r, w.heap.target o = some r → w.heap.holds r = true) (d : Decision) :
    ∃ c' w', c.carryOut hooks d w = .ok c' w' ∧
      c'.At w'.heap (passed ++ [o]) (if d = .drop then kept else kept ++ [o]) rest ∧
      w.heap.Relinks (fun p => p ∈ passed ∨ p = o) w'.heap ∧ w'.collector = w.collector := by
  have hload := Act.read_ok (w := w) (hc.load_ok true htarget fun _ => rfl)
  have hc₁ := hc.loaded (rest.head?.or (some o)) (w.heap.target o)
  cases d with
  | drop =>
      obtain ⟨c', hskip, hc'⟩ := hc₁.drop_ok rfl
      refine ⟨c', { w with heap := w.heap.bypass kept.getLast? o rest }, ?_, hc', ?_, rfl⟩
      · refine (bind_ok hload).trans ?_
        exact (bind_ok (Act.transform_ok (hc₁.drop_eq rfl))).trans (Act.ofExcept_ok hskip)
      · refine Heap.relinks_bypass (.inr rfl) ?_
        intro p hp
        exact .inl (hc.sublist.subset (List.mem_of_getLast? hp))
  | keep =>
      obtain ⟨c', hadvance, hc'⟩ := hc₁.advance_ok rfl
      refine ⟨c', w, ?_, hc', .refl _ _, rfl⟩
      exact (bind_ok hload).trans (Act.ofExcept_ok hadvance)
  | enqueue =>
      obtain ⟨c₂, henqueue, hc₂, hfollowing⟩ := hc₁.enqueue_plain_ok hplain
      obtain ⟨c', hadvance, hc'⟩ := hc₂.advance_ok hfollowing
      refine ⟨c', w, ?_, hc', .refl _ _, rfl⟩
      refine (bind_ok hload).trans ?_
      exact (bind_ok henqueue).trans (Act.ofExcept_ok hadvance)

/-! ### A whole script -/

/-- A script moves a cursor on by one member for each of its decisions, as long
as there are members. -/
theorem At.follow_ok (hplain : hooks.enqueue = plainEnqueue) (ds : List Decision)
    (hc : c.At w.heap passed kept rest)
    (htarget : ∀ o ∈ rest, ∀ r, w.heap.target o = some r → w.heap.holds r = true) :
    ∃ c' w', follow hooks ds c w = .ok (rest.take ds.length, c') w' ∧
      c'.At w'.heap (passed ++ rest.take ds.length) (kept ++ spared rest ds)
        (rest.drop ds.length) ∧
      w.heap.Relinks (· ∈ passed ++ rest) w'.heap ∧ w'.collector = w.collector := by
  induction ds generalizing c w passed kept rest with
  | nil =>
      refine ⟨c, w, rfl, ?_, .refl _ _, rfl⟩
      simpa using hc
  | cons d ds ih =>
      cases rest with
      | nil =>
          refine ⟨c, w, ?_, by simpa using hc, .refl _ _, rfl⟩
          rw [follow, hc.current]
          rfl
      | cons o rest =>
          obtain ⟨c₁, w₁, hcarry, hc₁, hrelinks, hcollector⟩ :=
            hc.carryOut_ok hplain (htarget o List.mem_cons_self) d
          obtain ⟨c', w', hfollow, hc', hrelinks', hcollector'⟩ := ih hc₁ (by
            intro p hp r hr
            rw [hrelinks.target_eq] at hr
            rw [hrelinks.holds_eq]
            exact htarget p (List.mem_cons_of_mem o hp) r hr)
          refine ⟨c', w', ?_, ?_, ?_, hcollector'.trans hcollector⟩
          · rw [follow, hc.current]
            exact (bind_ok hcarry).trans (bind_ok hfollow)
          · rw [List.append_assoc] at hc'
            rw [spared_cons]
            split at hc' <;> rename_i hd
            · rw [if_pos hd]
              exact hc'
            · rw [if_neg hd]
              rw [List.append_assoc] at hc'
              exact hc'
          · refine (hrelinks.mono ?_).trans (by simpa using hrelinks')
            rintro p (hp | rfl)
            · exact List.mem_append_left _ hp
            · simp

/-- Plain stores keep everything that is not about links. -/
theorem storing_of_plain (hplain : hooks.enqueue = plainEnqueue) :
    { hooks with complete := pure () }.Storing fun _ _ => True where
  relink _ _ := trivial
  store v _ ho := ⟨_, by rw [hplain]; exact Hooks.plainEnqueue_ok v ho, .refl _, trivial⟩
  complete _ := ⟨_, rfl, .refl _, trivial⟩
  prepare _ _ _ _ := trivial
  enterUnit _ _ _ := trivial

/-- Publishing with plain stores; without kept members it does nothing. -/
theorem At.publish_plain_ok (hplain : hooks.enqueue = plainEnqueue)
    (hc : c.At w.heap passed kept []) (hps : w.heap.Pends ps) (hapart : ∀ o ∈ kept, o ∉ ps) :
    ∃ w', c.publish hooks w = .ok () w' ∧ w'.heap.Pends (kept ++ ps) ∧ (kept = [] → w' = w) := by
  obtain ⟨w', hrun, hpends, -⟩ :=
    @At.publish_ok _ _ _ _ _ _ _ [] (storing_of_plain hplain) _ hc trivial hps hapart
  -- publishing asks for stores only
  have hpublish : c.publish hooks w = .ok () w' := hrun
  refine ⟨w', hpublish, hpends, ?_⟩
  intro hnone
  have hk : c.kept = none := by
    rw [hc.last, hnone]
    rfl
  rw [publish, hk] at hpublish
  injection hpublish with _ heq
  exact heq.symm

end Cursor

open Cursor

/-- A script that is carried out on a well-formed list visits its members in
order, each once.  Wherever it stops, the list consists of the members that
were kept and those that are still to come, and the dropped ones are unlinked.
If all were visited, publishing puts the kept ones in front of the pending
chain, and does nothing if there are none. -/
theorem follow_reshapes_list {γ : Type} {hooks : Hooks γ} {w : World γ} {l : DiscoveredList}
    {ms : List Handle} (hplain : hooks.enqueue = plainEnqueue) (hl : l.Lists w.heap ms)
    (htarget : ∀ o ∈ ms, ∀ r, w.heap.target o = some r → w.heap.holds r = true)
    (ds : List Decision) :
    ∃ c w', follow hooks ds (start l) w = .ok (ms.take ds.length, c) w' ∧
      c.list.Lists w'.heap (spared ms ds ++ ms.drop ds.length) ∧
      w'.heap.chain c.list.head = ⟨spared ms ds ++ ms.drop ds.length, true⟩ ∧
      (∀ o ∈ ms.take ds.length, o ∉ spared ms ds → w'.heap.following o = none) ∧
      c.visited = min ds.length ms.length ∧ c.dropped = (ds.take ms.length).count .drop ∧
      w.heap.Relinks (· ∈ ms) w'.heap ∧ w'.collector = w.collector ∧
      (ms.length ≤ ds.length → ∀ ps, w.heap.Pends ps → (∀ o ∈ ms, o ∉ ps) →
        ∃ w'', c.publish hooks w' = .ok () w'' ∧
          w''.heap.Pends (spared ms ds ++ ps) ∧
          w''.heap.chain w''.heap.pendingHead = ⟨spared ms ds ++ ps, true⟩ ∧
          (spared ms ds = [] → w'' = w')) := by
  obtain ⟨c, w', hfollow, hc, hrelinks, hcollector⟩ := (at_start hl).follow_ok hplain ds htarget
  rw [List.nil_append, List.nil_append] at hc
  refine ⟨c, w', hfollow, hc.lists_append, hc.lists_append.chain_eq, hc.gone,
    by rw [hc.visited, List.length_take], ?_, hrelinks, hcollector, ?_⟩
  · have hdropped := hc.dropped
    have hlength := length_spared ms ds
    omega
  · intro hall ps hps hapart
    rw [List.drop_eq_nil_of_le hall] at hc
    have hps' : w'.heap.Pends ps := hps.congr hrelinks.pending
      (fun o ho => hrelinks.link _ fun _ hm => hapart o hm ho)
      (fun o _ ho => by rw [hrelinks.holds_eq]; exact ho)
    obtain ⟨w'', hpublish, hpends, hsame⟩ := hc.publish_plain_ok hplain hps' fun o ho =>
      hapart o (List.mem_of_mem_take (hc.sublist.subset ho))
    exact ⟨w'', hpublish, hpends, hpends.chain_eq, hsame⟩

/-- Dropping the last three members re-points the link of the member 5 to itself. -/
theorem follow_reshapes_list_motley :
    motleyHeap.Intact motleyWeak [.low 3, .low 4, .low 5, .low 6, .low 7, .low 8] [.low 11] ∧
    (∃ c w', follow Hooks.reaching [.drop, .keep, .drop] (start motleyWeak) ⟨motleyHeap, []⟩ =
        .ok ([.low 3, .low 4, .low 5], c) w' ∧
      c.list.Lists w'.heap [.low 4, .low 6, .low 7, .low 8]) ∧
    ∃ c w' w'', follow Hooks.reaching [.enqueue, .drop, .enqueue, .drop, .drop, .drop]
        (start motleyWeak) ⟨motleyHeap, []⟩ =
        .ok ([.low 3, .low 4, .low 5, .low 6, .low 7, .low 8], c) w' ∧
      c.list.Lists w'.heap [.low 3, .low 5] ∧ c.dropped = 4 ∧
      c.publish Hooks.reaching w' = .ok () w'' ∧
      w''.heap.Pends [.low 3, .low 5, .low 11] := by
  have htarget : ∀ o ∈ [Handle.low 3, .low 4, .low 5, .low 6, .low 7, .low 8],
      ∀ r, motleyHeap.target o = some r → motleyHeap.holds r = true := motleyWeak_intact.targets
  have hplain : Hooks.reaching.enqueue = plainEnqueue := rfl
  obtain ⟨c, w', hstopped, hlists, -⟩ := follow_reshapes_list
    (w := ⟨motleyHeap, []⟩) hplain motleyWeak_intact.lists htarget [.drop, .keep, .drop]
  obtain ⟨d, v', hall, hlists', -, -, -, hdropped, -, -, hpublish⟩ := follow_reshapes_list
    (w := ⟨motleyHeap, []⟩) hplain motleyWeak_intact.lists htarget
    [.enqueue, .drop, .enqueue, .drop, .drop, .drop]
  obtain ⟨v'', hrun, hpends, -⟩ :=
    hpublish (by decide) [.low 11] motleyWeak_intact.pends motleyWeak_intact.apart
  exact ⟨motleyWeak_intact, ⟨c, w', hstopped, hlists⟩, d, v', v'', hall, hlists', hdropped,
    hrun, hpends⟩

end Referents
