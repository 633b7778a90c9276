import Referents.Resolution
import Referents.Proofs.Cursor
import Referents.Proofs.Execution
import Referents.Proofs.Transcript

/-!
# What resolving a list does

Resolving a list always returns, whatever the collector answers, if the list
is well formed and every member has a target in the table (or none, where that
is allowed).  Each member is then either **dropped**, because its target is
null or was found alive, or **spared**; the calls that it costs are those of
its transcript.

* `repeatStep_ok` — the loop over the members, by induction on those that are
  left; its bound is never reached.
* `Cursor.Verdicts` — what a visit leaves of the members it has passed.
* `resolveList_ok` — resolving a list drops and spares its members, and
  publishes the spared ones if it is told to.
* `keepFinalList_ok` — keeping final references alive publishes all of them.
-/

namespace Referents

variable {γ : Type} {hooks : Hooks γ} {I : List Call → World γ → Prop}
variable {h g k : Heap} {w : World γ} {o r : Handle}

/-- Taking a member off changes links of the list only. -/
theorem Heap.agreesOff_bypass {S : Handle → Prop} {last : Option Handle} {rest : List Handle}
    (ho : S o) (hlast : ∀ p, last = some p → S p) : h.AgreesOff S (h.bypass last o rest) := by
  have hunlink : h.AgreesOff S (h.write ⟨o, .discovered⟩ none) :=
    agreesOff_write ho fun e => nomatch e
  cases last with
  | none => exact hunlink
  | some p => exact hunlink.trans (agreesOff_write (hlast p rfl) fun e => nomatch e)

/-- It changes nothing else about them. -/
theorem Heap.relinks_bypass {S : Handle → Prop} {last : Option Handle} {rest : List Handle}
    (ho : S o) (hlast : ∀ p, last = some p → S p) : h.Relinks S (h.bypass last o rest) := by
  cases last with
  | none => exact relinks_write ho
  | some p => exact (relinks_write ho).trans (relinks_write (hlast p rfl))

/-- Taking an object out of a chain changes links only. -/
theorem Heap.sameObjects_bypass (h : Heap) (last : Option Handle) (o : Handle)
    (rest : List Handle) : h.SameObjects (h.bypass last o rest) :=
  ⟨size_bypass, traits_bypass, marks_bypass⟩

namespace Cursor

variable {c d : Cursor} {passed kept rest ms : List Handle} {calls more : List Call}
variable {nullReferent publishing : Bool}

/-- A loop over the members of a list returns if every step does.  `P passed
rest` is what holds when some members are passed and the rest is to come. -/
theorem repeatStep_ok {step : Cursor → Act γ Cursor}
    (P : List Handle → List Handle → Cursor → World γ → Prop)
    (hcurrent : ∀ passed rest c w, P passed rest c w → c.hasCurrent = !rest.isEmpty)
    (hstep : ∀ passed o rest c w, P passed (o :: rest) c w →
      ∃ d w', step c w = .ok d w' ∧ P (passed ++ [o]) rest d w')
    {fuel : Nat} (hfuel : rest.length < fuel) (hP : P passed rest c w) :
    ∃ d w', repeatStep step fuel c w = .ok d w' ∧ P (passed ++ rest) [] d w' := by
  induction rest generalizing passed fuel c w with
  | nil =>
      obtain ⟨fuel, rfl⟩ : ∃ n, fuel = n + 1 := ⟨fuel - 1, by simp at hfuel; omega⟩
      refine ⟨c, w, ?_, by simpa using hP⟩
      rw [repeatStep, hcurrent _ _ _ _ hP]
      rfl
  | cons o rest ih =>
      obtain ⟨fuel, rfl⟩ : ∃ n, fuel = n + 1 := ⟨fuel - 1, by simp at hfuel; omega⟩
      obtain ⟨c₁, w₁, hc₁, hP₁⟩ := hstep passed o rest c w hP
      obtain ⟨d, w', hd, hP'⟩ := ih (show rest.length < fuel by simpa using hfuel) hP₁
      refine ⟨d, w', ?_, by simpa using hP'⟩
      rw [repeatStep, hcurrent _ _ _ _ hP]
      exact (bind_ok hc₁).trans hd

/-- The number of visits that is allowed exceeds the length of any list. -/
theorem length_lt_visitBound (hnodup : ms.Nodup) (hheld : ∀ o ∈ ms, h.holds o = true) :
    ms.length < visitBound h := by
  have hlength := Heap.length_le_size hnodup hheld
  have hsquare : h.size + 2 ≤ (h.size + 2) * (h.size + 2) := Nat.le_mul_self _
  rw [visitBound]
  omega

/-- A collector that touches no links leaves a cursor where it stands. -/
theorem At.keeps (hc : c.At h passed kept rest) (hg : h.Keeps g) : c.At g passed kept rest :=
  hc.congr (fun o _ => hg.following o id) fun _ _ ho => hg.holds ho

/-- What was kept was passed. -/
theorem At.mem_kept (hc : c.At h passed kept rest) (ho : o ∈ kept) : o ∈ passed ++ rest :=
  List.mem_append_left rest (hc.sublist.subset ho)

/-- The heap `g` is what a visit has made of `h` when it has passed some of the
members `ms` and kept some of those, after some calls of the collector. -/
structure Verdicts (h : Heap) (publishing : Bool) (ms passed kept : List Handle)
    (calls : List Call) (g : Heap) : Prop where
  agrees : h.AgreesOff (· ∈ ms) g
  next : ∀ o, h.holds o = true → g.nextLink o = h.nextLink o
  target : ∀ o, h.holds o = true →
    g.target o = if publishing = true ∧ o ∈ kept then none else h.target o
  spared : ∀ o ∈ kept, ∃ r, h.target o = some r ∧ .isAlive r false ∈ calls
  dropped : ∀ o ∈ passed, o ∉ kept →
    h.target o = none ∨ ∃ r, h.target o = some r ∧ .isAlive r true ∈ calls

namespace Verdicts

/-- Before a walk nothing is passed and nothing asked. -/
theorem start (h : Heap) (publishing : Bool) (ms : List Handle) :
    Verdicts h publishing ms [] [] [] h where
  agrees := .refl _ h
  next _ _ := rfl
  target o _ := by simp
  spared o ho := by cases ho
  dropped o ho := by cases ho

/-- Linking the members anew changes no verdict. -/
theorem relink (hv : Verdicts h publishing ms passed kept calls g)
    (hg : g.AgreesOff (· ∈ ms) k)
    (hlink : ∀ a, g.holds a.obj = true → a.field ≠ .discovered → k.link a = g.link a)
    (more : List Call) : Verdicts h publishing ms passed kept (calls ++ more) k where
  agrees := hv.agrees.trans hg
  next o ho := (hlink ⟨o, .next⟩ (hv.agrees.holds ho) (by simp)).trans (hv.next o ho)
  target o ho := (hlink ⟨o, .referent⟩ (hv.agrees.holds ho) (by simp)).trans (hv.target o ho)
  spared o ho := by
    obtain ⟨r, hr, hcall⟩ := hv.spared o ho
    exact ⟨r, hr, List.mem_append_left more hcall⟩
  dropped o ho hk := (hv.dropped o ho hk).imp id fun ⟨r, hr, hcall⟩ =>
    ⟨r, hr, List.mem_append_left more hcall⟩

/-- Calls that touch no links change no verdict. -/
theorem keeps (hv : Verdicts h publishing ms passed kept calls g) (hg : g.Keeps k)
    (more : List Call) : Verdicts h publishing ms passed kept (calls ++ more) k :=
  hv.relink (hg.agreesOff _) (fun _ ha _ => hg.link_eq ha) more

/-- A member is dropped for a reason. -/
theorem drop (hv : Verdicts h publishing ms passed kept calls g) (ho : o ∈ ms)
    (hkept : ∀ p ∈ kept, p ∈ ms)
    (hwhy : h.target o = none ∨ ∃ r, h.target o = some r ∧ .isAlive r true ∈ calls) :
    Verdicts h publishing ms (passed ++ [o]) kept calls (g.bypass kept.getLast? o rest) where
  agrees := hv.agrees.trans
    (Heap.agreesOff_bypass ho fun p hp => hkept p (List.mem_of_getLast? hp))
  next p hp := by
    rw [Heap.nextLink, Heap.link_bypass_of_field_ne (by decide)]
    exact hv.next p hp
  target p hp := by
    rw [Heap.target, Heap.link_bypass_of_field_ne (by decide)]
    exact hv.target p hp
  spared := hv.spared
  dropped p hp hpk := by
    rcases List.mem_append.mp hp with hpast | hlast
    · exact hv.dropped p hpast hpk
    · rw [List.mem_singleton.mp hlast]
      exact hwhy

/-- One more kept member was found dead. -/
theorem spared_snoc (hv : Verdicts h publishing ms passed kept calls g)
    (hr : h.target o = some r) (hcall : .isAlive r false ∈ calls) :
    ∀ p ∈ kept ++ [o], ∃ r, h.target p = some r ∧ .isAlive r false ∈ calls := by
  intro p hp
  rcases List.mem_append.mp hp with hpk | hlast
  · exact hv.spared p hpk
  · rw [List.mem_singleton.mp hlast]
    exact ⟨r, hr, hcall⟩

/-- A kept member adds nothing to the dropped ones. -/
theorem dropped_snoc (hv : Verdicts h publishing ms passed kept calls g) (o : Handle) :
    ∀ p ∈ passed ++ [o], p ∉ kept ++ [o] →
      h.target p = none ∨ ∃ r, h.target p = some r ∧ .isAlive r true ∈ calls := by
  intro p hp hpk
  have hpo : p ≠ o := fun e => hpk (by simp [e])
  exact hv.dropped p (by simpa [hpo] using hp) fun hm => hpk (List.mem_append_left [o] hm)

/-- A member is kept on the list as it is. -/
theorem keep (hv : Verdicts h false ms passed kept calls g)
    (hr : h.target o = some r) (hcall : .isAlive r false ∈ calls) :
    Verdicts h false ms (passed ++ [o]) (kept ++ [o]) calls g where
  agrees := hv.agrees
  next := hv.next
  target p hp := by simpa using hv.target p hp
  spared := hv.spared_snoc hr hcall
  dropped := hv.dropped_snoc o

/-- A member that is going to be published is cleared. -/
theorem clear (hv : Verdicts h true ms passed kept calls g) (hoh : h.holds o = true)
    (ho : o ∈ ms) (hr : h.target o = some r) (hcall : .isAlive r false ∈ calls) :
    Verdicts h true ms (passed ++ [o]) (kept ++ [o]) calls (g.write ⟨o, .referent⟩ none) where
  agrees := hv.agrees.trans (Heap.agreesOff_write ho fun _ => rfl)
  next p hp := by
    rw [Heap.nextLink, Heap.link_write_of_field_ne (by decide)]
    exact hv.next p hp
  target p hp := by
    by_cases hpo : p = o
    · rw [hpo, Heap.target, Heap.link_write_self (hv.agrees.holds hoh)]
      simp
    · refine (Heap.link_write_of_obj_ne hpo).trans ((hv.target p hp).trans ?_)
      simp [hpo]
  spared := hv.spared_snoc hr hcall
  dropped := hv.dropped_snoc o

end Verdicts

/-! ### One member -/

/-- A member without a referent is dropped. -/
theorem resolveMember_of_null {h₁ : Heap} {c₁ c₂ : Cursor}
    (hload : c.load nullReferent w.heap = .ok c₁) (hnull : c₁.referent = none)
    (hdrop : c₁.drop w.heap = .ok (c₂, h₁)) (hskip : c₂.skip = .ok d) :
    resolveMember hooks nullReferent publishing c w = .ok d { w with heap := h₁ } := by
  refine (bind_ok (Act.read_ok hload)).trans ?_
  simp only [hnull, Option.isNone_none, if_true]
  exact (bind_ok (Act.transform_ok hdrop)).trans (Act.ofExcept_ok hskip)

/-- A member with a live referent is dropped, and its referent kept alive. -/
theorem resolveMember_of_alive {w₁ w₂ : World γ} {h₁ : Heap} {c₁ c₂ : Cursor}
    (hload : c.load nullReferent w.heap = .ok c₁) (href : c₁.referent = some r)
    (halive : hooks.isAlive r w = .ok true w₁)
    (hdrop : c₁.drop w₁.heap = .ok (c₂, h₁)) (hmember : c₂.member = .ok o)
    (hkeep : hooks.keepAlive ⟨o, .referent⟩ { w₁ with heap := h₁ } = .ok () w₂)
    (hskip : c₂.skip = .ok d) :
    resolveMember hooks nullReferent publishing c w = .ok d w₂ := by
  have hask : c₁.isReferentAlive hooks w = .ok true w₁ := by
    rw [isReferentAlive, href]
    exact halive
  have hkeepReferent : c₂.keepReferent hooks { w₁ with heap := h₁ } = .ok () w₂ :=
    (bind_ok (Act.ofExcept_ok hmember)).trans hkeep
  refine (bind_ok (Act.read_ok hload)).trans ?_
  simp only [href, Option.isNone_some, Bool.false_eq_true, if_false]
  refine (bind_ok hask).trans ?_
  simp only [if_true]
  refine (bind_ok (Act.transform_ok hdrop)).trans ?_
  exact (bind_ok hkeepReferent).trans (Act.ofExcept_ok hskip)

/-- A member with a dead referent stays on the list if nothing is published. -/
theorem resolveMember_of_dead {w₁ : World γ} {c₁ : Cursor}
    (hload : c.load nullReferent w.heap = .ok c₁) (href : c₁.referent = some r)
    (hdead : hooks.isAlive r w = .ok false w₁) :
    resolveMember hooks nullReferent false c w = Act.ofExcept c₁.advance w₁ := by
  have hask : c₁.isReferentAlive hooks w = .ok false w₁ := by
    rw [isReferentAlive, href]
    exact hdead
  refine (bind_ok (Act.read_ok hload)).trans ?_
  simp only [href, Option.isNone_some, Bool.false_eq_true, if_false]
  exact bind_ok hask

/-- A member with a dead referent is cleared and linked if it is published. -/
theorem resolveMember_of_published {w₁ w₂ : World γ} {h₁ : Heap} {c₁ c₂ : Cursor}
    (hload : c.load nullReferent w.heap = .ok c₁) (href : c₁.referent = some r)
    (hdead : hooks.isAlive r w = .ok false w₁)
    (hclear : c₁.clearReferent w₁.heap = .ok h₁)
    (henqueue : c₁.enqueue hooks { w₁ with heap := h₁ } = .ok c₂ w₂) :
    resolveMember hooks nullReferent true c w = Act.ofExcept c₂.advance w₂ := by
  have hask : c₁.isReferentAlive hooks w = .ok false w₁ := by
    rw [isReferentAlive, href]
    exact hdead
  refine (bind_ok (Act.read_ok hload)).trans ?_
  simp only [href, Option.isNone_some, Bool.false_eq_true, if_false]
  refine (bind_ok hask).trans ?_
  simp only [Bool.false_eq_true, if_false, if_true]
  exact (bind_ok (Act.update_ok hclear)).trans (bind_ok henqueue)

/-- The chain of the kept members is the list itself as far as it was visited,
so linking the next member to its end changes no link. -/
theorem At.enqueue_ok (hh : hooks.Storing I) (hc : c.At w.heap passed kept (o :: rest))
    (hI : I calls w) : ∃ d w', c.enqueue hooks w = .ok d w' ∧
      d.At w'.heap passed kept (o :: rest) ∧ d.following = c.following ∧
      w.heap.Keeps w'.heap ∧ I (calls ++ linkCalls kept (some o)) w' := by
  have hmember : (Act.ofExcept c.member : Act γ Handle) w = .ok o w :=
    Act.ofExcept_ok hc.member_ok
  cases hk : c.kept with
  | none =>
      have hkept : kept = [] := List.getLast?_eq_none_iff.mp (hc.last.symm.trans hk)
      subst hkept
      refine ⟨{ c with list := c.list.setHead (some o) }, w, ?_, ?_, rfl, .refl _,
        by simpa [linkCalls] using hI⟩
      · refine (bind_ok hmember).trans ?_
        simp only [hk]
        rfl
      · exact { hc with head := DiscoveredList.head_setHead c.list (some o) }
  | some p =>
      obtain ⟨hpk, hpp⟩ := hc.mem_of_last hk
      have hheld : w.heap.holds p = true := hc.held p (List.mem_append_left _ hpp)
      obtain ⟨w', hstore, hkeeps, hI'⟩ := hh.store (some o) hI hheld
      rw [Heap.write_link (hc.following_last hk) hheld] at hkeeps
      refine ⟨c, w', ?_, hc.keeps hkeeps, rfl, hkeeps,
        by rwa [linkCalls, ← hc.last, hk]⟩
      refine (bind_ok hmember).trans ?_
      simp only [hk]
      exact bind_ok hstore

/-- The targets of some references are in the table, or null where that is allowed. -/
def Resolvable (h : Heap) (nullReferent : Bool) (ms : List Handle) : Prop :=
  ∀ o ∈ ms, (∀ r, h.target o = some r → h.holds r = true) ∧
    (h.target o = none → nullReferent = true)

/-- A visit to a list has passed some members and has the rest to come; what it
finds alive it keeps alive only if `keeping`. -/
def Visits (I : List Call → World γ → Prop) (prev : List Call) (h : Heap)
    (keeping publishing : Bool) (passed rest : List Handle) (c : Cursor) (w : World γ) : Prop :=
  ∃ kept calls, c.At w.heap passed kept rest ∧
    Verdicts h publishing (passed ++ rest) passed kept calls w.heap ∧
    Transcript (Asked h keeping) publishing passed kept calls ∧
    w.heap.pendingHead = h.pendingHead ∧ I (prev ++ calls) w

/-- There is a current member as long as any is still to come. -/
theorem Visits.hasCurrent {prev : List Call} {keeping : Bool}
    (hv : Visits I prev h keeping publishing passed rest c w) :
    c.hasCurrent = !rest.isEmpty := by
  obtain ⟨kept, calls, hc, -⟩ := hv
  exact hc.hasCurrent

/-- A visit that drops its next member goes on behind it. -/
theorem visits_drop (hh : hooks.Answering I) {prev : List Call} {keeping : Bool}
    (hc : c.At w.heap passed kept (o :: rest)) (hfol : c.following = rest.head?.or (some o))
    (hv : Verdicts h publishing (passed ++ o :: rest) passed kept calls w.heap)
    (ht : Transcript (Asked h keeping) publishing (passed ++ [o]) kept calls)
    (hp : w.heap.pendingHead = h.pendingHead) (hI : I (prev ++ calls) w)
    (hwhy : h.target o = none ∨ ∃ r, h.target o = some r ∧ .isAlive r true ∈ calls) :
    ∃ d, (c.afterDrop rest).skip = .ok d ∧
      Visits I prev h keeping publishing (passed ++ [o]) rest d
        { w with heap := w.heap.bypass kept.getLast? o rest } := by
  have ho : o ∈ passed ++ o :: rest := by simp
  have hsplit : passed ++ [o] ++ rest = passed ++ o :: rest := by simp
  obtain ⟨d, hskip, hd⟩ := hc.drop_ok hfol
  refine ⟨d, hskip, kept, calls, hd, ?_, ht, by rw [Heap.pendingHead_bypass, hp],
    hh.relink hI (w.heap.sameObjects_bypass _ _ _)⟩
  rw [hsplit]
  exact hv.drop ho (fun p => hc.mem_kept) hwhy

/-- A visit that keeps its next member as it is goes on behind it. -/
theorem visits_keep {prev : List Call} {keeping : Bool}
    (hc : c.At w.heap passed kept (o :: rest)) (hfol : c.following = rest.head?.or (some o))
    (hv : Verdicts h false (passed ++ o :: rest) passed kept calls w.heap)
    (ht : Transcript (Asked h keeping) false (passed ++ [o]) (kept ++ [o]) calls)
    (hp : w.heap.pendingHead = h.pendingHead) (hI : I (prev ++ calls) w)
    (htarget : h.target o = some r) (hcall : .isAlive r false ∈ calls) :
    ∃ d, c.advance = .ok d ∧ Visits I prev h keeping false (passed ++ [o]) rest d w := by
  have hsplit : passed ++ [o] ++ rest = passed ++ o :: rest := by simp
  obtain ⟨d, hadvance, hd⟩ := hc.advance_ok hfol
  refine ⟨d, hadvance, kept ++ [o], calls, hd, ?_, ht, hp, hI⟩
  rw [hsplit]
  exact hv.keep htarget hcall

/-- A visit to one more member. -/
theorem resolveMember_ok (hh : hooks.Resolving I) {prev : List Call}
    (hheld : ∀ p ∈ passed ++ o :: rest, h.holds p = true)
    (hres : Resolvable h nullReferent (passed ++ o :: rest))
    (hv : Visits I prev h true publishing passed (o :: rest) c w) :
    ∃ d w', resolveMember hooks nullReferent publishing c w = .ok d w' ∧
      Visits I prev h true publishing (passed ++ [o]) rest d w' := by
  obtain ⟨kept, calls, hc, hv, ht, hp, hI⟩ := hv
  have ho : o ∈ passed ++ o :: rest := by simp
  have hsplit : passed ++ [o] ++ rest = passed ++ o :: rest := by simp
  have hokept : o ∉ kept := fun hm => hc.not_mem.1 (hc.sublist.subset hm)
  have hsame : w.heap.target o = h.target o := by
    rw [hv.target o (hheld o ho)]
    simp [hokept]
  have hload := hc.load_ok nullReferent
    (fun r hr => hv.agrees.holds ((hres o ho).1 r (hsame ▸ hr)))
    (fun hn => (hres o ho).2 (hsame ▸ hn))
  cases htarget : h.target o with
  | none =>
      rw [hsame, htarget] at hload
      have hc₁ := hc.loaded (rest.head?.or (some o)) none
      obtain ⟨d, hskip, hd⟩ := visits_drop hh.toAnswering hc₁ rfl hv
        (by simpa using ht.drop (.null htarget)) hp hI (.inl htarget)
      exact ⟨d, _, resolveMember_of_null hload rfl (hc₁.drop_eq rfl) hskip, hd⟩
  | some r =>
      rw [hsame, htarget] at hload
      have hr : w.heap.holds r = true := hv.agrees.holds ((hres o ho).1 r htarget)
      obtain ⟨answer, w₁, hask, hkeeps, hI₁⟩ := hh.isAlive hI hr
      have hc₁ := (hc.loaded (rest.head?.or (some o)) (some r)).keeps hkeeps
      have hv₁ := hv.keeps hkeeps [.isAlive r answer]
      rw [List.append_assoc] at hI₁
      cases answer with
      | true =>
          obtain ⟨d, hskip, hd⟩ := hc₁.drop_ok rfl
          have hI₂ := hh.relink hI₁ (w₁.heap.sameObjects_bypass kept.getLast? o rest)
          have htarget₂ : (w₁.heap.bypass kept.getLast? o rest).target o = some r := by
            rw [Heap.target, Heap.link_bypass_of_field_ne (by decide)]
            exact (hkeeps.link_eq (hc.held o ho)).trans (hsame.trans htarget)
          obtain ⟨w₂, hkeep, hkeeps₂, hI₃⟩ := hh.keepAlive hI₂ htarget₂
            (by rw [Heap.holds_bypass]; exact hkeeps.holds hr) (by simp)
          have hmember := hc₁.member_afterDrop
          refine ⟨d, w₂, resolveMember_of_alive hload rfl hask (hc₁.drop_eq rfl) hmember hkeep
            hskip, kept, calls ++ [.isAlive r true] ++ [.keepAlive o r], hd.keeps hkeeps₂, ?_,
            by simpa using ht.drop (.alive htarget),
            by rw [hkeeps₂.pending, Heap.pendingHead_bypass, hkeeps.pending, hp],
            by rw [List.append_assoc] at hI₃; exact hI₃⟩
          rw [hsplit]
          exact (hv₁.drop ho (fun p => hc.mem_kept)
            (.inr ⟨r, htarget, by simp⟩)).keeps hkeeps₂ _
      | false =>
          cases publishing with
          | false =>
              obtain ⟨d, hadvance, hd⟩ := visits_keep hc₁ rfl hv₁
                (by simpa using ht.keep (.dead htarget)) (hkeeps.pending.trans hp) hI₁ htarget
                (by simp)
              exact ⟨d, w₁, (resolveMember_of_dead hload rfl hask).trans
                (Act.ofExcept_ok hadvance), hd⟩
          | true =>
              have hheld₁ : w₁.heap.holds o = true := hkeeps.holds (hc.held o ho)
              have hclear := Heap.setReferent_ok (v := none) hheld₁
              have hc₂ := hc₁.congr (g := w₁.heap.write ⟨o, .referent⟩ none)
                (fun p _ => Heap.link_write_of_field_ne (by decide))
                (fun p _ hp => by rw [Heap.holds_write]; exact hp)
              have hI₂ := hh.relink hI₁ (w₁.heap.sameObjects_write ⟨o, .referent⟩ none)
              obtain ⟨c₃, w₂, henqueue, hc₃, hfol, hkeeps₂, hI₃⟩ :=
                hc₂.enqueue_ok (w := { w₁ with heap := w₁.heap.write ⟨o, .referent⟩ none })
                  hh.toStoring hI₂
              obtain ⟨d, hadvance, hd⟩ := hc₃.advance_ok hfol
              refine ⟨d, w₂, (resolveMember_of_published hload rfl hask ?_ henqueue).trans
                (Act.ofExcept_ok hadvance), kept ++ [o], _, hd, ?_, ht.keep (.dead htarget),
                by rw [hkeeps₂.pending, Heap.pendingHead_write, hkeeps.pending, hp],
                by rw [List.append_assoc] at hI₃; exact hI₃⟩
              · rw [clearReferent, except_bind_ok (hc.loaded _ _).member_ok]
                exact hclear
              · rw [hsplit]
                exact (hv₁.clear (hheld o ho) ho htarget (by simp)).keeps hkeeps₂ _

/-! ### The whole list -/

/-- Publishing puts the kept members in front of the pending chain. -/
theorem At.publish_ok (hh : hooks.Storing I) {ps : List Handle}
    (hc : c.At w.heap passed kept []) (hI : I calls w) (hps : w.heap.Pends ps)
    (hapart : ∀ o ∈ kept, o ∉ ps) :
    ∃ w', c.publish hooks w = .ok () w' ∧ w'.heap.Pends (kept ++ ps) ∧
      w.heap.AgreesOff (· ∈ kept) w'.heap ∧
      (∀ a, w.heap.holds a.obj = true → a.field ≠ .discovered →
        w'.heap.link a = w.heap.link a) ∧
      I (calls ++ linkCalls kept w.heap.pendingHead) w' := by
  cases hk : c.kept with
  | none =>
      have hkept : kept = [] := List.getLast?_eq_none_iff.mp (hc.last.symm.trans hk)
      subst hkept
      refine ⟨w, ?_, hps, .refl _ _, fun _ _ _ => rfl, by simpa [linkCalls] using hI⟩
      rw [publish, hk]
      rfl
  | some p =>
      obtain ⟨init, hinit⟩ : ∃ init, kept = init ++ [p] :=
        List.getLast?_eq_some_iff.mp (hc.last.symm.trans hk)
      have hlists := hc.lists
      have hp : p ∈ kept := by simp [hinit]
      have hheld : w.heap.holds p = true := hlists.held p hp
      have hhead : c.list.head = (kept ++ ps).head? := by
        rw [hlists.head, hinit]
        simp
      -- the chain is swapped in first, and only then linked to the old one
      obtain ⟨w', hstore, hkeeps, hI'⟩ := hh.store w.heap.pendingHead
        (hh.relink hI (w.heap.sameObjects_withPending c.list.head)) hheld
      have hnodup : (init ++ [p]).Nodup := hinit ▸ hlists.nodup
      have hlast : kept.getLast? = some p := by rw [hinit, List.getLast?_concat]
      have hfollowing : ∀ q, w'.heap.following q =
          ((w.heap.withPending c.list.head).write ⟨p, .discovered⟩
            w.heap.pendingHead).following q := fun q => hkeeps.following q id
      have hheldAll : ∀ q, w.heap.holds q = true → w'.heap.holds q = true := fun q hq =>
        hkeeps.holds (by rw [Heap.holds_write]; exact hq)
      have hagrees : w.heap.AgreesOff (· ∈ kept) w'.heap :=
        ((Heap.agreesOff_withPending _ _ _).trans
          (Heap.agreesOff_write hp (by simp))).trans (hkeeps.agreesOff _)
      refine ⟨w', ?_, ?_, hagrees, ?_, by rwa [linkCalls, hlast]⟩
      · rw [publish, hk]
        exact (bind_ok (Act.transform_ok (f := fun h => .ok (h.swapPending c.list.head)) rfl)).trans
          hstore
      · constructor
        case head =>
          rw [hkeeps.pending, Heap.pendingHead_write, Heap.pendingHead_withPending, hhead]
        case linked =>
          rw [Heap.linked_append]
          constructor
          · rw [Heap.linked_congr fun q _ => hfollowing q, ← hps.head, hinit, Option.or_none]
            have hlinked := hlists.linked
            rw [hlast, hinit] at hlinked
            exact (Heap.linked_withPending.mpr hlinked).write_last hnodup hheld
          · rw [Heap.linked_congr fun q _ => hfollowing q]
            exact (Heap.linked_write_of_not_mem (hapart p hp)).mpr
              (Heap.linked_withPending.mpr hps.linked)
        case nodup =>
          refine List.nodup_append.mpr ⟨hlists.nodup, hps.nodup, ?_⟩
          intro q hq _ hq' heq
          subst heq
          exact hapart q hq hq'
        case held =>
          intro q hq
          rcases List.mem_append.mp hq with hq | hq
          · exact hheldAll q (hlists.held q hq)
          · exact hheldAll q (hps.held q hq)
      · intro a ha hfield
        refine (hkeeps.link_eq (by rw [Heap.holds_write]; exact ha)).trans ?_
        exact Heap.link_write_of_ne fun e => hfield (by rw [e])

/-- A visit to a whole list. -/
theorem visitAll_ok {step : Cursor → Act γ Cursor} {l : DiscoveredList}
    (P : List Handle → List Handle → Cursor → World γ → Prop)
    (hcurrent : ∀ passed rest c w, P passed rest c w → c.hasCurrent = !rest.isEmpty)
    (hstep : ∀ passed o rest c w, P passed (o :: rest) c w →
      ∃ d w', step c w = .ok d w' ∧ P (passed ++ [o]) rest d w')
    (hl : l.Lists w.heap ms) (hP : P [] ms (start l) w) :
    ∃ d w', visitAll step l w = .ok d w' ∧ P ms [] d w' := by
  obtain ⟨d, w', hrun, hP'⟩ := repeatStep_ok P hcurrent hstep
    (length_lt_visitBound hl.nodup hl.held) hP
  exact ⟨d, w', (bind_ok (map_ok visitBound (map_ok World.heap (get_ok w)))).trans hrun, hP'⟩

end Cursor

/-- Resolving a list drops some members and spares the others; these stay on
the list, or are put in front of the pending chain. -/
theorem resolveList_ok (hh : hooks.Resolving I) {nullReferent : Bool} (publishing : Bool)
    {l : DiscoveredList} {prev : List Call} {ms ps : List Handle}
    (hl : l.Lists w.heap ms) (hres : Cursor.Resolvable w.heap nullReferent ms)
    (hps : w.heap.Pends ps) (hapart : ∀ o ∈ ms, o ∉ ps) (hI : I prev w) :
    ∃ l' w' kept calls,
      resolveList hooks nullReferent publishing l w =
        .ok ⟨l', ms.length, ms.length - kept.length⟩ w' ∧
      kept.Sublist ms ∧ l'.Lists w'.heap (if publishing then [] else kept) ∧
      w'.heap.Pends ((if publishing then kept else []) ++ ps) ∧
      (∀ o ∈ ms, o ∉ kept → w'.heap.following o = none) ∧
      Cursor.Verdicts w.heap publishing ms ms kept calls w'.heap ∧
      Told (Asked w.heap true) publishing ms kept w.heap.pendingHead calls ∧
      I (prev ++ calls) w' := by
  obtain ⟨c, w₁, hvisit, hvisits⟩ := Cursor.visitAll_ok
    (fun passed rest c w' => passed ++ rest = ms ∧
      Cursor.Visits I prev w.heap true publishing passed rest c w')
    (fun _ _ _ _ hP => hP.2.hasCurrent)
    (fun passed o rest c w' ⟨hms, hP⟩ => by
      obtain ⟨d, w'', hd, hP'⟩ := Cursor.resolveMember_ok hh
        (by rw [hms]; exact hl.held) (show Cursor.Resolvable w.heap nullReferent _ by
          rw [hms]; exact hres) hP
      exact ⟨d, w'', hd, by rw [← hms]; simp, hP'⟩)
    hl ⟨rfl, [], [], Cursor.at_start hl, .start _ _ _, .start, rfl, by simpa using hI⟩
  obtain ⟨-, kept, calls, hc, hv, ht, hp, hI₁⟩ := hvisits
  rw [List.append_nil] at hv
  have hapart' : ∀ o ∈ kept, o ∉ ps := fun o ho => hapart o (hc.sublist.subset ho)
  have hps₁ : w₁.heap.Pends ps := hps.congr hp
    (fun o ho => hv.agrees.following o fun hm => hapart o hm ho)
    (fun o _ => hv.agrees.holds)
  have hdropped : c.dropped = ms.length - kept.length := by
    have := hc.dropped
    omega
  cases publishing with
  | false =>
      refine ⟨c.list, w₁, kept, calls, ?_, hc.sublist, hc.lists, hps₁, hc.gone, hv,
        ⟨calls, ht, by simp⟩, hI₁⟩
      refine (bind_ok hvisit).trans ?_
      rw [← hdropped, ← hc.visited]
      rfl
  | true =>
      obtain ⟨w₂, hpublish, hpends, hagrees, hlink, hI₂⟩ :=
        hc.publish_ok hh.toStoring hI₁ hps₁ hapart'
      have hsub : ∀ o, o ∈ kept → o ∈ ms := fun o ho => hc.sublist.subset ho
      refine ⟨.empty, w₂, kept, calls ++ linkCalls kept w₁.heap.pendingHead, ?_, hc.sublist,
        DiscoveredList.lists_empty _, hpends, ?_, hv.relink (hagrees.mono hsub) hlink _,
        ⟨calls, ht, by rw [if_pos rfl, hp]⟩, by rwa [List.append_assoc] at hI₂⟩
      · refine (bind_ok hvisit).trans ((bind_ok hpublish).trans ?_)
        rw [← hdropped, ← hc.visited]
        rfl
      · intro o ho hk
        rw [hagrees.following o hk]
        exact hc.gone o ho hk

/-! ### Final references -/

namespace Cursor

variable {c d : Cursor} {passed kept rest ms : List Handle} {calls : List Call}

/-- The heap `g` is what keeping final references alive has made of `h` when
it has passed some of the members `ms`. -/
structure Sealed (h : Heap) (ms passed : List Handle) (calls : List Call) (g : Heap) : Prop where
  agrees : h.AgreesOff (· ∈ ms) g
  target : ∀ o, h.holds o = true → g.target o = h.target o
  next : ∀ o, h.holds o = true → g.nextLink o = if o ∈ passed then some o else h.nextLink o
  kept : ∀ o r, .keepAlive o r ∈ calls ↔ o ∈ passed ∧ h.target o = some r

/-- Before a walk that keeps all members nothing is passed. -/
theorem Sealed.start (h : Heap) (ms : List Handle) : Sealed h ms [] [] h where
  agrees := .refl _ h
  target _ _ := rfl
  next o _ := by simp
  kept o r := by simp

/-- Linking the members anew unseals none. -/
theorem Sealed.relink {more : List Call} (hs : Sealed h ms passed calls g)
    (hg : g.AgreesOff (· ∈ ms) k)
    (hlink : ∀ a, g.holds a.obj = true → a.field ≠ .discovered → k.link a = g.link a)
    (hmore : ∀ p q, .keepAlive p q ∉ more) : Sealed h ms passed (calls ++ more) k where
  agrees := hs.agrees.trans hg
  target o ho := (hlink ⟨o, .referent⟩ (hs.agrees.holds ho) (by simp)).trans (hs.target o ho)
  next o ho := (hlink ⟨o, .next⟩ (hs.agrees.holds ho) (by simp)).trans (hs.next o ho)
  kept o r := by simp [hs.kept o r, hmore o r]

/-- One more member is sealed after its target was kept alive. -/
theorem Sealed.seal (hs : Sealed h ms passed calls g) (hg : g.Keeps k) (ho : o ∈ ms)
    (hoh : h.holds o = true) (hr : h.target o = some r) :
    Sealed h ms (passed ++ [o]) (calls ++ [.keepAlive o r])
      (k.write ⟨o, .next⟩ (some o)) where
  agrees := (hs.agrees.trans (hg.agreesOff _)).trans (Heap.agreesOff_write ho (by simp))
  target p hp := by
    refine (Heap.link_write_of_field_ne (by decide)).trans ?_
    exact (hg.link_eq (hs.agrees.holds hp)).trans (hs.target p hp)
  next p hp := by
    by_cases hpo : p = o
    · rw [hpo, Heap.nextLink, Heap.link_write_self (hg.holds (hs.agrees.holds hoh))]
      simp
    · refine (Heap.link_write_of_obj_ne hpo).trans ?_
      refine (hg.link_eq (hs.agrees.holds hp)).trans ((hs.next p hp).trans ?_)
      simp [hpo]
  kept p q := by
    simp only [List.mem_append, List.mem_singleton, hs.kept p q, Call.keepAlive.injEq]
    constructor
    · intro hcases
      rcases hcases with ⟨hp, hq⟩ | ⟨rfl, rfl⟩
      · exact ⟨.inl hp, hq⟩
      · exact ⟨.inr rfl, hr⟩
    · intro hboth
      obtain ⟨hp | rfl, hq⟩ := hboth
      · exact .inl ⟨hp, hq⟩
      · exact .inr ⟨rfl, by rw [hr] at hq; injection hq with e; exact e.symm⟩

/-- A visit that keeps final references alive has passed some of them. -/
def SealVisits (I : List Call → World γ → Prop) (prev : List Call) (h : Heap)
    (passed rest : List Handle) (c : Cursor) (w : World γ) : Prop :=
  ∃ calls, c.At w.heap passed passed rest ∧ Sealed h (passed ++ rest) passed calls w.heap ∧
    Transcript (Sealing h) true passed passed calls ∧
    w.heap.pendingHead = h.pendingHead ∧ I (prev ++ calls) w

/-- One more member has its referent kept alive, and is linked to the chain. -/
theorem keepFinalMember_ok (hh : hooks.KeepingFinals I) {prev : List Call}
    (hheld : ∀ p ∈ passed ++ o :: rest, h.holds p = true)
    (htarget : ∃ r, h.target o = some r ∧ h.holds r = true) (hfresh : h.nextLink o = none)
    (hv : SealVisits I prev h passed (o :: rest) c w) :
    ∃ d w', keepFinalMember hooks c w = .ok d w' ∧
      SealVisits I prev h (passed ++ [o]) rest d w' := by
  obtain ⟨calls, hc, hs, ht, hp, hI⟩ := hv
  obtain ⟨r, hr, hrh⟩ := htarget
  have ho : o ∈ passed ++ o :: rest := by simp
  have hsplit : passed ++ [o] ++ rest = passed ++ o :: rest := by simp
  have hoh : w.heap.holds o = true := hc.held o ho
  have hsame : w.heap.target o = some r := (hs.target o (hheld o ho)).trans hr
  have hload := hc.load_ok false
    (fun q hq => by
      rw [hsame] at hq
      cases hq
      exact hs.agrees.holds hrh)
    (fun hn => by
      rw [hsame] at hn
      cases hn)
  have hc₁ := hc.loaded (rest.head?.or (some o)) (w.heap.target o)
  obtain ⟨w₁, hkeep, hkeeps, hI₁⟩ := hh.keepAlive hI hsame (hs.agrees.holds hrh)
  have hnext : w₁.heap.nextLink o = none := by
    refine (hkeeps.link_eq hoh).trans ((hs.next o (hheld o ho)).trans ?_)
    rw [if_neg hc.not_mem.1, hfresh]
  have hoh₁ : w₁.heap.holds o = true := hkeeps.holds hoh
  have hc₂ := (hc₁.keeps hkeeps).congr (g := w₁.heap.write ⟨o, .next⟩ (some o))
    (fun p _ => Heap.link_write_of_field_ne (by decide))
    (fun p _ hp => by rw [Heap.holds_write]; exact hp)
  have hs₂ := hs.seal hkeeps ho (hheld o ho) hr
  obtain ⟨c₃, w₃, henqueue, hc₃, hfol, hkeeps₃, hI₃⟩ :=
    hc₂.enqueue_ok (w := { w₁ with heap := w₁.heap.write ⟨o, .next⟩ (some o) })
      hh.toStoring (hh.relink hI₁ (w₁.heap.sameObjects_write _ _))
  obtain ⟨d, hadvance, hd⟩ := hc₃.advance_ok hfol
  refine ⟨d, w₃, ?_, _, hd, ?_, ht.keep (.keep hr), ?_,
    by simp only [List.append_assoc] at hI₃ ⊢; exact hI₃⟩
  · have hkeepReferent :
        ({ c with following := rest.head?.or (some o), referent := w.heap.target o }
          : Cursor).keepReferent hooks w = .ok () w₁ :=
      (bind_ok (Act.ofExcept_ok hc₁.member_ok)).trans hkeep
    refine (bind_ok (Act.read_ok hload)).trans ?_
    refine (bind_ok hkeepReferent).trans ?_
    refine (bind_ok (Act.ofExcept_ok hc₁.member_ok)).trans ?_
    refine (bind_ok (Act.read_ok (Heap.next_ok hoh₁))).trans ?_
    refine (bind_ok (Act.ofExcept_ok (require_ok _ (by rw [hnext]; rfl)))).trans ?_
    refine (bind_ok (Act.update_ok (Heap.setNext_ok hoh₁))).trans ?_
    exact (bind_ok henqueue).trans (Act.ofExcept_ok hadvance)
  · rw [hsplit]
    exact hs₂.relink (hkeeps₃.agreesOff _) (fun _ ha _ => hkeeps₃.link_eq ha)
      (keepAlive_not_mem_linkCalls _ _)
  · rw [hkeeps₃.pending, Heap.pendingHead_write, hkeeps.pending, hp]

end Cursor

/-- Keeping final references alive publishes all of them, with their targets,
and seals them against being discovered again. -/
theorem keepFinalList_ok (hh : hooks.KeepingFinals I) {l : DiscoveredList} {prev : List Call}
    {ms ps : List Handle} (hl : l.Lists w.heap ms)
    (htargets : ∀ o ∈ ms, ∃ r, w.heap.target o = some r ∧ w.heap.holds r = true)
    (hfresh : ∀ o ∈ ms, w.heap.nextLink o = none)
    (hps : w.heap.Pends ps) (hapart : ∀ o ∈ ms, o ∉ ps) (hI : I prev w) :
    ∃ w' calls, keepFinalList hooks l w = .ok .empty w' ∧ w'.heap.Pends (ms ++ ps) ∧
      Cursor.Sealed w.heap ms ms calls w'.heap ∧
      Told (Sealing w.heap) true ms ms w.heap.pendingHead calls ∧ I (prev ++ calls) w' := by
  obtain ⟨c, w₁, hvisit, hvisits⟩ := Cursor.visitAll_ok
    (fun passed rest c w' => passed ++ rest = ms ∧
      Cursor.SealVisits I prev w.heap passed rest c w')
    (fun _ _ _ _ ⟨_, _, hc, _⟩ => hc.hasCurrent)
    (fun passed o rest c w' ⟨hms, hP⟩ => by
      have ho : o ∈ ms := by simp [← hms]
      obtain ⟨d, w'', hd, hP'⟩ := Cursor.keepFinalMember_ok hh
        (by rw [hms]; exact hl.held) (htargets o ho) (hfresh o ho) hP
      exact ⟨d, w'', hd, by rw [← hms]; simp, hP'⟩)
    hl ⟨rfl, [], Cursor.at_start hl, .start _ _, .start, rfl, by simpa using hI⟩
  obtain ⟨-, calls, hc, hs, ht, hp, hI₁⟩ := hvisits
  rw [List.append_nil] at hs
  have hps₁ : w₁.heap.Pends ps := hps.congr hp
    (fun o ho => hs.agrees.following o fun hm => hapart o hm ho)
    (fun o _ => hs.agrees.holds)
  obtain ⟨w₂, hpublish, hpends, hagrees, hlink, hI₂⟩ :=
    hc.publish_ok hh.toStoring hI₁ hps₁ hapart
  have hnone : c.dropped = 0 := by
    have := hc.dropped
    omega
  refine ⟨w₂, calls ++ linkCalls ms w₁.heap.pendingHead, ?_, hpends,
    hs.relink hagrees hlink (keepAlive_not_mem_linkCalls _ _),
    ⟨calls, ht, by rw [if_pos rfl, hp]⟩, by rwa [List.append_assoc] at hI₂⟩
  refine (bind_ok hvisit).trans ((bind_ok hpublish).trans ?_)
  exact (bind_ok (Act.ofExcept_ok (require_ok _ (by rw [hnone]; rfl)))).trans rfl

end Referents
