import Referents.Proofs.Resolution
import Referents.Proofs.Roster

/-!
# What becomes of listed references

While a cycle works, references leave the roster.  Each that has left met one
of three **fates**: it was dropped, it was cleared and published, or, if it is a
final reference, it was sealed and published with its target intact.  Nothing
happens to references that were not listed, and nothing yet to those that still
are.

* `Settles` — the step from one roster to a later one, with the references that
  were published in between.
* `Settles.trans` — steps are put together; a fate, once met, is not undone.
* `Settles.ofResolved`, `Settles.ofSealed`, `Settles.ofRelinked`,
  `Settles.ofKeeps` — what each kind of work amounts to.
-/

namespace Referents

variable {h g k : Heap} {o : Handle} {r r' r'' : Roster} {kind : RefKind} {q : Nat}
variable {calls more : List Call} {pub pub' kept : List Handle}

/-- What became of the listed reference `o` on the way from the heap `h` to the
heap `g`, when the references `pub` were published. -/
inductive Fate (calls : List Call) (h : Heap) (pub : List Handle) (g : Heap) (kind : RefKind)
    (o : Handle) : Prop
  /-- Its target is null or alive, so it is on no list and no chain any more. -/
  | dropped (unlisted : o ∉ pub) (link : g.following o = none)
      (target : g.target o = h.target o) (next : g.nextLink o = h.nextLink o)
      (why : h.target o = none ∨ ∃ t, h.target o = some t ∧ .isAlive t true ∈ calls)
  /-- Its target was not alive, so it was cleared and published. -/
  | cleared (weak : kind ≠ .final) (listed : o ∈ pub)
      (target : g.target o = none) (next : g.nextLink o = h.nextLink o)
      (why : ∃ t, h.target o = some t ∧ .isAlive t false ∈ calls)
  /-- It is a final reference that was published with its target. -/
  | finalized (final : kind = .final) (listed : o ∈ pub)
      (target : g.target o = h.target o) (next : g.nextLink o = some o)
      (why : ∃ t, h.target o = some t ∧ .keepAlive o t ∈ calls)

/-- The lists with roster `r` on the heap `h` have been worked on until they
have roster `r'` on the heap `g`; the references `pub` were published. -/
structure Settles (calls : List Call) (r : Roster) (h : Heap) (pub : List Handle) (r' : Roster)
    (g : Heap) : Prop where
  agrees : h.AgreesOff (fun o => ∃ kind, r.lists kind o) g
  listed : ∀ kind o, r'.lists kind o → r.lists kind o
  published : ∀ o ∈ pub, ∃ kind, r.lists kind o ∧ ¬ r'.lists kind o
  target : ∀ kind o, r'.lists kind o → g.target o = h.target o
  next : ∀ kind o, r'.lists kind o → g.nextLink o = h.nextLink o
  fate : ∀ kind o, r.lists kind o → ¬ r'.lists kind o → Fate calls h pub g kind o

/-- No reference is on lists of two kinds. -/
def Roster.Disjoint (r : Roster) : Prop :=
  ∀ kind kind' o, r.lists kind o → r.lists kind' o → kind = kind'

/-- No reference is on lists of two kinds. -/
theorem Registered.disjoint {p : Processor} {ps : List Handle} (hr : Registered p h r ps) :
    r.Disjoint := fun _ _ _ ⟨_, ho⟩ ⟨_, ho'⟩ => (hr.apart ho ho').1

/-- Listed references are held. -/
theorem Registered.lists_held {p : Processor} {ps : List Handle} (hr : Registered p h r ps)
    (ho : r.lists kind o) : h.holds o = true := ho.elim fun _ ho => hr.held ho

/-- A fate is not undone by work that leaves the reference alone, and is known
with more calls. -/
theorem Fate.mono (hf : Fate calls h pub g kind o) (hcalls : ∀ c ∈ calls, c ∈ more)
    (hpub : o ∈ pub' ↔ o ∈ pub) (hlink : ∀ f, k.link ⟨o, f⟩ = g.link ⟨o, f⟩) :
    Fate more h pub' k kind o := by
  cases hf with
  | dropped unlisted link target next why =>
      refine .dropped (fun hm => unlisted (hpub.mp hm)) ((hlink .discovered).trans link)
        ((hlink .referent).trans target) ((hlink .next).trans next) ?_
      exact why.imp id fun ⟨t, ht, hcall⟩ => ⟨t, ht, hcalls _ hcall⟩
  | cleared weak listed target next why =>
      obtain ⟨t, ht, hcall⟩ := why
      exact .cleared weak (hpub.mpr listed) ((hlink .referent).trans target)
        ((hlink .next).trans next) ⟨t, ht, hcalls _ hcall⟩
  | finalized final listed target next why =>
      obtain ⟨t, ht, hcall⟩ := why
      exact .finalized final (hpub.mpr listed) ((hlink .referent).trans target)
        ((hlink .next).trans next) ⟨t, ht, hcalls _ hcall⟩

/-- A fate may be told from a later heap on which the reference was the same. -/
theorem Fate.rebase (hf : Fate calls g pub k kind o) (hcalls : ∀ c ∈ calls, c ∈ more)
    (hpub : o ∈ pub' ↔ o ∈ pub) (htarget : g.target o = h.target o)
    (hnext : g.nextLink o = h.nextLink o) : Fate more h pub' k kind o := by
  cases hf with
  | dropped unlisted link target next why =>
      refine .dropped (fun hm => unlisted (hpub.mp hm)) link (target.trans htarget)
        (next.trans hnext) ?_
      rw [htarget] at why
      exact why.imp id fun ⟨t, ht, hcall⟩ => ⟨t, ht, hcalls _ hcall⟩
  | cleared weak listed target next why =>
      rw [htarget] at why
      obtain ⟨t, ht, hcall⟩ := why
      exact .cleared weak (hpub.mpr listed) target (next.trans hnext) ⟨t, ht, hcalls _ hcall⟩
  | finalized final listed target next why =>
      rw [htarget] at why
      obtain ⟨t, ht, hcall⟩ := why
      exact .finalized final (hpub.mpr listed) (target.trans htarget) next
        ⟨t, ht, hcalls _ hcall⟩

namespace Settles

theorem refl (r : Roster) (h : Heap) : Settles [] r h [] r h where
  agrees := .refl _ h
  listed _ _ ho := ho
  published o ho := by cases ho
  target _ _ _ := rfl
  next _ _ _ := rfl
  fate _ _ ho hno := absurd ho hno

/-- What was settled in two parts is settled. -/
theorem trans (h₁ : Settles calls r h pub r' g) (h₂ : Settles more r' g pub' r'' k)
    (hdisjoint : r.Disjoint) (hheld : ∀ kind o, r.lists kind o → h.holds o = true) :
    Settles (calls ++ more) r h (pub' ++ pub) r'' k where
  agrees := h₁.agrees.trans
    (h₂.agrees.mono fun o ⟨kind, ho⟩ => ⟨kind, h₁.listed kind o ho⟩)
  listed kind o ho := h₁.listed kind o (h₂.listed kind o ho)
  published o ho := by
    rcases List.mem_append.mp ho with ho | ho
    · obtain ⟨kind, hl, hn⟩ := h₂.published o ho
      exact ⟨kind, h₁.listed kind o hl, hn⟩
    · obtain ⟨kind, hl, hn⟩ := h₁.published o ho
      exact ⟨kind, hl, fun hm => hn (h₂.listed kind o hm)⟩
  target kind o ho := (h₂.target kind o ho).trans (h₁.target kind o (h₂.listed kind o ho))
  next kind o ho := (h₂.next kind o ho).trans (h₁.next kind o (h₂.listed kind o ho))
  fate kind o ho hn := by
    by_cases hmid : r'.lists kind o
    · have hnot : o ∉ pub := by
        intro hm
        obtain ⟨kind', hl, hn'⟩ := h₁.published o hm
        rw [hdisjoint kind' kind o hl ho] at hn'
        exact hn' hmid
      exact (h₂.fate kind o hmid hn).rebase (fun c hc => List.mem_append_right calls hc)
        (by simp [hnot]) (h₁.target kind o hmid) (h₁.next kind o hmid)
    · have hgone : ∀ kind', ¬ r'.lists kind' o := by
        intro kind' hl
        rw [hdisjoint kind' kind o (h₁.listed kind' o hl) ho] at hl
        exact hmid hl
      have hnot : o ∉ pub' := by
        intro hm
        obtain ⟨kind', hl, -⟩ := h₂.published o hm
        exact hgone kind' hl
      have hheld' := h₁.agrees.holds (hheld kind o ho)
      exact (h₁.fate kind o ho hmid).mono (fun c hc => List.mem_append_left more hc)
        (by simp [hnot]) fun f => h₂.agrees.link ⟨o, f⟩ hheld' fun ⟨kind', hl⟩ => hgone kind' hl

/-- What was published had a target, and met its fate. -/
theorem fate_of_published (hs : Settles calls r h pub r' g) (ho : o ∈ pub) :
    ∃ kind, r.lists kind o ∧ Fate calls h pub g kind o := by
  obtain ⟨kind, hl, hn⟩ := hs.published o ho
  exact ⟨kind, hl, hs.fate kind o hl hn⟩

/-- Targets at most vanish. -/
theorem target_eq_or (hs : Settles calls r h pub r' g) (ho : h.holds o = true) :
    g.target o = h.target o ∨ g.target o = none := by
  by_cases hl : ∃ kind, r.lists kind o
  · obtain ⟨kind, hl⟩ := hl
    by_cases hl' : r'.lists kind o
    · exact .inl (hs.target kind o hl')
    · cases hs.fate kind o hl hl' with
      | dropped unlisted link target next why => exact .inl target
      | cleared weak listed target next why => exact .inr target
      | finalized final listed target next why => exact .inl target
  · exact .inl (hs.agrees.target ho hl)

/-- Final references keep theirs. -/
theorem target_of_final (hs : Settles calls r h pub r' g) (ho : h.holds o = true)
    (hfinal : ∀ kind, r.lists kind o → kind = .final) : g.target o = h.target o := by
  by_cases hl : ∃ kind, r.lists kind o
  · obtain ⟨kind, hl⟩ := hl
    by_cases hl' : r'.lists kind o
    · exact hs.target kind o hl'
    · cases hs.fate kind o hl hl' with
      | dropped unlisted link target next why => exact target
      | cleared weak listed target next why => exact absurd (hfinal kind hl) weak
      | finalized final listed target next why => exact target
  · exact hs.agrees.target ho hl

/-- Whoever is still listed was not published. -/
theorem not_published_of_listed (hs : Settles calls r h pub r' g) (hdisjoint : r.Disjoint)
    (ho : r'.lists kind o) : o ∉ pub := by
  intro hm
  obtain ⟨kind', hl, hgone⟩ := hs.published o hm
  rw [hdisjoint kind' kind o hl (hs.listed kind o ho)] at hgone
  exact hgone ho

open Classical in
/-- Exactly the published references that are not final ones have lost their targets. -/
theorem target_eq (hs : Settles calls r h pub r' g) (hdisjoint : r.Disjoint)
    (ho : h.holds o = true) :
    g.target o = if o ∈ pub ∧ ¬ r.lists .final o then none else h.target o := by
  by_cases hl : ∃ kind, r.lists kind o
  · obtain ⟨kind, hl⟩ := hl
    by_cases hl' : r'.lists kind o
    · rw [if_neg fun hm => hs.not_published_of_listed hdisjoint hl' hm.1, hs.target kind o hl']
    · cases hs.fate kind o hl hl' with
      | dropped unlisted link target next why => rw [if_neg fun hm => unlisted hm.1, target]
      | cleared weak listed target next why =>
          rw [if_pos ⟨listed, fun hf => weak (hdisjoint kind .final o hl hf)⟩, target]
      | finalized final listed target next why =>
          rw [if_neg fun hm => hm.2 (final ▸ hl), target]
  · rw [if_neg fun hm => hl ((hs.published o hm.1).imp fun _ hk => hk.1),
      hs.agrees.target ho hl]

open Classical in
/-- Exactly the published final references have been sealed. -/
theorem nextLink_eq (hs : Settles calls r h pub r' g) (hdisjoint : r.Disjoint)
    (ho : h.holds o = true) :
    g.nextLink o = if o ∈ pub ∧ r.lists .final o then some o else h.nextLink o := by
  by_cases hl : ∃ kind, r.lists kind o
  · obtain ⟨kind, hl⟩ := hl
    by_cases hl' : r'.lists kind o
    · rw [if_neg fun hm => hs.not_published_of_listed hdisjoint hl' hm.1, hs.next kind o hl']
    · cases hs.fate kind o hl hl' with
      | dropped unlisted link target next why => rw [if_neg fun hm => unlisted hm.1, next]
      | cleared weak listed target next why =>
          rw [if_neg fun hm => weak (hdisjoint kind .final o hl hm.2), next]
      | finalized final listed target next why => rw [if_pos ⟨listed, final ▸ hl⟩, next]
  · rw [if_neg fun hm => hl ((hs.published o hm.1).imp fun _ hk => hk.1)]
    exact hs.agrees.link ⟨o, .next⟩ ho hl

/-- What is linked afterwards is still listed, or was published, or was pending before. -/
theorem covers {ps : List Handle} (hs : Settles calls r h pub r' g) (hc : r.Covers h ps) :
    r'.Covers g (pub ++ ps) := by
  intro o ho
  by_cases hl : ∃ kind, r.lists kind o
  · obtain ⟨kind, hl⟩ := hl
    by_cases hl' : r'.lists kind o
    · exact .inl ⟨kind, hl'⟩
    · refine .inr (List.mem_append_left ps ?_)
      cases hs.fate kind o hl hl' with
      | dropped unlisted link target next why => exact absurd link ho
      | cleared weak listed target next why => exact listed
      | finalized final listed target next why => exact listed
  · rw [hs.agrees.following o hl] at ho
    exact .inr (List.mem_append_right pub ((hc o ho).resolve_left hl))

/-- A collector that touches no links settles nothing. -/
theorem ofKeeps (hg : h.Keeps g) (calls : List Call) (r : Roster)
    (hheld : ∀ kind o, r.lists kind o → h.holds o = true) : Settles calls r h [] r g where
  agrees := hg.agreesOff _
  listed _ _ ho := ho
  published o ho := by cases ho
  target kind _ ho := hg.link_eq (hheld kind _ ho)
  next kind _ ho := hg.link_eq (hheld kind _ ho)
  fate _ _ ho hno := absurd ho hno

/-- Rearranging the lists settles nothing. -/
theorem ofRelinked (hg : h.Relinks (fun o => ∃ kind, r.lists kind o) g)
    (hsame : ∀ kind o, r'.lists kind o ↔ r.lists kind o) : Settles [] r h [] r' g where
  agrees := hg.agreesOff
  listed kind o ho := (hsame kind o).mp ho
  published o ho := by cases ho
  target _ o _ := hg.target_eq o
  next _ o _ := hg.nextLink_eq o
  fate kind o ho hno := absurd ((hsame kind o).mpr ho) hno

end Settles

namespace Roster

/-- Replacing a list by some of its members lists no new reference. -/
theorem lists_of_set (hkept : ∀ o ∈ kept, o ∈ r kind q) {kind' : RefKind}
    (ho : (r.set kind q kept).lists kind' o) : r.lists kind' o := by
  obtain ⟨q', ho⟩ := ho
  by_cases hkq : kind' = kind ∧ q' = q
  · obtain ⟨rfl, rfl⟩ := hkq
    rw [set_self] at ho
    exact ⟨q', hkept o ho⟩
  · rw [set_of_ne _ _ hkq] at ho
    exact ⟨q', ho⟩

/-- Whoever left the roster was on the list that was replaced. -/
theorem mem_of_not_set {kind' : RefKind} (ho : r.lists kind' o)
    (hno : ¬ (r.set kind q kept).lists kind' o) :
    kind' = kind ∧ o ∈ r kind q ∧ o ∉ kept := by
  obtain ⟨q', ho⟩ := ho
  by_cases hkq : kind' = kind ∧ q' = q
  · obtain ⟨rfl, rfl⟩ := hkq
    exact ⟨rfl, ho, fun hm => hno ⟨q', by rwa [set_self]⟩⟩
  · exact absurd ⟨q', by rwa [set_of_ne _ _ hkq]⟩ hno

/-- Whoever is on a list that is replaced and is not kept leaves the roster. -/
theorem not_set_of_mem (hapart : ∀ q', o ∈ r kind q → o ∈ r kind q' → q = q')
    (ho : o ∈ r kind q) (hno : o ∉ kept) : ¬ (r.set kind q kept).lists kind o := by
  intro hlisted
  obtain ⟨q', ho'⟩ := hlisted
  by_cases hq : q' = q
  · subst hq
    rw [set_self] at ho'
    exact hno ho'
  · rw [set_of_ne _ _ fun e => hq e.2] at ho'
    exact hq (hapart q' ho ho').symm

end Roster

namespace Settles

variable {p : Processor} {ps : List Handle}

/-- Resolving one list; only final references stay on it. -/
theorem ofResolved (hr : Registered p h r ps) (hsub : kept.Sublist (r kind q))
    (hgone : ∀ o ∈ r kind q, o ∉ kept → g.following o = none)
    (hv : Cursor.Verdicts h (kind != .final) (r kind q) (r kind q) kept calls g) :
    Settles calls r h (if (kind != .final) = true then kept else [])
      (r.set kind q (if (kind != .final) = true then [] else kept)) g := by
  have hheld : ∀ o ∈ r kind q, h.holds o = true := fun o ho => hr.held ho
  have hstay : ∀ o, o ∈ (if (kind != .final) = true then [] else kept) →
      o ∈ kept ∧ (kind != .final) = false := by
    intro o ho
    split at ho
    · cases ho
    · next hf => exact ⟨ho, by simpa using hf⟩
  have hkept : ∀ o ∈ (if (kind != .final) = true then [] else kept), o ∈ r kind q :=
    fun o ho => hsub.subset (hstay o ho).1
  have hsame : ∀ kind' o, (r.set kind q
      (if (kind != .final) = true then [] else kept)).lists kind' o →
      ¬ ((kind != .final) = true ∧ o ∈ kept) := by
    intro kind' o ho hin
    obtain ⟨hpub, hk⟩ := hin
    rw [if_pos hpub] at ho
    have hkind := hr.disjoint kind' kind o (Roster.lists_of_set (by simp) ho)
      ⟨q, hsub.subset hk⟩
    rw [hkind] at ho
    exact Roster.not_set_of_mem (fun q' ho ho' => (hr.apart ho ho').2) (hsub.subset hk)
      (by simp) ho
  constructor
  case agrees => exact hv.agrees.mono fun o ho => ⟨kind, q, ho⟩
  case listed => exact fun kind' o ho => Roster.lists_of_set hkept ho
  case published =>
    intro o ho
    split at ho
    · next hpub =>
        refine ⟨kind, ⟨q, hsub.subset ho⟩, ?_⟩
        exact Roster.not_set_of_mem (fun q' ho ho' => (hr.apart ho ho').2) (hsub.subset ho)
          (by simp [hpub])
    · cases ho
  case target =>
    intro kind' o ho
    rw [hv.target o (hr.lists_held (Roster.lists_of_set hkept ho)), if_neg (hsame kind' o ho)]
  case next =>
    exact fun kind' o ho => hv.next o (hr.lists_held (Roster.lists_of_set hkept ho))
  case fate =>
    intro kind' o ho hno
    obtain ⟨rfl, hmem, hnot⟩ := Roster.mem_of_not_set ho hno
    by_cases hk : o ∈ kept
    · have hpub : (kind' != .final) = true := by
        by_contra hf
        rw [if_neg hf] at hnot
        exact hnot hk
      refine .cleared (by simpa using hpub) (by rw [if_pos hpub]; exact hk) ?_
        (hv.next o (hheld o hmem)) (hv.spared o hk)
      rw [hv.target o (hheld o hmem), if_pos ⟨hpub, hk⟩]
    · refine .dropped (fun hm => ?_) (hgone o hmem hk) ?_ (hv.next o (hheld o hmem))
        (hv.dropped o hmem hk)
      · split at hm
        · exact hk hm
        · cases hm
      · rw [hv.target o (hheld o hmem), if_neg fun hc => hk hc.2]

/-- Keeping the final references of one list alive. -/
theorem ofSealed (hr : Registered p h r ps)
    (hs : Cursor.Sealed h (r .final q) (r .final q) calls g)
    (htargets : ∀ o ∈ r .final q, ∃ t, h.target o = some t) :
    Settles calls r h (r .final q) (r.set .final q []) g := by
  have hleaves : ∀ o ∈ r .final q, ¬ (r.set .final q []).lists .final o := fun o ho =>
    Roster.not_set_of_mem (fun q' ho ho' => (hr.apart ho ho').2) ho (by simp)
  constructor
  case agrees => exact hs.agrees.mono fun o ho => ⟨.final, q, ho⟩
  case listed => exact fun kind' o ho => Roster.lists_of_set (by simp) ho
  case published => exact fun o ho => ⟨.final, ⟨q, ho⟩, hleaves o ho⟩
  case target =>
    exact fun kind' o ho => hs.target o (hr.lists_held (Roster.lists_of_set (by simp) ho))
  case next =>
    intro kind' o ho
    have hold := Roster.lists_of_set (show ∀ x ∈ ([] : List Handle), x ∈ r .final q by simp) ho
    rw [hs.next o (hr.lists_held hold), if_neg]
    intro hm
    rw [hr.disjoint kind' .final o hold ⟨q, hm⟩] at ho
    exact hleaves o hm ho
  case fate =>
    intro kind' o ho hno
    obtain ⟨rfl, hmem, -⟩ := Roster.mem_of_not_set ho hno
    obtain ⟨t, ht⟩ := htargets o hmem
    refine .finalized rfl hmem (hs.target o (hr.held hmem)) ?_
      ⟨t, ht, (hs.kept o t).mpr ⟨hmem, ht⟩⟩
    rw [hs.next o (hr.held hmem), if_pos hmem]

end Settles

/-! ### References that can be worked on -/

/-- The targets of listed references can be looked at. -/
structure Pointing (nullReferent : Bool) (h : Heap) (r : Roster) : Prop where
  target : ∀ kind o, r.lists kind o → ∀ t, h.target o = some t → h.holds t = true
  null : ∀ kind o, r.lists kind o → h.target o = none → nullReferent = true

/-- The listed references are in a state in which they can be resolved. -/
structure Ready (nullReferent : Bool) (h : Heap) (r : Roster) : Prop where
  target : ∀ kind o, r.lists kind o → ∀ t, h.target o = some t → h.holds t = true
  null : ∀ kind o, r.lists kind o → h.target o = none → nullReferent = true
  fresh : ∀ o, r.lists .final o → h.nextLink o = none

variable {nullReferent : Bool}

/-- References that are ready can be looked at. -/
theorem Ready.pointing (hready : Ready nullReferent h r) : Pointing nullReferent h r :=
  ⟨hready.target, hready.null⟩

/-- References that are still listed can still be looked at. -/
theorem Pointing.settles (hpoints : Pointing nullReferent h r)
    (hs : Settles calls r h pub r' g) : Pointing nullReferent g r' where
  target kind o ho t ht := by
    rw [hs.target kind o ho] at ht
    exact hs.agrees.holds (hpoints.target kind o (hs.listed kind o ho) t ht)
  null kind o ho ht := by
    rw [hs.target kind o ho] at ht
    exact hpoints.null kind o (hs.listed kind o ho) ht

/-- The members of each list can be looked at. -/
theorem Pointing.resolvable (hpoints : Pointing nullReferent h r) (kind : RefKind) (q : Nat) :
    Cursor.Resolvable h nullReferent (r kind q) := fun o ho =>
  ⟨hpoints.target kind o ⟨q, ho⟩, hpoints.null kind o ⟨q, ho⟩⟩

end Referents
