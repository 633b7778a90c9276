import Referents.Proofs.Heap.View

/-!
# Heaps that agree except on some objects

Most of the work on references changes the links of a few objects only.  Two
heaps **agree off** a set of objects if they differ at most in the links of
these objects, in mark bits, in edges, in the pending chain, and in objects
that are new and on no list.

* `AgreesOff.refl`, `AgreesOff.trans`, `AgreesOff.mono` — agreements are put
  together step by step.
* `agreesOff_write`, `agreesOff_withPending` — each elementary change is one.
* `Keeps` — a change that touches no link at all and no pending chain, which
  is all that a collector may do while references are resolved.
* `Relinks` — a change that touches nothing but the chains of some objects.
* `Endures` — a change that leaves what objects are, their marks, and which were processed.
-/

namespace Referents

namespace Heap

variable {h g k : Heap} {o : Handle} {a : LinkAddr} {v head : Option Handle}
variable {S T : Handle → Prop}

/-- Every reference has its target in the table. -/
def TargetsHeld (h : Heap) : Prop := ∀ o r, h.target o = some r → h.holds r = true

/-- Every edge leads to an object of the table. -/
def EdgesHeld (h : Heap) : Prop := ∀ o, ∀ q ∈ h.edgesOf o, h.holds q = true

/-- The heap `g` differs from `h` at most in the links of the objects in `S`,
in marks and edges, in the pending chain, and in new objects. -/
structure AgreesOff (S : Handle → Prop) (h g : Heap) : Prop where
  size : h.size ≤ g.size
  kind : ∀ o, h.holds o = true → g.kindOf o = h.kindOf o
  link : ∀ a, h.holds a.obj = true → ¬ S a.obj → g.link a = h.link a
  following : ∀ o, ¬ S o → g.following o = h.following o
  targets : h.TargetsHeld → g.TargetsHeld

/-- Objects stay in the table. -/
theorem AgreesOff.holds (hg : h.AgreesOff S g) (ho : h.holds o = true) : g.holds o = true :=
  decide_eq_true (Nat.lt_of_lt_of_le (of_decide_eq_true ho) hg.size)

theorem AgreesOff.refl (S : Handle → Prop) (h : Heap) : h.AgreesOff S h where
  size := Nat.le_refl _
  kind _ _ := rfl
  link _ _ _ := rfl
  following _ _ := rfl
  targets ht := ht

/-- Agreements are put together, one change after the other. -/
theorem AgreesOff.trans (hg : h.AgreesOff S g) (hk : g.AgreesOff S k) : h.AgreesOff S k where
  size := Nat.le_trans hg.size hk.size
  kind o ho := (hk.kind o (hg.holds ho)).trans (hg.kind o ho)
  link a ha hS := (hk.link a (hg.holds ha) hS).trans (hg.link a ha hS)
  following o hS := (hk.following o hS).trans (hg.following o hS)
  targets ht := hk.targets (hg.targets ht)

/-- Heaps that agree off a set agree off every larger one. -/
theorem AgreesOff.mono (hg : h.AgreesOff S g) (hST : ∀ o, S o → T o) : h.AgreesOff T g where
  size := hg.size
  kind := hg.kind
  link a ha hT := hg.link a ha fun hS => hT (hST a.obj hS)
  following o hT := hg.following o fun hS => hT (hST o hS)
  targets := hg.targets

/-- The targets of other objects are as before. -/
theorem AgreesOff.target (hg : h.AgreesOff S g) (ho : h.holds o = true) (hS : ¬ S o) :
    g.target o = h.target o := hg.link ⟨o, .referent⟩ ho hS

/-- The next links of other objects are as before. -/
theorem AgreesOff.nextLink (hg : h.AgreesOff S g) (ho : h.holds o = true) (hS : ¬ S o) :
    g.nextLink o = h.nextLink o := hg.link ⟨o, .next⟩ ho hS

/-- A store of null, or to a field other than the target. -/
theorem agreesOff_write (ha : S a.obj) (hv : a.field = .referent → v = none) :
    h.AgreesOff S (h.write a v) where
  size := by simp
  kind o _ := by simp
  link b _ hS := link_write_of_ne fun e => hS (by rw [e]; exact ha)
  following o hS := link_write_of_ne fun e => hS (by rw [show o = a.obj by rw [← e]]; exact ha)
  targets ht o r hr := by
    rw [holds_write]
    by_cases hfield : a = ⟨o, .referent⟩
    · subst hfield
      have hheld : h.holds o = true := by simpa using holds_of_link hr
      rw [Heap.target, link_write_self hheld, hv rfl] at hr
      cases hr
    · rw [Heap.target, link_write_of_ne fun e => hfield e.symm] at hr
      exact ht o r hr

/-- Any change of the pending chain is one. -/
theorem agreesOff_withPending (S : Handle → Prop) (h : Heap) (head : Option Handle) :
    h.AgreesOff S (h.withPending head) where
  size := Nat.le_refl _
  kind _ _ := rfl
  link _ _ _ := rfl
  following _ _ := rfl
  targets ht := ht

/-- The change from `h` to `g` touches no link and no pending chain. -/
structure Keeps (h g : Heap) : Prop extends h.AgreesOff (fun _ => False) g where
  pending : g.pendingHead = h.pendingHead

theorem Keeps.refl (h : Heap) : h.Keeps h := ⟨.refl _ h, rfl⟩

/-- Changes that touch no link are put together. -/
theorem Keeps.trans (hg : h.Keeps g) (hk : g.Keeps k) : h.Keeps k :=
  ⟨hg.toAgreesOff.trans hk.toAgreesOff, hk.pending.trans hg.pending⟩

/-- A change that touches no link agrees off any set. -/
theorem Keeps.agreesOff (hg : h.Keeps g) (S : Handle → Prop) : h.AgreesOff S g :=
  hg.toAgreesOff.mono fun _ hf => hf.elim

/-- All links of held objects are as before. -/
theorem Keeps.link_eq (hg : h.Keeps g) (ha : h.holds a.obj = true) : g.link a = h.link a :=
  hg.link a ha id

/-- It may touch marks and edges. -/
theorem keeps_of_link (hsize : g.size = h.size) (hkind : g.kindOf = h.kindOf)
    (hlink : g.link = h.link) (hpending : g.pendingHead = h.pendingHead) : h.Keeps g where
  size := Nat.le_of_eq hsize.symm
  kind _ _ := by rw [hkind]
  link _ _ _ := by rw [hlink]
  following _ _ := by rw [Heap.following, hlink]
  targets ht o r hr := by
    rw [Heap.target, hlink] at hr
    rw [Heap.holds, hsize]
    exact ht o r hr
  pending := hpending

/-- Clearing the marks touches no link. -/
theorem keeps_clearMarks (h : Heap) : h.Keeps h.clearMarks :=
  keeps_of_link size_clearMarks (kindOf_congr traits_clearMarks) link_clearMarks
    pendingHead_clearMarks

/-! ### Changes of links only -/

/-- The heap `g` has the objects of `h` with their traits and marks. -/
structure SameObjects (h g : Heap) : Prop where
  size : g.size = h.size
  traits : g.traits = h.traits
  marks : g.marks = h.marks

/-- Changes of links are put together. -/
theorem SameObjects.trans (hg : h.SameObjects g) (hk : g.SameObjects k) : h.SameObjects k :=
  ⟨hk.size.trans hg.size, hk.traits.trans hg.traits, hk.marks.trans hg.marks⟩

/-- A write leaves objects, traits and marks. -/
theorem sameObjects_write (h : Heap) (a : LinkAddr) (v : Option Handle) :
    h.SameObjects (h.write a v) := ⟨size_write, traits_write, marks_write⟩

/-- So does a change of the pending chain. -/
theorem sameObjects_withPending (h : Heap) (head : Option Handle) :
    h.SameObjects (h.withPending head) := ⟨rfl, rfl, rfl⟩

/-- The heap `g` differs from `h` at most in what the objects in `S` link to on
their lists. -/
structure Relinks (S : Handle → Prop) (h g : Heap) : Prop where
  objects : h.SameObjects g
  pending : g.pendingHead = h.pendingHead
  link : ∀ a, (a.field = .discovered → ¬ S a.obj) → g.link a = h.link a

theorem Relinks.refl (S : Handle → Prop) (h : Heap) : h.Relinks S h :=
  ⟨⟨rfl, rfl, rfl⟩, rfl, fun _ _ => rfl⟩

/-- Changes on lists are put together. -/
theorem Relinks.trans (hg : h.Relinks S g) (hk : g.Relinks S k) : h.Relinks S k :=
  ⟨hg.objects.trans hk.objects, hk.pending.trans hg.pending,
    fun a ha => (hk.link a ha).trans (hg.link a ha)⟩

/-- A change on some lists is one on more lists. -/
theorem Relinks.mono (hg : h.Relinks S g) (hST : ∀ o, S o → T o) : h.Relinks T g :=
  ⟨hg.objects, hg.pending, fun a ha => hg.link a fun hf hS => ha hf (hST a.obj hS)⟩

/-- A write to a discovered link is a change on the list of its object. -/
theorem relinks_write (ho : S o) : h.Relinks S (h.write ⟨o, .discovered⟩ v) where
  objects := sameObjects_write h _ v
  pending := pendingHead_write
  link a ha := link_write_of_ne fun e => ha (by rw [e]) (by rw [e]; exact ho)

/-- The same handles are held. -/
theorem Relinks.holds_eq (hg : h.Relinks S g) (o : Handle) : g.holds o = h.holds o := by
  rw [Heap.holds, Heap.holds, hg.objects.size]

/-- A change on lists agrees off the members of these lists. -/
theorem Relinks.agreesOff (hg : h.Relinks S g) : h.AgreesOff S g where
  size := Nat.le_of_eq hg.objects.size.symm
  kind o _ := by rw [kindOf_congr hg.objects.traits]
  link a _ hS := hg.link a fun _ => hS
  following o hS := hg.link ⟨o, .discovered⟩ fun _ => hS
  targets ht o r hr := by
    have hlink : g.target o = h.target o := hg.link ⟨o, .referent⟩ (by simp)
    rw [hg.holds_eq]
    exact ht o r (hlink ▸ hr)

/-- Targets are as before. -/
theorem Relinks.target_eq (hg : h.Relinks S g) (o : Handle) : g.target o = h.target o :=
  hg.link ⟨o, .referent⟩ (by simp)

/-- Next links are as before. -/
theorem Relinks.nextLink_eq (hg : h.Relinks S g) (o : Handle) : g.nextLink o = h.nextLink o :=
  hg.link ⟨o, .next⟩ (by simp)

/-! ### Changes of targets and links -/

/-- The objects of `h` are in `g`, each of the kind that it was, and marked and processed
if it was. -/
structure Endures (h g : Heap) : Prop where
  kind : ∀ o, h.holds o = true → g.kindOf o = h.kindOf o
  next : ∀ o, h.holds o = true → g.nextLink o = h.nextLink o
  marks : ∀ o, h.holds o = true → g.marks o = h.marks o

theorem Endures.refl (h : Heap) : h.Endures h := ⟨fun _ _ => rfl, fun _ _ => rfl, fun _ _ => rfl⟩

/-- What touches no link and no mark of a held object endures. -/
theorem Keeps.endures (hg : h.Keeps g) (hmarks : ∀ o, h.holds o = true → g.marks o = h.marks o) :
    h.Endures g := ⟨hg.kind, fun o ho => hg.link_eq (a := ⟨o, .next⟩) ho, hmarks⟩

/-- What changes lists only endures. -/
theorem Relinks.endures (hg : h.Relinks S g) : h.Endures g where
  kind o _ := by rw [kindOf_congr hg.objects.traits]
  next o _ := hg.nextLink_eq o
  marks o _ := by rw [hg.objects.marks]

/-- A new referent changes neither kinds nor marks, and leaves what is processed processed. -/
theorem endures_retarget (h : Heap) (o : Handle) (v : Option Handle) :
    h.Endures (h.write ⟨o, .referent⟩ v) where
  kind _ _ := by rw [kindOf_write]
  next _ _ := link_write_of_field_ne (by simp)
  marks _ _ := by rw [marks_write]

end Heap

end Referents
