import Referents.Proofs.Accounting

/-!
# What becomes of published references

A history of a program is a list of **notes**: which references were created,
which targets a mutator cleared, what a collection published, what a pass of the
handler handed out, and what was polled.  The **ledger** tells how such a
history and the present state belong together: every published reference was
handed out or is pending, none was handed out twice, and nothing else was.

* `Note`, `Note.owed` — the notes, and what is pending after one.
* `Ledger` — how notes, heap and handler belong together.
* `Ledger.advance`, `Ledger.handOut`, `Ledger.poll` — each step keeps it.
-/

namespace Referents

/-- What is noted of a step. -/
inductive Note where
  /-- Nothing. -/
  | silent
  /-- A reference was created. -/
  | create (o : Handle) (kind : Kind) (referent : Option Handle)
  /-- A mutator cleared a target. -/
  | clear (o : Handle)
  /-- A collection put references in front of the pending chain. -/
  | publish (refs : List Handle)
  /-- A pass of the handler put references into the queue and called the finalizer. -/
  | handOut (queued : List Handle) (calls : List Finalization)
  /-- A reference was asked for from the queue. -/
  | poll (o : Option Handle)

namespace Note

def published : Note → List Handle
  | .publish refs => refs
  | _ => []

def queued : Note → List Handle
  | .handOut queued _ => queued
  | _ => []

def calls : Note → List Finalization
  | .handOut _ calls => calls
  | _ => []

def polled : Note → List Handle
  | .poll o => o.toList
  | _ => []

/-- All references that were handed out. -/
def handed (n : Note) : List Handle := n.queued ++ n.calls.map Finalization.reference

/-- What is pending after the step, if `ps` was pending before. -/
def owed (ps : List Handle) : Note → List Handle
  | .publish refs => refs ++ ps
  | .handOut _ _ => []
  | _ => ps

theorem queued_eq_nil {n : Note} (hn : n.handed = []) : n.queued = [] :=
  (List.append_eq_nil_iff.mp hn).1

theorem calls_eq_nil {n : Note} (hn : n.handed = []) : n.calls = [] :=
  List.map_eq_nil_iff.mp (List.append_eq_nil_iff.mp hn).2

end Note

variable {notes : List Note} {n : Note} {h g : Heap} {handler handler' : Handler}
variable {ps : List Handle} {o : Handle} {v : Option Handle} {S : Handle → Prop}

/-- The final reference `o` was created with the target `v`; or `v` is null, and a
mutator cleared the target. -/
def Genuine (notes : List Note) (o : Handle) (v : Option Handle) : Prop :=
  ∃ w, .create o (some .final) w ∈ notes ∧ (v = w ∨ v = none ∧ .clear o ∈ notes)

/-- A target that was genuine is so after one more step. -/
theorem Genuine.snoc (hv : Genuine notes o v) (n : Note) : Genuine (notes ++ [n]) o v := by
  obtain ⟨w, hcreate, hw⟩ := hv
  exact ⟨w, List.mem_append_left _ hcreate,
    hw.imp id fun ⟨hnone, hclear⟩ => ⟨hnone, List.mem_append_left _ hclear⟩⟩

/-- The target may vanish if that is a mutator's doing. -/
theorem Genuine.fades (hv : Genuine notes o (h.target o))
    (ht : g.target o = h.target o ∨ g.target o = none ∧ .clear o ∈ notes) :
    Genuine notes o (g.target o) := by
  obtain ⟨w, hcreate, hw⟩ := hv
  refine ⟨w, hcreate, ?_⟩
  rcases ht with htarget | hcleared
  · rw [htarget]
    exact hw
  · exact .inr hcleared

/-- The notes, the heap, the handler and the pending references `ps` agree. -/
structure Ledger (notes : List Note) (h : Heap) (handler : Handler) (ps : List Handle) :
    Prop where
  /-- What was published since the last pass of the handler is pending. -/
  owed : ps = notes.foldl Note.owed []
  /-- What was published was handed out or is pending, and nothing else was or is. -/
  published : (notes.flatMap Note.published).Perm (notes.flatMap Note.handed ++ ps)
  /-- No reference is handed out twice. -/
  nodup : (notes.flatMap Note.handed ++ ps).Nodup
  /-- The targets of references that were handed out are null. -/
  spent : ∀ o ∈ notes.flatMap Note.handed, h.holds o = true ∧ h.target o = none
  /-- References are polled in the order in which they were handed out. -/
  queue : notes.flatMap Note.polled ++ handler.queue.items = notes.flatMap Note.queued
  calls : handler.finalizations.toList = notes.flatMap Note.calls
  /-- No final reference goes to the queue. -/
  queued : ∀ o ∈ notes.flatMap Note.queued, ∃ k, h.kindOf o = some k ∧ k ≠ .final
  /-- Only final references go to the finalizer, with the target they were created
  with unless a mutator cleared it. -/
  finalized : ∀ call ∈ notes.flatMap Note.calls, h.kindOf call.reference = some .final ∧
    Genuine notes call.reference call.referent ∧
    (call.referent ≠ none ∨ .clear call.reference ∈ notes)
  /-- Final references that were not handed out still have that target. -/
  original : ∀ o, h.kindOf o = some .final → o ∉ notes.flatMap Note.handed →
    Genuine notes o (h.target o)
  intact : ∀ o ∈ ps, h.kindOf o = some .final → h.target o ≠ none ∨ .clear o ∈ notes

namespace Ledger

/-- A table without objects, before anything is noted. -/
theorem start (hholds : ∀ o, ¬ h.holds o = true) (hqueue : handler.queue.items = [])
    (hcalls : handler.finalizations.toList = []) : Ledger [] h handler [] where
  owed := rfl
  published := .nil
  nodup := List.nodup_nil
  spent _ ho := nomatch ho
  queue := hqueue
  calls := hcalls
  queued _ ho := nomatch ho
  finalized _ ho := nomatch ho
  original o ho := absurd (Heap.holds_of_kindOf ho) (hholds o)
  intact _ ho := nomatch ho

/-- What was handed out is held. -/
theorem held (hl : Ledger notes h handler ps) (ho : o ∈ notes.flatMap Note.handed) :
    h.holds o = true := (hl.spent o ho).1

/-- A reference with a target was not handed out before. -/
theorem not_handed (hl : Ledger notes h handler ps) (ho : h.target o ≠ none) :
    o ∉ notes.flatMap Note.handed := fun hm => ho (hl.spent o hm).2

theorem mem_handed_of_queued (ho : o ∈ notes.flatMap Note.queued) :
    o ∈ notes.flatMap Note.handed := by
  obtain ⟨n, hn, ho⟩ := List.mem_flatMap.mp ho
  exact List.mem_flatMap.mpr ⟨n, hn, List.mem_append_left _ ho⟩

theorem mem_handed_of_call {call : Finalization} (hcall : call ∈ notes.flatMap Note.calls) :
    call.reference ∈ notes.flatMap Note.handed := by
  obtain ⟨n, hn, hcall⟩ := List.mem_flatMap.mp hcall
  exact List.mem_flatMap.mpr ⟨n, hn, List.mem_append_right _ (List.mem_map_of_mem hcall)⟩

/-- References that were handed out stay without targets. -/
theorem spent_of_fades (hl : Ledger notes h handler ps) (hf : h.Fades S g)
    (ho : o ∈ notes.flatMap Note.handed) : g.holds o = true ∧ g.target o = none := by
  obtain ⟨hheld, hnone⟩ := hl.spent o ho
  exact ⟨hf.holds o hheld, hf.target_none hheld hnone⟩

/-- What was queued stays a reference of a kind other than final. -/
theorem queued_of_fades (hl : Ledger notes h handler ps) (hf : h.Fades S g)
    (ho : o ∈ notes.flatMap Note.queued) : ∃ k, g.kindOf o = some k ∧ k ≠ .final := by
  rw [hf.kind o (hl.held (mem_handed_of_queued ho))]
  exact hl.queued o ho

/-- What a finalizer was called with does not change afterwards. -/
theorem finalized_of_fades (hl : Ledger notes h handler ps) (hf : h.Fades S g) (n : Note)
    {call : Finalization} (hcall : call ∈ notes.flatMap Note.calls) :
    g.kindOf call.reference = some .final ∧
      Genuine (notes ++ [n]) call.reference call.referent ∧
      (call.referent ≠ none ∨ .clear call.reference ∈ notes ++ [n]) := by
  obtain ⟨hkind, hgenuine, hintact⟩ := hl.finalized call hcall
  rw [hf.kind _ (hl.held (mem_handed_of_call hcall))]
  exact ⟨hkind, hgenuine.snoc n, hintact.imp id (List.mem_append_left _)⟩

/-- A step that hands out nothing: it creates or clears, or it publishes references
that had targets. -/
theorem advance (hl : Ledger notes h handler ps) (hf : h.Fades S g)
    (hheld : ∀ o ∈ ps, h.holds o = true) (hhanded : n.handed = []) (hpolled : n.polled = [])
    (howed : n.owed ps = n.published ++ ps)
    (hpointed : ∀ o ∈ n.published, h.target o ≠ none) (hdistinct : (n.published ++ ps).Nodup)
    (hcleared : ∀ o, S o → n = .clear o)
    (hnew : ∀ o, g.kindOf o = some .final → h.holds o = true ∨
      n = .create o (some .final) (g.target o)) :
    Ledger (notes ++ [n]) g handler (n.published ++ ps) := by
  have hsame : (notes ++ [n]).flatMap Note.handed = notes.flatMap Note.handed := by
    simp [hhanded]
  have hqueued : (notes ++ [n]).flatMap Note.queued = notes.flatMap Note.queued := by
    simp [Note.queued_eq_nil hhanded]
  have hcalls : (notes ++ [n]).flatMap Note.calls = notes.flatMap Note.calls := by
    simp [Note.calls_eq_nil hhanded]
  have hfinal : ∀ o, h.kindOf o = some .final →
      g.target o = h.target o ∨ g.target o = none ∧ .clear o ∈ notes ++ [n] := fun o ho => by
    by_cases hS : S o
    · exact (hf.target o (Heap.holds_of_kindOf ho)).imp id fun hnone =>
        ⟨hnone, by simp [hcleared o hS]⟩
    · exact .inl (hf.final o ho hS)
  constructor
  case owed =>
    rw [List.foldl_append, ← hl.owed]
    exact howed.symm
  case published =>
    rw [hsame, List.flatMap_append, List.flatMap_singleton]
    refine (hl.published.append_right _).trans ?_
    rw [List.append_assoc]
    exact List.perm_append_comm.append_left _
  case nodup =>
    rw [hsame]
    obtain ⟨hnodup, -, hdisjoint⟩ := List.nodup_append.mp hl.nodup
    refine List.nodup_append.mpr ⟨hnodup, hdistinct, fun a ha b hb hab => ?_⟩
    rcases List.mem_append.mp hb with hb | hb
    · exact hl.not_handed (hpointed b hb) (hab ▸ ha)
    · exact hdisjoint a ha b hb hab
  case spent =>
    intro o ho
    rw [hsame] at ho
    exact hl.spent_of_fades hf ho
  case queue =>
    rw [hqueued]
    simpa [hpolled] using hl.queue
  case calls =>
    rw [hcalls]
    exact hl.calls
  case queued =>
    intro o ho
    rw [hqueued] at ho
    exact hl.queued_of_fades hf ho
  case finalized =>
    intro call hcall
    rw [hcalls] at hcall
    exact hl.finalized_of_fades hf n hcall
  case original =>
    intro o ho hfresh
    rw [hsame] at hfresh
    rcases hnew o ho with hold | hcreate
    · rw [hf.kind o hold] at ho
      exact ((hl.original o ho hfresh).snoc n).fades (hfinal o ho)
    · exact ⟨g.target o, by simp [hcreate], .inl rfl⟩
  case intact =>
    intro o ho hkind
    have hold : h.holds o = true := (List.mem_append.mp ho).elim
      (fun hp => Heap.holds_of_target_ne_none (hpointed o hp)) (hheld o)
    rw [hf.kind o hold] at hkind
    have hold : h.target o ≠ none ∨ .clear o ∈ notes ++ [n] := (List.mem_append.mp ho).elim
      (fun hp => .inl (hpointed o hp))
      fun hp => (hl.intact o hp hkind).imp id (List.mem_append_left _)
    rcases hfinal o hkind with htarget | ⟨-, hclear⟩
    · rw [htarget]
      exact hold
    · exact .inr hclear

/-- A pass of the handler hands out what is pending. -/
theorem handOut (hl : Ledger notes h handler ps) (hprocessed : ∀ o ∈ ps, h.Processed o)
    (hf : h.Fades (· ∈ ps) g) (hholds : ∀ o, g.holds o = true → h.holds o = true)
    (hgone : ∀ o ∈ ps, g.target o = none)
    (hqueue : handler'.queue.items = handler.queue.items ++ h.forQueue ps)
    (hcalls : handler'.finalizations.toList =
      handler.finalizations.toList ++ h.forFinalizer ps) :
    Ledger (notes ++ [.handOut (h.forQueue ps) (h.forFinalizer ps)]) g handler' [] := by
  obtain ⟨n, hn⟩ : ∃ n, n = Note.handOut (h.forQueue ps) (h.forFinalizer ps) := ⟨_, rfl⟩
  have hperm : ((notes ++ [n]).flatMap Note.handed).Perm (notes.flatMap Note.handed ++ ps) := by
    rw [List.flatMap_append, List.flatMap_singleton, hn]
    exact (h.perm_batch ps).append_left _
  have hmem : ∀ o, o ∈ (notes ++ [n]).flatMap Note.handed ↔
      o ∈ notes.flatMap Note.handed ∨ o ∈ ps := fun o => by
    rw [hperm.mem_iff, List.mem_append]
  rw [← hn]
  constructor
  case owed => simp [hn, Note.owed]
  case published =>
    have hpublished : n.published = [] := by rw [hn]; rfl
    rw [List.append_nil, List.flatMap_append, List.flatMap_singleton, hpublished, List.append_nil]
    exact hl.published.trans hperm.symm
  case nodup =>
    rw [List.append_nil]
    exact hperm.nodup_iff.mpr hl.nodup
  case spent =>
    intro o ho
    rcases (hmem o).mp ho with hold | hpending
    · exact hl.spent_of_fades hf hold
    · exact ⟨hf.holds o (hprocessed o hpending).holds, hgone o hpending⟩
  case queue =>
    simp only [List.flatMap_append, List.flatMap_singleton, hn, Note.polled, Note.queued,
      List.append_nil, hqueue, ← List.append_assoc, hl.queue]
  case calls =>
    simp only [List.flatMap_append, List.flatMap_singleton, hn, Note.calls, hcalls, hl.calls]
  case queued =>
    intro o ho
    rw [List.flatMap_append, List.flatMap_singleton, hn, List.mem_append] at ho
    rcases ho with ho | ho
    · exact hl.queued_of_fades hf ho
    · obtain ⟨hpending, hweak⟩ := List.mem_filter.mp ho
      rw [hf.kind o (hprocessed o hpending).holds]
      cases hprocessed o hpending with
      | final kind next => simp [Heap.isFinal, kind] at hweak
      | other kind weak target => exact ⟨_, kind, weak⟩
  case finalized =>
    intro call hcall
    rw [List.flatMap_append, List.flatMap_singleton, hn, List.mem_append] at hcall
    rcases hcall with hcall | hcall
    · exact hl.finalized_of_fades hf n hcall
    · obtain ⟨o, ho, rfl⟩ := List.mem_map.mp hcall
      obtain ⟨hpending, hfinal⟩ := List.mem_filter.mp ho
      have hkind : h.kindOf o = some .final := by simpa [Heap.isFinal] using hfinal
      have hnew : o ∉ notes.flatMap Note.handed := fun hm =>
        (List.nodup_append.mp hl.nodup).2.2 o hm o hpending rfl
      refine ⟨(hf.kind o (Heap.holds_of_kindOf hkind)).trans hkind,
        (hl.original o hkind hnew).snoc _, ?_⟩
      exact (hl.intact o hpending hkind).imp id (List.mem_append_left _)
  case original =>
    intro o ho hfresh
    rw [hmem, not_or] at hfresh
    rw [hf.kind o (hholds o (Heap.holds_of_kindOf ho))] at ho
    rw [hf.final o ho hfresh.2]
    exact (hl.original o ho hfresh.1).snoc n
  case intact =>
    intro o ho
    cases ho

/-- Polling takes the oldest reference from the queue. -/
theorem poll (hl : Ledger notes h handler ps) {o : Option Handle}
    (ho : o = handler.queue.items.head?)
    (hqueue : handler'.queue.items = handler.queue.items.tail)
    (hcalls : handler'.finalizations = handler.finalizations) :
    Ledger (notes ++ [.poll o]) h handler' ps where
  owed := by simpa [Note.owed] using hl.owed
  published := by simpa [Note.published, Note.handed, Note.queued, Note.calls] using hl.published
  nodup := by simpa [Note.handed, Note.queued, Note.calls] using hl.nodup
  spent := by simpa [Note.handed, Note.queued, Note.calls] using hl.spent
  queue := by
    have hitems : o.toList ++ handler'.queue.items = handler.queue.items := by
      rw [ho, hqueue]
      cases handler.queue.items <;> rfl
    simpa [Note.polled, Note.queued, hitems] using hl.queue
  calls := by simpa [Note.calls, hcalls] using hl.calls
  queued := by simpa [Note.queued] using hl.queued
  finalized call hcall := hl.finalized_of_fades (Heap.Keeps.refl h).fades _
    (by simpa [Note.calls] using hcall)
  original p hp hfresh := (hl.original p hp
    (by simpa [Note.handed, Note.queued, Note.calls] using hfresh)).snoc _
  intact p hp hkind := (hl.intact p hp hkind).imp id (List.mem_append_left _)

end Ledger

end Referents
