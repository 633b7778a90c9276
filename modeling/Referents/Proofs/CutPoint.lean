import Referents.Proofs.EarlyDrops

/-!
# Where precleaning was cut short

Precleaning may be told to stop before every list and before every member.
Wherever that is, the lists before the cut are cleaned, of the list in which it
is the members before it, and everything after it is as it was.

* `YieldCheck.Replays` — the answers that a check gives to some polls in turn.
* `Looked` — nobody has done more than look and ask.
* `preclean_cut_anywhere` — precleaning asks as long as it is not told to stop,
  and leaves well formed lists, cut where it was told to.
-/

namespace Referents

variable {γ : Type} {hooks : Hooks γ} {check : YieldCheck γ} {alive : Handle → Bool}
variable {g g' : γ} {polls : List Poll} {h : Heap} {r : Roster} {ps : List Handle} {c : Cycle γ}

/-! ### The answers of a check -/

namespace YieldCheck

/-- The check answers some polls as they say, and its state goes on to `g'`. -/
def Replays (check : YieldCheck γ) : γ → List Poll → γ → Prop
  | g, [], g' => g = g'
  | g, .list stop :: rest, g' =>
      (check.atList g).1 = stop ∧ check.Replays (check.atList g).2 rest g'
  | g, .reference stop :: rest, g' =>
      (check.atReference g).1 = stop ∧ check.Replays (check.atReference g).2 rest g'

theorem Replays.atList (hp : check.Replays g polls g') :
    check.Replays g (polls ++ [.list (check.atList g').1]) (check.atList g').2 := by
  induction polls generalizing g with
  | nil =>
      cases hp
      exact ⟨rfl, rfl⟩
  | cons poll rest ih => cases poll <;> exact ⟨hp.1, ih hp.2⟩

theorem Replays.atReference (hp : check.Replays g polls g') :
    check.Replays g (polls ++ [.reference (check.atReference g').1]) (check.atReference g').2 := by
  induction polls generalizing g with
  | nil =>
      cases hp
      exact ⟨rfl, rfl⟩
  | cons poll rest ih => cases poll <;> exact ⟨hp.1, ih hp.2⟩

/-- A check that lets every reference pass never tells to stop at one. -/
theorem Replays.not_mem_of_coarse (hcoarse : ∀ g, (check.atReference g).1 = false)
    (hp : check.Replays g polls g') : .reference true ∉ polls := by
  induction polls generalizing g with
  | nil => simp
  | cons poll rest ih =>
      cases poll with
      | list stop => simpa using ih hp.2
      | reference stop =>
          have hstop : stop = false := hp.1.symm.trans (hcoarse g)
          simpa [hstop] using ih hp.2

end YieldCheck

/-- Since the world `w₀` nobody has done more than look and ask whether to stop. -/
structure Looked (check : YieldCheck γ) (alive : Handle → Bool) (w₀ : World γ)
    (polls : List Poll) (calls : List Call) (w : World γ) : Prop where
  objects : w₀.heap.SameObjects w.heap
  replays : check.Replays w₀.collector polls w.collector
  truthful : Truthful alive calls

theorem looked_answering {w₀ : World γ} (hsees : hooks.Sees w₀.heap alive) (polls : List Poll) :
    hooks.Answering (Looked check alive w₀ polls) where
  relink hl hh := ⟨hl.objects.trans hh, hl.replays, hl.truthful⟩
  isAlive {_ w r} hl hr := ⟨alive r, w, hsees w r hl.objects.marks hr, .refl _, hl.objects,
    hl.replays, hl.truthful.answer r⟩

theorem looked_polled (w₀ : World γ) : check.Polled (Looked check alive w₀) where
  atList hl := ⟨hl.objects, hl.replays.atList, hl.truthful⟩
  atReference hl := ⟨hl.objects, hl.replays.atReference, hl.truthful⟩

/-! ### The cut -/

/-- The polls after the last list that was cleaned, if `p` members of the first
of the lists `todo` were passed. -/
def Halts (r : Roster) (p : Nat) (last : List Poll) : (todo : List Place) → Prop
  | [] => p = 0 ∧ last = []
  | x :: _ => StopsAt (r.on x).length p last

/-- Where no stop was asked for at a reference, the cut is between two lists. -/
theorem Halts.eq_zero {p : Nat} {last : List Poll} {todo : List Place}
    (hh : Halts r p last todo) (hcoarse : .reference true ∉ last) : p = 0 := by
  cases todo with
  | nil => exact hh.1
  | cons x todo =>
      cases hh with
      | before => rfl
      | within hp => exact absurd (by simp [memberPolls]) hcoarse

/-- Precleaning may be cut short anywhere: the lists `done` have lost exactly
the members whose target is null or alive, the first of the lists `todo` those
of its first `p` members, and the others are as they were.  Nothing else has
changed but the links of listed references.  The polls tell that the cut is
where a stop was first asked for; the pass is cut short just if it was. -/
theorem preclean_cut_anywhere (check : YieldCheck γ) (readings : Readings)
    (hr : Registered c.processor c.world.heap r ps)
    (htargets : ∀ k o, r.lists k o → ∀ t, c.world.heap.target o = some t →
      c.world.heap.holds t = true)
    (hsees : hooks.Sees c.world.heap alive) :
    ∃ cut timer c' r' done todo p last,
      (Step.preclean hooks check readings : Step γ (Bool × Timer)) c = .ok (cut, timer) c' ∧
      places RefKind.all c.processor.queues = done ++ todo ∧ (cut = true ↔ todo ≠ []) ∧
      (∀ x ∈ done, r'.on x = (r.on x).filter (c.world.heap.stays alive)) ∧
      (∀ x ∈ todo.head?, p ≤ (r.on x).length ∧
        r'.on x = ((r.on x).take p).filter (c.world.heap.stays alive) ++ (r.on x).drop p) ∧
      (∀ x ∈ todo.tail, r'.on x = r.on x) ∧
      Registered c'.processor c'.world.heap r' ps ∧
      (∀ k q, ∀ o ∈ r k q, o ∉ r' k q → c'.world.heap.following o = none) ∧
      c.world.heap.Relinks (fun o => ∃ k, r.lists k o) c'.world.heap ∧
      check.Replays c.world.collector (r.pollsAt done ++ last) c'.world.collector ∧
      Halts r p last todo ∧ ((∀ g, (check.atReference g).1 = false) → p = 0) := by
  obtain ⟨cut, timer, c', calls, r', hrun, hended⟩ := Step.preclean_ended
    (L := Looked check alive c.world) (looked_answering hsees) (looked_polled c.world) readings
    hr htargets ⟨⟨rfl, rfl, rfl⟩, rfl, .start⟩
  cases hended with
  | reached hreached =>
      obtain ⟨hcleaning, hprecleaned⟩ := hreached
      have hobjects := hcleaning.inv.objects
      refine ⟨false, timer, c', r', _, [], 0, [], hrun, (List.append_nil _).symm, by simp,
        hprecleaned.cleaned alive hcleaning.inv.truthful, by simp, by simp, hcleaning.registered,
        fun k q o => hcleaning.removed hobjects, (hcleaning.relinks hobjects).1, ?_, ⟨rfl, rfl⟩,
        fun _ => rfl⟩
      rw [List.append_nil]
      exact hcleaning.inv.replays
  | cut hcut =>
      obtain ⟨done, x, todo, p, last, hplaces, hstops, hcleaning, hcutAt⟩ := hcut
      have hobjects := hcleaning.inv.objects
      have hreplays := hcleaning.inv.replays
      have htrue : Truthful alive calls := hcleaning.inv.truthful
      have hhalts : Halts r p last (x :: todo) := hstops
      refine ⟨true, timer, c', r', done, x :: todo, p, last, hrun,
        by rw [← hplaces, List.append_nil], by simp, hcutAt.cleaned alive htrue, ?_,
        hcutAt.untouched, hcleaning.registered, fun k q o => hcleaning.removed hobjects,
        (hcleaning.relinks hobjects).1, hreplays, hhalts, ?_⟩
      · intro y hy
        obtain rfl : x = y := Option.some.inj hy
        exact ⟨hcutAt.le, hcutAt.within alive htrue⟩
      · intro hcoarse
        apply hhalts.eq_zero
        have hno := hreplays.not_mem_of_coarse hcoarse
        exact fun hm => hno (List.mem_append_right _ hm)

/-- Stops before the reference after the next `n` ones. -/
def YieldCheck.countdown : YieldCheck Nat where
  atList n := (false, n)
  atReference n := (n == 0, n - 1)

/-- The first reference, whose target is taken for alive, is dropped, and the pass is
cut short before the third, whose target is marked. -/
theorem preclean_cut_anywhere_threeWeak :
    Registered Marker.threeWeakCycle.state.processor Marker.threeWeakHeap
      Marker.threeWeakRoster [] ∧
    ∃ timer c' r',
      (Step.preclean ((Marker.hooks.withAlive (· == .low 2)).beside Nat)
          (YieldCheck.countdown.beside Marker) {} : Step (Marker × Nat) (Bool × Timer))
        (Marker.threeWeakCycle.state.withCollector ({}, 2)) = .ok (true, timer) c' ∧
      Registered c'.processor c'.world.heap r' [] ∧ r' .weak 0 = [.low 4, .low 3] ∧
      c'.world.heap.following (.low 5) = none := by
  have htargets : ∀ k o, Marker.threeWeakRoster.lists k o → ∀ t,
      Marker.threeWeakHeap.target o = some t → Marker.threeWeakHeap.holds t = true := by
    intro k o ho t ht
    obtain ⟨q, ho⟩ := ho
    obtain ⟨-, -, hmem⟩ := Marker.mem_threeWeakRoster ho
    have hheld := (by decide : ∀ o ∈ [Handle.low 5, .low 4, .low 3],
      (Marker.threeWeakHeap.target o).any Marker.threeWeakHeap.holds = true) o hmem
    simpa [ht] using hheld
  have hsees : ((Marker.hooks.withAlive (· == .low 2)).beside Nat).Sees Marker.threeWeakHeap
      (· == .low 2) := (Marker.hooks.sees_withAlive _ _).beside Nat
  obtain ⟨cut, timer, c', r', done, todo, p, last, hrun, -, -, -, -, -, hregistered, hgone, -⟩ :=
    preclean_cut_anywhere (c := Marker.threeWeakCycle.state.withCollector ({}, 2))
      (YieldCheck.countdown.beside Marker) {} Marker.threeWeak_registered htargets hsees
  have hend : (match (Step.preclean ((Marker.hooks.withAlive (· == .low 2)).beside Nat)
      (YieldCheck.countdown.beside Marker) {} : Step (Marker × Nat) (Bool × Timer))
        (Marker.threeWeakCycle.state.withCollector ({}, 2)) with
    | .ok out c => (out.1, c.members .weak 0)
    | .error _ _ => (false, [])) = (true, [.low 4, .low 3]) := by decide +kernel
  rw [hrun] at hend
  obtain ⟨rfl, hmembers⟩ : cut = true ∧ r' .weak 0 = [.low 4, .low 3] := by
    simpa [hregistered.members_eq] using hend
  refine ⟨Marker.threeWeak_registered, timer, c', r', hrun, hregistered, hmembers,
    hgone .weak 0 (.low 5) (by decide) ?_⟩
  rw [hmembers]
  decide

end Referents
