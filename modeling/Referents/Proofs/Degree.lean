import Referents.Degree
import Referents.Proofs.Roster

/-!
# Narrowing the degree

Narrowing never fails: it chooses a degree between one and the number of
queues, and changes nothing else but the turn, which starts anew.
-/

namespace Referents

/-- The phase runs on every thread there may be, whatever its references justify. -/
def Phase.TakesAll (phase : Phase) (refsPerThread : Nat) : Prop :=
  phase.usesAllThreads = true ∨ refsPerThread = 0

section ThreadCount

variable {refs maxThreads refsPerThread : Nat} {phase : Phase}

/-- Where a phase takes all threads there are as many as there may be. -/
theorem threadCount_of_takesAll (hmax : maxThreads ≠ 0) (hall : phase.TakesAll refsPerThread)
    (processors : Nat) :
    threadCount refs maxThreads phase refsPerThread processors = .ok maxThreads := by
  rw [threadCount, if_neg hmax]
  exact if_pos (by simpa [Phase.TakesAll] using hall)

/-- What the references justify, within the limits. -/
theorem threadCount_of_justified (hmax : maxThreads ≠ 0) (hall : ¬ phase.TakesAll refsPerThread)
    (hsum : 1 + refs / refsPerThread < countLimit) (processors : Nat) :
    threadCount refs maxThreads phase refsPerThread processors =
      .ok (min (min (1 + refs / refsPerThread) maxThreads) processors) := by
  rw [threadCount, if_neg hmax, if_neg (by simpa [Phase.TakesAll] using hall)]
  exact except_bind_ok (if_pos hsum)

/-- The sum is taken before the limits, and may be no count any more. -/
theorem threadCount_of_overflow (hmax : maxThreads ≠ 0) (hall : ¬ phase.TakesAll refsPerThread)
    (hsum : ¬ 1 + refs / refsPerThread < countLimit) (processors : Nat) :
    threadCount refs maxThreads phase refsPerThread processors = .error (.crash .addOverflow) := by
  rw [threadCount, if_neg hmax, if_neg (by simpa [Phase.TakesAll] using hall), addCounts,
    if_neg hsum]
  rfl

end ThreadCount

/-- Below the largest word no reference count overflows, and no more threads come out than may
be. -/
theorem threadCount_ok {refs maxThreads : Nat} (hmax : maxThreads ≠ 0) (hrefs : refs + 1 < 2 ^ 64)
    (phase : Phase) (refsPerThread processors : Nat) :
    ∃ n, threadCount refs maxThreads phase refsPerThread processors = .ok n ∧ n ≤ maxThreads := by
  by_cases hall : phase.TakesAll refsPerThread
  · exact ⟨_, threadCount_of_takesAll hmax hall processors, Nat.le_refl _⟩
  · have hle := Nat.div_le_self refs refsPerThread
    have hsum : 1 + refs / refsPerThread < countLimit := by
      rw [countLimit]
      omega
    exact ⟨_, threadCount_of_justified hmax hall hsum processors, by omega⟩

/-- There are never more threads than there may be. -/
theorem threadCount_le {refs maxThreads : Nat} {phase : Phase} {refsPerThread processors n : Nat}
    (hn : threadCount refs maxThreads phase refsPerThread processors = .ok n) :
    n ≤ maxThreads := by
  unfold threadCount at hn
  split at hn
  · cases hn
  · split at hn
    · cases hn
      exact Nat.le_refl _
    · obtain ⟨wanted, -, hmin⟩ := exists_of_except_bind_ok hn
      cases hmin
      omega

namespace Processor

variable {p : Processor}

/-- A degree within the queues is set, and the turn starts anew. -/
theorem setDegree_ok {n : Nat} (hn : n ≤ p.queues) :
    p.setDegree n = .ok { p with degree := n, turn := 0 } := by
  unfold setDegree
  rw [except_bind_ok (require_ok _ (decide_eq_true hn))]
  rfl

/-- Only a degree within the queues can be set. -/
theorem setDegree_eq {k : Nat} {p' : Processor} (hset : p.setDegree k = .ok p') :
    k ≤ p.queues ∧ p' = { p with degree := k, turn := 0 } := by
  by_cases hk : k ≤ p.queues
  · rw [setDegree_ok hk] at hset
    cases hset
    exact ⟨hk, rfl⟩
  · rw [setDegree, require, decide_eq_false hk] at hset
    cases hset

/-- Narrowing returns, with a degree between one and the number of queues.  Without a
pool no other worker shares the queues. -/
theorem narrow_ok (hpos : 1 ≤ p.degree) (hdegree : p.degree ≤ p.queues) {refs : Nat}
    (hrefs : refs + 1 < 2 ^ 64) (phase : Phase) (active : Option Nat) :
    ∃ n, p.narrow phase refs active = .ok n ∧ n.saved = p.degree ∧
      n.processor.setup = p.setup ∧ n.processor.lists = p.lists ∧
      1 ≤ n.processor.degree ∧ n.processor.degree ≤ p.queues ∧
      n.processor.turn ≤ p.turn ∧ (active = none → n.processor.isMulti = false) := by
  unfold narrow
  split
  · obtain ⟨threads, hthreads, hle⟩ := threadCount_ok
      (show max 1 (min p.degree (active.getD 1)) ≠ 0 by omega) hrefs phase
      p.config.refsPerThread p.config.processorCount
    have hset := setDegree_ok (p := p) (n := max 1 (min threads p.queues)) (by omega)
    refine ⟨⟨p.degree, _⟩, (except_bind_ok hthreads).trans (except_bind_ok hset), rfl, rfl, rfl,
      Nat.le_max_left _ _, by show max 1 (min threads p.queues) ≤ p.queues; omega,
      Nat.zero_le _, fun hnone => ?_⟩
    subst hnone
    have hone : max 1 (min threads p.queues) = 1 := by
      simp only [Option.getD_none] at hle
      omega
    simp [isMulti, hone]
  · next hserial =>
      exact ⟨⟨p.degree, p⟩, rfl, rfl, rfl, rfl, hpos, hdegree, Nat.le_refl _,
        fun _ => by simpa using hserial⟩

/-- Narrowing never widens, and leaves no more than the active workers where
several could share the queues. -/
theorem narrow_le {n : Narrowed} {phase : Phase} {refs : Nat} {active : Option Nat}
    (hpos : 1 ≤ p.degree) (hactive : 1 ≤ active.getD 1)
    (hn : p.narrow phase refs active = .ok n) :
    n.processor.degree ≤ p.degree ∧
      (p.isMulti = true → n.processor.degree ≤ active.getD 1) := by
  unfold narrow at hn
  split at hn
  · obtain ⟨threads, hthreads, hn⟩ := exists_of_except_bind_ok hn
    obtain ⟨p', hset, hn⟩ := exists_of_except_bind_ok hn
    cases hn
    have hle := threadCount_le hthreads
    obtain ⟨-, rfl⟩ := setDegree_eq hset
    constructor
    · show max 1 (min threads p.queues) ≤ p.degree
      omega
    · intro _
      show max 1 (min threads p.queues) ≤ active.getD 1
      omega
  · next hserial =>
      cases hn
      exact ⟨Nat.le_refl _, fun hmulti => absurd hmulti hserial⟩

end Processor

end Referents
