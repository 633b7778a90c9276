import Referents.Proofs.Degree

/-!
# How many threads a phase takes

A phase takes one thread and another one for each full share of references, but
no more than there may be and no more than there are processors; some phases
take all that there may be.  More references never take fewer threads, and
larger shares never take more.

The sum is a checked one.  Shares of one reference and as many references as can
be counted make it overflow, although the limits would cut it off.

* `sum_lt_iff` — nothing else makes it overflow.
* `threadCount_in_range` — the bounds of a thread count, and how it moves.
* `threadCount_overflows` — the count that is missing.
-/

namespace Referents

variable {refs maxThreads refsPerThread processors : Nat} {phase : Phase}

/-- The sum overflows only for single references, and as many of them as can be counted. -/
theorem sum_lt_iff (hrefs : refs < 2 ^ 64) (hshare : refsPerThread ≠ 0) :
    1 + refs / refsPerThread < countLimit ↔ ¬ (refs = 2 ^ 64 - 1 ∧ refsPerThread = 1) := by
  rw [countLimit]
  constructor
  · rintro hsum ⟨rfl, rfl⟩
    rw [Nat.div_one] at hsum
    omega
  · intro hnot
    by_cases hone : refsPerThread = 1
    · subst hone
      rw [Nat.div_one]
      omega
    · have hhalf : refs / refsPerThread ≤ refs / 2 := Nat.div_le_div_left (by omega) (by omega)
      omega

/-- A thread count is that of all threads, or what the references justify within the limits. -/
theorem threadCount_eq_ok_iff (hmax : maxThreads ≠ 0) {n : Nat} :
    threadCount refs maxThreads phase refsPerThread processors = .ok n ↔
      (phase.TakesAll refsPerThread ∧ n = maxThreads) ∨
      (¬ phase.TakesAll refsPerThread ∧ 1 + refs / refsPerThread < countLimit ∧
        n = min (min (1 + refs / refsPerThread) maxThreads) processors) := by
  by_cases hall : phase.TakesAll refsPerThread
  · rw [threadCount_of_takesAll hmax hall]
    simp [hall, eq_comm]
  · by_cases hsum : 1 + refs / refsPerThread < countLimit
    · rw [threadCount_of_justified hmax hall hsum]
      simp [hall, hsum, eq_comm]
    · rw [threadCount_of_overflow hmax hall hsum]
      simp [hall, hsum]

theorem threadCount_overflows_iff (hrefs : refs < 2 ^ 64) (hmax : maxThreads ≠ 0) :
    threadCount refs maxThreads phase refsPerThread processors = .error (.crash .addOverflow) ↔
      refs = 2 ^ 64 - 1 ∧ refsPerThread = 1 ∧ phase.usesAllThreads = false := by
  by_cases hall : phase.TakesAll refsPerThread
  · rw [threadCount_of_takesAll hmax hall]
    constructor
    · intro hfails
      cases hfails
    · rintro ⟨-, rfl, hphase⟩
      exact absurd hall (by simp [Phase.TakesAll, hphase])
  · obtain ⟨hphase, hshare⟩ : phase.usesAllThreads = false ∧ refsPerThread ≠ 0 := by
      simpa [Phase.TakesAll] using hall
    by_cases hsum : 1 + refs / refsPerThread < countLimit
    · rw [threadCount_of_justified hmax hall hsum]
      constructor
      · intro hfails
        cases hfails
      · rintro ⟨hall, hone, -⟩
        exact absurd ⟨hall, hone⟩ ((sum_lt_iff hrefs hshare).mp hsum)
    · rw [threadCount_of_overflow hmax hall hsum]
      obtain ⟨hall, hone⟩ := not_not.mp fun h => hsum ((sum_lt_iff hrefs hshare).mpr h)
      exact ⟨fun _ => ⟨hall, hone, hphase⟩, fun _ => rfl⟩

/-- Where the sum does not overflow, the thread count lies between its bounds. -/
theorem threadCount_bounds (hrefs : refs < 2 ^ 64) (hmax : 1 ≤ maxThreads)
    (hprocessors : 1 ≤ processors)
    (hnot : ¬ (refs = 2 ^ 64 - 1 ∧ refsPerThread = 1 ∧ phase.usesAllThreads = false)) :
    ∃ n, threadCount refs maxThreads phase refsPerThread processors = .ok n ∧
      1 ≤ n ∧ n ≤ maxThreads ∧
      (n ≤ processors ∨ phase.usesAllThreads = true ∨ refsPerThread = 0) := by
  have hpos : maxThreads ≠ 0 := Nat.ne_of_gt hmax
  by_cases hall : phase.TakesAll refsPerThread
  · exact ⟨_, threadCount_of_takesAll hpos hall _, hmax, Nat.le_refl _, .inr hall⟩
  · obtain ⟨hphase, hshare⟩ : phase.usesAllThreads = false ∧ refsPerThread ≠ 0 := by
      simpa [Phase.TakesAll] using hall
    have hsum := (sum_lt_iff hrefs hshare).mpr fun h => hnot ⟨h.1, h.2, hphase⟩
    have hone : 1 ≤ 1 + refs / refsPerThread := Nat.le_add_right _ _
    exact ⟨_, threadCount_of_justified hpos hall hsum _, by omega, by omega, .inl (by omega)⟩

/-- More references take no fewer threads. -/
theorem threadCount_mono (hmax : maxThreads ≠ 0) {more n m : Nat} (hle : refs ≤ more)
    (hn : threadCount refs maxThreads phase refsPerThread processors = .ok n)
    (hm : threadCount more maxThreads phase refsPerThread processors = .ok m) : n ≤ m := by
  rcases (threadCount_eq_ok_iff hmax).mp hn with ⟨hall, rfl⟩ | ⟨hshared, -, rfl⟩
  · rcases (threadCount_eq_ok_iff hmax).mp hm with ⟨-, rfl⟩ | ⟨hshared, -⟩
    · exact Nat.le_refl _
    · exact absurd hall hshared
  · rcases (threadCount_eq_ok_iff hmax).mp hm with ⟨hall, -⟩ | ⟨-, -, rfl⟩
    · exact absurd hall hshared
    · have hshares : refs / refsPerThread ≤ more / refsPerThread := Nat.div_le_div_right hle
      omega

/-- Larger shares take no more threads. -/
theorem threadCount_anti (hmax : maxThreads ≠ 0) {larger n m : Nat} (hshare : 0 < refsPerThread)
    (hle : refsPerThread ≤ larger)
    (hn : threadCount refs maxThreads phase refsPerThread processors = .ok n)
    (hm : threadCount refs maxThreads phase larger processors = .ok m) : m ≤ n := by
  have htakes : phase.TakesAll larger ↔ phase.TakesAll refsPerThread := by
    simp [Phase.TakesAll, Nat.ne_of_gt hshare, Nat.ne_of_gt (Nat.lt_of_lt_of_le hshare hle)]
  rcases (threadCount_eq_ok_iff hmax).mp hn with ⟨hall, rfl⟩ | ⟨hshared, -, rfl⟩
  · rcases (threadCount_eq_ok_iff hmax).mp hm with ⟨-, rfl⟩ | ⟨hshared, -⟩
    · exact Nat.le_refl _
    · exact absurd (htakes.mpr hall) hshared
  · rcases (threadCount_eq_ok_iff hmax).mp hm with ⟨hall, -⟩ | ⟨-, -, rfl⟩
    · exact absurd (htakes.mp hall) hshared
    · have hshares : refs / larger ≤ refs / refsPerThread := Nat.div_le_div_left hle hshare
      omega

/-- A thread count overflows exactly for single references, as many of them as can be
counted, in a phase that does not take all threads.  Else it is at least one and no more than
there may be, and no more than the processors unless all threads are taken.  It grows with
the references and falls with their shares. -/
theorem threadCount_in_range (hrefs : refs < 2 ^ 64) (hmax : 1 ≤ maxThreads)
    (hprocessors : 1 ≤ processors) :
    (threadCount refs maxThreads phase refsPerThread processors = .error (.crash .addOverflow) ↔
      refs = 2 ^ 64 - 1 ∧ refsPerThread = 1 ∧ phase.usesAllThreads = false) ∧
    (¬ (refs = 2 ^ 64 - 1 ∧ refsPerThread = 1 ∧ phase.usesAllThreads = false) →
      ∃ n, threadCount refs maxThreads phase refsPerThread processors = .ok n ∧
        1 ≤ n ∧ n ≤ maxThreads ∧
        (n ≤ processors ∨ phase.usesAllThreads = true ∨ refsPerThread = 0)) ∧
    (∀ more n m, refs ≤ more →
      threadCount refs maxThreads phase refsPerThread processors = .ok n →
      threadCount more maxThreads phase refsPerThread processors = .ok m → n ≤ m) ∧
    ∀ larger n m, 0 < refsPerThread → refsPerThread ≤ larger →
      threadCount refs maxThreads phase refsPerThread processors = .ok n →
      threadCount refs maxThreads phase larger processors = .ok m → m ≤ n := by
  have hpos : maxThreads ≠ 0 := Nat.ne_of_gt hmax
  refine ⟨?overflow, ?bounds, ?references, ?shares⟩
  case overflow => exact threadCount_overflows_iff hrefs hpos
  case bounds => exact threadCount_bounds hrefs hmax hprocessors
  case references => exact fun more n m => threadCount_mono hpos
  case shares => exact fun larger n m => threadCount_anti hpos

/-- As many references as can be counted take four threads on four processors, in shares of
two. -/
theorem threadCount_in_range_of_pairs : 2 ^ 64 - 1 < 2 ^ 64 ∧ 1 ≤ 8 ∧ 1 ≤ 4 ∧
    threadCount (2 ^ 64 - 1) 8 .phantom 2 4 = .ok 4 ∧
    (∀ larger m, 2 ≤ larger → threadCount (2 ^ 64 - 1) 8 .phantom larger 4 = .ok m → m ≤ 4) ∧
    ∃ n, threadCount (2 ^ 64 - 1) 8 .phantom 2 4 = .ok n ∧ 1 ≤ n ∧ n ≤ 8 ∧
      (n ≤ 4 ∨ Phase.usesAllThreads .phantom = true ∨ 2 = 0) := by
  obtain ⟨-, hbounds, -, hshares⟩ := @threadCount_in_range (2 ^ 64 - 1) 8 2 4 .phantom (by decide)
    (by decide) (by decide)
  have hfour : threadCount (2 ^ 64 - 1) 8 .phantom 2 4 = .ok 4 := rfl
  exact ⟨by decide, by decide, by decide, hfour,
    fun larger m hle => hshares larger 4 m (by decide) hle hfour, hbounds (by decide)⟩

/-- One reference less takes eight threads, but the sum overflows before it is cut off. -/
theorem threadCount_overflows :
    threadCount (2 ^ 64 - 2) 8 .softWeakFinal 1 16 = .ok 8 ∧
    threadCount (2 ^ 64 - 1) 8 .softWeakFinal 1 16 = .error (.crash .addOverflow) :=
  ⟨rfl, rfl⟩

end Referents
