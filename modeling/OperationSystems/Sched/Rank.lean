import OperationSystems.Sched.Dispatch

/-!
# The order in which tasks are chosen

Real-time tasks come first, then `SCHED_SHORT`, then the others, each by the
number of its queue. `schedule` picks the head of the first queue in this
order, and the test of `try_to_wake_up` asks whether one task is before
another.
-/

namespace OperationSystems.Sched
open PrioArray

namespace Task
variable {t u : Task}

/-- The place of a task in the order of the dispatcher. -/
def rank (t : Task) : ℤ :=
  if t.Rt then t.prio else if t.policy = .short then maxPrio + t.shortPrio else 2 * maxPrio + t.prio

theorem rank_rt (h : t.Rt) : t.rank = t.prio := if_pos h

theorem rank_short (h : t.policy = .short) : t.rank = maxPrio + t.shortPrio := by
  rw [rank, if_neg fun hrt => hrt.1 h, if_pos h]

theorem rank_other (hrt : ¬ t.Rt) (hs : t.policy ≠ .short) : t.rank = 2 * maxPrio + t.prio := by
  rw [rank, if_neg hrt, if_neg hs]

/-- The ranks of the three classes do not overlap. -/
theorem Valid.rank_cases (h : t.Valid) :
    (t.Rt ∧ t.rank = t.queuePrio ∧ 0 ≤ t.rank ∧ t.rank < maxRtPrio) ∨
    (t.policy = .short ∧ t.rank = maxPrio + t.queuePrio ∧ maxPrio ≤ t.rank ∧ t.rank < 2 * maxPrio) ∨
    (t.policy = .other ∧ ¬ t.Rt ∧ t.rank = 2 * maxPrio + t.queuePrio ∧
      2 * maxPrio + maxRtPrio ≤ t.rank ∧ t.rank < 3 * maxPrio) := by
  by_cases hrt : t.Rt
  · have hq : t.queuePrio = t.prio := if_neg hrt.1
    have hmem := Finset.mem_Ico.mp h.queuePrio_mem
    have hlt := hrt.2
    rw [rank_rt hrt]
    exact Or.inl ⟨hrt, hq.symm, by omega, hlt⟩
  · by_cases hs : t.policy = .short
    · have hq : t.queuePrio = t.shortPrio := if_pos hs
      have hsh := h.short hs
      rw [rank_short hs, hq]
      exact Or.inr (Or.inl ⟨hs, rfl, by omega, by omega⟩)
    · have ho := h.policy_other hrt hs
      have hq : t.queuePrio = t.prio := if_neg hs
      have hprio := h.other ho
      rw [rank_other hrt hs, hq]
      exact Or.inr (Or.inr ⟨ho, hrt, rfl, by omega, by omega⟩)

theorem Valid.rank_lt (h : t.Valid) : t.rank < 3 * maxPrio := by
  rcases h.rank_cases with ⟨-, -, -, hlt⟩ | ⟨-, -, -, hlt⟩ | ⟨-, -, -, -, hlt⟩
  · simp only [maxRtPrio, maxPrio] at *
    omega
  · simp only [maxPrio] at *
    omega
  · exact hlt

/-- The idle task, which is behind all others. -/
def Idling (t : Task) : Prop := t.policy = .other ∧ t.prio = maxPrio

theorem Idling.rank (h : t.Idling) : t.rank = 3 * maxPrio := by
  have hrt : ¬ t.Rt := by
    rintro ⟨-, hlt⟩
    rw [h.2] at hlt
    exact absurd hlt (by decide)
  rw [rank_other hrt (by simp [h.1]), h.2]
  ring

/-- Two tasks of the same rank belong in the same queue. -/
theorem Valid.same_queue (ht : t.Valid) (hu : u.Valid) (h : t.rank = u.rank) :
    (t.policy = .short ↔ u.policy = .short) ∧ t.queuePrio = u.queuePrio := by
  have h₁ := ht.rank_cases
  have h₂ := hu.rank_cases
  simp only [maxRtPrio, maxPrio] at h₁ h₂
  rcases h₁ with ⟨hrt, he, -, hlt⟩ | ⟨hs, he, hlo, hlt⟩ | ⟨ho, -, he, hlo, -⟩ <;>
  rcases h₂ with ⟨hrt', he', -, hlt'⟩ | ⟨hs', he', hlo', hlt'⟩ | ⟨ho', -, he', hlo', -⟩
  · exact ⟨iff_of_false hrt.1 hrt'.1, by omega⟩
  · omega
  · omega
  · omega
  · exact ⟨iff_of_true hs hs', by omega⟩
  · omega
  · omega
  · omega
  · exact ⟨iff_of_false (by simp [ho]) (by simp [ho']), by omega⟩

/-- The test of `try_to_wake_up` finds every task that comes before the current one. -/
theorem Valid.preempts (ht : t.Valid) (hu : u.Valid ∨ u.Idling) (h : t.rank < u.rank) :
    Runqueue.Preempts t u ∨ t.prio < u.prio := by
  have hother : u.policy = .other → maxRtPrio ≤ u.prio := by
    intro ho
    rcases hu with hu | hu
    · exact (hu.other ho).1
    · rw [hu.2]
      decide
  by_cases hrt : t.Rt
  · by_cases hs : u.policy = .short
    · exact Or.inl (Or.inr (Or.inr ⟨hrt, hs⟩))
    · refine Or.inr ?_
      by_cases hur : u.Rt
      · rwa [rank_rt hrt, rank_rt hur] at h
      · exact hrt.2.trans_le (not_lt.mp fun hlt => hur ⟨hs, hlt⟩)
  · by_cases hs : t.policy = .short
    · have hnn := (ht.short hs).1
      rw [rank_short hs] at h
      by_cases hur : u.Rt
      · have hlt := hur.2
        rw [rank_rt hur] at h
        simp only [maxRtPrio, maxPrio] at *
        omega
      · by_cases hus : u.policy = .short
        · rw [rank_short hus] at h
          exact Or.inl (Or.inr (Or.inl ⟨hs, hus, by omega⟩))
        · refine Or.inl (Or.inl ⟨hs, ?_⟩)
          rcases hu with hu | hu
          · exact hu.policy_other hur hus
          · exact hu.1
    · have hprio := (ht.other (ht.policy_other hrt hs)).1
      rw [rank_other hrt hs] at h
      by_cases hur : u.Rt
      · have hlt := hur.2
        rw [rank_rt hur] at h
        simp only [maxRtPrio, maxPrio] at *
        omega
      · by_cases hus : u.policy = .short
        · have hsh : u.shortPrio < maxPrio := by
            rcases hu with hu | hu
            · exact (hu.short hus).2
            · rw [hu.1] at hus
              cases hus
          rw [rank_short hus] at h
          simp only [maxRtPrio, maxPrio] at *
          omega
        · rw [rank_other hur hus] at h
          exact Or.inr (by omega)

end Task

namespace Runqueue
variable {rq : Runqueue} {p q : ℕ} {A : Fin 3}

/-- The task is in one of the two arrays that the dispatcher looks into. -/
def Candidate (rq : Runqueue) (p : ℕ) : Prop :=
  (rq.tasks p).array = some rq.active ∨ (rq.tasks p).array = some rq.shortPr

/-- The task is at the head of the first queue in the order of the ranks. -/
structure First (rq : Runqueue) (q : ℕ) : Prop where
  head : ∃ A l, (rq.tasks q).array = some A ∧ (A = rq.active ∨ A = rq.shortPr) ∧
    (rq.arrays A).queue (rq.tasks q).queuePrio = q :: l
  least : ∀ p, rq.Candidate p → (rq.tasks q).rank ≤ (rq.tasks p).rank

theorem First.candidate (h : rq.First q) : rq.Candidate q := by
  obtain ⟨A, -, hA, rfl | rfl, -⟩ := h.head
  · exact Or.inl hA
  · exact Or.inr hA

theorem Candidate.runnable (h : rq.Ok) (hp : rq.Candidate p) : rq.Runnable p := by
  refine (runnable_iff h).mpr ⟨by simp, ?_⟩
  rcases hp with hp | hp <;> simp [hp]

theorem Candidate.valid (h : rq.Ok) (hp : rq.Candidate p) : (rq.tasks p).Valid :=
  h.valid p (by simp) (Or.inr ((runnable_iff h).mp (hp.runnable h)).2)

/-- Only one task is first. -/
theorem First.unique (h : rq.Ok) (hp : rq.First p) (hq : rq.First q) : p = q := by
  have hr : (rq.tasks p).rank = (rq.tasks q).rank :=
    le_antisymm (hp.least q hq.candidate) (hq.least p hp.candidate)
  obtain ⟨hs, hi⟩ := (hp.candidate.valid h).same_queue (hq.candidate.valid h) hr
  obtain ⟨A, l, hA, hA', hl⟩ := hp.head
  obtain ⟨B, m, hB, hB', hm⟩ := hq.head
  have h₁ := (h.belongs p A (by simp) hA).1
  have h₂ := (h.belongs q B (by simp) hB).1
  obtain rfl : A = B := by
    rcases hA' with rfl | rfl <;> rcases hB' with rfl | rfl
    · rfl
    · exact absurd (h₁.mp (hs.mpr (h₂.mpr rfl))) h.distinct.2.1
    · exact absurd (h₂.mp (hs.mp (h₁.mpr rfl))) h.distinct.2.1
    · rfl
  rw [hi, hm] at hl
  exact (List.cons.inj hl).1.symm

theorem queued_of_head (h : rq.Ok) {i : ℤ} {l : List ℕ} (hq : (rq.arrays A).queue i = q :: l) :
    (rq.tasks q).array = some A ∧ (rq.tasks q).queuePrio = i := by
  have hp := (h.arrays A).queues.mem_iff.mp (hq ▸ List.mem_cons_self (a := q) (l := l))
  unfold placed at hp
  split_ifs at hp with ha
  exact ⟨ha.2, Option.some.inj hp⟩

/-- What the dispatcher promises of the next task, in one order. -/
theorem Dispatched.first (h : rq.Ok) (hd : rq.Dispatched q) : rq.First q := by
  by_cases hrt : ∃ p, rq.Runnable p ∧ (rq.tasks p).Rt
  · obtain ⟨m, l, ⟨⟨p, hp, hpr, rfl⟩, hleast⟩, hq⟩ := hd.rt hrt
    obtain ⟨hA, hi⟩ := queued_of_head h hq
    have hv : (rq.tasks q).Valid := Candidate.valid h (Or.inl hA)
    obtain ⟨hqr, hqp⟩ := rt_of_placed (p := q) h (by simp [placed, hA]; exact hi) hpr.2
    refine ⟨⟨rq.active, l, hA, Or.inl rfl, hi ▸ hq⟩, fun r hr => ?_⟩
    rw [Task.rank_rt hqr, hqp]
    rcases (hr.valid h).rank_cases with ⟨hrr, -, -, -⟩ | ⟨-, -, hlo, -⟩ | ⟨-, -, -, hlo, -⟩
    · rw [Task.rank_rt hrr]
      exact hleast ⟨r, hr.runnable h, hrr, rfl⟩
    · have hlt := hpr.2
      simp only [maxRtPrio, maxPrio] at hlt hlo
      omega
    · have hlt := hpr.2
      simp only [maxRtPrio, maxPrio] at hlt hlo
      omega
  · by_cases hsh : ∃ p, rq.Runnable p ∧ (rq.tasks p).policy = .short
    · obtain ⟨m, l, ⟨-, hleast⟩, hq⟩ := hd.short hrt hsh
      obtain ⟨hA, hi⟩ := queued_of_head h hq
      obtain ⟨hqs, hqp⟩ := short_of_placed (p := q) h (by simp [placed, hA]; exact hi)
      have hv : (rq.tasks q).Valid := Candidate.valid h (Or.inr hA)
      refine ⟨⟨rq.shortPr, l, hA, Or.inr rfl, hi ▸ hq⟩, fun r hr => ?_⟩
      rw [Task.rank_short hqs, hqp]
      have hm := (hv.short hqs).2
      rcases (hr.valid h).rank_cases with ⟨hrr, -, -, -⟩ | ⟨hrs, -, -, -⟩ | ⟨-, -, -, hlo, -⟩
      · exact absurd ⟨r, hr.runnable h, hrr⟩ hrt
      · have hle := hleast ⟨r, hr.runnable h, hrs, rfl⟩
        rw [Task.rank_short hrs]
        omega
      · simp only [maxRtPrio, maxPrio] at *
        omega
    · obtain ⟨m, l, ⟨-, hleast⟩, hq⟩ := hd.other hrt hsh
      obtain ⟨hA, hi⟩ := queued_of_head h hq
      have hcand : rq.Candidate q := Or.inl hA
      have hqs : (rq.tasks q).policy ≠ .short := fun hs => hsh ⟨q, hcand.runnable h, hs⟩
      have hqr : ¬ (rq.tasks q).Rt := fun hr => hrt ⟨q, hcand.runnable h, hr⟩
      refine ⟨⟨rq.active, l, hA, Or.inl rfl, hi ▸ hq⟩, fun r hr => ?_⟩
      have hrr : ¬ (rq.tasks r).Rt := fun hx => hrt ⟨r, hr.runnable h, hx⟩
      have hrs : (rq.tasks r).policy ≠ .short := fun hx => hsh ⟨r, hr.runnable h, hx⟩
      have hrA : (rq.tasks r).array = some rq.active :=
        hr.resolve_right fun hx => hrs ((h.belongs r _ (by simp) hx).1.mpr rfl)
      have hplace : rq.placed none rq.active r = some (rq.tasks r).prio := by
        simp [placed, hrA, Task.queuePrio, hrs]
      have hle : m ≤ (rq.tasks r).prio :=
        hleast (List.ne_nil_of_mem ((h.arrays rq.active).queues.mem_iff.mpr hplace))
      have hqp : (rq.tasks q).prio = m := by simpa [Task.queuePrio, hqs] using hi
      rw [Task.rank_other hqr hqs, Task.rank_other hrr hrs, hqp]
      omega

end Runqueue

end OperationSystems.Sched
