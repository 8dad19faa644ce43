import OperationSystems.Queue.Steps

/-!
# The queue is first in, first out, and loses no wakeup

A consumer that is blocked is at `wait`; one that has been woken competes for
the mutex.
-/

namespace OperationSystems.Queue

open OperationSystems.Transition

variable {T κ : Type*} [DecidableEq κ] {s t : PCQueue T κ}

/-- A consumer moves outside the mutex. -/
theorem Inv.consumerOutside (hs : Inv s) {k : κ} {pc : ConsumerPc T} (hout : ¬ (s.consumers k).Inside)
    (hout' : ¬ pc.Inside) (hwait : pc ≠ .wait) (hfault : pc ≠ .fault) : Inv (s.setConsumer k pc) := by
  have hothers := setConsumer_others s k pc
  have hholder : (s.setConsumer k pc).holder = s.holder := by
    by_cases hlock : ∃ l, s.globalLock = some (.consumer l)
    · obtain ⟨l, hl⟩ := hlock
      rw [holder_consumer hl, holder_consumer (s := s.setConsumer k pc) hl]
      exact hothers l fun hlk => hout ((hs.consumerOwner k).mpr (hlk ▸ hl))
    · have hno : ∀ l, s.globalLock ≠ some (.consumer l) := fun l hl => hlock ⟨l, hl⟩
      rw [holder_other hno, holder_other (s := s.setConsumer k pc) hno]
  refine ⟨hs.producerOwner, fun l => ?_, hs.producersInside, hs.producersWaiting, ?_, ?_, ?_, hs.noWait,
    fun l hl => ?_, fun l => ?_⟩
  · by_cases hl : l = k
    · rw [hl, setConsumer_same]
      exact iff_of_false hout' fun h => hout ((hs.consumerOwner k).mpr h)
    · rw [hothers l hl]
      exact hs.consumerOwner l
  · rw [hholder]
    exact hs.consumersInside
  · rw [hholder]
    exact hs.history
  · rw [hholder]
    exact hs.ready
  · by_cases hlk : l = k
    · rw [hlk, setConsumer_same] at hl
      exact absurd hl hwait
    · exact hs.asleep l (hothers l hlk ▸ hl)
  · by_cases hl : l = k
    · rw [hl, setConsumer_same]
      exact hfault
    · rw [hothers l hl]
      exact hs.noFault l

theorem Inv.step (hs : Inv s) {e : Event T κ} (h : Step s e t) : Inv t := by
  unfold Step next at h
  split at h
  · split at h
    · rename_i item hpc
      obtain rfl := Option.some.inj h
      have h1 := hs.producerOwner
      have h2 := hs.producersInside
      have h3 := hs.producersWaiting
      have h4 := hs.asleep
      rw [hpc] at h1 h2 h3 h4
      exact { hs with
        producerOwner := h1, producersInside := h2, producersWaiting := h3, noWait := not_false, asleep := h4 }
    · cases h
  · exact hs.producerStep h
  · split at h
    · rename_i item hpc
      exact absurd hs.noWait (by rw [hpc]; exact not_not_intro trivial)
    · cases h
  · split at h
    · rename_i hpc
      exact Option.some.inj h ▸ hs.consumerOutside (by rw [hpc]; exact not_false) not_false (by simp) (by simp)
    · cases h
  · exact hs.consumerStep h
  · split at h
    · rename_i hpc
      exact Option.some.inj h ▸ hs.consumerOutside (by rw [hpc]; exact not_false) not_false (by simp) (by simp)
    · cases h

theorem inv_run {es : List (Event T κ)} (h : Run Step .empty es s) : Inv s :=
  h.invariant inv_empty fun _ _ _ hs => hs.step

/-- What callers may rely on. -/
structure Monitor (s : PCQueue T κ) : Prop where
  fifo : s.returned <+: s.pushed
  conserved : s.pushed = s.returned ++ s.holder.taken ++ s.items
  countersZero : s.globalLock = none →
    s.producersInside = 0 ∧ s.consumersInside = 0 ∧ s.producersWaiting = 0
  noLostWakeup : s.items ≠ [] → s.globalLock = none → ∀ k, s.consumers k ≠ .wait

theorem queue_monitor {es : List (Event T κ)} (h : Run Step .empty es s) : Monitor s := by
  have hs := inv_run h
  refine ⟨?_, hs.history, fun hfree => ?_, fun hitems hfree k hk => ?_⟩
  · rw [hs.history, List.append_assoc]
    exact List.prefix_append _ _
  · obtain ⟨hpi, hpw, -⟩ := hs.producer_zero (by rw [hfree]; simp)
    exact ⟨hpi, (hs.counters_zero (by rw [hfree]; simp)).1, hpw⟩
  · have hannounce := (hs.producer_zero (by rw [hfree]; simp)).2.2
    exact (hs.asleep k hk).elim hitems hannounce

/-- One consumer waits, another takes the first item before it; two items are pushed in between. -/
def sampleEvents : List (Event ℕ Bool) :=
  [(1, .pop true), (2, .consumer true), (1, .push 7), (8, .producer), (1, .pop false), (7, .consumer false),
    (1, .push 8), (8, .producer), (7, .consumer true)].flatMap fun e => List.replicate e.1 e.2

theorem queue_monitor_sample : ∃ s : PCQueue ℕ Bool, Run Step .empty sampleEvents s ∧
    s.returned = [7, 8] ∧ Monitor s := by
  have hreturned : (Run.exec next (.empty : PCQueue ℕ Bool) sampleEvents).map PCQueue.returned =
      some [7, 8] := by
    decide +kernel
  obtain ⟨s, hs, hret⟩ := Option.map_eq_some_iff.mp hreturned
  have hrun := Run.of_exec (fun _ _ _ => id) hs
  exact ⟨s, hrun, hret, queue_monitor hrun⟩

end OperationSystems.Queue
