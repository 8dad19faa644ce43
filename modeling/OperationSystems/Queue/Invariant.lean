import OperationSystems.Queue.Model

/-!
# The counters and the histories

The thread that owns the mutex explains the counters, and what it has taken
from the queue and not yet returned. Nobody who finds the mutex free ever finds
a counter that is not zero, so the producer never waits.
-/

namespace OperationSystems.Queue

variable {T κ : Type*}

namespace ProducerPc

/-- Between the lock and the unlock of the mutex. -/
def Inside : ProducerPc T → Prop
  | .enter _ | .test _ | .pass _ | .insert _ | .leave | .notify | .unlock => True
  | _ => False

/-- What the producer adds to `producers_inside`. -/
def inside : ProducerPc T → ℤ
  | .insert _ | .leave => 1
  | _ => 0

/-- What the producer adds to `producers_waiting`. -/
def waiting : ProducerPc T → ℤ
  | .test _ | .wait _ | .relock _ | .pass _ => 1
  | _ => 0

/-- Pushed, and not yet broadcast. -/
def Announcing : ProducerPc T → Prop
  | .leave | .notify => True
  | _ => False

def Waits : ProducerPc T → Prop
  | .wait _ | .relock _ => True
  | _ => False

end ProducerPc

namespace ConsumerPc

def Inside : ConsumerPc T → Prop
  | .test | .pass | .remove | .leave _ | .notify _ | .unlock _ | .fault => True
  | _ => False

def inside : ConsumerPc T → ℤ
  | .remove | .leave _ => 1
  | _ => 0

/-- Popped, and not yet returned. -/
def taken : ConsumerPc T → List T
  | .leave tempItem | .notify tempItem | .unlock tempItem => [tempItem]
  | _ => []

/-- Past the test of the queue. -/
def Ready : ConsumerPc T → Prop
  | .pass | .remove => True
  | _ => False

end ConsumerPc

/-- Where the consumer that owns the mutex is. -/
def PCQueue.holder (s : PCQueue T κ) : ConsumerPc T :=
  match s.globalLock with
  | some (.consumer k) => s.consumers k
  | _ => .idle

structure Inv (s : PCQueue T κ) : Prop where
  producerOwner : s.producer.Inside ↔ s.globalLock = some .producer
  consumerOwner : ∀ k, (s.consumers k).Inside ↔ s.globalLock = some (.consumer k)
  producersInside : s.producersInside = s.producer.inside
  producersWaiting : s.producersWaiting = s.producer.waiting
  consumersInside : s.consumersInside = s.holder.inside
  history : s.pushed = s.returned ++ s.holder.taken ++ s.items
  ready : s.holder.Ready → s.items ≠ []
  noWait : ¬ s.producer.Waits
  asleep : ∀ k, s.consumers k = .wait → s.items = [] ∨ s.producer.Announcing
  noFault : ∀ k, s.consumers k ≠ .fault

theorem inv_empty : Inv (.empty : PCQueue T κ) where
  producerOwner := iff_of_false not_false (fun h => by cases h)
  consumerOwner k := iff_of_false not_false (fun h => by cases h)
  producersInside := rfl
  producersWaiting := rfl
  consumersInside := rfl
  history := rfl
  ready := False.elim
  noWait := not_false
  asleep k h := by cases h
  noFault k h := by cases h

theorem ConsumerPc.outside {pc : ConsumerPc T} (h : ¬ pc.Inside) :
    pc.inside = 0 ∧ pc.taken = [] ∧ ¬ pc.Ready := by
  cases pc <;> simp_all [ConsumerPc.Inside, ConsumerPc.inside, ConsumerPc.taken, ConsumerPc.Ready]

theorem ProducerPc.outside {pc : ProducerPc T} (h : ¬ pc.Inside) (hw : ¬ pc.Waits) :
    pc.inside = 0 ∧ pc.waiting = 0 ∧ ¬ pc.Announcing := by
  cases pc <;> simp_all [ProducerPc.Inside, ProducerPc.Waits, ProducerPc.inside, ProducerPc.waiting,
    ProducerPc.Announcing]

variable {s t : PCQueue T κ}

theorem holder_consumer {k : κ} (h : s.globalLock = some (.consumer k)) : s.holder = s.consumers k := by
  unfold PCQueue.holder
  rw [h]

theorem holder_other (h : ∀ k, s.globalLock ≠ some (.consumer k)) : s.holder = .idle := by
  unfold PCQueue.holder
  split
  · exact absurd ‹_› (h _)
  · rfl

namespace Inv

/-- Nobody else is inside while the producer has the mutex or takes it. -/
theorem counters_zero (hs : Inv s) (h : ∀ k, s.globalLock ≠ some (.consumer k)) :
    s.consumersInside = 0 ∧ s.pushed = s.returned ++ s.items := by
  have hholder := holder_other h
  refine ⟨by rw [hs.consumersInside, hholder]; rfl, ?_⟩
  rw [hs.history, hholder]
  simp [ConsumerPc.taken]

/-- Nobody else is inside while a consumer has the mutex or takes it. -/
theorem producer_zero (hs : Inv s) (h : s.globalLock ≠ some .producer) :
    s.producersInside = 0 ∧ s.producersWaiting = 0 ∧ ¬ s.producer.Announcing := by
  have hout := ProducerPc.outside (fun hin => h (hs.producerOwner.mp hin)) hs.noWait
  exact ⟨hs.producersInside.trans hout.1, hs.producersWaiting.trans hout.2.1, hout.2.2⟩

/-- A step of the producer, which may wake consumers. -/
theorem ofProducer (hs : Inv s) (hown : ∀ k, s.globalLock ≠ some (.consumer k))
    (hconsumers : ∀ k, t.consumers k = s.consumers k ∨ s.consumers k = .wait ∧ t.consumers k = .relock)
    (hinside : t.consumersInside = s.consumersInside)
    (howner : t.producer.Inside ↔ t.globalLock = some .producer)
    (hfree : ∀ k, t.globalLock ≠ some (.consumer k))
    (hpi : t.producersInside = t.producer.inside) (hpw : t.producersWaiting = t.producer.waiting)
    (hhist : t.pushed = t.returned ++ t.items) (hwait : ¬ t.producer.Waits)
    (hasleep : ∀ k, t.consumers k = .wait → t.items = [] ∨ t.producer.Announcing) : Inv t := by
  have hholder := holder_other hfree
  have hpc : ∀ k, ¬ (t.consumers k).Inside ∧ t.consumers k ≠ .fault := by
    intro k
    rcases hconsumers k with hk | ⟨-, hk⟩ <;> rw [hk]
    · exact ⟨fun hin => hown k ((hs.consumerOwner k).mp hin), hs.noFault k⟩
    · exact ⟨not_false, (by simp)⟩
  exact {
    producerOwner := howner
    consumerOwner := fun k => iff_of_false (hpc k).1 (hfree k)
    producersInside := hpi
    producersWaiting := hpw
    consumersInside := by
      rw [hinside, hholder]
      exact (hs.counters_zero hown).1
    history := by
      rw [hhist, hholder]
      simp [ConsumerPc.taken]
    ready := by
      rw [hholder]
      exact False.elim
    noWait := hwait
    asleep := hasleep
    noFault := fun k => (hpc k).2 }

/-- A step of a consumer, which wakes nobody: the producer does not wait. -/
theorem ofConsumer (hs : Inv s) {k : κ} (hown : s.globalLock = some (.consumer k) ∨ s.globalLock = none)
    (hproducer : t.producer = s.producer) (hpi : t.producersInside = s.producersInside)
    (hpw : t.producersWaiting = s.producersWaiting)
    (hothers : ∀ l, l ≠ k → t.consumers l = s.consumers l)
    (howner : t.globalLock = some (.consumer k) ∧ (t.consumers k).Inside ∨
      t.globalLock = none ∧ ¬ (t.consumers k).Inside)
    (hinside : t.consumersInside = (t.consumers k).inside)
    (hhist : t.pushed = t.returned ++ (t.consumers k).taken ++ t.items)
    (hready : (t.consumers k).Ready → t.items ≠ []) (hwait : t.consumers k = .wait → t.items = [])
    (hitems : s.items = [] → t.items = []) (hfault : t.consumers k ≠ .fault) : Inv t := by
  have hnot : s.globalLock ≠ some .producer := by
    rcases hown with h | h <;> rw [h] <;> simp
  have hout : ∀ l, l ≠ k → ¬ (t.consumers l).Inside := by
    intro l hl hin
    rw [hothers l hl] at hin
    have hlock := (hs.consumerOwner l).mp hin
    rcases hown with h | h <;> rw [h] at hlock
    · exact hl (Owner.consumer.inj (Option.some.inj hlock)).symm
    · cases hlock
  have hprod : ¬ t.producer.Inside := fun hin => hnot (hs.producerOwner.mp (hproducer ▸ hin))
  have hholder : t.holder.inside = (t.consumers k).inside ∧ t.holder.taken = (t.consumers k).taken ∧
      (t.holder.Ready → (t.consumers k).Ready) := by
    rcases howner with ⟨hlock, -⟩ | ⟨hlock, hin⟩
    · rw [holder_consumer hlock]
      exact ⟨rfl, rfl, id⟩
    · obtain ⟨h1, h2, -⟩ := ConsumerPc.outside hin
      rw [holder_other (by rw [hlock]; simp), h1, h2]
      exact ⟨rfl, rfl, False.elim⟩
  refine ⟨iff_of_false hprod ?_, fun l => ?_, ?_, ?_, ?_, ?_, fun h => hready (hholder.2.2 h), ?_, fun l hl => ?_,
    fun l => ?_⟩
  · rcases howner with ⟨hlock, -⟩ | ⟨hlock, -⟩ <;> rw [hlock] <;> simp
  · by_cases hl : l = k
    · rw [hl]
      rcases howner with ⟨hlock, hin⟩ | ⟨hlock, hin⟩
      · exact iff_of_true hin hlock
      · exact iff_of_false hin (by rw [hlock]; simp)
    · refine iff_of_false (hout l hl) fun hlock => ?_
      rcases howner with ⟨h, -⟩ | ⟨h, -⟩ <;> rw [h] at hlock
      · exact hl (Owner.consumer.inj (Option.some.inj hlock)).symm
      · cases hlock
  · rw [hpi, hproducer]
    exact hs.producersInside
  · rw [hpw, hproducer]
    exact hs.producersWaiting
  · rw [hinside, hholder.1]
  · rw [hhist, hholder.2.1]
  · rw [hproducer]
    exact hs.noWait
  · left
    by_cases hlk : l = k
    · exact hwait (hlk ▸ hl)
    · rcases hs.asleep l (hothers l hlk ▸ hl) with h | h
      · exact hitems h
      · exact absurd h (hs.producer_zero hnot).2.2
  · by_cases hl : l = k
    · exact hl ▸ hfault
    · rw [hothers l hl]
      exact hs.noFault l

end Inv

end OperationSystems.Queue
