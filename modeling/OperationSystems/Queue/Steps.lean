import OperationSystems.Queue.Invariant

/-!
# Every step keeps the invariant

The producer announces each item to all consumers before it gives the mutex
back, and a consumer only waits when it has found the queue empty; so no
consumer waits once the mutex is free and the queue is not empty.
-/

namespace OperationSystems.Queue

variable {T κ : Type*} {s t : PCQueue T κ}

namespace Inv

theorem producer_not_consumer (hs : Inv s) (h : s.producer.Inside) (k : κ) :
    s.globalLock ≠ some (.consumer k) := by
  rw [hs.producerOwner.mp h]
  simp

/-- A step of the producer between its lock and its unlock. -/
theorem producerInside (hs : Inv s) (hin : s.producer.Inside) (hin' : t.producer.Inside)
    (hlock : t.globalLock = s.globalLock) (hinside : t.consumersInside = s.consumersInside)
    (hconsumers : ∀ k, t.consumers k = s.consumers k ∨ s.consumers k = .wait ∧ t.consumers k = .relock)
    (hpi : t.producersInside = t.producer.inside) (hpw : t.producersWaiting = t.producer.waiting)
    (hhist : s.pushed = s.returned ++ s.items → t.pushed = t.returned ++ t.items)
    (hwait : ¬ t.producer.Waits)
    (hasleep : ∀ k, t.consumers k = .wait → t.items = [] ∨ t.producer.Announcing) : Inv t := by
  have hown := hs.producer_not_consumer hin
  exact hs.ofProducer hown hconsumers hinside
    (iff_of_true hin' (hlock.trans (hs.producerOwner.mp hin))) (fun k => hlock ▸ hown k) hpi hpw
    (hhist (hs.counters_zero hown).2) hwait hasleep

theorem producerStep (hs : Inv s) (h : s.producerStep = some t) : Inv t := by
  have hpi := hs.producersInside
  have hpw := hs.producersWaiting
  have hasleep := hs.asleep
  have hin : ∀ pc, s.producer = pc → pc.Inside → s.producer.Inside := fun _ hpc hin => hpc ▸ hin
  unfold PCQueue.producerStep at h
  split at h
  · cases h
  · rename_i item hpc
    rw [hpc] at hpi hpw hasleep
    split at h
    · rename_i hfree
      obtain rfl := Option.some.inj h
      have hown : ∀ k, s.globalLock ≠ some (.consumer k) := by rw [hfree]; simp
      exact hs.ofProducer hown (fun _ => .inl rfl) rfl (iff_of_true trivial rfl) (by simp) hpi hpw
        (hs.counters_zero hown).2 not_false hasleep
    · cases h
  · rename_i item hpc
    rw [hpc] at hpi hpw hasleep
    obtain rfl := Option.some.inj h
    refine hs.producerInside (hin _ hpc trivial) trivial rfl rfl (fun _ => .inl rfl) hpi ?_ id not_false hasleep
    exact congrArg (· + 1) hpw
  · rename_i item hpc
    have hown := hs.producer_not_consumer (hin _ hpc trivial)
    rw [hpc] at hpi hpw hasleep
    -- Both counters are zero, so the producer goes on.
    have hzero : ¬ s.producersInside + s.consumersInside > 0 := by
      rw [hpi, (hs.counters_zero hown).1]
      simp [ProducerPc.inside]
    rw [if_neg hzero] at h
    obtain rfl := Option.some.inj h
    exact hs.producerInside (hin _ hpc trivial) trivial rfl rfl (fun _ => .inl rfl) hpi hpw id not_false hasleep
  · cases h
  · rename_i item hpc
    exact absurd hs.noWait (by rw [hpc]; exact not_not_intro trivial)
  · rename_i item hpc
    rw [hpc] at hpi hpw hasleep
    obtain rfl := Option.some.inj h
    exact hs.producerInside (hin _ hpc trivial) trivial rfl rfl (fun _ => .inl rfl)
      (congrArg (· + 1) hpi) (congrArg (· - 1) hpw) id not_false hasleep
  · rename_i item hpc
    rw [hpc] at hpi hpw hasleep
    obtain rfl := Option.some.inj h
    refine hs.producerInside (hin _ hpc trivial) trivial rfl rfl (fun _ => .inl rfl) hpi hpw (fun hist => ?_)
      not_false fun _ _ => .inr trivial
    simp only [hist, List.append_assoc]
  · rename_i hpc
    rw [hpc] at hpi hpw hasleep
    obtain rfl := Option.some.inj h
    exact hs.producerInside (hin _ hpc trivial) trivial rfl rfl (fun _ => .inl rfl)
      (congrArg (· - 1) hpi) hpw id not_false fun _ _ => .inr trivial
  · rename_i hpc
    rw [hpc] at hpi hpw
    have hzero : s.producersInside = 0 := hpi
    rw [if_pos hzero] at h
    obtain rfl := Option.some.inj h
    refine hs.producerInside (hin _ hpc trivial) trivial rfl rfl (fun k => ?_) hpi hpw id not_false
      fun k hk => ?_
    · simp only [PCQueue.signalWrite, PCQueue.broadcastRead]
      split
      · exact .inr ⟨‹_›, rfl⟩
      · exact .inl rfl
    · simp only [PCQueue.signalWrite, PCQueue.broadcastRead] at hk
      split at hk
      · cases hk
      · exact absurd hk ‹_›
  · rename_i hpc
    have hown := hs.producer_not_consumer (hin _ hpc trivial)
    rw [hpc] at hpi hpw hasleep
    obtain rfl := Option.some.inj h
    refine hs.ofProducer hown (fun _ => .inl rfl) rfl (iff_of_false not_false (by simp)) (by simp) hpi hpw
      (hs.counters_zero hown).2 not_false hasleep

/-- Nobody waits to write, so the signal changes nothing. -/
theorem signalWrite_eq (hs : Inv s) : s.signalWrite = s := by
  have hwait := hs.noWait
  unfold PCQueue.signalWrite
  split
  · rename_i item hpc
    rw [hpc] at hwait
    exact absurd trivial hwait
  · rfl

/-- A step of a consumer between its lock and its unlock. -/
theorem consumerInside (hs : Inv s) {k : κ} {pc pc' : ConsumerPc T} (hpc : s.consumers k = pc)
    (hin : pc.Inside) (ht : t.consumers k = pc') (hin' : pc'.Inside) (hlock : t.globalLock = s.globalLock)
    (hproducer : t.producer = s.producer) (hpi : t.producersInside = s.producersInside)
    (hpw : t.producersWaiting = s.producersWaiting)
    (hothers : ∀ l, l ≠ k → t.consumers l = s.consumers l)
    (hinside : s.consumersInside = pc.inside → t.consumersInside = pc'.inside)
    (hhist : s.pushed = s.returned ++ pc.taken ++ s.items → t.pushed = t.returned ++ pc'.taken ++ t.items)
    (hready : pc'.Ready → t.items ≠ []) (hitems : s.items = [] → t.items = [])
    (hfault : pc' ≠ .fault) (hwait : pc' ≠ .wait) : Inv t := by
  have hown := (hs.consumerOwner k).mp (hpc ▸ hin)
  have hholder : s.holder = pc := (holder_consumer hown).trans hpc
  have hci := hs.consumersInside
  have hist := hs.history
  rw [hholder] at hci hist
  subst ht
  exact hs.ofConsumer (.inl hown) hproducer hpi hpw hothers (.inl ⟨hlock.trans hown, hin'⟩)
    (hinside hci) (hhist hist) hready (fun h => absurd h hwait) hitems hfault

variable [DecidableEq κ]

@[simp] theorem setConsumer_same (s : PCQueue T κ) (k : κ) (pc : ConsumerPc T) :
    (s.setConsumer k pc).consumers k = pc := by
  simp [PCQueue.setConsumer]

theorem setConsumer_others (s : PCQueue T κ) (k : κ) (pc : ConsumerPc T) (l : κ) (hl : l ≠ k) :
    (s.setConsumer k pc).consumers l = s.consumers l := by
  simp [PCQueue.setConsumer, Function.update_of_ne hl]

/-- A consumer that has taken the mutex tests the queue. -/
theorem acquire (hs : Inv s) (hfree : s.globalLock = none) (k : κ) :
    Inv { s.setConsumer k .test with globalLock := some (.consumer k) } := by
  obtain ⟨hci, hhist⟩ := hs.counters_zero (by rw [hfree]; simp)
  exact hs.ofConsumer (.inr hfree) rfl rfl rfl (setConsumer_others s k .test)
    (.inl ⟨rfl, by simp [ConsumerPc.Inside]⟩) (by simpa [ConsumerPc.inside, PCQueue.setConsumer] using hci)
    (by simpa [ConsumerPc.taken, PCQueue.setConsumer] using hhist) (by simp [ConsumerPc.Ready]) (by simp) id (by simp)

theorem consumerStep (hs : Inv s) {k : κ} (h : s.consumerStep k = some t) : Inv t := by
  have hown : ∀ pc, s.consumers k = pc → pc.Inside → s.globalLock = some (.consumer k) :=
    fun _ hpc hin => (hs.consumerOwner k).mp (hpc ▸ hin)
  unfold PCQueue.consumerStep at h
  split at h
  · cases h
  · split at h
    · exact Option.some.inj h ▸ hs.acquire ‹_› k
    · cases h
  · rename_i hpc
    have hlock := hown _ hpc trivial
    have hci := hs.consumersInside
    have hist := hs.history
    rw [holder_consumer hlock, hpc] at hci hist
    obtain ⟨hpi, hpw, -⟩ := hs.producer_zero (by rw [hlock]; simp)
    split at h
    · rename_i hempty
      obtain rfl := Option.some.inj h
      -- All three counters are zero, so the queue is what the consumer waits for.
      have hitems : s.items = [] := by
        rcases hempty with h1 | h1 | h1 | h1
        · exact absurd hpi h1
        · exact absurd hpw h1
        · exact List.isEmpty_iff.mp h1
        · exact absurd hci h1
      exact hs.ofConsumer (.inl hlock) rfl rfl rfl (setConsumer_others s k .wait)
        (.inr ⟨rfl, by simp [ConsumerPc.Inside]⟩) (by simpa [ConsumerPc.inside, PCQueue.setConsumer] using hci)
        (by simpa [ConsumerPc.taken, PCQueue.setConsumer] using hist) (by simp [ConsumerPc.Ready]) (fun _ => hitems) id (by simp)
    · rename_i hgo
      obtain rfl := Option.some.inj h
      have hitems : s.items ≠ [] := fun h => hgo (.inr (.inr (.inl (List.isEmpty_iff.mpr h))))
      exact hs.consumerInside hpc trivial (setConsumer_same s k .pass) trivial rfl rfl rfl rfl
        (setConsumer_others s k .pass) id id (fun _ => hitems) id (by simp) (by simp)
  · cases h
  · split at h
    · exact Option.some.inj h ▸ hs.acquire ‹_› k
    · cases h
  · rename_i hpc
    obtain rfl := Option.some.inj h
    have hready := hs.ready
    rw [holder_consumer (hown _ hpc trivial), hpc] at hready
    exact hs.consumerInside hpc trivial (setConsumer_same s k .remove) trivial rfl rfl rfl rfl
      (setConsumer_others s k .remove) (congrArg (· + 1)) id hready id (by simp) (by simp)
  · rename_i hpc
    have hready := hs.ready
    rw [holder_consumer (hown _ hpc trivial), hpc] at hready
    split at h
    · rename_i hitems
      exact absurd hitems (hready trivial)
    · rename_i tempItem items hitems
      obtain rfl := Option.some.inj h
      refine hs.consumerInside hpc trivial (setConsumer_same s k (.leave tempItem)) trivial rfl rfl rfl rfl
        (setConsumer_others s k (.leave tempItem)) id (fun hist => ?_) False.elim (fun hnil => ?_) (by simp) (by simp)
      · rw [hitems] at hist
        simpa [ConsumerPc.taken, PCQueue.setConsumer] using hist
      · rw [hitems] at hnil
        cases hnil
  · rename_i tempItem hpc
    obtain rfl := Option.some.inj h
    exact hs.consumerInside hpc trivial (setConsumer_same s k (.notify tempItem)) trivial rfl rfl rfl rfl
      (setConsumer_others s k (.notify tempItem)) (congrArg (· - 1)) id False.elim id (by simp) (by simp)
  · rename_i tempItem hpc
    rw [hs.signalWrite_eq, ite_self] at h
    obtain rfl := Option.some.inj h
    exact hs.consumerInside hpc trivial (setConsumer_same s k (.unlock tempItem)) trivial rfl rfl rfl rfl
      (setConsumer_others s k (.unlock tempItem)) id id False.elim id (by simp) (by simp)
  · rename_i tempItem hpc
    obtain rfl := Option.some.inj h
    have hlock := hown _ hpc trivial
    have hci := hs.consumersInside
    have hist := hs.history
    rw [holder_consumer hlock, hpc] at hci hist
    exact hs.ofConsumer (.inl hlock) rfl rfl rfl (setConsumer_others s k .idle)
      (.inr ⟨rfl, by simp [ConsumerPc.Inside]⟩) (by simpa [ConsumerPc.inside, PCQueue.setConsumer] using hci)
      (by simpa [ConsumerPc.taken, PCQueue.setConsumer] using hist) (by simp [ConsumerPc.Ready]) (by simp) id (by simp)
  · cases h

end Inv

end OperationSystems.Queue
