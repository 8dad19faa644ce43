import OperationSystems.Sched.Model

/-!
# What the functions leave alone

Most functions of the scheduler change the fields of one task. The pids, the
idle task, the current task and the fields of every other task stay.
-/

namespace OperationSystems.Sched.Runqueue
variable {rq rq' rq'' : Runqueue} {p q : ℕ} {t : Task} {A : Fin 3} {c : Clock} {jiffies : ℕ}

/-- Only the fields of task `p` change, and the queues. -/
structure Only (p : ℕ) (rq rq' : Runqueue) : Prop where
  hashed : rq'.hashed = rq.hashed
  idle : rq'.idle = rq.idle
  curr : rq'.curr = rq.curr
  tasks : ∀ q, q ≠ p → rq'.tasks q = rq.tasks q

namespace Only

theorem refl (p : ℕ) (rq : Runqueue) : Only p rq rq :=
  ⟨rfl, rfl, rfl, fun _ _ => rfl⟩

theorem trans (h : Only p rq rq') (h' : Only p rq' rq'') : Only p rq rq'' :=
  ⟨h'.hashed.trans h.hashed, h'.idle.trans h.idle, h'.curr.trans h.curr,
    fun q hq => (h'.tasks q hq).trans (h.tasks q hq)⟩

theorem setTask (rq : Runqueue) (p : ℕ) (t : Task) : Only p rq (rq.setTask p t) :=
  ⟨rfl, rfl, rfl, fun q hq => by simp [Runqueue.setTask, hq]⟩

theorem expiredTimestamp (rq : Runqueue) (p n : ℕ) : Only p rq { rq with expiredTimestamp := n } :=
  ⟨rfl, rfl, rfl, fun _ _ => rfl⟩

end Only

theorem dequeueTask_arrays (rq : Runqueue) (p : ℕ) (A : Fin 3) :
    ∃ arrays, rq.dequeueTask p A = { rq with arrays := arrays } := by
  simp only [dequeueTask]
  split_ifs <;> exact ⟨_, rfl⟩

theorem dequeueTask_same (rq : Runqueue) (p : ℕ) (A : Fin 3) :
    (rq.dequeueTask p A).active = rq.active ∧ (rq.dequeueTask p A).expired = rq.expired ∧
      (rq.dequeueTask p A).tasks = rq.tasks := by
  obtain ⟨arrays, ha⟩ := dequeueTask_arrays rq p A
  rw [ha]
  exact ⟨rfl, rfl, rfl⟩

theorem deactivateTask_arrays (rq : Runqueue) (p : ℕ) (A : Fin 3) :
    ∃ n arrays, rq.deactivateTask p A =
      ({ rq with nrRunning := n, arrays := arrays } : Runqueue).setTask p
        { rq.tasks p with array := none } := by
  obtain ⟨arrays, ha⟩ := dequeueTask_arrays { rq with nrRunning := rq.nrRunning - 1 } p A
  exact ⟨rq.nrRunning - 1, arrays, by simp only [deactivateTask, ha]⟩

theorem only_dequeueTask (rq : Runqueue) (p : ℕ) (A : Fin 3) : Only p rq (rq.dequeueTask p A) := by
  obtain ⟨arrays, ha⟩ := dequeueTask_arrays rq p A
  rw [ha]
  exact ⟨rfl, rfl, rfl, fun _ _ => rfl⟩

theorem only_enqueueTask (rq : Runqueue) (p : ℕ) (A : Fin 3) : Only p rq (rq.enqueueTask p A) :=
  ⟨rfl, rfl, rfl, fun q hq => by simp [enqueueTask, setTask, setArray, hq]⟩

theorem only_activateTask (rq : Runqueue) (p : ℕ) : Only p rq (rq.activateTask c jiffies p) :=
  ⟨rfl, rfl, rfl, fun q hq => by simp [activateTask, enqueueTask, setTask, setArray, hq]⟩

theorem only_deactivateTask (rq : Runqueue) (p : ℕ) (A : Fin 3) :
    Only p rq (rq.deactivateTask p A) := by
  obtain ⟨n, arrays, ha⟩ := deactivateTask_arrays rq p A
  rw [ha]
  exact ⟨rfl, rfl, rfl, fun q hq => by simp [setTask, hq]⟩

theorem only_requeue (rq : Runqueue) (p : ℕ) (t : Task) (A B : Fin 3) :
    Only p rq (((rq.dequeueTask p A).setTask p t).enqueueTask p B) :=
  ((only_dequeueTask rq p A).trans (.setTask _ p t)).trans (only_enqueueTask _ p B)

end OperationSystems.Sched.Runqueue
