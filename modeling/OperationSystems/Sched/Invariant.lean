import OperationSystems.Sched.Arrays

/-!
# The invariant of the runqueue

Every task with an `array` is in the queue of its priority there, `SCHED_SHORT`
tasks are in their own array and real-time tasks in the active one, and
`nr_running` counts all of them. The invariant can leave out one task that is
being moved; it is then on no queue. Every function takes a task out, changes
its fields and puts it back.
-/

namespace OperationSystems.Sched
open Buckets PrioArray

/-- The priorities of a task are in the ranges of its policy. -/
structure Task.Valid (t : Task) : Prop where
  staticPrio : maxRtPrio ≤ t.staticPrio ∧ t.staticPrio < maxPrio
  other : t.policy = .other → maxRtPrio ≤ t.prio ∧ t.prio < maxPrio
  rt : t.policy = .fifo ∨ t.policy = .rr → 0 ≤ t.prio ∧ t.prio < maxRtPrio
  short : t.policy = .short → 0 ≤ t.shortPrio ∧ t.shortPrio < maxPrio

theorem Task.Valid.queuePrio_mem {t : Task} (h : t.Valid) : t.queuePrio ∈ slots := by
  have h1 := h.other
  have h2 := h.rt
  have h3 := h.short
  simp only [slots, Finset.mem_Ico, Task.queuePrio, maxPrio, maxRtPrio] at *
  cases hp : t.policy <;> simp_all <;> omega

namespace Runqueue
variable {rq : Runqueue} {p q : ℕ} {d : ℤ} {t : Task} {A : Fin 3} {x : Option ℕ}

/-- The queue of array `A` that a task is in; the task `x` is left out. -/
def placed (rq : Runqueue) (x : Option ℕ) (A : Fin 3) (p : ℕ) : Option ℤ :=
  if x ≠ some p ∧ (rq.tasks p).array = some A then some (rq.tasks p).queuePrio else none

/-- The arrays that a task may be in. -/
def Belongs (rq : Runqueue) (t : Task) (A : Fin 3) : Prop :=
  (t.policy = .short ↔ A = rq.shortPr) ∧ (t.Rt → A = rq.active)

structure Inv (x : Option ℕ) (d : ℤ) (rq : Runqueue) : Prop where
  arrays : ∀ A, (rq.arrays A).Represents (rq.placed x A)
  distinct : rq.active ≠ rq.expired ∧ rq.active ≠ rq.shortPr ∧ rq.expired ≠ rq.shortPr
  running : rq.nrRunning = ∑ A, (rq.arrays A).nrActive + d
  belongs : ∀ p A, x ≠ some p → (rq.tasks p).array = some A → rq.Belongs (rq.tasks p) A
  valid : ∀ p, x ≠ some p → (rq.hashed p = true ∨ (rq.tasks p).array ≠ none) → (rq.tasks p).Valid
  known : ∀ p, x ≠ some p → (rq.tasks p).array ≠ none → rq.hashed p = true ∨ p = rq.idle
  idleUnhashed : rq.hashed rq.idle = false
  idleRunning : (rq.tasks rq.idle).state = .running
  curr : rq.curr ≠ rq.idle → rq.hashed rq.curr = true ∧
    (x ≠ some rq.curr → (rq.tasks rq.curr).array ≠ none)

abbrev Ok (rq : Runqueue) : Prop := rq.Inv none 0

@[simp] theorem setTask_tasks_self (rq : Runqueue) (p : ℕ) (t : Task) : (rq.setTask p t).tasks p = t := by
  simp [setTask]

theorem setTask_tasks_of_ne (rq : Runqueue) (t : Task) (h : q ≠ p) :
    (rq.setTask p t).tasks q = rq.tasks q := by
  simp [setTask, h]

theorem setTask_setTask (rq : Runqueue) (p : ℕ) (t u : Task) :
    (rq.setTask p t).setTask p u = rq.setTask p u := by
  simp [setTask]

theorem placed_none (h : (rq.tasks p).array = none) : rq.placed x A p = none := by
  simp [placed, h]

/-- The fields of the task that is left out are not looked at. -/
theorem Inv.setTask (h : rq.Inv (some p) d) (t : Task) (hidle : p = rq.idle → t.state = .running) :
    (rq.setTask p t).Inv (some p) d := by
  have hne : ∀ q, some p ≠ some q → (rq.setTask p t).tasks q = rq.tasks q := fun q hq =>
    setTask_tasks_of_ne rq t fun he => hq (congrArg some he.symm)
  refine ⟨fun A => (h.arrays A).congr fun q => ?_, h.distinct, h.running, ?_, ?_, ?_,
    h.idleUnhashed, ?_, ?_⟩
  · by_cases hq : some p = some q
    · simp [placed, hq]
    · simp only [placed, hne q hq]
  · intro q A hq hA
    rw [hne q hq] at hA ⊢
    exact h.belongs q A hq hA
  · intro q hq hk
    rw [hne q hq] at hk ⊢
    exact h.valid q hq hk
  · intro q hq hA
    rw [hne q hq] at hA
    exact h.known q hq hA
  · by_cases hp : rq.idle = p
    · simpa [Runqueue.setTask, hp] using hidle hp.symm
    · simpa [Runqueue.setTask, hp] using h.idleRunning
  · intro hc
    refine ⟨(h.curr hc).1, fun hq => ?_⟩
    have hsame : (rq.setTask p t).tasks (rq.setTask p t).curr = rq.tasks rq.curr := hne rq.curr hq
    rw [hsame]
    exact (h.curr hc).2 hq

/-- A task that is on no queue can be left out. -/
theorem Inv.leave (h : rq.Inv none d) (hp : (rq.tasks p).array = none) : rq.Inv (some p) d := by
  refine ⟨fun A => (h.arrays A).congr fun q => ?_, h.distinct, h.running,
    fun q A _ => h.belongs q A (by simp), fun q _ => h.valid q (by simp),
    fun q _ => h.known q (by simp), h.idleUnhashed, h.idleRunning, fun hc => ?_⟩
  · by_cases hq : p = q
    · subst hq
      simp [placed, hp]
    · simp [placed, hq]
  · exact ⟨(h.curr hc).1, fun _ => (h.curr hc).2 (by simp)⟩

/-- A task that is on no queue can be taken in again. -/
theorem Inv.settle (h : rq.Inv (some p) d) (hp : (rq.tasks p).array = none)
    (hv : rq.hashed p = true → (rq.tasks p).Valid) (hc : rq.curr = p → p = rq.idle) :
    rq.Inv none d := by
  have hx : ∀ q, (rq.tasks q).array ≠ none → some p ≠ some q := by
    intro q hq he
    obtain rfl := Option.some.inj he
    exact hq hp
  refine ⟨fun A => (h.arrays A).congr fun q => ?_, h.distinct, h.running, ?_, ?_, ?_,
    h.idleUnhashed, h.idleRunning, ?_⟩
  · by_cases hq : p = q
    · subst hq
      simp [placed, hp]
    · simp [placed, hq]
  · intro q A _ hA
    exact h.belongs q A (hx q (by simp [hA])) hA
  · intro q _ hk
    by_cases hq : p = q
    · subst hq
      exact hv (hk.resolve_right fun hn => hn hp)
    · exact h.valid q (by simpa using hq) hk
  · intro q _ hA
    exact h.known q (hx q hA) hA
  · intro hcurr
    refine ⟨(h.curr hcurr).1, fun _ => (h.curr hcurr).2 fun he => ?_⟩
    have hpc : rq.curr = p := (Option.some.inj he).symm
    exact hcurr (hpc.trans (hc hpc))

theorem placed_leave (rq : Runqueue) (p : ℕ) (A : Fin 3) (q : ℕ) :
    rq.placed (some p) A q = Function.update (rq.placed none A) p none q := by
  by_cases hq : q = p
  · subst hq
    simp [placed]
  · simp [placed, hq, Ne.symm hq]

theorem sum_setArray (rq : Runqueue) (A : Fin 3) (a : PrioArray) :
    ∑ B, ((rq.setArray A a).arrays B).nrActive =
      ∑ B, (rq.arrays B).nrActive - (rq.arrays A).nrActive + a.nrActive := by
  have hs := Finset.sum_update_of_mem (Finset.mem_univ A) (fun B => (rq.arrays B).nrActive) a.nrActive
  have hd := Finset.sum_sdiff_eq_sub
    (f := fun B => (rq.arrays B).nrActive) (Finset.subset_univ ({A} : Finset (Fin 3)))
  have he : (fun B => ((rq.setArray A a).arrays B).nrActive) =
      Function.update (fun B => (rq.arrays B).nrActive) A a.nrActive := by
    funext B
    by_cases hB : B = A
    · subst hB
      simp [setArray]
    · simp [setArray, hB]
  rw [he, hs, hd, Finset.sum_singleton]
  ring

@[simp] theorem setArray_arrays_self (rq : Runqueue) (A : Fin 3) (a : PrioArray) :
    (rq.setArray A a).arrays A = a := by
  simp [setArray]

theorem setArray_setArray (rq : Runqueue) (A : Fin 3) (a b : PrioArray) :
    (rq.setArray A a).setArray A b = rq.setArray A b := by
  simp [setArray]

theorem setArray_setTask_setArray (rq : Runqueue) (A : Fin 3) (a b : PrioArray) (p : ℕ) (t : Task) :
    ((rq.setArray A a).setTask p t).setArray A b = (rq.setTask p t).setArray A b := by
  simp [setTask, setArray]

/-- With the queues in order, `list_del` takes a task out of its own array only. -/
theorem listDel_eq (h : rq.Inv none d) (hp : (rq.tasks p).array = some A) (a : PrioArray) :
    (rq.setArray A a).listDel p = rq.setArray A { a with queue := remove a.queue p } := by
  simp only [listDel, setArray, Runqueue.mk.injEq, true_and, and_true]
  funext B
  by_cases hB : B = A
  · subst hB
    simp only [Function.update_self]
    rfl
  · have hplace : rq.placed none B p = none := by simp [placed, hp, Ne.symm hB]
    have hq : (fun i => ((rq.arrays B).queue i).erase p) = (rq.arrays B).queue :=
      (h.arrays B).queues.remove_eq hplace
    simp only [Function.update_of_ne hB, hq]

theorem dequeueTask_eq (h : rq.Inv none d) (hp : (rq.tasks p).array = some A) :
    rq.dequeueTask p A =
      rq.setArray A ((rq.arrays A).dequeue p (rq.tasks p).queuePrio) := by
  simp only [dequeueTask, listDel_eq h hp, setArray_arrays_self, setArray_setArray,
    PrioArray.dequeue]
  have ht : ∀ a, (rq.setArray A a).tasks = rq.tasks := fun _ => rfl
  simp only [ht]
  split_ifs <;> rfl

theorem Inv.dequeueTask (h : rq.Inv none d) (hp : (rq.tasks p).array = some A) :
    (rq.dequeueTask p A).Inv (some p) (d + 1) := by
  have hplace : rq.placed none A p = some (rq.tasks p).queuePrio := by simp [placed, hp]
  rw [dequeueTask_eq h hp]
  refine ⟨fun B => ?_, h.distinct, ?_, fun q B _ => h.belongs q B (by simp),
    fun q _ => h.valid q (by simp), fun q _ => h.known q (by simp), h.idleUnhashed, h.idleRunning,
    fun hc => ⟨(h.curr hc).1, fun _ => (h.curr hc).2 (by simp)⟩⟩
  · by_cases hB : B = A
    · subst hB
      rw [show (rq.setArray B _).arrays B = (rq.arrays B).dequeue p (rq.tasks p).queuePrio by
        simp [setArray]]
      exact ((h.arrays B).dequeue hplace).congr fun q => placed_leave rq p B q
    · rw [show (rq.setArray A _).arrays B = rq.arrays B by simp [setArray, hB]]
      refine (h.arrays B).congr fun q => ?_
      by_cases hq : p = q
      · subst hq
        simp [placed, setArray, hp, Ne.symm hB]
      · simp [placed, setArray, hq]
  · have hr := h.running
    rw [sum_setArray]
    simp only [setArray, PrioArray.dequeue]
    omega

/-- The task that is left out is taken in at some place of array `A`. -/
theorem Inv.enter (h : rq.Inv (some p) d) {a : PrioArray}
    (ha : a.Represents (Function.update (rq.placed (some p) A) p (some (rq.tasks p).queuePrio)))
    (hb : rq.Belongs (rq.tasks p) A) (hv : (rq.tasks p).Valid)
    (hk : rq.hashed p = true ∨ p = rq.idle) :
    ((rq.setArray A a).setTask p { rq.tasks p with array := some A }).Inv none
      (d - (a.nrActive - (rq.arrays A).nrActive)) := by
  set r := (rq.setArray A a).setTask p { rq.tasks p with array := some A } with hr
  have hself : r.tasks p = { rq.tasks p with array := some A } := setTask_tasks_self _ _ _
  have hne : ∀ q, q ≠ p → r.tasks q = rq.tasks q := fun q hq => setTask_tasks_of_ne _ _ hq
  have hx : ∀ q, q ≠ p → some p ≠ some q := fun q hq he => hq (Option.some.inj he).symm
  refine ⟨fun B => ?_, h.distinct, ?_, ?_, ?_, ?_, h.idleUnhashed, ?_, ?_⟩
  · by_cases hB : B = A
    · subst hB
      have he : r.arrays B = a := setArray_arrays_self _ _ _
      rw [he]
      refine ha.congr fun q => ?_
      by_cases hq : q = p
      · subst hq
        simp [placed, hself, Task.queuePrio]
      · simp [placed, hne q hq, hq, Ne.symm hq]
    · have he : r.arrays B = rq.arrays B := by simp [hr, Runqueue.setTask, setArray, hB]
      rw [he]
      refine (h.arrays B).congr fun q => ?_
      by_cases hq : q = p
      · subst hq
        simp [placed, hself, Ne.symm hB]
      · simp [placed, hne q hq, Ne.symm hq]
  · have hrun := h.running
    have hs := sum_setArray rq A a
    change rq.nrRunning = ∑ B, ((rq.setArray A a).arrays B).nrActive + _
    omega
  · intro q B _ hB
    by_cases hq : q = p
    · subst hq
      rw [hself] at hB ⊢
      obtain rfl : A = B := by simpa using hB
      exact hb
    · rw [hne q hq] at hB ⊢
      exact h.belongs q B (hx q hq) hB
  · intro q _ hq'
    by_cases hq : q = p
    · subst hq
      rw [hself]
      exact ⟨hv.staticPrio, hv.other, hv.rt, hv.short⟩
    · rw [hne q hq] at hq' ⊢
      exact h.valid q (hx q hq) hq'
  · intro q _ hB
    by_cases hq : q = p
    · subst hq
      exact hk
    · rw [hne q hq] at hB
      exact h.known q (hx q hq) hB
  · by_cases hp : rq.idle = p
    · have hi := h.idleRunning
      change (r.tasks rq.idle).state = .running
      rw [hp, hself]
      rwa [hp] at hi
    · change (r.tasks rq.idle).state = .running
      rw [hne _ hp]
      exact h.idleRunning
  · intro hc
    refine ⟨(h.curr hc).1, fun _ => ?_⟩
    change (r.tasks rq.curr).array ≠ none
    by_cases hq : rq.curr = p
    · rw [hq, hself]
      simp
    · rw [hne _ hq]
      exact (h.curr hc).2 (hx _ hq)

theorem enqueueTask_eq (rq : Runqueue) (p : ℕ) (A : Fin 3) :
    rq.enqueueTask p A =
      (rq.setArray A ((rq.arrays A).enqueue p (rq.tasks p).queuePrio)).setTask p
        { rq.tasks p with array := some A } := rfl

theorem Inv.enqueueTask (h : rq.Inv (some p) d) (hb : rq.Belongs (rq.tasks p) A)
    (hv : (rq.tasks p).Valid) (hk : rq.hashed p = true ∨ p = rq.idle) :
    (rq.enqueueTask p A).Inv none (d - 1) := by
  have hplace : rq.placed (some p) A p = none := by simp [placed]
  have he := h.enter ((h.arrays A).enqueue hplace hv.queuePrio_mem) hb hv hk
  rw [enqueueTask_eq]
  rwa [show d - (((rq.arrays A).enqueue p (rq.tasks p).queuePrio).nrActive - (rq.arrays A).nrActive) =
    d - 1 by simp [PrioArray.enqueue]] at he

theorem Inv.count (h : rq.Inv x d) (n : ℤ) :
    Inv x (d + n) { rq with nrRunning := rq.nrRunning + n } := by
  refine ⟨h.arrays, h.distinct, ?_, h.belongs, h.valid, h.known, h.idleUnhashed, h.idleRunning, h.curr⟩
  have hr := h.running
  dsimp only
  omega

theorem Inv.deactivateTask (h : rq.Ok) (hp : (rq.tasks p).array = some A) :
    (rq.deactivateTask p A).Inv (some p) 0 := by
  have hd := (h.count (-1)).dequeueTask hp
  refine hd.setTask _ fun hidle => ?_
  have hi := hd.idleRunning
  rwa [← hidle] at hi

/-- A task that is not left out may change in what the queues do not depend on. -/
theorem Inv.setSame (h : rq.Ok) (harray : t.array = (rq.tasks p).array)
    (hqueue : t.queuePrio = (rq.tasks p).queuePrio)
    (hb : ∀ A, rq.Belongs (rq.tasks p) A → rq.Belongs t A) (hv : (rq.tasks p).Valid → t.Valid)
    (hidle : p = rq.idle → t.state = .running) : (rq.setTask p t).Ok := by
  have hself := setTask_tasks_self rq p t
  have hne : ∀ q, q ≠ p → (rq.setTask p t).tasks q = rq.tasks q := fun q hq =>
    setTask_tasks_of_ne rq t hq
  refine ⟨fun A => (h.arrays A).congr fun q => ?_, h.distinct, h.running, ?_, ?_, ?_,
    h.idleUnhashed, ?_, ?_⟩
  · by_cases hq : q = p
    · subst hq
      simp [placed, harray, hqueue]
    · simp [placed, hne q hq]
  · intro q A hx hA
    by_cases hq : q = p
    · subst hq
      rw [hself] at hA ⊢
      exact hb A (h.belongs q A hx (harray ▸ hA))
    · rw [hne q hq] at hA ⊢
      exact h.belongs q A hx hA
  · intro q hx hk
    by_cases hq : q = p
    · subst hq
      rw [hself] at hk ⊢
      exact hv (h.valid q hx (harray ▸ hk))
    · rw [hne q hq] at hk ⊢
      exact h.valid q hx hk
  · intro q hx hA
    by_cases hq : q = p
    · subst hq
      rw [hself] at hA
      exact h.known q hx (harray ▸ hA)
    · rw [hne q hq] at hA
      exact h.known q hx hA
  · by_cases hp : rq.idle = p
    · change ((rq.setTask p t).tasks rq.idle).state = .running
      rw [hp, hself]
      exact hidle hp.symm
    · change ((rq.setTask p t).tasks rq.idle).state = .running
      rw [hne _ hp]
      exact h.idleRunning
  · intro hc
    refine ⟨(h.curr hc).1, fun hx => ?_⟩
    change ((rq.setTask p t).tasks rq.curr).array ≠ none
    by_cases hq : rq.curr = p
    · rw [hq, hself, harray, ← hq]
      exact (h.curr hc).2 hx
    · rw [hne _ hq]
      exact (h.curr hc).2 hx

end Runqueue

end OperationSystems.Sched
