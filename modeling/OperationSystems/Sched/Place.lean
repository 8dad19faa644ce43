import OperationSystems.Sched.Preempt

/-!
# The place of a process among the `SCHED_SHORT` ones

`sys_short_place_in_queue` counts the tasks in front of a process, queue by
queue. As long as no real-time task is runnable, `schedule` chooses the first
task in the same order, so the count is the number of tasks that are dispatched
before the process if each of them leaves the array. A process that sleeps is
not found, and the count is the length of the queues that it would be put
behind.
-/

namespace OperationSystems.Sched
open Transition Buckets PrioArray

namespace Runqueue
variable {rq rq' d s t : Runqueue} {p : ℕ} {c : Clock} {jiffies now : ℕ} {signal : Bool}

/-- The numbers of the first `n` queues. -/
def prios (n : ℕ) : List ℤ := (List.range n).map fun i : ℕ => (i : ℤ)

/-- The loop over a queue, which returns from the function when it meets the task `p`. -/
def countQueue (p : ℕ) (queue : List ℕ) (counter : ℤ) : Except ℤ ℤ :=
  queue.foldlM (fun counter q => if q = p then .error counter else .ok (counter + 1)) counter

def sysShortPlaceInQueue (pid : ℤ) (rq : Runqueue) : ℤ :=
  if pid < 0 then -esrch
  else if rq.hashed pid.toNat = false then -esrch
  else
    let process := rq.tasks pid.toNat
    if process.policy ≠ .short then -einval
    else if (rq.curr : ℤ) = pid then 0
    else
      let array := rq.arrays rq.shortPr
      let loop := (prios (process.shortPrio + 1).toNat).foldlM
        (fun counter currPrio => countQueue pid.toNat (array.queue currPrio) counter) 0
      match loop with
      | .error counter => counter
      | .ok counter => counter

/-- The queues of `SCHED_SHORT`. -/
def shortQueues (rq : Runqueue) : ℤ → List ℕ := (rq.arrays rq.shortPr).queue

theorem countQueue_eq (p : ℕ) (l : List ℕ) (n : ℤ) :
    countQueue p l n = if p ∈ l then .error (n + l.idxOf p) else .ok (n + l.length) := by
  induction l generalizing n with
  | nil =>
    simp only [countQueue, List.foldlM_nil, List.not_mem_nil, if_false, List.length_nil]
    exact congrArg Except.ok (add_zero n).symm
  | cons q l ih =>
    have hstep : countQueue p (q :: l) n = if q = p then .error n else countQueue p l (n + 1) := by
      simp only [countQueue, List.foldlM_cons]
      split_ifs <;> rfl
    rw [hstep]
    by_cases hq : q = p
    · simp [hq]
    · rw [if_neg hq, ih, List.idxOf_cons_ne _ hq]
      simp only [List.mem_cons, Ne.symm hq, false_or, List.length_cons]
      split_ifs <;> simp only [Except.error.injEq, Except.ok.injEq] <;> push_cast <;> ring

/-- The loop over the queues is one over their tasks in order. -/
theorem countQueues_eq (p : ℕ) (q : ℤ → List ℕ) (is : List ℤ) (n : ℤ) :
    is.foldlM (fun counter i => countQueue p (q i) counter) n = countQueue p (order is q) n := by
  induction is generalizing n with
  | nil => rfl
  | cons i is ih =>
    have happ : countQueue p (order (i :: is) q) n =
        countQueue p (q i) n >>= countQueue p (order is q) := by
      simp only [countQueue, order, List.flatMap_cons, List.foldlM_append]
      rfl
    rw [happ, List.foldlM_cons]
    congr 1
    funext m
    exact ih m

/-- What is returned for a `SCHED_SHORT` process other than the caller. -/
theorem sysShortPlaceInQueue_eq (hp : rq.hashed p = true) (hs : (rq.tasks p).policy = .short)
    (hc : p ≠ rq.curr) : rq.sysShortPlaceInQueue p =
      (order (prios ((rq.tasks p).shortPrio + 1).toNat) rq.shortQueues).idxOf p := by
  have hpid : ¬ ((p : ℤ) < 0) := by omega
  have hcurr : ¬ ((rq.curr : ℤ) = p) := by omega
  simp only [sysShortPlaceInQueue, if_neg hpid, Int.toNat_natCast, hp, hs, if_neg hcurr, countQueues_eq]
  simp only [Bool.true_eq_false, if_false, ne_eq, not_true_eq_false, countQueue_eq, shortQueues]
  split_ifs with hmem
  · simp
  · simp [List.idxOf_eq_length hmem]

/-- The tasks of the `SCHED_SHORT` array one after the other. -/
def shortOrder (rq : Runqueue) : List ℕ := order (prios 140) rq.shortQueues

theorem prios_nodup (n : ℕ) : (prios n).Nodup :=
  List.Nodup.map (fun _ _ h => Int.ofNat.inj h) List.nodup_range

theorem mem_prios {n : ℕ} {i : ℤ} : i ∈ prios n ↔ 0 ≤ i ∧ i < n := by
  simp only [prios, List.mem_map, List.mem_range]
  constructor
  · rintro ⟨j, hj, rfl⟩
    omega
  · rintro ⟨h0, hn⟩
    exact ⟨i.toNat, by omega, by omega⟩

theorem prios_succ (n : ℕ) : prios (n + 1) = prios n ++ [(n : ℤ)] := by
  rw [prios, List.range_succ, List.map_append]
  rfl

theorem prios_append {n : ℕ} (hn : n ≤ 140) : ∃ is, prios 140 = prios n ++ is := by
  obtain ⟨m, hm⟩ := Nat.exists_eq_add_of_le hn
  rw [hm, prios, List.range_add, List.map_append]
  exact ⟨_, rfl⟩

/-- The first task in order is at the head of the first queue that is not empty. -/
theorem order_head {q : ℤ → List ℕ} {i : ℤ} {l : List ℕ} (h0 : 0 ≤ i) (h140 : i < 140) (hq : q i = p :: l)
    (hleast : ∀ j, q j ≠ [] → i ≤ j) : ∃ l', order (prios 140) q = p :: l' := by
  obtain ⟨n, rfl⟩ := Int.eq_ofNat_of_zero_le h0
  obtain ⟨is, his⟩ := prios_append (n := n + 1) (by omega)
  have hlow : order (prios n) q = [] := by
    refine List.flatMap_eq_nil_iff.mpr fun j hj => ?_
    by_contra hne
    have hle := hleast j hne
    have hlt := (mem_prios.mp hj).2
    omega
  refine ⟨l ++ order is q, ?_⟩
  unfold order at hlow ⊢
  rw [his, prios_succ, List.flatMap_append, List.flatMap_append, hlow, List.flatMap_singleton, hq]
  rfl

theorem Inv.shortHolds {x : Option ℕ} {e : ℤ} (h : rq.Inv x e) :
    Holds rq.shortQueues (rq.placed x rq.shortPr) := (h.arrays rq.shortPr).queues

theorem mem_order_of_queued (h : rq.Ok) (hA : (rq.tasks p).array = some rq.shortPr)
    (hs : (rq.tasks p).policy = .short) {n : ℕ} (hn : (rq.tasks p).shortPrio < n) :
    p ∈ order (prios n) rq.shortQueues := by
  have hv := h.valid p (by simp) (Or.inr (by simp [hA]))
  have h0 := (hv.short hs).1
  refine h.shortHolds.mem_order.mpr ⟨(rq.tasks p).shortPrio, mem_prios.mpr ⟨h0, hn⟩, ?_⟩
  simp [placed, hA, Task.queuePrio, hs]

theorem shortOrder_of_queued (h : rq.Ok) (hA : (rq.tasks p).array = some rq.shortPr)
    (hs : (rq.tasks p).policy = .short) : p ∈ rq.shortOrder :=
  mem_order_of_queued h hA hs ((h.valid p (by simp) (Or.inr (by simp [hA]))).short hs).2

/-- A process on the array has its place in the order of the whole array. -/
theorem sysShortPlaceInQueue_queued (h : rq.Ok) (hA : (rq.tasks p).array = some rq.shortPr)
    (hs : (rq.tasks p).policy = .short) (hp : rq.hashed p = true) (hc : p ≠ rq.curr) :
    rq.sysShortPlaceInQueue p = rq.shortOrder.idxOf p := by
  have hv := h.valid p (by simp) (Or.inl hp)
  obtain ⟨h0, h140⟩ := hv.short hs
  simp only [maxPrio] at h140
  obtain ⟨is, his⟩ := prios_append (n := ((rq.tasks p).shortPrio + 1).toNat) (by omega)
  have hmem := mem_order_of_queued h hA hs (n := ((rq.tasks p).shortPrio + 1).toNat) (by omega)
  unfold order at hmem
  rw [sysShortPlaceInQueue_eq hp hs hc, shortOrder, his, order, order, List.flatMap_append,
    List.idxOf_append_of_mem hmem]

theorem tryToWakeUp_same (ha : (rq.tasks p).array = none) :
    (rq.tryToWakeUp c jiffies p).2.arrays = (rq.activateTask c jiffies p).arrays ∧
      (rq.tryToWakeUp c jiffies p).2.shortPr = rq.shortPr ∧
      (rq.tryToWakeUp c jiffies p).2.hashed = rq.hashed ∧
      (rq.tryToWakeUp c jiffies p).2.curr = rq.curr := by
  unfold tryToWakeUp
  simp only [if_pos ha]
  split_ifs <;> exact ⟨rfl, rfl, rfl, rfl⟩

/-- A process that sleeps comes behind everything that is counted for it. -/
theorem sysShortPlaceInQueue_woken (h : rq.Ok) (hA : (rq.tasks p).array = none)
    (hs : (rq.tasks p).policy = .short) (hp : rq.hashed p = true) (hc : p ≠ rq.curr) :
    (rq.tryToWakeUp c jiffies p).2.sysShortPlaceInQueue p = rq.sysShortPlaceInQueue p := by
  obtain ⟨h0, h140⟩ := (h.valid p (by simp) (Or.inl hp)).short hs
  obtain ⟨n, hn⟩ := Int.eq_ofNat_of_zero_le h0
  obtain ⟨harr, hsh, hhash, hcurr⟩ := @tryToWakeUp_same rq p c jiffies hA
  obtain ⟨b, hself⟩ := @tryToWakeUp_self rq p c jiffies hA
  rw [awake_short hs] at hself
  set w := (rq.tryToWakeUp c jiffies p).2
  have hqueue : w.shortQueues = Function.update rq.shortQueues n (rq.shortQueues n ++ [p]) := by
    have hprio : (rq.tasks p).queuePrio = n := by simp only [Task.queuePrio, hs, if_pos, hn]
    unfold shortQueues
    rw [harr, hsh, activateTask_arrays, if_pos (by simp [arrayFor, hs]), awake_short hs, hprio]
    rfl
  have hnot : p ∉ order (prios (n + 1)) rq.shortQueues := by
    rw [h.shortHolds.mem_order]
    simp [placed_none hA]
  have hw := @sysShortPlaceInQueue_eq w p (hhash ▸ hp) (by rw [hself]; exact hs) (hcurr ▸ hc)
  have hr := sysShortPlaceInQueue_eq hp hs hc
  have hsame : (w.tasks p).shortPrio = (rq.tasks p).shortPrio := by rw [hself]
  rw [hsame, hn, hqueue, show ((n : ℤ) + 1).toNat = n + 1 by omega, prios_succ,
    order_append_last (fun hm => absurd (mem_prios.mp hm).2 (lt_irrefl _)), ← prios_succ,
    List.idxOf_append_of_notMem hnot, List.idxOf_cons_self, Nat.add_zero] at hw
  rw [hn, show ((n : ℤ) + 1).toNat = n + 1 by omega, List.idxOf_eq_length hnot] at hr
  rw [hw, hr]

/-- The fields that the choice of the next task depends on stay, and no queue gets a task. -/
structure Shrinks (s d : Runqueue) : Prop where
  idle : d.idle = s.idle
  shortPr : d.shortPr = s.shortPr
  policy : ∀ p, (d.tasks p).policy = (s.tasks p).policy
  prio : ∀ p, (d.tasks p).prio = (s.tasks p).prio
  queues : ∀ A i, ∀ p ∈ (d.arrays A).queue i, p ∈ (s.arrays A).queue i

namespace Shrinks

theorem trans (h : Shrinks s d) (h' : Shrinks d t) : Shrinks s t :=
  ⟨h'.idle.trans h.idle, h'.shortPr.trans h.shortPr, fun p => (h'.policy p).trans (h.policy p),
    fun p => (h'.prio p).trans (h.prio p), fun A i p hp => h.queues A i p (h'.queues A i p hp)⟩

theorem setTask (s : Runqueue) (p : ℕ) {u : Task} (hpol : u.policy = (s.tasks p).policy)
    (hprio : u.prio = (s.tasks p).prio) : Shrinks s (s.setTask p u) := by
  refine ⟨rfl, rfl, fun q => ?_, fun q => ?_, fun _ _ _ => id⟩
  · by_cases hq : q = p
    · rw [hq, setTask_tasks_self, hpol]
    · rw [setTask_tasks_of_ne _ _ hq]
  · by_cases hq : q = p
    · rw [hq, setTask_tasks_self, hprio]
    · rw [setTask_tasks_of_ne _ _ hq]

theorem not_rt (h : Shrinks s d) (hno : ¬ ∃ p, s.Runnable p ∧ (s.tasks p).Rt) :
    ¬ ∃ p, d.Runnable p ∧ (d.tasks p).Rt := by
  rintro ⟨p, ⟨A, i, hp⟩, hrt⟩
  refine hno ⟨p, ⟨A, i, h.queues A i p hp⟩, ?_⟩
  unfold Task.Rt at hrt ⊢
  rwa [h.policy, h.prio] at hrt

end Shrinks

theorem deactivateTask_queue (rq : Runqueue) (p : ℕ) (A B : Fin 3) :
    ((rq.deactivateTask p A).arrays B).queue = remove (rq.arrays B).queue p := by
  simp only [deactivateTask, dequeueTask]
  by_cases hB : B = A
  · subst hB
    split_ifs <;> simp [setTask, setArray, listDel] <;> rfl
  · split_ifs <;> simp [setTask, setArray, listDel, hB] <;> rfl

theorem shrinks_deactivateTask (rq : Runqueue) (p : ℕ) (A : Fin 3) :
    Shrinks rq (rq.deactivateTask p A) := by
  have hqueue := deactivateTask_queue rq p A
  obtain ⟨n, arrays, he⟩ := deactivateTask_arrays rq p A
  have hset : Shrinks rq (rq.setTask p { rq.tasks p with array := none }) := .setTask rq p rfl rfl
  refine ⟨?_, ?_, fun q => ?_, fun q => ?_, fun B i q hq => ?_⟩
  · rw [he]
    rfl
  · rw [he]
    rfl
  · rw [he]
    exact hset.policy q
  · rw [he]
    exact hset.prio q
  · rw [hqueue B] at hq
    exact List.mem_of_mem_erase hq

theorem deactivatePrev_shrinks (h : s.Ok) (hd : s.deactivatePrev now signal = some d) : Shrinks s d := by
  by_cases hs : s.Stays signal
  · obtain ⟨u, hu, hpol, hprio⟩ := @Stays.deactivatePrev s now signal hs
    obtain rfl := Option.some.inj (hd.symm.trans hu)
    exact .setTask s s.curr hpol hprio
  · obtain ⟨A, hA⟩ := Option.ne_none_iff_exists'.mp ((h.curr (curr_ne_idle h hs)).2 (by simp))
    obtain rfl := Option.some.inj (hd.symm.trans (deactivatePrev_leaves hs hA))
    have hset := Shrinks.setTask s s.curr (u := { s.tasks s.curr with sleepTimestamp := now }) rfl rfl
    exact hset.trans (shrinks_deactivateTask _ _ A)

/-- The task that calls `schedule` stays in its queue or leaves it. -/
theorem deactivatePrev_shortQueues (h : s.Ok) (hd : s.deactivatePrev now signal = some d) :
    (s.Stays signal → d.shortQueues = s.shortQueues) ∧
      (¬ s.Stays signal → d.shortQueues = remove s.shortQueues s.curr) := by
  refine ⟨fun hs => ?_, fun hs => ?_⟩
  · obtain ⟨u, hu, -, -⟩ := @Stays.deactivatePrev s now signal hs
    obtain rfl := Option.some.inj (hd.symm.trans hu)
    rfl
  · obtain ⟨A, hA⟩ := Option.ne_none_iff_exists'.mp ((h.curr (curr_ne_idle h hs)).2 (by simp))
    have hsh := (deactivatePrev_shrinks h hd).shortPr
    obtain rfl := Option.some.inj (hd.symm.trans (deactivatePrev_leaves hs hA))
    unfold shortQueues
    rw [hsh, deactivateTask_queue]
    rfl

theorem schedule_shrinks (hd : s.deactivatePrev now signal = some d)
    (hs : s.schedule now signal = some t) : Shrinks d t ∧ t.shortQueues = d.shortQueues := by
  obtain ⟨d', hd', ht⟩ := Option.bind_eq_some_iff.mp hs
  obtain rfl := Option.some.inj (hd.symm.trans hd')
  obtain ⟨⟨next, r⟩, hpick, rfl⟩ := Option.map_eq_some_iff.mp ht
  have hr : r.arrays = d.arrays ∧ r.tasks = d.tasks ∧ r.shortPr = d.shortPr ∧ r.idle = d.idle := by
    unfold pickNext at hpick
    split_ifs at hpick
    · obtain ⟨-, rfl⟩ := Prod.mk.inj (Option.some.inj hpick)
      exact ⟨rfl, rfl, rfl, rfl⟩
    · obtain ⟨n, -, hn⟩ := Option.map_eq_some_iff.mp hpick
      obtain ⟨-, rfl⟩ := Prod.mk.inj hn
      obtain ⟨h₁, h₂, h₃, -, h₅⟩ := switchArrays_same d
      exact ⟨h₁, h₂, h₃, h₅⟩
  obtain ⟨harr, htasks, hsh, hidle⟩ := hr
  have hset := Shrinks.setTask r s.curr (u := { r.tasks s.curr with needResched := false }) rfl rfl
  refine ⟨⟨hidle, hsh, fun p => ?_, fun p => ?_, fun A i p hp => ?_⟩, ?_⟩
  · exact (hset.policy p).trans (by rw [htasks])
  · exact (hset.prio p).trans (by rw [htasks])
  · rw [← harr]
    exact hset.queues A i p hp
  · change (r.arrays r.shortPr).queue = _
    rw [harr, hsh]
    rfl

/-- While no real-time task is runnable, the first `SCHED_SHORT` task in order is dispatched. -/
theorem schedule_head (h : s.Ok) (hno : ¬ ∃ p, s.Runnable p ∧ (s.tasks p).Rt)
    (hd : s.deactivatePrev now signal = some d) (hs : s.schedule now signal = some t)
    (hp : p ∈ d.shortOrder) : ∃ l, d.shortOrder = t.curr :: l := by
  obtain ⟨d₁, x, hd₁, hinv, -, -⟩ := @deactivatePrev_inv s now signal h
  obtain rfl := Option.some.inj (hd.symm.trans hd₁)
  obtain ⟨d₂, t₂, hd₂, ht₂, -, -, hpick⟩ := schedule_spec h now signal
  obtain rfl := Option.some.inj (hd.symm.trans hd₂)
  obtain rfl := Option.some.inj (hs.symm.trans ht₂)
  obtain ⟨i, -, hi⟩ := hinv.shortHolds.mem_order.mp hp
  have hrun : d.nrRunning ≠ 0 := by
    intro hz
    rw [placed_of_idle hinv hz] at hi
    cases hi
  obtain ⟨-, hdis⟩ := hpick hrun
  obtain ⟨harr, htasks, hsh, -, -⟩ := switchArrays_same d
  have hno' : ¬ ∃ p, d.switchArrays.Runnable p ∧ (d.switchArrays.tasks p).Rt := by
    unfold Runnable
    rw [harr, htasks]
    exact (deactivatePrev_shrinks h hd).not_rt hno
  have hmem : p ∈ (d.arrays d.shortPr).queue i := hinv.shortHolds.mem_iff.mpr hi
  obtain ⟨m, l, hleast, hq⟩ := hdis.short hno'
    ⟨p, ⟨d.shortPr, i, by rw [harr]; exact hmem⟩, by rw [htasks]; exact (short_of_placed hinv hi).1⟩
  rw [harr, hsh] at hq
  have hm := (hinv.arrays d.shortPr).range t.curr m
    (hinv.shortHolds.mem_iff.mp (show t.curr ∈ d.shortQueues m by rw [shortQueues, hq]; exact List.mem_cons_self))
  obtain ⟨h0, h140⟩ := Finset.mem_Ico.mp hm
  refine order_head h0 h140 hq fun j hj => hleast.2 ?_
  obtain ⟨r, hr⟩ := hinv.shortHolds.ne_nil_iff.mp hj
  obtain ⟨hpol, hprio⟩ := short_of_placed hinv hr
  have hrj : r ∈ (d.arrays d.shortPr).queue j := hinv.shortHolds.mem_iff.mpr hr
  exact ⟨r, ⟨d.shortPr, j, by rw [harr]; exact hrj⟩, by rw [htasks]; exact hpol, by rw [htasks]; exact hprio⟩

/-- No real-time task is runnable. -/
def RtFree (rq : Runqueue) : Prop := ¬ ∃ p, rq.Runnable p ∧ (rq.tasks p).Rt

/-- A call of `schedule` while no real-time task is runnable. The task that calls it leaves the
queues `q` of `SCHED_SHORT` behind, and without the task `p` that it dispatches they are `q'`. -/
def Serves (q : ℤ → List ℕ) (p : ℕ) (q' : ℤ → List ℕ) : Prop :=
  ∃ (s d t : Runqueue) (now : ℕ) (signal : Bool), s.Ok ∧ s.RtFree ∧
    s.deactivatePrev now signal = some d ∧ d.shortQueues = q ∧ s.schedule now signal = some t ∧
    t.curr = p ∧ q' = remove q p

/-- The tasks that `n` calls of `schedule` dispatch if each of them goes to sleep. -/
def dispatches (now : ℕ) (state : TaskState) (rq : Runqueue) : ℕ → Option (List ℕ × Runqueue)
  | 0 => some ([], rq)
  | n + 1 => (rq.dispatches now state n).bind fun r => (r.2.schedule now false).map fun s =>
    (r.1 ++ [s.curr], s.setTask s.curr { s.tasks s.curr with state := state })

variable {q q' : ℤ → List ℕ} {x : ℕ} {state : TaskState}

theorem Serves.head (h : Serves q p q') (hx : x ∈ order (prios 140) q) :
    order (prios 140) q = p :: order (prios 140) q' := by
  obtain ⟨s, d, t, now, signal, hok, hno, hd, rfl, ht, rfl, rfl⟩ := h
  obtain ⟨l, hl⟩ := schedule_head hok hno hd ht hx
  obtain ⟨d', y, hd', hinv, -, -⟩ := @deactivatePrev_inv s now signal hok
  obtain rfl := Option.some.inj (hd.symm.trans hd')
  unfold shortOrder at hl
  rw [hinv.shortHolds.order_remove (prios_nodup 140), hl, List.erase_cons_head]

/-- What is dispatched before a task is what was in front of it. -/
theorem order_of_serves {ps : List ℕ} (hrun : Run Serves q ps q') (hp : p ∈ order (prios 140) q)
    (hps : p ∉ ps) : order (prios 140) q = ps ++ order (prios 140) q' := by
  induction hrun with
  | nil => rfl
  | snoc _ he ih =>
    have hps' := fun hm => hps (List.mem_append_left _ hm)
    have hl := ih hps'
    rw [hl, List.mem_append] at hp
    rw [hl, he.head (hp.resolve_left hps'), List.append_assoc]
    rfl

theorem place_of_serves (h : rq.Ok) (hp : p ∈ rq.shortOrder) {ps : List ℕ}
    (hrun : Run Serves rq.shortQueues (ps ++ [p]) q) (hps : p ∉ ps) :
    rq.shortOrder.idxOf p = ps.length ∧ ps.Nodup ∧ ∀ r ∈ ps, (rq.tasks r).policy = .short := by
  generalize hes : ps ++ [p] = es at hrun
  cases hrun with
  | nil => simp at hes
  | snoc hrun he =>
    obtain ⟨rfl, hpe⟩ := List.append_inj' hes rfl
    obtain rfl := List.cons.inj hpe |>.1
    have hl := order_of_serves hrun hp hps
    have hmem := hp
    unfold shortOrder at hmem
    rw [hl, List.mem_append] at hmem
    have hnodup := h.shortHolds.order_nodup (prios_nodup 140)
    have hhead := he.head (hmem.resolve_left hps)
    rw [hhead] at hl
    refine ⟨?_, ?_, fun r hr => ?_⟩
    · rw [shortOrder, hl, List.idxOf_append_of_notMem hps, List.idxOf_cons_self, Nat.add_zero]
    · rw [hl] at hnodup
      exact hnodup.of_append_left
    · obtain ⟨i, -, hi⟩ := h.shortHolds.mem_order.mp (hl ▸ List.mem_append_left _ hr)
      exact (short_of_placed h hi).1

/-- The next call of `schedule` finds the queues `q` for `SCHED_SHORT`. -/
structure Ready (now : ℕ) (s : Runqueue) (q : ℤ → List ℕ) : Prop where
  ok : s.Ok
  rtFree : s.RtFree
  idle : (s.tasks s.idle).policy ≠ .short
  finds : ∀ d, s.deactivatePrev now false = some d → d.shortQueues = q

/-- A task that is dispatched and goes to sleep has left the queues at the next call. -/
theorem Ready.dispatch (h : Ready now s q) (hx : x ∈ order (prios 140) q) (hstate : state ≠ .running) :
    ∃ t, s.schedule now false = some t ∧ Serves q t.curr (remove q t.curr) ∧
      Ready now (t.setTask t.curr { t.tasks t.curr with state := state }) (remove q t.curr) := by
  obtain ⟨d, t, hd, ht, hok, -, -⟩ := schedule_spec h.ok now false
  obtain rfl := h.finds d hd
  obtain ⟨hshr, hqueues⟩ := schedule_shrinks hd ht
  have hall := (deactivatePrev_shrinks h.ok hd).trans hshr
  have hserves : Serves d.shortQueues t.curr (remove d.shortQueues t.curr) :=
    ⟨s, d, t, now, false, h.ok, h.rtFree, hd, rfl, ht, rfl, rfl⟩
  have hcurr : t.curr ∈ order (prios 140) t.shortQueues := by
    rw [hqueues, hserves.head hx]
    exact List.mem_cons_self
  obtain ⟨i, -, hi⟩ := hok.shortHolds.mem_order.mp hcurr
  have hidle : t.curr ≠ t.idle := by
    intro he
    have hpol := (short_of_placed hok hi).1
    rw [he, hall.policy, hall.idle] at hpol
    exact h.idle hpol
  set u := t.setTask t.curr { t.tasks t.curr with state := state } with hu
  have huok : u.Ok := ok_setState hok state fun he => absurd he hidle
  have hset : Shrinks t u := .setTask t t.curr rfl rfl
  have hleaves : ¬ u.Stays false := by
    have hself : u.tasks u.curr = { t.tasks t.curr with state := state } := setTask_tasks_self _ _ _
    unfold Stays
    rw [hself]
    simp [hstate]
  refine ⟨t, ht, hserves, huok, (hall.trans hset).not_rt h.rtFree, ?_, fun e he => ?_⟩
  · rw [(hall.trans hset).policy, (hall.trans hset).idle]
    exact h.idle
  · rw [(deactivatePrev_shortQueues huok he).2 hleaves, ← hqueues]
    rfl

theorem dispatches_ready (h : Ready now rq q) (hstate : state ≠ .running) {ps l : List ℕ}
    (hl : order (prios 140) q = ps ++ x :: l) :
    ∃ s q', rq.dispatches now state ps.length = some (ps, s) ∧ Run Serves q ps q' ∧ Ready now s q' ∧
      order (prios 140) q' = x :: l := by
  induction ps using List.reverseRecOn generalizing x l with
  | nil => exact ⟨rq, q, rfl, .nil, h, hl⟩
  | append_singleton ps y ih =>
    obtain ⟨s, q', hs, hrun, hready, hq'⟩ := ih (x := y) (l := x :: l) (by rw [hl, List.append_assoc]; rfl)
    have hy : y ∈ order (prios 140) q' := by rw [hq']; exact List.mem_cons_self
    obtain ⟨t, ht, hserves, hnext⟩ := hready.dispatch hy hstate
    have hhead := hserves.head hy
    rw [hq'] at hhead
    obtain ⟨hcurr, hrest⟩ := List.cons.inj hhead
    rw [← hcurr] at hserves hnext hrest
    refine ⟨_, _, ?_, hrun.snoc hserves, hnext, hrest.symm⟩
    rw [List.length_append, List.length_singleton, dispatches, hs, Option.bind_some, ht, Option.map_some,
      ← hcurr]

/-- The task that calls `schedule` stays in its queue, or is in none for `SCHED_SHORT`. -/
theorem ready_of_running (h : rq.Ok) (hno : rq.RtFree) (hidle : (rq.tasks rq.idle).policy ≠ .short)
    (hrun : (rq.tasks rq.curr).state = .running ∨ (rq.tasks rq.curr).policy ≠ .short) :
    Ready now rq rq.shortQueues := by
  refine ⟨h, hno, hidle, fun d hd => ?_⟩
  by_cases hst : rq.Stays false
  · exact (deactivatePrev_shortQueues h hd).1 hst
  · have hpol : (rq.tasks rq.curr).policy ≠ .short := hrun.resolve_left fun hr => hst (Or.inl hr)
    rw [(deactivatePrev_shortQueues h hd).2 hst]
    refine h.shortHolds.remove_eq ?_
    by_contra hne
    obtain ⟨i, hi⟩ := Option.ne_none_iff_exists'.mp hne
    exact hpol (short_of_placed h hi).1

theorem dispatches_place (h : rq.Ok) (hp : p ∈ rq.shortOrder) (hready : Ready now rq rq.shortQueues)
    (hstate : state ≠ .running) : ∃ ps s, p ∉ ps ∧
      rq.dispatches now state (ps.length + 1) = some (ps ++ [p], s) ∧
      rq.shortOrder.idxOf p = ps.length := by
  obtain ⟨ps, l, hl⟩ := List.append_of_mem hp
  have hps : p ∉ ps := by
    have hn : (ps ++ p :: l).Nodup := hl ▸ h.shortHolds.order_nodup (prios_nodup 140)
    exact fun hm => (List.nodup_append.mp hn).2.2 p hm p List.mem_cons_self rfl
  obtain ⟨s, q, hdis, -, hnext, hq⟩ := dispatches_ready hready hstate hl
  have hx : p ∈ order (prios 140) q := by
    rw [hq]
    exact List.mem_cons_self
  obtain ⟨t, ht, hserves, -⟩ := hnext.dispatch hx hstate
  have hcurr : p = t.curr := (List.cons.inj (hq.symm.trans (hserves.head hx))).1
  refine ⟨ps, t.setTask t.curr { t.tasks t.curr with state := state }, hps, ?_, ?_⟩
  · rw [dispatches, hdis, Option.bind_some, ht, Option.map_some, ← hcurr]
  · rw [hl, List.idxOf_append_of_notMem hps, List.idxOf_cons_self, Nat.add_zero]

/-- The idle task is `SCHED_OTHER` in every state of a run. -/
theorem idle_not_short {boot : ℕ} {es : List (ℕ × Event)} (hrun : Run (Step c) (schedInit c boot) es rq) :
    (rq.tasks rq.idle).policy ≠ .short := by
  simp [(poised_run hrun).idlePolicy]

/-- A process on the array is dispatched after the tasks that are counted, whatever happens
between the calls of `schedule`, and a process that sleeps is put behind them. The second form runs
`schedule` itself. Of the conditions that it adds, the one on the idle task holds in every state of a
run (`idle_not_short`), and the current task is `TASK_RUNNING` while it makes the system call. -/
theorem sysShortPlaceInQueue_agrees (h : rq.Ok) (hp : rq.hashed p = true)
    (hs : (rq.tasks p).policy = .short) (hc : p ≠ rq.curr) :
    ((rq.tasks p).array = some rq.shortPr →
      (∀ ps q, Run Serves rq.shortQueues (ps ++ [p]) q → p ∉ ps →
        rq.sysShortPlaceInQueue p = ps.length ∧ ps.Nodup ∧ ∀ r ∈ ps, (rq.tasks r).policy = .short) ∧
      (rq.RtFree → (rq.tasks rq.idle).policy ≠ .short →
        (rq.tasks rq.curr).state = .running ∨ (rq.tasks rq.curr).policy ≠ .short →
        ∀ now state, state ≠ .running → ∃ ps s, p ∉ ps ∧
          rq.dispatches now state (ps.length + 1) = some (ps ++ [p], s) ∧
          rq.sysShortPlaceInQueue p = ps.length)) ∧
    ((rq.tasks p).array = none → ∀ c jiffies,
      (rq.tryToWakeUp c jiffies p).2.sysShortPlaceInQueue p = rq.sysShortPlaceInQueue p) := by
  refine ⟨fun hA => ?_, fun hA c jiffies => sysShortPlaceInQueue_woken h hA hs hp hc⟩
  have hplace := sysShortPlaceInQueue_queued h hA hs hp hc
  have hmem := shortOrder_of_queued h hA hs
  refine ⟨fun ps q hrun hps => ?_, fun hno hidle hrun now state hstate => ?_⟩
  · obtain ⟨hidx, hrest⟩ := place_of_serves h hmem hrun hps
    rw [hplace, hidx]
    exact ⟨rfl, hrest⟩
  · obtain ⟨ps, s, hps, hdis, hidx⟩ :=
      dispatches_place h hmem (ready_of_running h hno hidle hrun) hstate
    exact ⟨ps, s, hps, hdis, by rw [hplace, hidx]⟩

/-- Whether a real-time task is runnable can be read off the bitmap. -/
theorem rtFree_of_bitmap (h : rq.Ok) (hb : ∀ i ∈ prios 100, (rq.arrays rq.active).bitmap i = false) :
    rq.RtFree := by
  rintro ⟨r, hrun, hrt⟩
  have hplace := placed_of_rt h hrun hrt
  have hmem := (h.arrays rq.active).range r _ hplace
  have hbit := ((h.arrays rq.active).bits _ hmem).mpr ((h.arrays rq.active).queues.ne_nil_iff.mpr ⟨r, hplace⟩)
  rw [hb _ (mem_prios.mpr ⟨(Finset.mem_Ico.mp hmem).1, hrt.2⟩)] at hbit
  cases hbit

/-- The first process starts two others and makes both `SCHED_SHORT`, with the same priority. -/
def sampleShorts : List (ℕ × Event) :=
  [(0, .doFork (.ok 1) false), (1, .initIdle), (1, .schedule false), (2, .doFork (.ok 2) false),
    (2, .doFork (.ok 3) false), (3, .setscheduler 2 schedShort (.readable ⟨0, 20, 7⟩)),
    (3, .setscheduler 3 schedShort (.readable ⟨0, 20, 7⟩))]

theorem sample_shorts :
    (Run.exec (next sampleClock) (schedInit sampleClock 0) sampleShorts).isSome = true := by
  decide +kernel

def sampleQueued : Runqueue :=
  (Run.exec (next sampleClock) (schedInit sampleClock 0) sampleShorts).get sample_shorts

theorem sampleQueued_run : Run (Step sampleClock) (schedInit sampleClock 0) sampleShorts sampleQueued :=
  Run.of_exec (fun _ _ _ => step_of_next) (Option.some_get sample_shorts).symm

theorem sampleQueued_ok : sampleQueued.Ok := ok_run sampleQueued_run

theorem sysShortPlaceInQueue_agrees_sample : sampleQueued.sysShortPlaceInQueue 3 = 1 ∧
    ∃ ps s, 3 ∉ ps ∧ sampleQueued.dispatches 4 .interruptible (ps.length + 1) = some (ps ++ [3], s) ∧
      sampleQueued.sysShortPlaceInQueue 3 = ps.length := by
  have hp : sampleQueued.hashed 3 = true := by decide +kernel
  have hs : (sampleQueued.tasks 3).policy = .short := by decide +kernel
  have hc : 3 ≠ sampleQueued.curr := by decide +kernel
  have hA : (sampleQueued.tasks 3).array = some sampleQueued.shortPr := by decide +kernel
  have hno : sampleQueued.RtFree := rtFree_of_bitmap sampleQueued_ok (by decide +kernel)
  have hidle := idle_not_short sampleQueued_run
  have hrun : (sampleQueued.tasks sampleQueued.curr).state = .running := by decide +kernel
  exact ⟨by decide +kernel,
    ((sysShortPlaceInQueue_agrees sampleQueued_ok hp hs hc).1 hA).2 hno hidle (Or.inl hrun) 4
      .interruptible (by simp)⟩

end Runqueue

end OperationSystems.Sched
