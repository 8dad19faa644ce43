import OperationSystems.Sched.Invariant
import OperationSystems.Sched.Frame

/-!
# Waking, ticking and renicing

The functions that move a task within the queues keep the invariant. In each of
them the array that the code takes the task out of is the one that it is in,
and the priority is changed while the task is on no queue.
-/

namespace OperationSystems.Sched
open PrioArray

namespace Task
variable {t : Task} {c : Clock}

theorem effectivePrio_mem (h : t.policy ≠ .short) :
    maxRtPrio ≤ t.effectivePrio c ∧ t.effectivePrio c < maxPrio := by
  simp only [effectivePrio, if_neg h, maxRtPrio, maxPrio]
  split_ifs <;> omega

theorem Valid.policy_other (h : t.Valid) (hrt : ¬ t.Rt) (hs : t.policy ≠ .short) :
    t.policy = .other := by
  have hprio : ¬ t.prio < maxRtPrio := fun hp => hrt ⟨hs, hp⟩
  cases hp : t.policy with
  | other => rfl
  | short => exact absurd hp hs
  | fifo => exact absurd (h.rt (Or.inl hp)).2 hprio
  | rr => exact absurd (h.rt (Or.inr hp)).2 hprio

theorem Valid.not_rt (h : t.Valid) (hp : t.policy = .other) : ¬ t.Rt := by
  rintro ⟨-, hrt⟩
  have h1 := (h.other hp).1
  omega

/-- A task of `SCHED_OTHER` whose priorities are in range. -/
theorem valid_other (hp : t.policy = .other) (hs : maxRtPrio ≤ t.staticPrio ∧ t.staticPrio < maxPrio)
    (h : maxRtPrio ≤ t.prio ∧ t.prio < maxPrio) : t.Valid :=
  ⟨hs, fun _ => h, by simp [hp], by simp [hp]⟩

/-- Two tasks that differ only in fields that no queue depends on. -/
structure Alike (t u : Task) : Prop where
  state : u.state = t.state
  policy : u.policy = t.policy
  prio : u.prio = t.prio
  staticPrio : u.staticPrio = t.staticPrio
  array : u.array = t.array
  shortPrio : u.shortPrio = t.shortPrio

theorem Alike.rt {u : Task} (h : t.Alike u) : u.Rt ↔ t.Rt := by
  simp only [Rt, h.policy, h.prio]

theorem Alike.queuePrio {u : Task} (h : t.Alike u) : u.queuePrio = t.queuePrio := by
  simp only [Task.queuePrio, h.policy, h.prio, h.shortPrio]

theorem Alike.valid {u : Task} (h : t.Alike u) (hv : t.Valid) : u.Valid := by
  refine ⟨?_, ?_, ?_, ?_⟩
  · rw [h.staticPrio]
    exact hv.staticPrio
  · rw [h.policy, h.prio]
    exact hv.other
  · rw [h.policy, h.prio]
    exact hv.rt
  · rw [h.policy, h.shortPrio]
    exact hv.short

/-- The priority of a task that is not real-time is computed anew. -/
def reprioritized (c : Clock) (t : Task) : Task := { t with prio := t.effectivePrio c }

theorem Valid.reprioritized (h : t.Valid) (hrt : ¬ t.Rt) : (t.reprioritized c).Valid := by
  by_cases hs : t.policy = .short
  · refine ⟨h.staticPrio, ?_, ?_, fun _ => h.short hs⟩ <;>
    · intro hp
      simp [Task.reprioritized, hs] at hp
  · exact valid_other (h.policy_other hrt hs) h.staticPrio (effectivePrio_mem hs)

end Task

namespace Runqueue
variable {rq : Runqueue} {p q : ℕ} {d : ℤ} {t : Task} {A B : Fin 3} {x : Option ℕ} {c : Clock}
  {jiffies : ℕ}

theorem belongs_active (h : rq.Inv x d) (hs : t.policy ≠ .short) : rq.Belongs t rq.active :=
  ⟨iff_of_false hs h.distinct.2.1, fun _ => rfl⟩

theorem belongs_short (hs : t.policy = .short) : rq.Belongs t rq.shortPr :=
  ⟨iff_of_true hs rfl, fun hrt => absurd hs hrt.1⟩

theorem belongs_expired (h : rq.Inv x d) (hs : t.policy ≠ .short) (hrt : ¬ t.Rt) :
    rq.Belongs t rq.expired :=
  ⟨iff_of_false hs h.distinct.2.2, fun h => absurd h hrt⟩

theorem ok_setAlike (h : rq.Ok) (ht : (rq.tasks p).Alike t) : (rq.setTask p t).Ok := by
  refine h.setSame ht.array ht.queuePrio (fun A hb => ?_) ht.valid fun hp => ?_
  · exact ⟨by rw [ht.policy]; exact hb.1, fun hrt => hb.2 (ht.rt.mp hrt)⟩
  · rw [ht.state, hp]
    exact h.idleRunning

theorem ok_reschedTask (h : rq.Ok) (p : ℕ) : (rq.reschedTask p).Ok :=
  ok_setAlike h ⟨rfl, rfl, rfl, rfl, rfl, rfl⟩

/-- The fields of a task when `activate_task` puts it into its queue. -/
def awake (c : Clock) (jiffies : ℕ) (t : Task) : Task :=
  let sleepTime := sub32 jiffies t.sleepTimestamp
  if ¬ t.Rt ∧ sleepTime ≠ 0 ∧ t.policy ≠ .short then
    let sleepAvg := add32 t.sleepAvg sleepTime
    let sleepAvg := if sleepAvg > 2 * c.hz then 2 * c.hz else sleepAvg
    let t := { t with sleepAvg := sleepAvg }
    { t with prio := t.effectivePrio c }
  else t

/-- The array for which a task is activated. -/
def arrayFor (rq : Runqueue) (t : Task) : Fin 3 :=
  if t.policy = .short then rq.shortPr else rq.active

theorem activateTask_eq (rq : Runqueue) (p : ℕ) :
    rq.activateTask c jiffies p =
      { ((rq.setTask p (awake c jiffies (rq.tasks p))).enqueueTask p (rq.arrayFor (rq.tasks p))) with
        nrRunning := rq.nrRunning + 1 } := rfl

theorem awake_state : (awake c jiffies t).state = t.state := by
  simp only [awake]
  split_ifs <;> rfl

theorem awake_policy : (awake c jiffies t).policy = t.policy := by
  simp only [awake]
  split_ifs <;> rfl

theorem awake_valid (h : t.Valid) : (awake c jiffies t).Valid := by
  simp only [awake]
  by_cases hc : ¬ t.Rt ∧ sub32 jiffies t.sleepTimestamp ≠ 0 ∧ t.policy ≠ .short
  · rw [if_pos hc]
    exact Task.valid_other (h.policy_other hc.1 hc.2.2) h.staticPrio
      (Task.effectivePrio_mem hc.2.2)
  · rw [if_neg hc]
    exact h

theorem ok_activateTask (h : rq.Inv (some p) 0) (hv : (rq.tasks p).Valid)
    (hk : rq.hashed p = true ∨ p = rq.idle) : (rq.activateTask c jiffies p).Ok := by
  have hidle : p = rq.idle → (awake c jiffies (rq.tasks p)).state = .running := by
    rintro rfl
    rw [awake_state]
    exact h.idleRunning
  have hs := h.setTask (awake c jiffies (rq.tasks p)) hidle
  have hb : rq.Belongs (awake c jiffies (rq.tasks p)) (rq.arrayFor (rq.tasks p)) := by
    unfold arrayFor
    split_ifs with hp
    · exact belongs_short (awake_policy.trans hp)
    · exact belongs_active h (by rwa [awake_policy])
  have he := (hs.enqueueTask (A := rq.arrayFor (rq.tasks p)) (by rwa [setTask_tasks_self])
    (by rw [setTask_tasks_self]; exact awake_valid hv) hk).count 1
  rw [activateTask_eq]
  exact he

/-- `try_to_wake_up` and the system calls set fields that do not matter here. -/
theorem ok_setState (h : rq.Ok) (state : TaskState) (hp : p = rq.idle → state = .running) :
    (rq.setTask p { rq.tasks p with state := state }).Ok :=
  h.setSame rfl rfl (fun _ hb => hb) (fun hv => ⟨hv.staticPrio, hv.other, hv.rt, hv.short⟩) hp

theorem ok_tryToWakeUp (h : rq.Ok) (hv : (rq.tasks p).Valid) (hk : rq.hashed p = true ∨ p = rq.idle) :
    (rq.tryToWakeUp c jiffies p).2.Ok := by
  unfold tryToWakeUp
  by_cases ha : (rq.tasks p).array = none
  · have hw := @ok_activateTask rq p c jiffies (h.leave ha) hv hk
    simp only [if_pos ha]
    refine ok_setState ?_ .running fun _ => rfl
    split_ifs
    · exact ok_reschedTask hw _
    · exact ok_reschedTask hw _
    · exact hw
  · simp only [if_neg ha]
    exact ok_setState h .running fun _ => rfl

/-- A task that is on no queue can change in every field. -/
theorem ok_setOff (h : rq.Ok) (ha : (rq.tasks p).array = none) (ht : t.array = none)
    (hv : rq.hashed p = true → t.Valid) (hidle : p = rq.idle → t.state = .running) :
    (rq.setTask p t).Ok := by
  refine ((h.leave ha).setTask t hidle).settle (by simpa using ht) ?_ ?_
  · rwa [setTask_tasks_self]
  · intro hc
    by_contra hp
    exact (h.curr fun he => hp (hc.symm.trans he)).2 (by simp) (hc ▸ ha)

/-- The change of the sleep averages in `wake_up_forked_process`. -/
def penalize (c : Clock) (rq : Runqueue) (p : ℕ) : Runqueue :=
  if ¬ (rq.tasks p).Rt then
    let rq := rq.setTask rq.curr { rq.tasks rq.curr with
      sleepAvg := (rq.tasks rq.curr).sleepAvg * 100 % 2 ^ 32 / 100 }
    rq.setTask p (Task.reprioritized c { rq.tasks p with
      sleepAvg := (rq.tasks p).sleepAvg * 95 % 2 ^ 32 / 100 })
  else rq

theorem wakeUpForkedProcess_eq (rq : Runqueue) (p : ℕ) :
    rq.wakeUpForkedProcess c jiffies p =
      (penalize c (rq.setTask p { rq.tasks p with state := .running }) p).activateTask c jiffies p :=
  rfl

theorem setSleepAvg_tasks (rq : Runqueue) (q p m : ℕ) :
    ∃ n, (rq.setTask q { rq.tasks q with sleepAvg := m }).tasks p = { rq.tasks p with sleepAvg := n } := by
  by_cases hp : p = q
  · subst hp
    exact ⟨m, setTask_tasks_self _ _ _⟩
  · exact ⟨(rq.tasks p).sleepAvg, setTask_tasks_of_ne _ _ hp⟩

theorem ok_penalize (h : rq.Ok) (hp : rq.hashed p = true) (ha : (rq.tasks p).array = none) :
    (penalize c rq p).Ok ∧ (penalize c rq p).hashed p = true ∧
      ((penalize c rq p).tasks p).array = none := by
  unfold penalize
  by_cases hrt : (rq.tasks p).Rt
  · rw [if_neg (not_not.mpr hrt)]
    exact ⟨h, hp, ha⟩
  · rw [if_pos hrt]
    have h₁ : (rq.setTask rq.curr { rq.tasks rq.curr with
        sleepAvg := (rq.tasks rq.curr).sleepAvg * 100 % 2 ^ 32 / 100 }).Ok :=
      ok_setAlike h ⟨rfl, rfl, rfl, rfl, rfl, rfl⟩
    obtain ⟨n, hn⟩ := setSleepAvg_tasks rq rq.curr p ((rq.tasks rq.curr).sleepAvg * 100 % 2 ^ 32 / 100)
    have hv := h.valid p (by simp) (Or.inl hp)
    dsimp only
    rw [hn]
    refine ⟨ok_setOff h₁ (by rw [hn]; exact ha) ha (fun _ => ?_) fun hidle => ?_, hp, ?_⟩
    · exact Task.Valid.reprioritized ⟨hv.staticPrio, hv.other, hv.rt, hv.short⟩ hrt
    · have hidle : p = rq.idle := hidle
      rw [hidle, h.idleUnhashed] at hp
      cases hp
    · rw [setTask_tasks_self]
      exact ha

theorem ok_wakeUpForkedProcess (h : rq.Ok) (hp : rq.hashed p = true)
    (ha : (rq.tasks p).array = none) : (rq.wakeUpForkedProcess c jiffies p).Ok := by
  have h₁ := ok_setState (p := p) h .running fun _ => rfl
  obtain ⟨h₂, hp₂, ha₂⟩ := ok_penalize (c := c) h₁ hp (by simpa using ha)
  exact ok_activateTask (h₂.leave ha₂) (h₂.valid p (by simp) (Or.inl hp₂)) (Or.inl hp₂)

/-- A task is taken out of its queue, changed and put into another one. -/
theorem ok_requeue (h : rq.Ok) (hA : (rq.tasks p).array = some A) (hb : rq.Belongs t B)
    (hv : t.Valid) (hidle : p = rq.idle → t.state = .running) :
    (((rq.dequeueTask p A).setTask p t).enqueueTask p B).Ok := by
  have hd := h.dequeueTask hA
  rw [dequeueTask_eq h hA] at hd ⊢
  have hk := h.known p (by simp) (by simp [hA])
  have he := (hd.setTask t hidle).enqueueTask (A := B) (by rwa [setTask_tasks_self])
    (by rwa [setTask_tasks_self]) hk
  simpa using he

theorem ok_expiredTimestamp (h : rq.Ok) (n : ℕ) : Ok { rq with expiredTimestamp := n } :=
  ⟨h.arrays, h.distinct, h.running, h.belongs, h.valid, h.known, h.idleUnhashed, h.idleRunning, h.curr⟩

theorem array_active (h : rq.Ok) (hA : (rq.tasks p).array = some A) (hs : (rq.tasks p).policy ≠ .short)
    (hm : A = rq.active ∨ A = rq.shortPr) : A = rq.active :=
  hm.resolve_right fun he => hs ((h.belongs p A (by simp) hA).1.mpr he)

/-- A task goes to the end of its queue. -/
theorem ok_rotate (h : rq.Ok) (hA : (rq.tasks p).array = some A) :
    ((rq.dequeueTask p A).enqueueTask p A).Ok := by
  have hv := h.valid p (by simp) (Or.inr (by simp [hA]))
  have hb := h.belongs p A (by simp) hA
  have hr := ok_requeue (p := p) (t := rq.tasks p) h hA hb hv fun hp => hp ▸ h.idleRunning
  rwa [show (rq.dequeueTask p A).setTask p (rq.tasks p) = rq.dequeueTask p A by
    rw [← (dequeueTask_same rq p A).2.2]
    simp [setTask]] at hr

/-- The fields of a `SCHED_RR` task that goes to the end of its queue. -/
def rotated (c : Clock) (t : Task) : Task :=
  { t with
    timeSlice := Task.timesliceOf c { t with timeSlice := sub32 t.timeSlice 1 }
    needResched := true }

theorem tickRt_eq (rq : Runqueue) (p : ℕ) :
    rq.tickRt c p =
      if (rq.tasks p).policy = .rr then
        if sub32 (rq.tasks p).timeSlice 1 = 0 then
          ((rq.setTask p (rotated c (rq.tasks p))).dequeueTask p rq.active).enqueueTask p rq.active
        else rq.setTask p { rq.tasks p with timeSlice := sub32 (rq.tasks p).timeSlice 1 }
      else rq := by
  unfold tickRt
  by_cases hrr : (rq.tasks p).policy = .rr
  · by_cases hz : sub32 (rq.tasks p).timeSlice 1 = 0
    · simp only [if_pos hrr, if_pos hz, setTask_setTask]
      rfl
    · simp only [if_pos hrr, if_neg hz]
  · simp only [if_neg hrr]

theorem ok_tickRt (h : rq.Ok) (hA : (rq.tasks p).array = some rq.active) :
    (rq.tickRt c p).Ok := by
  rw [tickRt_eq]
  split_ifs
  · have h₁ : (rq.setTask p (rotated c (rq.tasks p))).Ok := ok_setAlike h ⟨rfl, rfl, rfl, rfl, rfl, rfl⟩
    exact ok_rotate h₁ ((congrArg Task.array (setTask_tasks_self rq p _)).trans hA)
  · exact ok_setAlike h ⟨rfl, rfl, rfl, rfl, rfl, rfl⟩
  · exact h

/-- The fields of a task when its time of `SCHED_SHORT` is over. -/
def demoted (c : Clock) (t : Task) : Task :=
  let t := { t with
    policy := .other
    staticPrio := if t.staticPrio + 7 < maxPrio - 1 then t.staticPrio + 7 else maxPrio - 1
    sleepAvg := c.hz
    needResched := true }
  let t := { t with prio := t.effectivePrio c }
  { t with timeSlice := t.timesliceOf c }

theorem demoted_valid (h : t.Valid) : (demoted c t).Valid := by
  have hs := h.staticPrio
  refine Task.valid_other rfl ?_ ?_
  · simp only [demoted, maxRtPrio, maxPrio] at hs ⊢
    split_ifs <;> omega
  · simp only [demoted]
    refine Task.effectivePrio_mem ?_
    simp

theorem tickShort_eq (rq : Runqueue) (p : ℕ) :
    rq.tickShort c p =
      let t := { rq.tasks p with timeLeft := sub32 (rq.tasks p).timeLeft 1 }
      if sub32 (rq.tasks p).timeLeft 1 = 0 then
        (((rq.setTask p t).dequeueTask p rq.shortPr).setTask p (demoted c t)).enqueueTask p rq.active
      else rq.setTask p t := by
  simp only [tickShort, (dequeueTask_same _ _ _).1]
  rfl

theorem ok_tickShort (h : rq.Ok) (hA : (rq.tasks p).array = some rq.shortPr) :
    (rq.tickShort c p).Ok := by
  have h₁ : (rq.setTask p { rq.tasks p with timeLeft := sub32 (rq.tasks p).timeLeft 1 }).Ok :=
    ok_setAlike h ⟨rfl, rfl, rfl, rfl, rfl, rfl⟩
  have hv := h₁.valid p (by simp) (Or.inr (by simp [hA]))
  rw [setTask_tasks_self] at hv
  rw [tickShort_eq]
  dsimp only
  split_ifs
  · refine ok_requeue h₁ (by simpa using hA) (belongs_active h₁ (by simp [demoted]))
      (demoted_valid hv) fun hp => ?_
    obtain rfl : p = rq.idle := hp
    exact h.idleRunning
  · exact h₁

/-- The fields of a task of `SCHED_OTHER` after a tick. -/
def aged (t : Task) : Task :=
  { t with
    sleepAvg := if t.sleepAvg ≠ 0 then t.sleepAvg - 1 else t.sleepAvg
    timeSlice := sub32 t.timeSlice 1 }

/-- The fields of a task when its time slice is over. -/
def refilled (c : Clock) (t : Task) : Task :=
  { t with needResched := true, prio := t.effectivePrio c, timeSlice := t.timesliceOf c }

/-- The runqueue while a task whose time slice is over is on no queue. -/
def sliceOver (c : Clock) (rq : Runqueue) (p : ℕ) : Runqueue :=
  ((rq.setTask p (aged (rq.tasks p))).dequeueTask p rq.active).setTask p
    (refilled c (aged (rq.tasks p)))

theorem tickOther_eq (rq : Runqueue) (p : ℕ) :
    rq.tickOther c jiffies p =
      if sub32 (rq.tasks p).timeSlice 1 = 0 then
        if ¬ (refilled c (aged (rq.tasks p))).Interactive ∨
            ExpiredStarving c jiffies (sliceOver c rq p) then
          let rq := if (sliceOver c rq p).expiredTimestamp = 0 then
            { sliceOver c rq p with expiredTimestamp := jiffies } else sliceOver c rq p
          rq.enqueueTask p rq.expired
        else (sliceOver c rq p).enqueueTask p (sliceOver c rq p).active
      else rq.setTask p (aged (rq.tasks p)) := rfl

theorem expire_eq (r : Runqueue) (p n : ℕ) (P Q : Prop) [Decidable P] [Decidable Q] :
    ∃ m B, (B = r.active ∨ B = r.expired) ∧
      (if P then
        let r := if Q then { r with expiredTimestamp := n } else r
        r.enqueueTask p r.expired
      else r.enqueueTask p r.active : Runqueue) = { r.enqueueTask p B with expiredTimestamp := m } := by
  dsimp only
  split_ifs
  · exact ⟨n, r.expired, Or.inr rfl, rfl⟩
  · exact ⟨r.expiredTimestamp, r.expired, Or.inr rfl, rfl⟩
  · exact ⟨r.expiredTimestamp, r.active, Or.inl rfl, rfl⟩

theorem tickOther_cases (rq : Runqueue) (p : ℕ) :
    rq.tickOther c jiffies p = rq.setTask p (aged (rq.tasks p)) ∨
      ∃ n B, (B = rq.active ∨ B = rq.expired) ∧
        rq.tickOther c jiffies p =
          { (sliceOver c rq p).enqueueTask p B with expiredTimestamp := n } := by
  by_cases hz : sub32 (rq.tasks p).timeSlice 1 = 0
  · obtain ⟨ha, he, -⟩ := dequeueTask_same (rq.setTask p (aged (rq.tasks p))) p rq.active
    obtain ⟨n, B, hB, heq⟩ := expire_eq (sliceOver c rq p) p jiffies
      (¬ (refilled c (aged (rq.tasks p))).Interactive ∨ ExpiredStarving c jiffies (sliceOver c rq p))
      ((sliceOver c rq p).expiredTimestamp = 0)
    refine Or.inr ⟨n, B, ?_, ((tickOther_eq rq p).trans (if_pos hz)).trans heq⟩
    rcases hB with rfl | rfl
    · exact Or.inl ha
    · exact Or.inr he
  · exact Or.inl ((tickOther_eq rq p).trans (if_neg hz))

theorem ok_tickOther (h : rq.Ok) (hA : (rq.tasks p).array = some rq.active)
    (hs : (rq.tasks p).policy ≠ .short) (hrt : ¬ (rq.tasks p).Rt) :
    (rq.tickOther c jiffies p).Ok := by
  have h₁ : (rq.setTask p (aged (rq.tasks p))).Ok := ok_setAlike h ⟨rfl, rfl, rfl, rfl, rfl, rfl⟩
  have hv := h.valid p (by simp) (Or.inr (by simp [hA]))
  have hu : (refilled c (aged (rq.tasks p))).Valid :=
    Task.valid_other (hv.policy_other hrt hs) hv.staticPrio (Task.effectivePrio_mem hs)
  rcases @tickOther_cases c jiffies rq p with heq | ⟨n, B, hB, heq⟩
  · rw [heq]
    exact h₁
  · rw [heq]
    refine ok_expiredTimestamp (ok_requeue h₁ ?_ ?_ hu fun hp => ?_) n
    · exact (congrArg Task.array (setTask_tasks_self rq p _)).trans hA
    · rcases hB with rfl | rfl
      · exact belongs_active h₁ hs
      · exact belongs_expired h₁ hs (hu.not_rt (hv.policy_other hrt hs))
    · obtain rfl : p = rq.idle := hp
      exact h.idleRunning

theorem ok_schedulerTick (h : rq.Ok) : (rq.schedulerTick c jiffies).Ok := by
  unfold schedulerTick
  dsimp only
  split_ifs with hi hA hrt hs
  · exact h
  · exact ok_reschedTask h _
  all_goals
    obtain ⟨A, hcurr⟩ := Option.ne_none_iff_exists'.mp ((h.curr hi).2 (by simp))
    have hm : A = rq.active ∨ A = rq.shortPr := by
      by_contra hn
      exact hA ⟨fun he => hn (Or.inl (Option.some.inj (hcurr.symm.trans he))),
        fun he => hn (Or.inr (Option.some.inj (hcurr.symm.trans he)))⟩
  · obtain rfl := array_active h hcurr hrt.1 hm
    exact ok_tickRt h hcurr
  · obtain rfl := (h.belongs _ A (by simp) hcurr).1.mp hs
    exact ok_tickShort h hcurr
  · obtain rfl := array_active h hcurr hs hm
    exact ok_tickOther h hcurr hs hrt

end Runqueue

end OperationSystems.Sched
