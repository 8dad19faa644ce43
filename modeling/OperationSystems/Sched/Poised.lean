import OperationSystems.Sched.Params
import OperationSystems.Sched.Rank

/-!
# `need_resched` of an expired task

A tick that moves the current task to the expired array sets its
`need_resched`, nothing but `schedule` clears it, and `schedule` never picks an
expired task. So the current task is not found in the expired array with
`need_resched` clear, in any state of a run.
-/

namespace OperationSystems.Sched
open Transition

namespace Runqueue
variable {rq rq' rq'' : Runqueue} {p q : ℕ} {t : Task} {A B : Fin 3} {c : Clock} {jiffies : ℕ}
  {e : Event} {es : List (ℕ × Event)}

/-- The current task stays, and does not get into the expired array without `need_resched`. -/
structure Heeds (rq rq' : Runqueue) : Prop where
  idle : rq'.idle = rq.idle
  curr : rq'.curr = rq.curr
  expired : rq'.expired = rq.expired
  flag : (rq'.tasks rq.curr).needResched = true ∨ (rq'.tasks rq.curr).array ≠ some rq.expired ∨
    (rq'.tasks rq.curr).array = (rq.tasks rq.curr).array ∧
      (rq'.tasks rq.curr).needResched = (rq.tasks rq.curr).needResched

namespace Heeds

theorem refl (rq : Runqueue) : Heeds rq rq := ⟨rfl, rfl, rfl, Or.inr (Or.inr ⟨rfl, rfl⟩)⟩

theorem trans (h : Heeds rq rq') (h' : Heeds rq' rq'') : Heeds rq rq'' := by
  have hf := h'.flag
  rw [h.curr, h.expired] at hf
  refine ⟨h'.idle.trans h.idle, h'.curr.trans h.curr, h'.expired.trans h.expired, ?_⟩
  rcases hf with hf | hf | ⟨ha, hn⟩
  · exact Or.inl hf
  · exact Or.inr (Or.inl hf)
  · rw [ha, hn]
    exact h.flag

theorem of_only (h : Only p rq rq') (he : rq'.expired = rq.expired)
    (hf : p = rq.curr → (rq'.tasks p).needResched = true ∨ (rq'.tasks p).array ≠ some rq.expired ∨
      (rq'.tasks p).array = (rq.tasks p).array ∧
        (rq'.tasks p).needResched = (rq.tasks p).needResched) : Heeds rq rq' := by
  refine ⟨h.idle, h.curr, he, ?_⟩
  by_cases hp : p = rq.curr
  · subst hp
    exact hf rfl
  · rw [h.tasks _ (Ne.symm hp)]
    exact Or.inr (Or.inr ⟨rfl, rfl⟩)

/-- A task changes in other fields. -/
theorem setTask (ha : t.array = (rq.tasks p).array)
    (hn : t.needResched = (rq.tasks p).needResched) : Heeds rq (rq.setTask p t) := by
  refine of_only (.setTask rq p t) rfl fun _ => Or.inr (Or.inr ?_)
  rw [setTask_tasks_self]
  exact ⟨ha, hn⟩

theorem reschedTask (rq : Runqueue) (p : ℕ) : Heeds rq (rq.reschedTask p) := by
  refine of_only (.setTask rq p _) rfl fun _ => Or.inl ?_
  rw [Runqueue.reschedTask, setTask_tasks_self]

/-- At the end the current task is told to reschedule. -/
theorem last (h : Only p rq rq') (he : rq'.expired = rq.expired) :
    Heeds rq (rq'.reschedTask rq'.curr) := by
  refine ⟨h.idle, h.curr, he, Or.inl ?_⟩
  rw [Runqueue.reschedTask, h.curr, setTask_tasks_self]

end Heeds

theorem dequeueTask_expired (rq : Runqueue) (p : ℕ) (A : Fin 3) :
    (rq.dequeueTask p A).expired = rq.expired := (dequeueTask_same rq p A).2.1

theorem enqueueTask_expired (rq : Runqueue) (p : ℕ) (A : Fin 3) :
    (rq.enqueueTask p A).expired = rq.expired := rfl

theorem setTask_expired (rq : Runqueue) (p : ℕ) (t : Task) : (rq.setTask p t).expired = rq.expired := rfl

theorem requeue_expired (rq : Runqueue) (p : ℕ) (t : Task) (A B : Fin 3) :
    (((rq.dequeueTask p A).setTask p t).enqueueTask p B).expired = rq.expired := by
  rw [enqueueTask_expired, setTask_expired, dequeueTask_expired]

theorem enqueueTask_self (rq : Runqueue) (p : ℕ) (A : Fin 3) :
    (rq.enqueueTask p A).tasks p = { rq.tasks p with array := some A } := by
  rw [enqueueTask_eq, setTask_tasks_self]

theorem arrayFor_ne (h : rq.Ok) (t : Task) : rq.arrayFor t ≠ rq.expired := by
  unfold arrayFor
  split_ifs
  · exact h.distinct.2.2.symm
  · exact h.distinct.1

theorem activateTask_self (rq : Runqueue) (p : ℕ) :
    (rq.activateTask c jiffies p).tasks p =
      { awake c jiffies (rq.tasks p) with array := some (rq.arrayFor (rq.tasks p)) } := by
  rw [activateTask_eq]
  change (((rq.setTask p _).enqueueTask p _).tasks p) = _
  rw [enqueueTask_self, setTask_tasks_self]

theorem activateTask_heeds (rq : Runqueue) (p : ℕ)
    (hd : rq.arrayFor (rq.tasks p) ≠ rq.expired) : Heeds rq (rq.activateTask c jiffies p) := by
  refine .of_only (only_activateTask rq p) rfl fun _ => Or.inr (Or.inl ?_)
  rw [activateTask_self]
  simpa using hd

theorem deactivateTask_heeds (rq : Runqueue) (p : ℕ) (A : Fin 3) :
    Heeds rq (rq.deactivateTask p A) := by
  obtain ⟨n, arrays, he⟩ := deactivateTask_arrays rq p A
  refine .of_only (only_deactivateTask rq p A) (by rw [he]; rfl) fun _ => Or.inr (Or.inl ?_)
  rw [he, setTask_tasks_self]
  simp

theorem tryToWakeUp_heeds (h : rq.Ok) (p : ℕ) : Heeds rq (rq.tryToWakeUp c jiffies p).2 := by
  have ha := @activateTask_heeds c jiffies rq p (arrayFor_ne h _)
  unfold tryToWakeUp
  dsimp only
  split_ifs
  · exact (ha.trans (.reschedTask _ _)).trans (.setTask rfl rfl)
  · exact (ha.trans (.reschedTask _ _)).trans (.setTask rfl rfl)
  · exact ha.trans (.setTask rfl rfl)
  · exact .setTask rfl rfl

theorem penalize_heeds (rq : Runqueue) (p : ℕ) : Heeds rq (penalize c rq p) := by
  have h₁ : ∀ n, Heeds rq (rq.setTask rq.curr { rq.tasks rq.curr with sleepAvg := n }) :=
    fun n => .setTask rfl rfl
  unfold penalize
  dsimp only
  split_ifs
  · exact .refl rq
  · exact (h₁ _).trans (.setTask rfl rfl)

theorem penalize_arrays (rq : Runqueue) (p : ℕ) :
    (penalize c rq p).active = rq.active ∧ (penalize c rq p).shortPr = rq.shortPr := by
  unfold penalize
  dsimp only
  split_ifs <;> exact ⟨rfl, rfl⟩

theorem wakeUpForkedProcess_heeds (hd : rq.active ≠ rq.expired ∧ rq.active ≠ rq.shortPr ∧
    rq.expired ≠ rq.shortPr) (p : ℕ) : Heeds rq (rq.wakeUpForkedProcess c jiffies p) := by
  rw [wakeUpForkedProcess_eq]
  have h₁ : Heeds rq (rq.setTask p { rq.tasks p with state := .running }) := .setTask rfl rfl
  have h₂ := h₁.trans (penalize_heeds (c := c) _ p)
  obtain ⟨hact, hsh⟩ := @penalize_arrays c (rq.setTask p { rq.tasks p with state := .running }) p
  refine h₂.trans (activateTask_heeds _ p ?_)
  rw [h₂.expired, arrayFor, hact, hsh]
  split_ifs
  · exact hd.2.2.symm
  · exact hd.1

theorem tickRt_heeds (rq : Runqueue) (p : ℕ) : Heeds rq (rq.tickRt c p) := by
  have ho := @only_tickRt c rq p
  rw [tickRt_eq] at ho ⊢
  split_ifs at ho ⊢ with hrr hz
  · refine .of_only ho (dequeueTask_expired _ p _) fun _ => Or.inl ?_
    rw [enqueueTask_self, (dequeueTask_same _ _ _).2.2, setTask_tasks_self]
    rfl
  · exact .setTask rfl rfl
  · exact .refl rq

/-- A task whose time is over goes to another queue. -/
theorem requeue_heeds (rq : Runqueue) (p : ℕ) (t : Task) (A B : Fin 3) (ht : t.needResched = true) :
    Heeds rq (((rq.dequeueTask p A).setTask p t).enqueueTask p B) := by
  refine .of_only (only_requeue rq p t A B) (requeue_expired rq p t A B) fun _ => Or.inl ?_
  rw [enqueueTask_self, setTask_tasks_self]
  exact ht

theorem tickShort_heeds (rq : Runqueue) (p : ℕ) : Heeds rq (rq.tickShort c p) := by
  have h₁ : Heeds rq (rq.setTask p { rq.tasks p with timeLeft := sub32 (rq.tasks p).timeLeft 1 }) :=
    .setTask rfl rfl
  rw [tickShort_eq]
  dsimp only
  split_ifs
  · exact h₁.trans (requeue_heeds _ p _ _ _ rfl)
  · exact h₁

theorem tickOther_heeds (rq : Runqueue) (p : ℕ) : Heeds rq (rq.tickOther c jiffies p) := by
  have h₁ : Heeds rq (rq.setTask p (aged (rq.tasks p))) := .setTask rfl rfl
  rcases @tickOther_cases c jiffies rq p with heq | ⟨n, B, -, heq⟩
  · rw [heq]
    exact h₁
  · have h₂ := h₁.trans (requeue_heeds (rq.setTask p (aged (rq.tasks p))) p
      (refilled c (aged (rq.tasks p))) rq.active B rfl)
    rw [heq]
    exact ⟨h₂.idle, h₂.curr, h₂.expired, h₂.flag⟩

theorem schedulerTick_heeds (rq : Runqueue) : Heeds rq (rq.schedulerTick c jiffies) := by
  unfold schedulerTick
  dsimp only
  split_ifs
  · exact .refl rq
  · exact .reschedTask rq _
  · exact tickRt_heeds rq _
  · exact tickShort_heeds rq _
  · exact tickOther_heeds rq _

theorem setUserNice_heeds (rq : Runqueue) (p : ℕ) (nice : ℤ) : Heeds rq (rq.setUserNice p nice) := by
  rw [setUserNice_eq]
  dsimp only
  split_ifs
  · exact .refl rq
  · exact .refl rq
  · exact .setTask rfl rfl
  · cases (rq.tasks p).array with
    | none => exact .setTask rfl rfl
    | some A =>
      have ho := only_requeue rq p (reniced (rq.tasks p) nice) A A
      dsimp only
      split_ifs with hp
      · exact .last ho (requeue_expired rq p _ A A)
      · exact .of_only ho (requeue_expired rq p _ A A) fun hc => absurd (Or.inr (hc.trans ho.curr.symm)) hp

theorem sysNice_heeds (rq : Runqueue) (increment : ℤ) : Heeds rq (rq.sysNice increment).2 := by
  have hset : ∀ n, Heeds rq (rq.setUserNice rq.curr n) := fun n => setUserNice_heeds rq _ n
  unfold sysNice
  dsimp only
  by_cases hs : (rq.tasks rq.curr).policy = .short
  · rw [if_pos hs]
    exact .refl rq
  · rw [if_neg hs]
    by_cases hcap : increment < 0 ∧ (rq.tasks rq.curr).capSysNice = false
    · rw [if_pos hcap]
      exact .refl rq
    · rw [if_neg hcap]
      exact hset _

theorem setpriorityList_heeds (niceval : ℤ) (sel : List ℕ) (r : ℤ × Runqueue) :
    Heeds r.2 (sel.foldl (setpriorityOne niceval) r).2 := by
  induction sel generalizing r with
  | nil => exact .refl _
  | cons p sel ih =>
    refine Heeds.trans ?_ (ih _)
    unfold setpriorityOne
    dsimp only
    split_ifs
    · exact .refl _
    · exact .refl _
    all_goals exact setUserNice_heeds _ p niceval

theorem sysSetpriority_heeds (rq : Runqueue) (which niceval : ℤ) (sel : List ℕ) :
    Heeds rq (rq.sysSetpriority which sel niceval).2 := by
  unfold sysSetpriority
  by_cases hw : which > 2 ∨ which < 0
  · rw [if_pos hw]
    exact .refl rq
  · rw [if_neg hw]
    exact setpriorityList_heeds _ sel (-esrch, rq)

theorem rescheduled_needResched (t : Task) (policy : Policy) (lp : SchedParam) :
    (t.rescheduled c policy lp).needResched = t.needResched := by
  simp only [Task.rescheduled]
  split_ifs <;> rfl

theorem changePolicy_heeds (h : rq.Ok) (policy : Policy) (lp : SchedParam) (p : ℕ) :
    Heeds rq (changePolicy c jiffies policy lp rq p) := by
  unfold changePolicy
  cases (rq.tasks p).array with
  | none => exact .setTask (rescheduled_array _ _ _) (rescheduled_needResched _ _ _)
  | some A =>
    have h₁ := deactivateTask_heeds rq p A
    obtain ⟨n, arrays, he⟩ := deactivateTask_arrays rq p A
    have h₂ : Heeds (rq.deactivateTask p A) ((rq.deactivateTask p A).setTask p
        (((rq.deactivateTask p A).tasks p).rescheduled c policy lp)) :=
      .setTask (rescheduled_array _ _ _) (rescheduled_needResched _ _ _)
    refine (h₁.trans h₂).trans (activateTask_heeds _ p ?_)
    rw [he]
    exact arrayFor_ne h _

theorem setscheduler_heeds (h : rq.Ok) (pid policy : ℤ) (param : UserParam) :
    Heeds rq (rq.setscheduler c jiffies pid policy param).2 := by
  by_cases hok : ∃ lp p policy', param = .readable lp ∧ ¬ pid < 0 ∧ rq.findProcessByPid pid = some p ∧
      Task.checkScheduler (rq.tasks rq.curr) (rq.tasks p) policy lp = .ok policy'
  · obtain ⟨lp, p, policy', rfl, hpid, hp, hc⟩ := hok
    have hm := @changePolicy_heeds _ c jiffies h policy' lp p
    rw [setscheduler_ok hpid hp hc]
    dsimp only
    split_ifs
    · exact hm.trans (.reschedTask _ _)
    · exact hm
  · obtain ⟨r, -, hr⟩ := @setscheduler_fails rq c jiffies pid policy param
      fun lp p policy' h₁ h₂ h₃ h₄ => hok ⟨lp, p, policy', h₁, h₂, h₃, h₄⟩
    rw [hr]
    exact .refl rq

theorem forked_heeds (rq : Runqueue) {pid : ℕ} (hpc : rq.curr ≠ pid) :
    Heeds rq (forked c jiffies pid rq) := by
  have h₁ : Heeds rq (rq.setTask pid ((rq.tasks rq.curr).childOf jiffies)) :=
    .of_only (.setTask rq pid _) rfl fun hp => absurd hp.symm hpc
  have hcurr := setTask_tasks_of_ne rq ((rq.tasks rq.curr).childOf jiffies) hpc
  have h₂ : ∀ n, Heeds (rq.setTask pid ((rq.tasks rq.curr).childOf jiffies))
      ((rq.setTask pid ((rq.tasks rq.curr).childOf jiffies)).setTask rq.curr
        { rq.tasks rq.curr with timeSlice := n }) := by
    intro n
    refine .setTask ?_ ?_
    · rw [hcurr]
    · rw [hcurr]
  unfold forked
  dsimp only
  split_ifs
  · set r := (rq.setTask pid ((rq.tasks rq.curr).childOf jiffies)).setTask rq.curr
      { rq.tasks rq.curr with timeSlice := (rq.tasks rq.curr).timeSlice / 2 }
    have h₃ : Heeds r (r.setTask r.curr { r.tasks r.curr with timeSlice := 1 }) := .setTask rfl rfl
    exact ((h₁.trans (h₂ _)).trans h₃).trans (schedulerTick_heeds _)
  · exact h₁.trans (h₂ _)

theorem curr_ne_of_unhashed (h : rq.Ok) {pid : ℕ} (hp : rq.hashed pid = false) (hi : pid ≠ rq.idle) :
    rq.curr ≠ pid := by
  intro he
  by_cases hci : rq.curr = rq.idle
  · exact hi (he.symm.trans hci)
  · have hc := (h.curr hci).1
    rw [he, hp] at hc
    cases hc

theorem doFork_heeds (h : rq.Ok) {newPid : Except ForkRefusal ℕ} {vfork : Bool} {r : ℤ}
    (hcurr : (rq.tasks rq.curr).array ≠ none)
    (hp : ∀ p ∈ newPid.toOption, rq.hashed p = false ∧ p ≠ rq.idle)
    (hf : rq.doFork c jiffies newPid vfork = some (r, rq')) : Heeds rq rq' := by
  by_cases hs : (rq.tasks rq.curr).policy = .short
  · simp only [doFork, if_pos hs, Option.some.injEq, Prod.mk.injEq] at hf
    exact hf.2 ▸ .refl rq
  · cases newPid with
    | error e =>
      simp only [doFork, if_neg hs, Option.some.injEq, Prod.mk.injEq] at hf
      exact hf.2 ▸ .refl rq
    | ok pid =>
      obtain ⟨hu, hi⟩ := hp pid rfl
      have h₁ := @forked_heeds c jiffies rq _ (curr_ne_of_unhashed h hu hi)
      have hd := (@ok_forked _ c jiffies h _ hcurr hu hi).1.distinct
      rw [doFork_eq rq hs] at hf
      by_cases hz : (rq.tasks rq.curr).timeSlice = 0
      · simp [hz] at hf
      rw [if_neg hz] at hf
      set w : Runqueue := { forked c jiffies pid rq with
        hashed := Function.update (forked c jiffies pid rq).hashed pid true } with hw
      have h₂ : Heeds rq w := ⟨h₁.idle, h₁.curr, h₁.expired, h₁.flag⟩
      have h₃ := h₂.trans (@wakeUpForkedProcess_heeds w c jiffies hd pid)
      obtain ⟨-, rfl⟩ := Prod.mk.inj (Option.some.inj hf)
      split_ifs
      · exact h₃
      · exact h₃.trans (.reschedTask _ _)

theorem Dispatched.head (h : rq.Dispatched q) :
    ∃ A m l, (A = rq.active ∨ A = rq.shortPr) ∧ (rq.arrays A).queue m = q :: l := by
  by_cases hrt : ∃ p, rq.Runnable p ∧ (rq.tasks p).Rt
  · obtain ⟨m, l, -, hq⟩ := h.rt hrt
    exact ⟨rq.active, m, l, Or.inl rfl, hq⟩
  · by_cases hsh : ∃ p, rq.Runnable p ∧ (rq.tasks p).policy = .short
    · obtain ⟨m, l, -, hq⟩ := h.short hrt hsh
      exact ⟨rq.shortPr, m, l, Or.inr rfl, hq⟩
    · obtain ⟨m, l, -, hq⟩ := h.other hrt hsh
      exact ⟨rq.active, m, l, Or.inl rfl, hq⟩

theorem placed_of_idle {x : Option ℕ} (h : rq.Inv x 0) (hz : rq.nrRunning = 0) (A : Fin 3) (p : ℕ) :
    rq.placed x A p = none := by
  have hsum := running_eq h
  have h₁ := nrActive_nonneg h rq.active
  have h₂ := nrActive_nonneg h rq.expired
  have h₃ := nrActive_nonneg h rq.shortPr
  have hz : (rq.arrays A).nrActive = 0 := by
    obtain rfl | rfl | rfl : A = rq.active ∨ A = rq.expired ∨ A = rq.shortPr := by
      have hd := h.distinct
      omega
    · omega
    · omega
    · omega
  exact (h.arrays A).count_zero hz

theorem array_none_of_idle (h : rq.Ok) (hz : rq.nrRunning = 0) (p : ℕ) : (rq.tasks p).array = none := by
  by_contra hp
  obtain ⟨A, hA⟩ := Option.ne_none_iff_exists'.mp hp
  have hplace := placed_of_idle h hz A p
  simp [placed, hA] at hplace

/-- `schedule` does not pick a task of the expired array. -/
theorem schedule_unexpired (h : rq.Ok) {signal : Bool} (hs : rq.schedule jiffies signal = some rq') :
    rq'.idle = rq.idle ∧ (rq'.tasks rq'.curr).array ≠ some rq'.expired := by
  obtain ⟨d, r, hd, hr, hok, -, hpick⟩ := schedule_spec h jiffies signal
  obtain rfl := Option.some.inj (hr.symm.trans hs)
  obtain ⟨d', x, hd', -, -, hidle⟩ := deactivatePrev_inv h
  obtain rfl := Option.some.inj (hd'.symm.trans hd)
  obtain ⟨⟨next, s⟩, hs', hform⟩ := Option.map_eq_some_iff.mp
    ((congrArg (fun o => Option.bind o _) hd).symm.trans hr)
  have hsame : r.idle = s.idle ∧ r.nrRunning = s.nrRunning ∧ r.arrays = s.arrays ∧
      r.active = s.active ∧ r.shortPr = s.shortPr := hform ▸ ⟨rfl, rfl, rfl, rfl, rfl⟩
  obtain ⟨hi, hn, harr, hact, hsh⟩ := hsame
  by_cases hz : d'.nrRunning = 0
  · have hpk : d'.pickNext = some (d'.idle, { d' with expiredTimestamp := 0 }) := by
      simp [pickNext, hz]
    obtain ⟨-, rfl⟩ := Prod.mk.inj (Option.some.inj (hpk.symm.trans hs'))
    refine ⟨hi.trans hidle, ?_⟩
    rw [array_none_of_idle hok (hn.trans hz)]
    simp
  · obtain ⟨hpk, hdis⟩ := hpick hz
    obtain ⟨-, rfl⟩ := Prod.mk.inj (Option.some.inj (hpk.symm.trans hs'))
    refine ⟨hi.trans ((switchArrays_same d').2.2.2.2.trans hidle), ?_⟩
    obtain ⟨A, m, l, hA, hq⟩ := hdis.head
    rw [← harr] at hq
    rw [← hact, ← hsh] at hA
    rw [(queued_of_head hok hq).1]
    intro he
    obtain rfl := Option.some.inj he
    rcases hA with hA | hA
    · exact hok.distinct.1 hA.symm
    · exact hok.distinct.2.2 hA

theorem yieldCurrent_idle (rq : Runqueue) (A : Fin 3) : (rq.yieldCurrent A).idle = rq.idle := by
  rw [yieldCurrent_eq]
  dsimp only
  split_ifs <;> rfl

/-- What holds of the current and the idle task between two events. -/
structure Poised (rq : Runqueue) : Prop where
  ok : rq.Ok
  expired : (rq.tasks rq.curr).array = some rq.expired → (rq.tasks rq.curr).needResched = true
  idlePolicy : (rq.tasks rq.idle).policy = .other
  idlePrio : (rq.tasks rq.idle).array = none → (rq.tasks rq.idle).prio = maxPrio

theorem Heeds.unexpired (h : Heeds rq rq')
    (hx : (rq.tasks rq.curr).array = some rq.expired → (rq.tasks rq.curr).needResched = true) :
    (rq'.tasks rq'.curr).array = some rq'.expired → (rq'.tasks rq'.curr).needResched = true := by
  rw [h.curr, h.expired]
  intro ha
  rcases h.flag with hf | hf | ⟨he, hn⟩
  · exact hf
  · exact absurd ha hf
  · rw [hn]
    exact hx (he ▸ ha)

/-- An event other than a call of `schedule` heeds the current task. -/
theorem step_heeds (h : rq.Ok) (ha : rq.Allowed e) {r : ℤ}
    (hs : rq.step c jiffies e = some (r, rq')) :
    Heeds rq rq' ∨ rq'.idle = rq.idle ∧ (rq'.tasks rq'.curr).array ≠ some rq'.expired := by
  cases e with
  | tryToWakeUp p =>
    cases hs
    exact Or.inl (tryToWakeUp_heeds h p)
  | wakeUpForkedProcess p =>
    cases hs
    exact Or.inl (wakeUpForkedProcess_heeds h.distinct p)
  | schedulerTick =>
    cases hs
    exact Or.inl (schedulerTick_heeds rq)
  | schedule signal =>
    obtain ⟨r', hr, he⟩ := Option.map_eq_some_iff.mp hs
    obtain ⟨-, rfl⟩ := Prod.mk.inj he
    exact Or.inr (schedule_unexpired h hr)
  | sysSchedYield signal =>
    obtain ⟨A, hA⟩ := Option.ne_none_iff_exists'.mp ((h.curr ha).2 (by simp))
    obtain ⟨r', hr, he⟩ := Option.map_eq_some_iff.mp hs
    obtain ⟨-, rfl⟩ := Prod.mk.inj he
    simp only [sysSchedYield, hA] at hr
    obtain ⟨hi, hx⟩ := schedule_unexpired (ok_yieldCurrent h hA ha) hr
    exact Or.inr ⟨hi.trans (yieldCurrent_idle rq A), hx⟩
  | setUserNice p nice =>
    cases hs
    exact Or.inl (setUserNice_heeds rq p nice)
  | sysNice increment =>
    have hq := sysNice_heeds rq increment
    rw [Option.some.inj hs] at hq
    exact Or.inl hq
  | sysSetpriority which sel niceval =>
    have hq := sysSetpriority_heeds rq which niceval sel
    rw [Option.some.inj hs] at hq
    exact Or.inl hq
  | setscheduler pid policy param =>
    have hq := @setscheduler_heeds rq c jiffies h pid policy param
    rw [Option.some.inj hs] at hq
    exact Or.inl hq
  | setState state =>
    cases hs
    exact Or.inl (.setTask rfl rfl)
  | setCred uid euid capSysNice =>
    cases hs
    exact Or.inl (.setTask rfl rfl)
  | doFork newPid vfork => exact Or.inl (doFork_heeds h ha.1 ha.2 hs)
  | initIdle =>
    obtain ⟨A, hA⟩ := Option.ne_none_iff_exists'.mp ha.2
    simp only [step, hA, Option.some.injEq, Prod.mk.injEq] at hs
    obtain ⟨-, rfl⟩ := hs
    have ho := only_deactivateTask rq rq.curr A
    rw [initIdle_eq ha.1]
    refine Or.inl ((deactivateTask_heeds rq rq.curr A).trans (Heeds.trans ?_ (.reschedTask _ _)))
    refine .of_only (.setTask _ _ _) rfl fun _ => Or.inr (Or.inl ?_)
    rw [setTask_tasks_self]
    simp

theorem initIdle_self (hc : rq.curr = rq.idle) (A : Fin 3) :
    (rq.initIdle A).idle = rq.idle ∧
      ((rq.initIdle A).tasks rq.idle).policy = (rq.tasks rq.idle).policy ∧
      ((rq.initIdle A).tasks rq.idle).prio = maxPrio := by
  obtain ⟨n, arrays, he⟩ := deactivateTask_arrays rq rq.curr A
  rw [initIdle_eq hc, ← hc, reschedTask, setTask_tasks_self, setTask_tasks_self, he, setTask_tasks_self]
  exact ⟨hc.symm, rfl, rfl⟩

/-- The parameters of the idle task change only in `init_idle`. -/
theorem step_idle (h : rq.Poised) (ha : rq.Allowed e) {r : ℤ}
    (hs : rq.step c jiffies e = some (r, rq')) :
    (rq'.tasks rq.idle).policy = .other ∧
      ((rq'.tasks rq.idle).array = none → (rq'.tasks rq.idle).prio = maxPrio) := by
  have hkeep : (rq'.tasks rq.idle).params = (rq.tasks rq.idle).params →
      (rq'.tasks rq.idle).array = (rq.tasks rq.idle).array →
      (rq'.tasks rq.idle).policy = .other ∧
        ((rq'.tasks rq.idle).array = none → (rq'.tasks rq.idle).prio = maxPrio) := by
    intro hp harr
    have hpol : (rq'.tasks rq.idle).policy = (rq.tasks rq.idle).policy := congrArg Params.policy hp
    have hprio : (rq'.tasks rq.idle).prio = (rq.tasks rq.idle).prio := congrArg Params.prio hp
    rw [hpol, hprio, harr]
    exact ⟨h.idlePolicy, h.idlePrio⟩
  rcases step_cases h.ok ha hs with hq | ⟨-, hi, -, rfl⟩ | ⟨pid, -, -, -, hi, -, hf⟩ | ⟨rfl, hc, -⟩
  · obtain ⟨hp, harr⟩ := hq.unhashed rq.idle h.ok.idleUnhashed
    exact hkeep hp harr
  · rw [(only_schedulerTick rq).tasks _ (Ne.symm hi)]
    exact ⟨h.idlePolicy, h.idlePrio⟩
  · obtain ⟨hp, harr⟩ := hf.unhashed rq.idle (Ne.symm hi) h.ok.idleUnhashed
    exact hkeep hp harr
  · obtain ⟨A, hA⟩ := Option.ne_none_iff_exists'.mp ha.2
    simp only [step, hA, Option.some.injEq, Prod.mk.injEq] at hs
    obtain ⟨-, rfl⟩ := hs
    obtain ⟨-, hp, hprio⟩ := initIdle_self hc A
    exact ⟨hp.trans h.idlePolicy, fun _ => hprio⟩

theorem poised_step (h : rq.Poised) (ha : rq.Allowed e) {r : ℤ}
    (hs : rq.step c jiffies e = some (r, rq')) : rq'.Poised := by
  obtain ⟨hpol, hprio⟩ := step_idle h ha hs
  rcases step_heeds h.ok ha hs with hh | ⟨hi, hx⟩
  · refine ⟨ok_step h.ok ha hs, hh.unexpired h.expired, ?_, ?_⟩
    · rwa [hh.idle]
    · rwa [hh.idle]
  · refine ⟨ok_step h.ok ha hs, fun he => absurd he hx, ?_, ?_⟩
    · rwa [hi]
    · rwa [hi]

theorem reschedTask_self (rq : Runqueue) (q p : ℕ) :
    ∃ b, (rq.reschedTask q).tasks p = { rq.tasks p with needResched := b } := by
  by_cases hp : p = q
  · subst hp
    exact ⟨true, setTask_tasks_self _ _ _⟩
  · exact ⟨(rq.tasks p).needResched, setTask_tasks_of_ne _ _ hp⟩

/-- The fields of a task that was woken. -/
theorem tryToWakeUp_self (ha : (rq.tasks p).array = none) :
    ∃ b, (rq.tryToWakeUp c jiffies p).2.tasks p =
      { awake c jiffies (rq.tasks p) with
        array := some (rq.arrayFor (rq.tasks p)), state := .running, needResched := b } := by
  have hself := @activateTask_self c jiffies rq p
  unfold tryToWakeUp
  simp only [if_pos ha, setTask_tasks_self]
  split_ifs
  · obtain ⟨b, hb⟩ := reschedTask_self (rq.activateTask c jiffies p) (rq.activateTask c jiffies p).curr p
    exact ⟨b, by rw [hb, hself]⟩
  · obtain ⟨b, hb⟩ := reschedTask_self (rq.activateTask c jiffies p) (rq.activateTask c jiffies p).curr p
    exact ⟨b, by rw [hb, hself]⟩
  · exact ⟨(awake c jiffies (rq.tasks p)).needResched, by rw [hself]⟩

/-- The swapper is woken when it is on no queue yet. -/
theorem poised_tryToWakeUp (h : rq.Ok) (hi : rq.idle = p) (ha : (rq.tasks p).array = none)
    (hc : (rq.tasks rq.curr).array = none) (hv : (rq.tasks p).Valid)
    (hp : (rq.tasks p).policy = .other) : (rq.tryToWakeUp c jiffies p).2.Poised := by
  have hh := @tryToWakeUp_heeds _ c jiffies h p
  obtain ⟨b, hb⟩ := @tryToWakeUp_self rq p c jiffies ha
  refine ⟨ok_tryToWakeUp h hv (Or.inr hi.symm), hh.unexpired fun he => ?_, ?_, fun hn => ?_⟩
  · rw [hc] at he
    cases he
  · rw [hh.idle, hi, hb]
    exact awake_policy.trans hp
  · rw [hh.idle, hi, hb] at hn
    cases hn

theorem poised_schedInit : (schedInit c jiffies).Poised :=
  poised_tryToWakeUp ok_emptyRunqueue rfl rfl rfl initTask_valid rfl

/-- Every state of a run is poised. -/
theorem poised_run {boot : ℕ} (hrun : Run (Step c) (schedInit c boot) es rq) : rq.Poised :=
  hrun.invariant poised_schedInit fun _ _ _ h hs => poised_step h hs.1 hs.2.choose_spec

end Runqueue

end OperationSystems.Sched
