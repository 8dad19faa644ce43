import OperationSystems.Sched.Runs

/-!
# What an event does to the parameters of a task

The policy, the priorities and the times of a task change in few ways. Apart
from a tick for a running `SCHED_SHORT` task, a fork and `init_idle`, an event
takes every task through a chain of quiet changes, and none of them applies to
the times of a `SCHED_SHORT` task.
-/

namespace OperationSystems.Sched

/-- The fields that decide how a task is scheduled. -/
structure Params where
  policy : Policy
  prio : ℤ
  staticPrio : ℤ
  rtPriority : ℕ
  requestedTime : ℕ
  timeLeft : ℕ
  shortPrio : ℤ

def Task.params (t : Task) : Params :=
  ⟨t.policy, t.prio, t.staticPrio, t.rtPriority, t.requestedTime, t.timeLeft, t.shortPrio⟩

theorem Task.params_congr {t u : Task} (h₁ : t.policy = u.policy) (h₂ : t.prio = u.prio)
    (h₃ : t.staticPrio = u.staticPrio) (h₄ : t.rtPriority = u.rtPriority)
    (h₅ : t.requestedTime = u.requestedTime) (h₆ : t.timeLeft = u.timeLeft)
    (h₇ : t.shortPrio = u.shortPrio) : t.params = u.params := by
  simp only [params, h₁, h₂, h₃, h₄, h₅, h₆, h₇]

/-- A change of the parameters of one task in the event `o.2` at the runqueue `o.1`. -/
inductive Quiet (c : Clock) (o : Runqueue × Event) : Params → Params → Prop where
  | refl (s : Params) : Quiet c o s s
  | trans {s t u : Params} : Quiet c o s t → Quiet c o t u → Quiet c o s u
  | prio (s : Params) (n : ℤ) (hs : s.policy ≠ .short) (hp : maxRtPrio ≤ s.prio)
      (hn : maxRtPrio ≤ n ∧ n < maxPrio) : Quiet c o s { s with prio := n }
  | nice (s : Params) (n : ℤ) (hs : s.policy ≠ .short) (hp : maxRtPrio ≤ s.prio)
      (hn : maxRtPrio ≤ n ∧ n < maxPrio) : Quiet c o s { s with staticPrio := n, prio := n }
  | rtNice (s : Params) (n : ℤ) (hs : s.policy ≠ .short) (hn : maxRtPrio ≤ n ∧ n < maxPrio) :
      Quiet c o s { s with staticPrio := n }
  | wake (s : Params) (p : ℕ) (he : o.2 = .wakeUpForkedProcess p) (hs : s.policy = .short) :
      Quiet c o s { s with prio := s.shortPrio }
  | policy (p : ℕ) (pid pol : ℤ) (policy : Policy) (lp : SchedParam)
      (he : o.2 = .setscheduler pid pol (.readable lp)) (hp : o.1.findProcessByPid pid = some p)
      (hc : Task.checkScheduler (o.1.tasks o.1.curr) (o.1.tasks p) pol lp = .ok policy) :
      Quiet c o (o.1.tasks p).params ((o.1.tasks p).rescheduled c policy lp).params

namespace Runqueue
variable {rq rq' rq'' : Runqueue} {p q : ℕ} {t : Task} {A : Fin 3} {c : Clock} {jiffies : ℕ}
  {o : Runqueue × Event}

/-- Every task goes through quiet changes, and what has no pid stays as it is. -/
structure Quietly (c : Clock) (o : Runqueue × Event) (rq rq' : Runqueue) : Prop where
  hashed : rq'.hashed = rq.hashed
  unhashed : ∀ q, rq.hashed q = false →
    (rq'.tasks q).params = (rq.tasks q).params ∧ (rq'.tasks q).array = (rq.tasks q).array
  quiet : ∀ q, Quiet c o (rq.tasks q).params (rq'.tasks q).params

namespace Quietly

theorem refl (rq : Runqueue) : Quietly c o rq rq :=
  ⟨rfl, fun _ _ => ⟨rfl, rfl⟩, fun _ => .refl _⟩

theorem trans (h : Quietly c o rq rq') (h' : Quietly c o rq' rq'') : Quietly c o rq rq'' := by
  refine ⟨h'.hashed.trans h.hashed, fun q hq => ?_, fun q => (h.quiet q).trans (h'.quiet q)⟩
  have h₁ := h.unhashed q hq
  have h₂ := h'.unhashed q (h.hashed ▸ hq)
  exact ⟨h₂.1.trans h₁.1, h₂.2.trans h₁.2⟩

/-- A task with a pid is the only one that changes. -/
theorem of_only (h : Only p rq rq') (hp : rq.hashed p = true)
    (hq : Quiet c o (rq.tasks p).params (rq'.tasks p).params) : Quietly c o rq rq' := by
  refine ⟨h.hashed, fun q hu => ?_, fun q => ?_⟩
  · have hne : q ≠ p := by
      rintro rfl
      rw [hp] at hu
      cases hu
    rw [h.tasks q hne]
    exact ⟨rfl, rfl⟩
  · by_cases hne : q = p
    · exact hne ▸ hq
    · rw [h.tasks q hne]
      exact .refl _

/-- A task changes in other fields than its parameters and its array. -/
theorem of_kept (h : Only p rq rq') (hp : (rq'.tasks p).params = (rq.tasks p).params)
    (ha : (rq'.tasks p).array = (rq.tasks p).array) : Quietly c o rq rq' := by
  have hsame : ∀ q, (rq'.tasks q).params = (rq.tasks q).params ∧
      (rq'.tasks q).array = (rq.tasks q).array := by
    intro q
    by_cases hq : q = p
    · exact hq ▸ ⟨hp, ha⟩
    · rw [h.tasks q hq]
      exact ⟨rfl, rfl⟩
  exact ⟨h.hashed, fun q _ => hsame q, fun q => (hsame q).1 ▸ .refl _⟩

theorem setTask (ht : t.params = (rq.tasks p).params) (ha : t.array = (rq.tasks p).array) :
    Quietly c o rq (rq.setTask p t) :=
  of_kept (.setTask rq p t) (by rwa [setTask_tasks_self]) (by rwa [setTask_tasks_self])

theorem reschedTask (rq : Runqueue) (p : ℕ) : Quietly c o rq (rq.reschedTask p) :=
  setTask rfl rfl

end Quietly

theorem reschedTask_params (rq : Runqueue) (q p : ℕ) :
    ((rq.reschedTask q).tasks p).params = (rq.tasks p).params := by
  by_cases hp : p = q
  · subst hp
    rw [reschedTask, setTask_tasks_self]
    rfl
  · rw [reschedTask, setTask_tasks_of_ne _ _ hp]

theorem enqueueTask_params (rq : Runqueue) (p : ℕ) (A : Fin 3) :
    ((rq.enqueueTask p A).tasks p).params = (rq.tasks p).params := by
  rw [enqueueTask_eq, setTask_tasks_self]
  rfl

theorem quiet_awake (t : Task) : Quiet c o t.params (awake c jiffies t).params := by
  unfold awake
  dsimp only
  split_ifs with h
  · have hp : maxRtPrio ≤ t.prio := not_lt.mp fun hlt => h.1 ⟨h.2.2, hlt⟩
    exact .prio t.params _ h.2.2 hp (Task.effectivePrio_mem h.2.2)
  · exact .prio t.params _ h.2.2 (not_lt.mp fun hlt => h.1 ⟨h.2.2, hlt⟩)
      (Task.effectivePrio_mem h.2.2)
  · exact .refl _

theorem activateTask_quiet (rq : Runqueue) (p q : ℕ) :
    Quiet c o (rq.tasks q).params ((rq.activateTask c jiffies p).tasks q).params := by
  by_cases hq : q = p
  · subst hq
    rw [activateTask_eq]
    change Quiet c o _ (((rq.setTask q (awake c jiffies (rq.tasks q))).enqueueTask q
      (rq.arrayFor (rq.tasks q))).tasks q).params
    rw [enqueueTask_params, setTask_tasks_self]
    exact quiet_awake _
  · rw [(only_activateTask rq p).tasks q hq]
    exact .refl _

theorem activateTask_quietly (rq : Runqueue) (hp : rq.hashed p = true) :
    Quietly c o rq (rq.activateTask c jiffies p) :=
  .of_only (only_activateTask rq p) hp (activateTask_quiet rq p p)

theorem setState_params (rq : Runqueue) (state : TaskState) (p q : ℕ) :
    ((rq.setTask p { rq.tasks p with state := state }).tasks q).params = (rq.tasks q).params := by
  by_cases hq : q = p
  · subst hq
    rw [setTask_tasks_self]
    rfl
  · rw [setTask_tasks_of_ne _ _ hq]

theorem tryToWakeUp_quiet (rq : Runqueue) (p q : ℕ) :
    Quiet c o (rq.tasks q).params ((rq.tryToWakeUp c jiffies p).2.tasks q).params := by
  unfold tryToWakeUp
  by_cases ha : (rq.tasks p).array = none
  · simp only [if_pos ha]
    rw [setState_params]
    split_ifs
    · rw [reschedTask_params]
      exact activateTask_quiet rq p q
    · rw [reschedTask_params]
      exact activateTask_quiet rq p q
    · exact activateTask_quiet rq p q
  · simp only [if_neg ha]
    rw [setState_params]
    exact .refl _

theorem tryToWakeUp_quietly (rq : Runqueue) (hp : rq.hashed p = true) :
    Quietly c o rq (rq.tryToWakeUp c jiffies p).2 := by
  have ha := @activateTask_quietly _ c jiffies o rq hp
  unfold tryToWakeUp
  dsimp only
  split_ifs
  · exact (ha.trans (.reschedTask _ _)).trans (.setTask rfl rfl)
  · exact (ha.trans (.reschedTask _ _)).trans (.setTask rfl rfl)
  · exact ha.trans (.setTask rfl rfl)
  · exact .setTask rfl rfl

theorem quiet_reprioritized (hrt : ¬ t.Rt) (hs : t.policy = .short → o.2 = .wakeUpForkedProcess p) :
    Quiet c o t.params (t.reprioritized c).params := by
  by_cases hp : t.policy = .short
  · have he : t.effectivePrio c = t.shortPrio := if_pos hp
    have hq : Quiet c o t.params { t.params with prio := t.shortPrio } := .wake _ p (hs hp) hp
    rwa [← he] at hq
  · exact .prio t.params _ hp (not_lt.mp fun hlt => hrt ⟨hp, hlt⟩) (Task.effectivePrio_mem hp)

theorem penalize_quietly (rq : Runqueue) (hp : rq.hashed p = true)
    (hs : (rq.tasks p).policy = .short → o.2 = .wakeUpForkedProcess p) :
    Quietly c o rq (penalize c rq p) := by
  unfold penalize
  by_cases hrt : (rq.tasks p).Rt
  · rw [if_neg (not_not.mpr hrt)]
    exact .refl rq
  · rw [if_pos hrt]
    have h₁ : Quietly c o rq (rq.setTask rq.curr { rq.tasks rq.curr with
        sleepAvg := (rq.tasks rq.curr).sleepAvg * 100 % 2 ^ 32 / 100 }) :=
      .setTask (Task.params_congr rfl rfl rfl rfl rfl rfl rfl) rfl
    obtain ⟨n, hn⟩ := setSleepAvg_tasks rq rq.curr p ((rq.tasks rq.curr).sleepAvg * 100 % 2 ^ 32 / 100)
    refine h₁.trans (.of_only (.setTask _ p _) hp ?_)
    rw [setTask_tasks_self, hn]
    exact quiet_reprioritized (t := { rq.tasks p with sleepAvg := n * 95 % 2 ^ 32 / 100 }) hrt hs

theorem wakeUpForkedProcess_quietly (rq : Runqueue) (hp : rq.hashed p = true)
    (hs : (rq.tasks p).policy = .short → o.2 = .wakeUpForkedProcess p) :
    Quietly c o rq (rq.wakeUpForkedProcess c jiffies p) := by
  rw [wakeUpForkedProcess_eq]
  have h₁ : Quietly c o rq (rq.setTask p { rq.tasks p with state := .running }) := .setTask rfl rfl
  have h₂ := penalize_quietly (c := c) (o := o) (rq.setTask p { rq.tasks p with state := .running }) hp
    (by rwa [setTask_tasks_self])
  refine h₁.trans (h₂.trans (activateTask_quietly _ ?_))
  rw [h₂.hashed]
  exact hp

theorem requeue_params (rq : Runqueue) (p : ℕ) (t : Task) (A B : Fin 3) :
    ((((rq.dequeueTask p A).setTask p t).enqueueTask p B).tasks p).params = t.params := by
  rw [enqueueTask_params, setTask_tasks_self]

theorem tickRt_params (rq : Runqueue) (p : ℕ) :
    ((rq.tickRt c p).tasks p).params = (rq.tasks p).params := by
  rw [tickRt_eq]
  by_cases hrr : (rq.tasks p).policy = .rr
  · rw [if_pos hrr]
    by_cases hz : sub32 (rq.tasks p).timeSlice 1 = 0
    · rw [if_pos hz, enqueueTask_params, (dequeueTask_same _ _ _).2.2, setTask_tasks_self]
      exact Task.params_congr rfl rfl rfl rfl rfl rfl rfl
    · rw [if_neg hz, setTask_tasks_self]
      exact Task.params_congr rfl rfl rfl rfl rfl rfl rfl
  · rw [if_neg hrr]

theorem tickRt_quietly (rq : Runqueue) (hp : rq.hashed p = true) : Quietly c o rq (rq.tickRt c p) := by
  refine .of_only (only_tickRt rq p) hp ?_
  rw [tickRt_params]
  exact .refl _

theorem aged_params (t : Task) : (aged t).params = t.params :=
  Task.params_congr rfl rfl rfl rfl rfl rfl rfl

theorem tickOther_quietly (rq : Runqueue) (hp : rq.hashed p = true)
    (hs : (rq.tasks p).policy ≠ .short) (hrt : ¬ (rq.tasks p).Rt) :
    Quietly c o rq (rq.tickOther c jiffies p) := by
  refine .of_only (only_tickOther rq p) hp ?_
  rcases @tickOther_cases c jiffies rq p with heq | ⟨n, B, -, heq⟩
  · rw [heq, setTask_tasks_self, aged_params]
    exact .refl _
  · rw [heq]
    change Quiet c o _ (((sliceOver c rq p).enqueueTask p B).tasks p).params
    rw [sliceOver, requeue_params]
    exact .prio (rq.tasks p).params _ hs (not_lt.mp fun hlt => hrt ⟨hs, hlt⟩)
      (Task.effectivePrio_mem (t := aged (rq.tasks p)) hs)

/-- A tick for anything but a task of `SCHED_SHORT`. -/
theorem schedulerTick_quietly (h : rq.curr ≠ rq.idle → rq.hashed rq.curr = true)
    (hs : rq.curr ≠ rq.idle → (rq.tasks rq.curr).policy ≠ .short) :
    Quietly c o rq (rq.schedulerTick c jiffies) := by
  unfold schedulerTick
  dsimp only
  split_ifs with hi hA hrt hsh
  · exact .refl rq
  · exact .reschedTask rq _
  · exact tickRt_quietly rq (h hi)
  · exact absurd hsh (hs hi)
  · exact tickOther_quietly rq (h hi) hsh hrt

theorem deactivateTask_quietly (rq : Runqueue) (hp : rq.hashed p = true) :
    Quietly c o rq (rq.deactivateTask p A) := by
  refine .of_only (only_deactivateTask rq p A) hp ?_
  obtain ⟨n, arrays, he⟩ := deactivateTask_arrays rq p A
  rw [he, setTask_tasks_self]
  exact .refl _

/-- A step that leaves the tasks and the pids alone. -/
theorem Quietly.of_same (ht : rq'.tasks = rq.tasks) (hh : rq'.hashed = rq.hashed) :
    Quietly c o rq rq' :=
  ⟨hh, fun q _ => by rw [ht]; exact ⟨rfl, rfl⟩, fun q => by rw [ht]; exact .refl _⟩

theorem deactivatePrev_quietly (h : rq.Ok) {signal : Bool} {d : Runqueue}
    (hd : rq.deactivatePrev jiffies signal = some d) : Quietly c o rq d := by
  have h₁ : Quietly c o rq (rq.setTask rq.curr { rq.tasks rq.curr with sleepTimestamp := jiffies }) :=
    .setTask rfl rfl
  unfold deactivatePrev at hd
  dsimp only at hd
  split_ifs at hd with hrun hsig
  · exact Option.some.inj hd ▸ h₁
  · exact Option.some.inj hd ▸ h₁.trans (.setTask rfl rfl)
  · split at hd
    · cases hd
    · have hne : rq.curr ≠ rq.idle := by
        intro he
        rw [setTask_tasks_self] at hrun
        exact hrun ((congrArg (fun p => (rq.tasks p).state) he).trans h.idleRunning)
      exact Option.some.inj hd ▸ h₁.trans (deactivateTask_quietly _ (h.curr hne).1)

theorem pickNext_quietly {r : ℕ × Runqueue} (hp : rq.pickNext = some r) : Quietly c o rq r.2 := by
  unfold pickNext at hp
  split_ifs at hp
  · obtain rfl := Option.some.inj hp
    exact .of_same rfl rfl
  · obtain ⟨next, -, rfl⟩ := Option.map_eq_some_iff.mp hp
    unfold switchArrays
    split_ifs <;> exact .of_same rfl rfl

theorem schedule_quietly (h : rq.Ok) {signal : Bool} (hs : rq.schedule jiffies signal = some rq') :
    Quietly c o rq rq' := by
  obtain ⟨d, hd, hr⟩ := Option.bind_eq_some_iff.mp hs
  obtain ⟨⟨next, r⟩, hpick, rfl⟩ := Option.map_eq_some_iff.mp hr
  have h₁ : Quietly c o r (r.setTask rq.curr { r.tasks rq.curr with needResched := false }) :=
    .setTask rfl rfl
  exact (deactivatePrev_quietly h hd).trans ((pickNext_quietly hpick).trans (h₁.trans (.of_same rfl rfl)))

theorem yieldCurrent_quietly (h : rq.Ok) (hA : (rq.tasks rq.curr).array = some A)
    (hi : rq.curr ≠ rq.idle) : Quietly c o rq (rq.yieldCurrent A) := by
  have hdel : Quietly c o rq (rq.listDel rq.curr) := .of_same rfl rfl
  rw [yieldCurrent_eq]
  dsimp only
  split_ifs with hrt hs hne
  · exact .of_same rfl rfl
  · exact .of_same rfl rfl
  · exact .of_same rfl rfl
  · have hv := h.valid rq.curr (by simp) (Or.inr (by simp [hA]))
    have hprio := hv.other (hv.policy_other hrt hs)
    have hplace : rq.placed none A rq.curr = some (rq.tasks rq.curr).prio := by
      simp [placed, hA, Task.queuePrio, hs]
    have hdelim : Function.update ((rq.listDel rq.curr).arrays A).bitmap (rq.tasks rq.curr).prio false
        maxPrio = true := by
      rw [Function.update_of_ne ((h.arrays A).ne_maxPrio hplace)]
      exact (h.arrays A).delimiter
    have hmem := yieldPrio_mem hdelim hprio
    refine hdel.trans (.of_only ⟨rfl, rfl, rfl, (Only.setTask _ rq.curr _).tasks⟩ (h.curr hi).1 ?_)
    change Quiet c o _ (((rq.listDel rq.curr).setTask rq.curr _).tasks rq.curr).params
    rw [setTask_tasks_self]
    exact .prio (rq.tasks rq.curr).params _ hs hprio.1 hmem

theorem only_setUserNice (rq : Runqueue) (p : ℕ) (nice : ℤ) :
    ∃ r, Only p rq r ∧ (rq.setUserNice p nice = r ∨ rq.setUserNice p nice = r.reschedTask r.curr) ∧
      (r = rq ∨ ((rq.tasks p).policy ≠ .short ∧ (-20 ≤ nice ∧ nice ≤ 19) ∧
        ((rq.tasks p).Rt ∧ (r.tasks p).params =
            { (rq.tasks p).params with staticPrio := niceToPrio nice } ∨
          ¬ (rq.tasks p).Rt ∧ (r.tasks p).params = (reniced (rq.tasks p) nice).params))) := by
  rw [setUserNice_eq]
  dsimp only
  split_ifs with hs hn hrt
  · exact ⟨rq, .refl p rq, Or.inl rfl, Or.inl rfl⟩
  · exact ⟨rq, .refl p rq, Or.inl rfl, Or.inl rfl⟩
  · refine ⟨_, .setTask rq p _, Or.inl rfl, Or.inr ⟨hs, by omega, Or.inl ⟨hrt, ?_⟩⟩⟩
    rw [setTask_tasks_self]
    rfl
  · cases hA : (rq.tasks p).array with
    | none =>
      refine ⟨_, .setTask rq p _, Or.inl rfl, Or.inr ⟨hs, by omega, Or.inr ⟨hrt, ?_⟩⟩⟩
      rw [setTask_tasks_self]
    | some A =>
      refine ⟨_, only_requeue rq p (reniced (rq.tasks p) nice) A A, ?_,
        Or.inr ⟨hs, by omega, Or.inr ⟨hrt, requeue_params _ _ _ _ _⟩⟩⟩
      dsimp only
      split_ifs
      · exact Or.inr rfl
      · exact Or.inl rfl

theorem setUserNice_quietly (rq : Runqueue) (nice : ℤ) (hp : rq.hashed p = true) :
    Quietly c o rq (rq.setUserNice p nice) := by
  obtain ⟨r, ho, hr, hq⟩ := only_setUserNice rq p nice
  have hquiet : Quietly c o rq r := by
    rcases hq with rfl | ⟨hs, hn, hq⟩
    · exact .refl _
    · have hrange : maxRtPrio ≤ niceToPrio nice ∧ niceToPrio nice < maxPrio := by
        simp only [niceToPrio, maxRtPrio, maxPrio]
        omega
      refine .of_only ho hp ?_
      rcases hq with ⟨-, hq⟩ | ⟨hrt, hq⟩
      · rw [hq]
        exact .rtNice _ _ hs hrange
      · rw [hq]
        exact .nice (rq.tasks p).params _ hs (not_lt.mp fun hlt => hrt ⟨hs, hlt⟩) hrange
  rcases hr with hr | hr
  · rwa [hr]
  · rw [hr]
    exact hquiet.trans (.reschedTask r _)

theorem sysNice_quietly (h : rq.Ok) (hc : rq.curr ≠ rq.idle) (increment : ℤ) :
    Quietly c o rq (rq.sysNice increment).2 := by
  have hset : ∀ n, Quietly c o rq (rq.setUserNice rq.curr n) :=
    fun n => setUserNice_quietly rq n (h.curr hc).1
  unfold sysNice
  dsimp only
  by_cases hs : (rq.tasks rq.curr).policy = .short
  · rw [if_pos hs]
    exact .refl rq
  · rw [if_neg hs]
    by_cases hcap : increment < 0 ∧ (rq.tasks rq.curr).capSysNice = false
    · rw [if_pos hcap]
      exact .refl rq
    · rw [if_neg hcap]
      exact hset _

theorem setpriorityOne_quietly (niceval : ℤ) (r : ℤ × Runqueue) (hp : r.2.hashed p = true) :
    Quietly c o r.2 (setpriorityOne niceval r p).2 := by
  have hset := setUserNice_quietly (c := c) (o := o) r.2 niceval hp
  unfold setpriorityOne
  dsimp only
  split_ifs
  · exact .refl _
  · exact .refl _
  all_goals exact hset

theorem sysSetpriority_quietly (rq : Runqueue) (which niceval : ℤ) {sel : List ℕ}
    (hsel : ∀ p ∈ sel, rq.hashed p = true) :
    Quietly c o rq (rq.sysSetpriority which sel niceval).2 := by
  have hfold : ∀ (n : ℤ) (sel : List ℕ) (r : ℤ × Runqueue), (∀ p ∈ sel, r.2.hashed p = true) →
      Quietly c o r.2 (sel.foldl (setpriorityOne n) r).2 := by
    intro n sel
    induction sel with
    | nil => exact fun r _ => .refl _
    | cons p sel ih =>
      intro r hr
      refine (setpriorityOne_quietly n r (hr p (by simp))).trans (ih _ fun q hq => ?_)
      rw [setpriorityOne_hashed]
      exact hr q (by simp [hq])
  unfold sysSetpriority
  by_cases hw : which > 2 ∨ which < 0
  · rw [if_pos hw]
    exact .refl rq
  · rw [if_neg hw]
    exact hfold _ sel (-esrch, rq) hsel

theorem rescheduled_params (t : Task) (A : Option (Fin 3)) (policy : Policy) (lp : SchedParam) :
    (({ t with array := A } : Task).rescheduled c policy lp).params =
      (t.rescheduled c policy lp).params := by
  simp only [Task.rescheduled]
  split_ifs <;> rfl

theorem changePolicy_quietly (rq : Runqueue) (hp : rq.hashed p = true) {pid pol : ℤ}
    {policy : Policy} {lp : SchedParam} (hfind : rq.findProcessByPid pid = some p)
    (hc : Task.checkScheduler (rq.tasks rq.curr) (rq.tasks p) pol lp = .ok policy) :
    Quietly c (rq, .setscheduler pid pol (.readable lp)) rq (changePolicy c jiffies policy lp rq p) := by
  have hq : Quiet c (rq, .setscheduler pid pol (.readable lp)) (rq.tasks p).params
      ((rq.tasks p).rescheduled c policy lp).params := .policy p pid pol policy lp rfl hfind hc
  unfold changePolicy
  cases hA : (rq.tasks p).array with
  | none =>
    refine .of_only (.setTask rq p _) hp ?_
    rwa [setTask_tasks_self]
  | some A =>
    have ho := only_deactivateTask rq p A
    have hset : Quietly c (rq, .setscheduler pid pol (.readable lp)) rq ((rq.deactivateTask p A).setTask p
        (((rq.deactivateTask p A).tasks p).rescheduled c policy lp)) := by
      refine .of_only (ho.trans (.setTask _ p _)) hp ?_
      obtain ⟨n, arrays, heq⟩ := deactivateTask_arrays rq p A
      rw [setTask_tasks_self, heq, setTask_tasks_self, rescheduled_params]
      exact hq
    refine hset.trans (activateTask_quietly _ ?_)
    rw [hset.hashed]
    exact hp

theorem setscheduler_quietly (h : rq.Ok) (hcurr : rq.curr ≠ rq.idle) (pid policy : ℤ)
    (param : UserParam) :
    Quietly c (rq, .setscheduler pid policy param) rq (rq.setscheduler c jiffies pid policy param).2 := by
  by_cases hok : ∃ lp p policy', param = .readable lp ∧ ¬ pid < 0 ∧ rq.findProcessByPid pid = some p ∧
      Task.checkScheduler (rq.tasks rq.curr) (rq.tasks p) policy lp = .ok policy'
  · obtain ⟨lp, p, policy', rfl, hpid, hp, hc⟩ := hok
    have hm := @changePolicy_quietly _ c jiffies rq
      (findProcessByPid_hashed h hcurr hp) _ _ _ _ hp hc
    rw [setscheduler_ok hpid hp hc]
    dsimp only
    split_ifs
    · exact hm.trans (.reschedTask _ _)
    · exact hm
  · obtain ⟨r, -, hr⟩ := @setscheduler_fails rq c jiffies pid policy param
      fun lp p policy' h₁ h₂ h₃ h₄ => hok ⟨lp, p, policy', h₁, h₂, h₃, h₄⟩
    rw [hr]
    exact .refl rq

theorem forked_quietly (h : rq.Ok) {pid : ℕ} (hs : (rq.tasks rq.curr).policy ≠ .short)
    (hpc : rq.curr ≠ pid) :
    Quietly c o (rq.setTask pid ((rq.tasks rq.curr).childOf jiffies)) (forked c jiffies pid rq) := by
  have hcurr := setTask_tasks_of_ne rq ((rq.tasks rq.curr).childOf jiffies) hpc
  have hset : ∀ n, Quietly c o (rq.setTask pid ((rq.tasks rq.curr).childOf jiffies))
      ((rq.setTask pid ((rq.tasks rq.curr).childOf jiffies)).setTask rq.curr
        { rq.tasks rq.curr with timeSlice := n }) := by
    intro n
    refine .setTask ?_ ?_
    · rw [hcurr]
      rfl
    · rw [hcurr]
  unfold forked
  dsimp only
  split_ifs
  · set r := (rq.setTask pid ((rq.tasks rq.curr).childOf jiffies)).setTask rq.curr
      { rq.tasks rq.curr with timeSlice := (rq.tasks rq.curr).timeSlice / 2 } with hr
    have hrc : r.tasks r.curr = { rq.tasks rq.curr with timeSlice := (rq.tasks rq.curr).timeSlice / 2 } :=
      setTask_tasks_self _ _ _
    have h₂ : Quietly c o r (r.setTask r.curr { r.tasks r.curr with timeSlice := 1 }) :=
      .setTask (Task.params_congr rfl rfl rfl rfl rfl rfl rfl) rfl
    refine (hset _).trans (h₂.trans (schedulerTick_quietly (fun hi => (h.curr hi).1) fun _ => ?_))
    have hpol : ((r.setTask r.curr { r.tasks r.curr with timeSlice := 1 }).tasks r.curr).policy =
        (rq.tasks rq.curr).policy := by
      rw [setTask_tasks_self, hrc]
    exact fun hsh => hs (hpol.symm.trans hsh)
  · exact hset _

/-- A fork starts a task that is scheduled like its parent. -/
structure Forks (c : Clock) (o : Runqueue × Event) (pid : ℕ) (rq rq' : Runqueue) : Prop where
  hashed : rq'.hashed = Function.update rq.hashed pid true
  unhashed : ∀ q, q ≠ pid → rq.hashed q = false →
    (rq'.tasks q).params = (rq.tasks q).params ∧ (rq'.tasks q).array = (rq.tasks q).array
  quiet : ∀ q, q ≠ pid → Quiet c o (rq.tasks q).params (rq'.tasks q).params
  child : Quiet c o (rq.tasks rq.curr).params (rq'.tasks pid).params

theorem doFork_forks (h : rq.Ok) {pid : ℕ} {vfork : Bool} {r : ℤ}
    (hcurr : (rq.tasks rq.curr).array ≠ none) (hp : rq.hashed pid = false) (hi : pid ≠ rq.idle)
    (hs : (rq.tasks rq.curr).policy ≠ .short)
    (hf : rq.doFork c jiffies (.ok pid) vfork = some (r, rq')) : Forks c o pid rq rq' := by
  obtain ⟨-, hh, -, -, ht⟩ := @ok_forked rq c jiffies h pid hcurr hp hi
  have hpc : rq.curr ≠ pid := by
    intro he
    by_cases hci : rq.curr = rq.idle
    · exact hi (he.symm.trans hci)
    · have hc := (h.curr hci).1
      rw [he, hp] at hc
      cases hc
  have h₁ := @forked_quietly rq c jiffies o h pid hs hpc
  rw [doFork_eq rq hs] at hf
  by_cases hz : (rq.tasks rq.curr).timeSlice = 0
  · simp [hz] at hf
  rw [if_neg hz] at hf
  have h₂ := @wakeUpForkedProcess_quietly pid c jiffies o
    { forked c jiffies pid rq with hashed := Function.update (forked c jiffies pid rq).hashed pid true }
    (by simp) (fun hsh => absurd ((congrArg Task.policy ht).symm.trans hsh) hs)
  set w := wakeUpForkedProcess c jiffies
    { forked c jiffies pid rq with hashed := Function.update (forked c jiffies pid rq).hashed pid true } pid
  have h₃ : Quietly c o w rq' := by
    obtain ⟨-, rfl⟩ := Prod.mk.inj (Option.some.inj hf)
    split_ifs
    · exact .refl _
    · exact .reschedTask _ _
  have h₄ := h₂.trans h₃
  have hold : ∀ q, q ≠ pid → (rq.setTask pid ((rq.tasks rq.curr).childOf jiffies)).tasks q = rq.tasks q :=
    fun q hq => setTask_tasks_of_ne rq _ hq
  refine ⟨h₄.hashed.trans (by rw [hh]), fun q hq hu => ?_, fun q hq => ?_, ?_⟩
  · have ha := h₁.unhashed q hu
    have hb := h₄.unhashed q (by simpa [hq, hh] using hu)
    rw [hold q hq] at ha
    exact ⟨hb.1.trans ha.1, hb.2.trans ha.2⟩
  · have ha := h₁.quiet q
    rw [hold q hq] at ha
    exact ha.trans (h₄.quiet q)
  · have hb := h₄.quiet pid
    have hchild : ((forked c jiffies pid rq).tasks pid).params = (rq.tasks rq.curr).params := by
      rw [ht]
      rfl
    rw [← hchild]
    exact hb

/-- What an event does to the parameters of all tasks. -/
theorem step_cases (h : rq.Ok) (ha : rq.Allowed e) {r : ℤ} (hs : rq.step c jiffies e = some (r, rq')) :
    Quietly c (rq, e) rq rq' ∨
    (e = .schedulerTick ∧ rq.curr ≠ rq.idle ∧ (rq.tasks rq.curr).policy = .short ∧
      rq' = rq.schedulerTick c jiffies) ∨
    (∃ pid vfork, e = .doFork (.ok pid) vfork ∧ rq.hashed pid = false ∧ pid ≠ rq.idle ∧
      (rq.tasks rq.curr).policy ≠ .short ∧ Forks c (rq, e) pid rq rq') ∨
    (e = .initIdle ∧ rq.curr = rq.idle ∧ Only rq.idle rq rq' ∧ (rq'.tasks rq.idle).array = none) := by
  cases e with
  | tryToWakeUp p =>
    cases hs
    exact Or.inl (tryToWakeUp_quietly rq ha)
  | wakeUpForkedProcess p =>
    cases hs
    exact Or.inl (wakeUpForkedProcess_quietly rq ha.1 fun _ => rfl)
  | schedulerTick =>
    cases hs
    by_cases hc : rq.curr ≠ rq.idle ∧ (rq.tasks rq.curr).policy = .short
    · exact Or.inr (Or.inl ⟨rfl, hc.1, hc.2, rfl⟩)
    · exact Or.inl (schedulerTick_quietly (fun hi => (h.curr hi).1) fun hi hsh => hc ⟨hi, hsh⟩)
  | schedule signal =>
    obtain ⟨r', hr, he⟩ := Option.map_eq_some_iff.mp hs
    obtain ⟨-, rfl⟩ := Prod.mk.inj he
    exact Or.inl (schedule_quietly h hr)
  | sysSchedYield signal =>
    obtain ⟨A, hA⟩ := Option.ne_none_iff_exists'.mp ((h.curr ha).2 (by simp))
    obtain ⟨r', hr, he⟩ := Option.map_eq_some_iff.mp hs
    obtain ⟨-, rfl⟩ := Prod.mk.inj he
    simp only [sysSchedYield, hA] at hr
    exact Or.inl ((yieldCurrent_quietly h hA ha).trans (schedule_quietly (ok_yieldCurrent h hA ha) hr))
  | setUserNice p nice =>
    cases hs
    exact Or.inl (setUserNice_quietly rq nice ha)
  | sysNice increment =>
    have hq := sysNice_quietly (c := c) (o := (rq, .sysNice increment)) h ha increment
    rw [Option.some.inj hs] at hq
    exact Or.inl hq
  | sysSetpriority which sel niceval =>
    have hq := sysSetpriority_quietly (c := c) (o := (rq, .sysSetpriority which sel niceval)) rq which niceval ha.2
    rw [Option.some.inj hs] at hq
    exact Or.inl hq
  | setscheduler pid policy param =>
    have hq := @setscheduler_quietly rq c jiffies h ha pid policy param
    rw [Option.some.inj hs] at hq
    exact Or.inl hq
  | setState state =>
    cases hs
    exact Or.inl (.setTask rfl rfl)
  | setCred uid euid capSysNice =>
    cases hs
    exact Or.inl (.setTask rfl rfl)
  | doFork newPid vfork =>
    change rq.doFork c jiffies newPid vfork = some (r, rq') at hs
    by_cases hsh : (rq.tasks rq.curr).policy = .short
    · simp only [doFork, if_pos hsh, Option.some.injEq, Prod.mk.injEq] at hs
      exact Or.inl (hs.2 ▸ .refl rq)
    · cases newPid with
      | error e =>
        simp only [doFork, if_neg hsh, Option.some.injEq, Prod.mk.injEq] at hs
        exact Or.inl (hs.2 ▸ .refl rq)
      | ok pid =>
        obtain ⟨hp, hi⟩ := ha.2 pid rfl
        exact Or.inr (Or.inr (Or.inl ⟨pid, vfork, rfl, hp, hi, hsh, doFork_forks h ha.1 hp hi hsh hs⟩))
  | initIdle =>
    obtain ⟨A, hA⟩ := Option.ne_none_iff_exists'.mp ha.2
    simp only [step, hA, Option.some.injEq, Prod.mk.injEq] at hs
    obtain ⟨-, rfl⟩ := hs
    refine Or.inr (Or.inr (Or.inr ⟨rfl, ha.1, ?_, ?_⟩))
    · rw [initIdle_eq ha.1, ← ha.1]
      exact ((only_deactivateTask rq _ A).trans (.setTask _ _ _)).trans (.setTask _ _ _)
    · rw [initIdle_eq ha.1, ← ha.1, reschedTask, setTask_tasks_self, setTask_tasks_self]

end Runqueue

end OperationSystems.Sched
