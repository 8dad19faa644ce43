import OperationSystems.Sched.Poised

/-!
# State and queue of the other tasks

An event leaves the state of a task alone, or it wakes the task. Nothing else
puts a task into a queue, and a task in state `TASK_RUNNING` does not leave its
queue. The exceptions are the task that sets its own state, the child of a fork
and the swapper in `init_idle`.
-/

namespace OperationSystems.Sched

/-- The task keeps its state and stays out of the queues, or in them if it runs, or else it was
woken. -/
def Task.Calm (t u : Task) : Prop :=
  u.state = t.state ∧ (t.array = none → u.array = none) ∧
      (t.state = .running → t.array ≠ none → u.array ≠ none) ∨
    u.state = .running ∧ u.array ≠ none

namespace Task.Calm
variable {t u v : Task}

theorem refl (t : Task) : t.Calm t := .inl ⟨rfl, id, fun _ h => h⟩

theorem trans (h : t.Calm u) (h' : u.Calm v) : t.Calm v := by
  rcases h' with ⟨hs', hn', ha'⟩ | hw
  · rcases h with ⟨hs, hn, ha⟩ | ⟨hs, ha⟩
    · exact .inl ⟨hs'.trans hs, fun harr => hn' (hn harr), fun hr harr => ha' (hs.trans hr) (ha hr harr)⟩
    · exact .inr ⟨hs'.trans hs, ha' hs ha⟩
  · exact .inr hw

theorem of_same (hs : u.state = t.state) (ha : u.array = t.array) : t.Calm u :=
  .inl ⟨hs, fun hn => ha.trans hn, fun _ harr => ha ▸ harr⟩

theorem queued (hs : u.state = t.state) (ht : t.array ≠ none) (ha : u.array ≠ none) : t.Calm u :=
  .inl ⟨hs, fun hn => absurd hn ht, fun _ _ => ha⟩

end Task.Calm

namespace Runqueue
variable {rq rq' rq'' : Runqueue} {p q : ℕ} {t : Task} {A B : Fin 3} {D D' : Set ℕ} {c : Clock}
  {jiffies : ℕ} {e : Event}

/-- This holds of all tasks outside `D`, and no pid is forgotten. -/
structure Calms (D : Set ℕ) (rq rq' : Runqueue) : Prop where
  hashed : ∀ p, rq.hashed p = true → rq'.hashed p = true
  tasks : ∀ p ∉ D, (rq.tasks p).Calm (rq'.tasks p)

namespace Calms

theorem refl (D : Set ℕ) (rq : Runqueue) : Calms D rq rq := ⟨fun _ h => h, fun _ _ => .refl _⟩

theorem trans (h : Calms D rq rq') (h' : Calms D rq' rq'') : Calms D rq rq'' :=
  ⟨fun p hp => h'.hashed p (h.hashed p hp), fun p hp => (h.tasks p hp).trans (h'.tasks p hp)⟩

theorem mono (h : Calms D rq rq') (hD : D ⊆ D') : Calms D' rq rq' :=
  ⟨h.hashed, fun p hp => h.tasks p fun hm => hp (hD hm)⟩

theorem of_same (hh : rq'.hashed = rq.hashed) (ht : rq'.tasks = rq.tasks) : Calms D rq rq' :=
  ⟨fun _ hp => hh ▸ hp, fun _ _ => ht ▸ .refl _⟩

theorem of_only (h : Only p rq rq') (hp : p ∉ D → (rq.tasks p).Calm (rq'.tasks p)) : Calms D rq rq' := by
  refine ⟨fun q hq => h.hashed ▸ hq, fun q hq => ?_⟩
  by_cases hqp : q = p
  · subst hqp
    exact hp hq
  · rw [h.tasks q hqp]
    exact .refl _

theorem setTask (hs : t.state = (rq.tasks p).state) (ha : t.array = (rq.tasks p).array) :
    Calms D rq (rq.setTask p t) := by
  refine of_only (.setTask rq p t) fun _ => ?_
  rw [setTask_tasks_self]
  exact .of_same hs ha

theorem reschedTask (rq : Runqueue) (p : ℕ) : Calms D rq (rq.reschedTask p) := setTask rfl rfl

theorem requeue (rq : Runqueue) (p : ℕ) (A B : Fin 3) (hs : t.state = (rq.tasks p).state)
    (ha : (rq.tasks p).array ≠ none) : Calms D rq (((rq.dequeueTask p A).setTask p t).enqueueTask p B) := by
  refine of_only (only_requeue rq p t A B) fun _ => ?_
  rw [enqueueTask_self, setTask_tasks_self]
  exact .queued hs ha (by simp)

theorem activateTask (rq : Runqueue) (p : ℕ) : Calms {p} rq (rq.activateTask c jiffies p) :=
  of_only (only_activateTask rq p) fun hp => absurd rfl hp

end Calms

/-- A task that was woken is in a queue. -/
theorem tryToWakeUp_wakes (rq : Runqueue) (p : ℕ) :
    ((rq.tryToWakeUp c jiffies p).2.tasks p).state = .running ∧
      ((rq.tryToWakeUp c jiffies p).2.tasks p).array ≠ none := by
  by_cases ha : (rq.tasks p).array = none
  · obtain ⟨b, hb⟩ := @tryToWakeUp_self rq p c jiffies ha
    rw [hb]
    exact ⟨rfl, by simp⟩
  · simp only [tryToWakeUp, if_neg ha, setTask_tasks_self]
    exact ⟨trivial, ha⟩

theorem tryToWakeUp_calms (rq : Runqueue) (p : ℕ) : Calms D rq (rq.tryToWakeUp c jiffies p).2 := by
  have hset : ∀ r : Runqueue, Calms {p} r (r.setTask p { r.tasks p with state := .running }) :=
    fun r => .of_only (.setTask r p _) fun hp => absurd rfl hp
  have hact : Calms {p} rq (rq.activateTask c jiffies p) := .activateTask rq p
  have hrest : Calms {p} rq (rq.tryToWakeUp c jiffies p).2 := by
    unfold tryToWakeUp
    dsimp only
    split_ifs
    · exact (hact.trans (.reschedTask _ _)).trans (hset _)
    · exact (hact.trans (.reschedTask _ _)).trans (hset _)
    · exact hact.trans (hset _)
    · exact hset rq
  refine ⟨hrest.hashed, fun q _ => ?_⟩
  by_cases hq : q = p
  · subst hq
    exact .inr (tryToWakeUp_wakes rq q)
  · exact hrest.tasks q hq

theorem penalize_calms (rq : Runqueue) (p : ℕ) : Calms D rq (penalize c rq p) := by
  have h₁ : ∀ n, Calms D rq (rq.setTask rq.curr { rq.tasks rq.curr with sleepAvg := n }) :=
    fun n => .setTask rfl rfl
  unfold penalize
  dsimp only
  split_ifs
  · exact .refl D rq
  · exact (h₁ _).trans (.setTask rfl rfl)

theorem penalize_state (rq : Runqueue) (p : ℕ) : ((penalize c rq p).tasks p).state = (rq.tasks p).state := by
  unfold penalize
  dsimp only
  split_ifs
  · rfl
  · obtain ⟨n, hn⟩ := setSleepAvg_tasks rq rq.curr p ((rq.tasks rq.curr).sleepAvg * 100 % 2 ^ 32 / 100)
    rw [setTask_tasks_self, hn]
    rfl

theorem wakeUpForkedProcess_calms (rq : Runqueue) (p : ℕ) :
    Calms D rq (rq.wakeUpForkedProcess c jiffies p) := by
  have hset : Calms {p} rq (rq.setTask p { rq.tasks p with state := .running }) :=
    .of_only (.setTask rq p _) fun hp => absurd rfl hp
  have hpen := penalize_calms (D := {p}) (c := c) (rq.setTask p { rq.tasks p with state := .running }) p
  have hrest : Calms {p} rq (rq.wakeUpForkedProcess c jiffies p) :=
    (hset.trans hpen).trans (.activateTask _ p)
  have hrun : ((penalize c (rq.setTask p { rq.tasks p with state := .running }) p).tasks p).state = .running := by
    rw [penalize_state, setTask_tasks_self]
  refine ⟨hrest.hashed, fun q _ => ?_⟩
  by_cases hq : q = p
  · subst hq
    refine .inr ?_
    rw [wakeUpForkedProcess_eq, activateTask_self]
    exact ⟨awake_state.trans hrun, by simp⟩
  · exact hrest.tasks q hq

theorem tickRt_calms (rq : Runqueue) (p : ℕ) (ha : (rq.tasks p).array ≠ none) : Calms D rq (rq.tickRt c p) := by
  have ho := @only_tickRt c rq p
  rw [tickRt_eq] at ho ⊢
  split_ifs at ho ⊢ with hrr hz
  · refine .of_only ho fun _ => ?_
    rw [enqueueTask_self, (dequeueTask_same _ _ _).2.2, setTask_tasks_self]
    exact .queued rfl ha (by simp)
  · exact .setTask rfl rfl
  · exact .refl D rq

theorem tickShort_calms (rq : Runqueue) (p : ℕ) (ha : (rq.tasks p).array ≠ none) : Calms D rq (rq.tickShort c p) := by
  have h₁ : Calms D rq (rq.setTask p { rq.tasks p with timeLeft := sub32 (rq.tasks p).timeLeft 1 }) :=
    .setTask rfl rfl
  rw [tickShort_eq]
  dsimp only
  split_ifs
  · refine h₁.trans (.requeue _ p _ _ ?_ ?_)
    · rw [setTask_tasks_self]
      rfl
    · rw [setTask_tasks_self]
      exact ha
  · exact h₁

theorem tickOther_calms (rq : Runqueue) (p : ℕ) (ha : (rq.tasks p).array ≠ none) : Calms D rq (rq.tickOther c jiffies p) := by
  have h₁ : Calms D rq (rq.setTask p (aged (rq.tasks p))) := .setTask rfl rfl
  rcases @tickOther_cases c jiffies rq p with heq | ⟨n, B, -, heq⟩
  · rw [heq]
    exact h₁
  · have h₂ := h₁.trans (.requeue (t := refilled c (aged (rq.tasks p))) (rq.setTask p (aged (rq.tasks p))) p
      rq.active B (by rw [setTask_tasks_self]; rfl) (by rw [setTask_tasks_self]; exact ha))
    rw [heq]
    exact ⟨h₂.hashed, h₂.tasks⟩

theorem schedulerTick_calms (rq : Runqueue) : Calms D rq (rq.schedulerTick c jiffies) := by
  unfold schedulerTick
  dsimp only
  split_ifs with hi hx
  · exact .refl D rq
  · exact .reschedTask rq _
  all_goals have ha : (rq.tasks rq.curr).array ≠ none := fun hn => hx (by simp [hn])
  · exact tickRt_calms rq _ ha
  · exact tickShort_calms rq _ ha
  · exact tickOther_calms rq _ ha

theorem setUserNice_calms (rq : Runqueue) (p : ℕ) (nice : ℤ) : Calms D rq (rq.setUserNice p nice) := by
  rw [setUserNice_eq]
  dsimp only
  split_ifs
  · exact .refl D rq
  · exact .refl D rq
  · exact .setTask rfl rfl
  · cases hA : (rq.tasks p).array with
    | none => exact .setTask rfl rfl
    | some A =>
      have hre : Calms D rq (((rq.dequeueTask p A).setTask p (reniced (rq.tasks p) nice)).enqueueTask p A) :=
        .requeue rq p A A rfl (by simp [hA])
      dsimp only
      split_ifs
      · exact hre.trans (.reschedTask _ _)
      · exact hre

theorem sysNice_calms (rq : Runqueue) (increment : ℤ) : Calms D rq (rq.sysNice increment).2 := by
  have hset : ∀ n, Calms D rq (rq.setUserNice rq.curr n) := fun n => setUserNice_calms rq _ n
  unfold sysNice
  dsimp only
  by_cases hs : (rq.tasks rq.curr).policy = .short
  · rw [if_pos hs]
    exact .refl D rq
  · rw [if_neg hs]
    by_cases hcap : increment < 0 ∧ (rq.tasks rq.curr).capSysNice = false
    · rw [if_pos hcap]
      exact .refl D rq
    · rw [if_neg hcap]
      exact hset _

theorem setpriorityList_calms (niceval : ℤ) (sel : List ℕ) (r : ℤ × Runqueue) :
    Calms D r.2 (sel.foldl (setpriorityOne niceval) r).2 := by
  induction sel generalizing r with
  | nil => exact .refl D _
  | cons p sel ih =>
    refine Calms.trans ?_ (ih _)
    unfold setpriorityOne
    dsimp only
    split_ifs
    · exact .refl D _
    · exact .refl D _
    all_goals exact setUserNice_calms _ p niceval

theorem sysSetpriority_calms (rq : Runqueue) (which niceval : ℤ) (sel : List ℕ) :
    Calms D rq (rq.sysSetpriority which sel niceval).2 := by
  unfold sysSetpriority
  by_cases hw : which > 2 ∨ which < 0
  · rw [if_pos hw]
    exact .refl D rq
  · rw [if_neg hw]
    exact setpriorityList_calms _ sel (-esrch, rq)

theorem rescheduled_state (t : Task) (policy : Policy) (lp : SchedParam) :
    (t.rescheduled c policy lp).state = t.state := by
  simp only [Task.rescheduled]
  split_ifs <;> rfl

theorem changePolicy_calms (rq : Runqueue) (policy : Policy) (lp : SchedParam) (p : ℕ) :
    Calms D rq (changePolicy c jiffies policy lp rq p) := by
  unfold changePolicy
  cases hA : (rq.tasks p).array with
  | none => exact .setTask (rescheduled_state _ _ _) (rescheduled_array _ _ _)
  | some A =>
    obtain ⟨n, arrays, he⟩ := deactivateTask_arrays rq p A
    refine .of_only ((only_deactivateTask rq p A).trans ((Only.setTask _ p _).trans (only_activateTask _ p)))
      fun _ => ?_
    rw [activateTask_self]
    refine .queued ?_ (by simp [hA]) (by simp)
    rw [awake_state, setTask_tasks_self, rescheduled_state, he, setTask_tasks_self]

theorem setscheduler_calms (rq : Runqueue) (pid policy : ℤ) (param : UserParam) :
    Calms D rq (rq.setscheduler c jiffies pid policy param).2 := by
  by_cases hok : ∃ lp p policy', param = .readable lp ∧ ¬ pid < 0 ∧ rq.findProcessByPid pid = some p ∧
      Task.checkScheduler (rq.tasks rq.curr) (rq.tasks p) policy lp = .ok policy'
  · obtain ⟨lp, p, policy', rfl, hpid, hp, hc⟩ := hok
    have hm : Calms D rq (changePolicy c jiffies policy' lp rq p) := changePolicy_calms rq policy' lp p
    rw [setscheduler_ok hpid hp hc]
    dsimp only
    split_ifs
    · exact hm.trans (.reschedTask _ _)
    · exact hm
  · obtain ⟨r, -, hr⟩ := @setscheduler_fails rq c jiffies pid policy param
      fun lp p policy' h₁ h₂ h₃ h₄ => hok ⟨lp, p, policy', h₁, h₂, h₃, h₄⟩
    rw [hr]
    exact .refl D rq

theorem yieldCurrent_calms (rq : Runqueue) (A : Fin 3) : Calms D rq (rq.yieldCurrent A) := by
  have hdel : Calms D rq (rq.listDel rq.curr) := .of_same rfl rfl
  rw [yieldCurrent_eq]
  dsimp only
  split_ifs
  · exact .of_same rfl rfl
  · exact .of_same rfl rfl
  · exact .of_same rfl rfl
  · refine hdel.trans (.of_only ⟨rfl, rfl, rfl, (Only.setTask _ rq.curr _).tasks⟩ fun _ => ?_)
    change Task.Calm _ (((rq.listDel rq.curr).setTask rq.curr _).tasks rq.curr)
    rw [setTask_tasks_self]
    exact .of_same rfl rfl

/-- Only a task that is about to sleep is taken out of its queue. -/
theorem deactivatePrev_calms (h : rq.Ok) {signal : Bool} {d : Runqueue}
    (hd : rq.deactivatePrev jiffies signal = some d) : Calms D rq d := by
  have h₁ : Calms D rq (rq.setTask rq.curr { rq.tasks rq.curr with sleepTimestamp := jiffies }) :=
    .setTask rfl rfl
  unfold deactivatePrev at hd
  dsimp only at hd
  have hne : (rq.tasks rq.curr).state ≠ .running → (rq.tasks rq.curr).array ≠ none := by
    intro hs
    refine (h.curr fun he => hs ?_).2 (by simp)
    rw [he]
    exact h.idleRunning
  split_ifs at hd with hrun hsig
  · exact Option.some.inj hd ▸ h₁
  · obtain rfl := Option.some.inj hd
    refine h₁.trans (.of_only (.setTask _ _ _) fun _ => .inr ?_)
    rw [setTask_tasks_self] at hrun ⊢
    refine ⟨rfl, ?_⟩
    rw [setTask_tasks_self]
    exact hne hrun
  · split at hd
    · cases hd
    · rename_i A hA
      obtain rfl := Option.some.inj hd
      refine h₁.trans (.of_only (only_deactivateTask _ _ A) fun _ => ?_)
      obtain ⟨n, arrays, he⟩ :=
        deactivateTask_arrays (rq.setTask rq.curr { rq.tasks rq.curr with sleepTimestamp := jiffies }) rq.curr A
      rw [he, setTask_tasks_self, setTask_tasks_self]
      rw [setTask_tasks_self] at hrun
      exact .inl ⟨rfl, fun _ => rfl, fun hr => absurd hr hrun⟩

theorem schedule_calms (h : rq.Ok) {signal : Bool} (hs : rq.schedule jiffies signal = some rq') :
    Calms D rq rq' := by
  obtain ⟨d, hd, hr⟩ := Option.bind_eq_some_iff.mp hs
  obtain ⟨⟨next, r⟩, hpick, rfl⟩ := Option.map_eq_some_iff.mp hr
  have hpicked : Calms D d r := by
    unfold pickNext at hpick
    split_ifs at hpick
    · obtain ⟨-, rfl⟩ := Prod.mk.inj (Option.some.inj hpick)
      exact .of_same rfl rfl
    · obtain ⟨next', -, he⟩ := Option.map_eq_some_iff.mp hpick
      obtain ⟨-, rfl⟩ := Prod.mk.inj he
      unfold switchArrays
      split_ifs <;> exact .of_same rfl rfl
  have hflag : Calms D r (r.setTask rq.curr { r.tasks rq.curr with needResched := false }) := .setTask rfl rfl
  exact (deactivatePrev_calms h hd).trans (hpicked.trans (hflag.trans (.of_same rfl rfl)))

theorem forked_calms {pid : ℕ} (hpc : rq.curr ≠ pid) :
    Calms {pid} rq (forked c jiffies pid rq) := by
  have h₁ : Calms {pid} rq (rq.setTask pid ((rq.tasks rq.curr).childOf jiffies)) :=
    .of_only (.setTask rq pid _) fun hp => absurd rfl hp
  have hcurr := setTask_tasks_of_ne rq ((rq.tasks rq.curr).childOf jiffies) hpc
  have h₂ : ∀ n, Calms {pid} (rq.setTask pid ((rq.tasks rq.curr).childOf jiffies))
      ((rq.setTask pid ((rq.tasks rq.curr).childOf jiffies)).setTask rq.curr
        { rq.tasks rq.curr with timeSlice := n }) :=
    fun n => .setTask (by rw [hcurr]) (by rw [hcurr])
  unfold forked
  dsimp only
  split_ifs
  · set r := (rq.setTask pid ((rq.tasks rq.curr).childOf jiffies)).setTask rq.curr
      { rq.tasks rq.curr with timeSlice := (rq.tasks rq.curr).timeSlice / 2 }
    have h₃ : Calms {pid} r (r.setTask r.curr { r.tasks r.curr with timeSlice := 1 }) := .setTask rfl rfl
    exact ((h₁.trans (h₂ _)).trans h₃).trans (schedulerTick_calms _)
  · exact h₁.trans (h₂ _)

theorem doFork_calms (h : rq.Ok) {newPid : Except ForkRefusal ℕ} {vfork : Bool} {r : ℤ}
    (hp : ∀ p ∈ newPid.toOption, rq.hashed p = false ∧ p ≠ rq.idle)
    (hf : rq.doFork c jiffies newPid vfork = some (r, rq')) : Calms {p | newPid = .ok p} rq rq' := by
  by_cases hs : (rq.tasks rq.curr).policy = .short
  · simp only [doFork, if_pos hs, Option.some.injEq, Prod.mk.injEq] at hf
    exact hf.2 ▸ .refl _ rq
  · cases newPid with
    | error e =>
      simp only [doFork, if_neg hs, Option.some.injEq, Prod.mk.injEq] at hf
      exact hf.2 ▸ .refl _ rq
    | ok pid =>
      obtain ⟨hu, hi⟩ := hp pid rfl
      have h₁ : Calms {pid} rq (forked c jiffies pid rq) := forked_calms (curr_ne_of_unhashed h hu hi)
      rw [doFork_eq rq hs] at hf
      by_cases hz : (rq.tasks rq.curr).timeSlice = 0
      · simp [hz] at hf
      rw [if_neg hz] at hf
      set w : Runqueue := { forked c jiffies pid rq with
        hashed := Function.update (forked c jiffies pid rq).hashed pid true } with hw
      have h₂ : Calms {pid} rq w := by
        refine ⟨fun p hp => ?_, h₁.tasks⟩
        rw [hw]
        by_cases hpp : p = pid
        · subst hpp
          exact Function.update_self ..
        · simp only [Function.update_of_ne hpp]
          exact h₁.hashed p hp
      have h₃ : Calms {pid} rq (w.wakeUpForkedProcess c jiffies pid) := h₂.trans (wakeUpForkedProcess_calms w pid)
      have hD : ({pid} : Set ℕ) ⊆ {p | (.ok pid : Except ForkRefusal ℕ) = .ok p} :=
        fun p hp => congrArg Except.ok (Eq.symm hp)
      obtain ⟨-, rfl⟩ := Prod.mk.inj (Option.some.inj hf)
      split_ifs
      · exact h₃.mono hD
      · exact (h₃.trans (.reschedTask _ _)).mono hD

theorem initIdle_calms (hc : rq.curr = rq.idle) (A : Fin 3) : Calms {rq.idle} rq (rq.initIdle A) := by
  rw [initIdle_eq hc, ← hc]
  have hoff : Calms {rq.curr} rq (rq.deactivateTask rq.curr A) :=
    .of_only (only_deactivateTask rq rq.curr A) fun hp => absurd rfl hp
  have hset : ∀ r t, Calms {rq.curr} r (r.setTask rq.curr t) :=
    fun r t => .of_only (.setTask r _ t) fun hp => absurd rfl hp
  exact (hoff.trans (hset _ _)).trans (.reschedTask _ _)

/-- The tasks of which an event may change the state in another way. -/
def touched (rq : Runqueue) : Event → Set ℕ
  | .setState _ => {rq.curr}
  | .doFork newPid _ => {p | newPid = .ok p}
  | .initIdle => {rq.idle}
  | _ => ∅

theorem step_calms (h : rq.Ok) (ha : rq.Allowed e) {r : ℤ} (hs : rq.step c jiffies e = some (r, rq')) :
    Calms (rq.touched e) rq rq' := by
  cases e with
  | tryToWakeUp p =>
    cases hs
    exact tryToWakeUp_calms rq p
  | wakeUpForkedProcess p =>
    cases hs
    exact wakeUpForkedProcess_calms rq p
  | schedulerTick =>
    cases hs
    exact schedulerTick_calms rq
  | schedule signal =>
    obtain ⟨r', hr, he⟩ := Option.map_eq_some_iff.mp hs
    obtain ⟨-, rfl⟩ := Prod.mk.inj he
    exact schedule_calms h hr
  | sysSchedYield signal =>
    obtain ⟨A, hA⟩ := Option.ne_none_iff_exists'.mp ((h.curr ha).2 (by simp))
    obtain ⟨r', hr, he⟩ := Option.map_eq_some_iff.mp hs
    obtain ⟨-, rfl⟩ := Prod.mk.inj he
    simp only [sysSchedYield, hA] at hr
    exact (yieldCurrent_calms rq A).trans (schedule_calms (ok_yieldCurrent h hA ha) hr)
  | setUserNice p nice =>
    cases hs
    exact setUserNice_calms rq p nice
  | sysNice increment =>
    have hq := sysNice_calms (D := ∅) rq increment
    rw [Option.some.inj hs] at hq
    exact hq
  | sysSetpriority which sel niceval =>
    have hq := sysSetpriority_calms (D := ∅) rq which niceval sel
    rw [Option.some.inj hs] at hq
    exact hq
  | setscheduler pid policy param =>
    have hq : Calms ∅ rq (rq.setscheduler c jiffies pid policy param).2 := setscheduler_calms rq pid policy param
    rw [Option.some.inj hs] at hq
    exact hq
  | setState state =>
    cases hs
    exact .of_only (.setTask rq _ _) fun hp => absurd rfl hp
  | setCred uid euid capSysNice =>
    cases hs
    exact .setTask rfl rfl
  | doFork newPid vfork => exact doFork_calms h ha.2 hs
  | initIdle =>
    obtain ⟨A, hA⟩ := Option.ne_none_iff_exists'.mp ha.2
    simp only [step, hA, Option.some.injEq, Prod.mk.injEq] at hs
    obtain ⟨-, rfl⟩ := hs
    exact initIdle_calms ha.1 A

end Runqueue

end OperationSystems.Sched
