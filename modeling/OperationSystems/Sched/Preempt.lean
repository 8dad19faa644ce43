import OperationSystems.Sched.Poised
import OperationSystems.Sched.Short

/-!
# Preemption at a wakeup

What `schedule` would choose is the first task in the order of the ranks. A
task that is woken goes to the end of its queue, so it is chosen only if its
rank is smaller than that of the current task, and then the test of
`try_to_wake_up` has set `need_resched`. A current task in the expired array
loses to every task that is woken, whatever the test says, but it was told to
reschedule by the tick that moved it there.
-/

namespace OperationSystems.Sched
open Transition

namespace Runqueue
variable {rq rq' : Runqueue} {p q : ℕ} {t : Task} {A : Fin 3} {c : Clock} {jiffies now : ℕ}
  {signal : Bool}

/-- `schedule` would make the task the current one. -/
def Chooses (rq : Runqueue) (now : ℕ) (signal : Bool) (q : ℕ) : Prop :=
  ∃ r, rq.schedule now signal = some r ∧ r.curr = q

/-- The current task is not taken off its queue. -/
def Stays (rq : Runqueue) (signal : Bool) : Prop :=
  (rq.tasks rq.curr).state = .running ∨ (rq.tasks rq.curr).state = .interruptible ∧ signal = true

theorem pickNext_setTask (rq : Runqueue) (p : ℕ) (t : Task) :
    (rq.setTask p t).pickNext.map Prod.fst = rq.pickNext.map Prod.fst := by
  have hs : (rq.setTask p t).switchArrays = rq.switchArrays.setTask p t := by
    by_cases ha : (rq.arrays rq.active).nrActive = 0
    · have ha' : ((rq.setTask p t).arrays (rq.setTask p t).active).nrActive = 0 := ha
      rw [switchArrays, switchArrays, if_pos ha, if_pos ha']
      rfl
    · have ha' : ((rq.setTask p t).arrays (rq.setTask p t).active).nrActive ≠ 0 := ha
      rw [switchArrays, switchArrays, if_neg ha, if_neg ha']
  unfold pickNext
  rw [hs]
  by_cases hz : rq.nrRunning = 0
  · have hz' : (rq.setTask p t).nrRunning = 0 := hz
    rw [if_pos hz, if_pos hz']
    rfl
  · have hz' : (rq.setTask p t).nrRunning ≠ 0 := hz
    rw [if_neg hz, if_neg hz']
    simp only [Option.map_map]
    rfl

/-- The previous task that stays on its queue changes in fields that the choice does not depend on. -/
theorem Stays.deactivatePrev (h : rq.Stays signal) :
    ∃ t, rq.deactivatePrev now signal = some (rq.setTask rq.curr t) ∧
      t.policy = (rq.tasks rq.curr).policy ∧ t.prio = (rq.tasks rq.curr).prio := by
  unfold Runqueue.deactivatePrev
  simp only [setTask_tasks_self, setTask_setTask]
  rcases h with hr | ⟨hi, hs⟩
  · rw [if_pos hr]
    exact ⟨_, rfl, rfl, rfl⟩
  · by_cases hr : (rq.tasks rq.curr).state = .running
    · rw [if_pos hr]
      exact ⟨_, rfl, rfl, rfl⟩
    · rw [if_neg hr, if_pos ⟨hi, hs⟩]
      exact ⟨_, rfl, rfl, rfl⟩

theorem deactivatePrev_leaves (h : ¬ rq.Stays signal) (hA : (rq.tasks rq.curr).array = some A) :
    rq.deactivatePrev now signal = some ((rq.setTask rq.curr
      { rq.tasks rq.curr with sleepTimestamp := now }).deactivateTask rq.curr A) := by
  obtain ⟨hrun, hint⟩ := not_or.mp h
  unfold deactivatePrev
  simp only [setTask_tasks_self, if_neg hrun, if_neg hint, hA]

theorem Stays.chooses (h : rq.Stays signal) :
    rq.Chooses now signal q ↔ rq.pickNext.map Prod.fst = some q := by
  obtain ⟨t, hd, -, -⟩ := @Stays.deactivatePrev rq now signal h
  rw [← pickNext_setTask rq rq.curr t]
  simp only [Chooses, schedule, hd, Option.bind_some, Option.map_eq_some_iff]
  constructor
  · rintro ⟨r, ⟨⟨next, s⟩, hp, rfl⟩, rfl⟩
    exact ⟨(next, s), hp, rfl⟩
  · rintro ⟨⟨next, s⟩, hp, rfl⟩
    exact ⟨_, ⟨(next, s), hp, rfl⟩, rfl⟩

theorem deactivateTask_array (rq : Runqueue) (p : ℕ) (A : Fin 3) :
    ((rq.deactivateTask p A).tasks p).array = none := by
  obtain ⟨n, arrays, he⟩ := deactivateTask_arrays rq p A
  rw [he, setTask_tasks_self]

/-- The idle task stays. -/
theorem curr_ne_idle (h : rq.Ok) (hs : ¬ rq.Stays signal) : rq.curr ≠ rq.idle := by
  intro he
  exact hs (Or.inl (he ▸ h.idleRunning))

/-- A task that is chosen again has stayed on its queue. -/
theorem Chooses.stays (h : rq.Ok) (hc : rq.Chooses now signal rq.curr) : rq.Stays signal := by
  by_contra hs
  have hne := curr_ne_idle h hs
  obtain ⟨A, hA⟩ := Option.ne_none_iff_exists'.mp ((h.curr hne).2 (by simp))
  obtain ⟨d, x, hd, hinv, -, hidle⟩ := @deactivatePrev_inv _ now signal h
  have hnone : (d.tasks rq.curr).array = none := by
    obtain rfl := Option.some.inj (hd.symm.trans (deactivatePrev_leaves hs hA))
    exact deactivateTask_array _ _ A
  obtain ⟨r, hr, hcurr⟩ := hc
  obtain ⟨d', r', hd', hr', -, hzero, hpos⟩ := schedule_spec h now signal
  obtain rfl := Option.some.inj (hd.symm.trans hd')
  obtain rfl := Option.some.inj (hr.symm.trans hr')
  by_cases hz : d.nrRunning = 0
  · exact hne (hcurr.symm.trans ((hzero hz).trans hidle))
  · obtain ⟨next, B, i, hpick, hplace, -⟩ := pickNext_spec hinv hz
    obtain ⟨rfl, -⟩ := Prod.mk.inj (Option.some.inj ((hpos hz).1.symm.trans hpick))
    rw [hcurr, placed_none hnone] at hplace
    cases hplace

theorem pick_first (h : rq.Ok) (hp : rq.pickNext.map Prod.fst = some q) :
    rq.nrRunning = 0 ∧ q = rq.idle ∨ rq.nrRunning ≠ 0 ∧ rq.switchArrays.First q := by
  by_cases hz : rq.nrRunning = 0
  · refine Or.inl ⟨hz, ?_⟩
    simpa [pickNext, hz, eq_comm] using hp
  · obtain ⟨next, A, i, hpick, -, hdis⟩ := pickNext_spec h hz
    rw [hpick] at hp
    obtain rfl := Option.some.inj hp
    exact Or.inr ⟨hz, hdis.first (switchArrays_inv h)⟩

theorem activateTask_arrays (rq : Runqueue) (p : ℕ) (B : Fin 3) :
    (rq.activateTask c jiffies p).arrays B =
      if B = rq.arrayFor (rq.tasks p) then
        (rq.arrays B).enqueue p (awake c jiffies (rq.tasks p)).queuePrio
      else rq.arrays B := by
  rw [activateTask_eq]
  change ((rq.setTask p _).enqueueTask p _).arrays B = _
  rw [enqueueTask_eq, setTask_tasks_self]
  by_cases hB : B = rq.arrayFor (rq.tasks p)
  · rw [if_pos hB, hB]
    simp [setTask, setArray]
  · rw [if_neg hB]
    simp [setTask, setArray, hB]

/-- The task that is activated goes behind the others. -/
theorem activateTask_head {i : ℤ} {l : List ℕ} (hq : (rq.arrays A).queue i = q :: l) :
    ∃ l', ((rq.activateTask c jiffies p).arrays A).queue i = q :: l' := by
  rw [activateTask_arrays]
  split_ifs
  · by_cases hi : i = (awake c jiffies (rq.tasks p)).queuePrio
    · subst hi
      exact ⟨l ++ [p], by simp [PrioArray.enqueue, hq]⟩
    · exact ⟨l, by simp [PrioArray.enqueue, hi, hq]⟩
  · exact ⟨l, hq⟩

theorem switchArrays_of_empty (h : (rq.arrays rq.active).nrActive = 0) :
    rq.switchArrays.active = rq.expired := by
  rw [switchArrays, if_pos h]

theorem switchArrays_of_ne (h : (rq.arrays rq.active).nrActive ≠ 0) : rq.switchArrays = rq := by
  rw [switchArrays, if_neg h]

/-- Nothing is in an empty array. -/
theorem array_ne_of_empty (h : rq.Ok) (hz : (rq.arrays A).nrActive = 0) (p : ℕ) :
    (rq.tasks p).array ≠ some A := by
  intro hp
  have hplace := (h.arrays A).count_zero hz (p := p)
  simp [placed, hp] at hplace

/-- The active array stays the same for the next choice, unless the task that is activated is the
first one in it. -/
theorem switchArrays_activateTask (h : rq.Ok) :
    (rq.activateTask c jiffies p).switchArrays.active = rq.switchArrays.active ∨
      (rq.arrays rq.active).nrActive = 0 ∧ rq.switchArrays.active = rq.expired ∧
        (rq.activateTask c jiffies p).switchArrays.active = rq.active := by
  set r := rq.activateTask c jiffies p with hr
  have hact : r.active = rq.active := rfl
  have hexp : r.expired = rq.expired := rfl
  by_cases hz : (rq.arrays rq.active).nrActive = 0
  · by_cases hs : rq.active = rq.arrayFor (rq.tasks p)
    · have hne : (r.arrays r.active).nrActive ≠ 0 := by
        rw [hact, hr, activateTask_arrays, if_pos hs]
        simp [PrioArray.enqueue, hz]
      exact Or.inr ⟨hz, switchArrays_of_empty hz, by rw [switchArrays_of_ne hne, hact]⟩
    · have hz' : (r.arrays r.active).nrActive = 0 := by
        rw [hact, hr, activateTask_arrays, if_neg hs]
        exact hz
      exact Or.inl ((switchArrays_of_empty hz').trans (hexp.trans (switchArrays_of_empty hz).symm))
  · have hne : (r.arrays r.active).nrActive ≠ 0 := by
      have hnn := nrActive_nonneg h rq.active
      rw [hact, hr, activateTask_arrays]
      split_ifs
      · simp only [PrioArray.enqueue]
        omega
      · exact hz
    rw [switchArrays_of_ne hne, switchArrays_of_ne hz]
    exact Or.inl hact

/-- The task that is woken either comes first, with the current one told so, or changes nothing. -/
theorem activateTask_first (h : rq.Poised) (hp : rq.hashed p = true)
    (ha : (rq.tasks p).array = none) (hfirst : rq.switchArrays.First rq.curr)
    (hrank : (rq.tasks rq.curr).rank ≤ ((rq.activateTask c jiffies p).tasks p).rank)
    (hflag : (rq.tasks rq.curr).needResched = false) :
    (rq.activateTask c jiffies p).switchArrays.First rq.curr := by
  set r := rq.activateTask c jiffies p with hr
  have ho := @only_activateTask c jiffies rq p
  have hok : r.Ok := ok_activateTask (h.ok.leave ha) (h.ok.valid p (by simp) (Or.inl hp)) (Or.inl hp)
  have hshort : r.shortPr = rq.shortPr := rfl
  obtain ⟨harr, htasks, hsh, -, -⟩ := switchArrays_same rq
  obtain ⟨harr', htasks', hsh', -, -⟩ := switchArrays_same r
  have hpc : rq.curr ≠ p := by
    intro he
    obtain ⟨A, -, hA, -, -⟩ := hfirst.head
    rw [htasks, he, ha] at hA
    cases hA
  have hcurr : r.tasks rq.curr = rq.tasks rq.curr := ho.tasks _ hpc
  have hcases := @switchArrays_activateTask rq p c jiffies h.ok
  obtain ⟨A, l, hA, hAs, hq⟩ := hfirst.head
  rw [htasks] at hA hq
  rw [harr] at hq
  refine ⟨?_, fun x hx => ?_⟩
  · obtain ⟨l', hl'⟩ := activateTask_head (c := c) (p := p) hq
    refine ⟨A, l', by rw [htasks', hcurr]; exact hA, ?_, by rw [harr', htasks', hcurr]; exact hl'⟩
    rw [hsh', hshort, ← hsh]
    rcases hcases with hs | ⟨-, hs, -⟩
    · rwa [hs]
    · refine Or.inr (hAs.resolve_left fun he => ?_)
      rw [he, hs] at hA
      rw [h.expired hA] at hflag
      cases hflag
  · rw [htasks', hcurr]
    by_cases hxp : x = p
    · rwa [hxp]
    · have hxt : r.tasks x = rq.tasks x := ho.tasks x hxp
      have hleast := hfirst.least x
      rw [htasks] at hleast
      rw [hxt]
      refine hleast ?_
      unfold Candidate at hx ⊢
      rw [htasks', hxt, hsh', hshort] at hx
      rw [htasks, hsh]
      rcases hcases with hs | ⟨hz, -, hs⟩
      · rwa [hs] at hx
      · rw [hs] at hx
        exact Or.inr (hx.resolve_left (array_ne_of_empty h.ok hz x))

/-- A wakeup either tells the current task to reschedule or finds that it stays ahead. -/
theorem tryToWakeUp_tells (ha : (rq.tasks p).array = none) (hpc : p ≠ rq.curr) :
    ((rq.tryToWakeUp c jiffies p).2.tasks rq.curr).needResched = true ∨
      (¬ Preempts ((rq.activateTask c jiffies p).tasks p) (rq.tasks rq.curr) ∧
        ¬ ((rq.activateTask c jiffies p).tasks p).prio < (rq.tasks rq.curr).prio) ∧
        ∃ t, (rq.tryToWakeUp c jiffies p).2 = (rq.activateTask c jiffies p).setTask p t := by
  have ho := @only_activateTask c jiffies rq p
  have hcurr : (rq.activateTask c jiffies p).tasks (rq.activateTask c jiffies p).curr =
      rq.tasks rq.curr := (congrArg _ ho.curr).trans (ho.tasks _ (Ne.symm hpc))
  unfold tryToWakeUp
  simp only [if_pos ha, hcurr]
  split_ifs with h₁ h₂
  · refine Or.inl ?_
    rw [setTask_tasks_of_ne _ _ (Ne.symm hpc), reschedTask, ho.curr, setTask_tasks_self]
  · refine Or.inl ?_
    rw [setTask_tasks_of_ne _ _ (Ne.symm hpc), reschedTask, ho.curr, setTask_tasks_self]
  · exact Or.inr ⟨⟨h₁, h₂⟩, _, rfl⟩

/-- If `schedule` would choose another task now, the current one has been told so. -/
def Told (curr : ℕ) (signal : Bool) (rq : Runqueue) : Prop :=
  ∀ now q, rq.Chooses now signal q → q ≠ curr → (rq.tasks curr).needResched = true

theorem curr_valid (h : rq.Poised) (hpick : rq.nrRunning = 0 ∧ rq.curr = rq.idle ∨
    rq.nrRunning ≠ 0 ∧ rq.switchArrays.First rq.curr) :
    (rq.tasks rq.curr).Valid ∨ (rq.tasks rq.curr).Idling := by
  rcases hpick with ⟨hz, hi⟩ | ⟨-, hfirst⟩
  · rw [hi]
    exact Or.inr ⟨h.idlePolicy, h.idlePrio (array_none_of_idle h.ok hz _)⟩
  · have hv := hfirst.candidate.valid (switchArrays_inv h.ok)
    rw [(switchArrays_same rq).2.1] at hv
    exact Or.inl hv

theorem tryToWakeUp_told (h : rq.Poised) (hc : rq.Chooses now signal rq.curr)
    (hp : rq.hashed p = true) (ha : (rq.tasks p).array = none) :
    Told rq.curr signal (rq.tryToWakeUp c jiffies p).2 := by
  intro now' q hq hne
  by_contra hflag
  have hpc : p ≠ rq.curr := by
    rintro rfl
    exact (h.ok.curr (hashed_ne_idle h.ok hp)).2 (by simp) ha
  have hstays := hc.stays h.ok
  have hpick := pick_first h.ok (hstays.chooses.mp hc)
  have hvp := h.ok.valid p (by simp) (Or.inl hp)
  have ho := @only_activateTask c jiffies rq p
  set r := rq.activateTask c jiffies p with hr
  have hok : r.Ok := ok_activateTask (h.ok.leave ha) hvp (Or.inl hp)
  have hrp : r.tasks p = { awake c jiffies (rq.tasks p) with array := some (rq.arrayFor (rq.tasks p)) } :=
    activateTask_self rq p
  have hvr : (r.tasks p).Valid := hok.valid p (by simp) (Or.inr (by rw [hrp]; simp))
  obtain ⟨⟨hpre, hprio⟩, t, ht⟩ := (tryToWakeUp_tells (c := c) ha hpc).resolve_left hflag
  rw [← hr] at hpre hprio ht
  have hrank : (rq.tasks rq.curr).rank ≤ (r.tasks p).rank :=
    not_lt.mp fun hlt => (hvr.preempts (curr_valid h hpick) hlt).elim hpre hprio
  have hcurr : (r.setTask p t).tasks rq.curr = rq.tasks rq.curr :=
    (setTask_tasks_of_ne r t (Ne.symm hpc)).trans (ho.tasks _ (Ne.symm hpc))
  rw [ht] at hq hflag
  rw [hcurr, Bool.not_eq_true] at hflag
  have hstays' : (r.setTask p t).Stays signal := by
    have hcc : (r.setTask p t).curr = rq.curr := ho.curr
    rw [Stays, hcc, hcurr]
    exact hstays
  have hpick' := hstays'.chooses.mp hq
  rw [pickNext_setTask] at hpick'
  rcases hpick with ⟨hz, hi⟩ | ⟨-, hfirst⟩
  · have hidle : (rq.tasks rq.curr).Idling := by
      rw [hi]
      exact ⟨h.idlePolicy, h.idlePrio (array_none_of_idle h.ok hz _)⟩
    have hlt := hvr.rank_lt
    rw [hidle.rank] at hrank
    omega
  · have hfirst' := activateTask_first (c := c) h hp ha hfirst hrank hflag
    rcases pick_first hok hpick' with ⟨hz, -⟩ | ⟨-, hq'⟩
    · have hnone := array_none_of_idle hok hz p
      rw [hrp] at hnone
      cases hnone
    · exact hne (hq'.unique (switchArrays_inv hok) hfirst')

theorem setscheduler_told (h : rq.Poised) {pid : ℤ} {param : UserParam}
    (hset : rq.setscheduler c jiffies pid schedShort param = (0, rq')) : Told rq.curr signal rq' := by
  intro now q _ _
  by_cases hok : ∃ lp p policy', param = .readable lp ∧ ¬ pid < 0 ∧ rq.findProcessByPid pid = some p ∧
      Task.checkScheduler (rq.tasks rq.curr) (rq.tasks p) schedShort lp = .ok policy'
  · obtain ⟨lp, p, policy', rfl, hpid, hp, hc⟩ := hok
    obtain ⟨-, hpol, hother, -⟩ := Task.checkScheduler_ok hc
    obtain rfl := hpol.mpr rfl
    have hh := @changePolicy_heeds _ c jiffies h.ok .short lp p
    have hps : ((changePolicy c jiffies .short lp rq p).tasks p).policy = .short := by
      have hpar := congrArg Params.policy (@changePolicy_short c jiffies rq p lp)
      rwa [rescheduled_short _ (hother rfl).2] at hpar
    rw [setscheduler_ok hpid hp hc] at hset
    obtain ⟨-, rfl⟩ := Prod.mk.inj hset
    rw [if_pos hps, reschedTask, hh.curr, setTask_tasks_self]
  · obtain ⟨r, hne, hr⟩ := @setscheduler_fails rq c jiffies pid schedShort param
      fun lp p policy' h₁ h₂ h₃ h₄ => hok ⟨lp, p, policy', h₁, h₂, h₃, h₄⟩
    exact absurd (Prod.mk.inj (hr.symm.trans hset)).1 hne

theorem poised_told (h : rq.Poised) (hc : rq.Chooses now signal rq.curr) :
    (∀ p jiffies, rq.hashed p = true → (rq.tasks p).array = none →
      Told rq.curr signal (rq.tryToWakeUp c jiffies p).2) ∧
    ∀ jiffies pid param rq', rq.setscheduler c jiffies pid schedShort param = (0, rq') →
      Told rq.curr signal rq' :=
  ⟨fun _ _ => tryToWakeUp_told h hc, fun _ _ _ _ => setscheduler_told h⟩

/-- No preemption is missed in a state of a run in which `schedule` would keep the current task, the
idle task included. The tasks are those with a pid: the idle task is never woken. -/
theorem wakeup_told {boot : ℕ} {es : List (ℕ × Event)} (hrun : Run (Step c) (schedInit c boot) es rq)
    (hc : rq.Chooses now signal rq.curr) :
    (∀ p jiffies, rq.hashed p = true → (rq.tasks p).array = none →
      Told rq.curr signal (rq.tryToWakeUp c jiffies p).2) ∧
    ∀ jiffies pid param rq', rq.setscheduler c jiffies pid schedShort param = (0, rq') →
      Told rq.curr signal rq' :=
  poised_told (poised_run hrun) hc

instance (rq : Runqueue) (now : ℕ) (signal : Bool) (q : ℕ) : Decidable (rq.Chooses now signal q) :=
  decidable_of_iff ((rq.schedule now signal).map curr = some q) Option.map_eq_some_iff

/-- The first process starts a second one, becomes nicer and goes to sleep. -/
def sampleSleep : List (ℕ × Event) :=
  [(0, .doFork (.ok 1) false), (1, .initIdle), (1, .schedule false), (2, .doFork (.ok 2) false),
    (2, .schedule false), (3, .sysNice 10), (3, .setState .interruptible), (3, .schedule false)]

theorem sample_sleep : (Run.exec (next sampleClock) (schedInit sampleClock 0) sampleSleep).isSome = true := by
  decide +kernel

def sampleAsleep : Runqueue :=
  (Run.exec (next sampleClock) (schedInit sampleClock 0) sampleSleep).get sample_sleep

theorem sampleAsleep_run : Run (Step sampleClock) (schedInit sampleClock 0) sampleSleep sampleAsleep :=
  Run.of_exec (fun _ _ _ => step_of_next) (Option.some_get sample_sleep).symm

theorem wakeup_told_sample :
    (∀ jiffies, Told 2 false (sampleAsleep.tryToWakeUp sampleClock jiffies 1).2) ∧
    ∀ jiffies pid param rq', sampleAsleep.setscheduler sampleClock jiffies pid schedShort param = (0, rq') →
      Told 2 false rq' := by
  have hcurr : sampleAsleep.curr = 2 := by decide +kernel
  have hc : sampleAsleep.Chooses 3 false sampleAsleep.curr := by decide +kernel
  have hp : sampleAsleep.hashed 1 = true ∧ (sampleAsleep.tasks 1).array = none := by decide +kernel
  obtain ⟨hwake, hset⟩ := wakeup_told sampleAsleep_run hc
  rw [hcurr] at hwake hset
  exact ⟨fun jiffies => hwake 1 jiffies hp.1 hp.2, hset⟩

end Runqueue

end OperationSystems.Sched
