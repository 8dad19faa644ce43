import OperationSystems.Sched.Short

/-!
# Policies and real-time priorities

A task keeps the priorities that belong to its policy, as long as nothing
becomes `SCHED_SHORT` with a `sched_priority` other than 0: the field is stored
unchecked then, and the tick that ends `SCHED_SHORT` leaves it to a task of
`SCHED_OTHER`.
-/

namespace OperationSystems.Sched
open Transition

/-- The priorities belong to the policy. -/
structure Params.Sound (s : Params) : Prop where
  staticPrio : maxRtPrio ≤ s.staticPrio ∧ s.staticPrio < maxPrio
  other : s.policy = .other → s.rtPriority = 0 ∧ maxRtPrio ≤ s.prio ∧ s.prio < maxPrio
  rt : s.policy = .fifo ∨ s.policy = .rr →
    1 ≤ s.rtPriority ∧ s.rtPriority ≤ 99 ∧ s.prio = 99 - s.rtPriority
  short : s.policy = .short → s.rtPriority = 0 ∧ (maxRtPrio ≤ s.prio ∧ s.prio < maxPrio) ∧
    (0 ≤ s.shortPrio ∧ s.shortPrio < maxPrio) ∧ 1 ≤ s.timeLeft ∧ s.timeLeft < 2 ^ 32

/-- Nothing becomes `SCHED_SHORT` with a `sched_priority` other than 0. -/
def Runqueue.PriorityZero (rq : Runqueue) (e : Event) : Prop :=
  ∀ pid lp p, e = .setscheduler pid schedShort (.readable lp) → rq.findProcessByPid pid = some p →
    Task.checkScheduler (rq.tasks rq.curr) (rq.tasks p) schedShort lp = .ok .short →
    lp.schedPriority = 0

namespace Params.Sound
variable {s t : Params} {n : ℤ} {c : Clock} {o : Runqueue × Event}

theorem policy_other (h : s.Sound) (hs : s.policy ≠ .short) (hp : maxRtPrio ≤ s.prio) :
    s.policy = .other := by
  cases hpol : s.policy with
  | other => rfl
  | short => exact absurd hpol hs
  | fifo =>
    have hrt := h.rt (Or.inl hpol)
    simp only [maxRtPrio] at hp
    omega
  | rr =>
    have hrt := h.rt (Or.inr hpol)
    simp only [maxRtPrio] at hp
    omega

theorem rtPriority (h : s.Sound) (hs : s.policy ≠ .short) :
    s.rtPriority ≤ 99 ∧ (s.policy = .other ↔ s.rtPriority = 0) := by
  have hrt : s.policy = .fifo ∨ s.policy = .rr →
      s.rtPriority ≤ 99 ∧ (s.policy = .other ↔ s.rtPriority = 0) := by
    intro hp
    obtain ⟨h1, h99, -⟩ := h.rt hp
    refine ⟨h99, iff_of_false (fun ho => ?_) (by omega)⟩
    rcases hp with hp | hp <;>
    · rw [hp] at ho
      cases ho
  cases hp : s.policy with
  | other =>
    have h0 := (h.other hp).1
    simp [h0]
  | short => exact absurd hp hs
  | fifo => exact hp ▸ hrt (Or.inl hp)
  | rr => exact hp ▸ hrt (Or.inr hp)

theorem rescheduled_other (u : Task) (lp : SchedParam) :
    (u.rescheduled c .other lp).params = { u.params with
      policy := .other, rtPriority := (lp.schedPriority % 2 ^ 32).toNat, prio := u.staticPrio } := by
  simp [Task.rescheduled, Task.params]

theorem rescheduled_rt (u : Task) (lp : SchedParam) {policy : Policy}
    (hp : policy = .fifo ∨ policy = .rr) :
    (u.rescheduled c policy lp).params = { u.params with
      policy := policy
      rtPriority := (lp.schedPriority % 2 ^ 32).toNat
      prio := maxUserRtPrio - 1 - (lp.schedPriority % 2 ^ 32).toNat } := by
  rcases hp with rfl | rfl <;> simp [Task.rescheduled, Task.params]

theorem rescheduled {current u : Task} {pol : ℤ} {policy : Policy} {lp : SchedParam}
    (h : u.params.Sound) (hc : Task.checkScheduler current u pol lp = .ok policy)
    (hz : policy = .short → lp.schedPriority = 0) :
    (u.rescheduled c policy lp).params.Sound := by
  obtain ⟨hs, hpol, hshort, hrange⟩ := Task.checkScheduler_ok hc
  have hrt : policy = .fifo ∨ policy = .rr → (u.rescheduled c policy lp).params.Sound := by
    intro hp
    have hne : policy ≠ .short ∧ policy ≠ .other := by
      rcases hp with rfl | rfl <;> simp
    obtain ⟨hr, hzero⟩ := hrange hne.1
    have hpos : lp.schedPriority ≠ 0 := fun h0 => hne.2 (hzero.mpr h0)
    simp only [maxUserRtPrio] at hr
    rw [rescheduled_rt u lp hp]
    refine ⟨h.staticPrio, fun ho => absurd ho hne.2, fun _ => ?_, fun hs => absurd hs hne.1⟩
    simp only [maxUserRtPrio]
    omega
  cases policy with
  | other =>
    have hp := (hrange (by simp)).2.mp rfl
    rw [rescheduled_other]
    exact ⟨h.staticPrio, fun _ => ⟨by simp [hp], h.staticPrio⟩, by simp, by simp⟩
  | fifo => exact hrt (Or.inl rfl)
  | rr => exact hrt (Or.inr rfl)
  | short =>
    obtain ⟨hother, hbad⟩ := hshort rfl
    have hprio := (h.other hother).2
    obtain ⟨-, hsp⟩ := Task.not_bad_iff.mp hbad
    have hz := hz rfl
    have hlt := Runqueue.requested_lt (c := c) hbad
    rw [Runqueue.rescheduled_short u hbad]
    refine ⟨h.staticPrio, by simp, by simp, fun _ => ⟨by simp [hz], hprio, ?_, ?_⟩⟩
    · simp only [maxPrio]
      omega
    · dsimp only
      omega

theorem quiet (hq : Quiet c o s t) (hw : ∀ p, o.2 ≠ .wakeUpForkedProcess p)
    (hz : o.1.PriorityZero o.2) (h : s.Sound) : t.Sound := by
  induction hq with
  | refl s => exact h
  | trans _ _ ih₁ ih₂ => exact ih₂ (ih₁ h)
  | prio s n hs hp hn =>
    have ho := h.policy_other hs hp
    exact ⟨h.staticPrio, fun _ => ⟨(h.other ho).1, hn⟩, by simp [ho], by simp [ho]⟩
  | nice s n hs hp hn =>
    have ho := h.policy_other hs hp
    exact ⟨hn, fun _ => ⟨(h.other ho).1, hn⟩, by simp [ho], by simp [ho]⟩
  | rtNice s n hs hn => exact ⟨hn, h.other, h.rt, h.short⟩
  | wake s p he _ => exact absurd he (hw p)
  | policy p pid pol policy lp he hp hc =>
    refine h.rescheduled hc fun hs => ?_
    subst hs
    obtain rfl := (Task.checkScheduler_ok hc).2.1.mp rfl
    exact hz pid lp p he hp hc

end Params.Sound

namespace Runqueue
variable {rq rq' : Runqueue} {p : ℕ} {c : Clock} {jiffies : ℕ} {e : Event}

/-- The tasks with a pid and the swapper as long as it is queued. -/
def Live (rq : Runqueue) (p : ℕ) : Prop := rq.hashed p = true ∨ (rq.tasks p).array ≠ none

def Sound (rq : Runqueue) : Prop := ∀ p, rq.Live p → (rq.tasks p).params.Sound

theorem demoted_rtPriority (t : Task) (n : ℕ) (A : Option (Fin 3)) :
    ({ demoted c { t with timeLeft := n } with array := A } : Task).rtPriority = t.rtPriority := rfl

theorem sound_demoted {t : Task} {n : ℤ} (hn : maxRtPrio ≤ n ∧ n < maxPrio) (hpol : t.policy = .other)
    (hrt : t.rtPriority = 0) (hs : t.staticPrio = min (n + 7) 139) (hp : t.prio = t.staticPrio) :
    t.params.Sound := by
  have hrange : maxRtPrio ≤ t.staticPrio ∧ t.staticPrio < maxPrio := by
    simp only [maxRtPrio, maxPrio] at hn ⊢
    omega
  have hother : t.params.policy = .other := hpol
  exact ⟨hrange, fun _ => ⟨hrt, (hp.symm ▸ hrange : maxRtPrio ≤ t.prio ∧ t.prio < maxPrio)⟩,
    by simp [hother], by simp [hother]⟩

theorem Sound.tickShort (h : rq.Sound) (hv : (rq.tasks p).Valid) (hp : rq.Live p)
    (hs : (rq.tasks p).policy = .short) : ((rq.tickShort c p).tasks p).params.Sound := by
  have hold := h p hp
  obtain ⟨hrt, hprio, hsp, hpos, hlt⟩ := hold.short hs
  have hpos : 0 < (rq.tasks p).timeLeft := hpos
  by_cases hz : sub32 (rq.tasks p).timeLeft 1 = 0
  · obtain ⟨hpol, hstatic, hpr, -⟩ := tickShort_demotes (c := c) hv hz
    have hzero : ((rq.tickShort c p).tasks p).rtPriority = 0 := by
      rw [tickShort_self hz, demoted_rtPriority]
      exact hrt
    exact sound_demoted hv.staticPrio hpol hzero hstatic hpr
  · have hlt : (rq.tasks p).timeLeft < 2 ^ 32 := hlt
    have hsub := sub32_one hpos hlt
    rw [tickShort_counts hz]
    refine ⟨hold.staticPrio, hold.other, hold.rt, fun _ => ⟨hrt, hprio, hsp, ?_, ?_⟩⟩
    · dsimp only
      omega
    · dsimp only
      omega

theorem Sound.step (h : rq.Ok) (hsound : rq.Sound) (ha : rq.Allowed e) {r : ℤ}
    (hs : rq.step c jiffies e = some (r, rq')) (hw : ∀ p, e ≠ .wakeUpForkedProcess p)
    (hz : rq.PriorityZero e) : rq'.Sound := by
  rcases step_cases h ha hs with hq | ⟨-, hi, hsh, rfl⟩ | ⟨pid, vfork, he, -, -, -, hf⟩ |
    ⟨-, -, ho, harr⟩
  · intro p hp
    by_cases hh : rq.hashed p = true
    · exact (hsound p (Or.inl hh)).quiet (hq.quiet p) hw hz
    · obtain ⟨hpar, hA⟩ := hq.unhashed p (by simpa using hh)
      rw [hpar]
      refine hsound p (Or.inr ?_)
      rw [← hA]
      exact hp.resolve_left (by rwa [hq.hashed])
  · have hh := (h.curr hi).1
    have ho := @only_schedulerTick c jiffies rq
    intro p hp
    by_cases hpc : p = rq.curr
    · subst hpc
      rw [schedulerTick_short h hh hsh]
      exact hsound.tickShort (h.valid _ (by simp) (Or.inl hh)) (Or.inl hh) hsh
    · rw [Live, ho.hashed, ho.tasks p hpc] at hp
      rw [ho.tasks p hpc]
      exact hsound p hp
  · intro p hp
    by_cases hpp : p = pid
    · subst hpp
      have hcurr : (rq.tasks rq.curr).array ≠ none := by
        rw [he] at ha
        exact ha.1
      exact (hsound rq.curr (Or.inr hcurr)).quiet hf.child hw hz
    · by_cases hh : rq.hashed p = true
      · exact (hsound p (Or.inl hh)).quiet (hf.quiet p hpp) hw hz
      · obtain ⟨hpar, hA⟩ := hf.unhashed p hpp (by simpa using hh)
        rw [hpar]
        refine hsound p (Or.inr ?_)
        rw [← hA]
        refine hp.resolve_left ?_
        rw [hf.hashed]
        simpa [hpp] using hh
  · intro p hp
    by_cases hpi : p = rq.idle
    · subst hpi
      rw [Live, ho.hashed, h.idleUnhashed] at hp
      exact absurd harr (hp.resolve_left (by simp))
    · rw [Live, ho.hashed, ho.tasks p hpi] at hp
      rw [ho.tasks p hpi]
      exact hsound p hp

/-- A step in which a process that was forked is woken by its fork only. -/
def ForkStep (c : Clock) (rq : Runqueue) (e : ℕ × Event) (rq' : Runqueue) : Prop :=
  Step c rq e rq' ∧ ∀ p, e.2 ≠ .wakeUpForkedProcess p

/-- Such a step in which nothing becomes `SCHED_SHORT` with a `sched_priority` other than 0. -/
def ZeroStep (c : Clock) (rq : Runqueue) (e : ℕ × Event) (rq' : Runqueue) : Prop :=
  ForkStep c rq e rq' ∧ rq.PriorityZero e.2

theorem sound_initTask : (Task.initTask c).params.Sound := by
  refine ⟨?_, fun _ => ⟨rfl, ?_⟩, ?_, fun h => by cases h⟩
  · simp [Task.params, Task.initTask, maxRtPrio, maxPrio]
  · simp [Task.params, Task.initTask, maxRtPrio, maxPrio]
  · simp [Task.params, Task.initTask]

theorem sound_schedInit : (schedInit c jiffies).Sound := by
  intro p _
  have hq := @tryToWakeUp_quiet c jiffies (emptyRunqueue c, .schedulerTick)
    (emptyRunqueue c) 0 p
  exact sound_initTask.quiet hq (by simp) fun _ _ _ h => by cases h

theorem sound_run {es : List (ℕ × Event)} (hrun : Run (ZeroStep c) (schedInit c jiffies) es rq) :
    rq.Ok ∧ rq.Sound :=
  hrun.invariant (P := fun rq => rq.Ok ∧ rq.Sound) ⟨ok_schedInit, sound_schedInit⟩
    fun _ _ _ hok hs => ⟨ok_step hok.1 hs.1.1.1 hs.1.1.2.choose_spec,
      hok.2.step hok.1 hs.1.1.1 hs.1.1.2.choose_spec hs.1.2 hs.2⟩

theorem sysSchedGetparam_ok {pid : ℤ} {null ok : Bool} {junk lp : SchedParam}
    (h : rq.sysSchedGetparam pid null ok junk = (0, some lp)) :
    ¬ pid < 0 ∧ ∃ p, rq.findProcessByPid pid = some p ∧
      lp.schedPriority = ((rq.tasks p).rtPriority : ℤ).bmod (2 ^ 32) := by
  unfold sysSchedGetparam at h
  by_cases hpid : null = true ∨ pid < 0
  · simp [hpid] at h
  rw [if_neg hpid] at h
  cases hp : rq.findProcessByPid pid with
  | none => simp [hp] at h
  | some p =>
    rw [hp] at h
    dsimp only at h
    cases ok with
    | false => simp at h
    | true =>
      simp only [if_true, Prod.mk.injEq, Option.some.injEq, true_and] at h
      exact ⟨fun hneg => hpid (Or.inr hneg), p, rfl, by rw [← h]⟩

theorem bmod_of_small {n : ℕ} (hn : n ≤ 99) : (n : ℤ).bmod (2 ^ 32) = n :=
  Int.bmod_eq_of_le (by omega) (by omega)

/-- What a capable caller reads as the priority of a task, it can set again. -/
theorem setparam_accepts {pid : ℤ} {lp : SchedParam} {t : Task} (hpid : ¬ pid < 0)
    (hp : rq.findProcessByPid pid = some p) (ht : rq.tasks p = t) (hsound : t.params.Sound)
    (hs : t.policy ≠ .short) (hcap : (rq.tasks rq.curr).capSysNice = true)
    (hlp : lp.schedPriority = t.rtPriority) :
    (rq.sysSchedSetparam c jiffies pid (.readable lp)).1 = 0 := by
  have hrange : t.rtPriority ≤ 99 ∧ (t.policy = .other ↔ t.rtPriority = 0) := hsound.rtPriority hs
  have hc : Task.checkScheduler (rq.tasks rq.curr) t (-1) lp = .ok t.policy := by
    have h1 : ¬ (lp.schedPriority < 0 ∨ lp.schedPriority > maxUserRtPrio - 1) := by
      simp only [maxUserRtPrio]
      omega
    have h2 : t.policy = .other ↔ lp.schedPriority = 0 := by
      rw [hlp, hrange.2]
      omega
    have hpol : ¬ ((-1 : ℤ) = schedShort) := by decide
    refine Task.checkScheduler_passed.mpr ⟨if_pos (by decide), fun hb => hpol hb.1,
      fun hb => hb.elim hs fun hb => hpol hb.2, fun hb => h1 hb.2, fun hb => hb.2 h2, ?_, ?_⟩
    · simp [hcap]
    · simp [hcap]
  rw [← ht] at hc
  rw [sysSchedSetparam, setscheduler_ok hpid hp hc]

/-- The priorities of every task but the idle one belong to its policy, what `sched_getparam`
reports can be set again, and nothing is left of the `sched_priority` of a `SCHED_SHORT` task. -/
structure PolicyConsistent (c : Clock) (rq : Runqueue) : Prop where
  other : ∀ p, rq.hashed p = true → (rq.tasks p).policy = .other →
    (rq.tasks p).rtPriority = 0 ∧ 100 ≤ (rq.tasks p).prio ∧ (rq.tasks p).prio ≤ 139
  rt : ∀ p, rq.hashed p = true → (rq.tasks p).policy = .fifo ∨ (rq.tasks p).policy = .rr →
    1 ≤ (rq.tasks p).rtPriority ∧ (rq.tasks p).rtPriority ≤ 99 ∧
      (rq.tasks p).prio = 99 - (rq.tasks p).rtPriority
  short : ∀ p, rq.hashed p = true → (rq.tasks p).policy = .short →
    (100 ≤ (rq.tasks p).prio ∧ (rq.tasks p).prio ≤ 139) ∧
      (0 ≤ (rq.tasks p).shortPrio ∧ (rq.tasks p).shortPrio ≤ 139) ∧ 1 ≤ (rq.tasks p).timeLeft
  accepted : rq.curr ≠ rq.idle → (rq.tasks rq.curr).capSysNice = true →
    ∀ pid p null ok junk lp, rq.findProcessByPid pid = some p → (rq.tasks p).policy ≠ .short →
      rq.sysSchedGetparam pid null ok junk = (0, some lp) →
      ∀ jiffies, (rq.sysSchedSetparam c jiffies pid (.readable lp)).1 = 0
  ignored : rq.curr ≠ rq.idle → ∀ pid p null ok junk lp, rq.findProcessByPid pid = some p →
    (rq.tasks p).policy = .short ∨ (rq.tasks p).policy = .other →
      rq.sysSchedGetparam pid null ok junk = (0, some lp) → lp.schedPriority = 0

theorem policy_consistent {es : List (ℕ × Event)}
    (hrun : Run (ZeroStep c) (schedInit c jiffies) es rq) : rq.PolicyConsistent c := by
  obtain ⟨hok, hsound⟩ := sound_run hrun
  have hlive : ∀ p, rq.hashed p = true → (rq.tasks p).params.Sound := fun p hp => hsound p (Or.inl hp)
  refine ⟨fun p hp hpol => ?_, fun p hp hpol => (hlive p hp).rt hpol, fun p hp hpol => ?_,
    fun hcurr hcap pid p null ok junk lp hp hs hget now => ?_,
    fun hcurr pid p null ok junk lp hp hpol hget => ?_⟩
  · obtain ⟨h0, h1, h2⟩ := (hlive p hp).other hpol
    exact ⟨h0, h1, Int.le_of_lt_add_one h2⟩
  · obtain ⟨-, ⟨h1, h2⟩, ⟨h3, h4⟩, h5, -⟩ := (hlive p hp).short hpol
    exact ⟨⟨h1, Int.le_of_lt_add_one h2⟩, ⟨h3, Int.le_of_lt_add_one h4⟩, h5⟩
  · have hs' := hlive p (findProcessByPid_hashed hok hcurr hp)
    obtain ⟨hpid, q, hq, hlp⟩ := sysSchedGetparam_ok hget
    obtain rfl := Option.some.inj (hp.symm.trans hq)
    have hrt : (rq.tasks p).rtPriority ≤ 99 := (hs'.rtPriority hs).1
    rw [bmod_of_small hrt] at hlp
    exact setparam_accepts hpid hp rfl hs' hs hcap hlp
  · have hs' := hlive p (findProcessByPid_hashed hok hcurr hp)
    obtain ⟨-, q, hq, hlp⟩ := sysSchedGetparam_ok hget
    obtain rfl := Option.some.inj (hp.symm.trans hq)
    have hrt : (rq.tasks p).rtPriority = 0 := by
      rcases hpol with hpol | hpol
      · exact (hs'.short hpol).1
      · exact (hs'.other hpol).1
    rw [hlp, hrt]
    rfl

/-- A step of a run in which forks wake their children themselves. -/
def forkNext (c : Clock) (rq : Runqueue) (e : ℕ × Event) : Option Runqueue :=
  match e.2 with
  | .wakeUpForkedProcess _ => none
  | _ => next c rq e

/-- Such a step, with no call of `setscheduler` for a `sched_priority` other than 0. -/
def zeroNext (c : Clock) (rq : Runqueue) (e : ℕ × Event) : Option Runqueue :=
  match e.2 with
  | .setscheduler _ _ (.readable lp) => if lp.schedPriority = 0 then forkNext c rq e else none
  | _ => forkNext c rq e

theorem forkStep_of_next {e : ℕ × Event} (h : forkNext c rq e = some rq') : ForkStep c rq e rq' := by
  unfold forkNext at h
  split at h
  · cases h
  · rename_i hne
    exact ⟨step_of_next h, hne⟩

theorem zeroStep_of_next {e : ℕ × Event} (h : zeroNext c rq e = some rq') : ZeroStep c rq e rq' := by
  unfold zeroNext at h
  split at h
  · rename_i pid pol lp he
    split_ifs at h with hz
    refine ⟨forkStep_of_next h, fun pid' lp' p he' _ _ => ?_⟩
    obtain ⟨-, -, hlp⟩ := Event.setscheduler.inj (he.symm.trans he')
    exact UserParam.readable.inj hlp ▸ hz
  · rename_i hne
    exact ⟨forkStep_of_next h, fun pid lp p he _ _ => absurd he (hne pid schedShort lp)⟩

theorem policy_consistent_sample : ∃ rq,
    Run (ZeroStep sampleClock) (schedInit sampleClock 0) sampleEvents rq ∧
      rq.PolicyConsistent sampleClock := by
  have hsome : (Run.exec (zeroNext sampleClock) (schedInit sampleClock 0) sampleEvents).isSome = true := by
    decide +kernel
  obtain ⟨rq, hrq⟩ := Option.isSome_iff_exists.mp hsome
  have hrun := Run.of_exec (fun _ _ _ => zeroStep_of_next) hrq
  exact ⟨rq, hrun, policy_consistent hrun⟩

theorem sample_priority : (Run.exec (forkNext sampleClock) (schedInit sampleClock 0)
    (sampleLife 5)).isSome = true := by
  decide +kernel

/-- The runqueue after the life of a process that became `SCHED_SHORT` with a priority of 5. -/
def sampleOld : Runqueue :=
  (Run.exec (forkNext sampleClock) (schedInit sampleClock 0) (sampleLife 5)).get sample_priority

/-- The priority of 5 is left to a task of `SCHED_OTHER`, where it cannot be set again. -/
theorem policy_inconsistent :
    Run (ForkStep sampleClock) (schedInit sampleClock 0) (sampleLife 5) sampleOld ∧
      sampleOld.hashed 2 = true ∧ (sampleOld.tasks 2).policy = .other ∧
      (sampleOld.tasks 2).rtPriority ≠ 0 ∧ sampleOld.curr ≠ sampleOld.idle ∧
      (sampleOld.tasks sampleOld.curr).capSysNice = true ∧
      sampleOld.sysSchedGetparam 2 false true ⟨0, 0, 0⟩ = (0, some ⟨5, 0, 0⟩) ∧
      (sampleOld.sysSchedSetparam sampleClock 7 2 (.readable ⟨5, 0, 0⟩)).1 = -einval ∧
      ¬ sampleOld.PolicyConsistent sampleClock := by
  have hrt : (sampleOld.tasks 2).rtPriority = 5 := by decide +kernel
  have hhash : sampleOld.hashed 2 = true := by decide +kernel
  have hpol : (sampleOld.tasks 2).policy = .other := by decide +kernel
  have hne : (sampleOld.tasks 2).rtPriority ≠ 0 := by
    rw [hrt]
    decide
  refine ⟨Run.of_exec (fun _ _ _ => forkStep_of_next) (Option.some_get sample_priority).symm, hhash, hpol,
    hne, by decide +kernel, by decide +kernel, by decide +kernel, by decide +kernel, fun h => ?_⟩
  exact hne (h.other 2 hhash hpol).1

end Runqueue

end OperationSystems.Sched
