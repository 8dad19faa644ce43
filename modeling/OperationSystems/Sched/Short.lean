import OperationSystems.Sched.Params

/-!
# The life of a `SCHED_SHORT` process

From the call that makes a task `SCHED_SHORT`, its parameters stay as they
were set. Only the ticks that find it running count its time down, and the
last of them makes it a task of `SCHED_OTHER` again.
-/

namespace OperationSystems.Sched
open Transition

namespace Quiet
variable {c : Clock} {o : Runqueue × Event} {s t : Params}

/-- A quiet change leaves everything but `prio` of a `SCHED_SHORT` task. -/
theorem short (h : Quiet c o s t) (hs : s.policy = .short) : t = { s with prio := t.prio } := by
  induction h with
  | refl s => rfl
  | trans _ _ ih₁ ih₂ =>
    have h₁ := ih₁ hs
    have h₂ := ih₂ (by rw [h₁]; exact hs)
    rw [h₂, h₁]
  | prio s n hn _ _ => exact absurd hs hn
  | nice s n hn _ _ => exact absurd hs hn
  | rtNice s n hn _ => exact absurd hs hn
  | wake s p _ _ => rfl
  | policy p pid pol policy lp _ _ hc => exact absurd hs (Task.checkScheduler_ok hc).1

end Quiet

namespace Runqueue
variable {rq rq' : Runqueue} {p : ℕ} {c : Clock} {jiffies : ℕ} {e : Event}

/-- A tick finds the task running. -/
def Hit (p : ℕ) (rq : Runqueue) (e : ℕ × Event) : Prop := e.2 = .schedulerTick ∧ rq.curr = p

instance (p : ℕ) (rq : Runqueue) (e : ℕ × Event) : Decidable (Hit p rq e) :=
  inferInstanceAs (Decidable (_ ∧ _))

theorem step_hashed (h : rq.Ok) (ha : rq.Allowed e) {r : ℤ} (hs : rq.step c jiffies e = some (r, rq'))
    (hp : rq.hashed p = true) : rq'.hashed p = true := by
  rcases step_cases h ha hs with hq | ⟨-, -, -, rfl⟩ | ⟨pid, vfork, -, -, -, -, hf⟩ | ⟨-, -, ho, -⟩
  · rwa [hq.hashed]
  · rwa [(only_schedulerTick rq).hashed]
  · rw [hf.hashed]
    by_cases hpp : p = pid
    · simp [hpp]
    · simpa [hpp] using hp
  · rwa [ho.hashed]

/-- Apart from the ticks that find it running, a task changes quietly. -/
theorem step_quiet (h : rq.Ok) (ha : rq.Allowed e) {r : ℤ} (hs : rq.step c jiffies e = some (r, rq'))
    (hp : rq.hashed p = true) (hn : ¬ Hit p rq (jiffies, e)) :
    Quiet c (rq, e) (rq.tasks p).params (rq'.tasks p).params := by
  rcases step_cases h ha hs with hq | ⟨rfl, -, -, rfl⟩ | ⟨pid, vfork, -, hu, -, -, hf⟩ | ⟨-, -, ho, -⟩
  · exact hq.quiet p
  · have hpc : p ≠ rq.curr := fun he => hn ⟨rfl, he.symm⟩
    rw [(only_schedulerTick rq).tasks p hpc]
    exact .refl _
  · refine hf.quiet p ?_
    rintro rfl
    rw [hp] at hu
    cases hu
  · rw [ho.tasks p (hashed_ne_idle h hp)]
    exact .refl _

/-- A tick for a running `SCHED_SHORT` task. -/
theorem schedulerTick_short (h : rq.Ok) (hp : rq.hashed rq.curr = true)
    (hs : (rq.tasks rq.curr).policy = .short) :
    rq.schedulerTick c jiffies = rq.tickShort c rq.curr := by
  have hi := hashed_ne_idle h hp
  obtain ⟨A, hA⟩ := Option.ne_none_iff_exists'.mp ((h.curr hi).2 (by simp))
  obtain rfl := (h.belongs _ A (by simp) hA).1.mp hs
  simp [schedulerTick, hi, hA, Task.Rt, hs]

theorem counted_params (t : Task) (n : ℕ) :
    ({ t with timeLeft := n } : Task).params = { t.params with timeLeft := n } := rfl

theorem tickShort_counts (hz : sub32 (rq.tasks p).timeLeft 1 ≠ 0) :
    ((rq.tickShort c p).tasks p).params =
      { (rq.tasks p).params with timeLeft := sub32 (rq.tasks p).timeLeft 1 } := by
  have he := (@tickShort_eq c rq p).trans (if_neg hz)
  rw [he, setTask_tasks_self, counted_params]

/-- With half of the maximal sleep average there is no bonus. -/
theorem effectivePrio_half {t : Task} (ht : t.policy = .other) (hs : t.sleepAvg = c.hz)
    (hr : maxRtPrio ≤ t.staticPrio ∧ t.staticPrio < maxPrio) : t.effectivePrio c = t.staticPrio := by
  have hpos := c.pos
  have hsmall := c.small
  have hmod : 40 * 25 * c.hz % 2 ^ 32 = 500 * (2 * c.hz) := by omega
  have hdiv : 500 * (2 * c.hz) / (2 * c.hz) = 500 := Nat.mul_div_cancel _ (by omega)
  simp only [Task.effectivePrio, ht, reduceCtorEq, if_false, hs, hmod, hdiv]
  simp only [maxRtPrio, maxPrio] at hr ⊢
  norm_num
  split_ifs <;> omega

theorem demoted_prio {t : Task} (hv : t.Valid) :
    (demoted c t).prio = (demoted c t).staticPrio ∧
      (demoted c t).staticPrio = min (t.staticPrio + 7) 139 := by
  have hd := (demoted_valid (c := c) hv).staticPrio
  refine ⟨effectivePrio_half (c := c) (t := { t with
    policy := .other, staticPrio := (demoted c t).staticPrio, sleepAvg := c.hz, needResched := true })
    rfl rfl hd, ?_⟩
  simp only [demoted, maxPrio]
  split_ifs <;> omega

theorem tickShort_self (hz : sub32 (rq.tasks p).timeLeft 1 = 0) :
    (rq.tickShort c p).tasks p =
      { demoted c { rq.tasks p with timeLeft := sub32 (rq.tasks p).timeLeft 1 } with
        array := some rq.active } := by
  have he := (@tickShort_eq c rq p).trans (if_pos hz)
  rw [he, enqueueTask_eq, setTask_tasks_self]
  change ({ ((setTask _ p _).tasks p) with array := some rq.active } : Task) = _
  rw [setTask_tasks_self]

theorem tickShort_active (hz : sub32 (rq.tasks p).timeLeft 1 = 0) :
    (rq.tickShort c p).active = rq.active := by
  have he := (@tickShort_eq c rq p).trans (if_pos hz)
  have htask : ∀ (r : Runqueue) (u : Task), (r.setTask p u).active = r.active := fun _ _ => rfl
  have harray : ∀ (r : Runqueue) A a, (r.setArray A a).active = r.active := fun _ _ _ => rfl
  rw [he, enqueueTask_eq, htask, harray, htask, (dequeueTask_same _ _ _).1, htask]

theorem tickShort_demotes (hv : (rq.tasks p).Valid) (hz : sub32 (rq.tasks p).timeLeft 1 = 0) :
    ((rq.tickShort c p).tasks p).policy = .other ∧
      ((rq.tickShort c p).tasks p).staticPrio = min ((rq.tasks p).staticPrio + 7) 139 ∧
      ((rq.tickShort c p).tasks p).prio = ((rq.tickShort c p).tasks p).staticPrio ∧
      ((rq.tickShort c p).tasks p).array = some (rq.tickShort c p).active := by
  set t : Task := { rq.tasks p with timeLeft := sub32 (rq.tasks p).timeLeft 1 } with ht
  have hvt : t.Valid := ⟨hv.staticPrio, hv.other, hv.rt, hv.short⟩
  obtain ⟨hprio, hstatic⟩ := demoted_prio (c := c) hvt
  rw [tickShort_self hz, tickShort_active hz]
  exact ⟨rfl, hstatic, hprio, rfl⟩

theorem sub32_one {n : ℕ} (h : 0 < n) (hn : n < 2 ^ 32) : sub32 n 1 = n - 1 := by
  unfold sub32
  omega

/-- Until the count reaches `N` the task is as it was made, with `N - k` ticks left. -/
structure Countdown (p : ℕ) (s : Params) (N k : ℕ) (rq : Runqueue) : Prop where
  hashed : rq.hashed p = true
  params : k < N → ∃ n, (rq.tasks p).params = { s with prio := n, timeLeft := N - k }

theorem Countdown.step {s : Params} {N k k' : ℕ} {e : ℕ × Event} (h : rq.Ok)
    (hc : Countdown p s N k rq) (hs : s.policy = .short) (hN : N < 2 ^ 32)
    (hstep : Run.Counting (Step c) (Hit p) (rq, k) e (rq', k')) : Countdown p s N k' rq' := by
  obtain ⟨⟨ha, r, hr⟩, hk⟩ := hstep
  refine ⟨step_hashed h ha hr hc.hashed, fun hlt => ?_⟩
  by_cases hit : Hit p rq e
  · obtain ⟨he, rfl⟩ := hit
    obtain rfl : k' = k + 1 := by simpa [Hit, he] using hk
    obtain ⟨n, hn⟩ := hc.params (by omega)
    have hpol : (rq.tasks rq.curr).policy = .short := (congrArg Params.policy hn).trans hs
    have hleft : (rq.tasks rq.curr).timeLeft = N - k := congrArg Params.timeLeft hn
    have hsub : sub32 (rq.tasks rq.curr).timeLeft 1 = N - (k + 1) := by
      rw [hleft, sub32_one (by omega) (by omega)]
      omega
    rw [he] at hr
    obtain ⟨-, rfl⟩ := Prod.mk.inj (Option.some.inj hr)
    rw [schedulerTick_short h hc.hashed hpol, tickShort_counts (by omega), hn, hsub]
    exact ⟨n, rfl⟩
  · obtain rfl : k' = k := by simpa [hit] using hk
    obtain ⟨n, hn⟩ := hc.params hlt
    have hq := step_quiet h ha hr hc.hashed hit
    have hpol : (rq.tasks p).params.policy = .short := by rw [hn, hs]
    rw [hq.short hpol, hn]
    exact ⟨_, rfl⟩

theorem countdown_run {s : Params} {N k : ℕ} {es : List (ℕ × Event)} (h : rq.Ok)
    (hc : Countdown p s N 0 rq) (hs : s.policy = .short) (hN : N < 2 ^ 32)
    (hrun : Run (Run.Counting (Step c) (Hit p)) (rq, 0) es (rq', k)) :
    rq'.Ok ∧ Countdown p s N k rq' :=
  hrun.invariant (P := fun x => x.1.Ok ∧ Countdown p s N x.2 x.1) ⟨h, hc⟩ fun _ _ _ hx hstep =>
    ⟨ok_step hx.1 hstep.1.1 hstep.1.2.choose_spec, hx.2.step hx.1 hs hN hstep⟩

theorem requested_lt {lp : SchedParam} (hbad : ¬ lp.Bad) : lp.requestedTime * c.hz < 2 ^ 31 := by
  have hsmall := c.small
  have hmul : lp.requestedTime * c.hz ≤ 3000 * c.hz :=
    Int.mul_le_mul_of_nonneg_right (Task.not_bad_iff.mp hbad).1.2 (Int.natCast_nonneg _)
  omega

theorem rescheduled_short (t : Task) {lp : SchedParam} (hbad : ¬ lp.Bad) :
    (t.rescheduled c .short lp).params =
      { t.params with
        policy := .short
        rtPriority := (lp.schedPriority % 2 ^ 32).toNat
        requestedTime := lp.requestedTime.toNat
        timeLeft := max 1 (lp.requestedTime * c.hz / 1000).toNat
        shortPrio := lp.schedShortPrio } := by
  obtain ⟨⟨hr, -⟩, -, -⟩ := Task.not_bad_iff.mp hbad
  have hnn : 0 ≤ lp.requestedTime * c.hz := Int.mul_nonneg (by omega) (Int.natCast_nonneg _)
  have htime : (if (lp.requestedTime * c.hz).tdiv 1000 = 0 then 1
      else ((lp.requestedTime * c.hz).tdiv 1000).toNat) =
        max 1 (lp.requestedTime * c.hz / 1000).toNat := by
    rw [Int.tdiv_eq_ediv_of_nonneg hnn]
    split_ifs <;> omega
  simp [Task.rescheduled, Task.params, htime]

theorem awake_short {t : Task} (ht : t.policy = .short) : awake c jiffies t = t := by
  simp [awake, ht]

theorem changePolicy_short (rq : Runqueue) (p : ℕ) (lp : SchedParam) :
    ((changePolicy c jiffies .short lp rq p).tasks p).params =
      ((rq.tasks p).rescheduled c .short lp).params := by
  have hpol : ∀ t : Task, (t.rescheduled c .short lp).policy = .short := by
    intro t
    simp [Task.rescheduled]
  unfold changePolicy
  cases (rq.tasks p).array with
  | none =>
    dsimp only
    rw [setTask_tasks_self]
  | some A =>
    obtain ⟨n, arrays, heq⟩ := deactivateTask_arrays rq p A
    dsimp only
    rw [activateTask_eq]
    dsimp only
    rw [enqueueTask_params, setTask_tasks_self, setTask_tasks_self, awake_short (hpol _), heq,
      setTask_tasks_self, rescheduled_params]

theorem setscheduler_short (h : rq.Ok) (hcurr : rq.curr ≠ rq.idle) {pid : ℤ} {param : UserParam}
    (hset : rq.setscheduler c jiffies pid schedShort param = (0, rq')) :
    ∃ lp p, param = .readable lp ∧ rq.findProcessByPid pid = some p ∧
      (rq.tasks p).policy = .other ∧ ¬ lp.Bad ∧ rq'.hashed p = true ∧
      (rq'.tasks p).params = ((rq.tasks p).rescheduled c .short lp).params := by
  by_cases hok : ∃ lp p policy', param = .readable lp ∧ ¬ pid < 0 ∧ rq.findProcessByPid pid = some p ∧
      Task.checkScheduler (rq.tasks rq.curr) (rq.tasks p) schedShort lp = .ok policy'
  · obtain ⟨lp, p, policy', rfl, hpid, hp, hc⟩ := hok
    obtain ⟨-, hpol, hother, -⟩ := Task.checkScheduler_ok hc
    obtain rfl := hpol.mpr rfl
    have hh := findProcessByPid_hashed h hcurr hp
    have hq := @setscheduler_quietly rq c jiffies h hcurr pid schedShort (.readable lp)
    rw [hset] at hq
    rw [setscheduler_ok hpid hp hc] at hset
    refine ⟨lp, p, rfl, hp, (hother rfl).1, (hother rfl).2, ?_, ?_⟩
    · rw [hq.hashed]
      exact hh
    · have hpar := @changePolicy_short c jiffies rq p lp
      have hps : ((changePolicy c jiffies .short lp rq p).tasks p).policy = .short := by
        have := congrArg Params.policy hpar
        rw [rescheduled_short _ (hother rfl).2] at this
        exact this
      obtain ⟨-, rfl⟩ := Prod.mk.inj hset
      rw [if_pos hps, reschedTask_params, hpar]
  · obtain ⟨r, hne, hr⟩ := @setscheduler_fails rq c jiffies pid schedShort param
      fun lp p policy' h₁ h₂ h₃ h₄ => hok ⟨lp, p, policy', h₁, h₂, h₃, h₄⟩
    exact absurd (Prod.mk.inj (hr.symm.trans hset)).1 hne

/-- What holds of a `SCHED_SHORT` task that `k` of its `N` ticks have found running. -/
structure ShortLife (c : Clock) (p : ℕ) (lp : SchedParam) (old : ℤ) (N k : ℕ) (rq : Runqueue) : Prop where
  policy : k < N → (rq.tasks p).policy = .short
  shortPrio : k < N → (rq.tasks p).shortPrio = lp.schedShortPrio
  requestedTime : k < N → ((rq.tasks p).requestedTime : ℤ) = lp.requestedTime
  staticPrio : k < N → (rq.tasks p).staticPrio = old
  timeLeft : k < N → (rq.tasks p).timeLeft = N - k ∧ 1 ≤ (rq.tasks p).timeLeft
  childless : k < N → rq.curr = p → ∀ jiffies newPid vfork,
    rq.doFork c jiffies newPid vfork = some (-eperm, rq)
  last : k + 1 = N → rq.curr = p → ∀ jiffies, ∃ rq' t, rq.schedulerTick c jiffies = rq' ∧
    rq'.tasks p = t ∧ t.policy = .other ∧ t.staticPrio = min (old + 7) 139 ∧
    t.prio = t.staticPrio ∧ t.array = some rq'.active

theorem Countdown.shortLife {t : Task} {lp : SchedParam} {N k : ℕ} (h : rq.Ok) (hbad : ¬ lp.Bad)
    (hc : Countdown p (t.rescheduled c .short lp).params N k rq) :
    ShortLife c p lp t.staticPrio N k rq := by
  have hpar : k < N → ∃ n, (rq.tasks p).params =
      { (t.rescheduled c .short lp).params with prio := n, timeLeft := N - k } := hc.params
  rw [rescheduled_short t hbad] at hpar
  obtain ⟨⟨hr, -⟩, -, -⟩ := Task.not_bad_iff.mp hbad
  have hpol : k < N → (rq.tasks p).policy = .short := fun hlt => by
    obtain ⟨n, hn⟩ := hpar hlt
    exact congrArg Params.policy hn
  refine ⟨hpol, fun hlt => ?_, fun hlt => ?_, fun hlt => ?_, fun hlt => ?_, fun hlt hcurr => ?_,
    fun hlast hcurr now => ?_⟩
  · obtain ⟨n, hn⟩ := hpar hlt
    exact congrArg Params.shortPrio hn
  · obtain ⟨n, hn⟩ := hpar hlt
    rw [show (rq.tasks p).requestedTime = lp.requestedTime.toNat from congrArg Params.requestedTime hn]
    omega
  · obtain ⟨n, hn⟩ := hpar hlt
    exact congrArg Params.staticPrio hn
  · obtain ⟨n, hn⟩ := hpar hlt
    rw [show (rq.tasks p).timeLeft = N - k from congrArg Params.timeLeft hn]
    exact ⟨rfl, by omega⟩
  · intro now newPid vfork
    have hps : (rq.tasks rq.curr).policy = .short := hcurr ▸ hpol hlt
    simp only [doFork, if_pos hps]
  · obtain ⟨n, hn⟩ := hpar (by omega)
    subst hcurr
    have hleft : (rq.tasks rq.curr).timeLeft = N - k := congrArg Params.timeLeft hn
    have hstatic : (rq.tasks rq.curr).staticPrio = t.staticPrio := congrArg Params.staticPrio hn
    have hz : sub32 (rq.tasks rq.curr).timeLeft 1 = 0 := by
      rw [hleft, sub32_one (by omega) (by omega)]
      omega
    have hd := tickShort_demotes (c := c) (h.valid rq.curr (by simp) (Or.inl hc.hashed)) hz
    rw [hstatic] at hd
    exact ⟨_, _, schedulerTick_short h hc.hashed (hpol (by omega)), rfl, hd⟩

/-- Whoever made a task `SCHED_SHORT` in a run, it stays so for as many ticks as it was given. -/
theorem short_life {pid : ℤ} {param : UserParam} {es : List (ℕ × Event)} {boot : ℕ}
    (hrun : Run (Step c) (schedInit c boot) es rq) (hcurr : rq.curr ≠ rq.idle)
    (hset : rq.setscheduler c jiffies pid schedShort param = (0, rq')) :
    ∃ lp p, param = .readable lp ∧ rq.findProcessByPid pid = some p ∧
      (rq.tasks p).policy = .other ∧ (1 ≤ lp.requestedTime ∧ lp.requestedTime ≤ 3000) ∧
      (0 ≤ lp.schedShortPrio ∧ lp.schedShortPrio ≤ 139) ∧
      ∀ fs k rq'', Run (Run.Counting (Step c) (Hit p)) (rq', 0) fs (rq'', k) →
        ShortLife c p lp (rq.tasks p).staticPrio (max 1 (lp.requestedTime * c.hz / 1000).toNat) k rq'' := by
  have h := ok_run hrun
  obtain ⟨lp, p, hparam, hp, hother, hbad, hh, hpar⟩ := setscheduler_short h hcurr hset
  obtain ⟨hr, hsp⟩ := Task.not_bad_iff.mp hbad
  have h' : rq'.Ok := by
    have hok := @ok_setscheduler _ c jiffies h hcurr pid schedShort param
    rwa [hset] at hok
  have hres := rescheduled_short (c := c) (rq.tasks p) hbad
  have hN : max 1 (lp.requestedTime * c.hz / 1000).toNat < 2 ^ 32 := by
    have hlt := requested_lt (c := c) hbad
    omega
  refine ⟨lp, p, hparam, hp, hother, hr, hsp, fun fs k rq'' hlife => ?_⟩
  have hc : Countdown p ((rq.tasks p).rescheduled c .short lp).params
      (max 1 (lp.requestedTime * c.hz / 1000).toNat) 0 rq' := by
    refine ⟨hh, fun _ => ⟨((rq.tasks p).rescheduled c .short lp).params.prio, ?_⟩⟩
    rw [hpar, hres]
    rfl
  obtain ⟨hok, hcount⟩ := countdown_run h' hc (by rw [hres]) hN hlife
  exact hcount.shortLife hok hbad

theorem sample_fork : (Run.exec (next sampleClock) (schedInit sampleClock 0)
    (sampleEvents.take 4)).isSome = true := by
  decide +kernel

/-- The runqueue when the second process has been started. -/
def sampleForked : Runqueue :=
  (Run.exec (next sampleClock) (schedInit sampleClock 0) (sampleEvents.take 4)).get sample_fork

theorem short_life_sample : ∃ rq', sampleForked.setscheduler sampleClock 3 2 schedShort
    (.readable ⟨0, 20, 7⟩) = (0, rq') ∧
    ∀ fs k rq'', Run (Run.Counting (Step sampleClock) (Hit 2)) (rq', 0) fs (rq'', k) →
      ShortLife sampleClock 2 ⟨0, 20, 7⟩ 120 2 k rq'' := by
  have hrun : Run (Step sampleClock) (schedInit sampleClock 0) (sampleEvents.take 4) sampleForked :=
    Run.of_exec (fun _ _ _ => step_of_next) (Option.some_get sample_fork).symm
  have hok : (sampleForked.setscheduler sampleClock 3 2 schedShort (.readable ⟨0, 20, 7⟩)).1 = 0 := by
    decide +kernel
  rcases hset : sampleForked.setscheduler sampleClock 3 2 schedShort (.readable ⟨0, 20, 7⟩) with ⟨r, rq'⟩
  rw [hset] at hok
  obtain rfl : r = 0 := hok
  obtain ⟨lp, p, hparam, hp, -, -, -, hlife⟩ := short_life hrun (by decide +kernel) hset
  obtain rfl := UserParam.readable.inj hparam
  have hp2 : sampleForked.findProcessByPid 2 = some 2 := by decide +kernel
  obtain rfl := Option.some.inj (hp2.symm.trans hp)
  have hstatic : (sampleForked.tasks 2).staticPrio = 120 := by decide +kernel
  have hticks : max 1 ((20 : ℤ) * sampleClock.hz / 1000).toNat = 2 := by decide
  rw [hstatic, hticks] at hlife
  exact ⟨rq', rfl, hlife⟩

end Runqueue

end OperationSystems.Sched
