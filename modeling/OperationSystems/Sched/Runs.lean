import OperationSystems.Sched.Dispatch
import OperationSystems.Lib.Run

/-!
# Runs of the scheduler

Every event keeps the invariant of the runqueue, so it holds after every run
from `sched_init`, and `schedule` finds the task that the order of the queues
calls for.
-/

namespace OperationSystems.Sched
open Transition Buckets PrioArray

namespace Runqueue
variable {rq rq' : Runqueue} {p : ℕ} {c : Clock} {jiffies : ℕ} {e : Event} {es : List (ℕ × Event)}

theorem ok_sysSchedYield (h : rq.Ok) (hc : rq.curr ≠ rq.idle) (signal : Bool) :
    ∃ r, rq.sysSchedYield jiffies signal = some r ∧ r.Ok := by
  obtain ⟨A, hA⟩ := Option.ne_none_iff_exists'.mp ((h.curr hc).2 (by simp))
  obtain ⟨-, r, -, hr, hok, -⟩ := schedule_spec (ok_yieldCurrent h hA hc) jiffies signal
  exact ⟨r, by simp only [sysSchedYield, hA, hr], hok⟩

/-- An event that can happen does not go wrong, but for a fork by a task without a time slice. -/
theorem step_succeeds (h : rq.Ok) (ha : rq.Allowed e)
    (hf : ∀ newPid vfork, e = .doFork newPid vfork → (rq.tasks rq.curr).timeSlice ≠ 0) :
    ∃ r rq', rq.step c jiffies e = some (r, rq') := by
  cases e with
  | schedule signal =>
    obtain ⟨-, r, -, hr, -⟩ := schedule_spec h jiffies signal
    exact ⟨0, r, by simp [step, hr]⟩
  | sysSchedYield signal =>
    obtain ⟨r, hr, -⟩ := @ok_sysSchedYield _ jiffies h ha signal
    exact ⟨0, r, by simp [step, hr]⟩
  | doFork newPid vfork =>
    have hz := hf newPid vfork rfl
    by_cases hs : (rq.tasks rq.curr).policy = .short
    · exact ⟨-eperm, rq, by simp only [step, doFork, if_pos hs]⟩
    · cases newPid with
      | error e => exact ⟨e.error, rq, by simp only [step, doFork, if_neg hs]⟩
      | ok pid =>
        simp only [step, doFork_eq rq hs, if_neg hz]
        exact ⟨_, _, rfl⟩
  | initIdle =>
    obtain ⟨A, hA⟩ := Option.ne_none_iff_exists'.mp ha.2
    exact ⟨0, rq.initIdle A, by simp only [step, hA]⟩
  | _ => exact ⟨_, _, rfl⟩

theorem ok_step (h : rq.Ok) (ha : rq.Allowed e) {r : ℤ} (hs : rq.step c jiffies e = some (r, rq')) :
    rq'.Ok := by
  cases e with
  | tryToWakeUp p =>
    cases hs
    exact ok_tryToWakeUp h (h.valid p (by simp) (Or.inl ha)) (Or.inl ha)
  | wakeUpForkedProcess p =>
    cases hs
    exact ok_wakeUpForkedProcess h ha.1 ha.2
  | schedulerTick =>
    cases hs
    exact ok_schedulerTick h
  | schedule signal =>
    obtain ⟨-, r, -, hr, hok, -⟩ := schedule_spec h jiffies signal
    simp only [step, hr, Option.map_some, Option.some.injEq, Prod.mk.injEq] at hs
    exact hs.2 ▸ hok
  | sysSchedYield signal =>
    obtain ⟨r, hr, hok⟩ := @ok_sysSchedYield _ jiffies h ha signal
    simp only [step, hr, Option.map_some, Option.some.injEq, Prod.mk.injEq] at hs
    exact hs.2 ▸ hok
  | setUserNice p nice =>
    cases hs
    exact ok_setUserNice h ha
  | sysNice increment =>
    have hok := ok_sysNice h ha increment
    rw [Option.some.inj hs] at hok
    exact hok
  | sysSetpriority which sel niceval =>
    have hok := ok_sysSetpriority h which niceval ha.2
    rw [Option.some.inj hs] at hok
    exact hok
  | setscheduler pid policy param =>
    have hok := @ok_setscheduler _ c jiffies h ha pid policy param
    rw [Option.some.inj hs] at hok
    exact hok
  | setState state =>
    cases hs
    exact ok_setState h state fun he => absurd he ha
  | setCred uid euid capSysNice =>
    cases hs
    exact ok_setAlike h ⟨rfl, rfl, rfl, rfl, rfl, rfl⟩
  | doFork newPid vfork => exact ok_doFork h ha.1 ha.2 hs
  | initIdle =>
    obtain ⟨A, hA⟩ := Option.ne_none_iff_exists'.mp ha.2
    simp only [step, hA, Option.some.injEq, Prod.mk.injEq] at hs
    exact hs.2 ▸ ok_initIdle h ha.1 hA

theorem ok_run (hrun : Run (Step c) (schedInit c jiffies) es rq) : rq.Ok :=
  hrun.invariant ok_schedInit fun _ _ _ h hs => ok_step h hs.1 hs.2.choose_spec

/-- The queues, bits and counts of the arrays agree with the fields of the tasks. -/
structure Consistent (rq : Runqueue) : Prop where
  distinct : rq.active ≠ rq.expired ∧ rq.active ≠ rq.shortPr ∧ rq.expired ≠ rq.shortPr
  nrActive : ∀ A, (rq.arrays A).nrActive =
    ∑ i ∈ Finset.Ico (0 : ℤ) 140, (((rq.arrays A).queue i).length : ℤ)
  bitmap : ∀ A i, 0 ≤ i → i < 140 → ((rq.arrays A).bitmap i = true ↔ (rq.arrays A).queue i ≠ [])
  queued : ∀ p A, (rq.tasks p).array = some A → ∃ i, 0 ≤ i ∧ i < 140 ∧
    i = (if (rq.tasks p).policy = .short then (rq.tasks p).shortPrio else (rq.tasks p).prio) ∧
    ∀ B j, ((rq.arrays B).queue j).count p = if B = A ∧ j = i then 1 else 0
  unqueued : ∀ p, (rq.tasks p).array = none → ∀ A i, p ∉ (rq.arrays A).queue i
  short : ∀ p A, (rq.tasks p).array = some A → ((rq.tasks p).policy = .short ↔ A = rq.shortPr)
  other : ∀ p A, (rq.tasks p).array = some A → (rq.tasks p).policy ≠ .short →
    A = rq.active ∨ A = rq.expired
  nrRunning : rq.nrRunning = (rq.arrays rq.active).nrActive + (rq.arrays rq.expired).nrActive +
    (rq.arrays rq.shortPr).nrActive

theorem Inv.consistent (h : rq.Ok) : rq.Consistent where
  distinct := h.distinct
  nrActive A := by
    rw [(h.arrays A).count, total, slots, maxPrio]
    push_cast
    rfl
  bitmap A i h0 h140 := (h.arrays A).bits i (Finset.mem_Ico.mpr ⟨h0, h140⟩)
  queued p A hA := by
    have hv := (h.valid p (by simp) (Or.inr (by simp [hA]))).queuePrio_mem
    obtain ⟨h0, h140⟩ := Finset.mem_Ico.mp hv
    refine ⟨(rq.tasks p).queuePrio, h0, h140, rfl, fun B j => ?_⟩
    rw [(h.arrays B).queues j p]
    simp only [placed, hA]
    by_cases hB : B = A
    · subst hB
      simp [eq_comm]
    · simp [hB, Ne.symm hB]
  unqueued p hA A i := (h.arrays A).queues.not_mem (placed_none hA)
  short p A hA := (h.belongs p A (by simp) hA).1
  other p A hA hs := by
    have hne : A ≠ rq.shortPr := fun he => hs ((h.belongs p A (by simp) hA).1.mpr he)
    obtain ⟨h1, h2, h3⟩ := h.distinct
    omega
  nrRunning := running_eq h

instance (rq : Runqueue) (e : Event) : Decidable (rq.Allowed e) :=
  match e with
  | .tryToWakeUp p => inferInstanceAs (Decidable (rq.hashed p = true))
  | .wakeUpForkedProcess p =>
    inferInstanceAs (Decidable (rq.hashed p = true ∧ (rq.tasks p).array = none))
  | .schedulerTick => inferInstanceAs (Decidable True)
  | .schedule _ => inferInstanceAs (Decidable True)
  | .sysSchedYield _ => inferInstanceAs (Decidable (rq.curr ≠ rq.idle))
  | .setUserNice p _ => inferInstanceAs (Decidable (rq.hashed p = true))
  | .sysNice _ => inferInstanceAs (Decidable (rq.curr ≠ rq.idle))
  | .sysSetpriority _ sel _ =>
    inferInstanceAs (Decidable (rq.curr ≠ rq.idle ∧ ∀ p ∈ sel, rq.hashed p = true))
  | .setscheduler .. => inferInstanceAs (Decidable (rq.curr ≠ rq.idle))
  | .setState _ => inferInstanceAs (Decidable (rq.curr ≠ rq.idle))
  | .setCred .. => inferInstanceAs (Decidable (rq.curr ≠ rq.idle))
  | .doFork newPid _ => inferInstanceAs (Decidable ((rq.tasks rq.curr).array ≠ none ∧
    ∀ p ∈ newPid.toOption, rq.hashed p = false ∧ p ≠ rq.idle))
  | .initIdle => inferInstanceAs (Decidable (rq.curr = rq.idle ∧ (rq.tasks rq.curr).array ≠ none))

/-- The runqueue after an event that can happen. -/
def next (c : Clock) (rq : Runqueue) (e : ℕ × Event) : Option Runqueue :=
  if rq.Allowed e.2 then (rq.step c e.1 e.2).map Prod.snd else none

theorem step_of_next {e : ℕ × Event} (h : next c rq e = some rq') : Step c rq e rq' := by
  unfold next at h
  split_ifs at h with ha
  obtain ⟨⟨r, rq₁⟩, hs, rfl⟩ := Option.map_eq_some_iff.mp h
  exact ⟨ha, r, hs⟩

def sampleClock : Clock := ⟨100, by decide, by decide⟩

/-- The swapper forks, becomes the idle task, and its child starts another process and makes it
`SCHED_SHORT` until its time is over. -/
def sampleLife (priority : ℤ) : List (ℕ × Event) :=
  [(0, .doFork (.ok 1) false), (1, .initIdle), (1, .schedule false),
    (2, .doFork (.ok 2) false), (3, .setscheduler 2 schedShort (.readable ⟨priority, 20, 7⟩)),
    (3, .schedule false), (4, .schedulerTick), (5, .sysSchedYield false), (6, .schedulerTick)]

def sampleEvents : List (ℕ × Event) := sampleLife 0

theorem sample_run : ∃ rq, Run (Step sampleClock) (schedInit sampleClock 0) sampleEvents rq := by
  have hsome : (Run.exec (next sampleClock) (schedInit sampleClock 0) sampleEvents).isSome = true := by
    decide +kernel
  obtain ⟨rq, hrq⟩ := Option.isSome_iff_exists.mp hsome
  exact ⟨rq, Run.of_exec (fun _ _ _ => step_of_next) hrq⟩

theorem runqueue_consistent (hrun : Run (Step c) (schedInit c jiffies) es rq) : rq.Consistent :=
  (ok_run hrun).consistent

theorem runqueue_consistent_sample : ∃ rq,
    Run (Step sampleClock) (schedInit sampleClock 0) sampleEvents rq ∧ rq.Consistent := by
  obtain ⟨rq, hrun⟩ := sample_run
  exact ⟨rq, hrun, runqueue_consistent hrun⟩

theorem schedule_dispatches (hrun : Run (Step c) (schedInit c jiffies) es rq) (now : ℕ)
    (signal : Bool) :
    ∃ d r, rq.deactivatePrev now signal = some d ∧ rq.schedule now signal = some r ∧
      (d.nrRunning = 0 → r.curr = d.idle) ∧
      (0 < d.nrRunning → d.pickNext = some (r.curr, d.switchArrays) ∧
        d.switchArrays.Dispatched r.curr) := by
  obtain ⟨d, r, hd, hr, -, hidle, hpick⟩ := schedule_spec (ok_run hrun) now signal
  exact ⟨d, r, hd, hr, hidle, fun hpos => hpick hpos.ne'⟩

theorem schedule_dispatches_sample : ∃ rq d r,
    Run (Step sampleClock) (schedInit sampleClock 0) (sampleEvents.take 5) rq ∧
      rq.deactivatePrev 3 false = some d ∧ rq.schedule 3 false = some r ∧
      0 < d.nrRunning ∧ r.curr = 2 ∧ (r.tasks 2).policy = .short ∧ d.switchArrays.Dispatched 2 := by
  have hexec : ((Run.exec (next sampleClock) (schedInit sampleClock 0) (sampleEvents.take 5)).bind
      fun rq => (rq.deactivatePrev 3 false).bind fun d => (rq.schedule 3 false).map
        fun r => (decide (0 < d.nrRunning), r.curr, (r.tasks 2).policy)) = some (true, 2, .short) := by
    decide +kernel
  obtain ⟨rq, hrq, hexec⟩ := Option.bind_eq_some_iff.mp hexec
  have hrun := Run.of_exec (fun _ _ _ => step_of_next) hrq
  obtain ⟨d, r, hd, hr, -, hpick⟩ := schedule_dispatches hrun 3 false
  simp only [hd, hr, Option.bind_some, Option.map_some, Option.some.injEq, Prod.mk.injEq,
    decide_eq_true_eq] at hexec
  obtain ⟨hpos, hcurr, hpol⟩ := hexec
  exact ⟨rq, d, r, hrun, hd, hr, hpos, hcurr, hpol, hcurr ▸ (hpick hpos).2⟩

end Runqueue

end OperationSystems.Sched
