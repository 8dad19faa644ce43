import OperationSystems.Wait.Steps

/-!
# Completions are not lost

Over every run, with interrupts anywhere outside the locked sections, a
completion that is left finds a waiter that runs, if anybody waits. Waits do not
outrun completions, and a wakeup reaches the waiters that it should.
-/

namespace OperationSystems.Wait

open Sched (Runqueue TaskState Clock Task)
open Sched.Runqueue
open Transition

variable {c : Clock} {boot jiffies : ℕ} {es : List (ℕ × Event)} {k k' : Kernel} {rq : Runqueue}
  {mode q : ℕ} {n : ℤ} {ws : List Waiter}

namespace Kernel

/-- The state after an event that can happen. -/
def next (c : Clock) (k : Kernel) (e : ℕ × Event) : Option Kernel :=
  if k.Allowed e.2 then k.step c e.1 e.2 else none

end Kernel

theorem exists_state (c : Clock) (boot : ℕ) (es : List (ℕ × Event)) (P : Kernel → Bool)
    (h : (Run.exec (Kernel.next c) (Kernel.boot c boot) es).any P = true) :
    ∃ k, Run (Kernel.Step c) (Kernel.boot c boot) es k ∧ P k = true := by
  cases hk : Run.exec (Kernel.next c) (Kernel.boot c boot) es with
  | none => simp [hk] at h
  | some k =>
    refine ⟨k, Run.of_exec (fun s e t hst => ?_) hk, by simpa [hk] using h⟩
    rw [Kernel.next] at hst
    split at hst
    · exact ⟨‹_›, hst⟩
    · cases hst

/-- Two processes; the first waits for a completion, and an interrupt completes it. -/
def handshake : List (ℕ × Event) :=
  [(0, .sched (.doFork (.ok 1) false)), (1, .sched .initIdle), (1, .schedule false),
    (2, .sched (.doFork (.ok 2) false)), (3, .waitForCompletion 9), (3, .schedule false), (4, .complete 9)]

/-- Of the waiters of a completion all run, or as many as there are completions left. So
while one is left, somebody who waits is on the runqueue. -/
theorem completion_covered (h : Run (Kernel.Step c) (Kernel.boot c boot) es k) (x : ℕ) :
    ((∀ w ∈ k.waiters (.completion x), (k.rq.tasks w.task).state = .running) ∨
      k.done x ≤ (k.waiters (.completion x)).countP fun w => (k.rq.tasks w.task).state = .running) ∧
      (0 < k.done x → k.waiters (.completion x) ≠ [] →
        ∃ w ∈ k.waiters (.completion x), (k.rq.tasks w.task).state = .running ∧ k.rq.Runnable w.task) := by
  have hi := inv_run h
  refine ⟨hi.covered x, fun hpos hne => ?_⟩
  obtain ⟨w, hw, hup⟩ : ∃ w ∈ k.waiters (.completion x), Up k.rq w := by
    rcases hi.covered x with hall | hle
    · obtain ⟨w, hw⟩ := List.exists_mem_of_ne_nil _ hne
      exact ⟨w, hw, hall w hw⟩
    · obtain ⟨w, hw, hu⟩ := List.countP_pos_iff.mp (hpos.trans_le hle)
      exact ⟨w, hw, of_decide_eq_true hu⟩
  refine ⟨w, hw, hup, (runnable_iff hi.ok).mpr ⟨by simp, ?_⟩⟩
  rcases hi.rests w.task (Waits.ne_free (hi.waits_of_mem hw)) with ⟨-, ha⟩ | hr | hr
  · exact ha
  · rw [Up, hr] at hup
    cases hup
  · rw [Up, hr] at hup
    cases hup

theorem completion_covered_handshake :
    ∃ k, Run (Kernel.Step Sched.Runqueue.sampleClock) (Kernel.boot Sched.Runqueue.sampleClock 0) handshake k ∧
      k.rq.curr = 2 ∧ ∃ w ∈ k.waiters (.completion 9), (k.rq.tasks w.task).state = .running ∧ k.rq.Runnable w.task := by
  obtain ⟨k, hk, hP⟩ := exists_state Sched.Runqueue.sampleClock 0 handshake
    (fun k => decide (k.rq.curr = 2 ∧ 0 < k.done 9 ∧ k.waiters (.completion 9) ≠ [])) (by decide +kernel)
  obtain ⟨hcurr, hpos, hne⟩ := of_decide_eq_true hP
  exact ⟨k, hk, hcurr, (completion_covered hk 9).2 hpos hne⟩

@[simp] theorem setPlace_completes (k : Kernel) (p : ℕ) (place : Place) :
    (k.setPlace p place).completes = k.completes := rfl

@[simp] theorem sleepOn_completes (k : Kernel) (a : ℕ) (exclusive : Bool) (state : TaskState) :
    (k.sleepOn a exclusive state).completes = k.completes := rfl

@[simp] theorem waitForCompletion_completes (k : Kernel) (x : ℕ) :
    (k.waitForCompletion x).completes = k.completes := by
  unfold Kernel.waitForCompletion
  split <;> rfl

@[simp] theorem resume_completes (k : Kernel) : k.resume.completes = k.completes := by
  unfold Kernel.resume
  dsimp only
  split
  · rfl
  · split <;> rfl
  · rfl

theorem schedule_completes {signal : Bool} (h : k.schedule jiffies signal = some k') :
    k'.completes = k.completes := by
  obtain ⟨rq, -, rfl⟩ := Option.map_eq_some_iff.mp h
  split <;> rfl

theorem complete_completes (x y : ℕ) :
    (k.complete c jiffies x).completes y = k.completes y + if y = x then 1 else 0 := by
  by_cases hy : y = x
  · simp [Kernel.complete, hy]
  · simp [Kernel.complete, hy]

theorem step_completes {e : ℕ × Event} (h : Kernel.Step c k e k') (x : ℕ) :
    k'.completes x = k.completes x + if e.2 = .complete x then 1 else 0 := by
  obtain ⟨jiffies, e⟩ := e
  obtain ⟨-, h⟩ := h
  cases e with
  | sleepOn a exclusive state =>
    cases h
    simp
  | waitForCompletion y =>
    cases h
    simp
  | schedule signal => simp [schedule_completes h]
  | resume =>
    cases h
    simp
  | complete y =>
    cases h
    rw [complete_completes]
    simp [eq_comm]
  | wakeUp a mode n =>
    cases h
    simp [Kernel.wakeUp]
  | sched e =>
    obtain ⟨r, -, rfl⟩ := Option.map_eq_some_iff.mp h
    simp

/-- `completes` counts the events. -/
theorem completes_eq (h : Run (Kernel.Step c) (Kernel.boot c boot) es k) (x : ℕ) :
    k.completes x = es.countP fun e => e.2 = .complete x := by
  induction h with
  | nil => rfl
  | snoc _ hs ih => rw [List.countP_append, List.countP_singleton, ← ih, step_completes hs x]; simp

/-- Nobody returns from `wait_for_completion` without a call of `complete` for that return,
and while the counter does not wrap no call is lost: a return took it, or it is left. -/
theorem completions_counted (h : Run (Kernel.Step c) (Kernel.boot c boot) es k) (x : ℕ) :
    k.done x + k.returns x ≤ es.countP (fun e => e.2 = .complete x) ∧
      (es.countP (fun e => e.2 = .complete x) < 2 ^ 32 →
        k.done x + k.returns x = es.countP fun e => e.2 = .complete x) := by
  have hi := inv_run h
  rw [← completes_eq h x]
  refine ⟨hi.bound x, fun hlt => ?_⟩
  have hle := hi.bound x
  exact (hi.count x).eq_of_lt_of_lt (hle.trans_lt hlt) hlt

theorem completions_counted_handshake :
    ∃ k, Run (Kernel.Step Sched.Runqueue.sampleClock) (Kernel.boot Sched.Runqueue.sampleClock 0) handshake k ∧
      k.done 9 + k.returns 9 = 1 := by
  obtain ⟨k, hk, -⟩ := exists_state Sched.Runqueue.sampleClock 0 handshake (fun _ => true) (by decide +kernel)
  have hone : handshake.countP (fun e => e.2 = .complete 9) = 1 := by decide
  exact ⟨k, hk, ((completions_counted hk 9).2 (by rw [hone]; norm_num)).trans hone⟩

theorem wakeUpCommon_others (hq : ∀ w ∈ ws, w.task = q → ¬ Fits mode rq w) :
    Unmoved rq (wakeUpCommon c jiffies mode ws n rq) q := by
  induction ws generalizing rq n with
  | nil => exact .refl rq q
  | cons w ws ih =>
    have hskip : ∀ n, Unmoved rq (wakeUpCommon c jiffies mode ws n rq) q :=
      fun n => ih fun v hv => hq v (List.mem_cons_of_mem w hv)
    simp only [wakeUpCommon]
    by_cases hf : taskBits (rq.tasks w.task).state &&& mode ≠ 0
    · have hne : q ≠ w.task := fun he => hq w List.mem_cons_self he.symm hf
      have hone : Unmoved rq (rq.tryToWakeUp c jiffies w.task).2 q := tryToWakeUp_unmoved hne
      have hrest : ∀ n, Unmoved rq (wakeUpCommon c jiffies mode ws n (rq.tryToWakeUp c jiffies w.task).2) q := by
        refine fun n => hone.trans (ih fun v hv he hfv => hq v (List.mem_cons_of_mem w hv) he ?_)
        subst he
        exact hone.fits.mp hfv
      rw [if_pos hf]
      split_ifs
      · exact hone
      · exact hrest _
      · exact hrest _
    · rw [if_neg hf]
      exact hskip _

/-- A wakeup of a queue, in any state that the kernel gets to. The waiters that are not exclusive
and fit run. Of the exclusive ones that slept at most `n` are put on the runqueue, exactly `n`
unless all that fit run; with a count of zero or less all run. Nothing else moves. -/
theorem wakeUp_wakes (h : Run (Kernel.Step c) (Kernel.boot c boot) es k) (jiffies : ℕ) (head : Head) (mode : ℕ)
    (n : ℤ) :
    (∀ w ∈ k.waiters head, w.exclusive = false → Fits mode k.rq w → Up (k.wakeUp c jiffies head mode n).rq w) ∧
      (0 < n → (roused k.rq (k.wakeUp c jiffies head mode n).rq (k.waiters head) : ℤ) ≤ n) ∧
      ((∀ w ∈ k.waiters head, Fits mode k.rq w → Up (k.wakeUp c jiffies head mode n).rq w) ∨
        0 < n ∧ (roused k.rq (k.wakeUp c jiffies head mode n).rq (k.waiters head) : ℤ) = n) ∧
      ∀ q, (∀ w ∈ k.waiters head, w.task = q → ¬ Fits mode k.rq w) →
        Unmoved k.rq (k.wakeUp c jiffies head mode n).rq q := by
  have hi := inv_run h
  have hscan : Scanned mode n k.rq (k.wakeUp c jiffies head mode n).rq (k.waiters head) :=
    wakeUpCommon_scanned (hi.distinct head) (hi.sorted head)
  exact ⟨hscan.shared, hscan.few, hscan.enough, fun q hq => wakeUpCommon_others hq⟩

/-- Three processes sleep on one queue, two of them exclusively. -/
def gathering : List (ℕ × Event) :=
  [(0, .sched (.doFork (.ok 1) false)), (1, .sched .initIdle), (1, .schedule false),
    (2, .sched (.doFork (.ok 2) false)), (2, .sched (.doFork (.ok 3) false)),
    (3, .sleepOn 4 true .interruptible), (3, .schedule false), (4, .sleepOn 4 true .interruptible),
    (4, .schedule false), (5, .sleepOn 4 false .uninterruptible), (5, .schedule false)]

theorem wakeUp_wakes_gathering :
    ∃ k, Run (Kernel.Step Sched.Runqueue.sampleClock) (Kernel.boot Sched.Runqueue.sampleClock 0) gathering k ∧
      (k.waiters (.queue 4)).length = 3 ∧
      (∃ w ∈ k.waiters (.queue 4), w.exclusive = false ∧ ¬ Up k.rq w ∧
        Up (k.wakeUp Sched.Runqueue.sampleClock 6 (.queue 4) 3 1).rq w) ∧
      (roused k.rq (k.wakeUp Sched.Runqueue.sampleClock 6 (.queue 4) 3 1).rq (k.waiters (.queue 4)) : ℤ) ≤ 1 := by
  obtain ⟨k, hk, hP⟩ := exists_state Sched.Runqueue.sampleClock 0 gathering
    (fun k => decide ((k.waiters (.queue 4)).length = 3 ∧
      ∃ w ∈ k.waiters (.queue 4), w.exclusive = false ∧ ¬ Up k.rq w ∧ Fits 3 k.rq w)) (by decide +kernel)
  obtain ⟨hlength, w, hw, he, hup, hf⟩ := of_decide_eq_true hP
  obtain ⟨hshared, hfew, -⟩ := wakeUp_wakes hk 6 (.queue 4) 3 1
  exact ⟨k, hk, hlength, ⟨w, hw, he, hup, hshared w hw he hf⟩, hfew one_pos⟩

/-- A task is on a queue, once, exactly while it is in a sleeping function for that queue. In
`schedule` it is on the runqueue exactly if it is in state `TASK_RUNNING`, so a wakeup does not
pass over a task that sleeps, and it comes back from there in that state. -/
theorem sleeper_queued (h : Run (Kernel.Step c) (Kernel.boot c boot) es k) (head : Head) (p : ℕ) :
    ((k.waiters head).map Waiter.task).Nodup ∧
      (p ∈ (k.waiters head).map Waiter.task ↔ k.place p = .enters head ∨ k.place p = .sleeps head) ∧
      (k.place p = .sleeps head →
        (k.rq.Runnable p ↔ (k.rq.tasks p).state = .running) ∧
        ((k.rq.tasks p).state ≠ .running →
          (k.rq.tasks p).state = .interruptible ∨ (k.rq.tasks p).state = .uninterruptible) ∧
        (k.rq.curr = p → (k.rq.tasks p).state = .running)) := by
  have hi := inv_run h
  refine ⟨hi.distinct head, List.mem_map.trans (hi.waits head p), fun hp => ⟨?_, fun hne => ?_, ?_⟩⟩
  · rw [runnable_iff hi.ok]
    refine ⟨fun ha => ?_, fun hr => ⟨by simp, ?_⟩⟩
    · by_contra hne
      exact ha.2 (hi.asleep head p hp hne)
    · rcases hi.rests p (Waits.ne_free (h := head) (.inr hp)) with ⟨-, ha⟩ | hs | hs
      · exact ha
      · rw [hr] at hs
        cases hs
      · rw [hr] at hs
        cases hs
  · exact (hi.rests p (Waits.ne_free (h := head) (.inr hp))).resolve_left fun hr => hne hr.1
  · rintro rfl
    exact (hi.up_of_back hp).1

theorem sleeper_queued_gathering :
    ∃ k, Run (Kernel.Step Sched.Runqueue.sampleClock) (Kernel.boot Sched.Runqueue.sampleClock 0) gathering k ∧
      k.place 1 = .sleeps (.queue 4) ∧ ¬ k.rq.Runnable 1 := by
  obtain ⟨k, hk, hP⟩ := exists_state Sched.Runqueue.sampleClock 0 gathering
    (fun k => decide (k.place 1 = .sleeps (.queue 4) ∧ (k.rq.tasks 1).state ≠ .running)) (by decide +kernel)
  obtain ⟨hp, hne⟩ := of_decide_eq_true hP
  exact ⟨k, hk, hp, fun hr => hne (((sleeper_queued hk (.queue 4) 1).2.2 hp).1.mp hr)⟩

end OperationSystems.Wait
