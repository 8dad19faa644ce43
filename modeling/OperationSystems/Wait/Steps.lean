import OperationSystems.Wait.Invariant

/-!
# Steps of the wait queues

Each event keeps the invariant. Where a task sleeps on a completion, none was
left, and where it returns it takes one of those that its own place in the
count stands for.
-/

namespace OperationSystems.Wait

open Sched (Runqueue TaskState Clock Task)
open Sched.Runqueue
open Function (update)
open Transition

variable {c : Clock} {jiffies mode x : ℕ} {rq rq' : Runqueue} {p q : ℕ} {v w : Waiter} {ws : List Waiter} {n : ℤ}
  {k k' : Kernel} {h h' : Head} {state : TaskState}

theorem mem_addWaitQueue : w ∈ (k.addWaitQueue h v).waiters h' ↔ w ∈ k.waiters h' ∨ h' = h ∧ w = v := by
  by_cases hh : h' = h
  · subst hh
    simp only [Kernel.addWaitQueue, Function.update_self, true_and]
    split
    · rw [List.mem_append, List.mem_singleton]
    · rw [List.mem_cons, or_comm]
  · simp [Kernel.addWaitQueue, hh]

theorem mem_removeWaitQueue :
    w ∈ (k.removeWaitQueue h p).waiters h' ↔ w ∈ k.waiters h' ∧ (h' = h → w.task ≠ p) := by
  by_cases hh : h' = h
  · subst hh
    simp [Kernel.removeWaitQueue]
  · simp [Kernel.removeWaitQueue, hh]

theorem removeWaitQueue_sublist (k : Kernel) (h h' : Head) (p : ℕ) :
    ((k.removeWaitQueue h p).waiters h').Sublist (k.waiters h') := by
  by_cases hh : h' = h
  · subst hh
    simp only [Kernel.removeWaitQueue, Function.update_self]
    exact List.filter_sublist
  · simp [Kernel.removeWaitQueue, hh]

/-- Distinct waiters without the one of a task. -/
theorem running_filter (hd : (ws.map Waiter.task).Nodup) (hw : w ∈ ws) (hu : Up rq w) :
    running rq ws = running rq (ws.filter fun v => v.task ≠ w.task) + 1 := by
  induction ws with
  | nil => cases hw
  | cons v ws ih =>
    rw [List.map_cons, List.nodup_cons] at hd
    rcases List.mem_cons.mp hw with rfl | hw
    · have hrest : ws.filter (fun v => v.task ≠ w.task) = ws := by
        refine List.filter_eq_self.mpr fun v hv => ?_
        have hne : v.task ≠ w.task := fun he => hd.1 (he ▸ List.mem_map_of_mem hv)
        simpa using hne
      rw [List.filter_cons_of_neg (by simp), hrest]
      simp [running, hu]
    · have hne : v.task ≠ w.task := fun he => hd.1 (he ▸ List.mem_map_of_mem hw)
      rw [List.filter_cons_of_pos (by simpa using hne)]
      have := ih hd.2 hw
      simp only [running, List.countP_cons] at this ⊢
      omega

/-- The task that called `schedule` is off the runqueue unless it runs. -/
theorem schedule_asleep {signal : Bool} (hs : rq.schedule jiffies signal = some rq')
    (hrun : (rq'.tasks rq.curr).state ≠ .running) : (rq'.tasks rq.curr).array = none := by
  obtain ⟨d, hd, hr⟩ := Option.bind_eq_some_iff.mp hs
  obtain ⟨⟨next, r⟩, hpick, rfl⟩ := Option.map_eq_some_iff.mp hr
  have htasks : r.tasks = d.tasks := by
    unfold pickNext at hpick
    split_ifs at hpick
    · obtain ⟨-, rfl⟩ := Prod.mk.inj (Option.some.inj hpick)
      rfl
    · obtain ⟨next', -, he⟩ := Option.map_eq_some_iff.mp hpick
      obtain ⟨-, rfl⟩ := Prod.mk.inj he
      exact (switchArrays_same d).2.1
  simp only [setTask_tasks_self, htasks] at hrun ⊢
  unfold deactivatePrev at hd
  dsimp only at hd
  split_ifs at hd with h1 h2
  · obtain rfl := Option.some.inj hd
    exact absurd h1 hrun
  · obtain rfl := Option.some.inj hd
    rw [setTask_tasks_self] at hrun
    exact absurd rfl hrun
  · split at hd
    · cases hd
    · rename_i A hA
      obtain rfl := Option.some.inj hd
      obtain ⟨m, arrays, he⟩ :=
        deactivateTask_arrays (rq.setTask rq.curr { rq.tasks rq.curr with sleepTimestamp := jiffies }) rq.curr A
      rw [he, setTask_tasks_self]

namespace Inv

theorem wakeUp (hi : Inv k) (h : Head) (mode : ℕ) (n : ℤ) : Inv (k.wakeUp c jiffies h mode n) :=
  hi.woken (wakeUpCommon_woken hi.ok fun _ hw => hi.hashed_of_mem hw)

theorem schedule {signal : Bool} (hi : Inv k) (hs : k.schedule jiffies signal = some k') : Inv k' := by
  obtain ⟨rq', hrq, rfl⟩ := Option.map_eq_some_iff.mp hs
  obtain ⟨d, r, -, hr, hok, -⟩ := schedule_spec hi.ok jiffies signal
  obtain rfl := Option.some.inj (hr.symm.trans hrq)
  have hcalm : Calms ∅ k.rq r := schedule_calms hi.ok hr
  have hasleep := schedule_asleep hr
  by_cases he : ∃ h, k.place k.rq.curr = .enters h
  · obtain ⟨h, he⟩ := he
    simp only [he]
    refine hi.calm hok hcalm (by simp) (fun p h' => ?_) (fun h' p hp => ?_) fun h' p hp => ?_
    · by_cases hp : p = k.rq.curr
      · subst hp
        simp [Place.Waits, he]
      · simp [hp]
    · by_cases hpc : p = k.rq.curr
      · simp [hpc] at hp
      · simp only [Function.update_of_ne hpc] at hp
        exact absurd (hi.entering h' p hp).symm hpc
    · by_cases hpc : p = k.rq.curr
      · exact .inr (hpc ▸ hasleep)
      · simp only [Function.update_of_ne hpc] at hp
        exact .inl hp
  · have hno : ∀ h p, k.place p ≠ .enters h := by
      rintro h p hp
      obtain rfl := hi.entering h p hp
      exact he ⟨h, hp⟩
    have hsame : Inv { k with rq := r, place := k.place } := hi.calm hok hcalm (by simp) (fun _ _ => Iff.rfl)
      (fun h p hp => absurd hp (hno h p)) fun _ _ hp => .inl hp
    cases hpl : k.place k.rq.curr with
    | free => exact hsame
    | enters h => exact absurd hpl (hno h _)
    | sleeps h => exact hsame

/-- The current task has an entry in the queue `h` and is about to sleep. -/
theorem goesToSleep (hi : Inv k) (hne : k.rq.curr ≠ k.rq.idle)
    (hstate : state = .interruptible ∨ state = .uninterruptible) (hrq : k'.rq = (k.setState state).rq)
    (hself : k'.place k.rq.curr = .enters h) (hplace : ∀ p, p ≠ k.rq.curr → k'.place p = k.place p)
    (hwaits : ∀ h' p, (∃ w ∈ k'.waiters h', w.task = p) ↔ (k'.place p).Waits h')
    (hdistinct : ∀ h', ((k'.waiters h').map Waiter.task).Nodup)
    (hsorted : ∀ h', (k'.waiters h').Pairwise fun v w => v.exclusive = true → w.exclusive = true)
    (hothers : ∀ h', h' ≠ h → k'.waiters h' = k.waiters h')
    (hcount : k'.done = k.done ∧ k'.returns = k.returns ∧ k'.completes = k.completes)
    (hdone : ∀ x, h = .completion x → k.done x = 0) : Inv k' := by
  obtain ⟨hd, hr, hcm⟩ := hcount
  have hother : ∀ p, p ≠ k.rq.curr → k'.rq.tasks p = k.rq.tasks p :=
    fun p hp => (congrFun (congrArg Runqueue.tasks hrq) p).trans (setTask_tasks_of_ne k.rq _ hp)
  have hcurr : (k'.rq.tasks k.rq.curr).state = state := by
    rw [hrq, Kernel.setState, setTask_tasks_self]
  refine ⟨?_, hwaits, hdistinct, hsorted, ?_, ?_, ?_, ?_, ?_, ?_, ?_, ?_⟩
  · rw [hrq]
    exact ok_setState hi.ok state fun he => absurd he hne
  · intro p hp
    rw [hrq]
    by_cases hpc : p = k.rq.curr
    · exact hpc ▸ (hi.ok.curr hne).1
    · exact hi.hashed p (hplace p hpc ▸ hp)
  · intro h' p hp
    rw [hrq]
    by_cases hpc : p = k.rq.curr
    · exact hpc.symm
    · exact hi.entering h' p ((hplace p hpc).symm.trans hp)
  · intro p hp
    by_cases hpc : p = k.rq.curr
    · rw [hpc]
      exact .inr (hcurr.symm ▸ hstate)
    · rw [hother p hpc]
      exact hi.rests p (hplace p hpc ▸ hp)
  · intro h' p hp
    by_cases hpc : p = k.rq.curr
    · rw [hpc, hself] at hp
      cases hp
    · rw [hother p hpc]
      exact hi.asleep h' p ((hplace p hpc).symm.trans hp)
  · intro x
    by_cases hx : h = .completion x
    · exact .inr ((congrFun hd x).trans (hdone x hx) ▸ Nat.zero_le _)
    · rw [hothers _ (Ne.symm hx), hd]
      refine (hi.covered x).mono fun w hw hu => ?_
      have hwc : w.task ≠ k.rq.curr := by
        intro he
        have hm : (k'.place w.task).Waits (.completion x) :=
          (hwaits _ _).mp ⟨w, (hothers _ (Ne.symm hx)).symm ▸ hw, rfl⟩
        rw [he, hself] at hm
        rcases hm with hm | hm
        · exact hx (Place.enters.inj hm)
        · cases hm
      rw [Up, hother _ hwc]
      exact hu
  · rw [hd, hr, hcm]
    exact hi.bound
  · rw [hd, hr, hcm]
    exact hi.count
  · rw [hd]
    exact hi.small

/-- A task outside of these functions begins to sleep. -/
theorem enter {exclusive : Bool} (hi : Inv k) (hfree : k.place k.rq.curr = .free) (hne : k.rq.curr ≠ k.rq.idle)
    (hstate : state = .interruptible ∨ state = .uninterruptible) (hdone : ∀ x, h = .completion x → k.done x = 0) :
    Inv (((k.setState state).addWaitQueue h ⟨k.rq.curr, exclusive⟩).setPlace k.rq.curr (.enters h)) := by
  have hnot : ∀ h', ∀ w ∈ k.waiters h', w.task ≠ k.rq.curr := fun h' w hw => hi.not_mem_of_free hfree hw
  have hnd : ∀ h', k.rq.curr ∉ (k.waiters h').map Waiter.task := by
    intro h' hm
    obtain ⟨w, hw, ht⟩ := List.mem_map.mp hm
    exact hnot h' w hw ht
  have hself : (((k.setState state).addWaitQueue h ⟨k.rq.curr, exclusive⟩).setPlace k.rq.curr (.enters h)).place
      k.rq.curr = .enters h := Function.update_self ..
  have hplace : ∀ p, p ≠ k.rq.curr →
      (((k.setState state).addWaitQueue h ⟨k.rq.curr, exclusive⟩).setPlace k.rq.curr (.enters h)).place p =
        k.place p := fun p hp => Function.update_of_ne hp _ _
  have hmem : ∀ h' w,
      w ∈ (((k.setState state).addWaitQueue h ⟨k.rq.curr, exclusive⟩).setPlace k.rq.curr (.enters h)).waiters h' ↔
        w ∈ k.waiters h' ∨ h' = h ∧ w = ⟨k.rq.curr, exclusive⟩ := fun h' w => mem_addWaitQueue
  refine hi.goesToSleep hne hstate rfl hself hplace (fun h' p => ?_) (fun h' => ?_) (fun h' => ?_)
    (fun h' hh => Function.update_of_ne hh _ _) ⟨rfl, rfl, rfl⟩ hdone
  · simp only [hmem]
    by_cases hp : p = k.rq.curr
    · rw [hp, hself]
      constructor
      · rintro ⟨w, hw | ⟨rfl, rfl⟩, ht⟩
        · exact absurd ht (hnot h' w hw)
        · exact .inl rfl
      · rintro (he | he)
        · cases he
          exact ⟨_, .inr ⟨rfl, rfl⟩, rfl⟩
        · cases he
    · rw [hplace p hp, ← hi.waits h' p]
      constructor
      · rintro ⟨w, hw | ⟨-, rfl⟩, ht⟩
        · exact ⟨w, hw, ht⟩
        · exact absurd ht.symm hp
      · rintro ⟨w, hw, ht⟩
        exact ⟨w, .inl hw, ht⟩
  · by_cases hh : h' = h
    · subst hh
      simp only [Kernel.setPlace, Kernel.addWaitQueue, Kernel.setState, Function.update_self]
      split
      · rw [List.map_append, List.nodup_append_comm]
        exact List.nodup_cons.mpr ⟨hnd h', hi.distinct h'⟩
      · exact List.nodup_cons.mpr ⟨hnd h', hi.distinct h'⟩
    · simp only [Kernel.setPlace, Kernel.addWaitQueue, Kernel.setState, Function.update_of_ne hh]
      exact hi.distinct h'
  · by_cases hh : h' = h
    · subst hh
      simp only [Kernel.setPlace, Kernel.addWaitQueue, Kernel.setState, Function.update_self]
      split
      · rename_i hx
        refine List.pairwise_append.mpr ⟨hi.sorted h', List.pairwise_singleton _ _, fun v _ w hw _ => ?_⟩
        rw [List.mem_singleton.mp hw]
        exact hx
      · rename_i hx
        exact List.pairwise_cons.mpr ⟨fun w _ hv => absurd hv hx, hi.sorted h'⟩
    · simp only [Kernel.setPlace, Kernel.addWaitQueue, Kernel.setState, Function.update_of_ne hh]
      exact hi.sorted h'

theorem ne_idle (hi : Inv k) (hp : k.place p ≠ .free) : p ≠ k.rq.idle := by
  rintro rfl
  have hh := hi.hashed _ hp
  rw [hi.ok.idleUnhashed] at hh
  cases hh

/-- A waiter was woken for nothing and sleeps again. -/
theorem reenter (hi : Inv k) (hp : k.place k.rq.curr = .sleeps (.completion x)) (hdone : k.done x = 0) :
    Inv ((k.setState .uninterruptible).setPlace k.rq.curr (.enters (.completion x))) := by
  have hself : ((k.setState .uninterruptible).setPlace k.rq.curr (.enters (.completion x))).place k.rq.curr =
      .enters (.completion x) := Function.update_self ..
  have hplace : ∀ p, p ≠ k.rq.curr →
      ((k.setState .uninterruptible).setPlace k.rq.curr (.enters (.completion x))).place p = k.place p :=
    fun p hp => Function.update_of_ne hp _ _
  refine hi.goesToSleep (hi.ne_idle (by simp [hp])) (.inr rfl) rfl hself hplace (fun h' p => ?_) hi.distinct
    hi.sorted (fun _ _ => rfl) ⟨rfl, rfl, rfl⟩ fun y hy => Head.completion.inj hy ▸ hdone
  refine (hi.waits h' p).trans ?_
  by_cases hpc : p = k.rq.curr
  · rw [hpc, hself, hp, Place.Waits, Place.Waits]
    simp
  · rw [hplace p hpc]

/-- A task that is back from `schedule` leaves its queue. -/
theorem leave (hi : Inv k) (hp : k.place k.rq.curr = .sleeps h) {done returns : ℕ → ℕ}
    (hcov : ∀ x, Covered k.rq ((k.removeWaitQueue h k.rq.curr).waiters (.completion x)) (done x))
    (hbound : ∀ x, done x + returns x = k.done x + k.returns x) (hsmall : ∀ x, done x ≤ k.done x) :
    Inv { k.removeWaitQueue h k.rq.curr with
      done := done
      returns := returns
      place := update k.place k.rq.curr .free } := by
  have hplace : ∀ p, p ≠ k.rq.curr → update k.place k.rq.curr .free p = k.place p :=
    fun p hp => Function.update_of_ne hp _ _
  have hne : ∀ p, update k.place k.rq.curr .free p ≠ .free → p ≠ k.rq.curr ∧ k.place p ≠ .free := by
    intro p hf
    by_cases hpc : p = k.rq.curr
    · rw [hpc, Function.update_self] at hf
      exact absurd rfl hf
    · exact ⟨hpc, hplace p hpc ▸ hf⟩
  refine ⟨hi.ok, ?_, ?_, ?_, fun p hf => hi.hashed p (hne p hf).2, ?_, fun p hf => hi.rests p (hne p hf).2, ?_,
    hcov, fun x => (hbound x).trans_le (hi.bound x), fun x => ?_, fun x => (hsmall x).trans_lt (hi.small x)⟩
  · intro h' p
    simp only [mem_removeWaitQueue]
    by_cases hpc : p = k.rq.curr
    · rw [hpc, Function.update_self]
      constructor
      · rintro ⟨w, ⟨hw, hh⟩, ht⟩
        have hwt := hi.waits_of_mem hw
        rw [ht, hp] at hwt
        rcases hwt with he | he
        · cases he
        · exact absurd ht (hh (Place.sleeps.inj he).symm)
      · rintro (he | he) <;> cases he
    · rw [hplace p hpc, ← hi.waits h' p]
      constructor
      · rintro ⟨w, ⟨hw, -⟩, ht⟩
        exact ⟨w, hw, ht⟩
      · rintro ⟨w, hw, ht⟩
        exact ⟨w, ⟨hw, fun _ => ht ▸ hpc⟩, ht⟩
  · exact fun h' => (hi.distinct h').sublist ((removeWaitQueue_sublist k h h' _).map _)
  · exact fun h' => (hi.sorted h').sublist (removeWaitQueue_sublist k h h' _)
  · intro h' p hen
    by_cases hpc : p = k.rq.curr
    · exact hpc.symm
    · exact hi.entering h' p ((hplace p hpc).symm.trans hen)
  · intro h' p hsl
    by_cases hpc : p = k.rq.curr
    · simp [hpc] at hsl
    · exact hi.asleep h' p ((hplace p hpc).symm.trans hsl)
  · rw [Nat.ModEq, hbound x]
    exact hi.count x

theorem resume (hi : Inv k) (hp : k.place k.rq.curr = .sleeps h) : Inv k.resume := by
  cases h with
  | queue a =>
    simp only [Kernel.resume, hp]
    refine hi.leave hp (fun x => ?_) (fun _ => rfl) fun _ => le_rfl
    have hsame : (k.removeWaitQueue (.queue a) k.rq.curr).waiters (.completion x) = k.waiters (.completion x) := by
      simp [Kernel.removeWaitQueue]
    rw [hsame]
    exact hi.covered x
  | completion x =>
    simp only [Kernel.resume, hp]
    by_cases hd : k.done x = 0
    · rw [if_pos hd]
      exact hi.reenter hp hd
    · rw [if_neg hd]
      obtain ⟨w, hw, hwc⟩ := (hi.waits (.completion x) k.rq.curr).mpr (.inr hp)
      have hup : Up k.rq w := by
        rw [Up, hwc]
        exact (hi.up_of_back hp).1
      refine hi.leave hp (fun y => ?_) (fun y => ?_) fun y => ?_
      · by_cases hy : y = x
        · subst hy
          -- the completion that is taken and the waiter that takes it leave together
          have hcount := running_filter (hi.distinct (.completion y)) hw hup
          rw [hwc] at hcount
          simp only [Kernel.removeWaitQueue, Kernel.takeDone, Function.update_self]
          rcases hi.covered y with hall | hle
          · exact .inl fun v hv => hall v (List.mem_of_mem_filter hv)
          · exact .inr (by omega)
        · have hne : Head.completion y ≠ .completion x := fun he => hy (Head.completion.inj he)
          simp only [Kernel.removeWaitQueue, Kernel.takeDone, Function.update_of_ne hne, Function.update_of_ne hy]
          exact hi.covered y
      · by_cases hy : y = x
        · subst hy
          simp only [Kernel.removeWaitQueue, Kernel.takeDone, Function.update_self]
          omega
        · simp only [Kernel.removeWaitQueue, Kernel.takeDone, Function.update_of_ne hy]
      · by_cases hy : y = x
        · subst hy
          simp only [Kernel.removeWaitQueue, Kernel.takeDone, Function.update_self]
          omega
        · simp only [Kernel.removeWaitQueue, Kernel.takeDone, Function.update_of_ne hy]
          exact le_rfl

theorem waitForCompletion (hi : Inv k) (hfree : k.place k.rq.curr = .free) (hne : k.rq.curr ≠ k.rq.idle) (x : ℕ) :
    Inv (k.waitForCompletion x) := by
  rw [Kernel.waitForCompletion]
  by_cases hd : k.done x = 0
  · rw [if_pos hd]
    exact hi.enter hfree hne (.inr rfl) fun y hy => Head.completion.inj hy ▸ hd
  · rw [if_neg hd]
    refine ⟨hi.ok, hi.waits, hi.distinct, hi.sorted, hi.hashed, hi.entering, hi.rests, hi.asleep, fun y => ?_,
      fun y => ?_, fun y => ?_, fun y => ?_⟩
    all_goals
      by_cases hy : y = x
      · subst hy
        simp only [Kernel.takeDone, Function.update_self]
        have hsum : k.done y - 1 + (k.returns y + 1) = k.done y + k.returns y := by omega
        first
          | exact hsum.trans_le (hi.bound y)
          | exact hsum ▸ hi.count y
          | exact (Nat.sub_le _ _).trans_lt (hi.small y)
          | exact (hi.covered y).imp_right (Nat.sub_le _ _).trans
      · simp only [Kernel.takeDone, Function.update_of_ne hy]
        first
          | exact hi.bound y
          | exact hi.count y
          | exact hi.small y
          | exact hi.covered y

/-- `complete` wakes a waiter that sleeps, if there is one. -/
theorem complete (hi : Inv k) (x : ℕ) : Inv (k.complete c jiffies x) := by
  have hwoken : Woken k.rq (wakeUpCommon c jiffies 3 (k.waiters (.completion x)) 1 k.rq) :=
    wakeUpCommon_woken hi.ok fun _ hw => hi.hashed_of_mem hw
  have hscan : Scanned 3 1 k.rq (wakeUpCommon c jiffies 3 (k.waiters (.completion x)) 1 k.rq)
      (k.waiters (.completion x)) := wakeUpCommon_scanned (hi.distinct _) (hi.sorted _)
  have hi' := hi.woken hwoken
  rw [Kernel.complete]
  generalize wakeUpCommon c jiffies 3 (k.waiters (.completion x)) 1 k.rq = rq' at hwoken hscan hi' ⊢
  have hcalm : ∀ w : Waiter, (k.rq.tasks w.task).Calm (rq'.tasks w.task) := fun w => hwoken.calms.tasks w.task (by simp)
  have hcov : Covered rq' (k.waiters (.completion x)) ((k.done x + 1) % 2 ^ 32) := by
    by_cases hall : ∀ w ∈ k.waiters (.completion x), Up rq' w
    · exact .inl hall
    · right
      push Not at hall
      obtain ⟨w, hw, hno⟩ := hall
      have hrests : ∀ v ∈ k.waiters (.completion x), Rests (k.rq.tasks v.task) :=
        fun v hv => hi.rests _ (Waits.ne_free (hi.waits_of_mem hv))
      have hfits : Fits 3 k.rq w := by
        rcases hrests w hw with ⟨hr, -⟩ | hr | hr
        · exact absurd (up_of_calm (hcalm w) hr) hno
        · simp [Fits, hr, taskBits]
        · simp [Fits, hr, taskBits]
      obtain ⟨-, hone⟩ := hscan.enough.resolve_left fun h => hno (h w hw hfits)
      obtain ⟨v, hv, hr⟩ := List.countP_pos_iff.mp (show 0 < roused k.rq rq' (k.waiters (.completion x)) by omega)
      obtain ⟨-, ha, ha'⟩ := of_decide_eq_true hr
      have hvno : ¬ Up k.rq v := by
        intro hu
        rcases hrests v hv with ⟨-, hr⟩ | hr | hr
        · exact hr ha
        · rw [Up, hr] at hu
          cases hu
        · rw [Up, hr] at hu
          cases hu
      have hvyes : Up rq' v := by
        rcases hcalm v with ⟨-, hn, -⟩ | ⟨hr, -⟩
        · exact absurd (hn ha) ha'
        · exact hr
      have hlt := running_lt (fun w _ => up_of_calm (hcalm w)) hv hvno hvyes
      rcases hi.covered x with hall | hle
      · exact absurd (up_of_calm (hcalm w) (hall w hw)) hno
      · exact (Nat.mod_le _ _).trans (by omega)
  refine ⟨hi'.ok, hi'.waits, hi'.distinct, hi'.sorted, hi'.hashed, hi'.entering, hi'.rests, hi'.asleep,
    fun y => ?_, fun y => ?_, fun y => ?_, fun y => ?_⟩
  · by_cases hy : y = x
    · subst hy
      simp only [Function.update_self]
      exact hcov
    · simp only [Function.update_of_ne hy]
      exact hi'.covered y
  · by_cases hy : y = x
    · subst hy
      simp only [Function.update_self]
      have := hi.bound y
      have := Nat.mod_le (k.done y + 1) (2 ^ 32)
      omega
    · simp only [Function.update_of_ne hy]
      exact hi.bound y
  · by_cases hy : y = x
    · subst hy
      simp only [Function.update_self]
      have hmod : (k.done y + 1) % 2 ^ 32 ≡ k.done y + 1 [MOD 2 ^ 32] := Nat.mod_modEq _ _
      have hsum := (hmod.add_right (k.returns y)).trans (by rw [Nat.add_right_comm])
      exact hsum.trans ((hi.count y).add_right 1)
    · simp only [Function.update_of_ne hy]
      exact hi.count y
  · by_cases hy : y = x
    · subst hy
      simp only [Function.update_self]
      exact Nat.mod_lt _ (by norm_num)
    · simp only [Function.update_of_ne hy]
      exact hi.small y

theorem sched {e : Sched.Event} {r : ℤ} (hi : Inv k) (ha : k.Allowed (.sched e))
    (hs : k.rq.step c jiffies e = some (r, rq')) : Inv { k with rq := rq' } := by
  obtain ⟨hallowed, hns, hsrc⟩ := ha
  refine hi.calm (ok_step hi.ok hallowed hs) (step_calms hi.ok hallowed hs) (fun p hp => ?_)
    (fun _ _ => Iff.rfl) (fun h p hp => ?_) fun _ _ hp => .inl hp
  · by_contra hne
    have hhash := hi.hashed p hne
    cases e with
    | setState state =>
      obtain rfl : p = k.rq.curr := hp
      exact hne (hsrc.resolve_left (by simp [FromInterrupt]))
    | doFork newPid vfork =>
      obtain rfl : newPid = .ok p := hp
      rw [(hallowed.2 p rfl).1] at hhash
      cases hhash
    | initIdle =>
      obtain rfl : p = k.rq.idle := hp
      rw [hi.ok.idleUnhashed] at hhash
      cases hhash
    | _ => exact hp.elim
  · have hcurr := hi.entering h p hp
    have hint : FromInterrupt e = true := by
      refine hsrc.resolve_right fun hf => ?_
      rw [hcurr, hp] at hf
      cases hf
    cases e with
    | schedulerTick =>
      cases hs
      have hh : Heeds k.rq (k.rq.schedulerTick c jiffies) := schedulerTick_heeds k.rq
      exact hh.curr.trans hcurr
    | tryToWakeUp p =>
      cases hs
      have hh : Heeds k.rq (k.rq.tryToWakeUp c jiffies p).2 := tryToWakeUp_heeds hi.ok p
      exact hh.curr.trans hcurr
    | _ => cases hint

theorem boot (c : Clock) (jiffies : ℕ) : Inv (Kernel.boot c jiffies) where
  ok := ok_schedInit
  waits h p := by simp [Kernel.boot, Place.Waits]
  distinct h := List.nodup_nil
  sorted h := List.Pairwise.nil
  hashed p hp := absurd rfl hp
  entering h p hp := by cases hp
  rests p hp := absurd rfl hp
  asleep h p hp := by cases hp
  covered x := .inr (Nat.zero_le _)
  bound x := le_rfl
  count x := rfl
  small x := by simp [Kernel.boot]

end Inv

theorem inv_step {e : Event} (hi : Inv k) (ha : k.Allowed e) (hs : k.step c jiffies e = some k') : Inv k' := by
  cases e with
  | sleepOn a exclusive state =>
    cases hs
    exact hi.enter ha.2.1 ha.1 ha.2.2 fun x hx => by cases hx
  | waitForCompletion x =>
    cases hs
    exact hi.waitForCompletion ha.2 ha.1 x
  | schedule signal => exact hi.schedule hs
  | resume =>
    cases hs
    cases hp : k.place k.rq.curr with
    | sleeps h => exact hi.resume hp
    | free => exact absurd ha (by simp [Kernel.Allowed, hp, Place.Back])
    | enters h => exact absurd ha (by simp [Kernel.Allowed, hp, Place.Back])
  | complete x =>
    cases hs
    exact hi.complete x
  | wakeUp a mode n =>
    cases hs
    exact hi.wakeUp (.queue a) mode n
  | sched e =>
    obtain ⟨⟨r, rq'⟩, hr, rfl⟩ := Option.map_eq_some_iff.mp hs
    exact hi.sched ha hr

theorem inv_run {boot : ℕ} {es : List (ℕ × Event)} (h : Run (Kernel.Step c) (Kernel.boot c boot) es k) : Inv k :=
  h.invariant (.boot c boot) fun _ _ _ hi hs => inv_step hi hs.1 hs.2

end OperationSystems.Wait
