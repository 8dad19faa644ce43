import OperationSystems.Wait.Model

/-!
# What a wakeup does to a queue

The scan wakes every waiter it comes to whose state fits. It stops when it has
put as many exclusive waiters on the runqueue as it was told to.
-/

namespace OperationSystems.Wait

open Sched (Runqueue TaskState Clock Task)
open Sched.Runqueue

variable {c : Clock} {jiffies mode : ℕ} {rq rq' rq'' : Runqueue} {p q : ℕ} {w : Waiter} {ws : List Waiter} {n : ℤ}

theorem tryToWakeUp_success (rq : Runqueue) (p : ℕ) :
    (rq.tryToWakeUp c jiffies p).1 = true ↔ (rq.tasks p).array = none := by
  unfold tryToWakeUp
  by_cases ha : (rq.tasks p).array = none
  · simp [ha]
  · simp [ha]

/-- State and queue of a task stay. -/
def Unmoved (rq rq' : Runqueue) (q : ℕ) : Prop :=
  (rq'.tasks q).state = (rq.tasks q).state ∧ (rq'.tasks q).array = (rq.tasks q).array

theorem Unmoved.refl (rq : Runqueue) (q : ℕ) : Unmoved rq rq q := ⟨rfl, rfl⟩

theorem Unmoved.trans (h : Unmoved rq rq' q) (h' : Unmoved rq' rq'' q) : Unmoved rq rq'' q :=
  ⟨h'.1.trans h.1, h'.2.trans h.2⟩

theorem reschedTask_unmoved (rq : Runqueue) (p q : ℕ) : Unmoved rq (rq.reschedTask p) q := by
  obtain ⟨b, hb⟩ := reschedTask_self rq p q
  rw [Unmoved, hb]
  exact ⟨rfl, rfl⟩

theorem tryToWakeUp_unmoved (hq : q ≠ p) : Unmoved rq (rq.tryToWakeUp c jiffies p).2 q := by
  have hset : ∀ r t, Unmoved r (r.setTask p t) q := fun r t => by
    rw [Unmoved, setTask_tasks_of_ne r t hq]
    exact ⟨rfl, rfl⟩
  have hact : Unmoved rq (rq.activateTask c jiffies p) q := by
    rw [Unmoved, (only_activateTask rq p).tasks q hq]
    exact ⟨rfl, rfl⟩
  unfold tryToWakeUp
  dsimp only
  split_ifs
  · exact (hact.trans (reschedTask_unmoved _ _ q)).trans (hset _ _)
  · exact (hact.trans (reschedTask_unmoved _ _ q)).trans (hset _ _)
  · exact hact.trans (hset _ _)
  · exact hset rq _

/-- The runqueue is right, it knows the waiters, and the current task is the same. -/
structure Woken (rq rq' : Runqueue) : Prop where
  ok : rq'.Ok
  curr : rq'.curr = rq.curr
  idle : rq'.idle = rq.idle
  calms : Calms ∅ rq rq'

theorem Woken.refl (h : rq.Ok) : Woken rq rq := ⟨h, rfl, rfl, .refl _ rq⟩

theorem Woken.trans (h : Woken rq rq') (h' : Woken rq' rq'') : Woken rq rq'' :=
  ⟨h'.ok, h'.curr.trans h.curr, h'.idle.trans h.idle, h.calms.trans h'.calms⟩

theorem tryToWakeUp_woken (h : rq.Ok) (hp : rq.hashed p = true) : Woken rq (rq.tryToWakeUp c jiffies p).2 := by
  have hh : Heeds rq (rq.tryToWakeUp c jiffies p).2 := tryToWakeUp_heeds h p
  exact ⟨ok_tryToWakeUp h (h.valid p (by simp) (.inl hp)) (.inl hp), hh.curr, hh.idle, tryToWakeUp_calms rq p⟩

theorem wakeUpCommon_woken (h : rq.Ok) (hw : ∀ w ∈ ws, rq.hashed w.task = true) :
    Woken rq (wakeUpCommon c jiffies mode ws n rq) := by
  induction ws generalizing rq n with
  | nil => exact .refl h
  | cons w ws ih =>
    have hone : Woken rq (rq.tryToWakeUp c jiffies w.task).2 := tryToWakeUp_woken h (hw w List.mem_cons_self)
    have hrest : ∀ n, Woken rq (wakeUpCommon c jiffies mode ws n (rq.tryToWakeUp c jiffies w.task).2) :=
      fun n => hone.trans (ih hone.ok fun v hv => hone.calms.hashed _ (hw v (List.mem_cons_of_mem w hv)))
    simp only [wakeUpCommon]
    split_ifs
    · exact hone
    · exact hrest _
    · exact hrest _
    · exact ih h fun v hv => hw v (List.mem_cons_of_mem w hv)

theorem wakeUpCommon_unmoved (hq : ∀ w ∈ ws, w.task ≠ q) :
    Unmoved rq (wakeUpCommon c jiffies mode ws n rq) q := by
  induction ws generalizing rq n with
  | nil => exact .refl rq q
  | cons w ws ih =>
    have hone : Unmoved rq (rq.tryToWakeUp c jiffies w.task).2 q :=
      tryToWakeUp_unmoved (hq w List.mem_cons_self).symm
    have hrest : ∀ rq n, Unmoved rq (wakeUpCommon c jiffies mode ws n rq) q :=
      fun rq n => ih fun v hv => hq v (List.mem_cons_of_mem w hv)
    simp only [wakeUpCommon]
    split_ifs
    · exact hone
    · exact hone.trans (hrest _ _)
    · exact hone.trans (hrest _ _)
    · exact hrest _ _

/-- The state of the waiter is one of those to be woken. -/
def Fits (mode : ℕ) (rq : Runqueue) (w : Waiter) : Prop := taskBits (rq.tasks w.task).state &&& mode ≠ 0

instance (mode : ℕ) (rq : Runqueue) (w : Waiter) : Decidable (Fits mode rq w) := inferInstanceAs (Decidable (_ ≠ _))

/-- An exclusive waiter that was put on the runqueue. -/
def Roused (rq rq' : Runqueue) (w : Waiter) : Prop :=
  w.exclusive = true ∧ (rq.tasks w.task).array = none ∧ (rq'.tasks w.task).array ≠ none

instance (rq rq' : Runqueue) (w : Waiter) : Decidable (Roused rq rq' w) := inferInstanceAs (Decidable (_ ∧ _))

def roused (rq rq' : Runqueue) (ws : List Waiter) : ℕ := ws.countP fun w => Roused rq rq' w

/-- A task runs after the scan. -/
def Up (rq : Runqueue) (w : Waiter) : Prop := (rq.tasks w.task).state = .running

instance (rq : Runqueue) (w : Waiter) : Decidable (Up rq w) := inferInstanceAs (Decidable (_ = _))

/-- What the scan of distinct waiters, the exclusive ones last, achieves. -/
structure Scanned (mode : ℕ) (n : ℤ) (rq rq' : Runqueue) (ws : List Waiter) : Prop where
  shared : ∀ w ∈ ws, w.exclusive = false → Fits mode rq w → Up rq' w
  few : 0 < n → (roused rq rq' ws : ℤ) ≤ n
  enough : (∀ w ∈ ws, Fits mode rq w → Up rq' w) ∨ 0 < n ∧ (roused rq rq' ws : ℤ) = n

theorem Unmoved.up (h : Unmoved rq rq' w.task) : Up rq' w ↔ Up rq w := by rw [Up, Up, h.1]

theorem Unmoved.fits (h : Unmoved rq rq' w.task) : Fits mode rq' w ↔ Fits mode rq w := by rw [Fits, Fits, h.1]

theorem roused_congr {r s : Runqueue} (h : ∀ w ∈ ws, Unmoved rq r w.task) (h' : ∀ w ∈ ws, Unmoved rq' s w.task) :
    roused r s ws = roused rq rq' ws := by
  refine List.countP_congr fun w hw => ?_
  have hiff : Roused r s w ↔ Roused rq rq' w := by rw [Roused, Roused, (h w hw).2, (h' w hw).2]
  simp only [decide_eq_true_eq, hiff]

/-- The head of the queue, in a scan whose rest has the result `s`. -/
theorem Scanned.cons {s : Runqueue} {m : ℤ} (h : Scanned mode m rq' s ws)
    (hrest : ∀ v ∈ ws, Unmoved rq rq' v.task) (hhead : Unmoved rq' s w.task) (hup : Fits mode rq w → Up rq' w)
    (hn : n = m + if Roused rq rq' w then 1 else 0) (hpos : 0 < n → 0 < m) (hneg : 0 < m → 0 < n) :
    Scanned mode n rq s (w :: ws) := by
  have hroused : Roused rq s w ↔ Roused rq rq' w := by rw [Roused, Roused, hhead.2]
  have hcount : (roused rq s (w :: ws) : ℤ) = roused rq' s ws + if Roused rq rq' w then 1 else 0 := by
    rw [roused, List.countP_cons, ← roused, ← roused_congr hrest fun v _ => .refl s v.task]
    simp only [decide_eq_true_eq, hroused]
    split <;> simp
  have hfits : ∀ v ∈ w :: ws, Fits mode rq v → (∀ v ∈ ws, Fits mode rq' v → Up s v) → Up s v := by
    intro v hv hf hall
    rcases List.mem_cons.mp hv with rfl | hv
    · exact hhead.up.mpr (hup hf)
    · exact hall v hv ((hrest v hv).fits.mpr hf)
  refine ⟨?_, ?_, ?_⟩
  · intro v hv he hf
    rcases List.mem_cons.mp hv with rfl | hv
    · exact hhead.up.mpr (hup hf)
    · exact h.shared v hv he ((hrest v hv).fits.mpr hf)
  · intro h0
    have := h.few (hpos h0)
    rw [hcount]
    omega
  · rcases h.enough with hall | ⟨h0, he⟩
    · exact .inl fun v hv hf => hfits v hv hf hall
    · refine .inr ⟨hneg h0, ?_⟩
      rw [hcount]
      omega

/-- The scan ends at an exclusive waiter, the last one that it was told to wake. -/
theorem Scanned.stop (hw : w.exclusive = true)
    (hs : ∀ v ∈ ws, v.exclusive = true) (ha : (rq.tasks w.task).array = none)
    (ha' : (rq'.tasks w.task).array ≠ none) (hrest : ∀ v ∈ ws, Unmoved rq rq' v.task) :
    Scanned mode 1 rq rq' (w :: ws) := by
  have hnone : roused rq rq' ws = 0 := by
    refine List.countP_eq_zero.mpr fun v hv => ?_
    simp only [Roused, (hrest v hv).2, decide_eq_true_eq, not_and, not_not]
    exact fun _ hn => hn
  have hone : roused rq rq' (w :: ws) = 1 := by
    rw [roused, List.countP_cons, ← roused, hnone]
    simp [Roused, hw, ha, ha']
  refine ⟨fun v hv he => ?_, fun _ => by rw [hone]; rfl, .inr ⟨one_pos, by rw [hone]; rfl⟩⟩
  rcases List.mem_cons.mp hv with rfl | hv
  · rw [hw] at he
    cases he
  · rw [hs v hv] at he
    cases he

theorem wakeUpCommon_scanned (hd : (ws.map Waiter.task).Nodup)
    (hs : ws.Pairwise fun v w => v.exclusive = true → w.exclusive = true) :
    Scanned mode n rq (wakeUpCommon c jiffies mode ws n rq) ws := by
  induction ws generalizing rq n with
  | nil => exact ⟨by simp, fun h => h.le, .inl (by simp)⟩
  | cons w ws ih =>
    rw [List.map_cons, List.nodup_cons] at hd
    obtain ⟨hlater, hs⟩ := List.pairwise_cons.mp hs
    have hne : ∀ v ∈ ws, v.task ≠ w.task := fun v hv he => hd.1 (he ▸ List.mem_map_of_mem hv)
    have hothers : ∀ v ∈ ws, Unmoved rq (rq.tryToWakeUp c jiffies w.task).2 v.task :=
      fun v hv => tryToWakeUp_unmoved (hne v hv)
    have hkept : ∀ r m, Unmoved r (wakeUpCommon c jiffies mode ws m r) w.task :=
      fun r m => wakeUpCommon_unmoved hne
    obtain ⟨hup, harray⟩ := @tryToWakeUp_wakes c jiffies rq w.task
    have hsuccess := @tryToWakeUp_success c jiffies rq w.task
    simp only [wakeUpCommon]
    by_cases hf : taskBits (rq.tasks w.task).state &&& mode ≠ 0
    · rw [if_pos hf]
      by_cases hwe : (rq.tryToWakeUp c jiffies w.task).1 = true ∧ w.exclusive = true
      · have ha := hsuccess.mp hwe.1
        have hr : Roused rq (rq.tryToWakeUp c jiffies w.task).2 w := ⟨hwe.2, ha, harray⟩
        rw [if_pos hwe]
        by_cases hn : n - 1 = 0
        · rw [if_pos hn, show n = 1 by omega]
          exact .stop hwe.2 (fun v hv => hlater v hv hwe.2) ha harray hothers
        · rw [if_neg hn]
          exact (ih hd.2 hs).cons hothers (hkept _ _) (fun _ => hup) (by rw [if_pos hr]; omega) (by omega)
            (by omega)
      · have hr : ¬ Roused rq (rq.tryToWakeUp c jiffies w.task).2 w :=
          fun hr => hwe ⟨hsuccess.mpr hr.2.1, hr.1⟩
        rw [if_neg hwe]
        exact (ih hd.2 hs).cons hothers (hkept _ _) (fun _ => hup) (by rw [if_neg hr]; omega) id id
    · have hr : ¬ Roused rq rq w := fun hr => hr.2.2 hr.2.1
      rw [if_neg hf]
      exact (ih hd.2 hs).cons (fun v _ => .refl rq v.task) (hkept _ _) (fun h => absurd h hf)
        (by rw [if_neg hr]; omega) id id

end OperationSystems.Wait
