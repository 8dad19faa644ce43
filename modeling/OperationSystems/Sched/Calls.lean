import OperationSystems.Sched.Moves

/-!
# System calls

`nice`, `setpriority`, `sched_setscheduler`, `fork` and the first half of
`sched_yield` keep the invariant, and so do `init_idle` and `sched_init`. The
checks of `setscheduler` are what keeps the priorities in range.
-/

namespace OperationSystems.Sched
open Buckets PrioArray

namespace Runqueue
variable {rq : Runqueue} {p q : ℕ} {d : ℤ} {t : Task} {A B : Fin 3} {x : Option ℕ} {c : Clock}
  {jiffies : ℕ} {nice : ℤ}

theorem hashed_ne_idle (h : rq.Inv x d) (hp : rq.hashed p = true) : p ≠ rq.idle := by
  rintro rfl
  rw [h.idleUnhashed] at hp
  cases hp

/-- A task of `SCHED_OTHER` gets another nice value. -/
def reniced (t : Task) (nice : ℤ) : Task :=
  { t with staticPrio := niceToPrio nice, prio := niceToPrio nice }

theorem reniced_valid (hp : t.policy = .other) (hn : -20 ≤ nice ∧ nice ≤ 19) :
    (reniced t nice).Valid := by
  refine Task.valid_other hp ?_ ?_ <;>
  · simp only [reniced, niceToPrio, maxRtPrio, maxPrio]
    omega

theorem setUserNice_eq (rq : Runqueue) (p : ℕ) (nice : ℤ) :
    rq.setUserNice p nice =
      let t := rq.tasks p
      if t.policy = .short then rq
      else if t.nice = nice ∨ nice < -20 ∨ nice > 19 then rq
      else if t.Rt then rq.setTask p { t with staticPrio := niceToPrio nice }
      else match t.array with
      | none => rq.setTask p (reniced t nice)
      | some A =>
        let rq := ((rq.dequeueTask p A).setTask p (reniced t nice)).enqueueTask p A
        if niceToPrio nice < (rq.tasks p).staticPrio ∨ p = rq.curr then rq.reschedTask rq.curr
        else rq := rfl

theorem ok_setUserNice (h : rq.Ok) (hp : rq.hashed p = true) : (rq.setUserNice p nice).Ok := by
  have hv := h.valid p (by simp) (Or.inl hp)
  rw [setUserNice_eq]
  dsimp only
  split_ifs with hs hn hrt
  · exact h
  · exact h
  · refine h.setSame rfl rfl (fun _ hb => hb) (fun _ => ⟨?_, hv.other, hv.rt, hv.short⟩)
      fun he => absurd he (hashed_ne_idle h hp)
    simp only [niceToPrio, maxRtPrio, maxPrio]
    omega
  · have ho := hv.policy_other hrt hs
    have hr : (reniced (rq.tasks p) nice).Valid := reniced_valid ho (by omega)
    cases hA : (rq.tasks p).array with
    | none => exact ok_setOff h hA hA (fun _ => hr) fun he => absurd he (hashed_ne_idle h hp)
    | some A =>
      have hb : rq.Belongs (reniced (rq.tasks p) nice) A :=
        ⟨(h.belongs p A (by simp) hA).1, fun hrt => absurd hrt (hr.not_rt ho)⟩
      have hm := ok_requeue h hA hb hr fun he => absurd he (hashed_ne_idle h hp)
      dsimp only
      split_ifs
      · exact ok_reschedTask hm _
      · exact hm

theorem setUserNice_hashed (rq : Runqueue) (p : ℕ) (nice : ℤ) :
    (rq.setUserNice p nice).hashed = rq.hashed := by
  rw [setUserNice_eq]
  dsimp only
  split_ifs
  · rfl
  · rfl
  · rfl
  · cases (rq.tasks p).array with
    | none => rfl
    | some A =>
      obtain ⟨arrays, ha⟩ := dequeueTask_arrays rq p A
      dsimp only
      rw [ha]
      split_ifs <;> rfl

theorem ok_sysNice (h : rq.Ok) (hc : rq.curr ≠ rq.idle) (increment : ℤ) :
    (rq.sysNice increment).2.Ok := by
  have hset : ∀ n, (rq.setUserNice rq.curr n).Ok := fun n => ok_setUserNice h (h.curr hc).1
  unfold sysNice
  dsimp only
  by_cases hs : (rq.tasks rq.curr).policy = .short
  · rw [if_pos hs]
    exact h
  · rw [if_neg hs]
    by_cases hcap : increment < 0 ∧ (rq.tasks rq.curr).capSysNice = false
    · rw [if_pos hcap]
      exact h
    · rw [if_neg hcap]
      exact hset _

theorem setpriorityOne_hashed (niceval : ℤ) (r : ℤ × Runqueue) (p : ℕ) :
    (setpriorityOne niceval r p).2.hashed = r.2.hashed := by
  unfold setpriorityOne
  dsimp only
  split_ifs
  · rfl
  · rfl
  all_goals exact setUserNice_hashed _ _ _

theorem ok_setpriorityOne {r : ℤ × Runqueue} (niceval : ℤ) (h : r.2.Ok) (hp : r.2.hashed p = true) :
    (setpriorityOne niceval r p).2.Ok := by
  unfold setpriorityOne
  dsimp only
  split_ifs
  · exact h
  · exact h
  all_goals exact ok_setUserNice h hp

theorem ok_setpriorityList (niceval : ℤ) (sel : List ℕ) (r : ℤ × Runqueue) (h : r.2.Ok)
    (hsel : ∀ p ∈ sel, r.2.hashed p = true) : (sel.foldl (setpriorityOne niceval) r).2.Ok := by
  induction sel generalizing r with
  | nil => exact h
  | cons p sel ih =>
    refine ih _ (ok_setpriorityOne niceval h (hsel p (by simp))) fun q hq => ?_
    rw [setpriorityOne_hashed]
    exact hsel q (by simp [hq])

theorem ok_sysSetpriority (h : rq.Ok) (which niceval : ℤ) {sel : List ℕ}
    (hsel : ∀ p ∈ sel, rq.hashed p = true) : (rq.sysSetpriority which sel niceval).2.Ok := by
  unfold sysSetpriority
  by_cases hw : which > 2 ∨ which < 0
  · rw [if_pos hw]
    exact h
  · rw [if_neg hw]
    exact ok_setpriorityList _ _ _ h hsel

theorem findProcessByPid_hashed (h : rq.Ok) (hc : rq.curr ≠ rq.idle) {pid : ℤ}
    (hp : rq.findProcessByPid pid = some p) : rq.hashed p = true := by
  unfold findProcessByPid at hp
  split_ifs at hp with h0 hk
  · obtain rfl := Option.some.inj hp
    exact (h.curr hc).1
  · obtain rfl := Option.some.inj hp
    exact hk

end Runqueue

namespace Task
variable {current t : Task} {c : Clock} {policy : ℤ} {policy' : Policy} {lp : SchedParam}

theorem not_bad_iff :
    ¬ lp.Bad ↔ (1 ≤ lp.requestedTime ∧ lp.requestedTime ≤ 3000) ∧
      0 ≤ lp.schedShortPrio ∧ lp.schedShortPrio ≤ 139 := by
  unfold SchedParam.Bad
  omega

theorem ofInt_short (h : Policy.ofInt policy = some policy') :
    policy' = .short ↔ policy = schedShort := by
  unfold Policy.ofInt at h
  split at h
  · obtain rfl := Option.some.inj h
    simp [schedShort]
  · obtain rfl := Option.some.inj h
    simp [schedShort]
  · obtain rfl := Option.some.inj h
    simp [schedShort]
  · obtain rfl := Option.some.inj h
    simp [schedShort]
  · cases h

/-- The policy that is requested, where a negative one keeps the policy of the task. -/
def requestedPolicy (t : Task) (policy : ℤ) : Option Policy :=
  if policy < 0 then some t.policy else Policy.ofInt policy

theorem requestedPolicy_short (ht : t.policy ≠ .short) (h : t.requestedPolicy policy = some policy') :
    policy' = .short ↔ policy = schedShort := by
  unfold requestedPolicy at h
  split_ifs at h with hneg
  · obtain rfl := Option.some.inj h
    refine iff_of_false ht fun he => ?_
    rw [schedShort] at he
    omega
  · exact ofInt_short h

/-- A call that is granted has passed every check. -/
theorem checkScheduler_passed : checkScheduler current t policy lp = .ok policy' ↔
    t.requestedPolicy policy = some policy' ∧
      ¬ (policy = schedShort ∧ lp.Bad) ∧
      ¬ (t.policy = .short ∨ (t.policy ≠ .other ∧ policy = schedShort)) ∧
      ¬ (policy' ≠ .short ∧ (lp.schedPriority < 0 ∨ lp.schedPriority > maxUserRtPrio - 1)) ∧
      ¬ (policy' ≠ .short ∧ ¬ (policy' = .other ↔ lp.schedPriority = 0)) ∧
      ¬ ((policy' = .fifo ∨ policy' = .rr) ∧ current.capSysNice = false) ∧
      ¬ (current.euid ≠ t.euid ∧ current.euid ≠ t.uid ∧ current.capSysNice = false) := by
  constructor
  · intro h
    unfold checkScheduler at h
    by_cases hbad : policy = schedShort ∧ lp.Bad
    · simp [hbad] at h
    rw [if_neg hbad] at h
    by_cases hperm : t.policy = .short ∨ (t.policy ≠ .other ∧ policy = schedShort)
    · simp [hperm] at h
    rw [if_neg hperm] at h
    cases hp : (if policy < 0 then some t.policy else Policy.ofInt policy) with
    | none => simp [hp] at h
    | some pol =>
      rw [hp] at h
      dsimp only at h
      split_ifs at h with hrange hzero hrt hown
      obtain rfl := Except.ok.inj h
      exact ⟨hp, hbad, hperm, hrange, hzero, hrt, hown⟩
  · rintro ⟨hp, hbad, hperm, hrange, hzero, hrt, hown⟩
    unfold requestedPolicy at hp
    rw [checkScheduler, if_neg hbad, if_neg hperm, hp]
    dsimp only
    rw [if_neg hrange, if_neg hzero, if_neg hrt, if_neg hown]

/-- What is known of a request that `setscheduler` carries out. -/
theorem checkScheduler_ok (h : checkScheduler current t policy lp = .ok policy') :
    t.policy ≠ .short ∧ (policy' = .short ↔ policy = schedShort) ∧
      (policy' = .short → t.policy = .other ∧ ¬ lp.Bad) ∧
      (policy' ≠ .short → (0 ≤ lp.schedPriority ∧ lp.schedPriority ≤ maxUserRtPrio - 1) ∧
        (policy' = .other ↔ lp.schedPriority = 0)) := by
  obtain ⟨hp, hbad, hperm, hrange, hzero, -, -⟩ := checkScheduler_passed.mp h
  obtain ⟨hs, ho⟩ := not_or.mp hperm
  have hpol := requestedPolicy_short hs hp
  refine ⟨hs, hpol, fun hsh => ?_, fun hns => ?_⟩
  · have hreq := hpol.mp hsh
    exact ⟨by_contra fun hn => ho ⟨hn, hreq⟩, fun hb => hbad ⟨hreq, hb⟩⟩
  · have hle : ¬ (lp.schedPriority < 0 ∨ lp.schedPriority > maxUserRtPrio - 1) := fun hn => hrange ⟨hns, hn⟩
    exact ⟨by omega, by_contra fun hn => hzero ⟨hns, hn⟩⟩

theorem checkScheduler_error {e : ℤ} (h : checkScheduler current t policy lp = .error e) : e ≠ 0 := by
  unfold checkScheduler at h
  split_ifs at h
  · cases h
    decide
  · cases h
    decide
  all_goals
    split at h
    · cases h
      decide
    · split_ifs at h <;>
      · cases h
        decide

theorem rescheduled_valid (hv : t.Valid) (h : checkScheduler current t policy lp = .ok policy') :
    (t.rescheduled c policy' lp).Valid := by
  obtain ⟨-, -, hshort, hrange⟩ := checkScheduler_ok h
  have hprio : policy' ≠ .short →
      0 ≤ maxUserRtPrio - 1 - ((lp.schedPriority % 2 ^ 32).toNat : ℤ) ∧
        maxUserRtPrio - 1 - ((lp.schedPriority % 2 ^ 32).toNat : ℤ) < maxRtPrio := by
    intro hns
    have hr := (hrange hns).1
    simp only [maxUserRtPrio, maxRtPrio] at hr ⊢
    omega
  cases policy' with
  | other => exact valid_other rfl hv.staticPrio hv.staticPrio
  | fifo => exact ⟨hv.staticPrio, (fun h => by cases h), fun _ => hprio (by simp), fun h => by cases h⟩
  | rr => exact ⟨hv.staticPrio, (fun h => by cases h), fun _ => hprio (by simp), fun h => by cases h⟩
  | short =>
    have hbad := not_bad_iff.mp (hshort rfl).2
    refine ⟨hv.staticPrio, (fun h => by cases h), (fun h => by rcases h with h | h <;> cases h), fun _ => ?_⟩
    change 0 ≤ lp.schedShortPrio ∧ lp.schedShortPrio < maxPrio
    simp only [maxPrio]
    omega

end Task

namespace Runqueue
variable {rq : Runqueue} {p q : ℕ} {t : Task} {A B : Fin 3} {c : Clock} {jiffies : ℕ}

/-- The part of `setscheduler` behind the checks. -/
def changePolicy (c : Clock) (jiffies : ℕ) (policy : Policy) (lp : SchedParam) (rq : Runqueue) (p : ℕ) :
    Runqueue :=
  match (rq.tasks p).array with
  | none => rq.setTask p ((rq.tasks p).rescheduled c policy lp)
  | some A => ((rq.deactivateTask p A).setTask p
      (((rq.deactivateTask p A).tasks p).rescheduled c policy lp)).activateTask c jiffies p

theorem setscheduler_ok {pid policy : ℤ} {lp : SchedParam} {policy' : Policy} (hpid : ¬ pid < 0)
    (hp : rq.findProcessByPid pid = some p)
    (hc : Task.checkScheduler (rq.tasks rq.curr) (rq.tasks p) policy lp = .ok policy') :
    rq.setscheduler c jiffies pid policy (.readable lp) =
      let rq := changePolicy c jiffies policy' lp rq p
      (0, if (rq.tasks p).policy = .short then rq.reschedTask rq.curr else rq) := by
  simp only [setscheduler, if_neg hpid, hp, hc, changePolicy]
  rcases Option.eq_none_or_eq_some (rq.tasks p).array with hA | ⟨A, hA⟩
  · simp only [hA, ne_eq, not_true_eq_false, if_false]
  · simp only [hA, ne_eq, reduceCtorEq, not_false_eq_true, if_true]

theorem setscheduler_fails {pid policy : ℤ} {param : UserParam}
    (h : ∀ lp p policy', param = .readable lp → ¬ pid < 0 → rq.findProcessByPid pid = some p →
      Task.checkScheduler (rq.tasks rq.curr) (rq.tasks p) policy lp ≠ .ok policy') :
    ∃ r, r ≠ 0 ∧ rq.setscheduler c jiffies pid policy param = (r, rq) := by
  cases param with
  | null => exact ⟨-einval, by decide, rfl⟩
  | bad =>
    simp only [setscheduler]
    split_ifs
    · exact ⟨-einval, by decide, rfl⟩
    · exact ⟨-efault, by decide, rfl⟩
  | readable lp =>
    by_cases hpid : pid < 0
    · exact ⟨-einval, by decide, by simp only [setscheduler, if_pos hpid]⟩
    · cases hp : rq.findProcessByPid pid with
      | none => exact ⟨-esrch, by decide, by simp only [setscheduler, if_neg hpid, hp]⟩
      | some p =>
        cases hc : Task.checkScheduler (rq.tasks rq.curr) (rq.tasks p) policy lp with
        | error e =>
          exact ⟨e, Task.checkScheduler_error hc, by simp only [setscheduler, if_neg hpid, hp, hc]⟩
        | ok policy' => exact absurd hc (h lp p policy' rfl hpid hp)

theorem rescheduled_array (t : Task) (policy : Policy) (lp : SchedParam) :
    (t.rescheduled c policy lp).array = t.array := by
  simp only [Task.rescheduled]
  split_ifs <;> rfl

theorem ok_changePolicy (h : rq.Ok) (hp : rq.hashed p = true) {policy : ℤ} {policy' : Policy}
    {lp : SchedParam} {current : Task}
    (hc : Task.checkScheduler current (rq.tasks p) policy lp = .ok policy') :
    (changePolicy c jiffies policy' lp rq p).Ok := by
  have hv := h.valid p (by simp) (Or.inl hp)
  have hidle := hashed_ne_idle h hp
  unfold changePolicy
  cases hA : (rq.tasks p).array with
  | none =>
    exact ok_setOff h hA ((rescheduled_array _ _ _).trans hA)
      (fun _ => Task.rescheduled_valid hv hc) fun he => absurd he hidle
  | some A =>
    have hd := h.deactivateTask hA
    obtain ⟨n, arrays, he⟩ := deactivateTask_arrays rq p A
    dsimp only
    rw [he] at hd ⊢
    have hs := hd.setTask (({ rq.tasks p with array := none } : Task).rescheduled c policy' lp)
      fun hp => absurd hp hidle
    rw [setTask_tasks_self]
    refine ok_activateTask hs ?_ (Or.inl hp)
    rw [setTask_tasks_self]
    exact Task.rescheduled_valid (t := { rq.tasks p with array := none })
      ⟨hv.staticPrio, hv.other, hv.rt, hv.short⟩ hc

theorem ok_setscheduler (h : rq.Ok) (hcurr : rq.curr ≠ rq.idle) (pid policy : ℤ) (param : UserParam) :
    (rq.setscheduler c jiffies pid policy param).2.Ok := by
  by_cases hok : ∃ lp p policy', param = .readable lp ∧ ¬ pid < 0 ∧ rq.findProcessByPid pid = some p ∧
      Task.checkScheduler (rq.tasks rq.curr) (rq.tasks p) policy lp = .ok policy'
  · obtain ⟨lp, p, policy', rfl, hpid, hp, hc⟩ := hok
    have hm := @ok_changePolicy _ _ c jiffies h (findProcessByPid_hashed h hcurr hp) _ _ _ _ hc
    rw [setscheduler_ok hpid hp hc]
    dsimp only
    split_ifs
    · exact ok_reschedTask hm _
    · exact hm
  · obtain ⟨r, -, hr⟩ := @setscheduler_fails rq c jiffies pid policy param
      fun lp p policy' h₁ h₂ h₃ h₄ => hok ⟨lp, p, policy', h₁, h₂, h₃, h₄⟩
    rw [hr]
    exact h

theorem findFirstBit_spec {bitmap : ℤ → Bool} (h : bitmap maxPrio = true) :
    findFirstBit bitmap ≤ 140 ∧ bitmap (findFirstBit bitmap) = true ∧
      ∀ i : ℕ, i < findFirstBit bitmap → bitmap i = false := by
  cases hf : (List.range 160).find? fun i : ℕ => bitmap i with
  | none =>
    have h140 := List.find?_eq_none.mp hf 140 (by simp)
    exact absurd h (by simpa [maxPrio] using h140)
  | some n =>
    obtain ⟨hn, hmem, hlt⟩ := List.find?_range_eq_some.mp hf
    have he : findFirstBit bitmap = n := by simp [findFirstBit, hf]
    rw [he]
    refine ⟨?_, by simpa using hn, fun i hi => by simpa using hlt i hi⟩
    by_contra hgt
    have h140 := hlt 140 (by omega)
    simp [maxPrio] at h h140
    rw [h] at h140
    cases h140

/-- The running task goes to another place in its array, at most with another priority. -/
theorem ok_place (h : rq.Ok) (hA : (rq.tasks p).array = some A) (ht : t.array = some A)
    (hb : rq.Belongs t A) (hv : t.Valid) (hidle : p = rq.idle → t.state = .running) {l : List ℕ}
    (hl : l.Perm (p :: remove (rq.arrays A).queue p t.queuePrio)) {m : ℤ → Bool}
    (hbits : ∀ k ∈ slots, m k = true ↔
      Function.update (remove (rq.arrays A).queue p) t.queuePrio l k ≠ [])
    (hdel : m maxPrio = true) :
    ((rq.setTask p t).setArray A { rq.arrays A with
      queue := Function.update (remove (rq.arrays A).queue p) t.queuePrio l, bitmap := m }).Ok := by
  have hplace : rq.placed none A p = some (rq.tasks p).queuePrio := by simp [placed, hA]
  have hm := (h.arrays A).move hplace hv.queuePrio_mem hl hbits hdel
  have hd := h.dequeueTask hA
  rw [dequeueTask_eq h hA] at hd
  have hs := hd.setTask t hidle
  have he := hs.enter (A := A) (a := { rq.arrays A with
      queue := Function.update (remove (rq.arrays A).queue p) t.queuePrio l, bitmap := m })
    (hm.congr fun q => ?_) (by rwa [setTask_tasks_self]) (by rwa [setTask_tasks_self])
    (h.known p (by simp) (by simp [hA]))
  · have hself : { t with array := some A } = t := by rw [← ht]
    have hset : ∀ a, ((rq.setTask p t).setArray A a).setTask p t = (rq.setTask p t).setArray A a :=
      fun a => by simp [setTask, setArray]
    rw [setTask_tasks_self, hself, setArray_setTask_setArray, hset] at he
    rwa [show (0 : ℤ) + 1 - ((rq.arrays A).nrActive - _) = 0 by
      simp [setTask, PrioArray.dequeue]] at he
  · by_cases hq : q = p
    · subst hq
      simp
    · simp [hq, Ne.symm hq, placed, setTask, setArray]

theorem ok_placeSame (h : rq.Ok) (hA : (rq.tasks p).array = some A) {l : List ℕ}
    (hl : l.Perm (p :: remove (rq.arrays A).queue p (rq.tasks p).queuePrio)) :
    (rq.setArray A { rq.arrays A with
      queue := Function.update (remove (rq.arrays A).queue p) (rq.tasks p).queuePrio l }).Ok := by
  have hplace : rq.placed none A p = some (rq.tasks p).queuePrio := by simp [placed, hA]
  have hne : l ≠ [] := List.ne_nil_of_mem (hl.mem_iff.mpr List.mem_cons_self)
  have hrep := h.arrays A
  have hr := ok_place h hA hA (h.belongs p A (by simp) hA)
    (h.valid p (by simp) (Or.inr (by simp [hA]))) (fun hp => hp ▸ h.idleRunning) hl
    (m := (rq.arrays A).bitmap) (fun k hk => ?_) hrep.delimiter
  · rwa [show rq.setTask p (rq.tasks p) = rq by simp [setTask]] at hr
  · rw [hrep.bits k hk]
    by_cases hki : k = (rq.tasks p).queuePrio
    · subst hki
      have hq : (rq.arrays A).queue (rq.tasks p).queuePrio ≠ [] :=
        List.ne_nil_of_mem (hrep.queues.mem_iff.mpr hplace)
      simp [hq, hne]
    · rw [Function.update_of_ne hki, hrep.remove_of_ne hplace hki]

theorem listAddSecond_perm (p : ℕ) (l : List ℕ) : (listAddSecond p l).Perm (p :: l) := by
  cases l with
  | nil => exact List.Perm.refl _
  | cons q l => exact List.Perm.swap p q l

/-- The priority that a task alone in its queue yields to. -/
def yieldPrio (bitmap : ℤ → Bool) (prio : ℤ) : ℤ :=
  let first : ℤ := findFirstBit bitmap
  if first = maxPrio ∨ first ≤ prio then prio else first

theorem yieldPrio_mem {bitmap : ℤ → Bool} {prio : ℤ} (h : bitmap maxPrio = true)
    (hp : maxRtPrio ≤ prio ∧ prio < maxPrio) :
    maxRtPrio ≤ yieldPrio bitmap prio ∧ yieldPrio bitmap prio < maxPrio := by
  have hf := (findFirstBit_spec h).1
  simp only [yieldPrio, maxPrio, maxRtPrio] at *
  split_ifs <;> omega

theorem yieldCurrent_eq (rq : Runqueue) (A : Fin 3) :
    rq.yieldCurrent A =
      let t := rq.tasks rq.curr
      let r := rq.listDel rq.curr
      let a := r.arrays A
      if t.Rt then
        r.setArray A { a with queue := Function.update a.queue t.prio (a.queue t.prio ++ [rq.curr]) }
      else if t.policy = .short then
        r.setArray A { a with
          queue := Function.update a.queue t.shortPrio (a.queue t.shortPrio ++ [rq.curr]) }
      else if a.queue t.prio ≠ [] then
        r.setArray A { a with
          queue := Function.update a.queue t.prio (listAddSecond rq.curr (a.queue t.prio)) }
      else
        let i := yieldPrio (Function.update a.bitmap t.prio false) t.prio
        (r.setTask rq.curr { t with prio := i }).setArray A { a with
          queue := Function.update a.queue i (listAddSecond rq.curr (a.queue i))
          bitmap := Function.update (Function.update a.bitmap t.prio false) i true } := rfl

theorem ok_yieldCurrent (h : rq.Ok) (hA : (rq.tasks rq.curr).array = some A)
    (hi : rq.curr ≠ rq.idle) : (rq.yieldCurrent A).Ok := by
  have hdel : rq.listDel rq.curr =
      rq.setArray A { rq.arrays A with queue := remove (rq.arrays A).queue rq.curr } := by
    have hd := listDel_eq h hA (rq.arrays A)
    rwa [show rq.setArray A (rq.arrays A) = rq by simp [setArray]] at hd
  have hv := h.valid rq.curr (by simp) (Or.inr (by simp [hA]))
  have hplace : rq.placed none A rq.curr = some (rq.tasks rq.curr).queuePrio := by simp [placed, hA]
  have hrep := h.arrays A
  rw [yieldCurrent_eq]
  dsimp only
  rw [hdel]
  simp only [setArray_arrays_self, setArray_setArray, setArray_setTask_setArray]
  split_ifs with hrt hs hne
  · have hq : (rq.tasks rq.curr).queuePrio = (rq.tasks rq.curr).prio := if_neg hrt.1
    rw [← hq]
    exact ok_placeSame h hA (List.perm_append_singleton _ _)
  · have hq : (rq.tasks rq.curr).queuePrio = (rq.tasks rq.curr).shortPrio := if_pos hs
    rw [← hq]
    exact ok_placeSame h hA (List.perm_append_singleton _ _)
  · have hq : (rq.tasks rq.curr).queuePrio = (rq.tasks rq.curr).prio := if_neg hs
    rw [← hq]
    exact ok_placeSame h hA (listAddSecond_perm _ _)
  · have hq : (rq.tasks rq.curr).queuePrio = (rq.tasks rq.curr).prio := if_neg hs
    have ho := hv.policy_other hrt hs
    have hprio := hv.other ho
    have hdelim : Function.update (rq.arrays A).bitmap (rq.tasks rq.curr).prio false maxPrio = true := by
      rw [← hq, Function.update_of_ne (hrep.ne_maxPrio hplace)]
      exact hrep.delimiter
    set bitmap := Function.update (rq.arrays A).bitmap (rq.tasks rq.curr).prio false with hbit
    have hmem := yieldPrio_mem hdelim hprio
    set i := yieldPrio bitmap (rq.tasks rq.curr).prio
    have hvi : ({ rq.tasks rq.curr with prio := i } : Task).Valid :=
      Task.valid_other ho hv.staticPrio hmem
    have hqi : ({ rq.tasks rq.curr with prio := i } : Task).queuePrio = i := if_neg hs
    have hpl := ok_place (t := { rq.tasks rq.curr with prio := i }) (m := Function.update bitmap i true)
      h hA hA ⟨(h.belongs _ A (by simp) hA).1, fun hr => absurd hr (hvi.not_rt ho)⟩ hvi
      (fun hp => absurd hp hi) (listAddSecond_perm _ _) ?_ ?_
    · rw [hqi] at hpl
      exact hpl
    · intro k hk
      rw [hqi]
      by_cases hki : k = i
      · subst hki
        simpa using List.ne_nil_of_mem ((listAddSecond_perm _ _).mem_iff.mpr List.mem_cons_self)
      · rw [Function.update_of_ne hki, Function.update_of_ne hki]
        by_cases hkp : k = (rq.tasks rq.curr).prio
        · subst hkp
          simp [hbit, not_not.mp hne]
        · rw [hbit, Function.update_of_ne hkp, hrep.remove_of_ne hplace (hq ▸ hkp), hrep.bits k hk]
    · have him : maxPrio ≠ i := by
        intro he
        rw [← he] at hmem
        exact absurd hmem.2 (lt_irrefl _)
      rw [Function.update_of_ne him]
      exact hdelim

theorem ok_hash (h : rq.Ok) (hv : (rq.tasks p).Valid) (hp : p ≠ rq.idle) :
    Ok { rq with hashed := Function.update rq.hashed p true } := by
  refine ⟨h.arrays, h.distinct, h.running, h.belongs, fun q hx hq => ?_, fun q hx hq => ?_, ?_,
    h.idleRunning, fun hc => ⟨?_, (h.curr hc).2⟩⟩
  · by_cases hqp : q = p
    · exact hqp ▸ hv
    · exact h.valid q hx (by simpa [hqp] using hq)
  · rcases h.known q hx hq with hk | hk
    · by_cases hqp : q = p
      · exact Or.inl (by simp [hqp])
      · exact Or.inl (by simpa [hqp] using hk)
    · exact Or.inr hk
  · simpa [Ne.symm hp] using h.idleUnhashed
  · by_cases hcp : rq.curr = p
    · simp [hcp]
    · simpa [hcp] using (h.curr hc).1

theorem only_tickRt (rq : Runqueue) (p : ℕ) : Only p rq (rq.tickRt c p) := by
  rw [tickRt_eq]
  split_ifs
  · exact (Only.setTask _ p _).trans ((only_dequeueTask _ p _).trans (only_enqueueTask _ p _))
  · exact .setTask _ p _
  · exact .refl p rq

theorem only_tickShort (rq : Runqueue) (p : ℕ) : Only p rq (rq.tickShort c p) := by
  rw [tickShort_eq]
  dsimp only
  split_ifs
  · exact (Only.setTask _ p _).trans (only_requeue _ p _ _ _)
  · exact .setTask _ p _

theorem only_tickOther (rq : Runqueue) (p : ℕ) : Only p rq (rq.tickOther c jiffies p) := by
  rcases @tickOther_cases c jiffies rq p with heq | ⟨n, B, -, heq⟩
  · rw [heq]
    exact .setTask _ p _
  · rw [heq]
    exact ((Only.setTask rq p _).trans (only_requeue _ p _ _ B)).trans (.expiredTimestamp _ p n)

theorem only_schedulerTick (rq : Runqueue) : Only rq.curr rq (rq.schedulerTick c jiffies) := by
  unfold schedulerTick
  dsimp only
  split_ifs
  · exact .refl _ rq
  · exact .setTask _ _ _
  · exact only_tickRt rq _
  · exact only_tickShort rq _
  · exact only_tickOther rq _

/-- The runqueue of `do_fork` before it wakes the child. -/
def forked (c : Clock) (jiffies pid : ℕ) (rq : Runqueue) : Runqueue :=
  let current := rq.tasks rq.curr
  let rq := rq.setTask pid (current.childOf jiffies)
  let rq := rq.setTask rq.curr { current with timeSlice := current.timeSlice / 2 }
  if (rq.tasks rq.curr).timeSlice = 0 then
    (rq.setTask rq.curr { rq.tasks rq.curr with timeSlice := 1 }).schedulerTick c jiffies
  else rq

theorem doFork_eq (rq : Runqueue) {pid : ℕ} {vfork : Bool} (hs : (rq.tasks rq.curr).policy ≠ .short) :
    rq.doFork c jiffies (.ok pid) vfork =
      (if (rq.tasks rq.curr).timeSlice = 0 then none
      else
        let rq := forked c jiffies pid rq
        let rq := { rq with hashed := Function.update rq.hashed pid true }
        let rq := rq.wakeUpForkedProcess c jiffies pid
        some (pid, if vfork then rq else rq.reschedTask rq.curr) : Option (ℤ × Runqueue)) := by
  simp only [doFork, if_neg hs]
  rfl

theorem ok_forked (h : rq.Ok) {pid : ℕ} (hcurr : (rq.tasks rq.curr).array ≠ none)
    (hp : rq.hashed pid = false) (hi : pid ≠ rq.idle) :
    (forked c jiffies pid rq).Ok ∧ (forked c jiffies pid rq).hashed = rq.hashed ∧
      (forked c jiffies pid rq).idle = rq.idle ∧ (forked c jiffies pid rq).curr = rq.curr ∧
      (forked c jiffies pid rq).tasks pid = (rq.tasks rq.curr).childOf jiffies := by
  have hpa : (rq.tasks pid).array = none := by
    by_contra hn
    rcases h.known pid (by simp) hn with hk | hk
    · rw [hp] at hk
      cases hk
    · exact hi hk
  have hpc : rq.curr ≠ pid := by
    rintro rfl
    exact hcurr hpa
  have h₁ : (rq.setTask pid ((rq.tasks rq.curr).childOf jiffies)).Ok :=
    ok_setOff h hpa rfl (fun hk => by rw [hp] at hk; cases hk) fun he => absurd he hi
  have hc₁ := setTask_tasks_of_ne rq ((rq.tasks rq.curr).childOf jiffies) hpc
  have hset : ∀ n, ((rq.setTask pid ((rq.tasks rq.curr).childOf jiffies)).setTask rq.curr
      { rq.tasks rq.curr with timeSlice := n }).Ok := by
    intro n
    refine ok_setAlike h₁ ?_
    rw [hc₁]
    exact ⟨rfl, rfl, rfl, rfl, rfl, rfl⟩
  have hpid : ∀ t, ((rq.setTask pid ((rq.tasks rq.curr).childOf jiffies)).setTask rq.curr t).tasks pid =
      (rq.tasks rq.curr).childOf jiffies := by
    intro t
    rw [setTask_tasks_of_ne _ _ hpc.symm, setTask_tasks_self]
  unfold forked
  dsimp only
  split_ifs
  · set r := (rq.setTask pid ((rq.tasks rq.curr).childOf jiffies)).setTask rq.curr
      { rq.tasks rq.curr with timeSlice := (rq.tasks rq.curr).timeSlice / 2 } with hr
    have h₂ : (r.setTask r.curr { r.tasks r.curr with timeSlice := 1 }).Ok :=
      ok_setAlike (hset _) ⟨rfl, rfl, rfl, rfl, rfl, rfl⟩
    have ho := @only_schedulerTick c jiffies (r.setTask r.curr { r.tasks r.curr with timeSlice := 1 })
    refine ⟨ok_schedulerTick h₂, ho.hashed, ho.idle, ho.curr, (ho.tasks pid hpc.symm).trans ?_⟩
    rw [setTask_tasks_of_ne _ _ (show pid ≠ r.curr from hpc.symm)]
    exact hpid _
  · exact ⟨hset _, rfl, rfl, rfl, hpid _⟩

theorem ok_doFork (h : rq.Ok) {newPid : Except ForkRefusal ℕ} {vfork : Bool} {r : ℤ} {rq' : Runqueue}
    (hcurr : (rq.tasks rq.curr).array ≠ none)
    (hp : ∀ p ∈ newPid.toOption, rq.hashed p = false ∧ p ≠ rq.idle)
    (hf : rq.doFork c jiffies newPid vfork = some (r, rq')) : rq'.Ok := by
  by_cases hs : (rq.tasks rq.curr).policy = .short
  · simp only [doFork, if_pos hs, Option.some.injEq, Prod.mk.injEq] at hf
    exact hf.2 ▸ h
  · cases newPid with
    | error e =>
      simp only [doFork, if_neg hs, Option.some.injEq, Prod.mk.injEq] at hf
      exact hf.2 ▸ h
    | ok pid =>
      obtain ⟨hu, hi⟩ := hp pid rfl
      rw [doFork_eq rq hs] at hf
      by_cases hz : (rq.tasks rq.curr).timeSlice = 0
      · simp [hz] at hf
      rw [if_neg hz] at hf
      obtain ⟨ho, hh, hidle, hcu, ht⟩ := @ok_forked rq c jiffies h pid hcurr hu hi
      have hv := h.valid rq.curr (by simp) (Or.inr hcurr)
      have hh₁ := ok_hash (p := pid) ho (by
        rw [ht]
        exact ⟨hv.staticPrio, hv.other, hv.rt, hv.short⟩) (hidle ▸ hi)
      have hw := @ok_wakeUpForkedProcess _ pid c jiffies hh₁ (by simp)
        (congrArg Task.array ht)
      obtain ⟨-, rfl⟩ := Prod.mk.inj (Option.some.inj hf)
      split_ifs
      · exact hw
      · exact ok_reschedTask hw _

theorem initIdle_eq (hc : rq.curr = rq.idle) (A : Fin 3) :
    rq.initIdle A = ((rq.deactivateTask rq.curr A).setTask rq.curr
      { (rq.deactivateTask rq.curr A).tasks rq.curr with
        array := none, prio := maxPrio, state := .running }).reschedTask rq.curr := by
  have hrq : ({ rq with idle := rq.curr } : Runqueue) = rq :=
    congrArg (fun i => ({ rq with idle := i } : Runqueue)) hc
  unfold initIdle
  dsimp only
  rw [hrq]

theorem ok_initIdle (h : rq.Ok) (hc : rq.curr = rq.idle) (hA : (rq.tasks rq.curr).array = some A) :
    (rq.initIdle A).Ok := by
  have hd := h.deactivateTask hA
  have ho := only_deactivateTask rq rq.curr A
  have hs := hd.setTask { (rq.deactivateTask rq.curr A).tasks rq.curr with
    array := none, prio := maxPrio, state := .running } fun _ => rfl
  rw [initIdle_eq hc]
  refine ok_reschedTask (hs.settle (by simp) (fun hh => ?_) fun _ => ?_) _
  · have hu : rq.hashed rq.curr = true := (congrFun ho.hashed _).symm.trans hh
    rw [hc, h.idleUnhashed] at hu
    cases hu
  · exact hc.trans ho.idle.symm

theorem represents_empty : emptyArray.Represents fun _ => none := by
  refine ⟨Holds.empty, fun i hi => ?_, by simp [emptyArray], by simp [emptyArray, total], (by simp)⟩
  have hne : i ≠ maxPrio := fun he => maxPrio_not_mem (he ▸ hi)
  simp [emptyArray, hne]

theorem initTask_valid : (Task.initTask c).Valid :=
  Task.valid_other rfl (by simp [Task.initTask, maxRtPrio, maxPrio])
    (by simp [Task.initTask, maxRtPrio, maxPrio])

theorem ok_emptyRunqueue : (emptyRunqueue c).Ok where
  arrays _ := represents_empty.congr fun _ => placed_none rfl
  distinct := ⟨by simp [emptyRunqueue], by simp [emptyRunqueue], by simp [emptyRunqueue]⟩
  running := by simp [emptyRunqueue, emptyArray]
  belongs p A _ hA := by cases (hA : none = some A)
  valid _ _ _ := initTask_valid
  known _ _ hA := absurd rfl hA
  idleUnhashed := rfl
  idleRunning := rfl
  curr hc := absurd rfl hc

theorem ok_schedInit : (schedInit c jiffies).Ok :=
  ok_tryToWakeUp ok_emptyRunqueue initTask_valid (Or.inr rfl)

end Runqueue

end OperationSystems.Sched
