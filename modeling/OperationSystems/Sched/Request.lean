import OperationSystems.Sched.Calls

/-!
# What `setscheduler` grants

The checks of `setscheduler` stand in a chain in which the requested policy is
replaced on the way, and a task that is queued is taken out and put back around
the change. Taken together, the checks ask for one condition, and a call that
fails one of them changes nothing.
-/

namespace OperationSystems.Sched

namespace Task
variable {current t : Task} {policy : ℤ} {policy' : Policy} {lp : SchedParam}

/-- The caller may give the task the policy `policy'` with the parameters `lp`. -/
structure Granted (current t : Task) (policy' : Policy) (lp : SchedParam) : Prop where
  notShort : t.policy ≠ .short
  short : policy' = .short → t.policy = .other ∧ (1 ≤ lp.requestedTime ∧ lp.requestedTime ≤ 3000) ∧
    0 ≤ lp.schedShortPrio ∧ lp.schedShortPrio ≤ 139
  priority : policy' ≠ .short → (0 ≤ lp.schedPriority ∧ lp.schedPriority ≤ 99) ∧
    (lp.schedPriority = 0 ↔ policy' = .other)
  rt : policy' = .fifo ∨ policy' = .rr → current.capSysNice = true
  owner : current.euid = t.euid ∨ current.euid = t.uid ∨ current.capSysNice = true

theorem checkScheduler_iff : checkScheduler current t policy lp = .ok policy' ↔
    t.requestedPolicy policy = some policy' ∧ Granted current t policy' lp := by
  constructor
  · intro h
    obtain ⟨hs, -, hshort, hprio⟩ := checkScheduler_ok h
    obtain ⟨hreq, -, -, -, -, hrt, hown⟩ := checkScheduler_passed.mp h
    refine ⟨hreq, hs, fun hp => ?_, fun hp => ?_, fun hp => ?_, ?_⟩
    · exact ⟨(hshort hp).1, not_bad_iff.mp (hshort hp).2⟩
    · obtain ⟨hr, hz⟩ := hprio hp
      exact ⟨⟨hr.1, hr.2⟩, hz.symm⟩
    · by_contra hcap
      exact hrt ⟨hp, by simpa using hcap⟩
    · by_contra hno
      obtain ⟨he, hno⟩ := not_or.mp hno
      obtain ⟨hu, hcap⟩ := not_or.mp hno
      exact hown ⟨he, hu, by simpa using hcap⟩
  · rintro ⟨hreq, hg⟩
    have hsh := requestedPolicy_short hg.notShort hreq
    refine checkScheduler_passed.mpr ⟨hreq, fun hb => ?_, ?_, ?_, fun hz => ?_, ?_, ?_⟩
    · exact not_bad_iff.mpr (hg.short (hsh.mpr hb.1)).2 hb.2
    · rintro (hs | ⟨ho, hs⟩)
      · exact hg.notShort hs
      · exact ho (hg.short (hsh.mpr hs)).1
    · rintro ⟨hp, hr⟩
      have hle := (hg.priority hp).1
      simp only [maxUserRtPrio] at hr
      omega
    · exact hz.2 (hg.priority hz.1).2.symm
    · rintro ⟨hp, hcap⟩
      simp [hg.rt hp] at hcap
    · rintro ⟨he, hu, hcap⟩
      rcases hg.owner with h | h | h
      · exact he h
      · exact hu h
      · simp [h] at hcap

end Task

namespace Runqueue

/-- A call for a readable triple succeeds exactly when it is granted, and a call that fails, for
whatever reason, leaves the runqueue and all tasks as they are. -/
theorem setscheduler_exact (c : Clock) (jiffies : ℕ) (rq : Runqueue) (pid policy : ℤ) :
    (∀ lp, (rq.setscheduler c jiffies pid policy (.readable lp)).1 = 0 ↔
      0 ≤ pid ∧ ∃ p policy', rq.findProcessByPid pid = some p ∧
        (rq.tasks p).requestedPolicy policy = some policy' ∧
        Task.Granted (rq.tasks rq.curr) (rq.tasks p) policy' lp) ∧
    ∀ param, (rq.setscheduler c jiffies pid policy param).1 ≠ 0 →
      (rq.setscheduler c jiffies pid policy param).2 = rq := by
  have hfails : ∀ param, (∀ lp p policy', param = .readable lp → ¬ pid < 0 →
      rq.findProcessByPid pid = some p →
      Task.checkScheduler (rq.tasks rq.curr) (rq.tasks p) policy lp ≠ .ok policy') →
      (rq.setscheduler c jiffies pid policy param).1 ≠ 0 ∧
        (rq.setscheduler c jiffies pid policy param).2 = rq := by
    intro param hno
    obtain ⟨r, hr, hset⟩ := @setscheduler_fails rq c jiffies pid policy param hno
    rw [hset]
    exact ⟨hr, rfl⟩
  refine ⟨fun lp => ⟨fun h => ?_, ?_⟩, fun param h => ?_⟩
  · by_contra hno
    refine (hfails (.readable lp) fun lp' p policy' hlp hpid hp hc => hno ?_).1 h
    obtain rfl := UserParam.readable.inj hlp
    exact ⟨not_lt.mp hpid, p, policy', hp, Task.checkScheduler_iff.mp hc⟩
  · rintro ⟨hpid, p, policy', hp, hg⟩
    rw [setscheduler_ok (not_lt.mpr hpid) hp (Task.checkScheduler_iff.mpr hg)]
  · refine (hfails param fun lp p policy' hlp hpid hp hc => h ?_).2
    rw [hlp, setscheduler_ok hpid hp hc]

end Runqueue

end OperationSystems.Sched
