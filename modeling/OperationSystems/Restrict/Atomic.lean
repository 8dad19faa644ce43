import OperationSystems.Restrict.Ownership

/-!
# Failed calls of `sys_sc_restrict`

A call that fails leaves the kernel as it was, provided that a failed `kmalloc`
of the list finds no list to lose, and that no log fails to be allocated. In
runs of such calls `syscall_check` and `sys_get_process_log` never dereference
`NULL` or a freed buffer. A failed `kmalloc` of any other kind loses the list of
the task.
-/

namespace OperationSystems.Restrict
open Transition

/-- What a live task needs so that nothing dereferences `NULL` for it. -/
structure Task.Sized (t : Task) : Prop where
  restrictionsList : t.restrictionsList = none → t.restrictionsListSize ≤ 0
  logList : t.logList = none → t.logListSize = 0

namespace Kernel
variable {k k' : Kernel} {curr t : ℕ} {pid level listSize r : ℤ} {user : ℕ → SysCallRestriction}
  {ok okLog : Bool}

/-- No failed `kmalloc` of a call for `curr` takes something away. -/
def AllocSafe (k : Kernel) (curr : ℕ) (ok okLog : Bool) : Prop :=
  (ok = false → (k.tasks curr).restrictionsList = none) ∧ k.LogAllocated curr ok okLog

def KmallocSafe (k : Kernel) : Event → Prop
  | .scRestrict pid level _ listSize ok okLog =>
    ∀ curr ∈ k.restrictTarget pid level listSize, k.AllocSafe curr ok okLog
  | _ => True

instance (k : Kernel) (curr : ℕ) (ok okLog : Bool) : Decidable (k.AllocSafe curr ok okLog) :=
  inferInstanceAs (Decidable (_ ∧ _))

instance (k : Kernel) (e : Event) : Decidable (k.KmallocSafe e) :=
  match e with
  | .scRestrict pid level _ listSize ok okLog => inferInstanceAs (Decidable
      (∀ curr ∈ k.restrictTarget pid level listSize, k.AllocSafe curr ok okLog))
  | .setProcRestriction .. | .syscall .. | .getProcessLog .. | .fork .. | .release .. =>
    .isTrue trivial

theorem KmallocSafe.logKmallocOk {e : Event} (h : k.KmallocSafe e) : k.LogKmallocOk e := by
  cases e with
  | scRestrict => exact fun curr hc => (h curr hc).2
  | setProcRestriction | syscall | getProcessLog | fork | release => trivial

theorem setTask_self (k : Kernel) (t : ℕ) : k.setTask t (k.tasks t) = k := by
  simp [setTask]

theorem replaceList_keeps (h : k.AllocSafe curr ok okLog)
    (hr : (k.replaceList curr level user listSize ok okLog).1 ≠ 0) :
    (k.replaceList curr level user listSize ok okLog).2 = k := by
  cases ok with
  | false =>
    have hl := h.1 rfl
    have hv : { k.tasks curr with restrictionsList := none } = k.tasks curr := by rw [← hl]
    rw [replaceList_noList, dropList, hl, hv]
    exact setTask_self k curr
  | true =>
    rw [replaceList_list, if_neg (allocLog_ne_none h.2)] at hr
    exact absurd rfl hr

theorem replaceList_loses (ho : k.Owned) (ha : k.Alive curr) (h : ¬ k.AllocSafe curr ok okLog) :
    ((k.replaceList curr level user listSize ok okLog).2.tasks curr).restrictionsList ≠
      (k.tasks curr).restrictionsList := by
  by_cases hlog : k.LogAllocated curr ok okLog
  · have hl : ok = false ∧ (k.tasks curr).restrictionsList ≠ none := by
      simpa [AllocSafe, hlog] using h
    obtain ⟨rfl, hl⟩ := hl
    rw [replaceList_noList, tasks_setTask_self]
    exact Ne.symm hl
  · rw [(replaceList_dangling ha hlog).2.1]
    intro hk
    exact absurd (ho.holds.held (curr, .restrictionsList) _ ⟨ha, hk.symm⟩).1 (lt_irrefl _)

theorem sysScRestrict_keeps (h : k.KmallocSafe (.scRestrict pid level user listSize ok okLog))
    (hr : (k.sysScRestrict pid level user listSize ok okLog).1 ≠ 0) :
    (k.sysScRestrict pid level user listSize ok okLog).2 = k := by
  cases hc : k.restrictTarget pid level listSize with
  | none =>
    obtain ⟨e, -, heq⟩ := sysScRestrict_none hc
    rw [heq]
  | some curr =>
    rw [sysScRestrict_some hc] at hr ⊢
    exact replaceList_keeps (h curr hc) hr

theorem sysScRestrict_loses (ho : k.Owned)
    (h : ¬ k.KmallocSafe (.scRestrict pid level user listSize ok okLog)) :
    (k.sysScRestrict pid level user listSize ok okLog).2.tasks ≠ k.tasks := by
  simp only [KmallocSafe, not_forall] at h
  obtain ⟨curr, hc, h⟩ := h
  rw [sysScRestrict_some hc]
  intro hk
  exact replaceList_loses ho (alive_restrictTarget ho hc) h (congrArg _ (congrFun hk curr))

structure Sound (k : Kernel) : Prop where
  owned : k.Owned
  sized : ∀ t, k.Alive t → Task.Sized (k.tasks t)

theorem Sound.usable (hs : k.Sound) (ha : k.Alive curr) : k.Usable curr := by
  refine ⟨fun s b hb => ?_, (hs.sized curr ha).restrictionsList⟩
  exact (hs.owned.holds.held (curr, s) b ⟨ha, hb⟩).2.2

theorem sized_setTask {v : Task} {k₁ : Kernel} (hs : k.Sound) (h₁ : SameTasks k k₁)
    (hv : v.pid = (k.tasks curr).pid) (hn : v.Sized) (ha : (k₁.setTask curr v).Alive t) :
    Task.Sized ((k₁.setTask curr v).tasks t) := by
  by_cases ht : t = curr
  · subst ht
    simpa using hn
  · have ha : k.Alive t := by simpa [Alive, setTask, ht, h₁.tasks, h₁.pidHash] using ha
    simpa [setTask, ht, h₁.tasks] using hs.sized t ha

theorem sized_replaceList (hs : k.Sound) (h : k.AllocSafe curr ok okLog)
    (ha : (k.replaceList curr level user listSize ok okLog).2.Alive t) :
    Task.Sized ((k.replaceList curr level user listSize ok okLog).2.tasks t) := by
  by_cases hr : (k.replaceList curr level user listSize ok okLog).1 = 0
  · cases ok with
    | false => simp [replaceList_noList, enomem] at hr
    | true =>
      have hlog := @allocLog_ne_none _ _ listSize _ h.2
      have hlist : (k.allocList curr listSize true).1 ≠ none := by simp [allocList, kmalloc]
      rw [replaceList_list, if_neg hlog] at ha ⊢
      refine sized_setTask hs ?_ rfl ⟨fun hn => absurd hn hlist, fun hn => absurd hn hlog⟩ ha
      exact (sameTasks_allocLog k curr listSize okLog).trans (sameTasks_copyFromUser _ _ _ _)
  · rw [replaceList_keeps h hr] at ha ⊢
    exact hs.sized t ha

theorem sized_sysSetProcRestriction (hs : k.Sound)
    (ha : (k.sysSetProcRestriction pid level).2.Alive t) :
    Task.Sized ((k.sysSetProcRestriction pid level).2.tasks t) := by
  unfold sysSetProcRestriction at ha ⊢
  cases hcurr : k.findTaskByPid pid with
  | none =>
    simp only [hcurr, ite_self] at ha ⊢
    exact hs.sized t ha
  | some curr =>
    simp only [hcurr] at ha ⊢
    split_ifs at ha ⊢ with hpid hlevel
    · exact hs.sized t ha
    · exact hs.sized t ha
    · have hcurr' : k.Alive curr := by
        rw [Alive, (hs.owned.hashed _ _ hcurr).1]
        exact hcurr
      have hn := hs.sized curr hcurr'
      exact sized_setTask hs ⟨rfl, rfl, rfl⟩ rfl ⟨hn.restrictionsList, hn.logList⟩ ha

theorem sized_syscallCheck {num jiffies : ℤ} (hs : k.Sound) (hc : k.Alive curr)
    (h : k.syscallCheck num curr jiffies = .ok (r, k')) (ha : k'.Alive t) :
    Task.Sized (k'.tasks t) := by
  rcases syscallCheck_ok h with hp | ⟨-, c, v, -, hlog, -, rfl⟩
  · rw [hp.same] at ha ⊢
    exact hs.sized t ha
  · have hn : ∀ {p : Prop}, (k.tasks curr).logList = none → p := by simp [hlog]
    exact sized_setTask hs ⟨rfl, rfl, rfl⟩ rfl ⟨(hs.sized curr hc).restrictionsList, hn⟩ ha

theorem sound_step {e : Event} (hs : k.Sound) (he : k.KmallocSafe e) (h : k.Step e k') :
    k'.Sound := by
  refine ⟨owned_step hs.owned he.logKmallocOk h, fun t ha => ?_⟩
  cases h.move with
  | scRestrict pid level user listSize ok okLog hk =>
    cases hc : k.restrictTarget pid level listSize with
    | none =>
      obtain ⟨_, -, heq⟩ := sysScRestrict_none hc
      rw [hk, heq] at ha ⊢
      exact hs.sized t ha
    | some curr =>
      rw [hk, sysScRestrict_some hc] at ha ⊢
      exact sized_replaceList hs (he curr hc) ha
  | setProcRestriction pid level hk =>
    rw [hk] at ha ⊢
    exact sized_sysSetProcRestriction hs ha
  | syscall num curr jiffies r hc hk => exact sized_syscallCheck hs hc hk ha
  | getProcessLog pid size ok hk =>
    rw [hk] at ha ⊢
    exact hs.sized t ha
  | fork current newPid hc hfree hk =>
    rw [hk] at ha ⊢
    rcases alive_doFork hs.owned ha with ⟨-, ht, hsame⟩ | ⟨-, -, h1, -, h2⟩
    · rw [hsame]
      exact hs.sized t ht
    · exact ⟨fun _ => Int.le_of_eq h1, fun _ => h2⟩
  | release t' hc hk =>
    rw [hk] at ha ⊢
    obtain ⟨ht, hsame⟩ := alive_releaseTask hs.owned ha
    rw [hsame]
    exact hs.sized t ht

theorem Boot.sound (h : k.Boot) : k.Sound := by
  refine ⟨h.owned, fun t ha => ⟨fun _ => ?_, fun _ => h.logListSize t ha⟩⟩
  exact Int.le_of_eq (h.restrictionsListSize t ha)

theorem sound_run {k₀ : Kernel} {es : List Event} (hB : k₀.Boot)
    (h : Run (fun k e k' => k.KmallocSafe e ∧ k.Step e k') k₀ es k) : k.Sound :=
  h.invariant (P := Sound) hB.sound fun _ _ _ hs he => sound_step hs he.1 he.2

section Log
variable {c : ℕ} {f : Fault}

theorem logEntry_error {i : ℤ} (hc : (k.buffers c).frees = 0)
    (h : k.logEntry (some c) i = .error f) : f = .outOfBounds i := by
  simp only [logEntry, deref_some hc, bind, Except.bind, pure, Except.pure] at h
  split_ifs at h
  exact (Except.error.inj h).symm

theorem copyLoop_error {goOn : ℤ → Bool} {fuel : ℕ} {l : LogCopy} (hc : (k.buffers c).frees = 0)
    (h : k.copyLoop (some c) goOn fuel l = .error f) : ∃ j, f = .outOfBounds j := by
  induction fuel generalizing l with
  | zero => simp [copyLoop] at h
  | succ fuel ih =>
    simp only [copyLoop, bind, Except.bind] at h
    split_ifs at h
    split at h
    · rename_i he
      obtain rfl := Except.error.inj h
      exact ⟨_, logEntry_error hc he⟩
    · exact ih h

theorem bind_error {α β : Type} {x : Result α} {g : α → Result β} (h : x >>= g = .error f) :
    x = .error f ∨ ∃ a, x = .ok a ∧ g a = .error f := by
  cases x with
  | error e => exact Or.inl (congrArg Except.error (Except.error.inj h))
  | ok a => exact Or.inr ⟨a, rfl, h⟩

theorem sysGetProcessLog_error {size : ℤ} (hs : k.Sound)
    (h : k.sysGetProcessLog pid size ok = .error f) : ∃ j, f = .outOfBounds j := by
  unfold sysGetProcessLog at h
  by_cases hpid : pid < 0
  · simp [hpid] at h
  cases hcurr : k.findTaskByPid pid with
  | none => simp [hcurr] at h
  | some curr =>
    have ha : k.Alive curr := by
      rw [Alive, (hs.owned.hashed _ _ hcurr).1]
      exact hcurr
    by_cases hsize : size > (k.tasks curr).logListSize ∨ size < 0
    · simp [hcurr, hsize, if_neg hpid] at h
    by_cases hok : ok = false
    · simp [hcurr, hsize, if_neg hpid, hok] at h
    simp only [hcurr, if_neg hpid, if_neg hsize, if_neg hok] at h
    cases hlog : (k.tasks curr).logList with
    | none =>
      -- without a log its size is 0, and neither loop is entered
      have h0 := (hs.sized curr ha).logList hlog
      have hz : size = 0 := by omega
      subst hz
      simp [h0, copyLoop, bind, Except.bind, pure, Except.pure] at h
    | some c =>
      have hc := (hs.usable ha).unfreed .logList c hlog
      rw [hlog] at h
      rcases bind_error h with he | ⟨l, -, h⟩
      · exact copyLoop_error hc he
      split_ifs at h with hcount
      · rcases bind_error h with he | ⟨l', -, h⟩
        · exact copyLoop_error hc he
        · cases h
      · cases h

end Log

/-- In runs whose failed calls take nothing away, a further failed call does so if and only
if its `kmalloc` fails on a list or on a log, and nothing dereferences `NULL` or a freed
buffer. -/
theorem restrict_atomic {k₀ : Kernel} {es : List Event} (hB : k₀.Boot)
    (h : Run (fun k e k' => k.KmallocSafe e ∧ k.Step e k') k₀ es k) :
    (∀ pid level user listSize ok okLog r k',
      k.sysScRestrict pid level user listSize ok okLog = (r, k') → r ≠ 0 →
        (k.KmallocSafe (.scRestrict pid level user listSize ok okLog) → k' = k) ∧
        (¬ k.KmallocSafe (.scRestrict pid level user listSize ok okLog) → k'.tasks ≠ k.tasks)) ∧
    (∀ t num jiffies f, k.Alive t → k.syscallCheck num t jiffies = .error f →
      ∃ j, f = .outOfBounds j) ∧
    ∀ pid size ok f, k.sysGetProcessLog pid size ok = .error f → ∃ j, f = .outOfBounds j := by
  have hs := sound_run hB h
  refine ⟨?_, fun t num jiffies f ha => syscallCheck_error (hs.usable ha),
    fun pid size ok f => sysGetProcessLog_error hs⟩
  intro pid level user listSize ok okLog r k' he hr
  obtain ⟨rfl, rfl⟩ := Prod.mk.inj he
  exact ⟨fun hk => sysScRestrict_keeps hk hr, sysScRestrict_loses hs.owned⟩

section Sample

def sampleRestricts : List Event :=
  [.scRestrict 1 1 sampleList 1 false true, .scRestrict 1 1 sampleList 3 true true,
    .fork 0 (some 2), .scRestrict 2 3 sampleList 2 true true, .syscall 21 0 7,
    .getProcessLog 1 1 true]

theorem restrict_atomic_sample : ∃ k,
    Run (fun k e k' => k.KmallocSafe e ∧ k.Step e k') sampleBoot sampleRestricts k ∧
      k.Alive 1 ∧
      ∀ num jiffies f, k.syscallCheck num 1 jiffies = .error f → ∃ j, f = .outOfBounds j := by
  have hexec : (Run.exec (nextIf KmallocSafe) sampleBoot sampleRestricts).map
      (fun k => decide (k.Alive 1)) = some true := by decide
  obtain ⟨k, hk, ha⟩ := Option.map_eq_some_iff.mp hexec
  have hrun := Run.of_exec (fun _ _ _ => step_of_nextIf) hk
  have ha : k.Alive 1 := of_decide_eq_true ha
  exact ⟨k, hrun, ha,
    fun num jiffies f => (restrict_atomic sampleBoot_boot hrun).2.1 1 num jiffies f ha⟩

def sampleInstalled : Kernel := (sampleBoot.sysScRestrict 1 1 sampleList 1 true true).2

/-- A failed call drops the list, and the next system call of the task dereferences `NULL`. -/
theorem restrict_not_atomic : sampleBoot.Boot ∧
    Run Step sampleBoot [.scRestrict 1 1 sampleList 1 true true] sampleInstalled ∧
    ∃ k', sampleInstalled.sysScRestrict 1 1 sampleList 5 false true = (-enomem, k') ∧
      k'.tasks ≠ sampleInstalled.tasks ∧
      (sampleInstalled.syscallCheck 20 0 0).map Prod.fst = .ok (-1) ∧
      k'.syscallCheck 20 0 0 = .error .nullPointer := by
  refine ⟨sampleBoot_boot, Run.single ⟨0, rfl⟩, _, Prod.ext rfl rfl, ?_, rfl, rfl⟩
  intro h
  exact absurd (congrArg (fun ts => (ts 0).restrictionsList) h) (by decide)

end Sample

end Kernel

end OperationSystems.Restrict
