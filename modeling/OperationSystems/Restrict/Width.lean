import OperationSystems.Restrict.Govern

/-!
# Sizes and counts in 32 bits

The list that `sys_sc_restrict` installs is the caller's as long as its size in
bytes fits into a `size_t`. The slot of the next log entry is in the ring as
long as no forbidden call is counted by the largest `int`.
-/

namespace OperationSystems.Restrict
open Transition

namespace Kernel
variable {k k' : Kernel} {curr t : ℕ} {pid level listSize num jiffies r : ℤ}
  {user : ℕ → SysCallRestriction} {ok okLog : Bool} {v : Task} {e : Event} {es : List Event}

section Install

/-- The list of a task is the one of the caller, and every entry that `syscall_check` reads is in
its buffer. -/
structure Installs (k : Kernel) (t : ℕ) (user : ℕ → SysCallRestriction) (listSize : ℤ) : Prop where
  size : (k.tasks t).restrictionsListSize = listSize
  room : ∃ b, (k.tasks t).restrictionsList = some b ∧
    listSize.toNat * sizeofScr ≤ (k.buffers b).bytes ∧
    ∀ i < listSize.toNat, (k.buffers b).restrictions i = user i
  reads : ∀ i < (k.tasks t).restrictionsListSize.toNat,
    k.restriction (k.tasks t).restrictionsList i = .ok (user i)

/-- The log is allocated behind the list. -/
theorem allocLog_buffer (k : Kernel) (curr : ℕ) (listSize : ℤ) (okLog : Bool) :
    (k.allocLog curr listSize okLog).2.buffers k.nextBuffer =
      (k.allocList curr listSize true).2.buffers k.nextBuffer := by
  have hlt : k.nextBuffer < (k.allocList curr listSize true).2.nextBuffer := by
    simp [allocList, dropList, kmalloc, nextBuffer_kfree]
  simp only [allocLog]
  split_ifs
  · cases okLog with
    | false => rfl
    | true => exact Function.update_of_ne hlt.ne _ _
  · rfl

theorem allocList_buffer (k : Kernel) (curr : ℕ) (listSize : ℤ) :
    let b := (k.allocList curr listSize true).2.buffers k.nextBuffer
    listBytes listSize ≤ b.bytes ∧ b.bytes < 2 ^ 32 ∧ b.frees = 0 := by
  have hnext : (k.dropList curr).nextBuffer = k.nextBuffer := nextBuffer_kfree k _
  have hlt : listBytes listSize < 2 ^ 32 := Nat.mod_lt _ (by decide)
  simp only [allocList, kmalloc, setBuffer, hnext, if_true, Function.update_self]
  exact ⟨le_max_left _ _, max_lt hlt (Nat.mod_lt _ (by decide)), trivial⟩

/-- What a call that returns 0 leaves behind. -/
theorem replaceList_installed (hr : (k.replaceList curr level user listSize ok okLog).1 = 0) :
    let k' := (k.replaceList curr level user listSize ok okLog).2
    (k'.tasks curr).restrictionsListSize = listSize ∧
      (k'.tasks curr).restrictionsList = some k.nextBuffer ∧
      listBytes listSize ≤ (k'.buffers k.nextBuffer).bytes ∧ (k'.buffers k.nextBuffer).bytes < 2 ^ 32 ∧
      (k'.buffers k.nextBuffer).frees = 0 ∧
      ∀ i, (i + 1) * sizeofScr ≤ listBytes listSize → (k'.buffers k.nextBuffer).restrictions i = user i := by
  intro k'
  cases ok with
  | false => simp [replaceList_noList, enomem] at hr
  | true =>
    by_cases hlog : (k.allocLog curr listSize okLog).1 = none
    · rw [replaceList_list, if_pos hlog] at hr
      simp [enomem] at hr
    · obtain ⟨hbytes, hlt, hfrees⟩ := allocList_buffer k curr listSize
      have hk : k' = (k.replaceList curr level user listSize true okLog).2 := rfl
      rw [replaceList_list, if_neg hlog, allocList_some] at hk
      rw [hk]
      refine ⟨by simp, by simp, ?_, ?_, ?_, fun i hi => ?_⟩
      · simp [copyFromUser, setBuffer, setTask, allocLog_buffer, hbytes]
      · simpa [copyFromUser, setBuffer, setTask, allocLog_buffer] using hlt
      · simp [copyFromUser, setBuffer, setTask, allocLog_buffer, hfrees]
      · simp [copyFromUser, setBuffer, setTask, hi]

/-- A list that was installed without an error is the caller's if and only if its size in bytes
does not wrap. -/
theorem restrict_installs (hr : (k.sysScRestrict pid level user listSize ok okLog).1 = 0) :
    ∃ t, k.findTaskByPid pid = some t ∧
      ((k.sysScRestrict pid level user listSize ok okLog).2.Installs t user listSize ↔
        listSize < 2 ^ 29) := by
  cases hc : k.restrictTarget pid level listSize with
  | none =>
    obtain ⟨e, he, heq⟩ := @sysScRestrict_none k pid level listSize user ok okLog hc
    rw [heq] at hr
    exact absurd hr he
  | some t =>
    obtain ⟨h0, ht⟩ : 0 ≤ listSize ∧ k.findTaskByPid pid = some t := by
      simp only [restrictTarget] at hc
      split_ifs at hc with hbad
      exact ⟨by omega, hc⟩
    rw [sysScRestrict_some hc] at hr ⊢
    obtain ⟨hsize, hlist, hbytes, hlow, hfrees, hcopy⟩ := replaceList_installed hr
    refine ⟨t, ht, fun hin => ?_, fun hlt => ?_⟩
    · obtain ⟨b, hb, hroom, -⟩ := hin.room
      obtain rfl := Option.some.inj (hlist.symm.trans hb)
      simp only [sizeofScr] at hroom
      omega
    · have hfull : listBytes listSize = listSize.toNat * sizeofScr :=
        Nat.mod_eq_of_lt (by simp only [sizeofScr]; omega)
      have hin : ∀ i < listSize.toNat, (i + 1) * sizeofScr ≤ listBytes listSize := fun i hi =>
        hfull.symm ▸ Nat.mul_le_mul_right _ hi
      refine ⟨hsize, ⟨_, hlist, hfull.symm.trans_le hbytes, fun i hi => hcopy i (hin i hi)⟩, fun i hi => ?_⟩
      rw [hsize] at hi
      have hread := (hin i hi).trans hbytes
      simp only [restriction, hlist, deref_some hfrees, bind, Except.bind, if_pos hread, pure,
        Except.pure, hcopy i (hin i hi)]

theorem restrict_installs_sample :
    (sampleBoot.sysScRestrict 1 1 sampleList 3 true true).2.Installs 0 sampleList 3 := by
  obtain ⟨t, ht, hin⟩ := @restrict_installs sampleBoot 1 1 3 sampleList true true rfl
  obtain rfl : 0 = t := Option.some.inj ht
  exact hin.mpr (by decide)

/-- The bytes of 2 ^ 29 restrictions wrap to none. -/
theorem restrict_not_installed :
    (sampleBoot.sysScRestrict 1 1 sampleList (2 ^ 29) true true).1 = 0 ∧
      ¬ (sampleBoot.sysScRestrict 1 1 sampleList (2 ^ 29) true true).2.Installs 0 sampleList (2 ^ 29) ∧
      (sampleBoot.sysScRestrict 1 1 sampleList (2 ^ 29) true true).2.syscallCheck 20 0 0 =
        .error (.outOfBounds 0) := by
  have hr : (sampleBoot.sysScRestrict 1 1 sampleList (2 ^ 29) true true).1 = 0 := rfl
  have hc : sampleBoot.restrictTarget 1 1 (2 ^ 29) = some 0 := rfl
  have htask : (sampleBoot.replaceList 0 1 sampleList (2 ^ 29) true true).2.tasks 0 =
      ⟨1, 1, some 0, 2 ^ 29, some 1, 0⟩ := rfl
  have hnext : sampleBoot.nextBuffer = 0 := rfl
  rw [sysScRestrict_some hc] at hr ⊢
  have hbytes : ((sampleBoot.replaceList 0 1 sampleList (2 ^ 29) true true).2.buffers 0).bytes = 0 := rfl
  obtain ⟨-, -, -, -, hfrees, -⟩ := replaceList_installed hr
  obtain ⟨k', hk'⟩ : ∃ k', (sampleBoot.replaceList 0 1 sampleList (2 ^ 29) true true).2 = k' := ⟨_, rfl⟩
  rw [hk'] at hbytes
  rw [hnext, hk'] at hfrees
  rw [hk'] at htask ⊢
  have hread : k'.restriction (some 0) 0 = .error (.outOfBounds 0) := by
    simp [restriction, deref_some hfrees, hbytes, sizeofScr, bind, Except.bind]
  refine ⟨hr, fun hin => ?_, ?_⟩
  · have hfirst := hin.reads 0 (by rw [htask]; decide)
    rw [htask, hread] at hfirst
    cases hfirst
  · have hn : ((2 : ℤ) ^ 29).toNat = (2 ^ 29 - 1) + 1 := by decide
    simp only [syscallCheck, htask, hn, checkLoop, hread, bind, Except.bind]
    rfl

end Install

section Count

/-- The count of the log is not negative, and it is 0 before there is a log. -/
structure Counted (t : Task) : Prop where
  nonneg : 0 ≤ t.logListSize
  small : t.logListSize < 2 ^ 31
  unlogged : t.logList = none → t.logListSize = 0

/-- The slot of the next log entry. -/
def logSlot (k : Kernel) (t : ℕ) : ℤ := (k.tasks t).logListSize.tmod 100

theorem Counted.slot (h : Counted (k.tasks t)) : 0 ≤ k.logSlot t ∧ k.logSlot t ≤ 99 := by
  have hlt : k.logSlot t < 100 := Int.tmod_lt_of_pos _ (by decide)
  exact ⟨Int.tmod_nonneg _ h.nonneg, by omega⟩

/-- The live tasks after a task was rewritten. -/
theorem counted_setTask {k₁ : Kernel} (h : ∀ t, k.Alive t → Counted (k.tasks t)) (hs : SameTasks k k₁)
    (hv : v.pid = (k.tasks curr).pid) (hc : k.Alive curr → Counted v) (ha : (k₁.setTask curr v).Alive t) :
    Counted ((k₁.setTask curr v).tasks t) := by
  have ha' : k.Alive t := by
    refine (alive_setTask hv).mp ?_
    simpa [Alive, setTask, hs.tasks, hs.pidHash] using ha
  by_cases ht : t = curr
  · subst ht
    rw [tasks_setTask_self]
    exact hc ha'
  · simpa [setTask, ht, hs.tasks] using h t ha'

theorem counted_restrict (h : ∀ t, k.Alive t → Counted (k.tasks t))
    (ha : (k.sysScRestrict pid level user listSize ok okLog).2.Alive t) :
    Counted ((k.sysScRestrict pid level user listSize ok okLog).2.tasks t) := by
  cases hc : k.restrictTarget pid level listSize with
  | none =>
    obtain ⟨e, -, heq⟩ := @sysScRestrict_none k pid level listSize user ok okLog hc
    rw [heq] at ha ⊢
    exact h t ha
  | some curr =>
    rw [sysScRestrict_some hc] at ha ⊢
    cases ok with
    | false =>
      rw [replaceList_noList] at ha ⊢
      exact counted_setTask h (sameTasks_kfree k _) rfl
        (fun hcurr => ⟨(h curr hcurr).nonneg, (h curr hcurr).small, (h curr hcurr).unlogged⟩) ha
    | true =>
      have hs := sameTasks_allocLog k curr listSize okLog
      rw [replaceList_list] at ha ⊢
      split_ifs at ha ⊢ with hlog
      · exact counted_setTask h (hs.trans (sameTasks_kfree _ _)) rfl
          (fun hcurr => ⟨(h curr hcurr).nonneg, (h curr hcurr).small, (h curr hcurr).unlogged⟩) ha
      · exact counted_setTask h (hs.trans (sameTasks_copyFromUser _ _ _ _)) rfl
          (fun hcurr => ⟨(h curr hcurr).nonneg, (h curr hcurr).small, fun hn => absurd hn hlog⟩) ha

/-- The count of the largest `int` wraps with the next recorded call, and no other count does. -/
theorem nonneg_syscall (h : Counted (k.tasks curr))
    (hs : k.syscallCheck num curr jiffies = .ok (r, k')) :
    0 ≤ (k'.tasks curr).logListSize ↔ k.CountFits (.syscall num curr jiffies) := by
  have h0 := h.nonneg
  have h1 := h.small
  rcases syscallCheck_ok hs with hp | ⟨-, c, v, hd, hlog, -, rfl⟩
  · rw [hp.same]
    refine iff_of_true h0 fun hd => ?_
    have hz := h.unlogged (hp.reason.resolve_left hd)
    omega
  · rw [recordDenial, tasks_setTask_self, CountFits, hd]
    simp only [ne_eq, reduceCtorEq, not_false_eq_true, true_imp_iff, wrapInt]
    constructor
    · intro hpos hmax
      rw [hmax] at hpos
      exact absurd hpos (by decide)
    · intro hne
      rw [Int.bmod_eq_of_le (by omega) (by omega)]
      omega

theorem counted_syscall (h : ∀ t, k.Alive t → Counted (k.tasks t)) (hc : k.Alive curr)
    (hfits : k.CountFits (.syscall num curr jiffies))
    (hs : k.syscallCheck num curr jiffies = .ok (r, k')) (ha : k'.Alive t) : Counted (k'.tasks t) := by
  have hpos := (nonneg_syscall (h curr hc) hs).mpr hfits
  rcases syscallCheck_ok hs with hp | ⟨-, c, v, hd, hlog, -, rfl⟩
  · rw [hp.same] at ha ⊢
    exact h t ha
  · refine counted_setTask h ⟨rfl, rfl, rfl⟩ rfl (fun _ => ⟨?_, ?_, fun hn => ?_⟩) ha
    · rwa [recordDenial, tasks_setTask_self] at hpos
    · exact lt_of_lt_of_eq (Int.bmod_lt (by decide)) (by decide)
    · simp [hlog] at hn

theorem counted_fork (h : ∀ t, k.Alive t → Counted (k.tasks t)) {newPid : Option ℕ}
    (ha : (k.doFork curr newPid).Alive t) : Counted ((k.doFork curr newPid).tasks t) := by
  cases newPid with
  | none => exact h t ha
  | some pid =>
    by_cases ht : t = k.nextTask
    · subst ht
      refine ⟨?_, ?_, fun _ => ?_⟩ <;> simp [doFork, setTask]
    · have hsame : (k.doFork curr (some pid)).tasks t = k.tasks t := by simp [doFork, setTask, ht]
      rw [Alive, hsame] at ha
      rw [hsame]
      refine h t ?_
      by_cases hp : (k.tasks t).pid = pid
      · simp [doFork, hp, Ne.symm ht] at ha
      · simpa [Alive, doFork, hp] using ha

theorem counted_release (h : ∀ t, k.Alive t → Counted (k.tasks t)) (hlive : k.Alive curr)
    (ha : (k.releaseTask curr).Alive t) : Counted ((k.releaseTask curr).tasks t) := by
  have hsame := (sameTasks_kfree k (k.tasks curr).logList).trans
    (sameTasks_kfree (k.kfree (k.tasks curr).logList) (k.tasks curr).restrictionsList)
  by_cases ht : t = curr
  · subst ht
    have hold := h t hlive
    simp only [releaseTask, hsame.tasks, tasks_setTask_self, (sameTasks_kfree k _).tasks]
    exact ⟨hold.nonneg, hold.small, hold.unlogged⟩
  · have heq : (k.releaseTask curr).tasks t = k.tasks t := by
      simp [releaseTask, setTask, ht, (sameTasks_kfree _ _).tasks]
    rw [Alive, heq] at ha
    rw [heq]
    refine h t ?_
    simp only [releaseTask, hsame.pidHash, (sameTasks_kfree k _).tasks, Function.update_apply] at ha
    split_ifs at ha
    exact ha

theorem counted_step (h : ∀ t, k.Alive t → Counted (k.tasks t)) (hfits : k.CountFits e)
    (hs : k.Step e k') (t : ℕ) (ha : k'.Alive t) : Counted (k'.tasks t) := by
  cases hs.move with
  | scRestrict pid level user listSize ok okLog hk =>
    rw [hk] at ha ⊢
    exact counted_restrict h ha
  | setProcRestriction pid level hk =>
    rw [hk, sysSetProcRestriction_eq] at ha ⊢
    cases hc : k.restrictTarget pid level 0 with
    | none =>
      rw [hc] at ha
      exact h t ha
    | some curr =>
      rw [hc] at ha
      exact counted_setTask h ⟨rfl, rfl, rfl⟩ rfl
        (fun hcurr => ⟨(h curr hcurr).nonneg, (h curr hcurr).small, (h curr hcurr).unlogged⟩) ha
  | syscall num curr jiffies r hc hk => exact counted_syscall h hc hfits hk ha
  | getProcessLog pid size ok hk =>
    rw [hk] at ha ⊢
    exact h t ha
  | fork current newPid hc hfree hk =>
    rw [hk] at ha ⊢
    exact counted_fork h ha
  | release t₀ hlive hk =>
    rw [hk] at ha ⊢
    exact counted_release h hlive ha

/-- As long as no forbidden call is counted by the largest `int`, the count of no log is negative and
the next entry is written in the ring; the next call keeps it so if and only if it is not counted by
the largest `int` either. -/
theorem log_slot_in_ring {k₀ : Kernel} (hB : k₀.Boot)
    (h : Run (fun k e k' => k.CountFits e ∧ k.Step e k') k₀ es k) :
    (∀ t, k.Alive t → (0 ≤ k.logSlot t ∧ k.logSlot t ≤ 99) ∧ 0 ≤ (k.tasks t).logListSize) ∧
      ∀ num curr jiffies r k', k.Alive curr → k.syscallCheck num curr jiffies = .ok (r, k') →
        (0 ≤ (k'.tasks curr).logListSize ↔ k.CountFits (.syscall num curr jiffies)) := by
  have hcount := h.invariant (P := fun k => ∀ t, k.Alive t → Counted (k.tasks t))
    (fun t ha => ⟨(hB.logListSize t ha).ge, by rw [hB.logListSize t ha]; decide,
      fun _ => hB.logListSize t ha⟩)
    fun _ _ _ hk hs => counted_step hk hs.1 hs.2
  exact ⟨fun t ha => ⟨(hcount t ha).slot, (hcount t ha).nonneg⟩,
    fun _ curr _ _ _ ha hs => nonneg_syscall (hcount curr ha) hs⟩

instance (k : Kernel) (e : Event) : Decidable (k.CountFits e) :=
  match e with
  | .syscall num curr jiffies => inferInstanceAs (Decidable
      (k.denial num curr jiffies ≠ none → (k.tasks curr).logListSize ≠ 2 ^ 31 - 1))
  | .scRestrict .. | .setProcRestriction .. | .getProcessLog .. | .fork .. | .release .. =>
    .isTrue trivial

theorem log_slot_in_ring_sample :
    ∃ k, Run (fun k e k' => k.CountFits e ∧ k.Step e k') sampleBoot (Logged.sampleCalls 101) k ∧
      ∀ t, k.Alive t → (0 ≤ k.logSlot t ∧ k.logSlot t ≤ 99) ∧ 0 ≤ (k.tasks t).logListSize := by
  have hsome : (Run.exec (nextIf CountFits) sampleBoot (Logged.sampleCalls 101)).isSome = true := by
    decide +kernel
  obtain ⟨k, hk⟩ := Option.isSome_iff_exists.mp hsome
  have hrun := Run.of_exec (fun _ _ _ => step_of_nextIf) hk
  exact ⟨k, hrun, (log_slot_in_ring sampleBoot_boot hrun).1⟩

end Count

end Kernel

namespace Logged

/-- After 2 ^ 31 forbidden calls the count is negative, and the next slot is in front of the ring. -/
theorem log_slot_negative : ∃ s, Run Step sampleStart (sampleCalls (2 ^ 31)) s ∧
    s.kernel.Alive 0 ∧ (s.denials 0).length = 2 ^ 31 ∧ (s.kernel.tasks 0).logListSize = -2 ^ 31 ∧
    s.kernel.logSlot 0 = -48 := by
  obtain ⟨n, hn⟩ : ∃ n : ℕ, n + 1 = 2 ^ 31 := ⟨2 ^ 31 - 1, by omega⟩
  obtain ⟨s, hrun, hr, hD⟩ := denials_run n (by omega)
  obtain ⟨hcheck, hden⟩ := ready_call hr n
  have halive : s.kernel.Alive 0 := by simp [Kernel.Alive, hr.task, hr.hash]
  have hmax : (n : ℤ) + 1 = 2 ^ 31 := by omega
  have hcount : ((s.kernel.recordDenial 0 1 (sampleEntry n)).tasks 0).logListSize = -2 ^ 31 := by
    rw [Kernel.recordDenial, Kernel.tasks_setTask_self, hr.task]
    simp only [hmax]
    decide
  refine ⟨⟨s.kernel.recordDenial 0 1 (sampleEntry n), s.record (.syscall 20 0 n)⟩, ?_,
    Kernel.alive_recordDenial.mpr halive, ?_, hcount, (congrArg (Int.tmod · 100) hcount).trans (by decide)⟩
  · rw [← hn, sampleCalls_succ]
    exact hrun.snoc ⟨trivial, ⟨-1, (if_pos halive).trans hcheck⟩, rfl⟩
  · simp [record, hden, hD, hn]

end Logged

end OperationSystems.Restrict
