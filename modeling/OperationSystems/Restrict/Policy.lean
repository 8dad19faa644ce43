import OperationSystems.Restrict.Query

/-!
# Lists that stay where they are

A task follows a policy when it has the level and the list of the policy and
its buffer has room for the list. A new list for one task leaves those of the
others as they were, and with room for its list and a count of its log that is
not negative `syscall_check` never leaves the buffers of a task.
-/

namespace OperationSystems.Restrict
open Transition RingLog

structure Policy where
  level : ℤ
  list : List SysCallRestriction
  log : List ForbiddenActivityInfo

namespace Kernel
variable {k k' : Kernel} {curr t : ℕ} {pid level listSize num jiffies r : ℤ}
  {user : ℕ → SysCallRestriction} {ok okLog : Bool} {P : Policy}

/-- Both calls of `kmalloc` succeed, and the size of the list does not wrap. -/
def FullKmalloc (k : Kernel) : Event → Prop
  | .scRestrict pid level _ listSize ok okLog => ∀ curr ∈ k.restrictTarget pid level listSize,
      (ok = true ∧ okLog = true) ∧ listSize.toNat * sizeofScr < 2 ^ 32
  | _ => True

/-- The count of the log has room for the call, if it is forbidden. -/
def CountFits (k : Kernel) : Event → Prop
  | .syscall num curr jiffies =>
    k.denial num curr jiffies ≠ none → (k.tasks curr).logListSize ≠ 2 ^ 31 - 1
  | _ => True

section Frame

/-- The lists in the buffers of `k` are still there. -/
structure SameLists (k k' : Kernel) : Prop where
  next : k.nextBuffer ≤ k'.nextBuffer
  lists : ∀ b < k.nextBuffer, (k'.buffers b).bytes = (k.buffers b).bytes ∧
    (k'.buffers b).restrictions = (k.buffers b).restrictions

theorem SameLists.trans {k₁ k₂ k₃ : Kernel} (h : SameLists k₁ k₂) (h' : SameLists k₂ k₃) :
    SameLists k₁ k₃ := by
  refine ⟨h.next.trans h'.next, fun b hb => ?_⟩
  obtain ⟨h1, h2⟩ := h.lists b hb
  obtain ⟨h1', h2'⟩ := h'.lists b (hb.trans_le h.next)
  exact ⟨h1'.trans h1, h2'.trans h2⟩

theorem setBuffer_lists (k : Kernel) (b c : ℕ) {v : Buffer} (hb : v.bytes = (k.buffers b).bytes)
    (hr : v.restrictions = (k.buffers b).restrictions) :
    ((k.setBuffer b v).buffers c).bytes = (k.buffers c).bytes ∧
      ((k.setBuffer b v).buffers c).restrictions = (k.buffers c).restrictions := by
  by_cases hc : c = b
  · subst hc
    simp [setBuffer, hb, hr]
  · simp [setBuffer, hc]

theorem kfree_lists (k : Kernel) (p : Option ℕ) (c : ℕ) :
    ((k.kfree p).buffers c).bytes = (k.buffers c).bytes ∧
      ((k.kfree p).buffers c).restrictions = (k.buffers c).restrictions := by
  cases p with
  | none => exact ⟨rfl, rfl⟩
  | some b => exact setBuffer_lists k b c rfl rfl

theorem nextBuffer_kfree (k : Kernel) (p : Option ℕ) : (k.kfree p).nextBuffer = k.nextBuffer := by
  cases p <;> rfl

theorem sameLists_kmalloc (k : Kernel) (o : ℕ × Slot) (n : ℕ) (ok : Bool) :
    SameLists k (k.kmalloc o n ok).2 := by
  cases ok with
  | false => exact ⟨le_rfl, fun _ _ => ⟨rfl, rfl⟩⟩
  | true =>
    refine ⟨Nat.le_succ _, fun b hb => ?_⟩
    have hne : b ≠ k.nextBuffer := Nat.ne_of_lt hb
    simp [kmalloc, setBuffer, hne]

theorem allocList_some (k : Kernel) (curr : ℕ) (listSize : ℤ) :
    (k.allocList curr listSize true).1 = some k.nextBuffer :=
  congrArg some (nextBuffer_kfree k (k.tasks curr).restrictionsList)

theorem sameLists_allocList (k : Kernel) (curr : ℕ) (listSize : ℤ) :
    SameLists k (k.allocList curr listSize true).2 :=
  SameLists.trans ⟨(nextBuffer_kfree k _).ge, fun b _ => kfree_lists k _ b⟩
    (sameLists_kmalloc _ _ _ true)

theorem sameLists_allocLog (k : Kernel) (curr : ℕ) (listSize : ℤ) (okLog : Bool) :
    SameLists (k.allocList curr listSize true).2 (k.allocLog curr listSize okLog).2 := by
  simp only [allocLog]
  split_ifs
  · exact sameLists_kmalloc _ _ _ okLog
  · exact ⟨le_rfl, fun _ _ => ⟨rfl, rfl⟩⟩

/-- The new list after a successful call, with all that was asked for. -/
theorem copied_list (k : Kernel) (curr : ℕ) (user : ℕ → SysCallRestriction) (okLog : Bool)
    (hfull : listSize.toNat * sizeofScr < 2 ^ 32) :
    let k₁ := (k.allocLog curr listSize okLog).2.copyFromUser (some k.nextBuffer) user (listBytes listSize)
    listSize.toNat * sizeofScr ≤ (k₁.buffers k.nextBuffer).bytes ∧
      ∀ i < listSize.toNat, (k₁.buffers k.nextBuffer).restrictions i = user i := by
  intro k₁
  have hbytes : listBytes listSize = listSize.toNat * sizeofScr := Nat.mod_eq_of_lt hfull
  have hnext : (k.dropList curr).nextBuffer = k.nextBuffer := nextBuffer_kfree k _
  have hnew : listBytes listSize ≤ ((k.allocList curr listSize true).2.buffers k.nextBuffer).bytes := by
    simp [allocList, kmalloc, setBuffer, hnext]
  have hlt : k.nextBuffer < (k.allocList curr listSize true).2.nextBuffer := by
    simp [allocList, kmalloc, hnext]
  have hlog := ((sameLists_allocLog k curr listSize okLog).lists _ hlt).1
  refine ⟨?_, fun i hi => ?_⟩
  · rw [hbytes] at hnew
    simp [k₁, copyFromUser, setBuffer, hlog, hnew]
  · have hin : (i + 1) * sizeofScr ≤ listBytes listSize := by
      rw [hbytes]
      exact Nat.mul_le_mul_right _ hi
    simp [k₁, copyFromUser, setBuffer, hin]

end Frame

theorem FullKmalloc.succeeds (h : k.FullKmalloc (.scRestrict pid level user listSize ok okLog))
    (hc : k.restrictTarget pid level listSize = some curr) :
    k.RestrictSucceeds (.scRestrict pid level user listSize ok okLog) := by
  obtain ⟨⟨rfl, rfl⟩, -⟩ := h curr hc
  simp only [RestrictSucceeds, sysScRestrict_some hc, replaceList_list,
    if_neg (allocLog_ne_none (k := k) fun _ _ => rfl)]

/-- A task has the level and the list of a policy, and room for the list. -/
structure Follows (k : Kernel) (t : ℕ) (P : Policy) : Prop where
  level : (k.tasks t).procRestrictionLevel = P.level
  list : k.installed t = P.list
  room : ∀ b, (k.tasks t).restrictionsList = some b →
    (k.tasks t).restrictionsListSize.toNat * sizeofScr ≤ (k.buffers b).bytes

theorem Follows.frame (h : k.Follows t P) (htask : k'.tasks t = k.tasks t)
    (hlists : ∀ b, (k.tasks t).restrictionsList = some b → (k'.buffers b).bytes = (k.buffers b).bytes ∧
      (k'.buffers b).restrictions = (k.buffers b).restrictions) : k'.Follows t P := by
  refine ⟨by rw [htask]; exact h.level, ?_, fun b hb => ?_⟩
  · rw [← h.list]
    unfold installed
    rw [htask]
    cases hb : (k.tasks t).restrictionsList with
    | none => rfl
    | some b => simp only [(hlists b hb).2]
  · rw [htask] at hb ⊢
    rw [(hlists b hb).1]
    exact h.room b hb

/-- The target of a successful call has the new list. -/
theorem follows_target (hfull : listSize.toNat * sizeofScr < 2 ^ 32)
    (log : List ForbiddenActivityInfo) :
    (k.replaceList curr level user listSize true true).2.Follows curr
      ⟨level, (List.range listSize.toNat).map user, log⟩ := by
  have hlog := @allocLog_ne_none k curr listSize true fun _ _ => rfl
  obtain ⟨hbytes, hcopy⟩ := copied_list k curr user true hfull
  rw [replaceList_list, if_neg hlog, allocList_some]
  refine ⟨by simp, ?_, fun b hb => ?_⟩
  · simp only [installed, tasks_setTask_self]
    exact List.map_congr_left fun i hi => hcopy i (List.mem_range.mp hi)
  · obtain rfl : k.nextBuffer = b := by simpa using hb
    simp only [tasks_setTask_self]
    exact hbytes

/-- The other tasks have the lists they had. -/
theorem follows_other (hs : k.Sound) (ha : k.Alive t) (ht : t ≠ curr) (h : k.Follows t P) :
    (k.replaceList curr level user listSize true true).2.Follows t P := by
  have hlog := @allocLog_ne_none k curr listSize true fun _ _ => rfl
  rw [replaceList_list, if_neg hlog, allocList_some]
  have hsame := (sameTasks_allocLog k curr listSize true).tasks
  have hlists := (sameLists_allocList k curr listSize).trans (sameLists_allocLog k curr listSize true)
  refine h.frame ?_ fun b hb => ?_
  · simp [setTask, ht, (sameTasks_copyFromUser _ _ _ _).tasks, hsame]
  · have hlt := (hs.owned.holds.held (t, .restrictionsList) b ⟨ha, hb⟩).1
    have hne : b ≠ k.nextBuffer := Nat.ne_of_lt hlt
    simpa [copyFromUser, setBuffer, setTask, hne] using hlists.lists b hlt

theorem alive_replaceList (ha : (k.replaceList curr level user listSize true true).2.Alive t) : k.Alive t := by
  have hlog := @allocLog_ne_none k curr listSize true fun _ _ => rfl
  have hs := (sameTasks_allocLog k curr listSize true).trans
    (sameTasks_copyFromUser _ (k.allocList curr listSize true).1 user (listBytes listSize))
  rw [replaceList_list, if_neg hlog] at ha
  by_cases ht : t = curr
  · subst ht
    simpa [Alive, setTask, hs.pidHash] using ha
  · simpa [Alive, setTask, ht, hs.tasks, hs.pidHash] using ha

theorem alive_recordDenial {c : ℕ} {v : ForbiddenActivityInfo} :
    (k.recordDenial curr c v).Alive t ↔ k.Alive t := by
  refine (alive_setTask ?_).trans Iff.rfl
  rfl

theorem checkLoop_total {b : ℕ} (hb : (k.tasks curr).restrictionsList = some b)
    (hfree : (k.buffers b).frees = 0) {n : ℕ} (hroom : n * sizeofScr ≤ (k.buffers b).bytes)
    (hlog : ∀ c v, (k.tasks curr).logList = some c →
      ∃ k', k.setLogEntry (some c) ((k.tasks curr).logListSize.tmod 100) v = .ok k')
    {fuel i : ℕ} (hi : i + fuel ≤ n) : ∃ r, k.checkLoop num curr jiffies fuel i = .ok r := by
  induction fuel generalizing i with
  | zero => exact ⟨_, rfl⟩
  | succ fuel ih =>
    have hread : k.restriction (some b) i = .ok ((k.buffers b).restrictions i) := by
      have hin : (i + 1) * sizeofScr ≤ (k.buffers b).bytes :=
        (Nat.mul_le_mul_right sizeofScr (by omega)).trans hroom
      simp only [restriction, deref_some hfree, bind, Except.bind, if_pos hin, pure, Except.pure]
    simp only [checkLoop, hb, hread, bind, Except.bind]
    split_ifs with hnum hthr hnone
    · exact ⟨_, rfl⟩
    · obtain ⟨c, hc⟩ := Option.ne_none_iff_exists'.mp hnone
      obtain ⟨k', hk'⟩ := hlog c
        { syscallNum := num
          syscallRestrictionThreshold := ((k.buffers b).restrictions i).restrictionThreshold
          procRestrictionLevel := (k.tasks curr).procRestrictionLevel
          time := jiffies } hc
      rw [hc, hk']
      exact ⟨_, rfl⟩
    · exact ih (by omega)
    · exact ih (by omega)

/-- `syscall_check` reads and writes inside the buffers of a task whose log count is not negative. -/
theorem syscallCheck_total (hs : k.Sound) (ha : k.Alive curr) (hf : k.Follows curr P)
    {log : List ForbiddenActivityInfo} (hshow : k.Shows (k.tasks curr) log)
    (hcount : 0 ≤ (k.tasks curr).logListSize) : ∃ r, k.syscallCheck num curr jiffies = .ok r := by
  unfold syscallCheck
  split_ifs with hsize
  · exact ⟨_, rfl⟩
  · cases hb : (k.tasks curr).restrictionsList with
    | none => exact absurd ((hs.sized curr ha).restrictionsList hb) (by omega)
    | some b =>
      have hu := (hs.usable ha).unfreed
      refine checkLoop_total hb (hu .restrictionsList b hb) (hf.room b hb) (fun c v hc => ?_)
        (Nat.zero_add _).le
      have hmod : (k.tasks curr).logListSize.tmod 100 < 100 := Int.tmod_lt_of_pos _ (by decide)
      have hin : 0 ≤ (k.tasks curr).logListSize.tmod 100 ∧
          ((k.tasks curr).logListSize.tmod 100 + 1) * sizeofFai ≤ (k.buffers c).bytes := by
        refine ⟨Int.tmod_nonneg _ hcount, ?_⟩
        have hroom := hshow.bytes c hc
        simp only [restListSize, sizeofFai] at hroom ⊢
        omega
      simp only [setLogEntry, deref_some (hu .logList c hc), bind, Except.bind, if_pos hin, pure,
        Except.pure]
      exact ⟨_, rfl⟩

/-- The next slot of the log of `curr` has the record `v`, its count is one higher, and nothing
else is different. -/
def Appends (k : Kernel) (curr : ℕ) (v : ForbiddenActivityInfo) (k' : Kernel) : Prop :=
  ∃ c n : ℕ, (k.tasks curr).logList = some c ∧ (k.tasks curr).logListSize = n ∧
    k' = (k.setBuffer c { k.buffers c with
      entries := Function.update (k.buffers c).entries (n % restListSize) v }).setTask curr
        { k.tasks curr with logListSize := (n : ℤ) + 1 }

/-- `sys_set_proc_restriction` by its target. -/
theorem sysSetProcRestriction_eq (k : Kernel) (pid level : ℤ) :
    (k.sysSetProcRestriction pid level).2 = match k.restrictTarget pid level 0 with
      | none => k
      | some curr => k.setTask curr { k.tasks curr with procRestrictionLevel := level } := by
  unfold sysSetProcRestriction restrictTarget
  by_cases hpid : pid < 0
  · simp [hpid]
  · by_cases hlevel : level < 0 ∨ level > 2
    · have hbad : pid < 0 ∨ level < 0 ∨ level > 2 ∨ (0 : ℤ) < 0 := by tauto
      rw [if_neg hpid, if_pos hbad]
      cases k.findTaskByPid pid with
      | none => rfl
      | some curr => simp only [if_pos hlevel]
    · have hgood : ¬ (pid < 0 ∨ level < 0 ∨ level > 2 ∨ (0 : ℤ) < 0) := by
        simp only [not_or] at hlevel ⊢
        exact ⟨hpid, hlevel.1, hlevel.2, by decide⟩
      rw [if_neg hpid, if_neg hgood]
      cases k.findTaskByPid pid with
      | none => rfl
      | some curr => simp only [if_neg hlevel]

end Kernel

end OperationSystems.Restrict
