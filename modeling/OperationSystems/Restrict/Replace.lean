import OperationSystems.Restrict.Check
import OperationSystems.Lib.Ownership

/-!
# Replacing a restriction list

A live task holds the buffers that its two pointers point to. The outcomes of
`sys_sc_restrict` are described by the buffers it allocates, and each is
checked against the ledger: the list that is replaced is released, the new list
and a new log are held by the task, unless the log could not be allocated.
-/

namespace OperationSystems.Restrict
open Ownership

namespace Kernel
variable {k : Kernel} {curr t : ℕ} {v : Task}

def ledger (k : Kernel) : Ledger (ℕ × Slot) where
  next := k.nextBuffer
  owner := fun b => (k.buffers b).owner
  releases := fun b => (k.buffers b).frees

/-- The pointer `o` of a live task points to buffer `b`. -/
def Points (k : Kernel) (o : ℕ × Slot) (b : ℕ) : Prop :=
  k.Alive o.1 ∧ (k.tasks o.1).pointer o.2 = some b

structure Owned (k : Kernel) : Prop where
  hashed : ∀ p t, k.pidHash p = some t → (k.tasks t).pid = p ∧ t < k.nextTask
  holds : k.ledger.Holds k.Points

section Primitives

@[simp] theorem ledger_setTask (k : Kernel) (t : ℕ) (v : Task) : (k.setTask t v).ledger = k.ledger := rfl

theorem ledger_setBuffer (k : Kernel) (b : ℕ) (v : Buffer) :
    (k.setBuffer b v).ledger =
      { k.ledger with
        owner := Function.update k.ledger.owner b v.owner
        releases := Function.update k.ledger.releases b v.frees } := by
  simp only [ledger, setBuffer, Ledger.mk.injEq, true_and]
  constructor <;>
  · funext c
    by_cases hc : c = b
    · subst hc
      simp
    · simp [Function.update_of_ne hc]

theorem ledger_setBuffer_same (k : Kernel) (b : ℕ) {v : Buffer} (ho : v.owner = (k.buffers b).owner)
    (hf : v.frees = (k.buffers b).frees) : (k.setBuffer b v).ledger = k.ledger := by
  rw [ledger_setBuffer, ho, hf]
  simp [ledger]

theorem ledger_kfree (k : Kernel) (b : ℕ) : (k.kfree (some b)).ledger = k.ledger.release b := by
  rw [kfree, ledger_setBuffer, Ledger.release]
  simp [ledger]

theorem ledger_kmalloc (k : Kernel) (o : ℕ × Slot) (n : ℕ) :
    (k.kmalloc o n true).2.ledger = k.ledger.acquire o := by
  have hb := ledger_setBuffer k k.nextBuffer
    { k.buffers k.nextBuffer with
      bytes := max n ((k.buffers k.nextBuffer).bytes % 2 ^ 32), owner := o, frees := 0 }
  simp only [ledger, Ledger.mk.injEq] at hb
  simp only [kmalloc, if_true, ledger, Ledger.acquire, Ledger.mk.injEq]
  exact ⟨trivial, hb.2.1, hb.2.2⟩

@[simp] theorem ledger_copyFromUser (k : Kernel) (p : Option ℕ) (user : ℕ → SysCallRestriction)
    (n : ℕ) : (k.copyFromUser p user n).ledger = k.ledger := by
  cases p with
  | none => rfl
  | some b => exact ledger_setBuffer_same k b rfl rfl

/-- The rest of the kernel while buffers come and go. -/
structure SameTasks (k k' : Kernel) : Prop where
  tasks : k'.tasks = k.tasks
  pidHash : k'.pidHash = k.pidHash
  nextTask : k'.nextTask = k.nextTask

theorem SameTasks.trans {k₁ k₂ k₃ : Kernel} (h : SameTasks k₁ k₂) (h' : SameTasks k₂ k₃) :
    SameTasks k₁ k₃ :=
  ⟨h'.tasks.trans h.tasks, h'.pidHash.trans h.pidHash, h'.nextTask.trans h.nextTask⟩

theorem sameTasks_kfree (k : Kernel) (p : Option ℕ) : SameTasks k (k.kfree p) := by
  cases p <;> exact ⟨rfl, rfl, rfl⟩

theorem sameTasks_kmalloc (k : Kernel) (o : ℕ × Slot) (n : ℕ) (ok : Bool) :
    SameTasks k (k.kmalloc o n ok).2 := by
  cases ok <;> exact ⟨rfl, rfl, rfl⟩

theorem sameTasks_copyFromUser (k : Kernel) (p : Option ℕ) (user : ℕ → SysCallRestriction) (n : ℕ) :
    SameTasks k (k.copyFromUser p user n) := by
  cases p <;> exact ⟨rfl, rfl, rfl⟩

theorem alive_setTask (hv : v.pid = (k.tasks curr).pid) :
    (k.setTask curr v).Alive t ↔ k.Alive t := by
  by_cases ht : t = curr
  · subst ht
    simp [Alive, setTask, hv]
  · simp [Alive, setTask, Function.update_of_ne ht]

end Primitives

section Calls
variable {P : ℕ × Slot → ℕ → Prop} {o : ℕ × Slot} {p : Option ℕ}

/-- After `kfree` of the pointer `o`, nobody holds its buffer. -/
theorem holds_kfree (h : k.ledger.Holds P) (hp : ∀ b, P o b ↔ p = some b) :
    (k.kfree p).ledger.Holds (fun o' b => P o' b ∧ o' ≠ o) := by
  cases p with
  | none =>
    refine h.congr fun o' b => ⟨And.left, fun hb => ⟨hb, ?_⟩⟩
    rintro rfl
    simpa using (hp b).mp hb
  | some b =>
    rw [ledger_kfree]
    refine (h.release ((hp b).mpr rfl)).congr fun o' c => ?_
    constructor <;> rintro ⟨hc, hne⟩ <;> refine ⟨hc, ?_⟩
    · rintro rfl
      exact hne (h.holder_unique hc ((hp c).mpr rfl))
    · rintro rfl
      exact hne (Option.some.inj ((hp c).mp hc)).symm

/-- A buffer from `kmalloc` for the pointer `o` is held by `o`. -/
theorem holds_kmalloc (h : k.ledger.Holds P) (n : ℕ) (ok : Bool) :
    (k.kmalloc o n ok).2.ledger.Holds
      (fun o' b => P o' b ∨ (o' = o ∧ (k.kmalloc o n ok).1 = some b)) := by
  cases ok with
  | false => exact h.congr fun o' b => by simp [kmalloc]
  | true =>
    rw [ledger_kmalloc]
    refine (h.acquire o).congr fun o' b => ?_
    simp [kmalloc, ledger, eq_comm]

/-- The pointers of the live tasks with `v` in the place of the task `curr`. -/
def Repointed (k : Kernel) (curr : ℕ) (v : Task) (o : ℕ × Slot) (b : ℕ) : Prop :=
  if o.1 = curr then v.pointer o.2 = some b else k.Points o b

theorem points_setTask {k' : Kernel} (hs : SameTasks k k') (hv : v.pid = (k.tasks curr).pid)
    (ha : k.Alive curr) (o : ℕ × Slot) (b : ℕ) :
    (k'.setTask curr v).Points o b ↔ k.Repointed curr v o b := by
  obtain ⟨t, s⟩ := o
  by_cases ht : t = curr
  · subst ht
    have hh : k'.pidHash v.pid = some t := by
      rw [hs.pidHash, hv]
      exact ha
    simp [Repointed, Points, Alive, setTask, hh]
  · simp [Repointed, Points, Alive, setTask, ht, hs.tasks, hs.pidHash]

theorem owned_setTask {k' : Kernel} (ho : k.Owned) (hs : SameTasks k k')
    (hv : v.pid = (k.tasks curr).pid) (ha : k.Alive curr)
    (h : k'.ledger.Holds (k.Repointed curr v)) : (k'.setTask curr v).Owned := by
  refine ⟨?_, h.congr (points_setTask hs hv ha)⟩
  intro p t hp
  have hp : k.pidHash p = some t := by rw [← hs.pidHash]; exact hp
  obtain ⟨hpid, hlt⟩ := ho.hashed p t hp
  refine ⟨?_, by rw [← hs.nextTask] at hlt; exact hlt⟩
  by_cases ht : t = curr
  · subst ht
    simpa [setTask, hv] using hpid
  · simpa [setTask, Function.update_of_ne ht, hs.tasks] using hpid

end Calls

section ReplaceList
variable {level listSize : ℤ} {user : ℕ → SysCallRestriction} {ok okLog : Bool}

/-- The kernel once the old list of `curr` is gone. -/
def dropList (k : Kernel) (curr : ℕ) : Kernel := k.kfree (k.tasks curr).restrictionsList

/-- The new list of `curr` and the kernel in which it was allocated. -/
def allocList (k : Kernel) (curr : ℕ) (listSize : ℤ) (ok : Bool) : Option ℕ × Kernel :=
  (k.dropList curr).kmalloc (curr, .restrictionsList) (listBytes listSize) ok

/-- The log of `curr` after a call that got its list, and the kernel that has it. -/
def allocLog (k : Kernel) (curr : ℕ) (listSize : ℤ) (okLog : Bool) : Option ℕ × Kernel :=
  if (k.tasks curr).logList = none then
    (k.allocList curr listSize true).2.kmalloc (curr, .logList) (restListSize * sizeofFai) okLog
  else ((k.tasks curr).logList, (k.allocList curr listSize true).2)

theorem tasks_allocList (k : Kernel) (curr : ℕ) (listSize : ℤ) (ok : Bool) :
    (k.allocList curr listSize ok).2.tasks = k.tasks :=
  ((sameTasks_kfree k _).trans (sameTasks_kmalloc _ _ _ ok)).tasks

theorem sameTasks_allocLog (k : Kernel) (curr : ℕ) (listSize : ℤ) (okLog : Bool) :
    SameTasks k (k.allocLog curr listSize okLog).2 := by
  have hl : SameTasks k (k.allocList curr listSize true).2 :=
    (sameTasks_kfree k _).trans (sameTasks_kmalloc _ _ _ true)
  simp only [allocLog]
  split_ifs with h
  · exact hl.trans (sameTasks_kmalloc _ _ _ okLog)
  · exact hl

theorem setTask_setTask (k : Kernel) (t : ℕ) (v w : Task) :
    (k.setTask t v).setTask t w = k.setTask t w := by
  simp [setTask]

@[simp] theorem tasks_setTask_self (k : Kernel) (t : ℕ) (v : Task) : (k.setTask t v).tasks t = v := by
  simp [setTask]

theorem kmalloc_setTask (k : Kernel) (t : ℕ) (v : Task) (o : ℕ × Slot) (n : ℕ) (ok : Bool) :
    (k.setTask t v).kmalloc o n ok = ((k.kmalloc o n ok).1, (k.kmalloc o n ok).2.setTask t v) := by
  cases ok <;> rfl

theorem copyFromUser_setTask (k : Kernel) (t : ℕ) (v : Task) (p : Option ℕ)
    (user : ℕ → SysCallRestriction) (n : ℕ) :
    (k.setTask t v).copyFromUser p user n = (k.copyFromUser p user n).setTask t v := by
  cases p <;> rfl

theorem kfree_setTask (k : Kernel) (t : ℕ) (v : Task) (p : Option ℕ) :
    (k.setTask t v).kfree p = (k.kfree p).setTask t v := by
  cases p <;> rfl

theorem replaceList_noList : k.replaceList curr level user listSize false okLog =
    (-enomem, (k.dropList curr).setTask curr { k.tasks curr with restrictionsList := none }) := by
  have ht : (k.dropList curr).tasks = k.tasks := (sameTasks_kfree k _).tasks
  rw [← ht]
  rfl

theorem replaceList_list : k.replaceList curr level user listSize true okLog =
    if (k.allocLog curr listSize okLog).1 = none then
      (-enomem, ((k.allocLog curr listSize okLog).2.kfree
        (k.allocList curr listSize true).1).setTask curr
        { k.tasks curr with restrictionsList := (k.allocList curr listSize true).1 })
    else
      (0, ((k.allocLog curr listSize okLog).2.copyFromUser
        (k.allocList curr listSize true).1 user (listBytes listSize)).setTask curr
        { k.tasks curr with
          procRestrictionLevel := level
          restrictionsList := (k.allocList curr listSize true).1
          restrictionsListSize := listSize
          logList := (k.allocLog curr listSize okLog).1 }) := by
  have ht := tasks_allocList k curr listSize true
  have hsome : (k.allocList curr listSize true).1 ≠ none := by simp [allocList, kmalloc]
  simp only [allocList, dropList] at ht hsome
  by_cases hlog : (k.tasks curr).logList = none <;>
    simp only [replaceList, allocLog, allocList, dropList, ht, hsome, hlog, tasks_setTask_self,
      kmalloc_setTask, setTask_setTask, if_true, if_false, kfree_setTask, copyFromUser_setTask]
  split_ifs with hl
  · rw [hl]
  · rfl

theorem holds_dropList (ho : k.Owned) (ha : k.Alive curr) :
    (k.dropList curr).ledger.Holds
      (k.Repointed curr { k.tasks curr with restrictionsList := none }) := by
  refine (holds_kfree ho.holds (o := (curr, .restrictionsList)) fun b => ?_).congr fun o b => ?_
  · simp [Points, ha, Task.pointer]
  · obtain ⟨t, s⟩ := o
    by_cases ht : t = curr
    · subst ht
      cases s <;> simp [Repointed, Points, ha, Task.pointer]
    · simp [Repointed, ht]

theorem holds_allocList (ho : k.Owned) (ha : k.Alive curr) (listSize : ℤ) (ok : Bool) :
    (k.allocList curr listSize ok).2.ledger.Holds
      (k.Repointed curr { k.tasks curr with
        restrictionsList := (k.allocList curr listSize ok).1 }) := by
  refine (holds_kmalloc (holds_dropList ho ha) _ ok).congr fun o b => ?_
  obtain ⟨t, s⟩ := o
  by_cases ht : t = curr
  · cases s <;> simp [Repointed, Task.pointer, ht, allocList]
  · simp [Repointed, ht]

theorem holds_allocLog (ho : k.Owned) (ha : k.Alive curr) (listSize : ℤ) (okLog : Bool) :
    (k.allocLog curr listSize okLog).2.ledger.Holds
      (k.Repointed curr { k.tasks curr with
        restrictionsList := (k.allocList curr listSize true).1
        logList := (k.allocLog curr listSize okLog).1 }) := by
  by_cases hl : (k.tasks curr).logList = none
  · simp only [allocLog, hl, if_true]
    refine (holds_kmalloc (holds_allocList ho ha listSize true) _ okLog).congr fun o b => ?_
    obtain ⟨t, s⟩ := o
    by_cases ht : t = curr
    · cases s <;> simp [Repointed, Task.pointer, ht, hl]
    · simp [Repointed, ht]
  · simp only [allocLog, hl, if_false]
    exact holds_allocList ho ha listSize true

/-- The allocation of a log succeeds if it is asked for. -/
def LogAllocated (k : Kernel) (curr : ℕ) (ok okLog : Bool) : Prop :=
  ok = true → (k.tasks curr).logList = none → okLog = true

theorem allocLog_ne_none (h : k.LogAllocated curr true okLog) :
    (k.allocLog curr listSize okLog).1 ≠ none := by
  by_cases hl : (k.tasks curr).logList = none
  · simp [allocLog, hl, h rfl hl, kmalloc]
  · simp [allocLog, hl]

theorem owned_replaceList (ho : k.Owned) (ha : k.Alive curr) (h : k.LogAllocated curr ok okLog) :
    (k.replaceList curr level user listSize ok okLog).2.Owned := by
  cases ok with
  | false =>
    rw [replaceList_noList]
    exact owned_setTask ho (sameTasks_kfree k _) rfl ha (holds_dropList ho ha)
  | true =>
    rw [replaceList_list, if_neg (allocLog_ne_none h)]
    refine owned_setTask ho
      ((sameTasks_allocLog k curr listSize okLog).trans (sameTasks_copyFromUser _ _ _ _)) rfl ha ?_
    rw [ledger_copyFromUser]
    exact holds_allocLog ho ha listSize okLog

/-- The error path that frees the new list leaves a pointer to it behind. -/
theorem replaceList_dangling (ha : k.Alive curr) (h : ¬ k.LogAllocated curr ok okLog) :
    (k.replaceList curr level user listSize ok okLog).2.Alive curr ∧
      ((k.replaceList curr level user listSize ok okLog).2.tasks curr).restrictionsList =
        some k.nextBuffer ∧
      ((k.replaceList curr level user listSize ok okLog).2.buffers k.nextBuffer).frees ≠ 0 := by
  simp only [LogAllocated, not_forall] at h
  obtain ⟨rfl, hl, hok⟩ := h
  have hok : okLog = false := by simpa using hok
  subst hok
  have hlog : (k.allocLog curr listSize false).1 = none := by simp [allocLog, hl, kmalloc]
  have hnext : (k.dropList curr).nextBuffer = k.nextBuffer := by
    unfold dropList
    cases (k.tasks curr).restrictionsList <;> rfl
  have hlist : (k.allocList curr listSize true).1 = some k.nextBuffer := congrArg some hnext
  have hs := (sameTasks_allocLog k curr listSize false).trans (sameTasks_kfree _ (some k.nextBuffer))
  rw [replaceList_list, if_pos hlog, hlist]
  refine ⟨?_, by simp, ?_⟩
  · simpa [Alive, setTask, hs.pidHash] using ha
  · simp [kfree, setBuffer, setTask]

end ReplaceList

end Kernel

end OperationSystems.Restrict
