import Mathlib

/-!
# System call restrictions

The restriction fields of `task_struct`, the buffers that they point to, and
the system calls of `hw1_syscalls.c` with `syscall_check`, `do_fork` and
`release_task` as far as they touch these. Whether a `kmalloc` succeeds is an
input of the call that makes it. Buffers are numbered in the order of their
allocation and are never handed out twice, so that a second `kfree` or a use
after `kfree` is seen as such. The `errno` variable of the kernel is left out:
nothing reads it back.
-/

namespace OperationSystems.Restrict

/-- `scr`. -/
structure SysCallRestriction where
  syscallNum : ℤ
  restrictionThreshold : ℤ
deriving DecidableEq

/-- `fai`. -/
structure ForbiddenActivityInfo where
  syscallNum : ℤ
  syscallRestrictionThreshold : ℤ
  procRestrictionLevel : ℤ
  time : ℤ
deriving DecidableEq

/-- The fields added to `task_struct`, with `none` for `NULL`. -/
structure Task where
  pid : ℕ
  procRestrictionLevel : ℤ
  restrictionsList : Option ℕ
  restrictionsListSize : ℤ
  logList : Option ℕ
  logListSize : ℤ
deriving DecidableEq

inductive Slot where
  | restrictionsList
  | logList
deriving DecidableEq

def Task.pointer (t : Task) : Slot → Option ℕ
  | .restrictionsList => t.restrictionsList
  | .logList => t.logList

/-- Memory from `kmalloc`, read either as restrictions or as log entries.
`frees` counts the calls of `kfree`, and `owner` is the task and the pointer
that it was asked for. -/
structure Buffer where
  bytes : ℕ
  restrictions : ℕ → SysCallRestriction
  entries : ℕ → ForbiddenActivityInfo
  owner : ℕ × Slot
  frees : ℕ

/-- Tasks are named by their `task_struct`; `pidHash` finds the live ones. -/
structure Kernel where
  tasks : ℕ → Task
  pidHash : ℕ → Option ℕ
  nextTask : ℕ
  buffers : ℕ → Buffer
  nextBuffer : ℕ

inductive Fault where
  | nullPointer
  | freedMemory (b : ℕ)
  | outOfBounds (i : ℤ)
  | noSuchTask
deriving DecidableEq

abbrev Result := Except Fault

def esrch : ℤ := 3
def enomem : ℤ := 12
def einval : ℤ := 22

def restListSize : ℕ := 100
def sizeofScr : ℕ := 8
def sizeofFai : ℕ := 16

/-- A 32-bit `int` after an increment. -/
def wrapInt (n : ℤ) : ℤ := Int.bmod n (2 ^ 32)

namespace Kernel

def setTask (k : Kernel) (t : ℕ) (v : Task) : Kernel := { k with tasks := Function.update k.tasks t v }

def setBuffer (k : Kernel) (b : ℕ) (v : Buffer) : Kernel :=
  { k with buffers := Function.update k.buffers b v }

/-- `find_task_by_pid` for an `int` that is not negative. -/
def findTaskByPid (k : Kernel) (pid : ℤ) : Option ℕ := k.pidHash pid.toNat

/-- `kmalloc` of `bytes` bytes. What the memory holds is arbitrary, and so is its size from the
request up to what a `size_t` counts. -/
def kmalloc (k : Kernel) (owner : ℕ × Slot) (bytes : ℕ) (ok : Bool) : Option ℕ × Kernel :=
  if ok then
    (some k.nextBuffer,
      { k.setBuffer k.nextBuffer
          { k.buffers k.nextBuffer with
            bytes := max bytes ((k.buffers k.nextBuffer).bytes % 2 ^ 32), owner := owner, frees := 0 } with
        nextBuffer := k.nextBuffer + 1 })
  else (none, k)

/-- `kfree` of a pointer, which does nothing on `NULL`. -/
def kfree (k : Kernel) : Option ℕ → Kernel
  | none => k
  | some b => k.setBuffer b { k.buffers b with frees := (k.buffers b).frees + 1 }

/-- The buffer behind a pointer. -/
def deref (k : Kernel) : Option ℕ → Result Buffer
  | none => .error .nullPointer
  | some b => if (k.buffers b).frees = 0 then .ok (k.buffers b) else .error (.freedMemory b)

/-- `restrictions_list[i]`. -/
def restriction (k : Kernel) (p : Option ℕ) (i : ℕ) : Result SysCallRestriction := do
  let b ← k.deref p
  if (i + 1) * sizeofScr ≤ b.bytes then return b.restrictions i else .error (.outOfBounds i)

/-- `log_list[i]`. -/
def logEntry (k : Kernel) (p : Option ℕ) (i : ℤ) : Result ForbiddenActivityInfo := do
  let b ← k.deref p
  if 0 ≤ i ∧ (i + 1) * sizeofFai ≤ b.bytes then return b.entries i.toNat
  else .error (.outOfBounds i)

/-- An assignment to `log_list[i]`. -/
def setLogEntry (k : Kernel) (p : Option ℕ) (i : ℤ) (v : ForbiddenActivityInfo) : Result Kernel := do
  let b ← k.deref p
  if 0 ≤ i ∧ (i + 1) * sizeofFai ≤ b.bytes then
    return k.setBuffer (p.getD 0) { b with entries := Function.update b.entries i.toNat v }
  else .error (.outOfBounds i)

/-- The size in bytes of a list of `n` restrictions, as a 32-bit `size_t`. -/
def listBytes (n : ℤ) : ℕ := n.toNat * sizeofScr % 2 ^ 32

/-- `copy_from_user` into the list that was just allocated. -/
def copyFromUser (k : Kernel) (p : Option ℕ) (user : ℕ → SysCallRestriction) (bytes : ℕ) : Kernel :=
  match p with
  | none => k
  | some b =>
    k.setBuffer b { k.buffers b with
      restrictions := fun i =>
        if (i + 1) * sizeofScr ≤ bytes then user i else (k.buffers b).restrictions i }

/-- `sys_sc_restrict` after its checks. -/
def replaceList (curr : ℕ) (procRestrictionLevel : ℤ) (user : ℕ → SysCallRestriction) (listSize : ℤ)
    (ok okLog : Bool) (k : Kernel) : ℤ × Kernel :=
  let k := k.kfree (k.tasks curr).restrictionsList
  let (list, k) := k.kmalloc (curr, .restrictionsList) (listBytes listSize) ok
  let k := k.setTask curr { k.tasks curr with restrictionsList := list }
  if list = none then (-enomem, k)
  else
    let (log, k) :=
      if (k.tasks curr).logList = none then
        k.kmalloc (curr, .logList) (restListSize * sizeofFai) okLog
      else ((k.tasks curr).logList, k)
    let k := k.setTask curr { k.tasks curr with logList := log }
    -- the error path frees the new list and leaves the pointer to it in place
    if log = none then (-enomem, k.kfree list)
    else
      let k := k.copyFromUser list user (listBytes listSize)
      (0, k.setTask curr { k.tasks curr with
        procRestrictionLevel := procRestrictionLevel
        restrictionsListSize := listSize })

def sysScRestrict (pid procRestrictionLevel : ℤ) (user : ℕ → SysCallRestriction) (listSize : ℤ)
    (ok okLog : Bool) (k : Kernel) : ℤ × Kernel :=
  if pid < 0 then (-esrch, k)
  else match k.findTaskByPid pid with
  | none => (-esrch, k)
  | some curr =>
    if procRestrictionLevel < 0 ∨ procRestrictionLevel > 2 then (-einval, k)
    else if listSize < 0 then (-einval, k)
    else k.replaceList curr procRestrictionLevel user listSize ok okLog

def sysSetProcRestriction (pid procRestrictionLevel : ℤ) (k : Kernel) : ℤ × Kernel :=
  if pid < 0 then (-esrch, k)
  else match k.findTaskByPid pid with
  | none => (-esrch, k)
  | some curr =>
    if procRestrictionLevel < 0 ∨ procRestrictionLevel > 2 then (-einval, k)
    else (0, k.setTask curr { k.tasks curr with procRestrictionLevel := procRestrictionLevel })

/-- The `for` loop of `syscall_check` from index `i` on; `fuel` is what is left of the list, and
`jiffies` is the clock as an `int`, as the entry stores it. -/
def checkLoop (num : ℤ) (curr : ℕ) (jiffies : ℤ) : ℕ → ℕ → Kernel → Result (ℤ × Kernel)
  | 0, _, k => .ok (0, k)
  | fuel + 1, i, k => do
    let t := k.tasks curr
    let r ← k.restriction t.restrictionsList i
    if r.syscallNum = num then
      if r.restrictionThreshold ≤ t.procRestrictionLevel then
        return (0, k)
      else if t.logList ≠ none then
        let index := t.logListSize.tmod 100
        let k ← k.setLogEntry t.logList index
          { syscallNum := num
            syscallRestrictionThreshold := r.restrictionThreshold
            procRestrictionLevel := t.procRestrictionLevel
            time := jiffies }
        return (-1, k.setTask curr { t with logListSize := wrapInt (t.logListSize + 1) })
      else
        checkLoop num curr jiffies fuel (i + 1) k
    else
      checkLoop num curr jiffies fuel (i + 1) k

/-- `syscall_check`, run before every system call of `curr`. -/
def syscallCheck (num : ℤ) (curr : ℕ) (jiffies : ℤ) (k : Kernel) : Result (ℤ × Kernel) :=
  if (k.tasks curr).restrictionsListSize < 1 then .ok (0, k)
  else checkLoop num curr jiffies (k.tasks curr).restrictionsListSize.toNat 0 k

/-- The variables of the copy loops of `sys_get_process_log`. `toUsr` holds
`none` where nothing was written; it also takes the writes behind the buffer. -/
structure LogCopy where
  i : ℤ
  j : ℤ
  count : ℤ
  toUsr : ℤ → Option ForbiddenActivityInfo

/-- A copy loop that runs while `i < bound` and `goOn count`; `fuel` is `bound - i`. -/
def copyLoop (k : Kernel) (log : Option ℕ) (goOn : ℤ → Bool) : ℕ → LogCopy → Result LogCopy
  | 0, c => .ok c
  | fuel + 1, c =>
    if goOn c.count then do
      let e ← k.logEntry log c.i
      copyLoop k log goOn fuel
        { i := c.i + 1, j := c.j + 1, count := c.count + 1
          toUsr := Function.update c.toUsr c.j (some e) }
    else .ok c

/-- The error code and, on success, what `copy_to_user` hands over, by index. -/
def sysGetProcessLog (pid size : ℤ) (ok : Bool) (k : Kernel) :
    Result (ℤ × (ℤ → Option ForbiddenActivityInfo)) :=
  let nothing : ℤ → Option ForbiddenActivityInfo := fun _ => none
  if pid < 0 then .ok (-esrch, nothing)
  else match k.findTaskByPid pid with
  | none => .ok (-esrch, nothing)
  | some curr =>
    let t := k.tasks curr
    if size > t.logListSize ∨ size < 0 then .ok (-einval, nothing)
    else if ok = false then .ok (-enomem, nothing)
    else do
      let index := if t.logListSize < 100 then t.logListSize - size
        else restListSize - (size - t.logListSize.tmod 100)
      let endOfLog := if t.logListSize < 100 then t.logListSize else restListSize
      let c ← k.copyLoop t.logList (fun _ => true) (endOfLog - index).toNat
        { i := index, j := 0, count := 0, toUsr := nothing }
      let c ← if c.count < size then
          k.copyLoop t.logList (fun count => decide (count ≤ size)) t.logListSize.toNat
            { c with i := 0 }
        else pure c
      return (0, fun j => if 0 ≤ j ∧ j < size then c.toUsr j else none)

/-- `do_fork`, which fails or makes a child with a free pid. The child is a copy
of its parent with the restriction fields cleared. -/
def doFork (current : ℕ) (newPid : Option ℕ) (k : Kernel) : Kernel :=
  match newPid with
  | none => k
  | some pid =>
    { k.setTask k.nextTask { k.tasks current with
        pid := pid
        procRestrictionLevel := 0
        logListSize := 0
        restrictionsList := none
        logList := none
        restrictionsListSize := 0 } with
      pidHash := Function.update k.pidHash pid (some k.nextTask)
      nextTask := k.nextTask + 1 }

def releaseTask (t : ℕ) (k : Kernel) : Kernel :=
  let k := k.kfree (k.tasks t).logList
  let k := k.kfree (k.tasks t).restrictionsList
  { k.setTask t { k.tasks t with pid := 0 } with
    pidHash := Function.update k.pidHash (k.tasks t).pid none }

/-- Tasks that `find_task_by_pid` can find. -/
def Alive (k : Kernel) (t : ℕ) : Prop := k.pidHash (k.tasks t).pid = some t

instance (k : Kernel) (t : ℕ) : Decidable (k.Alive t) :=
  inferInstanceAs (Decidable (k.pidHash (k.tasks t).pid = some t))

end Kernel

inductive Event where
  | scRestrict (pid procRestrictionLevel : ℤ) (user : ℕ → SysCallRestriction) (listSize : ℤ)
      (ok okLog : Bool)
  | setProcRestriction (pid procRestrictionLevel : ℤ)
  | syscall (num : ℤ) (curr : ℕ) (jiffies : ℤ)
  | getProcessLog (pid size : ℤ) (ok : Bool)
  | fork (current : ℕ) (newPid : Option ℕ)
  | release (t : ℕ)

namespace Kernel

/-- One event, with the value that the system call returns. A task that runs,
forks or is released is a live one, and a new pid is free. -/
def step (k : Kernel) : Event → Result (ℤ × Kernel)
  | .scRestrict pid level user listSize ok okLog =>
    .ok (k.sysScRestrict pid level user listSize ok okLog)
  | .setProcRestriction pid level => .ok (k.sysSetProcRestriction pid level)
  | .syscall num curr jiffies =>
    if k.Alive curr then k.syscallCheck num curr jiffies else .error .noSuchTask
  | .getProcessLog pid size ok => do
    let r ← k.sysGetProcessLog pid size ok
    return (r.1, k)
  | .fork current newPid =>
    if k.Alive current ∧ ∀ pid ∈ newPid, k.pidHash pid = none then .ok (0, k.doFork current newPid)
    else .error .noSuchTask
  | .release t => if k.Alive t then .ok (0, k.releaseTask t) else .error .noSuchTask

def Step (k : Kernel) (e : Event) (k' : Kernel) : Prop := ∃ r, k.step e = .ok (r, k')

/-- What a step has been asked before and what it leaves, event by event. -/
inductive Move (k k' : Kernel) : Event → Prop where
  | scRestrict (pid level : ℤ) (user : ℕ → SysCallRestriction) (listSize : ℤ) (ok okLog : Bool)
      (hk : k' = (k.sysScRestrict pid level user listSize ok okLog).2) :
      Move k k' (.scRestrict pid level user listSize ok okLog)
  | setProcRestriction (pid level : ℤ) (hk : k' = (k.sysSetProcRestriction pid level).2) :
      Move k k' (.setProcRestriction pid level)
  | syscall (num : ℤ) (curr : ℕ) (jiffies r : ℤ) (ha : k.Alive curr)
      (hk : k.syscallCheck num curr jiffies = .ok (r, k')) : Move k k' (.syscall num curr jiffies)
  | getProcessLog (pid size : ℤ) (ok : Bool) (hk : k' = k) : Move k k' (.getProcessLog pid size ok)
  | fork (current : ℕ) (newPid : Option ℕ) (ha : k.Alive current)
      (hfree : ∀ pid ∈ newPid, k.pidHash pid = none) (hk : k' = k.doFork current newPid) :
      Move k k' (.fork current newPid)
  | release (t : ℕ) (ha : k.Alive t) (hk : k' = k.releaseTask t) : Move k k' (.release t)

theorem Step.move {k k' : Kernel} {e : Event} (h : k.Step e k') : Move k k' e := by
  obtain ⟨r, h⟩ := h
  cases e with
  | scRestrict => exact .scRestrict _ _ _ _ _ _ (congrArg Prod.snd (Except.ok.inj h)).symm
  | setProcRestriction => exact .setProcRestriction _ _ (congrArg Prod.snd (Except.ok.inj h)).symm
  | syscall =>
    simp only [step] at h
    split_ifs at h with ha
    exact .syscall _ _ _ r ha h
  | getProcessLog =>
    simp only [step, bind, Except.bind] at h
    split at h
    · cases h
    · exact .getProcessLog _ _ _ (Prod.mk.inj (Except.ok.inj h)).2.symm
  | fork =>
    simp only [step] at h
    split_ifs at h with ha
    exact .fork _ _ ha.1 ha.2 (Prod.mk.inj (Except.ok.inj h)).2.symm
  | release =>
    simp only [step] at h
    split_ifs at h with ha
    exact .release _ ha (Prod.mk.inj (Except.ok.inj h)).2.symm

/-- A step as far as it succeeds. -/
def next (k : Kernel) (e : Event) : Option Kernel :=
  match k.step e with
  | .ok (_, k') => some k'
  | .error _ => none

theorem step_of_next {k k' : Kernel} {e : Event} (h : k.next e = some k') : k.Step e k' := by
  unfold next at h
  split at h
  · rename_i r k₁ hs
    cases h
    exact ⟨r, hs⟩
  · cases h

/-- A step that is taken under a condition only. -/
def nextIf (P : Kernel → Event → Prop) [∀ k e, Decidable (P k e)] (k : Kernel) (e : Event) :
    Option Kernel :=
  if P k e then k.next e else none

theorem step_of_nextIf {P : Kernel → Event → Prop} [∀ k e, Decidable (P k e)] {k k' : Kernel}
    {e : Event} (h : nextIf P k e = some k') : P k e ∧ k.Step e k' := by
  unfold nextIf at h
  split_ifs at h with hp
  exact ⟨hp, step_of_next h⟩

/-- A kernel in which nothing was allocated for any task yet. -/
structure Boot (k : Kernel) : Prop where
  hashed : ∀ p t, k.pidHash p = some t → (k.tasks t).pid = p ∧ t < k.nextTask
  restrictionsList : ∀ t, k.Alive t → (k.tasks t).restrictionsList = none
  restrictionsListSize : ∀ t, k.Alive t → (k.tasks t).restrictionsListSize = 0
  logList : ∀ t, k.Alive t → (k.tasks t).logList = none
  logListSize : ∀ t, k.Alive t → (k.tasks t).logListSize = 0
  nextBuffer : k.nextBuffer = 0

end Kernel

end OperationSystems.Restrict
