import Mathlib

/-!
# The scheduler with `SCHED_SHORT`

The runqueue of one CPU and the scheduling fields of the tasks, with the
functions of `sched.c` that move tasks between the queues, `sys_setpriority` of
`sys.c` and the scheduling part of `do_fork`. Tasks are named by their pid, and
0 is the swapper. The time `jiffies` is an argument of the functions that read
it. What nothing here reads back is left out: `nr_switches`,
`nr_uninterruptible`, `first_time_slice`, `tgid` and the statistics.
-/

namespace OperationSystems.Sched

inductive Policy where
  | other
  | fifo
  | rr
  | short
deriving DecidableEq

/-- `SCHED_OTHER`, `SCHED_FIFO`, `SCHED_RR` and `SCHED_SHORT`. -/
def Policy.ofInt : ℤ → Option Policy
  | 0 => some .other
  | 1 => some .fifo
  | 2 => some .rr
  | 5 => some .short
  | _ => none

def schedShort : ℤ := 5

inductive TaskState where
  | running
  | interruptible
  | uninterruptible
  | zombie
  | stopped
deriving DecidableEq

def maxRtPrio : ℤ := 100
def maxUserRtPrio : ℤ := 100
def maxPrio : ℤ := 140

def eperm : ℤ := 1
def esrch : ℤ := 3
def eagain : ℤ := 11
def enomem : ℤ := 12
def eacces : ℤ := 13
def efault : ℤ := 14
def einval : ℤ := 22

/-- The timer frequency `HZ`, for which the arithmetic on requested times stays in an `int`. -/
structure Clock where
  hz : ℕ
  pos : 0 < hz
  small : 3000 * hz < 2 ^ 31

/-- Differences and sums of 32-bit unsigned numbers. -/
def sub32 (a b : ℕ) : ℕ := (a + (2 ^ 32 - b % 2 ^ 32)) % 2 ^ 32
def add32 (a b : ℕ) : ℕ := (a + b) % 2 ^ 32

structure Task where
  state : TaskState
  policy : Policy
  prio : ℤ
  staticPrio : ℤ
  array : Option (Fin 3)
  sleepAvg : ℕ
  sleepTimestamp : ℕ
  timeSlice : ℕ
  rtPriority : ℕ
  requestedTime : ℕ
  timeLeft : ℕ
  shortPrio : ℤ
  needResched : Bool
  uid : ℕ
  euid : ℕ
  capSysNice : Bool
deriving DecidableEq

structure PrioArray where
  nrActive : ℤ
  bitmap : ℤ → Bool
  queue : ℤ → List ℕ

/-- The runqueue, with the tasks and the pids that `find_task_by_pid` knows. -/
structure Runqueue where
  nrRunning : ℤ
  expiredTimestamp : ℕ
  curr : ℕ
  idle : ℕ
  active : Fin 3
  expired : Fin 3
  shortPr : Fin 3
  arrays : Fin 3 → PrioArray
  tasks : ℕ → Task
  hashed : ℕ → Bool

structure SchedParam where
  schedPriority : ℤ
  requestedTime : ℤ
  schedShortPrio : ℤ
deriving DecidableEq

/-- The parameters of `SCHED_SHORT` are out of range. -/
def SchedParam.Bad (lp : SchedParam) : Prop :=
  lp.requestedTime < 1 ∨ lp.requestedTime > 3000 ∨ lp.schedShortPrio < 0 ∨ lp.schedShortPrio > 139

instance (lp : SchedParam) : Decidable (lp.Bad) :=
  inferInstanceAs (Decidable (_ ∨ _ ∨ _ ∨ _))

/-- The pointer to the parameters: `NULL`, unreadable or readable. -/
inductive UserParam where
  | null
  | bad
  | readable (lp : SchedParam)
deriving DecidableEq

def niceToPrio (nice : ℤ) : ℤ := maxRtPrio + nice + 20
def prioToNice (prio : ℤ) : ℤ := prio - maxRtPrio - 20

namespace Task

def nice (t : Task) : ℤ := prioToNice t.staticPrio

/-- `rt_task`. -/
def Rt (t : Task) : Prop := t.policy ≠ .short ∧ t.prio < maxRtPrio

instance (t : Task) : Decidable t.Rt := inferInstanceAs (Decidable (_ ∧ _))

/-- The number of the queue of a task. -/
def queuePrio (t : Task) : ℤ := if t.policy = .short then t.shortPrio else t.prio

def effectivePrio (c : Clock) (t : Task) : ℤ :=
  if t.policy = .short then t.shortPrio
  else
    let bonus : ℤ := ((40 * 25 * t.sleepAvg % 2 ^ 32 / (2 * c.hz) / 100 : ℕ) : ℤ) - 40 * 25 / 100 / 2
    let prio := t.staticPrio - bonus
    let prio := if prio < maxRtPrio then maxRtPrio else prio
    if prio > maxPrio - 1 then maxPrio - 1 else prio

/-- `TASK_TIMESLICE`. -/
def timesliceOf (c : Clock) (t : Task) : ℕ :=
  let minTimeslice : ℤ := 10 * c.hz / 1000
  let maxTimeslice : ℤ := 300 * c.hz / 1000
  ((minTimeslice + ((maxTimeslice - minTimeslice) * (maxPrio - 1 - t.staticPrio)).tdiv 39) %
    2 ^ 32).toNat

/-- `TASK_INTERACTIVE`. -/
def Interactive (t : Task) : Prop :=
  t.prio ≤ t.staticPrio - ((t.nice * (40 * 25 / 100)).tdiv 40 + 2)

instance (t : Task) : Decidable t.Interactive := inferInstanceAs (Decidable (_ ≤ _))

/-- The error of `setscheduler` for the task `p`, and otherwise the new policy. -/
def checkScheduler (current t : Task) (policy : ℤ) (lp : SchedParam) : Except ℤ Policy :=
  if policy = schedShort ∧ lp.Bad then .error (-einval)
  else if t.policy = .short ∨ (t.policy ≠ .other ∧ policy = schedShort) then .error (-eperm)
  else match if policy < 0 then some t.policy else Policy.ofInt policy with
  | none => .error (-einval)
  | some policy =>
    if policy ≠ .short ∧ (lp.schedPriority < 0 ∨ lp.schedPriority > maxUserRtPrio - 1) then
      .error (-einval)
    else if policy ≠ .short ∧ ¬ (policy = .other ↔ lp.schedPriority = 0) then .error (-einval)
    else if (policy = .fifo ∨ policy = .rr) ∧ current.capSysNice = false then .error (-eperm)
    else if current.euid ≠ t.euid ∧ current.euid ≠ t.uid ∧ current.capSysNice = false then
      .error (-eperm)
    else .ok policy

/-- The fields that `setscheduler` writes. -/
def rescheduled (c : Clock) (policy : Policy) (lp : SchedParam) (t : Task) : Task :=
  let t := { t with policy := policy, rtPriority := (lp.schedPriority % 2 ^ 32).toNat }
  if policy ≠ .other ∧ t.policy ≠ .short then { t with prio := maxUserRtPrio - 1 - t.rtPriority }
  else if policy = .short then
    { t with
      shortPrio := lp.schedShortPrio
      requestedTime := lp.requestedTime.toNat
      timeLeft := if (lp.requestedTime * c.hz).tdiv 1000 = 0 then 1
        else ((lp.requestedTime * c.hz).tdiv 1000).toNat }
  else { t with prio := t.staticPrio }

/-- The child as `do_fork` makes it from its parent. -/
def childOf (jiffies : ℕ) (current : Task) : Task :=
  { current with
    state := .uninterruptible
    array := none
    timeSlice := (current.timeSlice + 1) / 2
    sleepTimestamp := jiffies }

/-- `INIT_TASK`. -/
def initTask (c : Clock) : Task where
  state := .running
  policy := .other
  prio := maxPrio - 20
  staticPrio := maxPrio - 20
  array := none
  sleepAvg := 0
  sleepTimestamp := 0
  timeSlice := c.hz
  rtPriority := 0
  requestedTime := 0
  timeLeft := 0
  shortPrio := -1
  needResched := false
  uid := 0
  euid := 0
  capSysNice := true

end Task

namespace Runqueue

def setTask (rq : Runqueue) (p : ℕ) (t : Task) : Runqueue :=
  { rq with tasks := Function.update rq.tasks p t }

def setArray (rq : Runqueue) (A : Fin 3) (a : PrioArray) : Runqueue :=
  { rq with arrays := Function.update rq.arrays A a }

/-- `resched_task`. -/
def reschedTask (rq : Runqueue) (p : ℕ) : Runqueue :=
  rq.setTask p { rq.tasks p with needResched := true }

/-- `list_del` takes the task out of the list that it is in. -/
def listDel (rq : Runqueue) (p : ℕ) : Runqueue :=
  { rq with arrays := fun A => { rq.arrays A with queue := fun i => ((rq.arrays A).queue i).erase p } }

def dequeueTask (rq : Runqueue) (p : ℕ) (A : Fin 3) : Runqueue :=
  let rq := rq.setArray A { rq.arrays A with nrActive := (rq.arrays A).nrActive - 1 }
  let rq := rq.listDel p
  let i := (rq.tasks p).queuePrio
  if (rq.arrays A).queue i = [] then
    rq.setArray A { rq.arrays A with bitmap := Function.update (rq.arrays A).bitmap i false }
  else rq

def enqueueTask (rq : Runqueue) (p : ℕ) (A : Fin 3) : Runqueue :=
  let i := (rq.tasks p).queuePrio
  let a := rq.arrays A
  let rq := rq.setArray A
    { queue := Function.update a.queue i (a.queue i ++ [p])
      bitmap := Function.update a.bitmap i true
      nrActive := a.nrActive + 1 }
  rq.setTask p { rq.tasks p with array := some A }

def activateTask (c : Clock) (jiffies : ℕ) (rq : Runqueue) (p : ℕ) : Runqueue :=
  let t := rq.tasks p
  let sleepTime := sub32 jiffies t.sleepTimestamp
  let A := if t.policy = .short then rq.shortPr else rq.active
  let t :=
    if ¬ t.Rt ∧ sleepTime ≠ 0 ∧ t.policy ≠ .short then
      let sleepAvg := add32 t.sleepAvg sleepTime
      let sleepAvg := if sleepAvg > 2 * c.hz then 2 * c.hz else sleepAvg
      let t := { t with sleepAvg := sleepAvg }
      { t with prio := t.effectivePrio c }
    else t
  let rq := (rq.setTask p t).enqueueTask p A
  { rq with nrRunning := rq.nrRunning + 1 }

/-- `deactivate_task` of a task whose `array` is `A`. -/
def deactivateTask (rq : Runqueue) (p : ℕ) (A : Fin 3) : Runqueue :=
  let rq := { rq with nrRunning := rq.nrRunning - 1 }
  let rq := rq.dequeueTask p A
  rq.setTask p { rq.tasks p with array := none }

/-- Whether the task that was just woken preempts the current one. -/
def Preempts (p curr : Task) : Prop :=
  (p.policy = .short ∧ curr.policy = .other) ∨
    (p.policy = .short ∧ curr.policy = .short ∧ p.shortPrio < curr.shortPrio) ∨
    (p.Rt ∧ curr.policy = .short)

instance (p curr : Task) : Decidable (Preempts p curr) := inferInstanceAs (Decidable (_ ∨ _ ∨ _))

def tryToWakeUp (c : Clock) (jiffies : ℕ) (rq : Runqueue) (p : ℕ) : Bool × Runqueue :=
  let (success, rq) :=
    if (rq.tasks p).array = none then
      let rq := rq.activateTask c jiffies p
      let rq :=
        if Preempts (rq.tasks p) (rq.tasks rq.curr) then rq.reschedTask rq.curr
        else if (rq.tasks p).prio < (rq.tasks rq.curr).prio then rq.reschedTask rq.curr
        else rq
      (true, rq)
    else (false, rq)
  (success, rq.setTask p { rq.tasks p with state := .running })

def wakeUpForkedProcess (c : Clock) (jiffies : ℕ) (rq : Runqueue) (p : ℕ) : Runqueue :=
  let rq := rq.setTask p { rq.tasks p with state := .running }
  let rq :=
    if ¬ (rq.tasks p).Rt then
      let current := rq.tasks rq.curr
      let rq := rq.setTask rq.curr { current with
        sleepAvg := current.sleepAvg * 100 % 2 ^ 32 / 100 }
      let t := rq.tasks p
      let t := { t with sleepAvg := t.sleepAvg * 95 % 2 ^ 32 / 100 }
      rq.setTask p { t with prio := t.effectivePrio c }
    else rq
  rq.activateTask c jiffies p

/-- `EXPIRED_STARVING`. -/
def ExpiredStarving (c : Clock) (jiffies : ℕ) (rq : Runqueue) : Prop :=
  rq.expiredTimestamp ≠ 0 ∧
    sub32 jiffies rq.expiredTimestamp ≥ (2 * c.hz * rq.nrRunning.toNat + 1) % 2 ^ 32

instance (c : Clock) (jiffies : ℕ) (rq : Runqueue) : Decidable (ExpiredStarving c jiffies rq) :=
  inferInstanceAs (Decidable (_ ∧ _))

/-- The branch of `scheduler_tick` for real-time tasks. -/
def tickRt (c : Clock) (rq : Runqueue) (p : ℕ) : Runqueue :=
  let t := rq.tasks p
  if t.policy = .rr then
    let t := { t with timeSlice := sub32 t.timeSlice 1 }
    let rq := rq.setTask p t
    if t.timeSlice = 0 then
      let rq := rq.setTask p { t with timeSlice := t.timesliceOf c, needResched := true }
      (rq.dequeueTask p rq.active).enqueueTask p rq.active
    else rq
  else rq

/-- The branch of `scheduler_tick` at the label `short_proc`. -/
def tickShort (c : Clock) (rq : Runqueue) (p : ℕ) : Runqueue :=
  let t := rq.tasks p
  let t := { t with timeLeft := sub32 t.timeLeft 1 }
  let rq := rq.setTask p t
  if t.timeLeft = 0 then
    let rq := rq.dequeueTask p rq.shortPr
    let t := { t with
      policy := .other
      staticPrio := if t.staticPrio + 7 < maxPrio - 1 then t.staticPrio + 7 else maxPrio - 1
      sleepAvg := c.hz
      needResched := true }
    let t := { t with prio := t.effectivePrio c }
    let t := { t with timeSlice := t.timesliceOf c }
    (rq.setTask p t).enqueueTask p rq.active
  else rq

/-- The rest of `scheduler_tick`, for `SCHED_OTHER`. -/
def tickOther (c : Clock) (jiffies : ℕ) (rq : Runqueue) (p : ℕ) : Runqueue :=
  let t := rq.tasks p
  let t := { t with
    sleepAvg := if t.sleepAvg ≠ 0 then t.sleepAvg - 1 else t.sleepAvg
    timeSlice := sub32 t.timeSlice 1 }
  let rq := rq.setTask p t
  if t.timeSlice = 0 then
    let rq := rq.dequeueTask p rq.active
    let t := { t with needResched := true, prio := t.effectivePrio c, timeSlice := t.timesliceOf c }
    let rq := rq.setTask p t
    if ¬ t.Interactive ∨ ExpiredStarving c jiffies rq then
      let rq := if rq.expiredTimestamp = 0 then { rq with expiredTimestamp := jiffies } else rq
      rq.enqueueTask p rq.expired
    else rq.enqueueTask p rq.active
  else rq

def schedulerTick (c : Clock) (jiffies : ℕ) (rq : Runqueue) : Runqueue :=
  let p := rq.curr
  if p = rq.idle then rq
  else if (rq.tasks p).array ≠ some rq.active ∧ (rq.tasks p).array ≠ some rq.shortPr then
    rq.reschedTask p
  else if (rq.tasks p).Rt then rq.tickRt c p
  else if (rq.tasks p).policy = .short then rq.tickShort c p
  else rq.tickOther c jiffies p

/-- The `switch` of `schedule`, which dequeues the previous task unless it stays runnable;
`signal` says that a signal is pending for it. -/
def deactivatePrev (jiffies : ℕ) (signal : Bool) (rq : Runqueue) : Option Runqueue :=
  let prev := rq.curr
  let rq := rq.setTask prev { rq.tasks prev with sleepTimestamp := jiffies }
  if (rq.tasks prev).state = .running then some rq
  else if (rq.tasks prev).state = .interruptible ∧ signal = true then
    some (rq.setTask prev { rq.tasks prev with state := .running })
  else match (rq.tasks prev).array with
  | none => none
  | some A => some (rq.deactivateTask prev A)

/-- `sched_find_first_bit` on the 160 bits of a bitmap. -/
def findFirstBit (bitmap : ℤ → Bool) : ℕ :=
  ((List.range 160).find? fun i : ℕ => bitmap i).getD 160

/-- The first task of `array->queue + idx`. -/
def listEntry (a : PrioArray) (idx : ℕ) : Option ℕ :=
  if idx < 140 then (a.queue idx).head? else none

/-- The exchange of the active and the expired array. -/
def switchArrays (rq : Runqueue) : Runqueue :=
  if (rq.arrays rq.active).nrActive = 0 then
    { rq with active := rq.expired, expired := rq.active, expiredTimestamp := 0 }
  else rq

/-- The choice of the next task. -/
def pickNext (rq : Runqueue) : Option (ℕ × Runqueue) :=
  if rq.nrRunning = 0 then some (rq.idle, { rq with expiredTimestamp := 0 })
  else
    let rq := rq.switchArrays
    let array := rq.arrays rq.active
    let idx := findFirstBit array.bitmap
    let next :=
      if maxRtPrio ≤ idx then
        let idxShort := findFirstBit (rq.arrays rq.shortPr).bitmap
        if (idxShort : ℤ) < maxPrio then listEntry (rq.arrays rq.shortPr) idxShort
        else listEntry array idx
      else listEntry array idx
    next.map fun next => (next, rq)

/-- One pass through `schedule`. -/
def schedule (jiffies : ℕ) (signal : Bool) (rq : Runqueue) : Option Runqueue :=
  let prev := rq.curr
  (rq.deactivatePrev jiffies signal).bind fun rq =>
  rq.pickNext.map fun (next, rq) =>
  { rq.setTask prev { rq.tasks prev with needResched := false } with curr := next }

/-- `list_add` behind the first task of a queue; the queue itself may be empty. -/
def listAddSecond (p : ℕ) : List ℕ → List ℕ
  | [] => [p]
  | q :: l => q :: p :: l

/-- `sys_sched_yield` before it calls `schedule`. -/
def yieldCurrent (rq : Runqueue) (A : Fin 3) : Runqueue :=
  let p := rq.curr
  let t := rq.tasks p
  let rq := rq.listDel p
  let a := rq.arrays A
  if t.Rt then rq.setArray A { a with queue := Function.update a.queue t.prio (a.queue t.prio ++ [p]) }
  else if t.policy = .short then
    rq.setArray A { a with queue := Function.update a.queue t.shortPrio (a.queue t.shortPrio ++ [p]) }
  else if a.queue t.prio ≠ [] then
    rq.setArray A { a with queue := Function.update a.queue t.prio (listAddSecond p (a.queue t.prio)) }
  else
    let a := { a with bitmap := Function.update a.bitmap t.prio false }
    let first : ℤ := findFirstBit a.bitmap
    let i := if first = maxPrio ∨ first ≤ t.prio then t.prio else first
    let a := { a with
      queue := Function.update a.queue i (listAddSecond p (a.queue i))
      bitmap := Function.update a.bitmap i true }
    (rq.setTask p { t with prio := i }).setArray A a

def sysSchedYield (jiffies : ℕ) (signal : Bool) (rq : Runqueue) : Option Runqueue :=
  match (rq.tasks rq.curr).array with
  | none => none
  | some A => (rq.yieldCurrent A).schedule jiffies signal

def setUserNice (rq : Runqueue) (p : ℕ) (nice : ℤ) : Runqueue :=
  let t := rq.tasks p
  if t.policy = .short then rq
  else if t.nice = nice ∨ nice < -20 ∨ nice > 19 then rq
  else if t.Rt then rq.setTask p { t with staticPrio := niceToPrio nice }
  else match t.array with
  | none => rq.setTask p { t with staticPrio := niceToPrio nice, prio := niceToPrio nice }
  | some A =>
    let rq := rq.dequeueTask p A
    let rq := rq.setTask p { t with staticPrio := niceToPrio nice, prio := niceToPrio nice }
    let rq := rq.enqueueTask p A
    if niceToPrio nice < (rq.tasks p).staticPrio ∨ p = rq.curr then rq.reschedTask rq.curr else rq

def sysNice (increment : ℤ) (rq : Runqueue) : ℤ × Runqueue :=
  let current := rq.tasks rq.curr
  if current.policy = .short then (-eperm, rq)
  else if increment < 0 ∧ current.capSysNice = false then (-eperm, rq)
  else
    let increment := if increment < -40 then -40 else increment
    let increment := if increment > 40 then 40 else increment
    let nice := prioToNice current.staticPrio + increment
    let nice := if nice < -20 then -20 else nice
    let nice := if nice > 19 then 19 else nice
    (0, rq.setUserNice rq.curr nice)

/-- The body of the loop of `sys_setpriority`. -/
def setpriorityOne (niceval : ℤ) (r : ℤ × Runqueue) (p : ℕ) : ℤ × Runqueue :=
  let (error, rq) := r
  let current := rq.tasks rq.curr
  let t := rq.tasks p
  if t.uid ≠ current.euid ∧ t.uid ≠ current.uid ∧ current.capSysNice = false then (-eperm, rq)
  else
    let error := if error = -esrch then 0 else error
    if niceval < t.nice ∧ current.capSysNice = false then (-eacces, rq)
    else
      let error := if t.policy = .short then -eperm else error
      (error, rq.setUserNice p niceval)

/-- `sys_setpriority` for the tasks `sel` that `proc_sel` selects. -/
def sysSetpriority (which : ℤ) (sel : List ℕ) (niceval : ℤ) (rq : Runqueue) : ℤ × Runqueue :=
  if which > 2 ∨ which < 0 then (-einval, rq)
  else
    let niceval := if niceval < -20 then -20 else niceval
    let niceval := if niceval > 19 then 19 else niceval
    sel.foldl (setpriorityOne niceval) (-esrch, rq)

/-- `find_process_by_pid` for a pid that is not negative. -/
def findProcessByPid (rq : Runqueue) (pid : ℤ) : Option ℕ :=
  if pid = 0 then some rq.curr else if rq.hashed pid.toNat then some pid.toNat else none

def setscheduler (c : Clock) (jiffies : ℕ) (pid policy : ℤ) (param : UserParam) (rq : Runqueue) :
    ℤ × Runqueue :=
  match param with
  | .null => (-einval, rq)
  | .bad => if pid < 0 then (-einval, rq) else (-efault, rq)
  | .readable lp =>
    if pid < 0 then (-einval, rq)
    else match rq.findProcessByPid pid with
    | none => (-esrch, rq)
    | some p =>
      match Task.checkScheduler (rq.tasks rq.curr) (rq.tasks p) policy lp with
      | .error e => (e, rq)
      | .ok policy =>
        let array := (rq.tasks p).array
        let rq := match array with
          | none => rq
          | some A => rq.deactivateTask p A
        let rq := rq.setTask p ((rq.tasks p).rescheduled c policy lp)
        let rq := if array ≠ none then rq.activateTask c jiffies p else rq
        (0, if (rq.tasks p).policy = .short then rq.reschedTask rq.curr else rq)

def sysSchedSetparam (c : Clock) (jiffies : ℕ) (pid : ℤ) (param : UserParam) (rq : Runqueue) :
    ℤ × Runqueue :=
  rq.setscheduler c jiffies pid (-1) param

/-- `sys_sched_getparam` with what it copies to the caller. The buffer on the stack starts as
`lp`, and `ok` says that the copy succeeds. -/
def sysSchedGetparam (pid : ℤ) (null ok : Bool) (lp : SchedParam) (rq : Runqueue) :
    ℤ × Option SchedParam :=
  if null = true ∨ pid < 0 then (-einval, none)
  else match rq.findProcessByPid pid with
  | none => (-esrch, none)
  | some p =>
    let t := rq.tasks p
    let lp := if t.policy = .short then
      { lp with
        schedShortPrio := t.shortPrio
        requestedTime := (t.requestedTime : ℤ).bmod (2 ^ 32) }
      else lp
    let lp := { lp with schedPriority := (t.rtPriority : ℤ).bmod (2 ^ 32) }
    if ok then (0, some lp) else (-efault, none)

/-- Why `do_fork` fails for a task that is not `SCHED_SHORT`: `CLONE_NEWNS` with `CLONE_FS`,
`CLONE_PID` outside the swapper, no memory for the child, or no process or pid left for it. -/
inductive ForkRefusal where
  | flags
  | clonePid
  | memory
  | limit
deriving DecidableEq

def ForkRefusal.error : ForkRefusal → ℤ
  | .flags => -einval
  | .clonePid => -eperm
  | .memory => -enomem
  | .limit => -eagain

/-- `do_fork` with a free pid for the child, or with what it fails for. With `vfork` it
waits for the child. A time slice of 0 is a `BUG`. -/
def doFork (c : Clock) (jiffies : ℕ) (newPid : Except ForkRefusal ℕ) (vfork : Bool) (rq : Runqueue) :
    Option (ℤ × Runqueue) :=
  let current := rq.tasks rq.curr
  if current.policy = .short then some (-eperm, rq)
  else match newPid with
  | .error e => some (e.error, rq)
  | .ok pid =>
    if current.timeSlice = 0 then none
    else
      let rq := rq.setTask pid (current.childOf jiffies)
      let rq := rq.setTask rq.curr { current with timeSlice := current.timeSlice / 2 }
      let rq :=
        if (rq.tasks rq.curr).timeSlice = 0 then
          (rq.setTask rq.curr { rq.tasks rq.curr with timeSlice := 1 }).schedulerTick c jiffies
        else rq
      let rq := { rq with hashed := Function.update rq.hashed pid true }
      let rq := rq.wakeUpForkedProcess c jiffies pid
      some (pid, if vfork then rq else rq.reschedTask rq.curr)

/-- `init_idle`, which the swapper calls for itself. -/
def initIdle (rq : Runqueue) (A : Fin 3) : Runqueue :=
  let p := rq.curr
  let rq := { rq with idle := p }
  let rq := rq.deactivateTask p A
  let rq := rq.setTask p { rq.tasks p with array := none, prio := maxPrio, state := .running }
  rq.reschedTask p

def emptyArray : PrioArray where
  nrActive := 0
  bitmap := fun i => decide (i = maxPrio)
  queue := fun _ => []

/-- The runqueue that `sched_init` sets up before it wakes the swapper. -/
def emptyRunqueue (c : Clock) : Runqueue where
  nrRunning := 0
  expiredTimestamp := 0
  curr := 0
  idle := 0
  active := 0
  expired := 1
  shortPr := 2
  arrays := fun _ => emptyArray
  tasks := fun _ => Task.initTask c
  hashed := fun _ => false

def schedInit (c : Clock) (jiffies : ℕ) : Runqueue :=
  ((emptyRunqueue c).tryToWakeUp c jiffies 0).2

end Runqueue

inductive Event where
  | tryToWakeUp (p : ℕ)
  | wakeUpForkedProcess (p : ℕ)
  | schedulerTick
  | schedule (signal : Bool)
  | sysSchedYield (signal : Bool)
  | setUserNice (p : ℕ) (nice : ℤ)
  | sysNice (increment : ℤ)
  | sysSetpriority (which : ℤ) (sel : List ℕ) (niceval : ℤ)
  | setscheduler (pid policy : ℤ) (param : UserParam)
  | setState (state : TaskState)
  | setCred (uid euid : ℕ) (capSysNice : Bool)
  | doFork (newPid : Except Runqueue.ForkRefusal ℕ) (vfork : Bool)
  | initIdle
deriving DecidableEq

namespace Runqueue

/-- When an event can happen: system calls are made by a task other than the idle one, tasks
that are named exist, and what a fork starts is not on a queue yet. The swapper forks before
it becomes the idle task. -/
def Allowed (rq : Runqueue) : Event → Prop
  | .tryToWakeUp p => rq.hashed p = true
  | .wakeUpForkedProcess p => rq.hashed p = true ∧ (rq.tasks p).array = none
  | .schedulerTick => True
  | .schedule _ => True
  | .sysSchedYield _ => rq.curr ≠ rq.idle
  | .setUserNice p _ => rq.hashed p = true
  | .sysNice _ => rq.curr ≠ rq.idle
  | .sysSetpriority _ sel _ => rq.curr ≠ rq.idle ∧ ∀ p ∈ sel, rq.hashed p = true
  | .setscheduler .. => rq.curr ≠ rq.idle
  | .setState _ => rq.curr ≠ rq.idle
  | .setCred .. => rq.curr ≠ rq.idle
  | .doFork newPid _ => (rq.tasks rq.curr).array ≠ none ∧
    ∀ p ∈ newPid.toOption, rq.hashed p = false ∧ p ≠ rq.idle
  | .initIdle => rq.curr = rq.idle ∧ (rq.tasks rq.curr).array ≠ none

/-- One event at the time `jiffies`, with what it returns; `none` where the kernel goes wrong. -/
def step (c : Clock) (jiffies : ℕ) (rq : Runqueue) : Event → Option (ℤ × Runqueue)
  | .tryToWakeUp p =>
    let (success, rq) := rq.tryToWakeUp c jiffies p
    some (if success then 1 else 0, rq)
  | .wakeUpForkedProcess p => some (0, rq.wakeUpForkedProcess c jiffies p)
  | .schedulerTick => some (0, rq.schedulerTick c jiffies)
  | .schedule signal => (rq.schedule jiffies signal).map fun rq => (0, rq)
  | .sysSchedYield signal => (rq.sysSchedYield jiffies signal).map fun rq => (0, rq)
  | .setUserNice p nice => some (0, rq.setUserNice p nice)
  | .sysNice increment => some (rq.sysNice increment)
  | .sysSetpriority which sel niceval => some (rq.sysSetpriority which sel niceval)
  | .setscheduler pid policy param => some (rq.setscheduler c jiffies pid policy param)
  | .setState state => some (0, rq.setTask rq.curr { rq.tasks rq.curr with state := state })
  | .setCred uid euid capSysNice =>
    some (0, rq.setTask rq.curr { rq.tasks rq.curr with
      uid := uid, euid := euid, capSysNice := capSysNice })
  | .doFork newPid vfork => rq.doFork c jiffies newPid vfork
  | .initIdle =>
    match (rq.tasks rq.curr).array with
    | none => none
    | some A => some (0, rq.initIdle A)

def Step (c : Clock) (rq : Runqueue) (e : ℕ × Event) (rq' : Runqueue) : Prop :=
  rq.Allowed e.2 ∧ ∃ r, rq.step c e.1 e.2 = some (r, rq')

end Runqueue

end OperationSystems.Sched
