import Mathlib
import OperationSystems.Lib.HeadedList
import OperationSystems.Lib.Run
import OperationSystems.Sched.Model
import OperationSystems.Proc.Pid

/-!
# The process table

The fields of `task_struct` by which tasks know each other, with the part of
`do_fork` that numbers and links the child, `do_exit` with `exit_notify`,
`sys_wait4` with `release_task`, `reparent_to_init` and `daemonize` of
`exit.c`, and `sys_setpgid` and `sys_setsid` of `sys.c`. Tasks are named by the
address of their `task_struct`, and each field is a function on addresses. The
ring of all tasks is a list that leaves out `init_task`, as `for_each_task`
does. `notified` is the task that `do_notify_parent` told last, and `hangups`
are the groups that `kill_pg` sent `SIGHUP` and `SIGCONT`. A step is a whole
call, or a whole pass of `wait4`: no other call comes in between, though
`do_fork` may sleep while it copies and `wait4` while it writes to its caller.
-/

namespace OperationSystems.Proc

open Function (update)
open HeadedList Transition
open Sched (TaskState eperm esrch eagain eacces einval)

abbrev Ptr := ℕ

def initTask : Ptr := 0
def childReaper : Ptr := 1

def sigchld : ℕ := 17
def enomem : ℤ := 12
def echild : ℤ := 10
def erestartsys : ℤ := 512

structure Table where
  tasks : List Ptr
  pid : Ptr → ℕ
  pgrp : Ptr → ℕ
  tgid : Ptr → ℕ
  session : Ptr → ℕ
  leader : Ptr → Bool
  didExec : Ptr → Bool
  state : Ptr → TaskState
  exiting : Ptr → Bool
  ptraced : Ptr → Bool
  exitSignal : Ptr → ℕ
  exitCode : Ptr → ℕ
  parentExecId : Ptr → ℕ
  selfExecId : Ptr → ℕ
  opptr : Ptr → Ptr
  pptr : Ptr → Ptr
  cptr : Ptr → Option Ptr
  ysptr : Ptr → Option Ptr
  osptr : Ptr → Option Ptr
  nextThread : Ptr → Ptr
  prevThread : Ptr → Ptr
  pidhash : ℕ → Option Ptr
  pidhashNext : Ptr → Option Ptr
  pidhashPprev : Ptr → ℕ ⊕ Ptr
  lastPid : ℕ
  nextSafe : ℕ
  nrThreads : ℕ
  maxThreads : ℕ
  notified : Ptr → Option Ptr
  hangups : List ℕ

/-- An assignment that is skipped for `NULL`. -/
def store {β : Type*} (f : Ptr → β) : Option Ptr → β → Ptr → β
  | none, _ => f
  | some p, v => update f p v

def pidHashfn (x : ℤ) : ℕ :=
  let n := (x % 2 ^ 32).toNat
  ((n >>> 8) ^^^ n) &&& 1023

namespace Table

def ids (s : Table) (p : Ptr) : Ids := ⟨s.pid p, s.pgrp p, s.tgid p, s.session p⟩

def hashRead (s : Table) : ℕ ⊕ Ptr → Option Ptr
  | .inl b => s.pidhash b
  | .inr p => s.pidhashNext p

def hashPid (p : Ptr) (s : Table) : Table :=
  let b := pidHashfn (s.pid p)
  { s with
    pidhashNext := update s.pidhashNext p (s.pidhash b)
    pidhashPprev := update (store s.pidhashPprev (s.pidhash b) (.inr p)) p (.inl b)
    pidhash := update s.pidhash b (some p) }

def unhashPid (p : Ptr) (s : Table) : Table :=
  let s := { s with pidhashPprev := store s.pidhashPprev (s.pidhashNext p) (s.pidhashPprev p) }
  match s.pidhashPprev p with
  | .inl b => { s with pidhash := update s.pidhash b (s.pidhashNext p) }
  | .inr y => { s with pidhashNext := update s.pidhashNext y (s.pidhashNext p) }

/-- The outer `none` is a chain without end. -/
def findTaskByPid (s : Table) (pid : ℤ) : Option (Option Ptr) :=
  search s.hashRead (fun p => decide ((s.pid p : ℤ) = pid)) (s.tasks.length + 1) (.inl (pidHashfn pid))

/-- `REMOVE_LINKS`. -/
def removeLinks (p : Ptr) (s : Table) : Table :=
  let s := { s with
    tasks := s.tasks.erase p
    ysptr := store s.ysptr (s.osptr p) (s.ysptr p) }
  match s.ysptr p with
  | some y => { s with osptr := update s.osptr y (s.osptr p) }
  | none => { s with cptr := update s.cptr (s.pptr p) (s.osptr p) }

/-- `SET_LINKS`. -/
def setLinks (p : Ptr) (s : Table) : Table :=
  let parent := s.pptr p
  let older := s.cptr parent
  { s with
    tasks := s.tasks ++ [p]
    ysptr := store (update s.ysptr p none) older (some p)
    osptr := update s.osptr p older
    cptr := update s.cptr parent (some p) }

/-- A task between `REMOVE_LINKS` and `SET_LINKS` gets another parent. -/
def relink (p parent : Ptr) (s : Table) : Table :=
  let s := s.removeLinks p
  setLinks p { s with pptr := update s.pptr p parent }

/-- `list_add` of the thread group of `p` behind that of `q`. -/
def listAdd (p q : Ptr) (s : Table) : Table :=
  let next := s.nextThread q
  { s with
    nextThread := update (update s.nextThread p next) q p
    prevThread := update (update s.prevThread next p) p q }

def listDel (p : Ptr) (s : Table) : Table :=
  { s with
    nextThread := update s.nextThread (s.prevThread p) (s.nextThread p)
    prevThread := update s.prevThread (s.nextThread p) (s.prevThread p) }

def doNotifyParent (p : Ptr) (s : Table) : Table :=
  { s with notified := update s.notified p (some (s.pptr p)) }

def unhashProcess (p : Ptr) (s : Table) : Table :=
  listDel p (removeLinks p (unhashPid p { s with nrThreads := s.nrThreads - 1 }))

/-- `release_task`, with `none` for its `BUG`. -/
def releaseTask (cur p : Ptr) (s : Table) : Option Table :=
  if p = cur then none
  else
    let s := s.unhashProcess p
    some { s with pid := update s.pid p 0 }

end Table

structure CloneFlags where
  parent : Bool
  thread : Bool
  ptrace : Bool
  pid : Bool
  fs : Bool
  newns : Bool
  exitSignal : ℕ
deriving DecidableEq

/-- What `do_fork` meets: whether there is a `task_struct`, whether `RLIMIT_NPROC` is reached
and no capability lifts it, and whether the copies after `get_pid` succeed. -/
structure ForkInput where
  allocated : Bool
  overLimit : Bool
  copied : Bool
deriving DecidableEq

namespace Table

/-- The child at `p` before it is linked, with an empty thread group. -/
def copyProcess (cur p : Ptr) (flags : CloneFlags) (pid : ℕ) (s : Table) : Table :=
  let ptraced := s.ptraced cur && flags.ptrace
  { s with
    pid := update s.pid p pid
    pgrp := update s.pgrp p (s.pgrp cur)
    tgid := update s.tgid p (if flags.thread then s.tgid cur else pid)
    session := update s.session p (s.session cur)
    leader := update s.leader p false
    didExec := update s.didExec p false
    state := update s.state p .running
    exiting := update s.exiting p (s.exiting cur)
    ptraced := update s.ptraced p ptraced
    exitSignal := update s.exitSignal p flags.exitSignal
    exitCode := update s.exitCode p (s.exitCode cur)
    parentExecId := update s.parentExecId p (s.selfExecId cur)
    selfExecId := update s.selfExecId p (s.selfExecId cur)
    opptr := update s.opptr p (if flags.parent then s.opptr cur else cur)
    pptr := update s.pptr p (if flags.parent || ptraced then s.pptr cur else cur)
    cptr := update s.cptr p none
    nextThread := update s.nextThread p p
    prevThread := update s.prevThread p p
    notified := update s.notified p none }

/-- The child at `p` with its thread group, its links and its number. -/
def linkChild (cur p : Ptr) (flags : CloneFlags) (pid : ℕ) (s : Table) : Table :=
  let s := s.copyProcess cur p flags pid
  let s := if flags.thread then s.listAdd p cur else s
  let s := (s.setLinks p).hashPid p
  { s with nrThreads := s.nrThreads + 1 }

/-- The refusals of `do_fork` before `get_pid`, in their order. -/
def forkRefusal (cur : Ptr) (flags : CloneFlags) (input : ForkInput) (s : Table) : Option ℤ :=
  if flags.newns = true ∧ flags.fs = true then some (-einval)
  else if flags.pid = true ∧ s.pid cur ≠ 0 then some (-eperm)
  else if input.allocated = false then some (-enomem)
  else if input.overLimit = true then some (-eagain)
  else if s.maxThreads ≤ s.nrThreads then some (-eagain)
  else none

/-- The outer `none` is a `get_pid` without end. -/
def doFork (cur p : Ptr) (flags : CloneFlags) (input : ForkInput) (s : Table) : Option (ℤ × Table) :=
  match s.forkRefusal cur flags input with
  | some r => some (r, s)
  | none =>
    match (if flags.pid = true then some (s.pid cur, s.lastPid, s.nextSafe)
      else getPid (s.tasks.map s.ids) s.lastPid s.nextSafe) with
    | none => none
    | some (pid, lastPid, nextSafe) =>
      let s := { s with lastPid := lastPid, nextSafe := nextSafe }
      if pid = 0 ∧ s.pid cur ≠ 0 then some (-eagain, s)
      else if input.copied = false then some (-enomem, s)
      else some (pid, s.linkChild cur p flags pid)

/-- The loop over the thread group in `forget_original_parent`. -/
def findReaper (father : Ptr) (s : Table) : ℕ → Ptr → Option Ptr
  | 0, _ => none
  | fuel + 1, reaper =>
    let reaper := s.nextThread reaper
    if s.exiting reaper = false then some reaper
    else if reaper = father then some reaper
    else findReaper father s fuel reaper

/-- `forget_original_parent`; each turn of its loop writes to `p` alone. -/
def forgetOriginalParent (father : Ptr) (s : Table) : Option Table :=
  match s.findReaper father s.tasks.length father with
  | none => none
  | some reaper =>
    let reaper := if reaper = father then childReaper else reaper
    let Hit (p : Ptr) := p ∈ s.tasks ∧ s.opptr p = father
    some { s with
      exitSignal := fun p => if Hit p then sigchld else s.exitSignal p
      selfExecId := fun p => if Hit p then s.selfExecId p + 1 else s.selfExecId p
      opptr := fun p => if Hit p then (if p = reaper then childReaper else reaper) else s.opptr p }

def willBecomeOrphanedPgrp (pgrp : ℕ) (ignored : Option Ptr) (s : Table) : Bool :=
  s.tasks.all fun p =>
    decide (some p = ignored ∨ s.pgrp p ≠ pgrp ∨ s.state p = .zombie ∨ s.pid (s.pptr p) = 1) ||
      !decide (s.pgrp (s.pptr p) ≠ pgrp ∧ s.session (s.pptr p) = s.session p)

def isOrphanedPgrp (pgrp : ℕ) (s : Table) : Bool := s.willBecomeOrphanedPgrp pgrp none

def hasStoppedJobs (pgrp : ℕ) (s : Table) : Bool :=
  s.tasks.any fun p => decide (s.pgrp p = pgrp ∧ s.state p = .stopped)

/-- The signals to a group that has become orphaned. -/
def hangup (pgrp : ℕ) (s : Table) : Table := { s with hangups := s.hangups ++ [pgrp] }

/-- The links of the first child `p` when it moves to its other parent. The back link
of the child that follows is left for the next turn. -/
def moveFirst (cur p : Ptr) (s : Table) : Table :=
  let parent := s.opptr p
  let cptr := update s.cptr cur (s.osptr p)
  { s with
    cptr := update cptr parent (some p)
    ysptr := store (update s.ysptr p none) (cptr parent) (some p)
    ptraced := update s.ptraced p false
    pptr := update s.pptr p parent
    osptr := update s.osptr p (cptr parent) }

/-- The case that the dying parent was the only connection of the child's group. -/
def warnChild (cur p : Ptr) (s : Table) : Table :=
  let pgrp := s.pgrp p
  if pgrp ≠ s.pgrp cur ∧ s.session p = s.session cur ∧ s.isOrphanedPgrp pgrp ∧ s.hasStoppedJobs pgrp then
    s.hangup pgrp
  else s

/-- One turn of the loop of `exit_notify`, for the first child `p`. -/
def reparentFirst (cur p : Ptr) (s : Table) : Table :=
  let s := s.moveFirst cur p
  warnChild cur p (if s.state p = .zombie then s.doNotifyParent p else s)

def reparentChildren (cur : Ptr) : ℕ → Table → Option Table
  | 0, _ => none
  | fuel + 1, s =>
    match s.cptr cur with
    | none => some s
    | some p => reparentChildren cur fuel (s.reparentFirst cur p)

/-- The case that the dying task was the only connection of its group. -/
def warnOwn (cur : Ptr) (s : Table) : Table :=
  let t := s.pptr cur
  if s.pgrp t ≠ s.pgrp cur ∧ s.session t = s.session cur ∧
      s.willBecomeOrphanedPgrp (s.pgrp cur) (some cur) ∧ s.hasStoppedJobs (s.pgrp cur) then
    s.hangup (s.pgrp cur)
  else s

/-- `exit_notify` before the loop; `capKill` is `capable(CAP_KILL)`. -/
def mourn (cur : Ptr) (capKill : Bool) (s : Table) : Table :=
  let t := s.pptr cur
  let s := s.warnOwn cur
  let s :=
    if s.exitSignal cur ≠ sigchld ∧
        (s.parentExecId cur ≠ s.selfExecId t ∨ s.selfExecId cur ≠ s.parentExecId cur) ∧
        capKill = false then
      { s with exitSignal := update s.exitSignal cur sigchld }
    else s
  doNotifyParent cur { s with state := update s.state cur .zombie }

def exitNotify (cur : Ptr) (capKill : Bool) (s : Table) : Option Table :=
  (s.forgetOriginalParent cur).bind fun s =>
    reparentChildren cur (s.tasks.length + 1) (s.mourn cur capKill)

end Table

/-- The arguments of `wait4`, with the bits of `options` one by one. `unknown` stands for
any bit beside them. -/
structure WaitArgs where
  pid : ℤ
  unknown : Bool
  wnohang : Bool
  wuntraced : Bool
  wnothread : Bool
  wclone : Bool
  wall : Bool
deriving DecidableEq

namespace Table

/-- The child passes the tests that come before `flag = 1`. -/
def Eligible (a : WaitArgs) (cur p : Ptr) (s : Table) : Prop :=
  (if 0 < a.pid then (s.pid p : ℤ) = a.pid
    else if a.pid = 0 then s.pgrp p = s.pgrp cur
    else a.pid = -1 ∨ (s.pgrp p : ℤ) = -a.pid) ∧
  ((decide (s.exitSignal p ≠ sigchld) ^^ a.wclone) = false ∨ a.wall = true)

instance (a : WaitArgs) (cur p : Ptr) (s : Table) : Decidable (s.Eligible a cur p) :=
  inferInstanceAs (Decidable (_ ∧ _))

/-- The child ends the scan. -/
def Ready (a : WaitArgs) (p : Ptr) (s : Table) : Prop :=
  s.state p = .stopped ∧ s.exitCode p ≠ 0 ∧ (a.wuntraced = true ∨ s.ptraced p = true) ∨
    s.state p = .zombie

instance (a : WaitArgs) (p : Ptr) (s : Table) : Decidable (s.Ready a p) :=
  inferInstanceAs (Decidable (_ ∨ _))

/-- The loop over the children from `c` on, with `flag` and the child found. -/
def waitChildren (a : WaitArgs) (cur : Ptr) (s : Table) : ℕ → Option Ptr → Bool → Option (Bool × Option Ptr)
  | _, none, flag => some (flag, none)
  | 0, some _, _ => none
  | fuel + 1, some p, flag =>
    if s.Eligible a cur p then
      if s.Ready a p then some (true, some p) else waitChildren a cur s fuel (s.osptr p) true
    else waitChildren a cur s fuel (s.osptr p) flag

/-- The loop over the threads of the caller, from `tsk` on. -/
def waitThreads (a : WaitArgs) (cur : Ptr) (s : Table) : ℕ → Ptr → Bool → Option (Bool × Option Ptr)
  | 0, _, _ => none
  | fuel + 1, tsk, flag =>
    match s.waitChildren a cur s.tasks.length (s.cptr tsk) flag with
    | none => none
    | some (flag, some p) => some (flag, some p)
    | some (flag, none) =>
      if a.wnothread = true ∨ s.nextThread tsk = cur then some (flag, none)
      else waitThreads a cur s fuel (s.nextThread tsk) flag

/-- What `wait4` does with the child that ended the scan. `fault` is the error of
`getrusage` or `put_user`. -/
def reap (cur p : Ptr) (fault : Option ℤ) (s : Table) : Option (ℤ × Table) :=
  match fault with
  | some e => some (-e, s)
  | none =>
    if s.state p = .zombie then
      if s.opptr p ≠ s.pptr p then
        some (s.pid p, (s.relink p (s.opptr p)).doNotifyParent p)
      else (s.releaseTask cur p).map fun t => ((s.pid p : ℤ), t)
    else some (s.pid p, { s with exitCode := update s.exitCode p 0 })

/-- From the label `repeat` on; the inner `none` says that the caller sleeps. `signal` is
`signal_pending(current)`. -/
def waitPass (cur : Ptr) (a : WaitArgs) (signal : Bool) (fault : Option ℤ) (s : Table) :
    Option (Option ℤ × Table) :=
  let running (s : Table) := { s with state := update s.state cur .running }
  match s.waitThreads a cur s.tasks.length cur false with
  | none => none
  | some (_, some p) => (s.reap cur p fault).map fun r => (some r.1, running r.2)
  | some (false, none) => some (some (-echild), running s)
  | some (true, none) =>
    if a.wnohang then some (some 0, running s)
    else if signal then some (some (-erestartsys), running s)
    else some (none, { s with state := update s.state cur .interruptible })

/-- One pass of `sys_wait4`. -/
def sysWait4 (cur : Ptr) (a : WaitArgs) (signal : Bool) (fault : Option ℤ) (s : Table) :
    Option (Option ℤ × Table) :=
  if a.unknown then some (some (-einval), s) else s.waitPass cur a signal fault

/-- The links and the signal of `reparent_to_init`. -/
def reparentToInit (cur : Ptr) (s : Table) : Table :=
  let s := s.relink cur childReaper
  { s with
    opptr := update s.opptr cur childReaper
    exitSignal := update s.exitSignal cur sigchld
    ptraced := update s.ptraced cur false }

def sysSetpgid (cur : Ptr) (pid pgid : ℤ) (s : Table) : Option (ℤ × Table) :=
  let pid : ℤ := if pid = 0 then s.pid cur else pid
  let pgid := if pgid = 0 then pid else pgid
  if pgid < 0 then some (-einval, s)
  else
    (s.findTaskByPid pid).map fun
    | none => (-esrch, s)
    | some p =>
      let child := s.pptr p = cur ∨ s.opptr p = cur
      if child ∧ s.session p ≠ s.session cur then (-eperm, s)
      else if child ∧ s.didExec p then (-eacces, s)
      else if ¬ child ∧ p ≠ cur then (-esrch, s)
      else if s.leader p then (-eperm, s)
      else if pgid ≠ pid ∧ ∀ t ∈ s.tasks, ¬ ((s.pgrp t : ℤ) = pgid ∧ s.session t = s.session cur) then
        (-eperm, s)
      else (0, { s with pgrp := update s.pgrp p pgid.toNat })

def sysSetsid (cur : Ptr) (s : Table) : ℤ × Table :=
  if ∃ t ∈ s.tasks, s.pgrp t = s.pid cur then (-eperm, s)
  else
    ((s.pid cur : ℤ), { s with
      leader := update s.leader cur true
      session := update s.session cur (s.pid cur)
      pgrp := update s.pgrp cur (s.pid cur) })

def daemonize (cur : Ptr) (s : Table) : Table :=
  { s with
    session := update s.session cur 1
    pgrp := update s.pgrp cur 1 }

/-- The task is in the list and has not begun to exit. -/
def Runs (s : Table) (p : Ptr) : Prop := p ∈ s.tasks ∧ s.exiting p = false

instance (s : Table) (p : Ptr) : Decidable (s.Runs p) := inferInstanceAs (Decidable (_ ∧ _))

end Table

/-- `exec` sets `did_exec` and `self_exec_id` as `execve` does, without what it does to the thread
group; `setPtraced` sets the flag as `ptrace` does, without a new `p_pptr`; `changeState` is what
the scheduler and the signals do to `state` and `exit_code`. -/
inductive Event where
  | fork (cur p : Ptr) (flags : CloneFlags) (input : ForkInput)
  | startExit (cur : Ptr)
  | exitNotify (cur : Ptr) (capKill : Bool)
  | wait4 (cur : Ptr) (a : WaitArgs) (signal : Bool) (fault : Option ℤ)
  | reparentToInit (cur : Ptr)
  | setpgid (cur : Ptr) (pid pgid : ℤ)
  | setsid (cur : Ptr)
  | daemonize (cur : Ptr)
  | exec (cur : Ptr)
  | changeState (p : Ptr) (state : TaskState) (exitCode : ℕ)
  | setPtraced (p : Ptr) (ptraced : Bool)
deriving DecidableEq

/-- A new `task_struct` is memory that no task uses, `do_exit` panics for `init`, and a
kernel thread calls `daemonize` before anything else knows its number. -/
def Event.Enabled (s : Table) : Event → Prop
  | .fork cur p _ _ => s.Runs cur ∧ p ≠ initTask ∧ p ∉ s.tasks
  | .startExit cur => s.Runs cur ∧ s.pid cur ≠ 1
  | .exitNotify cur _ => cur ∈ s.tasks ∧ s.exiting cur = true ∧ s.state cur ≠ .zombie
  | .wait4 cur _ _ _ => s.Runs cur
  | .reparentToInit cur => s.Runs cur ∧ cur ≠ childReaper
  | .setpgid cur _ _ => s.Runs cur
  | .setsid cur => s.Runs cur
  | .daemonize cur => s.Runs cur ∧ ∀ t ∈ s.tasks, s.pgrp t ≠ s.pid cur
  | .exec cur => s.Runs cur
  | .changeState p state _ => p ∈ s.tasks ∧ s.state p ≠ .zombie ∧ state ≠ .zombie
  | .setPtraced p _ => p ∈ s.tasks

instance (s : Table) : ∀ e : Event, Decidable (e.Enabled s)
  | .fork cur p _ _ => inferInstanceAs (Decidable (s.Runs cur ∧ p ≠ initTask ∧ p ∉ s.tasks))
  | .startExit cur => inferInstanceAs (Decidable (s.Runs cur ∧ s.pid cur ≠ 1))
  | .exitNotify cur _ =>
    inferInstanceAs (Decidable (cur ∈ s.tasks ∧ s.exiting cur = true ∧ s.state cur ≠ .zombie))
  | .wait4 cur _ _ _ => inferInstanceAs (Decidable (s.Runs cur))
  | .reparentToInit cur => inferInstanceAs (Decidable (s.Runs cur ∧ cur ≠ childReaper))
  | .setpgid cur _ _ => inferInstanceAs (Decidable (s.Runs cur))
  | .setsid cur => inferInstanceAs (Decidable (s.Runs cur))
  | .daemonize cur => inferInstanceAs (Decidable (s.Runs cur ∧ ∀ t ∈ s.tasks, s.pgrp t ≠ s.pid cur))
  | .exec cur => inferInstanceAs (Decidable (s.Runs cur))
  | .changeState p state _ =>
    inferInstanceAs (Decidable (p ∈ s.tasks ∧ s.state p ≠ .zombie ∧ state ≠ .zombie))
  | .setPtraced p _ => inferInstanceAs (Decidable (p ∈ s.tasks))

def Table.step (s : Table) : Event → Option Table
  | .fork cur p flags input => (s.doFork cur p flags input).map Prod.snd
  | .startExit cur => some { s with exiting := update s.exiting cur true }
  | .exitNotify cur capKill => s.exitNotify cur capKill
  | .wait4 cur a signal fault => (s.sysWait4 cur a signal fault).map Prod.snd
  | .reparentToInit cur => some (s.reparentToInit cur)
  | .setpgid cur pid pgid => (s.sysSetpgid cur pid pgid).map Prod.snd
  | .setsid cur => some (s.sysSetsid cur).2
  | .daemonize cur => some (s.daemonize cur)
  | .exec cur =>
    some { s with
      didExec := update s.didExec cur true
      selfExecId := update s.selfExecId cur (s.selfExecId cur + 1) }
  | .changeState p state exitCode =>
    some { s with
      state := update s.state p state
      exitCode := update s.exitCode p exitCode }
  | .setPtraced p ptraced => some { s with ptraced := update s.ptraced p ptraced }

def Step (s : Table) (e : Event) (s' : Table) : Prop := e.Enabled s ∧ s.step e = some s'

/-- The swapper and its child `init`. -/
def boot (maxThreads : ℕ) : Table where
  tasks := [childReaper]
  pid := fun p => if p = childReaper then 1 else 0
  pgrp := fun _ => 0
  tgid := fun p => if p = childReaper then 1 else 0
  session := fun _ => 0
  leader := fun _ => false
  didExec := fun _ => false
  state := fun _ => .running
  exiting := fun _ => false
  ptraced := fun _ => false
  exitSignal := fun _ => 0
  exitCode := fun _ => 0
  parentExecId := fun _ => 0
  selfExecId := fun _ => 0
  opptr := fun _ => initTask
  pptr := fun _ => initTask
  cptr := fun p => if p = initTask then some childReaper else none
  ysptr := fun _ => none
  osptr := fun _ => none
  nextThread := fun p => p
  prevThread := fun p => p
  pidhash := fun b => if b = pidHashfn 1 then some childReaper else none
  pidhashNext := fun _ => none
  pidhashPprev := fun _ => .inl (pidHashfn 1)
  lastPid := 1
  nextSafe := pidMax
  nrThreads := 1
  maxThreads := maxThreads
  notified := fun _ => none
  hangups := []

end OperationSystems.Proc
