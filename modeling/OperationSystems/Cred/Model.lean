import OperationSystems.Lib.Population

/-!
# Credentials

The system calls of `sys.c` that set user and group ids, with
`cap_emulate_setxuid` and `set_user`; `setrlimit` and two options of `prctl`;
`do_fork` and `release_task` as far as they count the processes of a user. What
other headers number or set is in `Policy`. A process has a memory descriptor of
its own, and `alloc_uid` may fail.
-/

namespace OperationSystems.Cred

open Transition

/-- `kernel_cap_t`. -/
abbrev Caps := BitVec 32

/-- `(uid_t) -1`, and `(gid_t) -1`. -/
def noId : UInt32 := -1

/-- An id as an `int`. -/
def asInt (id : UInt32) : ℤ := (id.toNat : ℤ).bmod (2 ^ 32)

def eperm : ℤ := 1
def eagain : ℤ := 11
def efault : ℤ := 14
def einval : ℤ := 22

/-- Constants of other headers, and `issecure(SECURE_NO_SETUID_FIXUP)`. The capability
to set user ids is not one for the file system. -/
structure Policy where
  capSetgid : ℕ
  capSetuid : ℕ
  capSysAdmin : ℕ
  capSysResource : ℕ
  capFsMask : Caps
  noSetuidFixup : Bool
  rlimNlimits : ℕ
  rlimitNproc : ℕ
  rlimitNofile : ℕ
  nrOpen : ℕ
  setuid_not_fs : capFsMask.getLsbD capSetuid = false

structure Rlimit where
  cur : ℕ
  max : ℕ
deriving DecidableEq

/-- `user` is the user whose `user_struct` the task refers to, `dumpable` is in its `mm`. -/
structure Task where
  uid : UInt32
  euid : UInt32
  suid : UInt32
  fsuid : UInt32
  gid : UInt32
  egid : UInt32
  sgid : UInt32
  fsgid : UInt32
  capEffective : Caps
  capPermitted : Caps
  keepCapabilities : Bool
  dumpable : Bool
  user : UInt32
  rlim : ℕ → Rlimit

/-- The current task, and the `processes` of each user. -/
structure World where
  task : Task
  processes : UInt32 → ℤ

def Task.capable (t : Task) (cap : ℕ) : Bool := t.capEffective.getLsbD cap

def World.setTask (w : World) (t : Task) : World := { w with task := t }

def sysSetregid (P : Policy) (rgid egid : UInt32) (w : World) : ℤ × World :=
  let t := w.task
  if rgid ≠ noId ∧ ¬ (t.gid = rgid ∨ t.egid = rgid ∨ t.capable P.capSetgid = true) then (-eperm, w)
  else if egid ≠ noId ∧ ¬ (t.gid = egid ∨ t.egid = egid ∨ t.sgid = egid ∨ t.capable P.capSetgid = true) then
    (-eperm, w)
  else
    let newRgid := if rgid ≠ noId then rgid else t.gid
    let newEgid := if egid ≠ noId then egid else t.egid
    (0, w.setTask { t with
      dumpable := if newEgid ≠ t.egid then false else t.dumpable
      sgid := if rgid ≠ noId ∨ egid ≠ noId ∧ egid ≠ t.gid then newEgid else t.sgid
      fsgid := newEgid
      egid := newEgid
      gid := newRgid })

def sysSetgid (P : Policy) (gid : UInt32) (w : World) : ℤ × World :=
  let t := w.task
  let dumpable := if t.egid ≠ gid then false else t.dumpable
  if t.capable P.capSetgid = true then
    (0, w.setTask { t with dumpable := dumpable, gid := gid, egid := gid, sgid := gid, fsgid := gid })
  else if gid = t.gid ∨ gid = t.sgid then
    (0, w.setTask { t with dumpable := dumpable, egid := gid, fsgid := gid })
  else (-eperm, w)

def sysSetresgid (P : Policy) (rgid egid sgid : UInt32) (w : World) : ℤ × World :=
  let t := w.task
  let foreign := fun id : UInt32 => id ≠ noId ∧ id ≠ t.gid ∧ id ≠ t.egid ∧ id ≠ t.sgid
  if t.capable P.capSetgid = false ∧ (foreign rgid ∨ foreign egid ∨ foreign sgid) then (-eperm, w)
  else
    let newEgid := if egid ≠ noId then egid else t.egid
    (0, w.setTask { t with
      dumpable := if egid ≠ noId ∧ egid ≠ t.egid then false else t.dumpable
      egid := newEgid
      fsgid := newEgid
      gid := if rgid ≠ noId then rgid else t.gid
      sgid := if sgid ≠ noId then sgid else t.sgid })

/-- Returns the old `fsgid`. -/
def sysSetfsgid (P : Policy) (gid : UInt32) (w : World) : ℤ × World :=
  let t := w.task
  let granted := gid = t.gid ∨ gid = t.egid ∨ gid = t.sgid ∨ gid = t.fsgid ∨ t.capable P.capSetgid = true
  (asInt t.fsgid, if granted then
    w.setTask { t with dumpable := if gid ≠ t.fsgid then false else t.dumpable, fsgid := gid } else w)

/-- The ids before the call, and the task after it. -/
def capEmulateSetxuid (oldRuid oldEuid oldSuid : UInt32) (t : Task) : Task :=
  let t := if (oldRuid = 0 ∨ oldEuid = 0 ∨ oldSuid = 0) ∧ (t.uid ≠ 0 ∧ t.euid ≠ 0 ∧ t.suid ≠ 0) ∧
      t.keepCapabilities = false then { t with capPermitted := 0, capEffective := 0 } else t
  let t := if oldEuid = 0 ∧ t.euid ≠ 0 then { t with capEffective := 0 } else t
  if oldEuid ≠ 0 ∧ t.euid = 0 then { t with capEffective := t.capPermitted } else t

/-- `cap_emulate_setxuid` unless `issecure(SECURE_NO_SETUID_FIXUP)`. -/
def fixup (P : Policy) (old t : Task) : Task :=
  if P.noSetuidFixup = true then t else capEmulateSetxuid old.uid old.euid old.suid t

/-- `alloc` says whether `alloc_uid` returns a `user_struct`. -/
def setUser (alloc : Bool) (newRuid : UInt32) (dumpclear : Bool) (w : World) : Option World :=
  if alloc = false then none
  else
    let oldUser := w.task.user
    let inc := Function.update w.processes newRuid (w.processes newRuid + 1)
    some {
      task := { w.task with
        dumpable := if dumpclear then false else w.task.dumpable
        uid := newRuid
        user := newRuid }
      processes := Function.update inc oldUser (inc oldUser - 1) }

def sysSetreuid (P : Policy) (alloc : Bool) (ruid euid : UInt32) (w : World) : ℤ × World :=
  let t := w.task
  let newRuid := if ruid ≠ noId then ruid else t.uid
  let newEuid := if euid ≠ noId then euid else t.euid
  if ruid ≠ noId ∧ t.uid ≠ ruid ∧ t.euid ≠ ruid ∧ t.capable P.capSetuid = false then (-eperm, w)
  else if euid ≠ noId ∧ t.uid ≠ euid ∧ t.euid ≠ euid ∧ t.suid ≠ euid ∧ t.capable P.capSetuid = false then
    (-eperm, w)
  else
    match (if newRuid ≠ t.uid then setUser alloc newRuid (newEuid ≠ t.euid) w else some w) with
    | none => (-eagain, w)
    | some v => (0, v.setTask (fixup P t { v.task with
        dumpable := if newEuid ≠ t.euid then false else v.task.dumpable
        fsuid := newEuid
        euid := newEuid
        suid := if ruid ≠ noId ∨ euid ≠ noId ∧ euid ≠ t.uid then newEuid else t.suid }))

def sysSetuid (P : Policy) (alloc : Bool) (uid : UInt32) (w : World) : ℤ × World :=
  let t := w.task
  let finish := fun (newSuid : UInt32) (v : World) => v.setTask (fixup P t { v.task with
    dumpable := if t.euid ≠ uid then false else v.task.dumpable
    fsuid := uid
    euid := uid
    suid := newSuid })
  if t.capable P.capSetuid = true then
    match (if uid ≠ t.uid then setUser alloc uid (t.euid ≠ uid) w else some w) with
    | none => (-eagain, w)
    | some v => (0, finish uid v)
  else if uid ≠ t.uid ∧ uid ≠ t.suid then (-eperm, w)
  else (0, finish t.suid w)

def sysSetresuid (P : Policy) (alloc : Bool) (ruid euid suid : UInt32) (w : World) : ℤ × World :=
  let t := w.task
  let foreign := fun id : UInt32 => id ≠ noId ∧ id ≠ t.uid ∧ id ≠ t.euid ∧ id ≠ t.suid
  if t.capable P.capSetuid = false ∧ (foreign ruid ∨ foreign euid ∨ foreign suid) then (-eperm, w)
  else
    match (if ruid ≠ noId ∧ ruid ≠ t.uid then setUser alloc ruid (euid ≠ t.euid) w else some w) with
    | none => (-eagain, w)
    | some v =>
      let newEuid := if euid ≠ noId then euid else v.task.euid
      (0, v.setTask (fixup P t { v.task with
        dumpable := if euid ≠ noId ∧ euid ≠ v.task.euid then false else v.task.dumpable
        euid := newEuid
        fsuid := newEuid
        suid := if suid ≠ noId then suid else v.task.suid }))

/-- The file system part of the effective capabilities follows `fsuid`. -/
def fsFixup (P : Policy) (oldFsuid : UInt32) (t : Task) : Task :=
  if P.noSetuidFixup = true then t
  else
    let t := if oldFsuid = 0 ∧ t.fsuid ≠ 0 then { t with capEffective := t.capEffective &&& ~~~ P.capFsMask } else t
    if oldFsuid ≠ 0 ∧ t.fsuid = 0 then
      { t with capEffective := t.capEffective ||| (t.capPermitted &&& P.capFsMask) } else t

/-- Returns the old `fsuid`. -/
def sysSetfsuid (P : Policy) (uid : UInt32) (w : World) : ℤ × World :=
  let t := w.task
  let granted := uid = t.uid ∨ uid = t.euid ∨ uid = t.suid ∨ uid = t.fsuid ∨ t.capable P.capSetuid = true
  let t' := if granted then { t with dumpable := if uid ≠ t.fsuid then false else t.dumpable, fsuid := uid } else t
  (asInt t.fsuid, w.setTask (fsFixup P t.fsuid t'))

/-- `PR_SET_KEEPCAPS`. -/
def prctlKeepcaps (arg2 : ℕ) (w : World) : ℤ × World :=
  if arg2 ≠ 0 ∧ arg2 ≠ 1 then (-einval, w)
  else (0, w.setTask { w.task with keepCapabilities := arg2 = 1 })

/-- `PR_SET_DUMPABLE`. -/
def prctlDumpable (arg2 : ℕ) (w : World) : ℤ × World :=
  if arg2 ≠ 0 ∧ arg2 ≠ 1 then (-einval, w)
  else (0, w.setTask { w.task with dumpable := arg2 = 1 })

/-- `rlim` is `none` where it cannot be copied. -/
def sysSetrlimit (P : Policy) (resource : ℕ) (rlim : Option Rlimit) (w : World) : ℤ × World :=
  if resource ≥ P.rlimNlimits then (-einval, w)
  else
    match rlim with
    | none => (-efault, w)
    | some new =>
      let old := w.task.rlim resource
      if (new.cur > old.max ∨ new.max > old.max) ∧ w.task.capable P.capSysResource = false then (-eperm, w)
      else if resource = P.rlimitNofile ∧ (new.cur > P.nrOpen ∨ new.max > P.nrOpen) then (-eperm, w)
      else (0, w.setTask { w.task with rlim := Function.update w.task.rlim resource new })

inductive Call where
  | setregid (rgid egid : UInt32)
  | setgid (gid : UInt32)
  | setresgid (rgid egid sgid : UInt32)
  | setfsgid (gid : UInt32)
  | setreuid (ruid euid : UInt32)
  | setuid (uid : UInt32)
  | setresuid (ruid euid suid : UInt32)
  | setfsuid (uid : UInt32)
  | setKeepcaps (arg2 : ℕ)
  | setDumpable (arg2 : ℕ)
  | setrlimit (resource : ℕ) (rlim : Option Rlimit)
deriving DecidableEq

def World.call (P : Policy) (alloc : Bool) (w : World) : Call → ℤ × World
  | .setregid rgid egid => sysSetregid P rgid egid w
  | .setgid gid => sysSetgid P gid w
  | .setresgid rgid egid sgid => sysSetresgid P rgid egid sgid w
  | .setfsgid gid => sysSetfsgid P gid w
  | .setreuid ruid euid => sysSetreuid P alloc ruid euid w
  | .setuid uid => sysSetuid P alloc uid w
  | .setresuid ruid euid suid => sysSetresuid P alloc ruid euid suid w
  | .setfsuid uid => sysSetfsuid P uid w
  | .setKeepcaps arg2 => prctlKeepcaps arg2 w
  | .setDumpable arg2 => prctlDumpable arg2 w
  | .setrlimit resource rlim => sysSetrlimit P resource rlim w

structure System where
  tasks : Population ℕ Task
  processes : UInt32 → ℤ

/-- A fork that gets as far as the check of `RLIMIT_NPROC`; `fails` is the error with which
`do_fork` fails after it has counted the child. -/
inductive Event where
  | call (p : ℕ) (alloc : Bool) (c : Call)
  | fork (p q : ℕ) (fails : Option ℤ)
  | release (q : ℕ)
deriving DecidableEq

namespace System

def current (s : System) (p : ℕ) : World := ⟨s.tasks.value p, s.processes⟩

def call (P : Policy) (s : System) (p : ℕ) (alloc : Bool) (c : Call) : ℤ × System :=
  let r := (s.current p).call P alloc c
  (r.1, ⟨s.tasks.change p r.2.task, r.2.processes⟩)

/-- The check of `RLIMIT_NPROC` and the count in `do_fork`. -/
def fork (P : Policy) (s : System) (p q : ℕ) (fails : Option ℤ) : ℤ × System :=
  let t := s.tasks.value p
  let inc := Function.update s.processes t.user (s.processes t.user + 1)
  if s.processes t.user ≥ (t.rlim P.rlimitNproc).cur ∧ t.capable P.capSysAdmin = false ∧
      t.capable P.capSysResource = false then (-eagain, s)
  else match fails with
  | some error => (error, { s with processes := Function.update inc t.user (inc t.user - 1) })
  | none => (q, ⟨s.tasks.copy p q, inc⟩)

def release (s : System) (q : ℕ) : System where
  tasks := s.tasks.drop q
  processes := Function.update s.processes (s.tasks.value q).user (s.processes (s.tasks.value q).user - 1)

def next (P : Policy) (s : System) : Event → System
  | .call p alloc c => (s.call P p alloc c).2
  | .fork p q fails => (s.fork P p q fails).2
  | .release q => s.release q

/-- A task that is in the table makes the call; a child is new, and one that is in the table goes. -/
def Allowed (s : System) : Event → Prop
  | .call p _ _ => p ∈ s.tasks.live
  | .fork p q _ => p ∈ s.tasks.live ∧ q ∉ s.tasks.live
  | .release q => q ∈ s.tasks.live

instance (s : System) : ∀ e : Event, Decidable (s.Allowed e)
  | .call p _ _ => inferInstanceAs (Decidable (p ∈ s.tasks.live))
  | .fork p q _ => inferInstanceAs (Decidable (p ∈ s.tasks.live ∧ q ∉ s.tasks.live))
  | .release q => inferInstanceAs (Decidable (q ∈ s.tasks.live))

def Step (P : Policy) (s : System) (e : Event) (s' : System) : Prop := s.Allowed e ∧ s' = s.next P e

end System

def Event.label : Event → Population.Label ℕ Call
  | .call p _ c => .change p c
  | .fork p q _ => .copy p q
  | .release q => .drop q

/-- The task `p` and those that come from it by forks. -/
def descendants (p : ℕ) (es : List Event) : Finset ℕ := (es.map Event.label).foldl Population.heirs {p}

/-- The task `p`, or one that comes from it, makes the call `c`. -/
def Makes (p : ℕ) (es : List Event) (c : Call) : Prop := Population.Makes {p} (es.map Event.label) c

end OperationSystems.Cred
