import OperationSystems.Lib.Run

/-!
# The counting semaphore and its threads

Every statement of `up` and `down` is a step of its own. A thread that waits
gives the mutex back and does not compete for it until it is woken, by a signal
or for no reason. The state also says which of the two objects of the threads
library have been initialised, and counts the calls that have returned.
-/

namespace OperationSystems.Sync

variable {κ : Type*}

/-- Where a thread is in `up()` or `down()`. -/
inductive Pc where
  | idle
  | upLock
  | increase
  | signal
  | upUnlock
  | downLock
  | test
  | wait
  | relock
  | decrease
  | downUnlock
deriving DecidableEq

/-- The objects of the threads library inside a semaphore. -/
inductive Member where
  | semLock
  | semCondition

structure Semaphore (κ : Type*) where
  semValue : ℤ
  lockReady : Bool
  conditionReady : Bool
  owner : Option κ
  threads : κ → Pc
  ups : ℕ
  downs : ℕ

def intMax : ℤ := 2 ^ 31 - 1

/-- The value that an `int` of 32 bits keeps. -/
def toInt (n : ℤ) : ℤ := n.bmod (2 ^ 32)

namespace Semaphore

/-- Memory of a semaphore that nothing has written yet. -/
def raw (junk : ℤ) : Semaphore κ where
  semValue := junk
  lockReady := false
  conditionReady := false
  owner := none
  threads _ := .idle
  ups := 0
  downs := 0

/-- `Semaphore::Semaphore()`. -/
def construct (this : Semaphore κ) : Semaphore κ :=
  { this with semValue := 0, lockReady := true, conditionReady := true }

/-- `Semaphore::Semaphore(unsigned val)`. -/
def constructVal (this : Semaphore κ) (val : UInt32) : Semaphore κ :=
  -- The statement `Semaphore();` constructs an object of its own and drops it.
  let _temporary : Semaphore κ := (raw this.semValue).construct
  { this with semValue := toInt val.toNat }

def Ready (s : Semaphore κ) : Member → Prop
  | .semLock => s.lockReady = true
  | .semCondition => s.conditionReady = true

variable [DecidableEq κ]

def setThread (s : Semaphore κ) (k : κ) (pc : Pc) : Semaphore κ :=
  { s with threads := Function.update s.threads k pc }

/-- `pthread_mutex_lock(&sem_lock)`, which blocks while a thread owns the mutex. -/
def acquire (s : Semaphore κ) (k : κ) (pc : Pc) : Option (Semaphore κ) :=
  match s.owner with
  | none => some { s.setThread k pc with owner := some k }
  | some _ => none

def threadStep (s : Semaphore κ) (k : κ) : Option (Semaphore κ) :=
  match s.threads k with
  | .idle => none
  | .upLock => s.acquire k .increase
  | .increase => some { s.setThread k .signal with semValue := toInt (s.semValue + 1) }
  | .signal => none
  | .upUnlock => some { s.setThread k .idle with owner := none, ups := s.ups + 1 }
  | .downLock => s.acquire k .test
  | .test =>
    if s.semValue = 0 then some { s.setThread k .wait with owner := none }
    else some (s.setThread k .decrease)
  | .wait => none
  | .relock => s.acquire k .test
  | .decrease => some { s.setThread k .downUnlock with semValue := toInt (s.semValue - 1) }
  | .downUnlock => some { s.setThread k .idle with owner := none, downs := s.downs + 1 }

/-- `pthread_cond_signal(&sem_condition)`: it wakes one of the threads that wait, if there is one. -/
def signalStep [Fintype κ] (s : Semaphore κ) (k : κ) (woken : Option κ) : Option (Semaphore κ) :=
  match s.threads k, woken with
  | .signal, some w =>
    if s.threads w = .wait then some ((s.setThread w .relock).setThread k .upUnlock) else none
  | .signal, none =>
    if ∀ w, s.threads w ≠ .wait then some (s.setThread k .upUnlock) else none
  | _, _ => none

end Semaphore

/-- A call, a step of a call that is under way, a signal, or a wakeup without a signal. -/
inductive Event (κ : Type*) where
  | up (k : κ)
  | down (k : κ)
  | thread (k : κ)
  | signal (k : κ) (woken : Option κ)
  | wake (k : κ)

/-- What a step passes to the threads library. -/
def uses (s : Semaphore κ) : Event κ → List Member
  | .thread k =>
    match s.threads k with
    | .upLock | .upUnlock | .downLock | .relock | .downUnlock => [.semLock]
    | .test => if s.semValue = 0 then [.semCondition, .semLock] else []
    | _ => []
  | .signal _ _ => [.semCondition]
  | _ => []

/-- The increment of a value that is already the largest `int`. -/
def Overflows (s : Semaphore κ) : Event κ → Prop
  | .thread k => s.threads k = .increase ∧ s.semValue = intMax
  | _ => False

variable [DecidableEq κ] [Fintype κ]

def next (s : Semaphore κ) : Event κ → Option (Semaphore κ)
  | .up k =>
    match s.threads k with
    | .idle => some (s.setThread k .upLock)
    | _ => none
  | .down k =>
    match s.threads k with
    | .idle => some (s.setThread k .downLock)
    | _ => none
  | .thread k => s.threadStep k
  | .signal k woken => s.signalStep k woken
  | .wake k =>
    match s.threads k with
    | .wait => some (s.setThread k .relock)
    | _ => none

def Step (s : Semaphore κ) (e : Event κ) (t : Semaphore κ) : Prop := next s e = some t

end OperationSystems.Sync
