import OperationSystems.Lib.Run
import OperationSystems.Sched.Calm

/-!
# Wait queues and completions

`__wake_up_common`, `complete`, `wait_for_completion` and the functions of the
`sleep_on` family of `sched.c`, with `add_wait_queue` and
`add_wait_queue_exclusive` of `fork.c`, over the runqueue of one CPU. A head is
the queue of a completion or one of its own. A task that sleeps runs in three
pieces: up to its call of `schedule`, the call, and the rest when it is current
again. Interrupts come between them, and the other events of the scheduler.
-/

namespace OperationSystems.Wait

open Sched (Runqueue TaskState Clock)
open Transition

inductive Head where
  | queue (a : ℕ)
  | completion (x : ℕ)
deriving DecidableEq

/-- `wait_queue_t`. -/
structure Waiter where
  task : ℕ
  exclusive : Bool
deriving DecidableEq

/-- Where a task is: outside of these functions, before its call of `schedule`, or in it. -/
inductive Place where
  | free
  | enters (h : Head)
  | sleeps (h : Head)
deriving DecidableEq

/-- `TASK_RUNNING`, `TASK_INTERRUPTIBLE`, `TASK_UNINTERRUPTIBLE`, `TASK_ZOMBIE` and `TASK_STOPPED`. -/
def taskBits : TaskState → ℕ
  | .running => 0
  | .interruptible => 1
  | .uninterruptible => 2
  | .zombie => 4
  | .stopped => 8

/-- `completes` and `returns` count the calls of `complete` and the returns of
`wait_for_completion`. -/
structure Kernel where
  rq : Runqueue
  waiters : Head → List Waiter
  done : ℕ → ℕ
  place : ℕ → Place
  completes : ℕ → ℕ
  returns : ℕ → ℕ

/-- `__wake_up_common` on the entries of a queue. -/
def wakeUpCommon (c : Clock) (jiffies mode : ℕ) : List Waiter → ℤ → Runqueue → Runqueue
  | [], _, rq => rq
  | curr :: ws, nrExclusive, rq =>
    let p := curr.task
    if taskBits (rq.tasks p).state &&& mode ≠ 0 then
      let woken := rq.tryToWakeUp c jiffies p
      if woken.1 = true ∧ curr.exclusive = true then
        if nrExclusive - 1 = 0 then woken.2 else wakeUpCommon c jiffies mode ws (nrExclusive - 1) woken.2
      else wakeUpCommon c jiffies mode ws nrExclusive woken.2
    else wakeUpCommon c jiffies mode ws nrExclusive rq

namespace Kernel

def setPlace (k : Kernel) (p : ℕ) (place : Place) : Kernel :=
  { k with place := Function.update k.place p place }

def setState (k : Kernel) (state : TaskState) : Kernel :=
  { k with rq := k.rq.setTask k.rq.curr { k.rq.tasks k.rq.curr with state := state } }

/-- `__add_wait_queue` at the head, or `__add_wait_queue_tail` for an exclusive entry. -/
def addWaitQueue (k : Kernel) (h : Head) (w : Waiter) : Kernel :=
  { k with waiters := Function.update k.waiters h (if w.exclusive then k.waiters h ++ [w] else w :: k.waiters h) }

/-- `__remove_wait_queue` for the entry of a task. -/
def removeWaitQueue (k : Kernel) (h : Head) (p : ℕ) : Kernel :=
  { k with waiters := Function.update k.waiters h ((k.waiters h).filter fun w => w.task ≠ p) }

/-- `x->done--` and the return. -/
def takeDone (k : Kernel) (x : ℕ) : Kernel :=
  { k with
    done := Function.update k.done x (k.done x - 1)
    returns := Function.update k.returns x (k.returns x + 1) }

/-- Up to the call of `schedule` in `sleep_on`, or in a caller of `add_wait_queue_exclusive`. -/
def sleepOn (k : Kernel) (a : ℕ) (exclusive : Bool) (state : TaskState) : Kernel :=
  let p := k.rq.curr
  ((k.setState state).addWaitQueue (.queue a) ⟨p, exclusive⟩).setPlace p (.enters (.queue a))

/-- `wait_for_completion` up to its return or its first call of `schedule`. -/
def waitForCompletion (k : Kernel) (x : ℕ) : Kernel :=
  let p := k.rq.curr
  if k.done x = 0 then
    ((k.addWaitQueue (.completion x) ⟨p, true⟩).setState .uninterruptible).setPlace p (.enters (.completion x))
  else k.takeDone x

/-- What follows the call of `schedule`. -/
def resume (k : Kernel) : Kernel :=
  let p := k.rq.curr
  match k.place p with
  | .sleeps (.queue a) => (k.removeWaitQueue (.queue a) p).setPlace p .free
  | .sleeps (.completion x) =>
    if k.done x = 0 then (k.setState .uninterruptible).setPlace p (.enters (.completion x))
    else ((k.removeWaitQueue (.completion x) p).takeDone x).setPlace p .free
  | _ => k

def complete (c : Clock) (jiffies x : ℕ) (k : Kernel) : Kernel :=
  { k with
    done := Function.update k.done x ((k.done x + 1) % 2 ^ 32)
    completes := Function.update k.completes x (k.completes x + 1)
    rq := wakeUpCommon c jiffies 3 (k.waiters (.completion x)) 1 k.rq }

/-- `__wake_up`. -/
def wakeUp (c : Clock) (jiffies : ℕ) (h : Head) (mode : ℕ) (nrExclusive : ℤ) (k : Kernel) : Kernel :=
  { k with rq := wakeUpCommon c jiffies mode (k.waiters h) nrExclusive k.rq }

def schedule (jiffies : ℕ) (signal : Bool) (k : Kernel) : Option Kernel :=
  (k.rq.schedule jiffies signal).map fun rq =>
    match k.place k.rq.curr with
    | .enters h => { k with rq := rq }.setPlace k.rq.curr (.sleeps h)
    | _ => { k with rq := rq }

end Kernel

/-- `sched` is an event of the scheduler apart from a call of `schedule`. -/
inductive Event where
  | sleepOn (a : ℕ) (exclusive : Bool) (state : TaskState)
  | waitForCompletion (x : ℕ)
  | schedule (signal : Bool)
  | resume
  | complete (x : ℕ)
  | wakeUp (a mode : ℕ) (nrExclusive : ℤ)
  | sched (e : Sched.Event)
deriving DecidableEq

/-- An interrupt may make the event while a task is in one of these functions. -/
def FromInterrupt : Sched.Event → Bool
  | .schedulerTick => true
  | .tryToWakeUp _ => true
  | _ => false

def Place.Back : Place → Prop
  | .sleeps _ => True
  | _ => False

instance : ∀ place : Place, Decidable place.Back
  | .free => inferInstanceAs (Decidable False)
  | .enters _ => inferInstanceAs (Decidable False)
  | .sleeps _ => inferInstanceAs (Decidable True)

namespace Kernel

/-- The idle task does not sleep, and a task in one of these functions does nothing else. -/
def Allowed (k : Kernel) : Event → Prop
  | .sleepOn _ _ state => k.rq.curr ≠ k.rq.idle ∧ k.place k.rq.curr = .free ∧
    (state = .interruptible ∨ state = .uninterruptible)
  | .waitForCompletion _ => k.rq.curr ≠ k.rq.idle ∧ k.place k.rq.curr = .free
  | .schedule _ => True
  | .resume => (k.place k.rq.curr).Back
  | .complete _ => True
  | .wakeUp _ _ _ => True
  | .sched e => k.rq.Allowed e ∧ (∀ signal, e ≠ .schedule signal) ∧
    (FromInterrupt e = true ∨ k.place k.rq.curr = .free)

instance (k : Kernel) : ∀ e : Event, Decidable (k.Allowed e)
  | .sleepOn _ _ state => inferInstanceAs (Decidable (k.rq.curr ≠ k.rq.idle ∧ k.place k.rq.curr = .free ∧
    (state = .interruptible ∨ state = .uninterruptible)))
  | .waitForCompletion _ => inferInstanceAs (Decidable (k.rq.curr ≠ k.rq.idle ∧ k.place k.rq.curr = .free))
  | .schedule _ => inferInstanceAs (Decidable True)
  | .resume => inferInstanceAs (Decidable (k.place k.rq.curr).Back)
  | .complete _ => inferInstanceAs (Decidable True)
  | .wakeUp _ _ _ => inferInstanceAs (Decidable True)
  | .sched e => inferInstanceAs (Decidable (k.rq.Allowed e ∧ (∀ signal, e ≠ .schedule signal) ∧
    (FromInterrupt e = true ∨ k.place k.rq.curr = .free)))

def step (c : Clock) (jiffies : ℕ) (k : Kernel) : Event → Option Kernel
  | .sleepOn a exclusive state => some (k.sleepOn a exclusive state)
  | .waitForCompletion x => some (k.waitForCompletion x)
  | .schedule signal => k.schedule jiffies signal
  | .resume => some k.resume
  | .complete x => some (k.complete c jiffies x)
  | .wakeUp a mode nrExclusive => some (k.wakeUp c jiffies (.queue a) mode nrExclusive)
  | .sched e => (k.rq.step c jiffies e).map fun r => { k with rq := r.2 }

def Step (c : Clock) (k : Kernel) (e : ℕ × Event) (k' : Kernel) : Prop :=
  k.Allowed e.2 ∧ k.step c e.1 e.2 = some k'

def boot (c : Clock) (jiffies : ℕ) : Kernel where
  rq := Runqueue.schedInit c jiffies
  waiters := fun _ => []
  done := fun _ => 0
  place := fun _ => .free
  completes := fun _ => 0
  returns := fun _ => 0

end Kernel

end OperationSystems.Wait
