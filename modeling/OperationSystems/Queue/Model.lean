import OperationSystems.Lib.Run

/-!
# The queue of one producer and many consumers

Every statement of `push` and `pop` between two operations on the mutex or on a
condition is a step of its own, so the threads interleave wherever they can. A
thread that waits for a condition does not compete for the mutex until it is
woken, by a signal, a broadcast or for no reason. Two histories are kept beside
the program: the values pushed and, as pops leave the critical section, the
values they return.
-/

namespace OperationSystems.Queue

variable {T κ : Type*}

/-- Where the producer is in `push(item)`. -/
inductive ProducerPc (T : Type*) where
  | idle
  | lock (item : T)
  | enter (item : T)
  | test (item : T)
  | wait (item : T)
  | relock (item : T)
  | pass (item : T)
  | insert (item : T)
  | leave
  | notify
  | unlock

/-- Where a consumer is in `pop()`. `fault` is the use of the front of an empty queue. -/
inductive ConsumerPc (T : Type*) where
  | idle
  | lock
  | test
  | wait
  | relock
  | pass
  | remove
  | leave (tempItem : T)
  | notify (tempItem : T)
  | unlock (tempItem : T)
  | fault

inductive Owner (κ : Type*) where
  | producer
  | consumer (k : κ)

structure PCQueue (T κ : Type*) where
  items : List T
  consumersInside : ℤ
  producersInside : ℤ
  producersWaiting : ℤ
  globalLock : Option (Owner κ)
  producer : ProducerPc T
  consumers : κ → ConsumerPc T
  pushed : List T
  returned : List T

namespace PCQueue

/-- The queue after its constructor, before any call. -/
def empty : PCQueue T κ where
  items := []
  consumersInside := 0
  producersInside := 0
  producersWaiting := 0
  globalLock := none
  producer := .idle
  consumers _ := .idle
  pushed := []
  returned := []

/-- `pthread_cond_broadcast(&approve_to_read)`. -/
def broadcastRead (s : PCQueue T κ) : PCQueue T κ :=
  { s with consumers := fun k => match s.consumers k with
    | .wait => .relock
    | pc => pc }

/-- `pthread_cond_signal(&approve_to_write)`, for which only the producer waits. -/
def signalWrite (s : PCQueue T κ) : PCQueue T κ :=
  { s with producer := match s.producer with
    | .wait item => .relock item
    | pc => pc }

def producerStep (s : PCQueue T κ) : Option (PCQueue T κ) :=
  match s.producer with
  | .idle => none
  | .lock item =>
    match s.globalLock with
    | none => some { s with globalLock := some .producer, producer := .enter item }
    | some _ => none
  | .enter item => some { s with
      producersWaiting := s.producersWaiting + 1, producer := .test item }
  | .test item =>
    if s.producersInside + s.consumersInside > 0 then
      some { s with globalLock := none, producer := .wait item }
    else some { s with producer := .pass item }
  | .wait _ => none
  | .relock item =>
    match s.globalLock with
    | none => some { s with globalLock := some .producer, producer := .test item }
    | some _ => none
  | .pass item => some { s with
      producersWaiting := s.producersWaiting - 1, producersInside := s.producersInside + 1
      producer := .insert item }
  | .insert item => some { s with
      items := s.items ++ [item], producer := .leave, pushed := s.pushed ++ [item] }
  | .leave => some { s with producersInside := s.producersInside - 1, producer := .notify }
  | .notify =>
    if s.producersInside = 0 then some { s.broadcastRead.signalWrite with producer := .unlock }
    else some { s with producer := .unlock }
  | .unlock => some { s with globalLock := none, producer := .idle }

variable [DecidableEq κ]

def setConsumer (s : PCQueue T κ) (k : κ) (pc : ConsumerPc T) : PCQueue T κ :=
  { s with consumers := Function.update s.consumers k pc }

def consumerStep (s : PCQueue T κ) (k : κ) : Option (PCQueue T κ) :=
  match s.consumers k with
  | .idle => none
  | .lock =>
    match s.globalLock with
    | none => some { s.setConsumer k .test with globalLock := some (.consumer k) }
    | some _ => none
  | .test =>
    if s.producersInside ≠ 0 ∨ s.producersWaiting ≠ 0 ∨ s.items.isEmpty = true ∨ s.consumersInside ≠ 0 then
      some { s.setConsumer k .wait with globalLock := none }
    else some (s.setConsumer k .pass)
  | .wait => none
  | .relock =>
    match s.globalLock with
    | none => some { s.setConsumer k .test with globalLock := some (.consumer k) }
    | some _ => none
  | .pass => some { s.setConsumer k .remove with consumersInside := s.consumersInside + 1 }
  | .remove =>
    match s.items with
    | [] => some (s.setConsumer k .fault)
    | tempItem :: items => some { s.setConsumer k (.leave tempItem) with items := items }
  | .leave tempItem => some { s.setConsumer k (.notify tempItem) with
      consumersInside := s.consumersInside - 1 }
  | .notify tempItem =>
    if s.consumersInside = 0 then some (s.signalWrite.setConsumer k (.unlock tempItem))
    else some (s.setConsumer k (.unlock tempItem))
  | .unlock tempItem => some { s.setConsumer k .idle with
      globalLock := none, returned := s.returned ++ [tempItem] }
  | .fault => none

end PCQueue

/-- A call, a step of a call that is under way, or a wakeup without a signal. -/
inductive Event (T κ : Type*) where
  | push (item : T)
  | producer
  | wakeProducer
  | pop (k : κ)
  | consumer (k : κ)
  | wakeConsumer (k : κ)

def next [DecidableEq κ] (s : PCQueue T κ) : Event T κ → Option (PCQueue T κ)
  | .push item =>
    match s.producer with
    | .idle => some { s with producer := .lock item }
    | _ => none
  | .producer => s.producerStep
  | .wakeProducer =>
    match s.producer with
    | .wait item => some { s with producer := .relock item }
    | _ => none
  | .pop k =>
    match s.consumers k with
    | .idle => some (s.setConsumer k .lock)
    | _ => none
  | .consumer k => s.consumerStep k
  | .wakeConsumer k =>
    match s.consumers k with
    | .wait => some (s.setConsumer k .relock)
    | _ => none

def Step [DecidableEq κ] (s : PCQueue T κ) (e : Event T κ) (t : PCQueue T κ) : Prop := next s e = some t

end OperationSystems.Queue
