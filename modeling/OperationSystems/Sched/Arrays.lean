import OperationSystems.Sched.Model
import OperationSystems.Lib.Buckets

/-!
# Priority arrays

An array holds a placement of tasks if its queues do, each bit tells whether
its queue is empty, and `nr_active` counts the tasks. Taking a task out of its
queue, putting one at the end of a queue and moving one to another place keep
this.
-/

namespace OperationSystems.Sched
open Buckets

namespace PrioArray
variable {a : PrioArray} {place : ℕ → Option ℤ} {p : ℕ} {i j : ℤ} {l : List ℕ}

/-- The numbers of the queues. -/
def slots : Finset ℤ :=
  @Finset.Ico ℤ instLatticeInt.toSemilatticeInf.toPartialOrder.toPreorder Int.instLocallyFiniteOrder
    0 maxPrio

structure Represents (a : PrioArray) (place : ℕ → Option ℤ) : Prop where
  queues : Buckets.Holds a.queue place
  bits : ∀ i ∈ slots, a.bitmap i = true ↔ a.queue i ≠ []
  delimiter : a.bitmap maxPrio = true
  count : a.nrActive = total slots a.queue
  range : ∀ p i, place p = some i → i ∈ slots

def dequeue (a : PrioArray) (p : ℕ) (i : ℤ) : PrioArray where
  nrActive := a.nrActive - 1
  queue := remove a.queue p
  bitmap := if remove a.queue p i = [] then Function.update a.bitmap i false else a.bitmap

def enqueue (a : PrioArray) (p : ℕ) (i : ℤ) : PrioArray where
  nrActive := a.nrActive + 1
  queue := Function.update a.queue i (a.queue i ++ [p])
  bitmap := Function.update a.bitmap i true

theorem maxPrio_not_mem : maxPrio ∉ slots := by
  simp [slots]

theorem Represents.congr {place' : ℕ → Option ℤ} (h : a.Represents place)
    (hp : ∀ p, place' p = place p) : a.Represents place' := by
  obtain rfl : place' = place := funext hp
  exact h

theorem Represents.ne_maxPrio (h : a.Represents place) (hp : place p = some i) : maxPrio ≠ i := by
  rintro rfl
  exact maxPrio_not_mem (h.range p _ hp)

theorem Represents.remove_of_ne (h : a.Represents place) (hp : place p = some i) (hj : j ≠ i) :
    remove a.queue p j = a.queue j := by
  refine List.erase_of_not_mem ?_
  rw [h.queues.mem_iff, hp]
  exact fun he => hj (Option.some.inj he).symm

theorem range_update {v : Option ℤ} (h : a.Represents place) (hv : ∀ i, v = some i → i ∈ slots) :
    ∀ q i, Function.update place p v q = some i → i ∈ slots := by
  intro q i hq
  by_cases hqp : q = p
  · subst hqp
    exact hv i (by simpa using hq)
  · exact h.range q i (by simpa [hqp] using hq)

theorem Represents.dequeue (h : a.Represents place) (hp : place p = some i) :
    (a.dequeue p i).Represents (Function.update place p none) := by
  have hi := h.range p i hp
  have hc := h.queues.total_remove hp hi
  refine ⟨h.queues.remove p, fun j hj => ?_, ?_, ?_, range_update h (by simp)⟩
  · simp only [PrioArray.dequeue]
    by_cases hji : j = i
    · subst hji
      split_ifs with hnil
      · simp [hnil]
      · have hq : a.queue j ≠ [] := List.ne_nil_of_mem (h.queues.mem_iff.mpr hp)
        simp [hnil, (h.bits j hj).mpr hq]
    · rw [h.remove_of_ne hp hji]
      split_ifs <;> simp [hji, h.bits j hj]
  · simp only [PrioArray.dequeue]
    split_ifs <;> simp [h.ne_maxPrio hp, h.delimiter]
  · have := h.count
    simp only [PrioArray.dequeue]
    omega

theorem Represents.enqueue (h : a.Represents place) (hp : place p = none) (hi : i ∈ slots) :
    (a.enqueue p i).Represents (Function.update place p (some i)) := by
  have hl : (a.queue i ++ [p]).Perm (p :: a.queue i) := List.perm_append_singleton _ _
  have hc := total_insert hl hi
  refine ⟨h.queues.insert hp hl, fun j hj => ?_, ?_, ?_,
    range_update h fun j hj => Option.some.inj hj ▸ hi⟩
  · by_cases hji : j = i
    · subst hji
      simp [PrioArray.enqueue]
    · simp [PrioArray.enqueue, hji, h.bits j hj]
  · have hne : maxPrio ≠ i := fun he => maxPrio_not_mem (he ▸ hi)
    simp [PrioArray.enqueue, hne, h.delimiter]
  · have := h.count
    simp only [PrioArray.enqueue]
    omega

/-- A task goes from queue `i` to some place in queue `j`. -/
theorem Represents.move (h : a.Represents place) (hp : place p = some i) (hj : j ∈ slots)
    (hl : l.Perm (p :: remove a.queue p j)) {bitmap : ℤ → Bool}
    (hbits : ∀ k ∈ slots, bitmap k = true ↔ Function.update (remove a.queue p) j l k ≠ [])
    (hdel : bitmap maxPrio = true) :
    PrioArray.Represents
      { a with queue := Function.update (remove a.queue p) j l, bitmap := bitmap }
      (Function.update place p (some j)) := by
  have hr := h.queues.total_remove hp (h.range p i hp)
  have hi := total_insert hl hj
  refine ⟨?_, hbits, hdel, ?_, range_update h fun k hk => Option.some.inj hk ▸ hj⟩
  · have hq := (h.queues.remove p).insert (Function.update_self ..) hl
    rwa [Function.update_idem] at hq
  · have := h.count
    dsimp only
    omega

end PrioArray

end OperationSystems.Sched
