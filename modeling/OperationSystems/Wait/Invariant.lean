import OperationSystems.Wait.Wake

/-!
# The invariant of the wait queues

The queues hold the tasks that are in a sleeping function, each once, the
exclusive ones last. A waiter of a completion that sleeps is covered: the
completions that are left are no more than the waiters that run already.
-/

namespace OperationSystems.Wait

open Sched (Runqueue TaskState Clock Task)
open Sched.Runqueue

variable {c : Clock} {jiffies mode x : ℕ} {rq rq' : Runqueue} {p q : ℕ} {w : Waiter} {ws : List Waiter} {n : ℤ}
  {k k' : Kernel} {h : Head} {D : Set ℕ} {state : TaskState}

def Place.Waits (h : Head) (place : Place) : Prop := place = .enters h ∨ place = .sleeps h

/-- A task that runs is on the runqueue, and one that does not run sleeps. -/
def Rests (t : Task) : Prop :=
  t.state = .running ∧ t.array ≠ none ∨ t.state = .interruptible ∨ t.state = .uninterruptible

/-- The waiters that run. -/
def running (rq : Runqueue) (ws : List Waiter) : ℕ := ws.countP fun w => Up rq w

/-- All waiters run, or at least as many as there are completions. -/
def Covered (rq : Runqueue) (ws : List Waiter) (done : ℕ) : Prop := (∀ w ∈ ws, Up rq w) ∨ done ≤ running rq ws

structure Inv (k : Kernel) : Prop where
  ok : k.rq.Ok
  waits : ∀ h p, (∃ w ∈ k.waiters h, w.task = p) ↔ (k.place p).Waits h
  distinct : ∀ h, ((k.waiters h).map Waiter.task).Nodup
  sorted : ∀ h, (k.waiters h).Pairwise fun v w => v.exclusive = true → w.exclusive = true
  hashed : ∀ p, k.place p ≠ .free → k.rq.hashed p = true
  entering : ∀ h p, k.place p = .enters h → k.rq.curr = p
  rests : ∀ p, k.place p ≠ .free → Rests (k.rq.tasks p)
  asleep : ∀ h p, k.place p = .sleeps h → (k.rq.tasks p).state ≠ .running → (k.rq.tasks p).array = none
  covered : ∀ x, Covered k.rq (k.waiters (.completion x)) (k.done x)
  bound : ∀ x, k.done x + k.returns x ≤ k.completes x
  count : ∀ x, k.done x + k.returns x ≡ k.completes x [MOD 2 ^ 32]
  small : ∀ x, k.done x < 2 ^ 32

theorem Waits.ne_free {place : Place} (hp : place.Waits h) : place ≠ .free := by
  rintro rfl
  rcases hp with hp | hp <;> cases hp

theorem waits_of_ne_free {place : Place} (hp : place ≠ .free) : ∃ h, place.Waits h := by
  cases place with
  | free => exact absurd rfl hp
  | enters h => exact ⟨h, .inl rfl⟩
  | sleeps h => exact ⟨h, .inr rfl⟩

theorem Rests.calm {t u : Task} (h : Rests t) (hc : t.Calm u) : Rests u := by
  rcases hc with ⟨hs, -, ha⟩ | hw
  · rcases h with ⟨hr, harr⟩ | h
    · exact .inl ⟨hs.trans hr, ha hr harr⟩
    · exact .inr (hs ▸ h)
  · exact .inl hw

theorem up_of_calm (hc : (rq.tasks w.task).Calm (rq'.tasks w.task)) (hw : Up rq w) : Up rq' w := by
  rcases hc with ⟨hs, -⟩ | ⟨hs, -⟩
  · exact hs.trans hw
  · exact hs

theorem running_mono (hup : ∀ w ∈ ws, Up rq w → Up rq' w) : running rq ws ≤ running rq' ws := by
  refine List.countP_mono_left fun w hw hu => ?_
  simpa using hup w hw (by simpa using hu)

/-- One waiter more runs. -/
theorem running_lt (hup : ∀ w ∈ ws, Up rq w → Up rq' w) (hw : w ∈ ws) (hno : ¬ Up rq w) (hyes : Up rq' w) :
    running rq ws < running rq' ws := by
  induction ws with
  | nil => cases hw
  | cons v ws ih =>
    have hmono : running rq ws ≤ running rq' ws := running_mono fun u hu => hup u (List.mem_cons_of_mem v hu)
    simp only [running, List.countP_cons, decide_eq_true_eq] at ih hmono ⊢
    rcases List.mem_cons.mp hw with rfl | hw
    · rw [if_neg hno, if_pos hyes]
      omega
    · have := ih (fun u hu => hup u (List.mem_cons_of_mem v hu)) hw
      have hv := hup v List.mem_cons_self
      split
      · rw [if_pos (hv ‹_›)]
        omega
      · split <;> omega

theorem Covered.mono {done : ℕ} (hc : Covered rq ws done) (hup : ∀ w ∈ ws, Up rq w → Up rq' w) :
    Covered rq' ws done := by
  rcases hc with hall | hle
  · exact .inl fun w hw => hup w hw (hall w hw)
  · exact .inr (hle.trans (running_mono hup))

namespace Inv

/-- A calm change of the runqueue, in which a task may also get into `schedule`. -/
theorem calm (hi : Inv k) (hok : rq'.Ok) (hc : Calms D k.rq rq') (hD : ∀ p ∈ D, k.place p = .free)
    {place : ℕ → Place} (hplace : ∀ p h, (place p).Waits h ↔ (k.place p).Waits h)
    (hcurr : ∀ h p, place p = .enters h → rq'.curr = p)
    (hasleep : ∀ h p, place p = .sleeps h → k.place p = .sleeps h ∨
      ((rq'.tasks p).state ≠ .running → (rq'.tasks p).array = none)) :
    Inv { k with rq := rq', place := place } := by
  have hfree : ∀ p, place p ≠ .free → k.place p ≠ .free := fun p hp => by
    obtain ⟨h, hw⟩ := waits_of_ne_free hp
    exact Waits.ne_free ((hplace p h).mp hw)
  have htask : ∀ p, place p ≠ .free → (k.rq.tasks p).Calm (rq'.tasks p) :=
    fun p hp => hc.tasks p fun hm => hfree p hp (hD p hm)
  refine ⟨hok, fun h p => (hi.waits h p).trans (hplace p h).symm, hi.distinct, hi.sorted,
    fun p hp => hc.hashed p (hi.hashed p (hfree p hp)), hcurr,
    fun p hp => (hi.rests p (hfree p hp)).calm (htask p hp), ?_, ?_, hi.bound, hi.count, hi.small⟩
  · intro h p hp hs
    rcases hasleep h p hp with hk | ha
    · rcases htask p (Waits.ne_free (h := h) (.inr hp)) with ⟨hst, hn, -⟩ | ⟨hr, -⟩
      · exact hn (hi.asleep h p hk fun hr => hs (hst.trans hr))
      · exact absurd hr hs
    · exact ha hs
  · intro x
    refine (hi.covered x).mono fun w hw => up_of_calm (htask w.task ?_)
    exact Waits.ne_free ((hplace _ _).mpr ((hi.waits (.completion x) w.task).mp ⟨w, hw, rfl⟩))

theorem woken (hi : Inv k) (hw : Woken k.rq rq') : Inv { k with rq := rq' } :=
  hi.calm hw.ok hw.calms (by simp) (fun _ _ => Iff.rfl) (fun h p hp => hw.curr.trans (hi.entering h p hp))
    fun _ _ hp => .inl hp

/-- A waiter is a task in a sleeping function. -/
theorem waits_of_mem (hi : Inv k) (hw : w ∈ k.waiters h) : (k.place w.task).Waits h :=
  (hi.waits h w.task).mp ⟨w, hw, rfl⟩

theorem hashed_of_mem (hi : Inv k) (hw : w ∈ k.waiters h) : k.rq.hashed w.task = true :=
  hi.hashed _ (Waits.ne_free (hi.waits_of_mem hw))

theorem not_mem_of_free (hi : Inv k) (hp : k.place p = .free) (hw : w ∈ k.waiters h) : w.task ≠ p := by
  rintro rfl
  exact Waits.ne_free (hi.waits_of_mem hw) hp

/-- The current task runs if it is back from `schedule`. -/
theorem up_of_back (hi : Inv k) (hp : k.place k.rq.curr = .sleeps h) :
    (k.rq.tasks k.rq.curr).state = .running ∧ (k.rq.tasks k.rq.curr).array ≠ none := by
  have hne := Waits.ne_free (h := h) (.inr hp)
  have hidle : k.rq.curr ≠ k.rq.idle := by
    intro he
    have hhash := hi.hashed _ hne
    rw [he, hi.ok.idleUnhashed] at hhash
    cases hhash
  have harr := (hi.ok.curr hidle).2 (by simp)
  by_contra hno
  exact harr (hi.asleep h _ hp fun hr => hno ⟨hr, harr⟩)

end Inv

end OperationSystems.Wait
