import OperationSystems.Sync.Semaphore

/-!
# The value and the waiters

The thread that owns the mutex explains the value, and what it still has to do
for the threads that wait: a signal to send, or one unit to take or to leave.
While a thread waits, every other unit of the value has a thread of its own
that has been woken and not yet taken the mutex.
-/

namespace OperationSystems.Sync

open OperationSystems.Transition

variable {κ : Type*}

namespace Pc

/-- Between the lock and the unlock of the mutex. -/
def Inside : Pc → Prop
  | .increase | .signal | .upUnlock | .test | .decrease | .downUnlock => True
  | _ => False

/-- What the call has done to the value before it returns. -/
def pending : Pc → ℤ
  | .signal | .upUnlock => 1
  | .downUnlock => -1
  | _ => 0

/-- The units of the value that the owner of the mutex will answer for. -/
def answers : Pc → ℤ
  | .signal | .test | .decrease => 1
  | _ => 0

/-- The units of the value that a woken thread answers for. -/
def woken : Pc → ℤ
  | .relock => 1
  | _ => 0

theorem outside {pc : Pc} (h : ¬ pc.Inside) : pc.pending = 0 ∧ pc.answers = 0 ∧ pc ≠ .decrease := by
  cases pc <;> simp_all [Inside, pending, answers]

end Pc

/-- Where the thread that owns the mutex is. -/
def Semaphore.holder (s : Semaphore κ) : Pc :=
  match s.owner with
  | some k => s.threads k
  | none => .idle

/-- `W` are threads that have been woken, and with the owner they answer for the value. -/
def Covers (s : Semaphore κ) (W : Finset κ) : Prop :=
  (∀ k ∈ W, s.threads k = .relock) ∧ s.semValue ≤ W.card + s.holder.answers

structure Inv (s : Semaphore κ) : Prop where
  ready : ∀ m, s.Ready m
  owner : ∀ k, (s.threads k).Inside ↔ s.owner = some k
  value : s.semValue = s.ups - s.downs + s.holder.pending
  nonneg : 0 ≤ s.semValue
  bounded : s.semValue ≤ intMax
  positive : s.holder = .decrease → 0 < s.semValue
  covered : (∃ k, s.threads k = .wait) → ∃ W, Covers s W

theorem inv_construct (junk : ℤ) : Inv (Semaphore.raw junk : Semaphore κ).construct where
  ready m := by cases m <;> rfl
  owner k := iff_of_false not_false (by simp [Semaphore.construct, Semaphore.raw])
  value := rfl
  nonneg := le_rfl
  bounded := (by decide : (0 : ℤ) ≤ intMax)
  positive h := by cases h
  covered h := by
    obtain ⟨k, hk⟩ := h
    cases hk

theorem toInt_eq {n : ℤ} (hl : 0 ≤ n) (hu : n ≤ intMax) : toInt n = n := by
  unfold intMax at hu
  refine Int.bmod_eq_of_le ?_ ?_ <;> push_cast <;> omega

variable {s t : Semaphore κ}

theorem holder_owner {k : κ} (h : s.owner = some k) : s.holder = s.threads k := by
  unfold Semaphore.holder
  rw [h]

theorem holder_free (h : s.owner = none) : s.holder = .idle := by
  unfold Semaphore.holder
  rw [h]

variable [DecidableEq κ]

@[simp] theorem setThread_same (s : Semaphore κ) (k : κ) (pc : Pc) : (s.setThread k pc).threads k = pc := by
  simp [Semaphore.setThread]

theorem setThread_others (s : Semaphore κ) {k l : κ} (pc : Pc) (hl : l ≠ k) :
    (s.setThread k pc).threads l = s.threads l := by
  simp [Semaphore.setThread, Function.update_of_ne hl]

namespace Inv

/-- A thread other than the one that moves is where it was, so its units stay covered. -/
theorem covers_of_move (hs : Inv s) {k : κ} (hothers : ∀ l, l ≠ k → t.threads l = s.threads l)
    (hwait : t.threads k = .wait → t.semValue ≤ t.holder.answers)
    (hstay : t.threads k ≠ .wait →
      t.semValue + s.holder.answers + (s.threads k).woken ≤ s.semValue + t.holder.answers)
    (h : ∃ l, t.threads l = .wait) : ∃ W, Covers t W := by
  by_cases hk : t.threads k = .wait
  · exact ⟨∅, by simp, by simpa using hwait hk⟩
  · obtain ⟨l, hl⟩ := h
    have hlk : l ≠ k := by
      rintro rfl
      exact hk hl
    obtain ⟨W, hW, hle⟩ := hs.covered ⟨l, hothers l hlk ▸ hl⟩
    have hcard : (W.card : ℤ) ≤ (W.erase k).card + (s.threads k).woken := by
      by_cases hmem : k ∈ W
      · have herase := Finset.card_erase_add_one hmem
        rw [hW k hmem, Pc.woken]
        omega
      · rw [Finset.erase_eq_of_notMem hmem]
        have hpos : 0 ≤ (s.threads k).woken := by cases s.threads k <;> simp [Pc.woken]
        omega
    refine ⟨W.erase k, fun w hw => ?_, ?_⟩
    · obtain ⟨hne, hw⟩ := Finset.mem_erase.mp hw
      rw [hothers w hne]
      exact hW w hw
    · have := hstay hk
      omega

omit [DecidableEq κ] in
theorem ready_congr (hs : Inv s)
    (h : t.lockReady = s.lockReady ∧ t.conditionReady = s.conditionReady) (m : Member) : t.Ready m := by
  cases m with
  | semLock => exact h.1.trans (hs.ready .semLock)
  | semCondition => exact h.2.trans (hs.ready .semCondition)

/-- The step of a thread that has the mutex or finds it free. -/
theorem move (hs : Inv s) {k : κ} (hown : s.owner = some k ∨ s.owner = none)
    (hready : t.lockReady = s.lockReady ∧ t.conditionReady = s.conditionReady)
    (hout : ∀ l, l ≠ k → (t.threads l).Inside → (s.threads l).Inside)
    (howner : t.owner = some k ∧ (t.threads k).Inside ∨ t.owner = none ∧ ¬ (t.threads k).Inside)
    (hvalue : t.semValue = t.ups - t.downs + (t.threads k).pending)
    (hnonneg : 0 ≤ t.semValue) (hbounded : t.semValue ≤ intMax)
    (hpositive : t.threads k = .decrease → 0 < t.semValue)
    (hcovered : t.holder.answers = (t.threads k).answers → (∃ l, t.threads l = .wait) → ∃ W, Covers t W) :
    Inv t := by
  have hothers : ∀ l, l ≠ k → ¬ (t.threads l).Inside := by
    intro l hl hin
    have hlock := (hs.owner l).mp (hout l hl hin)
    rcases hown with h | h <;> rw [h] at hlock
    · exact hl (Option.some.inj hlock).symm
    · cases hlock
  have hholder : t.holder.pending = (t.threads k).pending ∧ t.holder.answers = (t.threads k).answers ∧
      (t.holder = .decrease → t.threads k = .decrease) := by
    rcases howner with ⟨hlock, -⟩ | ⟨hlock, hin⟩
    · rw [holder_owner hlock]
      exact ⟨rfl, rfl, id⟩
    · obtain ⟨h1, h2, -⟩ := Pc.outside hin
      rw [holder_free hlock, h1, h2]
      exact ⟨rfl, rfl, fun h => by cases h⟩
  refine ⟨hs.ready_congr hready, fun l => ?_, ?_, hnonneg, hbounded, fun h => hpositive (hholder.2.2 h),
    hcovered hholder.2.1⟩
  · by_cases hl : l = k
    · rw [hl]
      rcases howner with ⟨hlock, hin⟩ | ⟨hlock, hin⟩
      · exact iff_of_true hin hlock
      · exact iff_of_false hin (by rw [hlock]; simp)
    · refine iff_of_false (hothers l hl) fun hlock => ?_
      rcases howner with ⟨h, -⟩ | ⟨h, -⟩ <;> rw [h] at hlock
      · exact hl (Option.some.inj hlock).symm
      · cases hlock
  · rw [hvalue, hholder.1]

end Inv

end OperationSystems.Sync
