import Mathlib

/-!
# Logs in a ring of slots

The `i`-th record goes to slot `i % cap`. `Holds cap slots log` says that the
slots show every record of the log that has not been overwritten.
-/

namespace OperationSystems.RingLog

variable {α : Type*} {cap : ℕ} {slots : ℕ → α} {log : List α}

def Holds (cap : ℕ) (slots : ℕ → α) (log : List α) : Prop :=
  ∀ i (hi : i < log.length), log.length ≤ i + cap → slots (i % cap) = log[i]

theorem Holds.nil (cap : ℕ) (slots : ℕ → α) : Holds cap slots [] := by
  intro i hi
  simp at hi

/-- Two of the last `cap` positions never share a slot. -/
theorem mod_ne {i n : ℕ} (hi : i < n) (hn : n < i + cap) : i % cap ≠ n % cap := by
  intro h
  have hd : cap ∣ n - i := (Nat.modEq_iff_dvd' hi.le).mp h
  have hle := Nat.le_of_dvd (by omega) hd
  omega

theorem Holds.push (h : Holds cap slots log) (x : α) :
    Holds cap (Function.update slots (log.length % cap) x) (log ++ [x]) := by
  intro i hi hcap
  rw [List.length_append, List.length_singleton] at hi hcap
  by_cases he : i = log.length
  · subst he
    rw [Function.update_self, List.getElem_concat_length rfl]
  · have hlt : i < log.length := by omega
    rw [Function.update_of_ne (mod_ne hlt (by omega)), List.getElem_append_left hlt]
    exact h i hlt (by omega)

/-- The slot of a record among the last `cap` ones. -/
theorem Holds.get (h : Holds cap slots log) {i s : ℕ} (hi : i < log.length)
    (hcap : log.length ≤ i + cap) (hs : i % cap = s) : log[i]? = some (slots s) := by
  rw [List.getElem?_eq_getElem hi, ← h i hi hcap, hs]

end OperationSystems.RingLog
