import Mathlib

/-!
# Finite runs of labelled transition systems

A run records its labels in order and grows at its end, so a property of the
last step is available without unrolling the earlier ones.
-/

namespace OperationSystems.Transition

variable {σ ε : Type*} {step : σ → ε → σ → Prop}

inductive Run (step : σ → ε → σ → Prop) (s : σ) : List ε → σ → Prop where
  | nil : Run step s [] s
  | snoc {es : List ε} {t u : σ} {e : ε} : Run step s es t → step t e u → Run step s (es ++ [e]) u

namespace Run

theorem invariant {P : σ → Prop} {s t : σ} {es : List ε} (h : Run step s es t)
    (h0 : P s) (hstep : ∀ t e u, P t → step t e u → P u) : P t := by
  induction h with
  | nil => exact h0
  | snoc _ he ih => exact hstep _ _ _ ih he

theorem append {s t u : σ} {es fs : List ε} (h : Run step s es t) (h' : Run step t fs u) :
    Run step s (es ++ fs) u := by
  induction h' with
  | nil => simpa using h
  | snoc _ he ih =>
    rw [← List.append_assoc]
    exact ih.snoc he

theorem single {s t : σ} {e : ε} (h : step s e t) : Run step s [e] t :=
  Run.nil.snoc h

/-- A run seen through functions of the states and of the labels. -/
theorem map {τ δ : Type*} {step' : τ → δ → τ → Prop} {f : σ → τ} {g : ε → δ} {s t : σ} {es : List ε}
    (h : Run step s es t) (hstep : ∀ s e t, step s e t → step' (f s) (g e) (f t)) :
    Run step' (f s) (es.map g) (f t) := by
  induction h with
  | nil => exact .nil
  | snoc _ he ih =>
    rw [List.map_append]
    exact ih.snoc (hstep _ _ _ he)

/-- The state after a list of labels, where each step is computed and may fail. -/
def exec (next : σ → ε → Option σ) (s : σ) : List ε → Option σ
  | [] => some s
  | e :: es => (next s e).bind fun t => exec next t es

theorem of_exec {next : σ → ε → Option σ} (hnext : ∀ s e t, next s e = some t → step s e t)
    {s t : σ} {es : List ε} (h : exec next s es = some t) : Run step s es t := by
  induction es generalizing s with
  | nil =>
    cases h
    exact .nil
  | cons e es ih =>
    obtain ⟨u, hu, ht⟩ := Option.bind_eq_some_iff.mp h
    exact (single (hnext s e u hu)).append (ih ht)

/-- Steps beside a counter of those that `hit` picks out. -/
def Counting (step : σ → ε → σ → Prop) (hit : σ → ε → Prop) [∀ s e, Decidable (hit s e)] (s : σ × ℕ)
    (e : ε) (t : σ × ℕ) : Prop :=
  step s.1 e t.1 ∧ t.2 = s.2 + if hit s.1 e then 1 else 0

end Run

end OperationSystems.Transition
