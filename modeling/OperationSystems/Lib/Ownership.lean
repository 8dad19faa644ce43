import Mathlib

/-!
# Who holds which buffer

A ledger numbers the buffers that were ever acquired, and counts how often each
was released. `Holds L P` says that the relation `P` between holders and
buffers accounts for all of them: a held buffer is unreleased and held by its
owner alone, and a buffer that nobody holds was released exactly once.
-/

namespace OperationSystems.Ownership

variable {τ : Type*}

structure Ledger (τ : Type*) where
  next : ℕ
  owner : ℕ → τ
  releases : ℕ → ℕ

namespace Ledger

def acquire (L : Ledger τ) (t : τ) : Ledger τ where
  next := L.next + 1
  owner := Function.update L.owner L.next t
  releases := Function.update L.releases L.next 0

def release (L : Ledger τ) (b : ℕ) : Ledger τ :=
  { L with releases := Function.update L.releases b (L.releases b + 1) }

structure Holds (L : Ledger τ) (P : τ → ℕ → Prop) : Prop where
  held : ∀ t b, P t b → b < L.next ∧ L.owner b = t ∧ L.releases b = 0
  account : ∀ b < L.next, P (L.owner b) b ∨ L.releases b = 1

namespace Holds
variable {L : Ledger τ} {P Q : τ → ℕ → Prop}

theorem congr (h : Holds L P) (hPQ : ∀ t b, Q t b ↔ P t b) : Holds L Q :=
  ⟨fun t b hb => h.held t b ((hPQ t b).mp hb), fun b hb => (h.account b hb).imp_left (hPQ _ b).mpr⟩

theorem holder_unique (h : Holds L P) {s t : τ} {b : ℕ} (hs : P s b) (ht : P t b) : s = t := by
  rw [← (h.held s b hs).2.1, (h.held t b ht).2.1]

theorem released_le_one (h : Holds L P) {b : ℕ} (hb : b < L.next) : L.releases b ≤ 1 := by
  rcases h.account b hb with hp | hr
  · have h0 := (h.held _ b hp).2.2
    omega
  · exact hr.le

theorem released_once (h : Holds L P) {b : ℕ} (hb : b < L.next) (hn : ∀ t, ¬ P t b) :
    L.releases b = 1 :=
  (h.account b hb).resolve_left (hn _)

theorem acquire (h : Holds L P) (t : τ) :
    Holds (L.acquire t) (fun s b => P s b ∨ (s = t ∧ b = L.next)) := by
  refine ⟨?_, ?_⟩
  · intro s b hb
    rcases hb with hb | ⟨rfl, rfl⟩
    · obtain ⟨hlt, ho, hr⟩ := h.held s b hb
      have hne : b ≠ L.next := Nat.ne_of_lt hlt
      exact ⟨Nat.lt_succ_of_lt hlt, (Function.update_of_ne hne ..).trans ho,
        (Function.update_of_ne hne ..).trans hr⟩
    · exact ⟨Nat.lt_succ_self _, Function.update_self .., Function.update_self ..⟩
  · intro b hb
    by_cases he : b = L.next
    · subst he
      exact Or.inl (Or.inr ⟨Function.update_self .., rfl⟩)
    · have hlt : b < L.next := lt_of_le_of_ne (Nat.le_of_lt_succ hb) he
      simp only [Ledger.acquire, Function.update_of_ne he]
      exact (h.account b hlt).imp_left Or.inl

theorem release (h : Holds L P) {t : τ} {b : ℕ} (hb : P t b) :
    Holds (L.release b) (fun s c => P s c ∧ c ≠ b) := by
  have h0 := (h.held t b hb).2.2
  refine ⟨?_, ?_⟩
  · rintro s c ⟨hc, hne⟩
    obtain ⟨hlt, ho, hr⟩ := h.held s c hc
    exact ⟨hlt, ho, (Function.update_of_ne hne ..).trans hr⟩
  · intro c hc
    by_cases he : c = b
    · subst he
      refine Or.inr ((Function.update_self ..).trans ?_)
      rw [h0]
    · simp only [Ledger.release, Function.update_of_ne he]
      exact (h.account c hc).imp_left fun hp => ⟨hp, he⟩

end Holds

end Ledger

end OperationSystems.Ownership
