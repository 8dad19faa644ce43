import Mathlib

/-!
# Rings

A set of nodes is divided into rings if its two link functions stay in it and
are inverse to each other. Which node shares a ring with which is left to the
links. A node enters as a ring of its own or behind another node, and whoever
follows the links of a finite set comes back to where it started.
-/

namespace OperationSystems.Rings

variable {α : Type*} {next prev next' prev' : α → α} {S : Set α}

structure Linked (next prev : α → α) (S : Set α) : Prop where
  next_mem : ∀ x ∈ S, next x ∈ S
  prev_mem : ∀ x ∈ S, prev x ∈ S
  prev_next : ∀ x ∈ S, prev (next x) = x
  next_prev : ∀ x ∈ S, next (prev x) = x

namespace Linked
variable (h : Linked next prev S)
include h

theorem congr (hn : ∀ x ∈ S, next' x = next x) (hp : ∀ x ∈ S, prev' x = prev x) :
    Linked next' prev' S where
  next_mem x hx := hn x hx ▸ h.next_mem x hx
  prev_mem x hx := hp x hx ▸ h.prev_mem x hx
  prev_next x hx := by rw [hn x hx, hp _ (h.next_mem x hx), h.prev_next x hx]
  next_prev x hx := by rw [hp x hx, hn _ (h.prev_mem x hx), h.next_prev x hx]

theorem next_inj {x y : α} (hx : x ∈ S) (hy : y ∈ S) (he : next x = next y) : x = y := by
  rw [← h.prev_next x hx, he, h.prev_next y hy]

theorem prev_inj {x y : α} (hx : x ∈ S) (hy : y ∈ S) (he : prev x = prev y) : x = y := by
  rw [← h.next_prev x hx, he, h.next_prev y hy]

theorem prev_eq_iff {x y : α} (hx : x ∈ S) (hy : y ∈ S) : prev x = y ↔ x = next y := by
  constructor
  · rintro rfl
    exact (h.next_prev x hx).symm
  · rintro rfl
    exact h.prev_next y hy

theorem single {a : α} (ha : a ∉ S) (hn : next' a = a) (hp : prev' a = a)
    (hns : ∀ x ∈ S, next' x = next x) (hps : ∀ x ∈ S, prev' x = prev x) :
    Linked next' prev' (insert a S) := by
  have hs := h.congr hns hps
  refine ⟨?_, ?_, ?_, ?_⟩
  · rintro x (rfl | hx)
    · exact .inl hn
    · exact .inr (hs.next_mem x hx)
  · rintro x (rfl | hx)
    · exact .inl hp
    · exact .inr (hs.prev_mem x hx)
  · rintro x (rfl | hx)
    · rw [hn, hp]
    · exact hs.prev_next x hx
  · rintro x (rfl | hx)
    · rw [hp, hn]
    · exact hs.next_prev x hx

/-- The node `a` enters behind `c`. -/
theorem add {a c : α} (ha : a ∉ S) (hc : c ∈ S) (hnc : next' c = a) (hna : next' a = next c)
    (hpa : prev' a = c) (hpn : prev' (next c) = a) (hn : ∀ x ∈ S, x ≠ c → next' x = next x)
    (hp : ∀ x ∈ S, x ≠ next c → prev' x = prev x) : Linked next' prev' (insert a S) := by
  have hcn := h.next_mem c hc
  refine ⟨?_, ?_, ?_, ?_⟩
  · rintro x (rfl | hx)
    · exact .inr (hna ▸ hcn)
    · by_cases hxc : x = c
      · exact .inl (hxc ▸ hnc)
      · exact .inr (hn x hx hxc ▸ h.next_mem x hx)
  · rintro x (rfl | hx)
    · exact .inr (hpa ▸ hc)
    · by_cases hxn : x = next c
      · exact .inl (hxn ▸ hpn)
      · exact .inr (hp x hx hxn ▸ h.prev_mem x hx)
  · rintro x (rfl | hx)
    · rw [hna, hpn]
    · by_cases hxc : x = c
      · rw [hxc, hnc, hpa]
      · have hne : next x ≠ next c := fun he => hxc (h.next_inj hx hc he)
        rw [hn x hx hxc, hp _ (h.next_mem x hx) hne, h.prev_next x hx]
  · rintro x (rfl | hx)
    · rw [hpa, hnc]
    · by_cases hxn : x = next c
      · rw [hxn, hpn, hna]
      · have hne : prev x ≠ c := mt (h.prev_eq_iff hx hc).mp hxn
        rw [hp x hx hxn, hn _ (h.prev_mem x hx) hne, h.next_prev x hx]

/-- The node `a` leaves its ring. -/
theorem remove [DecidableEq α] {a : α} (ha : a ∈ S) (hn : next' (prev a) = next a) (hp : prev' (next a) = prev a)
    (hns : ∀ x ∈ S, x ≠ prev a → x ≠ a → next' x = next x)
    (hps : ∀ x ∈ S, x ≠ next a → x ≠ a → prev' x = prev x) : Linked next' prev' (S \ {a}) := by
  -- the neighbours of `a` are other nodes once some node beside `a` points at `a`
  have hstep : ∀ x ∈ S, x ≠ a → next' x = if next x = a then next a else next x := by
    intro x hx hxa
    split
    · rename_i he
      rw [← hn, ← he, h.prev_next x hx]
    · rename_i he
      exact hns x hx (fun hxp => he (hxp ▸ h.next_prev a ha)) hxa
  have hback : ∀ x ∈ S, x ≠ a → prev' x = if prev x = a then prev a else prev x := by
    intro x hx hxa
    split
    · rename_i he
      rw [← hp, ← he, h.next_prev x hx]
    · rename_i he
      exact hps x hx (fun hxn => he (hxn ▸ h.prev_next a ha)) hxa
  have hne : ∀ x ∈ S, x ≠ a → next x = a → next a ≠ a := by
    intro x hx hxa he hna
    exact hxa (h.next_inj hx ha (he.trans hna.symm))
  have hpe : ∀ x ∈ S, x ≠ a → prev x = a → prev a ≠ a := by
    intro x hx hxa he hna
    exact hxa (h.prev_inj hx ha (he.trans hna.symm))
  refine ⟨?_, ?_, ?_, ?_⟩
  · rintro x ⟨hx, hxa⟩
    rw [hstep x hx hxa]
    split
    · exact ⟨h.next_mem a ha, hne x hx hxa ‹_›⟩
    · exact ⟨h.next_mem x hx, ‹_›⟩
  · rintro x ⟨hx, hxa⟩
    rw [hback x hx hxa]
    split
    · exact ⟨h.prev_mem a ha, hpe x hx hxa ‹_›⟩
    · exact ⟨h.prev_mem x hx, ‹_›⟩
  · rintro x ⟨hx, hxa⟩
    rw [hstep x hx hxa]
    split
    · rename_i he
      rw [hp, ← he, h.prev_next x hx]
    · rename_i he
      rw [hback _ (h.next_mem x hx) he, h.prev_next x hx, if_neg (show ¬ x = a from hxa)]
  · rintro x ⟨hx, hxa⟩
    rw [hback x hx hxa]
    split
    · rename_i he
      rw [hn, ← he, h.next_prev x hx]
    · rename_i he
      rw [hstep _ (h.prev_mem x hx) he, h.next_prev x hx, if_neg (show ¬ x = a from hxa)]

theorem iterate_mem {x : α} (hx : x ∈ S) (n : ℕ) : next^[n] x ∈ S := by
  induction n with
  | zero => exact hx
  | succ n ih =>
    rw [Function.iterate_succ_apply']
    exact h.next_mem _ ih

theorem iterate_cancel {x : α} (hx : x ∈ S) {i n : ℕ} (he : next^[i] x = next^[i + n] x) :
    next^[n] x = x := by
  induction i with
  | zero => simpa using he.symm
  | succ i ih =>
    rw [Nat.succ_add, Function.iterate_succ_apply', Function.iterate_succ_apply'] at he
    exact ih (h.next_inj (h.iterate_mem hx i) (h.iterate_mem hx (i + n)) he)

/-- The way along a ring returns within as many steps as there are nodes. -/
theorem return_le {l : List α} (hl : ∀ x ∈ S, x ∈ l) {x : α} (hx : x ∈ S) :
    ∃ n, 0 < n ∧ n ≤ l.length ∧ next^[n] x = x := by
  classical
  have hcard : l.toFinset.card < (Finset.range (l.length + 1)).card := by
    rw [Finset.card_range]
    exact Nat.lt_succ_of_le (List.toFinset_card_le l)
  have hmaps : ∀ i ∈ Finset.range (l.length + 1), next^[i] x ∈ l.toFinset := by
    intro i _
    exact List.mem_toFinset.mpr (hl _ (h.iterate_mem hx i))
  obtain ⟨i, hi, j, hj, hne, he⟩ := Finset.exists_ne_map_eq_of_card_lt_of_maps_to hcard hmaps
  rw [Finset.mem_range] at hi hj
  rcases Nat.lt_or_gt_of_ne hne with hlt | hlt
  · refine ⟨j - i, by omega, by omega, h.iterate_cancel (i := i) hx ?_⟩
    rw [Nat.add_sub_cancel' hlt.le, he]
  · refine ⟨i - j, by omega, by omega, h.iterate_cancel (i := j) hx ?_⟩
    rw [Nat.add_sub_cancel' hlt.le, he]

end Linked

end OperationSystems.Rings
