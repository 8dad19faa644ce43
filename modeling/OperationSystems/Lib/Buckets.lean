import Mathlib

/-!
# Elements sorted into buckets

A family of lists holds a placement if each element is in the bucket where it
is placed, once, and in no other one. Elements are moved by taking them out of
all buckets and putting them into one, at any position. A list of the buckets
puts their elements into one order.
-/

namespace OperationSystems.Buckets

variable {κ α : Type*} [DecidableEq κ] {q : κ → List α}

/-- The number of elements in the buckets of `S`. -/
def total (S : Finset κ) (q : κ → List α) : ℕ := ∑ k ∈ S, (q k).length

theorem total_insert {a : α} {k : κ} {l : List α} {S : Finset κ} (hl : l.Perm (a :: q k))
    (hk : k ∈ S) : total S (Function.update q k l) = total S q + 1 := by
  have hne : ∀ j ∈ S.erase k, (Function.update q k l j).length = (q j).length := by
    intro j hj
    rw [Function.update_of_ne (Finset.ne_of_mem_erase hj)]
  have hlen : l.length = (q k).length + 1 := by rw [hl.length_eq, List.length_cons]
  rw [total, total, ← Finset.add_sum_erase S _ hk, ← Finset.add_sum_erase S _ hk,
    Finset.sum_congr rfl hne, Function.update_self]
  omega

/-- The elements one after the other, in the order of their buckets. -/
def order (ks : List κ) (q : κ → List α) : List α := ks.flatMap q

/-- What is put at the end of the last bucket is the last in order. -/
theorem order_append_last {ks : List κ} {k : κ} (hk : k ∉ ks) (a : α) :
    order (ks ++ [k]) (Function.update q k (q k ++ [a])) = order (ks ++ [k]) q ++ [a] := by
  have hne : ks.flatMap (Function.update q k (q k ++ [a])) = ks.flatMap q :=
    List.flatMap_congr fun j hj => Function.update_of_ne (ne_of_mem_of_not_mem hj hk) _ _
  simp only [order, List.flatMap_append, hne, List.flatMap_singleton, Function.update_self,
    List.append_assoc]

variable [DecidableEq α] {place : α → Option κ}

def Holds (q : κ → List α) (place : α → Option κ) : Prop :=
  ∀ k a, (q k).count a = if place a = some k then 1 else 0

def remove (q : κ → List α) (a : α) (k : κ) : List α := (q k).erase a

namespace Holds
variable {a : α} {k : κ} {l : List α} {S : Finset κ} {ks : List κ}

theorem empty : Holds (fun _ : κ => ([] : List α)) fun _ => none := by
  intro k a
  simp

theorem congr {place' : α → Option κ} (h : Holds q place) (hp : ∀ a, place' a = place a) :
    Holds q place' := by
  intro k a
  rw [hp a]
  exact h k a

theorem mem_iff (h : Holds q place) : a ∈ q k ↔ place a = some k := by
  rw [← List.count_pos_iff, h k a]
  split_ifs with hp <;> simp [hp]

theorem not_mem (h : Holds q place) (ha : place a = none) : a ∉ q k := by
  rw [h.mem_iff, ha]
  simp

theorem ne_nil_iff (h : Holds q place) : q k ≠ [] ↔ ∃ a, place a = some k := by
  constructor
  · intro hq
    obtain ⟨a, ha⟩ := List.exists_mem_of_ne_nil _ hq
    exact ⟨a, h.mem_iff.mp ha⟩
  · rintro ⟨a, ha⟩
    exact List.ne_nil_of_mem (h.mem_iff.mpr ha)

/-- Elements that are nowhere are removed without any effect. -/
theorem remove_eq (h : Holds q place) (ha : place a = none) : Buckets.remove q a = q := by
  funext k
  exact List.erase_of_not_mem (h.not_mem ha)

theorem remove (h : Holds q place) (a : α) :
    Holds (Buckets.remove q a) (Function.update place a none) := by
  intro k b
  unfold Buckets.remove
  by_cases hb : b = a
  · subst hb
    rw [List.count_erase_self, h k b, Function.update_self]
    split_ifs <;> simp_all
  · rw [List.count_erase_of_ne hb, h k b, Function.update_of_ne hb]

theorem insert (h : Holds q place) (ha : place a = none) (hl : l.Perm (a :: q k)) :
    Holds (Function.update q k l) (Function.update place a (some k)) := by
  intro j b
  by_cases hb : b = a
  · subst hb
    have h0 : ∀ i, (q i).count b = 0 := fun i => by simp [h i b, ha]
    by_cases hj : j = k
    · subst hj
      simp [hl.count_eq, h0]
    · simp [Function.update_of_ne hj, h0, Ne.symm hj]
  · by_cases hj : j = k
    · subst hj
      rw [Function.update_self, hl.count_eq, List.count_cons_of_ne (Ne.symm hb), h j b,
        Function.update_of_ne hb]
    · rw [Function.update_of_ne hj, Function.update_of_ne hb, h j b]

theorem total_remove (h : Holds q place) (ha : place a = some k) (hk : k ∈ S) :
    total S (Buckets.remove q a) + 1 = total S q := by
  have hmem : a ∈ q k := h.mem_iff.mpr ha
  have hne : ∀ j ∈ S.erase k, (Buckets.remove q a j).length = (q j).length := by
    intro j hj
    have hjk := Finset.ne_of_mem_erase hj
    have hna : a ∉ q j := by
      rw [h.mem_iff, ha]
      exact fun he => hjk (Option.some.inj he).symm
    rw [Buckets.remove, List.erase_of_not_mem hna]
  have hlen := List.length_erase_add_one hmem
  rw [total, total, ← Finset.add_sum_erase S _ hk, ← Finset.add_sum_erase S _ hk,
    Finset.sum_congr rfl hne, Buckets.remove]
  omega

theorem bucket_nodup (h : Holds q place) (k : κ) : (q k).Nodup := by
  refine List.nodup_iff_count_le_one.mpr fun a => ?_
  rw [h k a]
  split_ifs <;> omega

theorem mem_order (h : Holds q place) : a ∈ order ks q ↔ ∃ k ∈ ks, place a = some k := by
  simp only [order, List.mem_flatMap, h.mem_iff]

theorem order_nodup (h : Holds q place) (hks : ks.Nodup) : (order ks q).Nodup := by
  refine List.nodup_flatMap.mpr ⟨fun k _ => h.bucket_nodup k, hks.imp fun {j k} hjk => ?_⟩
  intro a hj hk
  rw [h.mem_iff] at hj hk
  exact hjk (Option.some.inj (hj.symm.trans hk))

/-- To take an element out of the buckets is to take it out of their order. -/
theorem order_remove (h : Holds q place) (hks : ks.Nodup) (a : α) :
    order ks (Buckets.remove q a) = (order ks q).erase a := by
  rw [(h.order_nodup hks).erase_eq_filter]
  unfold order
  rw [List.filter_flatMap]
  congr 1
  funext k
  exact (h.bucket_nodup k).erase_eq_filter a

end Holds

end OperationSystems.Buckets
