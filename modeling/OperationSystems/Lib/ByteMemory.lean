import Mathlib

/-!
# Byte-addressed memory with little-endian words

A memory is a total map from addresses to bytes. A word of `n` bytes is stored
least significant byte first. A store is described by its range, so that every
frame fact is a comparison of ranges.
-/

namespace OperationSystems.ByteMemory

abbrev Memory := ℕ → UInt8

def load (m : Memory) (a : ℕ) : ℕ → ℕ
  | 0 => 0
  | n + 1 => (m a).toNat + 256 * load m (a + 1) n

def store (m : Memory) (a n v : ℕ) : Memory := fun i =>
  if a ≤ i ∧ i < a + n then UInt8.ofNat (v / 256 ^ (i - a)) else m i

def fill (m : Memory) (a n : ℕ) (b : UInt8) : Memory := fun i =>
  if a ≤ i ∧ i < a + n then b else m i

def copy (m : Memory) (dst src n : ℕ) : Memory := fun i =>
  if dst ≤ i ∧ i < dst + n then m (src + (i - dst)) else m i

theorem load_congr {m m' : Memory} {n a : ℕ} (h : ∀ i, a ≤ i → i < a + n → m' i = m i) :
    load m' a n = load m a n := by
  induction n generalizing a with
  | zero => rfl
  | succ n ih =>
    have htail : load m' (a + 1) n = load m (a + 1) n :=
      ih fun i hi hlt => h i (by omega) (by omega)
    rw [load, load, htail, h a le_rfl (by omega)]

theorem load_lt (m : Memory) (a n : ℕ) : load m a n < 256 ^ n := by
  induction n generalizing a with
  | zero => simp [load]
  | succ n ih =>
    have hb : (m a).toNat < 256 := (m a).toNat_lt
    have ht := ih (a + 1)
    rw [load, pow_succ]
    omega

theorem store_outside (m : Memory) {a n v i : ℕ} (h : i < a ∨ a + n ≤ i) :
    store m a n v i = m i := by
  apply if_neg
  omega

theorem fill_inside (m : Memory) {a n i : ℕ} (b : UInt8) (hl : a ≤ i) (hr : i < a + n) :
    fill m a n b i = b := if_pos ⟨hl, hr⟩

theorem fill_outside (m : Memory) {a n i : ℕ} (b : UInt8) (h : i < a ∨ a + n ≤ i) :
    fill m a n b i = m i := by
  apply if_neg
  omega

theorem copy_inside (m : Memory) {dst src n i : ℕ} (h : i < n) :
    copy m dst src n (dst + i) = m (src + i) := by
  rw [copy, if_pos (by omega), Nat.add_sub_cancel_left]

theorem copy_outside (m : Memory) {dst src n i : ℕ} (h : i < dst ∨ dst + n ≤ i) :
    copy m dst src n i = m i := by
  apply if_neg
  omega

theorem load_store_same (m : Memory) {a n v : ℕ} (h : v < 256 ^ n) :
    load (store m a n v) a n = v := by
  induction n generalizing m a v with
  | zero =>
    rw [pow_zero] at h
    rw [load]
    omega
  | succ n ih =>
    have hhead : (store m a (n + 1) v a).toNat = v % 256 := by
      rw [store, if_pos (by omega), Nat.sub_self, pow_zero, Nat.div_one]
      exact UInt8.toNat_ofNat'
    have htail : load (store m a (n + 1) v) (a + 1) n = load (store m (a + 1) n (v / 256)) (a + 1) n := by
      refine load_congr fun i hi hlt => ?_
      rw [store, store, if_pos (by omega), if_pos (by omega), Nat.div_div_eq_div_mul,
        show i - a = i - (a + 1) + 1 by omega, pow_succ, Nat.mul_comm]
    have hdiv : v / 256 < 256 ^ n := by
      rw [pow_succ] at h
      omega
    rw [load, hhead, htail, ih m hdiv]
    omega

theorem load_store_disjoint (m : Memory) {a n v b k : ℕ} (h : b + k ≤ a ∨ a + n ≤ b) :
    load (store m a n v) b k = load m b k :=
  load_congr fun _ hi hlt => store_outside m (by omega)

theorem load_fill_zero (m : Memory) {a n b k : ℕ} (hl : a ≤ b) (hr : b + k ≤ a + n) :
    load (fill m a n 0) b k = 0 := by
  induction k generalizing b with
  | zero => rfl
  | succ k ih =>
    rw [load, fill_inside m 0 hl (by omega), ih (by omega) (by omega)]
    rfl

end OperationSystems.ByteMemory
