import Mathlib

/-!
# Repetition of a string by doubling

`repeat` of `utils.cpp`. The string doubles as long as two more copies of it
are wanted, and the rest is appended from its own front. Sizes are `size_t`
and wrap; an append beyond `max_size`, a read behind the contents and a loop
without an end are failures.
-/

namespace OperationSystems.Utils

variable {α : Type*}

/-- The width of `size_t` and the largest size of a string. -/
structure StringLimits where
  bits : ℕ
  maxSize : ℕ
  fits : maxSize < 2 ^ bits

inductive Failure where
  | lengthError
  | overread
  | endless
deriving DecidableEq

namespace StringLimits

def append (lim : StringLimits) (str t : List α) : Except Failure (List α) :=
  if str.length + t.length ≤ lim.maxSize then .ok (str ++ t) else .error .lengthError

/-- `str.append(str.c_str(), k)`. -/
def appendFront (lim : StringLimits) (str : List α) (k : ℕ) : Except Failure (List α) :=
  if k ≤ str.length then lim.append str (str.take k) else .error .overread

/-- `str.reserve(k)`. -/
def reserve (lim : StringLimits) (k : ℕ) : Except Failure Unit :=
  if k ≤ lim.maxSize then .ok () else .error .lengthError

def wrap (lim : StringLimits) (k : ℕ) : ℕ := k % 2 ^ lim.bits

/-- The loop of `repeat`, for at most `fuel` tests of its condition. -/
def double (lim : StringLimits) (n : ℕ) : ℕ → ℕ → List α → Except Failure (ℕ × List α)
  | 0, _, _ => .error .endless
  | fuel + 1, m, str =>
    if m < n then (lim.append str str).bind fun str => lim.double n fuel (lim.wrap (m * 2)) str
    else .ok (m, str)

/-- `repeat`. -/
def repeatStr (lim : StringLimits) (fuel : ℕ) (str : List α) (n : ℕ) : Except Failure (List α) :=
  if n = 0 then .ok []
  else if n = 1 then .ok str
  else match str with
  | [] => .ok []
  | [front] => lim.append [front] (List.replicate (n - 1) front)
  | str =>
    let period := str.length
    (lim.reserve (lim.wrap (period * n))).bind fun _ =>
    (lim.double n fuel 2 str).bind fun r =>
    lim.appendFront r.2 (lim.wrap (lim.wrap (n + 2 ^ lim.bits - r.1 / 2) * period))

/-- `operator*`. -/
def mulStr (lim : StringLimits) (fuel : ℕ) (str : List α) (n : ℕ) : Except Failure (List α) :=
  lim.repeatStr fuel str n

end StringLimits

/-- The concatenation of `n` copies. -/
def copies (n : ℕ) (s : List α) : List α := (List.replicate n s).flatten

variable {s : List α} {lim : StringLimits}

theorem copies_add (i j : ℕ) (s : List α) : copies (i + j) s = copies i s ++ copies j s := by
  rw [copies, List.replicate_add, List.flatten_append]
  rfl

@[simp] theorem copies_zero (s : List α) : copies 0 s = [] := rfl

@[simp] theorem copies_one (s : List α) : copies 1 s = s := by
  simp [copies]

@[simp] theorem length_copies (n : ℕ) (s : List α) : (copies n s).length = n * s.length := by
  simp [copies]

theorem take_copies {i j : ℕ} (h : i ≤ j) (s : List α) : (copies j s).take (i * s.length) = copies i s := by
  obtain ⟨k, rfl⟩ := Nat.exists_eq_add_of_le h
  rw [copies_add, ← length_copies, List.take_left]

namespace StringLimits

theorem wrap_eq {k : ℕ} (h : k ≤ lim.maxSize) : lim.wrap k = k :=
  Nat.mod_eq_of_lt (h.trans_lt lim.fits)

theorem append_copies {i j : ℕ} (h : (i + j) * s.length ≤ lim.maxSize) :
    lim.append (copies i s) (copies j s) = .ok (copies (i + j) s) := by
  rw [append, if_pos, copies_add]
  rwa [length_copies, length_copies, ← Nat.add_mul]

/-- With `j` copies and `m = 2 * j`, the loop ends with less than `n` copies, and with at least half as many. -/
theorem double_copies {n : ℕ} (hs : 2 ≤ s.length) (hn : n * s.length ≤ lim.maxSize) {fuel j : ℕ}
    (hj : j < n) (hfuel : n ≤ j * 2 ^ fuel) :
    ∃ i, lim.double n fuel (2 * j) (copies j s) = .ok (2 * i, copies i s) ∧ i < n ∧ n ≤ 2 * i := by
  induction fuel generalizing j with
  | zero =>
    rw [pow_zero, Nat.mul_one] at hfuel
    exact absurd hj (Nat.not_lt.mpr hfuel)
  | succ fuel ih =>
    by_cases hm : 2 * j < n
    · have hsize : (j + j) * s.length ≤ lim.maxSize :=
        (Nat.mul_le_mul_right _ (by omega)).trans hn
      have hwrap : lim.wrap (2 * j * 2) = 2 * (2 * j) := by
        have hle : 2 * j * 2 ≤ n * s.length := Nat.mul_le_mul hm.le hs
        rw [wrap_eq (hle.trans hn)]
        ring
      obtain ⟨i, hi, hin, hni⟩ := ih hm (by rw [Nat.pow_succ] at hfuel; linarith)
      refine ⟨i, ?_, hin, hni⟩
      rw [double, if_pos hm, append_copies hsize, ← Nat.two_mul]
      change lim.double n fuel (lim.wrap (2 * j * 2)) (copies (2 * j) s) = _
      rw [hwrap, hi]
    · exact ⟨j, by rw [double, if_neg hm], hj, by omega⟩

/-- The copies that are missing are appended from the front. -/
theorem appendFront_copies {n i : ℕ} (hs : 0 < s.length) (hn : n * s.length ≤ lim.maxSize) (hin : i < n)
    (hni : n ≤ 2 * i) :
    lim.appendFront (copies i s) (lim.wrap (lim.wrap (n + 2 ^ lim.bits - 2 * i / 2) * s.length)) =
      .ok (copies n s) := by
  have hrest : (n - i) * s.length ≤ lim.maxSize := (Nat.mul_le_mul_right _ (Nat.sub_le n i)).trans hn
  have hwrap : lim.wrap (n + 2 ^ lim.bits - 2 * i / 2) = n - i := by
    have hle : n - i ≤ lim.maxSize := (Nat.le_mul_of_pos_right _ hs).trans hrest
    have hpos := Nat.two_pow_pos lim.bits
    rw [show n + 2 ^ lim.bits - 2 * i / 2 = n - i + 2 ^ lim.bits by omega, wrap, Nat.add_mod_right]
    exact wrap_eq hle
  have hfront : (n - i) * s.length ≤ (copies i s).length := by
    rw [length_copies]
    exact Nat.mul_le_mul_right _ (by omega)
  have hsum : i + (n - i) = n := by omega
  rw [hwrap, wrap_eq hrest, appendFront, if_pos hfront, take_copies (by omega),
    append_copies (by rwa [hsum]), hsum]

/-- A string of two characters or more. -/
theorem repeatStr_double {n fuel : ℕ} (hs : 2 ≤ s.length) (hn : n * s.length ≤ lim.maxSize)
    (hfuel : lim.bits ≤ fuel) (h1 : 1 < n) :
    ((lim.reserve (lim.wrap (s.length * n))).bind fun _ => (lim.double n fuel 2 s).bind fun r =>
      lim.appendFront r.2 (lim.wrap (lim.wrap (n + 2 ^ lim.bits - r.1 / 2) * s.length))) =
      .ok (copies n s) := by
  have hpow : n ≤ 1 * 2 ^ fuel := by
    have hle : n ≤ n * s.length := Nat.le_mul_of_pos_right _ (by omega)
    have hbits := Nat.pow_le_pow_right (Nat.zero_lt_two) hfuel
    have hlt := hle.trans_lt (hn.trans_lt lim.fits)
    omega
  obtain ⟨i, hi, hin, hni⟩ := double_copies hs hn h1 hpow
  rw [Nat.mul_one, copies_one] at hi
  have hreserve : lim.reserve (lim.wrap (s.length * n)) = .ok () := by
    rw [Nat.mul_comm, wrap_eq hn, reserve, if_pos hn]
  rw [hreserve, hi]
  exact appendFront_copies (by omega) hn hin hni

/-- Within the size limit the repetition ends, reads nothing behind the contents, and is that of
the copies. -/
theorem repeatStr_eq (lim : StringLimits) (s : List α) {n fuel : ℕ} (hn : n * s.length ≤ lim.maxSize)
    (hfuel : lim.bits ≤ fuel) : lim.repeatStr fuel s n = .ok (List.replicate n s).flatten ∧
      lim.mulStr fuel s n = .ok (List.replicate n s).flatten := by
  suffices h : lim.repeatStr fuel s n = .ok (copies n s) from ⟨h, h⟩
  unfold repeatStr
  by_cases h0 : n = 0
  · rw [if_pos h0, h0, copies_zero]
  by_cases h1 : n = 1
  · rw [if_neg h0, if_pos h1, h1, copies_one]
  rw [if_neg h0, if_neg h1]
  rcases s with _ | ⟨front, _ | ⟨b, s⟩⟩
  · simp [copies]
  · have hone : List.replicate (n - 1) front = copies (n - 1) [front] := by
      simp [copies]
    have hsum : 1 + (n - 1) = n := by omega
    have happ : lim.append (copies 1 [front]) (copies (n - 1) [front]) = .ok (copies (1 + (n - 1)) [front]) :=
      append_copies (by rwa [hsum])
    rw [hsum, copies_one, ← hone] at happ
    exact happ
  · exact repeatStr_double (by simp) hn hfuel (by omega)

/-- `size_t` of 64 bits. -/
def limits64 : StringLimits := ⟨64, 2 ^ 63 - 1, by decide⟩

theorem repeatStr_eq_five :
    limits64.repeatStr 64 "ab".toList 5 = .ok "ababababab".toList :=
  (repeatStr_eq limits64 "ab".toList (by decide) (by decide)).1.trans (by decide)

end StringLimits

end OperationSystems.Utils
