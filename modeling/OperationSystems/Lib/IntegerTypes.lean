import Mathlib

/-!
# Integer types and the usual arithmetic conversions

An integer value carries its type, and its type bounds it. The operands of a
binary operator are converted to one type first, which may be unsigned where
one operand is signed. Unsigned results wrap; a signed result that does not fit
is undefined.
-/

namespace OperationSystems.IntegerTypes

structure IntType where
  width : ℕ
  signed : Bool
  rank : ℕ
  width_pos : 0 < width
deriving DecidableEq

namespace IntType
variable {t : IntType} {v w : ℤ}

def least (t : IntType) : ℤ := if t.signed then -2 ^ (t.width - 1) else 0

/-- The first value that is too large. -/
def bound (t : IntType) : ℤ := if t.signed then 2 ^ (t.width - 1) else 2 ^ t.width

def Holds (t : IntType) (v : ℤ) : Prop := t.least ≤ v ∧ v < t.bound

instance (t : IntType) (v : ℤ) : Decidable (t.Holds v) :=
  inferInstanceAs (Decidable (t.least ≤ v ∧ v < t.bound))

/-- Conversion reduces modulo `2 ^ width`. -/
def convert (t : IntType) (v : ℤ) : ℤ :=
  if t.signed then v.bmod (2 ^ t.width) else v % 2 ^ t.width

/-- The unsigned type that corresponds to `t`. -/
def toUnsigned (t : IntType) : IntType := { t with signed := false }

/-- The common type of a signed and an unsigned operand. -/
def mixed (s u : IntType) : IntType :=
  if s.rank ≤ u.rank then u else if u.width < s.width then s else s.toUnsigned

def common (a b : IntType) : IntType :=
  if a.signed = b.signed then if a.rank < b.rank then b else a
  else if a.signed then mixed a b else mixed b a

theorem two_pow_width (t : IntType) : (2 : ℤ) ^ t.width = 2 * 2 ^ (t.width - 1) := by
  obtain ⟨n, hn⟩ := Nat.exists_eq_add_one_of_ne_zero t.width_pos.ne'
  rw [hn, Nat.add_sub_cancel, pow_succ]
  ring

theorem convert_of_holds (h : t.Holds v) : t.convert v = v := by
  obtain ⟨hl, hu⟩ := h
  have hpow := t.two_pow_width
  unfold convert
  unfold least at hl
  unfold bound at hu
  split_ifs at hl hu ⊢
  · refine Int.bmod_eq_of_le ?_ ?_ <;> push_cast <;> omega
  · exact Int.emod_eq_of_lt hl hu

theorem holds_emod (h : t.signed = false) (v : ℤ) : t.Holds (v % 2 ^ t.width) := by
  have hpos : (0 : ℤ) < 2 ^ t.width := pow_pos (by decide) _
  rw [Holds, least, bound, h, if_neg (by simp), if_neg (by simp)]
  exact ⟨Int.emod_nonneg v hpos.ne', Int.emod_lt_of_pos v hpos⟩

end IntType

/-- A value of the integer type `t`. -/
abbrev CInt (t : IntType) := { v : ℤ // t.Holds v }

namespace CInt
open IntType
variable {a b : IntType} {x : CInt a} {y : CInt b}

/-- The value of `x - y`, if it is defined. -/
def sub (x : CInt a) (y : CInt b) : Option (CInt (common a b)) :=
  let v := (common a b).convert x.val - (common a b).convert y.val
  if hs : (common a b).signed = false then some ⟨v % 2 ^ (common a b).width, holds_emod hs v⟩
  else if hv : (common a b).Holds v then some ⟨v, hv⟩
  else none

/-- The value of `x < y`. -/
def less (x : CInt a) (y : CInt b) : Bool :=
  decide ((common a b).convert x.val < (common a b).convert y.val)

theorem less_exact (hx : (common a b).Holds x.val) (hy : (common a b).Holds y.val) :
    less x y = decide (x.val < y.val) := by
  rw [less, convert_of_holds hx, convert_of_holds hy]

/-- A difference that fits is exact. -/
theorem sub_exact (hx : (common a b).Holds x.val) (hy : (common a b).Holds y.val)
    (hv : (common a b).Holds (x.val - y.val)) : ∃ z, sub x y = some z ∧ z.val = x.val - y.val := by
  by_cases hs : (common a b).signed = false
  · have hconv := convert_of_holds hv
    rw [convert, hs, if_neg (by simp)] at hconv
    refine ⟨_, dif_pos hs, ?_⟩
    simpa only [convert_of_holds hx, convert_of_holds hy] using hconv
  · refine ⟨⟨x.val - y.val, hv⟩, ?_, rfl⟩
    simp only [sub, dif_neg hs, convert_of_holds hx, convert_of_holds hy, dif_pos hv]

/-- An unsigned difference wraps. -/
theorem sub_wraps (hs : (common a b).signed = false) (hx : (common a b).Holds x.val)
    (hy : (common a b).Holds y.val) :
    ∃ z, sub x y = some z ∧ z.val = (x.val - y.val) % 2 ^ (common a b).width := by
  refine ⟨_, dif_pos hs, ?_⟩
  simp only [convert_of_holds hx, convert_of_holds hy]

end CInt

end OperationSystems.IntegerTypes
