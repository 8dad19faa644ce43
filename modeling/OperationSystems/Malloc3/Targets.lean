import OperationSystems.Lib.IntegerTypes
import OperationSystems.Malloc3.Model

/-!
# The tests in front of `split` on two targets

The size of a block is a `long long` and a request is a `size_t`. Where `size_t`
has 32 bits their difference is a `long long` and exact, as the model of the
allocator has it. Where it has 64 bits the difference is unsigned.
-/

namespace OperationSystems.Malloc3
open ByteMemory IntegerTypes IntType CInt

inductive Target where
  | ilp32
  | lp64
deriving DecidableEq

def longLong : IntType := ⟨64, true, 4, by decide⟩
def int : IntType := ⟨32, true, 2, by decide⟩

/-- `REMAIN` as the source has it. -/
def remainInt : CInt int := ⟨128, by decide⟩

namespace Target

/-- `unsigned int` and `unsigned long`. -/
def sizeT : Target → IntType
  | ilp32 => ⟨32, false, 2, by decide⟩
  | lp64 => ⟨64, false, 3, by decide⟩

def header : Target → ℕ
  | ilp32 => 24
  | lp64 => 40

/-- `sizeof(alloc_info_node_t)`. -/
def sizeOfNode (t : Target) : CInt t.sizeT := ⟨t.header, by cases t <;> decide⟩

section Tests
variable (t : Target) (s : CInt longLong) (r : CInt t.sizeT)

/-- The type of `rest`. -/
def restType : IntType := common (common longLong t.sizeT) t.sizeT

/-- `size_of_allocation - size - sizeof(alloc_info_node_t)`. -/
def rest : Option (CInt t.restType) := do sub (← sub s r) t.sizeOfNode

/-- The test of `find_free_allocation_address` for taking a block whole. -/
def restSmall : Option Bool := return less (← t.rest s r) remainInt

/-- The test of `realloc`, made at two places. -/
def restLarge : Option Bool := return !less (← t.rest s r) remainInt

/-- `find_free_allocation_address` splits the block. -/
def findSplits (isFreed : Bool) : Option Bool :=
  if !less s r && isFreed then return !(← t.restSmall s r) else return false

/-- `realloc` splits a block that is large enough. -/
def reallocSplits : Option Bool := if !less s r then t.restLarge s r else return false

/-- `realloc` splits a block after `connect` made it large enough. -/
def connectedSplits : Option Bool := t.restLarge s r

/-- What `split` writes to `size_of_allocation` of the new block. -/
def restSize : Option ℤ := return longLong.convert (← t.rest s r).val

end Tests

section Split
variable {t : Target} {s : CInt longLong} {r : CInt t.sizeT}

/-- The new block has at least 128 bytes, and its header and its payload end before the old block
does. -/
def RestFits (t : Target) (s : CInt longLong) (r : CInt t.sizeT) : Prop :=
  128 ≤ s.val - r.val - t.header ∧
    ∃ k ∈ t.restSize s r, 128 ≤ k ∧ r.val + t.header ≤ s.val ∧ r.val + t.header + k ≤ s.val

/-- Every call of `split` leaves the next block alone. -/
structure SplitsInside (t : Target) (s : CInt longLong) (r : CInt t.sizeT) : Prop where
  find : ∀ isFreed, t.findSplits s r isFreed = some true → t.RestFits s r
  realloc : t.reallocSplits s r = some true → t.RestFits s r
  connected : t.connectedSplits s r = some true → t.RestFits s r

theorem longLong_holds {v : ℤ} : longLong.Holds v ↔ -2 ^ 63 ≤ v ∧ v < 2 ^ 63 := Iff.rfl

theorem unsigned_holds {v : ℤ} {t : IntType} (ht : t.signed = false) :
    t.Holds v ↔ 0 ≤ v ∧ v < 2 ^ t.width := by
  rw [Holds, least, bound, ht, if_neg (by simp), if_neg (by simp)]

/-- A request is not negative. -/
theorem size_nonneg (r : CInt t.sizeT) : 0 ≤ r.val := by
  cases t with
  | ilp32 => exact ((unsigned_holds rfl).mp r.property).1
  | lp64 => exact ((unsigned_holds rfl).mp r.property).1

/-- Both differences are taken in `restType`. -/
theorem restType_holds (t : Target) {v : ℤ} (hl : 0 ≤ v) (hu : v < 2 ^ 63) :
    (common longLong t.sizeT).Holds v ∧ t.restType.Holds v := by
  cases t with
  | ilp32 => exact ⟨longLong_holds.mpr ⟨by omega, hu⟩, longLong_holds.mpr ⟨by omega, hu⟩⟩
  | lp64 =>
    have hv : (v : ℤ) < 2 ^ 64 := by omega
    exact ⟨(unsigned_holds rfl).mpr ⟨hl, hv⟩, (unsigned_holds rfl).mpr ⟨hl, hv⟩⟩

theorem rest_exact (hle : r.val ≤ s.val) (h : t = ilp32 ∨ (t.header : ℤ) ≤ s.val - r.val) :
    ∃ k, t.rest s r = some k ∧ k.val = s.val - r.val - t.header := by
  have hr := size_nonneg r
  have hs := (longLong_holds.mp s.property).2
  obtain ⟨d, hd, hdv⟩ := sub_exact (x := s) (y := r) (restType_holds t (by omega) hs).1
    (restType_holds t hr (by omega)).1 (restType_holds t (by omega) (by omega)).1
  have hhead : (t.header : ℤ) < 2 ^ 63 := by cases t <;> decide
  have hrest : t.restType.Holds (s.val - r.val - t.header) := by
    rcases h with rfl | h
    · refine longLong_holds.mpr ⟨?_, by omega⟩
      simp only [header]
      omega
    · exact (restType_holds t (by omega) (by omega)).2
  obtain ⟨k, hk, hkv⟩ := sub_exact (x := d) (y := t.sizeOfNode)
    (restType_holds t (by omega) (by omega)).2 (restType_holds t (Int.natCast_nonneg _) hhead).2
    (by rw [hdv]; exact hrest)
  refine ⟨k, ?_, by rw [hkv, hdv]; rfl⟩
  simp only [rest, hd]
  exact hk

theorem rest_wraps {r : CInt lp64.sizeT} (hle : r.val ≤ s.val) (h : s.val - r.val < 40) :
    ∃ k, lp64.rest s r = some k ∧ k.val = s.val - r.val - 40 + 2 ^ 64 := by
  have hr := size_nonneg r
  have hs := (longLong_holds.mp s.property).2
  obtain ⟨d, hd, hdv⟩ := sub_exact (x := s) (y := r) (restType_holds lp64 (by omega) hs).1
    (restType_holds lp64 hr (by omega)).1 (restType_holds lp64 (by omega) (by omega)).1
  obtain ⟨k, hk, hkv⟩ := sub_wraps (x := d) (y := lp64.sizeOfNode) rfl
    (restType_holds lp64 (by omega) (by omega)).2
    (restType_holds lp64 (Int.natCast_nonneg _) (by decide)).2
  refine ⟨k, ?_, ?_⟩
  · simp only [rest, hd]
    exact hk
  · rw [hkv, hdv]
    change (s.val - r.val - 40) % 2 ^ 64 = _
    omega

theorem less_remain (k : CInt t.restType) : less k remainInt = decide (k.val < 128) := by
  cases t with
  | ilp32 => exact less_exact (a := restType ilp32) (b := int) k.property (by decide)
  | lp64 => exact less_exact (a := restType lp64) (b := int) k.property (by decide)

theorem not_less (hle : r.val ≤ s.val) : less s r = false := by
  have hr := size_nonneg r
  have hs := (longLong_holds.mp s.property).2
  rw [less_exact (restType_holds t (by omega) hs).1 (restType_holds t hr (by omega)).1]
  exact decide_eq_false (by omega)

section Tests
variable {k : CInt t.restType} (hk : t.rest s r = some k)
include hk

theorem restLarge_eq : t.restLarge s r = some (decide (128 ≤ k.val)) := by
  simp only [restLarge, hk]
  change some (!less k remainInt) = _
  rw [less_remain, ← decide_not]
  simp only [not_lt]

theorem findSplits_eq (hle : r.val ≤ s.val) (isFreed : Bool) :
    t.findSplits s r isFreed = some (isFreed && decide (128 ≤ k.val)) := by
  cases isFreed with
  | false => simp [findSplits, not_less hle]
  | true =>
    simp only [findSplits, not_less hle, restSmall, hk, less_remain]
    change some (!decide (k.val < 128)) = _
    rw [← decide_not]
    simp only [not_lt, Bool.true_and]

theorem reallocSplits_eq (hle : r.val ≤ s.val) :
    t.reallocSplits s r = some (decide (128 ≤ k.val)) := by
  rw [reallocSplits, not_less hle]
  exact restLarge_eq hk

theorem restSize_eq : t.restSize s r = some (longLong.convert k.val) := by
  simp only [restSize, hk]
  rfl

end Tests

theorem rest_cases (hle : r.val ≤ s.val) :
    (t = ilp32 ∨ (t.header : ℤ) ≤ s.val - r.val) ∧
        (∃ k, t.rest s r = some k ∧ k.val = s.val - r.val - t.header) ∨
      ¬ (t = ilp32 ∨ (t.header : ℤ) ≤ s.val - r.val) ∧
        ∃ k, t.rest s r = some k ∧ k.val = s.val - r.val - t.header + 2 ^ 64 := by
  by_cases h : t = ilp32 ∨ (t.header : ℤ) ≤ s.val - r.val
  · exact Or.inl ⟨h, rest_exact hle h⟩
  · refine Or.inr ⟨h, ?_⟩
    cases t with
    | ilp32 => exact absurd (Or.inl rfl) h
    | lp64 => exact rest_wraps hle (by simpa [header] using h)

/-- No signed operation in the tests overflows. -/
theorem rest_defined (hle : r.val ≤ s.val) : (t.rest s r).isSome := by
  rcases rest_cases hle with ⟨-, k, hk, -⟩ | ⟨-, k, hk, -⟩ <;> simp [hk]

theorem size_holds (m : Memory) (p : ℕ) : longLong.Holds (readNode m p).sizeOfAllocation := by
  have hl := Int.le_bmod (x := load m (p + 8) 8) (m := 2 ^ 64) (by decide)
  have hu := Int.bmod_lt (x := load m (p + 8) 8) (m := 2 ^ 64) (by decide)
  have hsize : (readNode m p).sizeOfAllocation = (load m (p + 8) 8 : ℤ).bmod (2 ^ 64) := by
    simp only [readNode]
  rw [hsize]
  generalize (load m (p + 8) 8 : ℤ).bmod (2 ^ 64) = v at hl hu
  exact longLong_holds.mpr ⟨by omega, by omega⟩

theorem request_holds {size : ℕ} (h : size < 2 ^ 32) : ilp32.sizeT.Holds size :=
  (unsigned_holds rfl).mpr ⟨Int.natCast_nonneg _, by exact_mod_cast h⟩

/-- On the 32-bit target the tests are those of the model of the allocator. -/
theorem ilp32_tests (m : Memory) (p : ℕ) {size : ℕ} (h : size < 2 ^ 32) :
    let n := readNode m p
    let s : CInt longLong := ⟨n.sizeOfAllocation, size_holds m p⟩
    let r : CInt ilp32.sizeT := ⟨size, request_holds h⟩
    ilp32.findSplits s r n.isFreed = some (decide (((size : ℤ) ≤ n.sizeOfAllocation ∧ n.isFreed) ∧
        ¬ n.sizeOfAllocation - size - headerSize < remain)) ∧
      ilp32.reallocSplits s r = some (decide ((size : ℤ) ≤ n.sizeOfAllocation ∧
        n.sizeOfAllocation - size - headerSize ≥ remain)) ∧
      ((size : ℤ) ≤ n.sizeOfAllocation → ilp32.connectedSplits s r =
        some (decide (n.sizeOfAllocation - size - headerSize ≥ remain))) := by
  intro n s r
  have hs : s.val = n.sizeOfAllocation := by simp only [s]
  have hr : r.val = size := by simp only [r]
  by_cases hle : r.val ≤ s.val
  · obtain ⟨k, hk, hkv⟩ := rest_exact hle (Or.inl rfl)
    have hle' : (size : ℤ) ≤ n.sizeOfAllocation := by rwa [← hs, ← hr]
    have hkv' : k.val = n.sizeOfAllocation - size - headerSize := by
      rw [hkv, hs, hr]
      rfl
    refine ⟨?_, ?_, fun _ => ?_⟩
    · rw [findSplits_eq hk hle, hkv']
      simp only [hle', true_and, not_lt, remain]
      cases n.isFreed <;> simp
    · rw [reallocSplits_eq hk hle, hkv']
      simp only [hle', true_and, ge_iff_le, remain]
    · rw [connectedSplits, restLarge_eq hk, hkv']
      simp only [ge_iff_le, remain]
  · have hless : less s r = true := by
      have hr := ((unsigned_holds rfl).mp r.property).2
      rw [less_exact (a := longLong) (b := ilp32.sizeT) s.property
        (restType_holds ilp32 (size_nonneg r) (hr.trans (by decide))).1]
      exact decide_eq_true (not_le.mp hle)
    have hle' : ¬ (size : ℤ) ≤ n.sizeOfAllocation := by rwa [← hs, ← hr]
    refine ⟨?_, ?_, fun h => absurd h hle'⟩
    · simp [findSplits, hless, hle']
    · simp [reallocSplits, hless, hle']

/-- The blocks that are split are those with room for a header and 128 bytes if and only if `size_t`
has 32 bits or the rest is no smaller than a header. -/
theorem splits_inside_iff (hle : r.val ≤ s.val) :
    t.SplitsInside s r ↔ t = ilp32 ∨ (t.header : ℤ) ≤ s.val - r.val := by
  have hr := size_nonneg r
  have hs := (longLong_holds.mp s.property).2
  rcases rest_cases hle with ⟨h, k, hk, hkv⟩ | ⟨h, k, hk, hkv⟩
  · refine iff_of_true ?_ h
    have hfits : 128 ≤ k.val → t.RestFits s r := by
      intro hge
      have hholds : longLong.Holds k.val := longLong_holds.mpr ⟨by omega, by omega⟩
      have hconv := convert_of_holds hholds
      exact ⟨by omega, k.val, by rw [restSize_eq hk, hconv]; rfl, hge, by omega, by omega⟩
    refine ⟨fun f hf => hfits ?_, fun hf => hfits ?_, fun hf => hfits ?_⟩
    · rw [findSplits_eq hk hle, Option.some.injEq, Bool.and_eq_true, decide_eq_true_eq] at hf
      exact hf.2
    · rwa [reallocSplits_eq hk hle, Option.some.injEq, decide_eq_true_eq] at hf
    · rwa [connectedSplits, restLarge_eq hk, Option.some.injEq, decide_eq_true_eq] at hf
  · refine iff_of_false (fun hin => ?_) h
    have hlt := (not_or.mp h).2
    have hge : 128 ≤ k.val := by
      have hhead : t.header ≤ 40 := by cases t <;> decide
      omega
    have hfits := hin.realloc (by rw [reallocSplits_eq hk hle, decide_eq_true hge])
    have hrest := hfits.1
    omega

theorem splits_inside_iff_sample :
    lp64.SplitsInside ⟨300, by decide⟩ ⟨100, by decide⟩ :=
  (splits_inside_iff (t := .lp64) (s := ⟨300, by decide⟩) (r := ⟨100, by decide⟩) (by decide)).mpr
    (Or.inr (by decide))

/-- A block of 100 bytes and a request of 100 bytes: there is no rest, and the new header goes to the
header of the next block. -/
theorem exact_fit_splits :
    lp64.findSplits ⟨100, by decide⟩ ⟨100, by decide⟩ true = some true ∧
      lp64.restSize ⟨100, by decide⟩ ⟨100, by decide⟩ = some (-40) ∧
      ¬ lp64.SplitsInside ⟨100, by decide⟩ ⟨100, by decide⟩ := by
  refine ⟨by decide, by decide, fun hin => ?_⟩
  have hrest := (hin.find true (by decide)).1
  revert hrest
  decide

end Split

end Target

end OperationSystems.Malloc3
