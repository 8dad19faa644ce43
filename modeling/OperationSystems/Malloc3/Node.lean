import OperationSystems.Lib.ByteMemory

/-!
# Allocation headers in memory

`alloc_info_node_t` on the 32-bit target: a flag byte and three bytes of
padding, a four-byte payload pointer, an eight-byte signed size and two
four-byte links. The allocator and its client share one byte memory, so a
header exists only as the bytes it occupies.
-/

namespace OperationSystems.Malloc3
open ByteMemory

/-- `sizeof(alloc_info_node_t)`. -/
def headerSize : ℕ := 24

/-- `flag` is the byte of `is_freed`; only a stale header can hold another value than 0 and 1. -/
structure AllocInfoNode where
  flag : ℕ
  allocationStartPtr : ℕ
  sizeOfAllocation : ℤ
  next : ℕ
  prev : ℕ
deriving DecidableEq

/-- `is_freed == true`, which compares the byte with 1; `is_freed == false` is its negation. -/
def AllocInfoNode.isFreed (n : AllocInfoNode) : Bool := n.flag == 1

/-- `is_freed` as a condition by itself, which takes every byte but 0. -/
def AllocInfoNode.flagged (n : AllocInfoNode) : Bool := n.flag != 0

def readNode (m : Memory) (p : ℕ) : AllocInfoNode where
  flag := load m p 1
  allocationStartPtr := load m (p + 4) 4
  sizeOfAllocation := Int.bmod (load m (p + 8) 8) (2 ^ 64)
  next := load m (p + 16) 4
  prev := load m (p + 20) 4

def putFreed (m : Memory) (p : ℕ) (b : Bool) : Memory := store m p 1 b.toNat
def putStart (m : Memory) (p v : ℕ) : Memory := store m (p + 4) 4 v
def putSize (m : Memory) (p : ℕ) (v : ℤ) : Memory := store m (p + 8) 8 (v % 2 ^ 64).toNat
def putNext (m : Memory) (p v : ℕ) : Memory := store m (p + 16) 4 v
def putPrev (m : Memory) (p v : ℕ) : Memory := store m (p + 20) 4 v

/-- Headers at these two addresses share no byte. -/
def Apart (p q : ℕ) : Prop := p + headerSize ≤ q ∨ q + headerSize ≤ p

theorem Apart.symm {p q : ℕ} (h : Apart p q) : Apart q p := Or.symm h

theorem readNode_congr {m m' : Memory} {p : ℕ}
    (h : ∀ i, p ≤ i → i < p + headerSize → m' i = m i) : readNode m' p = readNode m p := by
  have hl (o n : ℕ) (hon : o + n ≤ headerSize) : load m' (p + o) n = load m (p + o) n :=
    load_congr fun i hi hlt => h i (by omega) (by omega)
  have h0 := hl 0 1 (by decide)
  rw [Nat.add_zero] at h0
  simp only [readNode, h0, hl 4 4 (by decide), hl 8 8 (by decide), hl 16 4 (by decide),
    hl 20 4 (by decide)]

section Flag
variable {n : AllocInfoNode} {b : Bool}

theorem AllocInfoNode.isFreed_eq (h : n.flag = b.toNat) : n.isFreed = b := by
  rw [isFreed, h]
  cases b <;> rfl

theorem AllocInfoNode.flagged_eq (h : n.flag = b.toNat) : n.flagged = b := by
  rw [flagged, h]
  cases b <;> rfl

end Flag

theorem bmod_size {v : ℤ} (hl : -2 ^ 63 ≤ v) (hu : v < 2 ^ 63) :
    Int.bmod ((v % 2 ^ 64).toNat : ℤ) (2 ^ 64) = v := by
  rw [Int.toNat_of_nonneg (Int.emod_nonneg v (by norm_num))]
  have hm : Int.bmod (v % 2 ^ 64) (2 ^ 64) = Int.bmod v (2 ^ 64) := by
    exact_mod_cast Int.emod_bmod v (2 ^ 64)
  rw [hm]
  apply Int.bmod_eq_of_le <;> norm_num <;> omega

section Put
variable (m : Memory) (p : ℕ)

@[simp] theorem readNode_putFreed (b : Bool) :
    readNode (putFreed m p b) p = { readNode m p with flag := b.toNat } := by
  have hs : load (store m p 1 b.toNat) p 1 = b.toNat :=
    load_store_same m (by cases b <;> decide)
  simp (disch := omega) only [readNode, putFreed, hs, load_store_disjoint]

@[simp] theorem readNode_putStart {v : ℕ} (hv : v < 2 ^ 32) :
    readNode (putStart m p v) p = { readNode m p with allocationStartPtr := v } := by
  have hs : load (store m (p + 4) 4 v) (p + 4) 4 = v := load_store_same m (by omega)
  simp (disch := omega) only [readNode, putStart, hs, load_store_disjoint]

@[simp] theorem readNode_putSize {v : ℤ} (hl : -2 ^ 63 ≤ v) (hu : v < 2 ^ 63) :
    readNode (putSize m p v) p = { readNode m p with sizeOfAllocation := v } := by
  have hs : load (store m (p + 8) 8 (v % 2 ^ 64).toNat) (p + 8) 8 = (v % 2 ^ 64).toNat :=
    load_store_same m (by omega)
  simp (disch := omega) only [readNode, putSize, hs, load_store_disjoint, bmod_size hl hu]

@[simp] theorem readNode_putNext {v : ℕ} (hv : v < 2 ^ 32) :
    readNode (putNext m p v) p = { readNode m p with next := v } := by
  have hs : load (store m (p + 16) 4 v) (p + 16) 4 = v := load_store_same m (by omega)
  simp (disch := omega) only [readNode, putNext, hs, load_store_disjoint]

@[simp] theorem readNode_putPrev {v : ℕ} (hv : v < 2 ^ 32) :
    readNode (putPrev m p v) p = { readNode m p with prev := v } := by
  have hs : load (store m (p + 20) 4 v) (p + 20) 4 = v := load_store_same m (by omega)
  simp (disch := omega) only [readNode, putPrev, hs, load_store_disjoint]

end Put

/-- The memories differ at most in the header at `p`. -/
def OnlyHeader (p : ℕ) (m m' : Memory) : Prop :=
  ∀ i, i < p ∨ p + headerSize ≤ i → m' i = m i

theorem OnlyHeader.apart {p q : ℕ} {m m' : Memory} (h : OnlyHeader p m m') (hq : Apart p q) :
    readNode m' q = readNode m q := by
  refine readNode_congr fun i hi hlt => h i ?_
  simp only [Apart] at hq
  omega

theorem onlyHeader_store (m : Memory) {p n : ℕ} (o v : ℕ) (h : o + n ≤ headerSize) :
    OnlyHeader p m (store m (p + o) n v) :=
  fun _ hi => store_outside m (by omega)

theorem onlyHeader_putFreed (m : Memory) (p : ℕ) (b : Bool) : OnlyHeader p m (putFreed m p b) :=
  onlyHeader_store m 0 b.toNat (by decide)

theorem onlyHeader_putStart (m : Memory) (p v : ℕ) : OnlyHeader p m (putStart m p v) :=
  onlyHeader_store m 4 v (by decide)

theorem onlyHeader_putSize (m : Memory) (p : ℕ) (v : ℤ) : OnlyHeader p m (putSize m p v) :=
  onlyHeader_store m 8 _ (by decide)

theorem onlyHeader_putNext (m : Memory) (p v : ℕ) : OnlyHeader p m (putNext m p v) :=
  onlyHeader_store m 16 v (by decide)

theorem onlyHeader_putPrev (m : Memory) (p v : ℕ) : OnlyHeader p m (putPrev m p v) :=
  onlyHeader_store m 20 v (by decide)

theorem Apart.ne {p q : ℕ} (h : Apart p q) : q ≠ p := by
  rintro rfl
  simp [Apart, headerSize] at h

/-- What a write to the header at `p` does to a header at the same address or
apart from it. -/
theorem OnlyHeader.same_or_apart {p q : ℕ} {m m' : Memory} (f : AllocInfoNode → AllocInfoNode)
    (ho : OnlyHeader p m m') (hp : readNode m' p = f (readNode m p)) (hq : q = p ∨ Apart p q) :
    readNode m' q = if q = p then f (readNode m q) else readNode m q := by
  rcases hq with rfl | hq
  · rw [if_pos rfl, hp]
  · rw [if_neg hq.ne, ho.apart hq]

section PutOf
variable (m : Memory) {p q v : ℕ} (hq : q = p ∨ Apart p q)
include hq

theorem readNode_putFreed_of (b : Bool) : readNode (putFreed m p b) q =
    if q = p then { readNode m q with flag := b.toNat } else readNode m q :=
  OnlyHeader.same_or_apart (fun n => { n with flag := b.toNat }) (onlyHeader_putFreed m p b)
    (readNode_putFreed m p b) hq

theorem readNode_putSize_of {k : ℤ} (hl : -2 ^ 63 ≤ k) (hu : k < 2 ^ 63) :
    readNode (putSize m p k) q =
      if q = p then { readNode m q with sizeOfAllocation := k } else readNode m q :=
  OnlyHeader.same_or_apart (fun n => { n with sizeOfAllocation := k }) (onlyHeader_putSize m p k)
    (readNode_putSize m p hl hu) hq

theorem readNode_putNext_of (hv : v < 2 ^ 32) : readNode (putNext m p v) q =
    if q = p then { readNode m q with next := v } else readNode m q :=
  OnlyHeader.same_or_apart (fun n => { n with next := v }) (onlyHeader_putNext m p v)
    (readNode_putNext m p hv) hq

theorem readNode_putPrev_of (hv : v < 2 ^ 32) : readNode (putPrev m p v) q =
    if q = p then { readNode m q with prev := v } else readNode m q :=
  OnlyHeader.same_or_apart (fun n => { n with prev := v }) (onlyHeader_putPrev m p v)
    (readNode_putPrev m p hv) hq

end PutOf

/-- The memories differ at most inside the headers at `as`. -/
def OnlyHeaders (as : List ℕ) (m m' : Memory) : Prop :=
  ∀ i, (∀ p ∈ as, i < p ∨ p + headerSize ≤ i) → m' i = m i

theorem OnlyHeaders.refl (as : List ℕ) (m : Memory) : OnlyHeaders as m m := fun _ _ => rfl

theorem OnlyHeaders.trans {as : List ℕ} {m₁ m₂ m₃ : Memory} (h : OnlyHeaders as m₁ m₂)
    (h' : OnlyHeaders as m₂ m₃) : OnlyHeaders as m₁ m₃ :=
  fun i hi => (h' i hi).trans (h i hi)

theorem OnlyHeaders.mono {as bs : List ℕ} {m m' : Memory} (ho : OnlyHeaders as m m')
    (hs : as ⊆ bs) : OnlyHeaders bs m m' := fun i hi => ho i fun p hp => hi p (hs hp)

theorem OnlyHeader.toHeaders {as : List ℕ} {p : ℕ} {m m' : Memory} (h : OnlyHeader p m m')
    (hp : p ∈ as) : OnlyHeaders as m m' := fun i hi => h i (hi p hp)

end OperationSystems.Malloc3
