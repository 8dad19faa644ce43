import OperationSystems.Lib.ByteMemory

/-!
# Headers of word size `w`

`alloc_info_node_t` of `malloc_2.cpp`: a flag byte padded to a word, and four
words for the payload pointer, the size and the two links. The size is a
`size_t`, so the layout depends on the word size only.
-/

namespace OperationSystems.Malloc2
open ByteMemory

/-- `sizeof(alloc_info_node_t)`. -/
def headerSize (w : ℕ) : ℕ := 5 * w

inductive Field where
  | allocationStartPtr
  | sizeOfAllocation
  | next
  | prev
deriving DecidableEq

def Field.offset (w : ℕ) : Field → ℕ
  | allocationStartPtr => w
  | sizeOfAllocation => 2 * w
  | next => 3 * w
  | prev => 4 * w

structure AllocInfoNode where
  isFreed : Bool
  allocationStartPtr : ℕ
  sizeOfAllocation : ℕ
  next : ℕ
  prev : ℕ
deriving DecidableEq

def AllocInfoNode.set (n : AllocInfoNode) (v : ℕ) : Field → AllocInfoNode
  | .allocationStartPtr => { n with allocationStartPtr := v }
  | .sizeOfAllocation => { n with sizeOfAllocation := v }
  | .next => { n with next := v }
  | .prev => { n with prev := v }

def readField (w : ℕ) (m : Memory) (p : ℕ) (f : Field) : ℕ := load m (p + f.offset w) w

def readNode (w : ℕ) (m : Memory) (p : ℕ) : AllocInfoNode where
  isFreed := load m p 1 != 0
  allocationStartPtr := readField w m p .allocationStartPtr
  sizeOfAllocation := readField w m p .sizeOfAllocation
  next := readField w m p .next
  prev := readField w m p .prev

def putFreed (m : Memory) (p : ℕ) (b : Bool) : Memory := store m p 1 b.toNat

def put (w : ℕ) (m : Memory) (p : ℕ) (f : Field) (v : ℕ) : Memory := store m (p + f.offset w) w v

theorem readField_put {w : ℕ} (m : Memory) (p : ℕ) (f g : Field) {v : ℕ} (hv : v < 256 ^ w) :
    readField w (put w m p f v) p g = if g = f then v else readField w m p g := by
  split_ifs with hfg
  · rw [hfg]
    exact load_store_same m hv
  · refine load_store_disjoint m ?_
    cases f <;> cases g <;> first | exact absurd rfl hfg | (simp only [Field.offset]; omega)

section Node
variable {w : ℕ} (hw : 0 < w)
include hw

theorem field_bounds (f : Field) : 1 ≤ f.offset w ∧ f.offset w + w ≤ headerSize w := by
  cases f <;> simp only [Field.offset, headerSize] <;> omega

theorem readNode_congr {m m' : Memory} {p : ℕ}
    (h : ∀ i, p ≤ i → i < p + headerSize w → m' i = m i) : readNode w m' p = readNode w m p := by
  have hf (f : Field) : readField w m' p f = readField w m p f := by
    have hb := field_bounds hw f
    exact load_congr fun i hi hlt => h i (by omega) (by omega)
  have hflag : load m' p 1 = load m p 1 :=
    load_congr fun i hi hlt => h i hi (by simp only [headerSize]; omega)
  simp only [readNode, hf, hflag]

theorem readNode_put (m : Memory) (p : ℕ) (f : Field) {v : ℕ} (hv : v < 256 ^ w) :
    readNode w (put w m p f v) p = (readNode w m p).set v f := by
  have hflag : load (put w m p f v) p 1 = load m p 1 :=
    load_store_disjoint m (Or.inl (Nat.add_le_add_left (field_bounds hw f).1 p))
  simp only [readNode, readField_put m p f _ hv, hflag]
  cases f <;> rfl

theorem readNode_putFreed (m : Memory) (p : ℕ) (b : Bool) :
    readNode w (putFreed m p b) p = { readNode w m p with isFreed := b } := by
  have hf (f : Field) : readField w (putFreed m p b) p f = readField w m p f :=
    load_store_disjoint m (Or.inr (Nat.add_le_add_left (field_bounds hw f).1 p))
  have hs : load (putFreed m p b) p 1 = b.toNat := load_store_same m (by cases b <;> decide)
  simp only [readNode, hf, hs]
  cases b <;> rfl

end Node

/-- The memories differ at most in the header at `p`. -/
def OnlyHeader (w p : ℕ) (m m' : Memory) : Prop :=
  ∀ i, i < p ∨ p + headerSize w ≤ i → m' i = m i

section OnlyHeader
variable {w p q : ℕ} {m m' m'' : Memory}

theorem OnlyHeader.trans (h : OnlyHeader w p m m') (h' : OnlyHeader w p m' m'') :
    OnlyHeader w p m m'' := fun i hi => (h' i hi).trans (h i hi)

/-- Headers at these two addresses share no byte. -/
def Apart (w p q : ℕ) : Prop := p + headerSize w ≤ q ∨ q + headerSize w ≤ p

theorem Apart.symm (h : Apart w p q) : Apart w q p := Or.symm h

variable (hw : 0 < w)
include hw

theorem OnlyHeader.apart (h : OnlyHeader w p m m') (hq : Apart w p q) :
    readNode w m' q = readNode w m q := by
  refine readNode_congr hw fun i hi hlt => h i ?_
  simp only [Apart] at hq
  omega

theorem onlyHeader_put (m : Memory) (p : ℕ) (f : Field) (v : ℕ) : OnlyHeader w p m (put w m p f v) := by
  intro i hi
  have hb := field_bounds hw f
  exact store_outside m (by omega)

theorem onlyHeader_putFreed (m : Memory) (p : ℕ) (b : Bool) : OnlyHeader w p m (putFreed m p b) := by
  intro i hi
  refine store_outside m ?_
  simp only [headerSize] at hi
  omega

theorem Apart.ne (h : Apart w p q) : q ≠ p := by
  rintro rfl
  simp only [Apart, headerSize] at h
  omega

/-- What a write to one header does to a header at the same address or apart from it. -/
theorem readNode_put_of (m : Memory) {f : Field} {v : ℕ} (hq : q = p ∨ Apart w p q)
    (hv : v < 256 ^ w) :
    readNode w (put w m p f v) q = if q = p then (readNode w m q).set v f else readNode w m q := by
  rcases hq with rfl | hq
  · rw [if_pos rfl, readNode_put hw m q f hv]
  · rw [if_neg (hq.ne hw), (onlyHeader_put hw m p f v).apart hw hq]

theorem readNode_putFreed_of (m : Memory) {b : Bool} (hq : q = p ∨ Apart w p q) :
    readNode w (putFreed m p b) q =
      if q = p then { readNode w m q with isFreed := b } else readNode w m q := by
  rcases hq with rfl | hq
  · rw [if_pos rfl, readNode_putFreed hw m q b]
  · rw [if_neg (hq.ne hw), (onlyHeader_putFreed hw m p b).apart hw hq]

end OnlyHeader

end OperationSystems.Malloc2
