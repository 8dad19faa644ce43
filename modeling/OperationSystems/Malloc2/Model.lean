import OperationSystems.Malloc2.Node
import OperationSystems.Malloc3.Model

/-!
# The allocator of `malloc_2.cpp`

The list head, the faults and the outcome of a call are those of `malloc_3.cpp`.
Blocks are reused whole and never merged, sizes are not rounded, and `realloc`
frees the old block by hand.
-/

namespace OperationSystems.Malloc2
open ByteMemory
open Malloc3 (AllocInfoList Fault Result maxSize)

/-- The addresses the break can move over, on a machine of words of `word` bytes. -/
structure Segment where
  word : ℕ
  start : ℕ
  limit : ℕ
  word_pos : 0 < word
  start_pos : 0 < start
  start_le : start ≤ limit
  limit_lt : limit < 256 ^ word

structure Heap where
  mem : Memory
  brk : ℕ
  firstAlloc : Bool
  list : AllocInfoList

namespace Segment
variable (d : Segment)

abbrev header : ℕ := headerSize d.word

/-- A `size_t` counter plus a signed amount. -/
def bump (c : ℕ) (k : ℤ) : Result ℕ :=
  if 0 ≤ c + k ∧ c + k < (256 ^ d.word : ℕ) then .ok (c + k).toNat else .error .counterWrap

def initial : Heap where
  mem := fun _ => 0
  brk := d.start
  firstAlloc := true
  list := ⟨0, 0, 0, 0, 0, 0, 0, 0⟩

def Mapped (h : Heap) (a n : ℕ) : Prop := d.start ≤ a ∧ a + n ≤ h.brk

instance (h : Heap) (a n : ℕ) : Decidable (d.Mapped h a n) :=
  inferInstanceAs (Decidable (d.start ≤ a ∧ a + n ≤ h.brk))

def node (p : ℕ) (h : Heap) : Result AllocInfoNode :=
  if d.Mapped h p d.header then .ok (readNode d.word h.mem p) else .error (.segv p)

def writeFreed (p : ℕ) (b : Bool) (h : Heap) : Result Heap :=
  if d.Mapped h p d.header then .ok { h with mem := putFreed h.mem p b } else .error (.segv p)

def write (p : ℕ) (f : Field) (v : ℕ) (h : Heap) : Result Heap :=
  if d.Mapped h p d.header then .ok { h with mem := put d.word h.mem p f v } else .error (.segv p)

/-- `sbrk`: `none` stands for `(void*)-1`, new memory is zero. -/
def sbrk (inc : ℕ) (h : Heap) : Option ℕ × Heap :=
  if h.brk + inc ≤ d.limit then
    (some h.brk, { h with brk := h.brk + inc, mem := fill h.mem h.brk inc 0 })
  else (none, h)

/-- `*(int *)p == -1` for a pointer that `sbrk` may have returned. -/
def isMinusOne (p : Option ℕ) (h : Heap) : Result Bool :=
  match p with
  | none => .error .breakFailed
  | some a => if d.Mapped h a 4 then .ok (load h.mem a 4 == 2 ^ 32 - 1) else .error (.segv a)

/-- The flag byte of the new header is not written: it relies on zeroed memory. -/
def firstAllocation (reqSize : ℕ) (h : Heap) : Result (ℕ × Heap) := do
  let (nBreak, h) := d.sbrk (reqSize + d.header) { h with firstAlloc := false }
  if ← d.isMinusOne nBreak h then
    return (0, { h with firstAlloc := true })
  else
    let a := nBreak.getD 0
    let h := { h with list := { h.list with
      head := a, size := 1, numAllocatedBlocks := 1, numAllocatedBytes := reqSize,
      numFreeBytes := 0, numMetaDataBlocks := 1, numMetaDataBytes := d.header } }
    let h ← d.write a .sizeOfAllocation reqSize h
    let h ← d.write a .allocationStartPtr (a + d.header) h
    let h ← d.write a .next a h
    let h ← d.write a .prev a h
    return ((← d.node a h).allocationStartPtr, h)

/-- The `do … while (iterator != list_head)` loop. -/
def findLoop (reqSize : ℕ) : ℕ → ℕ → Heap → Result (ℕ × Heap)
  | 0, _, _ => .error .loopFuel
  | fuel + 1, iterator, h => do
    let n ← d.node iterator h
    if reqSize ≤ n.sizeOfAllocation ∧ n.isFreed then
      let h ← d.writeFreed iterator false h
      let n ← d.node iterator h
      let blocks ← d.bump h.list.numFreeBlocks (-1)
      let bytes ← d.bump h.list.numFreeBytes (-n.sizeOfAllocation)
      let h := { h with list := { h.list with numFreeBlocks := blocks, numFreeBytes := bytes } }
      return (n.allocationStartPtr, h)
    else if n.next ≠ h.list.head then
      findLoop reqSize fuel n.next h
    else
      return (0, h)

/-- The break bounds the number of blocks, so it is fuel enough for the scan. -/
def findFreeAllocationAddress (reqSize : ℕ) (h : Heap) : Result (ℕ × Heap) :=
  d.findLoop reqSize h.brk h.list.head h

/-- The last part of `malloc`: a new block behind the last one. -/
def appendBlock (size : ℕ) (h : Heap) : Result (ℕ × Heap) := do
  let (nBreak, h) := d.sbrk (size + d.header) h
  if ← d.isMinusOne nBreak h then
    return (0, h)
  else
    let a := nBreak.getD 0
    let l := h.list
    let count ← d.bump l.size 1
    let blocks ← d.bump l.numAllocatedBlocks 1
    let bytes ← d.bump l.numAllocatedBytes size
    let metaBlocks ← d.bump l.numMetaDataBlocks 1
    let metaBytes ← d.bump l.numMetaDataBytes d.header
    let h := { h with list := { l with
      size := count, numAllocatedBlocks := blocks, numAllocatedBytes := bytes,
      numMetaDataBlocks := metaBlocks, numMetaDataBytes := metaBytes } }
    let h ← d.writeFreed a false h
    let h ← d.write a .sizeOfAllocation size h
    let h ← d.write a .allocationStartPtr (a + d.header) h
    let last := (← d.node l.head h).prev
    let h ← d.write last .next a h
    let last := (← d.node l.head h).prev
    let h ← d.write a .prev last h
    let h ← d.write l.head .prev a h
    let h ← d.write a .next l.head h
    return ((← d.node a h).allocationStartPtr, h)

def malloc (size : ℕ) (h : Heap) : Result (ℕ × Heap) := do
  if size > maxSize ∨ size = 0 then
    return (0, h)
  else if h.firstAlloc then
    d.firstAllocation size h
  else
    let (nBreak, h) ← d.findFreeAllocationAddress size h
    if nBreak ≠ 0 then return (nBreak, h) else d.appendBlock size h

/-- What `free` and `realloc` do to a block that is not free. -/
def release (p : ℕ) (h : Heap) : Result Heap := do
  let h ← d.writeFreed p true h
  let n ← d.node p h
  let blocks ← d.bump h.list.numFreeBlocks 1
  let bytes ← d.bump h.list.numFreeBytes n.sizeOfAllocation
  return { h with list := { h.list with numFreeBlocks := blocks, numFreeBytes := bytes } }

def free (p : ℕ) (h : Heap) : Result Heap := do
  if p = 0 then
    return h
  else
    let n ← d.node (p - d.header) h
    if n.isFreed then return h else d.release (p - d.header) h

def memset (p : ℕ) (b : UInt8) (n : ℕ) (h : Heap) : Result Heap :=
  if d.Mapped h p n then .ok { h with mem := fill h.mem p n b } else .error (.segv p)

def memcpy (dst src n : ℕ) (h : Heap) : Result Heap :=
  if d.Mapped h dst n ∧ d.Mapped h src n then .ok { h with mem := copy h.mem dst src n }
  else .error (.segv dst)

/-- The product of the two `size_t` arguments wraps. -/
def calloc (num size : ℕ) (h : Heap) : Result (ℕ × Heap) := do
  let (p, h) ← d.malloc (num * size % 256 ^ d.word) h
  if p = 0 then
    return (0, h)
  else
    let n ← d.node (p - d.header) h
    let h ← d.memset n.allocationStartPtr 0 (num * size % 256 ^ d.word) h
    return (p, h)

def realloc (oldp size : ℕ) (h : Heap) : Result (ℕ × Heap) := do
  if oldp = 0 then
    d.malloc size h
  else if size = 0 ∨ size > maxSize then
    return (0, h)
  else
    let n ← d.node (oldp - d.header) h
    if size ≤ n.sizeOfAllocation then
      return (oldp, h)
    else
      let (temp, h) ← d.malloc size h
      if temp = 0 then
        return (0, h)
      else
        let new ← d.node (temp - d.header) h
        let old ← d.node (oldp - d.header) h
        let h ← d.memcpy new.allocationStartPtr old.allocationStartPtr old.sizeOfAllocation h
        let h ← d.release (oldp - d.header) h
        return ((← d.node (temp - d.header) h).allocationStartPtr, h)

end Segment
end OperationSystems.Malloc2
