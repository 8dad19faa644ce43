import OperationSystems.Malloc3.Node

/-!
# The allocator of `malloc_3.cpp`

Every header access goes through the bytes of the data segment and faults
outside it. Sizes are signed 64-bit values and are compared exactly; the
`size_t` counters fault instead of wrapping. A failed `sbrk` returns
`(void*)-1`, which the code dereferences before it looks at it.
-/

namespace OperationSystems.Malloc3
open ByteMemory

/-- The addresses the break can move over, below the kernel's part of a
32-bit address space. -/
structure DataSegment where
  start : ℕ
  limit : ℕ
  start_pos : 0 < start
  start_le : start ≤ limit
  limit_lt : limit < 2 ^ 32

inductive Fault where
  | segv (a : ℕ)
  | breakFailed
  | counterWrap
  | loopFuel
  | illegalCall
deriving DecidableEq

abbrev Result := Except Fault

/-- `alloc_info_list_t`, without `initial_size`, which nothing uses. -/
structure AllocInfoList where
  size : ℕ
  numFreeBlocks : ℕ
  numFreeBytes : ℕ
  numAllocatedBlocks : ℕ
  numAllocatedBytes : ℕ
  numMetaDataBytes : ℕ
  numMetaDataBlocks : ℕ
  head : ℕ
deriving DecidableEq

structure Heap where
  mem : Memory
  brk : ℕ
  firstAlloc : Bool
  list : AllocInfoList

def maxSize : ℕ := 100000000
def remain : ℤ := 128
def minusOne : ℕ := 2 ^ 32 - 1

/-- A `size_t` counter plus a signed amount. -/
def bump (c : ℕ) (k : ℤ) : Result ℕ :=
  if 0 ≤ c + k ∧ c + k < 2 ^ 32 then .ok (c + k).toNat else .error .counterWrap

namespace DataSegment
variable (d : DataSegment)

def initial : Heap where
  mem := fun _ => 0
  brk := d.start
  firstAlloc := true
  list := ⟨0, 0, 0, 0, 0, 0, 0, 0⟩

def Mapped (h : Heap) (a n : ℕ) : Prop := d.start ≤ a ∧ a + n ≤ h.brk

instance (h : Heap) (a n : ℕ) : Decidable (d.Mapped h a n) :=
  inferInstanceAs (Decidable (d.start ≤ a ∧ a + n ≤ h.brk))

def node (p : ℕ) (h : Heap) : Result AllocInfoNode :=
  if d.Mapped h p headerSize then .ok (readNode h.mem p) else .error (.segv p)

def write (p : ℕ) (put : Memory → Memory) (h : Heap) : Result Heap :=
  if d.Mapped h p headerSize then .ok { h with mem := put h.mem } else .error (.segv p)

def writeFreed (p : ℕ) (b : Bool) : Heap → Result Heap := d.write p (putFreed · p b)
def writeStart (p v : ℕ) : Heap → Result Heap := d.write p (putStart · p v)
def writeSize (p : ℕ) (v : ℤ) : Heap → Result Heap := d.write p (putSize · p v)
def writeNext (p v : ℕ) : Heap → Result Heap := d.write p (putNext · p v)
def writePrev (p v : ℕ) : Heap → Result Heap := d.write p (putPrev · p v)

/-- `sbrk`: `none` stands for `(void*)-1`, new memory is zero. -/
def sbrk (inc : ℤ) (h : Heap) : Option ℕ × Heap :=
  if d.start ≤ h.brk + inc ∧ h.brk + inc ≤ d.limit then
    (some h.brk, { h with brk := (h.brk + inc).toNat, mem := fill h.mem h.brk inc.toNat 0 })
  else (none, h)

/-- `*(int *)p` for a pointer that `sbrk` may have returned. -/
def readInt (p : Option ℕ) (h : Heap) : Result ℤ :=
  match p with
  | none => .error .breakFailed
  | some a =>
    if d.Mapped h a 4 then .ok (Int.bmod (load h.mem a 4) (2 ^ 32)) else .error (.segv a)

def setFree (p1 : ℕ) (h : Heap) : Result Heap := do
  let n ← d.node p1 h
  if n.isFreed then
    return h
  else
    let h ← d.writeFreed p1 true h
    let blocks ← bump h.list.numFreeBlocks 1
    let bytes ← bump h.list.numFreeBytes n.sizeOfAllocation
    return { h with list := { h.list with numFreeBlocks := blocks, numFreeBytes := bytes } }

def setUsed (p1 : ℕ) (h : Heap) : Result Heap := do
  let n ← d.node p1 h
  if n.isFreed then
    let h ← d.writeFreed p1 false h
    let blocks ← bump h.list.numFreeBlocks (-1)
    let bytes ← bump h.list.numFreeBytes (-n.sizeOfAllocation)
    return { h with list := { h.list with numFreeBlocks := blocks, numFreeBytes := bytes } }
  else
    return h

def connect (p1 p2 : ℕ) (h : Heap) : Result Heap := do
  if p1 = 0 ∨ p2 = 0 then
    return h
  else
    let n1 ← d.node p1 h
    let n2 ← d.node p2 h
    let h ← d.writeSize p1 (n1.sizeOfAllocation + (n2.sizeOfAllocation + headerSize)) h
    let h ← d.writeNext p1 n2.next h
    let n2 ← d.node p2 h
    let h ← d.writePrev n2.next p1 h
    let n1 ← d.node p1 h
    let n2 ← d.node p2 h
    let l := h.list
    if n2.flagged then
      let freeBlocks ← bump l.numFreeBlocks (-1)
      let blocks ← bump l.numAllocatedBlocks (-1)
      let bytes ← bump l.numAllocatedBytes headerSize
      -- two free blocks gain the header; a used one takes the free bytes away
      let freeBytes ← bump l.numFreeBytes
        (if n1.flagged then (headerSize : ℤ) else -n2.sizeOfAllocation)
      let metaBlocks ← bump l.numMetaDataBlocks (-1)
      return { h with list := { l with
        numFreeBlocks := freeBlocks, numFreeBytes := freeBytes, numAllocatedBlocks := blocks,
        numAllocatedBytes := bytes, numMetaDataBlocks := metaBlocks } }
    else
      return h

/-- The tests `p != q && p->is_freed`. -/
def isFreedNot (p q : ℕ) (h : Heap) : Result Bool :=
  if p = q then return false else return (← d.node p h).flagged

def checkIfFreeAndConnect (p1 : ℕ) (h : Heap) : Result Heap := do
  let head := h.list.head
  let n1 ← d.node p1 h
  let up := n1.next
  let down := n1.prev
  if p1 = head then
    if ← d.isFreedNot up head h then d.connect p1 up h else return h
  else if (← d.isFreedNot down p1 h) && n1.flagged then
    let h ← d.connect down p1 h
    if ← d.isFreedNot up head h then d.connect down up h else return h
  else if (← d.isFreedNot up head h) && n1.flagged then
    d.connect p1 up h
  else
    return h

def split (p1 reqSize : ℕ) (h : Heap) : Result Heap := do
  let h ← if (← d.node p1 h).flagged then d.setUsed p1 h else pure h
  let n1 ← d.node p1 h
  let temp := n1.allocationStartPtr + reqSize
  let metaBlocks ← bump h.list.numMetaDataBlocks 1
  let blocks ← bump h.list.numAllocatedBlocks 1
  let bytes ← bump h.list.numAllocatedBytes (-headerSize)
  let h := { h with list := { h.list with
    numMetaDataBlocks := metaBlocks, numAllocatedBlocks := blocks, numAllocatedBytes := bytes } }
  let h ← d.writeStart temp (temp + headerSize) h
  let h ← d.writeSize temp (n1.sizeOfAllocation - reqSize - headerSize) h
  let h ← d.writeFreed temp false h
  let h ← d.setFree temp h
  let h ← d.writeSize p1 reqSize h
  let n1 ← d.node p1 h
  let h ← d.writeNext temp n1.next h
  let h ← d.writePrev temp p1 h
  let n1 ← d.node p1 h
  let h ← d.writePrev n1.next temp h
  let h ← d.writeNext p1 temp h
  d.checkIfFreeAndConnect temp h

def wilderness (reqSize : ℕ) (h : Heap) : Result (ℕ × Heap) := do
  let w := (← d.node h.list.head h).prev
  let n ← d.node w h
  if (reqSize : ℤ) < n.sizeOfAllocation then
    return (n.allocationStartPtr, h)
  else
    let offset := reqSize - n.sizeOfAllocation
    let (nBreak, h) := d.sbrk offset h
    if (← d.readInt nBreak h) = -1 then
      return (nBreak.getD minusOne, h)
    else
      let h ← d.setUsed w h
      let h ← d.writeSize w ((← d.node w h).sizeOfAllocation + offset) h
      let bytes ← bump h.list.numAllocatedBytes offset
      let h := { h with list := { h.list with numAllocatedBytes := bytes } }
      return ((← d.node w h).allocationStartPtr, h)

/-- The flag byte of the new header is not written: it relies on zeroed memory. -/
def firstAllocation (reqSize : ℕ) (h : Heap) : Result (ℕ × Heap) := do
  let (nBreak, h) := d.sbrk (reqSize + headerSize) { h with firstAlloc := false }
  if (← d.readInt nBreak h) = -1 then
    return (0, { h with firstAlloc := true })
  else
    let a := nBreak.getD minusOne
    let h := { h with list := { h.list with
      head := a, size := 1, numAllocatedBlocks := 1, numAllocatedBytes := reqSize,
      numFreeBytes := 0, numMetaDataBlocks := 1, numMetaDataBytes := headerSize } }
    let h ← d.writeSize a reqSize h
    let h ← d.writeStart a (a + headerSize) h
    let h ← d.writeNext a a h
    let h ← d.writePrev a a h
    return ((← d.node a h).allocationStartPtr, h)

/-- The `do … while (iterator != list_head)` loop; `none` is its normal exit. -/
def findLoop (reqSize : ℕ) : ℕ → ℕ → Heap → Result (Option ℕ × Heap)
  | 0, _, _ => .error .loopFuel
  | fuel + 1, iterator, h => do
    let n ← d.node iterator h
    if (reqSize : ℤ) ≤ n.sizeOfAllocation ∧ n.isFreed then
      if n.sizeOfAllocation - reqSize - headerSize < remain then
        let h ← d.setUsed iterator h
        return (some (← d.node iterator h).allocationStartPtr, h)
      else
        let h ← d.split iterator reqSize h
        return (some (← d.node iterator h).allocationStartPtr, h)
    else if n.next ≠ h.list.head then
      findLoop reqSize fuel n.next h
    else
      return (none, h)

/-- `IS_FREE_WILDERNESS_BLOCK`. -/
def isFreeWildernessBlock (p : ℕ) (h : Heap) : Result Bool := do
  let n ← d.node p h
  return n.next == h.list.head && n.isFreed

/-- The break bounds the number of blocks, so it is fuel enough for the scan. -/
def findFreeAllocationAddress (reqSize : ℕ) (h : Heap) : Result (ℕ × Heap) := do
  let (found, h) ← d.findLoop reqSize h.brk h.list.head h
  match found with
  | some p => return (p, h)
  | none =>
    if ← d.isFreeWildernessBlock (← d.node h.list.head h).prev h then d.wilderness reqSize h
    else return (0, h)

def roundUp (size : ℕ) : ℕ := if size % 4 ≠ 0 then size + (4 - size % 4) else size

/-- The last part of `malloc`: a new block behind the last one. -/
def appendBlock (size : ℕ) (h : Heap) : Result (ℕ × Heap) := do
  let (nBreak, h) := d.sbrk (size + headerSize) h
  if (← d.readInt nBreak h) = -1 then
    return (0, h)
  else
    let a := nBreak.getD minusOne
    let l := h.list
    let blocks ← bump l.numAllocatedBlocks 1
    let bytes ← bump l.numAllocatedBytes size
    let metaBlocks ← bump l.numMetaDataBlocks 1
    let h := { h with list := { l with
      size := l.size + 1, numAllocatedBlocks := blocks, numAllocatedBytes := bytes,
      numMetaDataBlocks := metaBlocks } }
    let h ← d.writeFreed a false h
    let h ← d.writeSize a size h
    let h ← d.writeStart a (a + headerSize) h
    let last := (← d.node l.head h).prev
    let h ← d.writeNext last a h
    let h ← d.writePrev a last h
    let h ← d.writePrev l.head a h
    let h ← d.writeNext a l.head h
    return ((← d.node a h).allocationStartPtr, h)

def malloc (size : ℕ) (h : Heap) : Result (ℕ × Heap) := do
  if size > maxSize ∨ size = 0 then
    return (0, h)
  else
    let size := roundUp size
    if h.firstAlloc then
      d.firstAllocation size h
    else
      let (p, h) ← d.findFreeAllocationAddress size h
      if p ≠ 0 then
        if (← d.readInt (some p) h) = -1 then return (0, h) else return (p, h)
      else
        d.appendBlock size h

def free (p : ℕ) (h : Heap) : Result Heap := do
  if p = 0 then
    return h
  else
    let n ← d.node (p - headerSize) h
    if n.isFreed then
      return h
    else
      let h ← d.setFree (p - headerSize) h
      d.checkIfFreeAndConnect (p - headerSize) h

def memset (p : ℕ) (b : UInt8) (n : ℕ) (h : Heap) : Result Heap :=
  if d.Mapped h p n then .ok { h with mem := fill h.mem p n b } else .error (.segv p)

def memcpy (dst src n : ℕ) (h : Heap) : Result Heap :=
  if d.Mapped h dst n ∧ d.Mapped h src n then .ok { h with mem := copy h.mem dst src n }
  else .error (.segv dst)

/-- The product of the two `size_t` arguments is reduced modulo `2 ^ 32`. -/
def calloc (num size : ℕ) (h : Heap) : Result (ℕ × Heap) := do
  let (p, h) ← d.malloc (num * size % 2 ^ 32) h
  if p = 0 then
    return (0, h)
  else
    let n ← d.node (p - headerSize) h
    let h ← d.memset n.allocationStartPtr 0 (num * size % 2 ^ 32) h
    return (p, h)

/-- The last part of `realloc`: a new block, a copy and a `free`. -/
def moveBlock (oldp size : ℕ) (h : Heap) : Result (ℕ × Heap) := do
  let (temp, h) ← d.malloc size h
  if temp = 0 then
    return (0, h)
  else
    let new ← d.node (temp - headerSize) h
    let old ← d.node (oldp - headerSize) h
    let h ← d.memcpy new.allocationStartPtr old.allocationStartPtr old.sizeOfAllocation.toNat h
    let h ← d.free oldp h
    return ((← d.node (temp - headerSize) h).allocationStartPtr, h)

def splitLarge (p size : ℕ) (h : Heap) : Result Heap := do
  if (← d.node p h).sizeOfAllocation - size - headerSize ≥ remain then d.split p size h
  else return h

def realloc (oldp size : ℕ) (h : Heap) : Result (ℕ × Heap) := do
  if oldp = 0 then
    d.malloc size h
  else if size = 0 ∨ size > maxSize then
    return (0, h)
  else
    let listHead := h.list.head
    let size := roundUp size
    let p := oldp - headerSize
    let n ← d.node p h
    if (size : ℤ) ≤ n.sizeOfAllocation then
      return (oldp, ← d.splitLarge p size h)
    else
      let up := n.next
      let fits ← if ← d.isFreedNot up listHead h then do
          let u ← d.node up h
          pure (decide ((size : ℤ) ≤ n.sizeOfAllocation + u.sizeOfAllocation + headerSize))
        else pure false
      if fits then
        let h ← d.connect p up h
        return (oldp, ← d.splitLarge p size h)
      else if (← d.node h.list.head h).prev = p then
        -- the flag is raised for the wilderness test only; `setFree` then finds it set
        let prevStatus := n.flagged
        let h ← if prevStatus then pure h else d.writeFreed p true h >>= d.setFree p
        if ← d.isFreeWildernessBlock (← d.node h.list.head h).prev h then
          let h ← if prevStatus then pure h else d.writeFreed p false h
          d.wilderness size h
        else
          d.moveBlock oldp size h
      else
        d.moveBlock oldp size h

end DataSegment
end OperationSystems.Malloc3
