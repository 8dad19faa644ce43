import OperationSystems.Malloc3.Carve

/-!
# Growing the heap

The three ways memory comes from `sbrk`: the first block, a block appended
behind the last one, and the last block made longer. New memory is zero, so
the test for `-1` at its first word fails, and the flag byte of the first
block needs no write.
-/

namespace OperationSystems.Malloc3
open ByteMemory CircularList Tiling

/-- The memories agree below `e`, outside the headers at `as`. -/
def OnlyBelow (as : List ℕ) (e : ℕ) (m m' : Memory) : Prop :=
  ∀ i < e, (∀ p ∈ as, i < p ∨ p + headerSize ≤ i) → m' i = m i

theorem OnlyHeaders.below {as : List ℕ} {m m' : Memory} (ho : OnlyHeaders as m m') (e : ℕ) :
    OnlyBelow as e m m' := fun i _ hi => ho i hi

theorem onlyBelow_fill (as : List ℕ) (m : Memory) (e n : ℕ) (b : UInt8) :
    OnlyBelow as e m (fill m e n b) := fun _ hi _ => fill_outside m b (Or.inl hi)

theorem OnlyBelow.trans {as : List ℕ} {e : ℕ} {m₁ m₂ m₃ : Memory} (h : OnlyBelow as e m₁ m₂)
    (h' : OnlyBelow as e m₂ m₃) : OnlyBelow as e m₁ m₃ :=
  fun i hi hp => (h' i hi hp).trans (h i hi hp)

theorem readNode_fill {m : Memory} {x e n : ℕ} {b : UInt8} (hx : x + headerSize ≤ e) :
    readNode (fill m e n b) x = readNode m x :=
  readNode_congr fun _ _ hi => fill_outside m b (Or.inl (by omega))

theorem flag_fill_zero {m : Memory} {x e n : ℕ} (hl : e ≤ x) (hr : x + headerSize ≤ e + n) :
    (readNode (fill m e n 0) x).flag = 0 :=
  load_fill_zero m hl (by simp only [headerSize] at hr; omega)

namespace DataSegment
variable {d : DataSegment} {h : Heap}

/-- The heap after a successful `sbrk` of `n` bytes. -/
def grown (h : Heap) (n : ℕ) : Heap := { h with brk := h.brk + n, mem := fill h.mem h.brk n 0 }

theorem sbrk_ok {n : ℕ} (hs : d.start ≤ h.brk) (hl : h.brk + n ≤ d.limit) :
    d.sbrk n h = (some h.brk, grown h n) := by
  have hc : (d.start : ℤ) ≤ h.brk + n ∧ (h.brk : ℤ) + n ≤ d.limit := by omega
  rw [sbrk, if_pos hc, grown]
  norm_cast

theorem sbrk_fail {n : ℕ} (hl : d.limit < h.brk + n) : d.sbrk n h = (none, h) :=
  if_neg (by omega)

theorem readInt_grown {n : ℕ} (hs : d.start ≤ h.brk) (hn : 4 ≤ n) :
    d.readInt (some h.brk) (grown h n) = .ok 0 := by
  have hm : d.Mapped (grown h n) h.brk 4 := ⟨hs, by simp only [grown]; omega⟩
  have hz : load (grown h n).mem h.brk 4 = 0 := load_fill_zero h.mem le_rfl (by omega)
  simp only [readInt, if_pos hm, hz]
  rfl

/-- The header writes of the append path of `malloc`. -/
def appendMem (m : Memory) (a last head size : ℕ) : Memory :=
  let m := putStart (putSize (putFreed m a false) a size) a (a + headerSize)
  putNext (putPrev (putPrev (putNext m last a) a last) head a) a head

theorem readNode_appendMem (m : Memory) {a last head size x : ℕ} (hxa : Apart a x)
    (hxl : x = last ∨ Apart last x) (hxh : x = head ∨ Apart head x) (ha : a < 2 ^ 32) :
    (readNode (appendMem m a last head size) x).flag = (readNode m x).flag ∧
    (readNode (appendMem m a last head size) x).allocationStartPtr =
      (readNode m x).allocationStartPtr ∧
    (readNode (appendMem m a last head size) x).sizeOfAllocation =
      (readNode m x).sizeOfAllocation ∧
    (readNode (appendMem m a last head size) x).next = (if x = last then a else (readNode m x).next) ∧
    (readNode (appendMem m a last head size) x).prev = (if x = head then a else (readNode m x).prev) := by
  rw [appendMem, (onlyHeader_putNext _ _ _).apart hxa, readNode_putPrev_of _ hxh ha,
    (onlyHeader_putPrev _ _ _).apart hxa, readNode_putNext_of _ hxl ha,
    (onlyHeader_putStart _ _ _).apart hxa, (onlyHeader_putSize _ _ _).apart hxa,
    (onlyHeader_putFreed _ _ _).apart hxa]
  split_ifs <;> simp

theorem readNode_appendMem_new (m : Memory) {a last head size : ℕ} (hl : Apart last a)
    (hh : Apart head a) (ha : a + headerSize < 2 ^ 32) (hlast : last < 2 ^ 32)
    (hhead : head < 2 ^ 32) (hsize : size < 2 ^ 32) :
    readNode (appendMem m a last head size) a =
      { flag := false.toNat, allocationStartPtr := a + headerSize, sizeOfAllocation := size,
        next := head, prev := last } := by
  rw [appendMem, readNode_putNext _ _ hhead, (onlyHeader_putPrev _ _ _).apart hh,
    readNode_putPrev _ _ hlast, (onlyHeader_putNext _ _ _).apart hl, readNode_putStart _ _ ha,
    readNode_putSize _ _ (by omega) (by omega), readNode_putFreed]

theorem onlyHeaders_appendMem (m : Memory) {a last head size : ℕ} {as : List ℕ} (ha : a ∈ as)
    (hl : last ∈ as) (hh : head ∈ as) : OnlyHeaders as m (appendMem m a last head size) := by
  have h₁ := ((onlyHeader_putFreed m a false).toHeaders ha).trans
    ((onlyHeader_putSize _ a size).toHeaders ha)
  have h₂ := (h₁.trans ((onlyHeader_putStart _ a (a + headerSize)).toHeaders ha)).trans
    ((onlyHeader_putNext _ last a).toHeaders hl)
  have h₃ := (h₂.trans ((onlyHeader_putPrev _ a last).toHeaders ha)).trans
    ((onlyHeader_putPrev _ head a).toHeaders hh)
  exact h₃.trans ((onlyHeader_putNext _ a head).toHeaders ha)

section Append
variable {l bs : List Block} {b : Block} {size : ℕ}

/-- The list head's counters after a block of `size` bytes is appended. -/
def appendList (a : AllocInfoList) (size : ℕ) : AllocInfoList :=
  { a with
    size := a.size + 1
    numAllocatedBlocks := a.numAllocatedBlocks + 1
    numAllocatedBytes := a.numAllocatedBytes + size
    numMetaDataBlocks := a.numMetaDataBlocks + 1 }

def appended (d : DataSegment) (h : Heap) (last size : ℕ) : Heap :=
  { h with
    brk := h.brk + (size + headerSize)
    mem := appendMem (fill h.mem h.brk (size + headerSize) 0) h.brk last d.start size
    list := appendList h.list size }

theorem append_apart (hr : Rep d h bs) {x : ℕ × Block} (hx : x ∈ cells d.start bs) :
    Apart h.brk x.1 ∧ x.1 + headerSize ≤ h.brk := by
  have hm := (hr.mapped hx).2
  exact ⟨Or.inr hm, hm⟩

theorem append_reads (hr : Rep d h (l ++ [b])) (hl : h.brk + (size + headerSize) ≤ d.limit)
    {last : ℕ} (hlast : d.start + span Block.len l = last) {x : ℕ × Block}
    (hx : x ∈ cells d.start (l ++ [b])) :
    let m := (appended d h last size).mem
    (readNode m x.1).flag = (readNode h.mem x.1).flag ∧
    (readNode m x.1).allocationStartPtr = (readNode h.mem x.1).allocationStartPtr ∧
    (readNode m x.1).sizeOfAllocation = (readNode h.mem x.1).sizeOfAllocation ∧
    (readNode m x.1).next = (if x.1 = last then h.brk else (readNode h.mem x.1).next) ∧
    (readNode m x.1).prev = (if x.1 = d.start then h.brk else (readNode h.mem x.1).prev) := by
  have hxl := cells_apart (Rep.mem_mid d.start l [] b) hx
  obtain ⟨y, hy, hyh⟩ := List.mem_map.mp hr.head_mem
  have hxh := cells_apart hy hx
  have hlim := d.limit_lt
  obtain ⟨hxa, hxe⟩ := append_apart hr hx
  simp only [hlast, hyh] at hxl hxh
  have hread := @readNode_appendMem (fill h.mem h.brk (size + headerSize) 0) h.brk last d.start
    size x.1 hxa hxl hxh (by omega)
  rwa [readNode_fill hxe] at hread

theorem append_read_new (hr : Rep d h (l ++ [b])) (hl : h.brk + (size + headerSize) ≤ d.limit)
    {last : ℕ} (hlast : d.start + span Block.len l = last) :
    readNode (appended d h last size).mem h.brk =
      { flag := false.toNat, allocationStartPtr := h.brk + headerSize, sizeOfAllocation := size,
        next := d.start, prev := last } := by
  have hm := Rep.mem_mid d.start l [] b
  obtain ⟨y, hy, hyh⟩ := List.mem_map.mp hr.head_mem
  have h1 := append_apart hr hm
  have h2 := append_apart hr hy
  have hlim := d.limit_lt
  simp only [hlast, hyh] at h1 h2
  exact readNode_appendMem_new _ h1.1.symm h2.1.symm (by omega) (by omega) (by omega) (by omega)

theorem addresses_concat (hr : Rep d h bs) (c : Block) :
    addresses d.start (bs ++ [c]) = addresses d.start bs ++ [h.brk] := by
  rw [addresses_split, hr.tile]
  rfl

theorem append_ring (hr : Rep d h (l ++ [b])) (hl : h.brk + (size + headerSize) ≤ d.limit)
    {last : ℕ} (hlast : d.start + span Block.len l = last) {m : Memory}
    (hm : m = (appended d h last size).mem) :
    Circular (fun p => (readNode m p).next) (fun p => (readNode m p).prev)
      (addresses d.start (l ++ [b] ++ [⟨size, false⟩])) := by
  have hlinks : ∀ w ∈ addresses d.start (l ++ [b]),
      (readNode m w).next = (if w = last then h.brk else (readNode h.mem w).next) ∧
      (readNode m w).prev = (if w = d.start then h.brk else (readNode h.mem w).prev) := by
    intro w hw
    obtain ⟨x, hx, rfl⟩ := List.mem_map.mp hw
    rw [hm]
    exact (append_reads hr hl hlast hx).2.2.2
  have hnew := append_read_new hr hl hlast
  rw [← hm] at hnew
  have hnext := hr.links_last.1
  have hhead := hr.head_mem
  have hring := hr.ring
  have hnodup := addresses_nodup d.start (l ++ [b])
  rw [addresses_concat hr]
  rw [addresses_split, hlast] at hring hlinks hhead hnodup ⊢
  rw [hlast] at hnext
  simp only [addresses, cells, place_nil, List.map_nil] at hring hlinks hhead hnodup ⊢
  rw [← List.append_cons]
  refine hring.insert hnodup ?_ ?_ ?_ ?_ ?_ ?_
  · rw [(hlinks last (by simp)).1, if_pos rfl]
  · rw [hnew, hnext]
  · rw [hnew]
  · rw [hnext, (hlinks _ hhead).2, if_pos rfl]
  · intro w hw
    have hne : w ≠ last := by
      rintro rfl
      simp only [List.nodup_append, List.mem_append, List.mem_singleton] at hnodup hw
      grind
    rw [(hlinks w (by simp at hw ⊢; tauto)).1, if_neg hne]
  · intro w hw hne
    rw [hnext] at hne
    rw [(hlinks w hw).2, if_neg hne]

theorem append_rep (hr : Rep d h (l ++ [b])) (hl : h.brk + (size + headerSize) ≤ d.limit)
    (hsize : (Block.mk size false).WellSized) {last : ℕ}
    (hlast : d.start + span Block.len l = last) :
    Rep d (appended d h last size) (l ++ [b] ++ [⟨size, false⟩]) := by
  have hnew := append_read_new hr hl hlast
  have htile := hr.tile
  have hc := hr.counters
  have hr' : Rep d h (l ++ [b] ++ [] ++ []) := by simpa using hr
  have hrep : Rep d (appended d h last size) (l ++ [b] ++ [⟨size, false⟩] ++ []) := by
    refine hr'.replace (by simp) hr.first rfl ?_ hl (Or.inl rfl) ?_ ?_ ?_ (by simp) ?_ ?_
    · simp only [appended, htile, List.append_nil, span_append, span_cons, span_nil, Block.len]
      omega
    · intro c hc
      rwa [List.mem_singleton.mp hc]
    · intro x hx
      obtain ⟨e1, e2, e3, -⟩ := append_reads hr hl hlast hx
      exact ⟨e1, e2, e3⟩
    · intro x hx
      rw [cells, place_cons, place_nil, List.mem_singleton, ← htile] at hx
      subst hx
      exact ⟨by rw [hnew], by rw [hnew], by rw [hnew]⟩
    · have hring := append_ring hr hl hlast rfl
      simpa using hring
    · simp only [List.append_nil]
      simp at hc
      refine ⟨?_, ?_, ?_, ?_, ?_⟩ <;> simp [appended, appendList] <;> omega
  simpa using hrep

theorem append_below (hr : Rep d h (l ++ [b])) {last : ℕ}
    (hlast : d.start + span Block.len l = last) :
    OnlyBelow (addresses d.start (l ++ [b] ++ [⟨size, false⟩])) h.brk h.mem
      (appended d h last size).mem := by
  have hhead := hr.head_mem
  refine (onlyBelow_fill _ h.mem h.brk (size + headerSize) 0).trans
    (OnlyHeaders.below (onlyHeaders_appendMem _ ?_ ?_ ?_) h.brk)
  · rw [addresses_concat hr]
    simp
  · rw [addresses_concat hr, addresses_split, hlast]
    simp
  · rw [addresses_concat hr]
    simp [hhead]

theorem append_bumps (hr : Rep d h bs) (hl : h.brk + (size + headerSize) ≤ d.limit) :
    bump h.list.numAllocatedBlocks 1 = .ok (h.list.numAllocatedBlocks + 1) ∧
    bump h.list.numAllocatedBytes size = .ok (h.list.numAllocatedBytes + size) ∧
    bump h.list.numMetaDataBlocks 1 = .ok (h.list.numMetaDataBlocks + 1) := by
  have hc := hr.counters
  have hlim := d.limit_lt
  have htile := hr.tile
  have hsp := span_eq bs
  simp only [headerSize] at hc hsp hl
  refine ⟨?_, ?_, ?_⟩ <;> exact bump_eq (by omega) (by omega)

theorem appendBlock_eq (hr : Rep d h (l ++ [b])) (hl : h.brk + (size + headerSize) ≤ d.limit)
    {last : ℕ} (hlast : d.start + span Block.len l = last) :
    d.appendBlock size h = .ok (h.brk + headerSize, appended d h last size) := by
  have hm := Rep.mem_mid d.start l [] b
  obtain ⟨y, hy, hyh⟩ := List.mem_map.mp hr.head_mem
  have hstart : d.start ≤ h.brk := by
    have htile := hr.tile
    omega
  have hcast : (size : ℤ) + headerSize = (size + headerSize : ℕ) := by push_cast; rfl
  have hint : d.readInt (some h.brk) (grown h (size + headerSize)) = .ok 0 :=
    readInt_grown hstart (by simp only [headerSize]; omega)
  -- the three headers that are written
  have hml : d.Mapped (grown h (size + headerSize)) last headerSize := by
    have := hr.mapped hm
    simp only [hlast] at this
    exact ⟨this.1, le_trans this.2 (by simp [grown])⟩
  have hmh : d.Mapped (grown h (size + headerSize)) d.start headerSize := by
    have := hr.mapped hy
    rw [hyh] at this
    exact ⟨this.1, le_trans this.2 (by simp [grown])⟩
  have hma : d.Mapped (grown h (size + headerSize)) h.brk headerSize :=
    ⟨hstart, by simp only [grown]; omega⟩
  have hhead := hr.head
  obtain ⟨ha, he⟩ := append_apart hr hy
  rw [hyh] at ha he
  have hprev : (readNode (putStart (putSize (putFreed (grown h (size + headerSize)).mem h.brk false)
      h.brk size) h.brk (h.brk + headerSize)) d.start).prev = last := by
    rw [(onlyHeader_putStart _ _ _).apart ha, (onlyHeader_putSize _ _ _).apart ha,
      (onlyHeader_putFreed _ _ _).apart ha, grown, readNode_fill he, hr.links_last.2, hlast]
  obtain ⟨hc1, hc2, hc3⟩ := append_bumps hr hl
  have hnew := append_read_new hr hl hlast
  have hlist : (grown h (size + headerSize)).list = h.list := rfl
  have hfin : (0 : ℤ) ≠ -1 := by decide
  rw [appended, appendMem] at hnew
  simp only [appendBlock, hcast, sbrk_ok hstart hl, hint, ok_bind, if_neg hfin, Option.getD_some,
    hlist, hc1, hc2, hc3, writeFreed, writeSize, writeStart, writeNext, writePrev, write_ok hma,
    node_ok hmh, node_ok hma, hhead, hprev, write_ok hml, write_ok hmh, pure_eq_ok]
  simp only [grown, hnew, appended, appendMem, appendList, hhead]

theorem appendBlock_fail (hl : d.limit < h.brk + (size + headerSize)) :
    d.appendBlock size h = .error .breakFailed := by
  have hcast : (size : ℤ) + headerSize = (size + headerSize : ℕ) := by push_cast; rfl
  simp only [appendBlock, hcast, sbrk_fail hl, readInt]
  rfl

end Append

section First
variable {size : ℕ}

/-- A heap before its first successful allocation. -/
structure Untouched (d : DataSegment) (h : Heap) : Prop where
  brk : h.brk = d.start
  firstAlloc : h.firstAlloc = true
  list : h.list = ⟨0, 0, 0, 0, 0, 0, 0, 0⟩

def firstMem (m : Memory) (a size : ℕ) : Memory :=
  putPrev (putNext (putStart (putSize m a size) a (a + headerSize)) a a) a a

def firstHeap (d : DataSegment) (h : Heap) (size : ℕ) : Heap where
  mem := firstMem (fill h.mem d.start (size + headerSize) 0) d.start size
  brk := d.start + (size + headerSize)
  firstAlloc := false
  list := { h.list with
    head := d.start, size := 1, numAllocatedBlocks := 1, numAllocatedBytes := size,
    numFreeBytes := 0, numMetaDataBlocks := 1, numMetaDataBytes := headerSize }

theorem first_read (hl : d.start + (size + headerSize) ≤ d.limit) :
    readNode (firstHeap d h size).mem d.start =
      { flag := false.toNat, allocationStartPtr := d.start + headerSize, sizeOfAllocation := size,
        next := d.start, prev := d.start } := by
  have hlim := d.limit_lt
  have hf : (readNode (fill h.mem d.start (size + headerSize) 0) d.start).flag = false.toNat :=
    flag_fill_zero le_rfl (by omega)
  rw [firstHeap, firstMem, readNode_putPrev _ _ (by omega), readNode_putNext _ _ (by omega),
    readNode_putStart _ _ (by omega), readNode_putSize _ _ (by omega) (by omega)]
  simp only [hf]

theorem first_rep (hu : Untouched d h) (hl : d.start + (size + headerSize) ≤ d.limit)
    (hsize : (Block.mk size false).WellSized) : Rep d (firstHeap d h size) [⟨size, false⟩] := by
  have hread := @first_read d h size hl
  refine ⟨by simp, rfl, rfl, ?_, hl, by simpa using hsize, ?_, ?_, ?_⟩
  · simp only [firstHeap, span_cons, span_nil, Block.len]
    omega
  · intro x hx
    rw [cells, place_cons, place_nil, List.mem_singleton] at hx
    subst hx
    exact ⟨by rw [hread], by rw [hread], by rw [hread]⟩
  · have hn : (readNode (firstHeap d h size).mem d.start).next = d.start := by rw [hread]
    have hp : (readNode (firstHeap d h size).mem d.start).prev = d.start := by rw [hread]
    simp [addresses, cells, Circular, closed, CircularList.Path, Linked, hn, hp]
  · exact ⟨by simp [firstHeap, hu.list], rfl, rfl, rfl, rfl⟩

theorem firstAllocation_eq (hu : Untouched d h) (hl : d.start + (size + headerSize) ≤ d.limit) :
    d.firstAllocation size h = .ok (d.start + headerSize, firstHeap d h size) := by
  obtain ⟨g, hg⟩ : ∃ g : Heap, { h with firstAlloc := false } = g := ⟨_, rfl⟩
  have hb : g.brk = d.start := by rw [← hg, ← hu.brk]
  have hcast : (size : ℤ) + headerSize = (size + headerSize : ℕ) := by push_cast; rfl
  have hs : d.sbrk (size + headerSize : ℕ) g = (some g.brk, grown g (size + headerSize)) :=
    sbrk_ok hb.ge (by omega)
  have hint : d.readInt (some g.brk) (grown g (size + headerSize)) = .ok 0 :=
    readInt_grown hb.ge (by simp only [headerSize]; omega)
  have hm : d.Mapped (grown g (size + headerSize)) d.start headerSize :=
    ⟨le_rfl, by simp only [grown]; omega⟩
  have hfin : (0 : ℤ) ≠ -1 := by decide
  have hread := @first_read d h size hl
  rw [hb] at hs hint
  simp only [firstHeap, firstMem] at hread
  simp only [firstAllocation, hg, hcast, hs, hint, ok_bind, if_neg hfin, Option.getD_some, writeSize,
    writeStart, writeNext, writePrev, write_ok hm, node_ok hm, pure_eq_ok, firstHeap, firstMem]
  simp only [grown, ← hg, hu.brk, hread]

theorem firstAllocation_fail (hu : Untouched d h) (hl : d.limit < d.start + (size + headerSize)) :
    d.firstAllocation size h = .error .breakFailed := by
  have hcast : (size : ℤ) + headerSize = (size + headerSize : ℕ) := by push_cast; rfl
  have hs : d.sbrk (size + headerSize : ℕ) { h with firstAlloc := false } =
      (none, { h with firstAlloc := false }) := sbrk_fail (by rw [hu.brk]; exact hl)
  simp only [firstAllocation, hcast, hs, readInt]
  rfl

end First

section Wilderness
variable {l : List Block} {n req : ℕ} {f : Bool}

/-- The writes of `wilderness` to the last header. -/
def growMem (f : Bool) (m : Memory) (w req : ℕ) : Memory :=
  putSize (if f then putFreed m w false else m) w req

def growList (f : Bool) (a : AllocInfoList) (n k : ℕ) : AllocInfoList :=
  { a with
    numFreeBlocks := if f then a.numFreeBlocks - 1 else a.numFreeBlocks
    numFreeBytes := if f then a.numFreeBytes - n else a.numFreeBytes
    numAllocatedBytes := a.numAllocatedBytes + k }

def extended (f : Bool) (h : Heap) (w n req : ℕ) : Heap :=
  { h with
    brk := h.brk + (req - n)
    mem := growMem f (fill h.mem h.brk (req - n) 0) w req
    list := growList f h.list n (req - n) }

theorem readNode_growMem (m : Memory) {w x : ℕ} (hx : x = w ∨ Apart w x) (hreq : req < 2 ^ 32) :
    readNode (growMem f m w req) x = if x = w then
      { readNode m x with flag := if f then 0 else (readNode m x).flag, sizeOfAllocation := req }
      else readNode m x := by
  cases f with
  | false =>
    rw [growMem, readNode_putSize_of _ hx (by omega) (by omega)]
    simp
  | true =>
    rw [growMem, readNode_putSize_of _ hx (by omega) (by omega), if_pos rfl,
      readNode_putFreed_of _ hx]
    simp only [if_true]
    split_ifs <;> simp

theorem onlyHeaders_growMem (m : Memory) {w : ℕ} {as : List ℕ} (hw : w ∈ as) :
    OnlyHeaders as m (growMem f m w req) := by
  cases f with
  | false => exact (onlyHeader_putSize m w req).toHeaders hw
  | true =>
    exact ((onlyHeader_putFreed m w false).toHeaders hw).trans
      ((onlyHeader_putSize _ w req).toHeaders hw)

theorem extended_read (hr : Rep d h (l ++ [⟨n, f⟩])) (hreq : req < 2 ^ 32) {w : ℕ}
    (hw : d.start + span Block.len l = w) {x : ℕ × Block} (hx : x ∈ cells d.start (l ++ [⟨n, f⟩])) :
    readNode (extended f h w n req).mem x.1 = if x.1 = w then
      { readNode h.mem x.1 with
        flag := if f then 0 else (readNode h.mem x.1).flag, sizeOfAllocation := req }
      else readNode h.mem x.1 := by
  have hxw := cells_apart (Rep.mem_mid d.start l [] ⟨n, f⟩) hx
  rw [hw] at hxw
  rw [extended, readNode_growMem _ hxw hreq, readNode_fill (append_apart hr hx).2]

theorem extended_rep (hr : Rep d h (l ++ [⟨n, f⟩])) (hn : n ≤ req)
    (hl : h.brk + (req - n) ≤ d.limit) (hsize : (Block.mk req false).WellSized) {w : ℕ}
    (hw : d.start + span Block.len l = w) :
    Rep d (extended f h w n req) (l ++ [⟨req, false⟩]) := by
  have hm := Rep.mem_mid d.start l [] ⟨n, f⟩
  have hd := hr.nodes _ hm
  have htile := hr.tile
  have hring := hr.ring
  have hc := hr.counters
  have hlim := d.limit_lt
  have hlt := hr.cell_lt hm
  have hbound := (mem_place_bounds hm).2
  simp only [hw, Block.len] at hd hlt hbound
  have hreq : req < 2 ^ 32 := by omega
  have hread := fun x hx => @extended_read d h l n req f hr hreq w hw x hx
  have hr' : Rep d h (l ++ [⟨n, f⟩] ++ []) := by simpa using hr
  have hrep : Rep d (extended f h w n req) (l ++ [⟨req, false⟩] ++ []) := by
    refine hr'.replace (by simp) hr.first rfl ?_ hl (Or.inl rfl) ?_ ?_ ?_ (by simp) ?_ ?_
    · simp only [extended, htile, List.append_nil, span_append, span_cons, span_nil, Block.len]
      omega
    · intro c hc
      rwa [List.mem_singleton.mp hc]
    · intro x hx
      have hb := mem_place_bounds hx
      have hpos := x.2.len_pos
      refine .of_eq ?_
      rw [hread x (mem_cells_append.mpr (Or.inl hx)), if_neg (by omega)]
    · intro x hx
      rw [cells, place_cons, place_nil, List.mem_singleton, hw] at hx
      subst hx
      have hrw := hread _ hm
      simp only [hw, if_true] at hrw
      refine ⟨?_, ?_, ?_⟩
      · simp only [hrw, hd.flag]
        cases f <;> rfl
      · rw [hrw]
        exact hd.start
      · rw [hrw]
    · have hadd : addresses d.start (l ++ [⟨req, false⟩] ++ []) =
          addresses d.start (l ++ [⟨n, f⟩]) := by
        rw [List.append_nil, addresses_split, addresses_split]
        rfl
      rw [hadd]
      refine hring.congr ?_ ?_ <;>
      · intro p hp
        obtain ⟨x, hx, rfl⟩ := List.mem_map.mp hp
        simp only [hread x hx]
        split_ifs <;> rfl
    · simp only [List.append_nil]
      simp at hc
      refine ⟨?_, ?_, ?_, ?_, ?_⟩ <;> cases f <;> simp [extended, growList] at hc ⊢ <;> omega
  simpa using hrep

theorem extended_below {w : ℕ} (hw : d.start + span Block.len l = w) :
    OnlyBelow (addresses d.start (l ++ [⟨n, f⟩])) h.brk h.mem (extended f h w n req).mem := by
  refine (onlyBelow_fill _ h.mem h.brk (req - n) 0).trans
    (OnlyHeaders.below (onlyHeaders_growMem _ ?_) h.brk)
  rw [addresses_split, hw]
  simp

theorem extend_bumps (hr : Rep d h (l ++ [⟨n, f⟩]))
    (hl : h.brk + (req - n) ≤ d.limit) :
    bump h.list.numAllocatedBytes ((req - n : ℕ) : ℤ) =
        .ok (h.list.numAllocatedBytes + (req - n)) ∧
      (f = true → bump h.list.numFreeBlocks (-1) = .ok (h.list.numFreeBlocks - 1) ∧
        bump h.list.numFreeBytes (-(n : ℤ)) = .ok (h.list.numFreeBytes - n)) := by
  have hc := hr.counters
  have hlim := d.limit_lt
  have htile := hr.tile
  have hsp := span_eq (l ++ [⟨n, f⟩])
  simp only [headerSize] at hc hsp
  refine ⟨bump_eq (by omega) (by omega), ?_⟩
  rintro rfl
  simp at hc
  exact ⟨bump_eq (by omega) (by omega), bump_eq (by omega) (by omega)⟩

theorem wilderness_eq (hr : Rep d h (l ++ [⟨n, f⟩])) (hn : n + 4 ≤ req)
    (hl : h.brk + (req - n) ≤ d.limit) {w : ℕ} (hw : d.start + span Block.len l = w) :
    d.wilderness req h = .ok (w + headerSize, extended f h w n req) := by
  have hm := Rep.mem_mid d.start l [] ⟨n, f⟩
  obtain ⟨y, hy, hyh⟩ := List.mem_map.mp hr.head_mem
  have hmw := hr.mapped hm
  have hmh := hr.mapped hy
  have hd := hr.nodes _ hm
  have hprev := hr.links_last.2
  have hstart : d.start ≤ h.brk := by
    have htile := hr.tile
    omega
  have hreq : req < 2 ^ 32 := by
    have hbound := (mem_place_bounds hm).2
    have htile := hr.tile
    have hlim := d.limit_lt
    simp only [Block.len] at hbound
    omega
  have hcond : ¬ (req : ℤ) < n := by omega
  have hoff : (req : ℤ) - n = (req - n : ℕ) := by omega
  have hadd : (n : ℤ) + (req - n : ℕ) = req := by omega
  have hs : d.sbrk ((req - n : ℕ) : ℤ) h = (some h.brk, grown h (req - n)) := sbrk_ok hstart hl
  have hint : d.readInt (some h.brk) (grown h (req - n)) = .ok 0 := readInt_grown hstart (by omega)
  have hfin : (0 : ℤ) ≠ -1 := by decide
  have hgrown : (grown h (req - n)).brk = h.brk + (req - n) := rfl
  have hm' : d.Mapped (grown h (req - n)) w headerSize := by
    rw [hw] at hmw
    exact ⟨hmw.1, le_trans hmw.2 (by omega)⟩
  have hrd : readNode (grown h (req - n)).mem w = readNode h.mem w := by
    have he := (append_apart hr hm).2
    rw [hw] at he
    exact readNode_fill he
  obtain ⟨hc1, hc2⟩ := extend_bumps hr hl
  have hread := extended_read hr hreq hw hm
  have hbm : (grown h (req - n)).list = h.list := rfl
  have hbf : (grown h (req - n)).firstAlloc = h.firstAlloc := rfl
  have hmm : (grown h (req - n)).mem = fill h.mem h.brk (req - n) 0 := rfl
  have hsize := hd.size
  have hst := hd.start
  have hfr := hd.isFreed
  simp only [hw, hyh] at hmw hmh hsize hst hfr hprev hread
  have hfst : (readNode (extended f h w n req).mem w).allocationStartPtr = w + headerSize := by
    rw [hread, if_pos trivial]
    exact hst
  have hhead := hr.head
  rw [← hfst]
  cases f with
  | false =>
    simp only [wilderness, hr.head, node_ok hmh, ok_bind, hprev, node_ok hmw, hsize, if_neg hcond,
      hoff, hs, hint, if_neg hfin, setUsed, node_ok hm', hrd, hfr, Bool.false_eq_true, if_false,
      pure_eq_ok, hadd, writeSize, write_ok hm', hbm, hc1]
    simp [extended, growMem, growList, grown, hhead]
  | true =>
    obtain ⟨hc2, hc3⟩ := hc2 rfl
    simp only [wilderness, hr.head, node_ok hmh, ok_bind, hprev, node_ok hmw, hsize, if_neg hcond,
      hoff, hs, hint, if_neg hfin, setUsed, node_ok hm', hrd, hfr, if_true, writeFreed,
      write_ok hm', pure_eq_ok, hadd, writeSize, hbm, hc1, hc2, hc3, readNode_putFreed]
    simp [extended, growMem, growList, grown, hhead]

theorem wilderness_fail (hr : Rep d h (l ++ [⟨n, f⟩])) (hn : n ≤ req)
    (hl : d.limit < h.brk + (req - n)) : d.wilderness req h = .error .breakFailed := by
  have hm := Rep.mem_mid d.start l [] ⟨n, f⟩
  obtain ⟨y, hy, hyh⟩ := List.mem_map.mp hr.head_mem
  have hmh := hr.mapped hy
  have hsize := (hr.nodes _ hm).size
  have hcond : ¬ (req : ℤ) < n := by omega
  have hoff : (req : ℤ) - n = (req - n : ℕ) := by omega
  simp only [hyh] at hmh hsize
  simp only [wilderness, hr.head, node_ok hmh, ok_bind, hr.links_last.2, node_ok (hr.mapped hm),
    hsize, if_neg hcond, hoff, sbrk_fail hl, readInt]
  rfl

end Wilderness

end DataSegment

end OperationSystems.Malloc3
