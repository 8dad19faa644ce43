import OperationSystems.Malloc2.Changes

/-!
# A new block

New memory comes behind the last block, and its bytes are zero: the test for
`-1` at its first word fails, and the flag byte of the first block needs no
write.
-/

namespace OperationSystems.Malloc2
open ByteMemory CircularList Tiling
open Malloc3 (AllocInfoList Block Fault Result bytes freeBytes freeBlocks ok_bind pure_eq_ok)

theorem readNode_fill {w : ℕ} (hw : 0 < w) {m : Memory} {x e n : ℕ} {b : UInt8}
    (hx : x + headerSize w ≤ e) : readNode w (fill m e n b) x = readNode w m x :=
  readNode_congr hw fun _ _ hi => fill_outside m b (Or.inl (by omega))

/-- The header writes of the append path of `malloc`. -/
def appendMem (w : ℕ) (m : Memory) (a last head size : ℕ) : Memory :=
  let m := put w (put w (putFreed m a false) a .sizeOfAllocation size) a .allocationStartPtr
    (a + headerSize w)
  put w (put w (put w (put w m last .next a) a .prev last) head .prev a) a .next head

section Reads
variable {w : ℕ} (hw : 0 < w) (m : Memory) {a last head size x : ℕ}
include hw

theorem readNode_appendMem (hxa : Apart w a x) (hxl : x = last ∨ Apart w last x)
    (hxh : x = head ∨ Apart w head x) (ha : a < 256 ^ w) :
    readNode w (appendMem w m a last head size) x =
      { readNode w m x with
        next := if x = last then a else (readNode w m x).next
        prev := if x = head then a else (readNode w m x).prev } := by
  rw [appendMem, (onlyHeader_put hw _ _ _ _).apart hw hxa, readNode_put_of hw _ hxh ha,
    (onlyHeader_put hw _ _ _ _).apart hw hxa, readNode_put_of hw _ hxl ha,
    (onlyHeader_put hw _ _ _ _).apart hw hxa, (onlyHeader_put hw _ _ _ _).apart hw hxa,
    (onlyHeader_putFreed hw _ _ _).apart hw hxa]
  split_ifs <;> rfl

theorem readNode_appendMem_new (hl : Apart w last a) (hh : Apart w head a)
    (ha : a + headerSize w < 256 ^ w) (hlast : last < 256 ^ w) (hhead : head < 256 ^ w)
    (hsize : size < 256 ^ w) :
    readNode w (appendMem w m a last head size) a =
      { isFreed := false, allocationStartPtr := a + headerSize w, sizeOfAllocation := size,
        next := head, prev := last } := by
  rw [appendMem, readNode_put hw _ _ _ hhead, (onlyHeader_put hw _ _ _ _).apart hw hh,
    readNode_put hw _ _ _ hlast, (onlyHeader_put hw _ _ _ _).apart hw hl, readNode_put hw _ _ _ ha,
    readNode_put hw _ _ _ hsize, readNode_putFreed hw]
  rfl

end Reads

section Append
variable {d : Segment} {h : Heap} {l bs : List Block} {b : Block} {size last : ℕ}

/-- The heap after a successful `sbrk` of `n` bytes. -/
def grown (h : Heap) (n : ℕ) : Heap := { h with brk := h.brk + n, mem := fill h.mem h.brk n 0 }

theorem sbrk_ok {n : ℕ} (hl : h.brk + n ≤ d.limit) : d.sbrk n h = (some h.brk, grown h n) := if_pos hl

theorem sbrk_fail {n : ℕ} (hl : d.limit < h.brk + n) : d.sbrk n h = (none, h) := if_neg (by omega)

theorem isMinusOne_grown {n : ℕ} (hs : d.start ≤ h.brk) (hn : 4 ≤ n) :
    d.isMinusOne (some h.brk) (grown h n) = .ok false := by
  have hm : d.Mapped (grown h n) h.brk 4 := ⟨hs, by simp only [grown]; omega⟩
  have hz : load (grown h n).mem h.brk 4 = 0 := load_fill_zero h.mem le_rfl (by omega)
  simp only [Segment.isMinusOne, if_pos hm, hz]
  rfl

def appendList (w : ℕ) (a : AllocInfoList) (size : ℕ) : AllocInfoList :=
  { a with
    size := a.size + 1
    numAllocatedBlocks := a.numAllocatedBlocks + 1
    numAllocatedBytes := a.numAllocatedBytes + size
    numMetaDataBlocks := a.numMetaDataBlocks + 1
    numMetaDataBytes := a.numMetaDataBytes + headerSize w }

def appended (d : Segment) (h : Heap) (last size : ℕ) : Heap :=
  { h with
    brk := h.brk + (size + d.header)
    mem := appendMem d.word (fill h.mem h.brk (size + d.header) 0) h.brk last d.start size
    list := appendList d.word h.list size }

theorem append_apart (hr : Rep d h bs) {x : ℕ × Block} (hx : x ∈ cells d bs) :
    Apart d.word h.brk x.1 ∧ x.1 + headerSize d.word ≤ h.brk := by
  have hm := (hr.mapped hx).2
  exact ⟨Or.inr hm, hm⟩

theorem append_read (hr : Rep d h (l ++ [b])) (hl : h.brk + (size + d.header) ≤ d.limit)
    (hlast : d.start + span (len d.word) l = last) {x : ℕ × Block} (hx : x ∈ cells d (l ++ [b])) :
    readNode d.word (appended d h last size).mem x.1 =
      { readNode d.word h.mem x.1 with
        next := if x.1 = last then h.brk else (readNode d.word h.mem x.1).next
        prev := if x.1 = d.start then h.brk else (readNode d.word h.mem x.1).prev } := by
  have hxl := cells_apart (mem_mid d l [] b) hx
  obtain ⟨y, hy, hyh⟩ := List.mem_map.mp hr.head_mem
  have hxh := cells_apart hy hx
  have hlim := d.limit_lt
  obtain ⟨hxa, hxe⟩ := append_apart hr hx
  simp only [hlast, hyh] at hxl hxh
  rw [appended, readNode_appendMem d.word_pos _ hxa hxl hxh (by omega), readNode_fill d.word_pos hxe]

theorem append_read_new (hr : Rep d h (l ++ [b])) (hl : h.brk + (size + d.header) ≤ d.limit)
    (hlast : d.start + span (len d.word) l = last) :
    readNode d.word (appended d h last size).mem h.brk =
      { isFreed := false, allocationStartPtr := h.brk + d.header, sizeOfAllocation := size,
        next := d.start, prev := last } := by
  have hm := mem_mid d l [] b
  obtain ⟨y, hy, hyh⟩ := List.mem_map.mp hr.head_mem
  have h1 := append_apart hr hm
  have h2 := append_apart hr hy
  have hlim := d.limit_lt
  simp only [hlast, hyh] at h1 h2
  simp only [Segment.header] at hl
  exact readNode_appendMem_new d.word_pos _ h1.1.symm h2.1.symm (by omega) (by omega) (by omega)
    (by omega)

theorem addresses_concat (hr : Rep d h bs) (c : Block) :
    addresses d (bs ++ [c]) = addresses d bs ++ [h.brk] := by
  rw [addresses_split, hr.tile]
  rfl

theorem links_last (hr : Rep d h (l ++ [b])) :
    (readNode d.word h.mem (d.start + span (len d.word) l)).next = d.start ∧
      (readNode d.word h.mem d.start).prev = d.start + span (len d.word) l := by
  have hring := hr.ring
  rw [addresses_split] at hring
  have hl := hring.linked_last
  have hd : (addresses d l).headD (d.start + span (len d.word) l) = d.start := by
    cases l <;> simp [addresses]
  rwa [hd] at hl

theorem addresses_nodup (d : Segment) (bs : List Block) : (addresses d bs).Nodup :=
  (place_pairwise _ (len_pos d) _ bs).imp Nat.ne_of_lt

theorem append_ring (hr : Rep d h (l ++ [b])) (hl : h.brk + (size + d.header) ≤ d.limit)
    (hlast : d.start + span (len d.word) l = last) {m : Memory}
    (hm : m = (appended d h last size).mem) :
    Circular (fun p => (readNode d.word m p).next) (fun p => (readNode d.word m p).prev)
      (addresses d (l ++ [b] ++ [⟨size, false⟩])) := by
  have hlinks : ∀ p ∈ addresses d (l ++ [b]),
      (readNode d.word m p).next = (if p = last then h.brk else (readNode d.word h.mem p).next) ∧
      (readNode d.word m p).prev = (if p = d.start then h.brk else (readNode d.word h.mem p).prev) := by
    intro p hp
    obtain ⟨x, hx, rfl⟩ := List.mem_map.mp hp
    rw [hm, append_read hr hl hlast hx]
    exact ⟨rfl, rfl⟩
  have hnew := append_read_new hr hl hlast
  rw [← hm] at hnew
  have hnext := (links_last hr).1
  have hhead := hr.head_mem
  have hring := hr.ring
  have hnodup := addresses_nodup d (l ++ [b])
  rw [addresses_concat hr]
  rw [addresses_split, hlast] at hring hlinks hhead hnodup ⊢
  rw [hlast] at hnext
  simp only [place_nil, List.map_nil] at hring hlinks hhead hnodup ⊢
  rw [← List.append_cons]
  refine hring.insert hnodup ?_ ?_ ?_ ?_ ?_ ?_
  · rw [(hlinks last (by simp)).1, if_pos rfl]
  · rw [hnew, hnext]
  · rw [hnew]
  · rw [hnext, (hlinks _ hhead).2, if_pos rfl]
  · intro p hp
    have hne : p ≠ last := by
      rintro rfl
      simp only [List.nodup_append, List.mem_append] at hnodup hp
      exact hnodup.2.2 p (hp.resolve_right List.not_mem_nil) p (by simp) rfl
    rw [(hlinks p (by simp at hp ⊢; tauto)).1, if_neg hne]
  · intro p hp hne
    rw [hnext] at hne
    rw [(hlinks p hp).2, if_neg hne]

theorem append_rep (hr : Rep d h (l ++ [b])) (hl : h.brk + (size + d.header) ≤ d.limit)
    (hlast : d.start + span (len d.word) l = last) :
    Rep d (appended d h last size) (l ++ [b] ++ [⟨size, false⟩]) := by
  have hnew := append_read_new hr hl hlast
  have hst := hr.stats
  refine ⟨by simp, hr.first, hr.head, ?_, hl, ?_, append_ring hr hl hlast rfl, ?_⟩
  · simp only [appended, hr.tile, span_append, span_cons, span_nil, len, Segment.header]
    omega
  · intro x hx
    rw [cells, place_append, List.mem_append] at hx
    rcases hx with hx | hx
    · have hd := hr.nodes x hx
      have hread := append_read hr hl hlast hx
      exact ⟨by rw [hread]; exact hd.isFreed, by rw [hread]; exact hd.start, by rw [hread]; exact hd.size⟩
    · rw [place_cons, place_nil, List.mem_singleton, ← hr.tile] at hx
      subst hx
      exact ⟨by rw [hnew], by rw [hnew], by rw [hnew]⟩
  · constructor <;> simp [appended, appendList, hst.size, hst.numFreeBlocks, hst.numFreeBytes,
      hst.numAllocatedBlocks, hst.numAllocatedBytes, hst.numMetaDataBlocks, hst.numMetaDataBytes] <;> ring

theorem append_keeps (hr : Rep d h (l ++ [b])) (hlast : d.start + span (len d.word) l = last) :
    Keeps d (fun _ => False) h (l ++ [b]) (appended d h last size) := by
  intro x hx _ i hl hlt
  have hend := (mem_place_bounds hx).2
  have hbrk : i < h.brk := by
    rw [hr.tile]
    omega
  have hm := payload_outside hx (mid_mem d l [] b) hl hlt
  have hh := payload_outside hx hr.head_mem hl hlt
  rw [hlast] at hm
  have hw := d.word_pos
  simp only [appended, appendMem]
  rw [onlyHeader_put hw _ _ _ _ _ (Or.inl hbrk), onlyHeader_put hw _ _ _ _ _ hh,
    onlyHeader_put hw _ _ _ _ _ (Or.inl hbrk), onlyHeader_put hw _ _ _ _ _ hm,
    onlyHeader_put hw _ _ _ _ _ (Or.inl hbrk), onlyHeader_put hw _ _ _ _ _ (Or.inl hbrk),
    onlyHeader_putFreed hw _ _ _ _ (Or.inl hbrk)]
  exact fill_outside h.mem 0 (Or.inl hbrk)

theorem append_bumps (hr : Rep d h bs) (hl : h.brk + (size + d.header) ≤ d.limit) :
    d.bump h.list.size 1 = .ok (h.list.size + 1) ∧
    d.bump h.list.numAllocatedBlocks 1 = .ok (h.list.numAllocatedBlocks + 1) ∧
    d.bump h.list.numAllocatedBytes size = .ok (h.list.numAllocatedBytes + size) ∧
    d.bump h.list.numMetaDataBlocks 1 = .ok (h.list.numMetaDataBlocks + 1) ∧
    d.bump h.list.numMetaDataBytes d.header = .ok (h.list.numMetaDataBytes + d.header) := by
  have hst := hr.stats
  have hlim := d.limit_lt
  have htile := hr.tile
  have hspan := Rep.span_eq d.word bs
  have hlen : bs.length ≤ headerSize d.word * bs.length := Nat.le_mul_of_pos_left _ (header_pos d)
  have hpos := header_pos d
  obtain ⟨e1, -, -, e2, e3, e4, e5⟩ := hst
  simp only [Segment.header] at hl hpos ⊢
  refine ⟨?_, ?_, ?_, ?_, ?_⟩ <;> exact bump_eq (by push_cast; ring) (by omega)

/-- Reads and writes of a header below the break, with the state spelled out. -/
theorem header_ok {m : Memory} {e p : ℕ} {fa : Bool} {li : AllocInfoList} (hs : d.start ≤ p)
    (he : p + d.header ≤ e) :
    (∀ c, d.writeFreed p c ⟨m, e, fa, li⟩ = .ok ⟨putFreed m p c, e, fa, li⟩) ∧
    (∀ f v, d.write p f v ⟨m, e, fa, li⟩ = .ok ⟨put d.word m p f v, e, fa, li⟩) ∧
    d.node p ⟨m, e, fa, li⟩ = .ok (readNode d.word m p) :=
  ⟨fun _ => if_pos ⟨hs, he⟩, fun _ _ => if_pos ⟨hs, he⟩, if_pos ⟨hs, he⟩⟩

theorem appendBlock_eq (hr : Rep d h (l ++ [b])) (hl : h.brk + (size + d.header) ≤ d.limit)
    (hlast : d.start + span (len d.word) l = last) :
    d.appendBlock size h = .ok (h.brk + d.header, appended d h last size) := by
  have hm := mem_mid d l [] b
  obtain ⟨y, hy, hyh⟩ := List.mem_map.mp hr.head_mem
  have hstart : d.start ≤ h.brk := by
    have htile := hr.tile
    omega
  have hfour : 4 ≤ size + d.header := by
    have hw := d.word_pos
    simp only [Segment.header, headerSize]
    omega
  have hint := isMinusOne_grown (h := h) hstart hfour
  -- the three headers that are written
  have hml := hr.mapped hm
  have hmh := hr.mapped hy
  obtain ⟨ha, he⟩ := append_apart hr hy
  simp only [hlast, hyh] at hml hmh ha he
  have hl' : last + d.header ≤ h.brk + (size + d.header) := hml.2.trans (Nat.le_add_right _ _)
  have hh' : d.start + d.header ≤ h.brk + (size + d.header) := hmh.2.trans (Nat.le_add_right _ _)
  have ha' : h.brk + d.header ≤ h.brk + (size + d.header) := by omega
  have hw := d.word_pos
  obtain ⟨hc1, hc2, hc3, hc4, hc5⟩ := append_bumps hr hl
  have hnew := append_read_new hr hl hlast
  -- no write comes between `list_head->prev` and its reads
  have hprev : (readNode d.word (put d.word (put d.word (putFreed (fill h.mem h.brk (size + d.header) 0)
      h.brk false) h.brk .sizeOfAllocation size) h.brk .allocationStartPtr (h.brk + d.header))
      d.start).prev = last := by
    rw [(onlyHeader_put hw _ _ _ _).apart hw ha, (onlyHeader_put hw _ _ _ _).apart hw ha,
      (onlyHeader_putFreed hw _ _ _).apart hw ha, readNode_fill hw he, (links_last hr).2, hlast]
  have hprev' : (readNode d.word (put d.word (put d.word (put d.word (putFreed (fill h.mem h.brk
      (size + d.header) 0) h.brk false) h.brk .sizeOfAllocation size) h.brk .allocationStartPtr
      (h.brk + d.header)) last .next h.brk) d.start).prev = last := by
    have hc := cells_apart hm hy
    rw [hlast, hyh] at hc
    rw [readNode_put_of hw _ hc (by have hlim := d.limit_lt; omega)]
    split_ifs <;> simp [AllocInfoNode.set, hprev]
  simp only [appended, appendMem] at hnew
  simp only [Segment.appendBlock, sbrk_ok hl, hint, ok_bind, Bool.false_eq_true, if_false,
    Option.getD_some]
  simp only [grown, hc1, hc2, hc3, hc4, hc5, ok_bind, header_ok hstart ha', header_ok hml.1 hl',
    header_ok le_rfl hh', hr.head, hprev, hprev', pure_eq_ok]
  simp only [Segment.header] at hnew ⊢
  simp only [hnew, appended, appendMem, appendList, hr.head]

theorem appendBlock_fail (hl : d.limit < h.brk + (size + d.header)) :
    d.appendBlock size h = .error .breakFailed := by
  simp only [Segment.appendBlock, sbrk_fail hl, Segment.isMinusOne]
  rfl

end Append

section First
variable {d : Segment} {h : Heap} {size : ℕ}

/-- A heap before its first successful allocation. -/
structure Untouched (d : Segment) (h : Heap) : Prop where
  brk : h.brk = d.start
  firstAlloc : h.firstAlloc = true
  list : h.list = ⟨0, 0, 0, 0, 0, 0, 0, 0⟩

def firstMem (w : ℕ) (m : Memory) (a size : ℕ) : Memory :=
  put w (put w (put w (put w m a .sizeOfAllocation size) a .allocationStartPtr (a + headerSize w))
    a .next a) a .prev a

def firstHeap (d : Segment) (h : Heap) (size : ℕ) : Heap where
  mem := firstMem d.word (fill h.mem d.start (size + d.header) 0) d.start size
  brk := d.start + (size + d.header)
  firstAlloc := false
  list := { h.list with
    head := d.start, size := 1, numAllocatedBlocks := 1, numAllocatedBytes := size,
    numFreeBytes := 0, numMetaDataBlocks := 1, numMetaDataBytes := d.header }

theorem first_read (hl : d.start + (size + d.header) ≤ d.limit) :
    readNode d.word (firstHeap d h size).mem d.start =
      { isFreed := false, allocationStartPtr := d.start + d.header, sizeOfAllocation := size,
        next := d.start, prev := d.start } := by
  have hlim := d.limit_lt
  have hw := d.word_pos
  have hpos := header_pos d
  have hz : load (fill h.mem d.start (size + d.header) 0) d.start 1 = 0 :=
    load_fill_zero h.mem le_rfl (by omega)
  have hf : (readNode d.word (fill h.mem d.start (size + d.header) 0) d.start).isFreed = false := by
    simp only [readNode, hz]
    rfl
  simp only [Segment.header] at hl
  simp only [firstHeap, firstMem]
  rw [readNode_put hw _ _ _ (by omega), readNode_put hw _ _ _ (by omega),
    readNode_put hw _ _ _ (by omega), readNode_put hw _ _ _ (by omega)]
  simp only [AllocInfoNode.set, hf]

theorem first_rep (hu : Untouched d h) (hl : d.start + (size + d.header) ≤ d.limit) :
    Rep d (firstHeap d h size) [⟨size, false⟩] := by
  have hread := @first_read d h size hl
  refine ⟨by simp, rfl, rfl, ?_, hl, ?_, ?_, ?_⟩
  · simp only [firstHeap, span_cons, span_nil, len, Segment.header]
    omega
  · intro x hx
    rw [cells, place_cons, place_nil, List.mem_singleton] at hx
    subst hx
    exact ⟨by rw [hread], by rw [hread], by rw [hread]⟩
  · have hn : (readNode d.word (firstHeap d h size).mem d.start).next = d.start := by rw [hread]
    have hp : (readNode d.word (firstHeap d h size).mem d.start).prev = d.start := by rw [hread]
    simp [addresses, cells, Circular, closed, CircularList.Path, Linked, hn, hp]
  · exact ⟨rfl, by simp [firstHeap, hu.list], rfl, rfl, rfl, rfl, (Nat.mul_one _).symm⟩

theorem firstAllocation_eq (hu : Untouched d h) (hl : d.start + (size + d.header) ≤ d.limit) :
    d.firstAllocation size h = .ok (d.start + d.header, firstHeap d h size) := by
  obtain ⟨g, hg⟩ : ∃ g : Heap, { h with firstAlloc := false } = g := ⟨_, rfl⟩
  have hb : g.brk = d.start := by rw [← hg, ← hu.brk]
  have hfour : 4 ≤ size + d.header := by
    have hw := d.word_pos
    simp only [Segment.header, headerSize]
    omega
  have hs : d.sbrk (size + d.header) g = (some g.brk, grown g (size + d.header)) := sbrk_ok (by omega)
  have hint := isMinusOne_grown (h := g) hb.ge hfour
  have he : d.start + d.header ≤ d.start + (size + d.header) := by omega
  have hread := @first_read d h size hl
  rw [hb] at hs hint
  simp only [firstHeap, firstMem] at hread
  simp only [Segment.firstAllocation, hg, hs, hint, ok_bind, Bool.false_eq_true, if_false,
    Option.getD_some]
  simp only [grown, ← hg, hu.brk, header_ok le_rfl he, ok_bind, pure_eq_ok, firstHeap, firstMem]
  simp only [Segment.header] at hread ⊢
  simp only [hread]

theorem firstAllocation_fail (hu : Untouched d h) (hl : d.limit < d.start + (size + d.header)) :
    d.firstAllocation size h = .error .breakFailed := by
  have hs : d.sbrk (size + d.header) { h with firstAlloc := false } =
      (none, { h with firstAlloc := false }) := sbrk_fail (by simpa only [hu.brk] using hl)
  simp only [Segment.firstAllocation, hs, Segment.isMinusOne]
  rfl

end First

end OperationSystems.Malloc2
