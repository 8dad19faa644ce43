import OperationSystems.Malloc3.Blocks

/-!
# Flags and coalescing on represented heaps

`setFree` and `setUsed` turn one block around, `connect` merges a block with
its free successor, and `checkIfFreeAndConnect` does so on both sides.
-/

namespace OperationSystems.Malloc3
open ByteMemory CircularList Tiling

@[simp] theorem ok_bind {α β : Type} (x : α) (f : α → Result β) :
    ((.ok x : Result α) >>= f) = f x := (rfl)

@[simp] theorem pure_eq_ok {α : Type} (x : α) : (pure x : Result α) = .ok x := (rfl)

theorem bind_eq_ok {α β : Type} {x : Result α} {f : α → Result β} {b : β} :
    x >>= f = .ok b ↔ ∃ a, x = .ok a ∧ f a = .ok b := by
  cases x with
  | error e =>
    constructor
    · intro h
      cases h
    · rintro ⟨a, h, -⟩
      cases h
  | ok a => simp

theorem ok_of_toOption {α : Type} {x : Result α} {a : α} (h : x.toOption = some a) : x = .ok a := by
  cases x with
  | error e => cases h
  | ok b => exact congrArg Except.ok (Option.some.inj h)

theorem bump_eq {c c' : ℕ} {k : ℤ} (hk : (c : ℤ) + k = c') (hu : c' < 2 ^ 32) :
    bump c k = .ok c' := by
  have hc : 0 ≤ (c' : ℤ) ∧ (c' : ℤ) < 2 ^ 32 := ⟨by omega, by exact_mod_cast hu⟩
  rw [bump, hk, if_pos hc, Int.toNat_natCast]

namespace DataSegment
variable {d : DataSegment} {h : Heap} {p : ℕ}

theorem mapped_iff {h' : Heap} (hb : h'.brk = h.brk) (a n : ℕ) :
    d.Mapped h' a n ↔ d.Mapped h a n := by
  rw [Mapped, Mapped, hb]

/-- A header that is mapped now stays readable while the break does not move. -/
theorem node_ok (hm : d.Mapped h p headerSize) {h' : Heap} (hb : h'.brk = h.brk) :
    d.node p h' = .ok (readNode h'.mem p) := if_pos ((mapped_iff hb _ _).mpr hm)

theorem write_ok (hm : d.Mapped h p headerSize) (f : Memory → Memory) {h' : Heap}
    (hb : h'.brk = h.brk) : d.write p f h' = .ok { h' with mem := f h'.mem } :=
  if_pos ((mapped_iff hb _ _).mpr hm)

end DataSegment

theorem apart_of_left {a : ℕ} {l : List Block} {x : ℕ × Block} (hx : x ∈ cells a l) {q : ℕ}
    (hq : a + span Block.len l ≤ q) : Apart q x.1 := by
  have hb := mem_place_bounds hx
  have hl := x.2.header_le_len
  exact Or.inr (by omega)

theorem apart_of_right {a : ℕ} {r : List Block} {x : ℕ × Block} (hx : x ∈ cells a r) {q : ℕ}
    (hq : q + headerSize ≤ a) : Apart q x.1 := by
  have hb := mem_place_bounds hx
  exact Or.inl (by omega)

namespace Rep
variable {d : DataSegment} {h : Heap} {l r : List Block} {b : Block}

/-- Turning the flag of one block, with counters to match. -/
theorem putFreed (hr : Rep d h (l ++ b :: r)) (f : Bool) {st : AllocInfoList}
    (hhead : st.head = h.list.head) (hst : Stats st (l ++ ⟨b.size, f⟩ :: r)) :
    Rep d { h with mem := putFreed h.mem (d.start + span Block.len l) f, list := st }
      (l ++ ⟨b.size, f⟩ :: r) := by
  have hlen : (⟨b.size, f⟩ : Block).len = b.len := rfl
  have hp : (d.start + span Block.len l, b) ∈ cells d.start (l ++ b :: r) := mem_mid _ _ _ _
  have hread : ∀ x ∈ cells d.start (l ++ b :: r),
      readNode (Malloc3.putFreed h.mem (d.start + span Block.len l) f) x.1 =
        if x.1 = d.start + span Block.len l then { readNode h.mem x.1 with flag := f.toNat }
        else readNode h.mem x.1 :=
    fun x hx => readNode_putFreed_of h.mem (cells_apart hp hx) f
  have hd := hr.nodes _ hp
  have hsized := hr.sized b (by simp)
  have hring := hr.ring
  have htile := hr.tile
  rw [List.append_cons] at hr hst ⊢
  refine hr.replace (by simp) hr.first hhead ?_ hr.brk_le (Or.inr rfl) ?_ ?_ ?_ ?_ ?_ hst
  · simpa [hlen] using htile
  · intro c hc
    rwa [List.mem_singleton.mp hc]
  · intro x hx
    exact .of_eq ((onlyHeader_putFreed _ _ _).apart (apart_of_left hx le_rfl))
  · intro x hx
    rw [cells, place_cons, place_nil, List.mem_singleton] at hx
    subst hx
    refine ⟨?_, ?_, ?_⟩ <;> simp only [readNode_putFreed]
    · exact hd.start
    · exact hd.size
  · intro x hx
    refine .of_eq ((onlyHeader_putFreed _ _ _).apart (apart_of_right hx ?_))
    have := b.header_le_len
    simp only [span_cons, span_nil]
    omega
  · rw [← List.append_cons, addresses_split, hlen, ← addresses_split]
    refine hring.congr ?_ ?_ <;>
    · intro q hq
      obtain ⟨x, hx, rfl⟩ := List.mem_map.mp hq
      simp only [hread x hx]
      split_ifs <;> rfl

end Rep

theorem Rep.counters {d : DataSegment} {h : Heap} {bs : List Block} (hr : Rep d h bs) :
    headerSize * bs.length + bytes bs < 2 ^ 32 ∧ freeBlocks bs ≤ bs.length ∧
      freeBytes bs ≤ bytes bs ∧ h.list.numFreeBlocks = freeBlocks bs ∧
      h.list.numFreeBytes = freeBytes bs ∧ h.list.numAllocatedBlocks = bs.length ∧
      h.list.numAllocatedBytes = bytes bs ∧ h.list.numMetaDataBlocks = bs.length :=
  ⟨hr.bytes_lt, freeBlocks_le_length bs, freeBytes_le_bytes bs, hr.stats.numFreeBlocks,
    hr.stats.numFreeBytes, hr.stats.numAllocatedBlocks, hr.stats.numAllocatedBytes,
    hr.stats.numMetaDataBlocks⟩

namespace DataSegment
variable {d : DataSegment} {h : Heap} {l r : List Block} {n n₁ n₂ : ℕ} {f : Bool}

theorem setFree_rep (hr : Rep d h (l ++ ⟨n, false⟩ :: r)) :
    ∃ h', d.setFree (d.start + span Block.len l) h = .ok h' ∧
      Rep d h' (l ++ ⟨n, true⟩ :: r) ∧
      OnlyHeaders (addresses d.start (l ++ ⟨n, false⟩ :: r)) h.mem h'.mem := by
  have hp : (d.start + span Block.len l, ⟨n, false⟩) ∈ cells d.start (l ++ ⟨n, false⟩ :: r) :=
    Rep.mem_mid _ _ _ _
  have hm := hr.mapped hp
  have hd := hr.nodes _ hp
  have hf : (readNode h.mem (d.start + span Block.len l)).isFreed = false := hd.isFreed
  have hsz : (readNode h.mem (d.start + span Block.len l)).sizeOfAllocation = (n : ℤ) := hd.size
  have hc := hr.counters
  have hle := freeBytes_le_bytes (l ++ ⟨n, true⟩ :: r)
  simp [headerSize] at hc hle
  have hc1 : bump h.list.numFreeBlocks 1 = .ok (h.list.numFreeBlocks + 1) :=
    bump_eq (by omega) (by omega)
  have hc2 : bump h.list.numFreeBytes (n : ℤ) = .ok (h.list.numFreeBytes + n) :=
    bump_eq (by omega) (by omega)
  simp only [setFree, node_ok hm, ok_bind, hf, Bool.false_eq_true, if_false, writeFreed,
    write_ok hm, hc1, hc2, hsz, pure_eq_ok]
  refine ⟨_, rfl, hr.putFreed true rfl ⟨?_, ?_, ?_, ?_, ?_⟩, ?_⟩
  iterate 5 simp; omega
  exact (onlyHeader_putFreed _ _ _).toHeaders (by simp [addresses_split])

theorem setUsed_rep (hr : Rep d h (l ++ ⟨n, true⟩ :: r)) :
    ∃ h', d.setUsed (d.start + span Block.len l) h = .ok h' ∧
      Rep d h' (l ++ ⟨n, false⟩ :: r) ∧
      OnlyHeaders (addresses d.start (l ++ ⟨n, true⟩ :: r)) h.mem h'.mem := by
  have hp : (d.start + span Block.len l, ⟨n, true⟩) ∈ cells d.start (l ++ ⟨n, true⟩ :: r) :=
    Rep.mem_mid _ _ _ _
  have hm := hr.mapped hp
  have hd := hr.nodes _ hp
  have hf : (readNode h.mem (d.start + span Block.len l)).isFreed = true := hd.isFreed
  have hsz : (readNode h.mem (d.start + span Block.len l)).sizeOfAllocation = (n : ℤ) := hd.size
  have hc := hr.counters
  simp [headerSize] at hc
  have hc1 : bump h.list.numFreeBlocks (-1) = .ok (h.list.numFreeBlocks - 1) :=
    bump_eq (by omega) (by omega)
  have hc2 : bump h.list.numFreeBytes (-(n : ℤ)) = .ok (h.list.numFreeBytes - n) :=
    bump_eq (by omega) (by omega)
  simp only [setUsed, node_ok hm, ok_bind, hf, if_true, writeFreed, write_ok hm, hc1, hc2, hsz,
    pure_eq_ok]
  refine ⟨_, rfl, hr.putFreed false rfl ⟨?_, ?_, ?_, ?_, ?_⟩, ?_⟩
  iterate 5 simp; omega
  exact (onlyHeader_putFreed _ _ _).toHeaders (by simp [addresses_split])

/-- The memory after `connect`: the size and the `next` link of `p1`, then the
`prev` link of the node after the pair. -/
def connectMem (m : Memory) (p1 q : ℕ) (k : ℤ) : Memory :=
  putPrev (putNext (putSize m p1 k) p1 q) q p1

theorem readNode_connectMem (m : Memory) {p1 q x : ℕ} {k : ℤ} (hx : x = p1 ∨ Apart p1 x)
    (hxq : x = q ∨ Apart q x) (hp : p1 < 2 ^ 32) (hq : q < 2 ^ 32) (hl : 0 ≤ k)
    (hu : k < 2 ^ 63) :
    (readNode (connectMem m p1 q k) x).flag = (readNode m x).flag ∧
    (readNode (connectMem m p1 q k) x).allocationStartPtr = (readNode m x).allocationStartPtr ∧
    (readNode (connectMem m p1 q k) x).sizeOfAllocation =
      (if x = p1 then k else (readNode m x).sizeOfAllocation) ∧
    (readNode (connectMem m p1 q k) x).next = (if x = p1 then q else (readNode m x).next) ∧
    (readNode (connectMem m p1 q k) x).prev = (if x = q then p1 else (readNode m x).prev) := by
  rw [connectMem, readNode_putPrev_of _ hxq hp, readNode_putNext_of _ hx hq,
    readNode_putSize_of _ hx (by omega) hu]
  split_ifs <;> simp

theorem connectMem_eq (m : Memory) (p1 q : ℕ) (k : ℤ) :
    putPrev (putNext (putSize m p1 k) p1 q) q p1 = connectMem m p1 q k := rfl

theorem onlyHeaders_connectMem (m : Memory) {p1 q : ℕ} {k : ℤ} {as : List ℕ} (hp : p1 ∈ as)
    (hq : q ∈ as) : OnlyHeaders as m (connectMem m p1 q k) :=
  (((onlyHeader_putSize m p1 k).toHeaders hp).trans
    ((onlyHeader_putNext _ p1 q).toHeaders hp)).trans ((onlyHeader_putPrev _ q p1).toHeaders hq)

/-- The counters after a merge of `⟨n₁, f⟩` with a free block of `n₂` bytes. -/
def connectList (a : AllocInfoList) (f : Bool) (n₂ : ℕ) : AllocInfoList :=
  { a with
    numFreeBlocks := a.numFreeBlocks - 1
    numFreeBytes := if f then a.numFreeBytes + headerSize else a.numFreeBytes - n₂
    numAllocatedBlocks := a.numAllocatedBlocks - 1
    numAllocatedBytes := a.numAllocatedBytes + headerSize
    numMetaDataBlocks := a.numMetaDataBlocks - 1 }

theorem connectList_stats (hr : Rep d h (l ++ ⟨n₁, f⟩ :: ⟨n₂, true⟩ :: r)) :
    Stats (connectList h.list f n₂) (l ++ ⟨n₁ + (n₂ + headerSize), f⟩ :: r) := by
  have hc := hr.counters
  simp [headerSize] at hc
  refine ⟨?_, ?_, ?_, ?_, ?_⟩ <;> cases f <;> simp [connectList, headerSize] at hc ⊢ <;> omega

theorem connect_bumps (hr : Rep d h (l ++ ⟨n₁, f⟩ :: ⟨n₂, true⟩ :: r)) :
    bump h.list.numFreeBlocks (-1) = .ok (h.list.numFreeBlocks - 1) ∧
    bump h.list.numAllocatedBlocks (-1) = .ok (h.list.numAllocatedBlocks - 1) ∧
    bump h.list.numAllocatedBytes headerSize = .ok (h.list.numAllocatedBytes + headerSize) ∧
    bump h.list.numFreeBytes (if f then (headerSize : ℤ) else -(n₂ : ℤ)) =
      .ok (if f then h.list.numFreeBytes + headerSize else h.list.numFreeBytes - n₂) ∧
    bump h.list.numMetaDataBlocks (-1) = .ok (h.list.numMetaDataBlocks - 1) := by
  have hc := hr.counters
  simp [headerSize] at hc
  refine ⟨?_, ?_, ?_, ?_, ?_⟩ <;> cases f <;> simp [headerSize] at hc ⊢ <;>
    exact bump_eq (by omega) (by omega)

/-- The successor of the second block of a pair is another block. -/
theorem pair_next (hr : Rep d h (l ++ ⟨n₁, f⟩ :: ⟨n₂, true⟩ :: r)) {p1 p2 q : ℕ}
    (hp1 : d.start + span Block.len l = p1) (hp2 : p1 + (headerSize + n₁) = p2)
    (hq : (readNode h.mem p2).next = q) :
    q ∈ addresses d.start (l ++ ⟨n₁, f⟩ :: ⟨n₂, true⟩ :: r) ∧ q ≠ p2 := by
  have hring := hr.ring
  have hnodup := addresses_nodup d.start (l ++ ⟨n₁, f⟩ :: ⟨n₂, true⟩ :: r)
  rw [addresses_pair] at hring hnodup ⊢
  have hmem := hring.next_mem_of_cons
  simp only [Block.len, hp1, hp2, hq] at hmem hnodup ⊢
  simp only [List.nodup_append, List.nodup_cons, List.mem_append, List.mem_cons] at hnodup hmem ⊢
  refine ⟨by tauto, ?_⟩
  rintro rfl
  grind

/-- What `connect` leaves in every header of the list. -/
theorem connect_reads (hr : Rep d h (l ++ ⟨n₁, f⟩ :: ⟨n₂, true⟩ :: r)) {p1 p2 q : ℕ}
    (hp1 : d.start + span Block.len l = p1) (hp2 : p1 + (headerSize + n₁) = p2)
    (hq : (readNode h.mem p2).next = q) {x : ℕ × Block}
    (hx : x ∈ cells d.start (l ++ ⟨n₁, f⟩ :: ⟨n₂, true⟩ :: r)) :
    let m := connectMem h.mem p1 q ((n₁ + (n₂ + headerSize) : ℕ) : ℤ)
    (readNode m x.1).flag = (readNode h.mem x.1).flag ∧
    (readNode m x.1).allocationStartPtr = (readNode h.mem x.1).allocationStartPtr ∧
    (readNode m x.1).sizeOfAllocation = (if x.1 = p1 then ((n₁ + (n₂ + headerSize) : ℕ) : ℤ)
      else (readNode h.mem x.1).sizeOfAllocation) ∧
    (readNode m x.1).next = (if x.1 = p1 then q else (readNode h.mem x.1).next) ∧
    (readNode m x.1).prev = (if x.1 = q then p1 else (readNode h.mem x.1).prev) := by
  obtain ⟨h1, h2⟩ := pair_mem d.start l r ⟨n₁, f⟩ ⟨n₂, true⟩
  obtain ⟨y, hy, hyq⟩ := List.mem_map.mp (pair_next hr hp1 hp2 hq).1
  have hlt1 := hr.cell_lt h1
  have hlt2 := hr.cell_lt h2
  have hltq := hr.cell_lt hy
  have hx1 := cells_apart h1 hx
  have hxq := cells_apart hy hx
  simp only [Block.len, hp1, hp2, hyq] at hlt1 hlt2 hltq hx1 hxq
  exact readNode_connectMem h.mem hx1 hxq (by omega) (by omega) (by omega) (by omega)

theorem connect_ok (hr : Rep d h (l ++ ⟨n₁, f⟩ :: ⟨n₂, true⟩ :: r)) {p1 p2 q : ℕ}
    (hp1 : d.start + span Block.len l = p1) (hp2 : p1 + (headerSize + n₁) = p2)
    (hq : (readNode h.mem p2).next = q) :
    d.connect p1 p2 h = .ok { h with
      mem := connectMem h.mem p1 q ((n₁ + (n₂ + headerSize) : ℕ) : ℤ)
      list := connectList h.list f n₂ } := by
  obtain ⟨h1, h2⟩ := pair_mem d.start l r ⟨n₁, f⟩ ⟨n₂, true⟩
  simp only [Block.len, hp1, hp2] at h1 h2
  obtain ⟨y, hy, hyq⟩ := List.mem_map.mp (pair_next hr hp1 hp2 hq).1
  have hmq := hr.mapped hy
  rw [hyq] at hmq
  have hlt1 := hr.cell_lt h1
  simp only at hlt1
  have hap : Apart p1 p2 := Or.inl (by omega)
  have hcond : ¬ (p1 = 0 ∨ p2 = 0) := by omega
  have hmid : readNode (putNext (putSize h.mem p1 ((n₁ + (n₂ + headerSize) : ℕ) : ℤ)) p1 q) p2 =
      readNode h.mem p2 := by
    rw [(onlyHeader_putNext _ _ _).apart hap, (onlyHeader_putSize _ _ _).apart hap]
  have hd1 := hr.nodes _ h1
  have hd2 := hr.nodes _ h2
  have hf1 := AllocInfoNode.flagged_eq ((connect_reads hr hp1 hp2 hq h1).1.trans hd1.flag)
  obtain ⟨hf2, -, hs2, -⟩ := connect_reads hr hp1 hp2 hq h2
  rw [if_neg hap.ne, hd2.size] at hs2
  have hf2 := AllocInfoNode.flagged_eq (hf2.trans hd2.flag)
  simp only at hf1 hf2 hs2
  obtain ⟨hc1, hc2, hc3, hc4, hc5⟩ := connect_bumps hr
  have hk : (readNode h.mem p1).sizeOfAllocation +
      ((readNode h.mem p2).sizeOfAllocation + headerSize) = ((n₁ + (n₂ + headerSize) : ℕ) : ℤ) := by
    rw [hd1.size, hd2.size]
    push_cast
    ring
  simp only [connect, hcond, if_false, node_ok (hr.mapped h1), node_ok (hr.mapped h2), ok_bind,
    writeSize, writeNext, writePrev, write_ok (hr.mapped h1), write_ok hmq, hk, hq, hmid,
    connectMem_eq, hf1, hf2, hs2, if_true, hc1, hc2, hc3, hc4, hc5, pure_eq_ok]
  rfl

theorem connectMem_ring (hr : Rep d h (l ++ ⟨n₁, f⟩ :: ⟨n₂, true⟩ :: r)) {p1 p2 q : ℕ}
    (hp1 : d.start + span Block.len l = p1) (hp2 : p1 + (headerSize + n₁) = p2)
    (hq : (readNode h.mem p2).next = q) {m : Memory}
    (hm : m = connectMem h.mem p1 q ((n₁ + (n₂ + headerSize) : ℕ) : ℤ)) :
    Circular (fun p => (readNode m p).next) (fun p => (readNode m p).prev)
      (addresses d.start (l ++ ⟨n₁ + (n₂ + headerSize), f⟩ :: r)) := by
  have hlinks : ∀ w ∈ addresses d.start (l ++ ⟨n₁, f⟩ :: ⟨n₂, true⟩ :: r),
      (readNode m w).next = (if w = p1 then q else (readNode h.mem w).next) ∧
      (readNode m w).prev = (if w = q then p1 else (readNode h.mem w).prev) := by
    intro w hw
    obtain ⟨x, hx, rfl⟩ := List.mem_map.mp hw
    rw [hm]
    exact (connect_reads hr hp1 hp2 hq hx).2.2.2
  have hqmem := (pair_next hr hp1 hp2 hq).1
  have hring := hr.ring
  have hnodup := addresses_nodup d.start (l ++ ⟨n₁ + (n₂ + headerSize), f⟩ :: r)
  rw [addresses_split, merged_len, ← Nat.add_assoc] at hnodup ⊢
  rw [addresses_pair] at hring hlinks hqmem
  simp only [Block.len, hp1, hp2] at hring hlinks hqmem hnodup ⊢
  have hsub : ∀ w ∈ addresses d.start l ++ p1 :: addresses (p2 + (headerSize + n₂)) r,
      w ∈ addresses d.start l ++ p1 :: p2 :: addresses (p2 + (headerSize + n₂)) r := by
    intro w hw
    simp only [List.mem_append, List.mem_cons] at hw ⊢
    tauto
  subst hq
  refine hring.remove hnodup ?_ ?_ ?_ ?_
  · rw [(hlinks p1 (by simp)).1, if_pos rfl]
  · rw [(hlinks _ hqmem).2, if_pos rfl]
  · intro w hw
    have hne : w ≠ p1 := by
      rintro rfl
      simp only [List.nodup_append, List.nodup_cons, List.mem_append] at hnodup hw
      grind
    rw [(hlinks w (by simp at hw ⊢; tauto)).1, if_neg hne]
  · intro w hw hne
    rw [(hlinks w (hsub w hw)).2, if_neg hne]

theorem connectMem_rep (hr : Rep d h (l ++ ⟨n₁, f⟩ :: ⟨n₂, true⟩ :: r)) {p1 p2 q : ℕ}
    (hp1 : d.start + span Block.len l = p1) (hp2 : p1 + (headerSize + n₁) = p2)
    (hq : (readNode h.mem p2).next = q) :
    Rep d { h with
      mem := connectMem h.mem p1 q ((n₁ + (n₂ + headerSize) : ℕ) : ℤ)
      list := connectList h.list f n₂ } (l ++ ⟨n₁ + (n₂ + headerSize), f⟩ :: r) := by
  obtain ⟨h1, h2⟩ := pair_mem d.start l r ⟨n₁, f⟩ ⟨n₂, true⟩
  have hread := fun x hx => @connect_reads d h l r n₁ n₂ f hr p1 p2 q hp1 hp2 hq x hx
  have hlen := merged_len n₁ n₂ f
  have hd1 := hr.nodes _ h1
  have htile := hr.tile
  have hsize1 := hr.sized ⟨n₁, f⟩ (by simp)
  have hsize2 := hr.sized ⟨n₂, true⟩ (by simp)
  have hsame : ∀ x ∈ cells d.start (l ++ ⟨n₁, f⟩ :: ⟨n₂, true⟩ :: r), x.1 ≠ p1 →
      SameBlock h.mem (connectMem h.mem p1 q ((n₁ + (n₂ + headerSize) : ℕ) : ℤ)) x.1 := by
    intro x hx hxp
    obtain ⟨e1, e2, e3, -⟩ := hread x hx
    exact ⟨e1, e2, by rw [e3, if_neg hxp]⟩
  have hr' : Rep d h (l ++ [⟨n₁, f⟩, ⟨n₂, true⟩] ++ r) := by simpa using hr
  rw [List.append_cons]
  refine hr'.replace (by simp) hr.first rfl ?_ hr.brk_le (Or.inr ?_) ?_ ?_ ?_ ?_ ?_ ?_
  · simpa [hlen, Nat.add_assoc] using htile
  · simp [hlen]
  · intro b hb
    rw [List.mem_singleton.mp hb]
    simp only [Block.WellSized, headerSize] at hsize1 hsize2 ⊢
    omega
  · intro x hx
    have hb := mem_place_bounds hx
    have hpos := x.2.len_pos
    refine hsame x ?_ (by omega)
    rw [cells, place_append]
    exact List.mem_append_left _ hx
  · intro x hx
    rw [cells, place_cons, place_nil, List.mem_singleton] at hx
    subst hx
    obtain ⟨e1, e2, e3, -⟩ := hread _ h1
    exact ⟨e1.trans hd1.flag, e2.trans hd1.start, by rw [e3, if_pos hp1]⟩
  · intro x hx
    have hb := mem_place_bounds hx
    have hpos := (Block.mk n₁ f).len_pos
    simp only [span_cons] at hb
    refine hsame x ?_ (by omega)
    have hc : cells d.start (l ++ ⟨n₁, f⟩ :: ⟨n₂, true⟩ :: r) =
        cells d.start (l ++ [⟨n₁, f⟩, ⟨n₂, true⟩]) ++
          cells (d.start + span Block.len l + span Block.len [⟨n₁, f⟩, ⟨n₂, true⟩]) r := by
      simp [cells, place_append, Nat.add_assoc]
    rw [hc]
    exact List.mem_append_right _ hx
  · rw [← List.append_cons]
    exact connectMem_ring hr hp1 hp2 hq rfl
  · rw [← List.append_cons]
    exact connectList_stats hr

/-- Merging a block with the free block after it. -/
theorem connect_rep (hr : Rep d h (l ++ ⟨n₁, f⟩ :: ⟨n₂, true⟩ :: r)) :
    ∃ h', d.connect (d.start + span Block.len l)
        (d.start + span Block.len l + (headerSize + n₁)) h = .ok h' ∧
      Rep d h' (l ++ ⟨n₁ + (n₂ + headerSize), f⟩ :: r) ∧
      OnlyHeaders (addresses d.start (l ++ ⟨n₁, f⟩ :: ⟨n₂, true⟩ :: r)) h.mem h'.mem := by
  refine ⟨_, connect_ok hr rfl rfl rfl, connectMem_rep hr rfl rfl rfl, ?_⟩
  refine onlyHeaders_connectMem _ ?_ (pair_next hr rfl rfl rfl).1
  simp [addresses_split]

end DataSegment
end OperationSystems.Malloc3
