import OperationSystems.Malloc3.Coalesce

/-!
# Splitting a block

`split` writes a header inside the payload of a block, links it behind that
block and merges the new free block with a free successor.
-/

namespace OperationSystems.Malloc3
open ByteMemory CircularList Tiling

/-- The memory after the ten header writes of `split`: `t` is the new header,
`k` its size, and `q` the node after `p1`. -/
def carveMem (m : Memory) (p1 t q req : ℕ) (k : ℤ) : Memory :=
  let m := putFreed (putFreed (putSize (putStart m t (t + headerSize)) t k) t false) t true
  putNext (putPrev (putPrev (putNext (putSize m p1 req) t q) t p1) q t) p1 t

section Reads
variable (m : Memory) {p1 t q req x : ℕ} {k : ℤ}

theorem readNode_carveMem (hx : x = p1 ∨ Apart p1 x) (hxq : x = q ∨ Apart q x) (hxt : Apart t x)
    (ht : t + headerSize < 2 ^ 32) (hreq : req < 2 ^ 32) :
    (readNode (carveMem m p1 t q req k) x).flag = (readNode m x).flag ∧
    (readNode (carveMem m p1 t q req k) x).allocationStartPtr = (readNode m x).allocationStartPtr ∧
    (readNode (carveMem m p1 t q req k) x).sizeOfAllocation =
      (if x = p1 then (req : ℤ) else (readNode m x).sizeOfAllocation) ∧
    (readNode (carveMem m p1 t q req k) x).next = (if x = p1 then t else (readNode m x).next) ∧
    (readNode (carveMem m p1 t q req k) x).prev = (if x = q then t else (readNode m x).prev) := by
  rw [carveMem, readNode_putNext_of _ hx (by omega), readNode_putPrev_of _ hxq (by omega),
    (onlyHeader_putPrev _ _ _).apart hxt, (onlyHeader_putNext _ _ _).apart hxt,
    readNode_putSize_of _ hx (by omega) (by omega), (onlyHeader_putFreed _ _ _).apart hxt,
    (onlyHeader_putFreed _ _ _).apart hxt, (onlyHeader_putSize _ _ _).apart hxt,
    (onlyHeader_putStart _ _ _).apart hxt]
  split_ifs <;> simp

theorem readNode_carveMem_new (hp : Apart p1 t) (hq : Apart q t) (hp1 : p1 < 2 ^ 32)
    (hq1 : q < 2 ^ 32) (ht : t + headerSize < 2 ^ 32) (hl : 0 ≤ k) (hu : k < 2 ^ 63) :
    readNode (carveMem m p1 t q req k) t =
      { flag := true.toNat, allocationStartPtr := t + headerSize, sizeOfAllocation := k, next := q,
        prev := p1 } := by
  rw [carveMem, (onlyHeader_putNext _ _ _).apart hp, (onlyHeader_putPrev _ _ _).apart hq,
    readNode_putPrev _ _ hp1, readNode_putNext _ _ hq1, (onlyHeader_putSize _ _ _).apart hp,
    readNode_putFreed, readNode_putFreed, readNode_putSize _ _ (by omega) hu,
    readNode_putStart _ _ ht]

theorem onlyHeaders_carveMem {as : List ℕ} (hp : p1 ∈ as) (hq : q ∈ as) (ht : t ∈ as) :
    OnlyHeaders as m (carveMem m p1 t q req k) := by
  have h₁ := ((onlyHeader_putStart m t (t + headerSize)).toHeaders ht).trans
    ((onlyHeader_putSize _ t k).toHeaders ht)
  have h₂ := (h₁.trans ((onlyHeader_putFreed _ t false).toHeaders ht)).trans
    ((onlyHeader_putFreed _ t true).toHeaders ht)
  have h₃ := (h₂.trans ((onlyHeader_putSize _ p1 req).toHeaders hp)).trans
    ((onlyHeader_putNext _ t q).toHeaders ht)
  have h₄ := (h₃.trans ((onlyHeader_putPrev _ t p1).toHeaders ht)).trans
    ((onlyHeader_putPrev _ q t).toHeaders hq)
  exact h₄.trans ((onlyHeader_putNext _ p1 t).toHeaders hp)

end Reads

/-- The counters after a block of more than `req + headerSize` bytes is split. -/
def carveList (a : AllocInfoList) (k : ℕ) : AllocInfoList :=
  { a with
    numFreeBlocks := a.numFreeBlocks + 1
    numFreeBytes := a.numFreeBytes + k
    numAllocatedBlocks := a.numAllocatedBlocks + 1
    numAllocatedBytes := a.numAllocatedBytes - headerSize
    numMetaDataBlocks := a.numMetaDataBlocks + 1 }

namespace DataSegment
variable {d : DataSegment} {h : Heap} {l r : List Block} {n req k : ℕ}

theorem carveList_stats (hr : Rep d h (l ++ ⟨n, false⟩ :: r)) (hn : n = req + headerSize + k) :
    Stats (carveList h.list k) (l ++ ⟨req, false⟩ :: ⟨k, true⟩ :: r) := by
  have hc := hr.counters
  simp [headerSize] at hc hn
  refine ⟨?_, ?_, ?_, ?_, ?_⟩ <;> simp [carveList, headerSize] <;> omega

theorem carve_bumps (hr : Rep d h (l ++ ⟨n, false⟩ :: r)) (hn : n = req + headerSize + k) :
    bump h.list.numMetaDataBlocks 1 = .ok (h.list.numMetaDataBlocks + 1) ∧
    bump h.list.numAllocatedBlocks 1 = .ok (h.list.numAllocatedBlocks + 1) ∧
    bump h.list.numAllocatedBytes (-headerSize) = .ok (h.list.numAllocatedBytes - headerSize) ∧
    bump h.list.numFreeBlocks 1 = .ok (h.list.numFreeBlocks + 1) ∧
    bump h.list.numFreeBytes k = .ok (h.list.numFreeBytes + k) := by
  have hc := hr.counters
  have hl := freeBytes_le_bytes l
  have hr := freeBytes_le_bytes r
  simp [headerSize] at hc hn
  have hs : headerSize = 24 := rfl
  refine ⟨?_, ?_, ?_, ?_, ?_⟩ <;> exact bump_eq (by omega) (by omega)

/-- Where the new header lies: in the payload of the block that is split, so
apart from every header there is. -/
theorem carve_apart (hn : n = req + headerSize + k)
    {p1 t : ℕ} (hp1 : d.start + span Block.len l = p1) (ht : p1 + headerSize + req = t)
    {x : ℕ × Block} (hx : x ∈ cells d.start (l ++ ⟨n, false⟩ :: r)) : Apart t x.1 := by
  have hb := x.2.header_le_len
  rcases place_apart (Rep.mem_mid d.start l r ⟨n, false⟩) hx with rfl | hd | hd
  · exact Or.inr (by simp only; omega)
  · exact Or.inl (by simp only [Block.len] at hd; omega)
  · exact Or.inr (by simp only at hd; omega)

/-- The links of the block that is split. -/
theorem carve_next (hr : Rep d h (l ++ ⟨n, false⟩ :: r)) {p1 q : ℕ}
    (hp1 : d.start + span Block.len l = p1) (hq : (readNode h.mem p1).next = q) :
    q ∈ addresses d.start (l ++ ⟨n, false⟩ :: r) := by
  subst hq hp1
  exact hr.ring.next_mem (by simp [addresses_split])

theorem carve_reads (hr : Rep d h (l ++ ⟨n, false⟩ :: r)) (hn : n = req + headerSize + k)
    {p1 t q : ℕ} (hp1 : d.start + span Block.len l = p1) (ht : p1 + headerSize + req = t)
    (hq : (readNode h.mem p1).next = q) {x : ℕ × Block}
    (hx : x ∈ cells d.start (l ++ ⟨n, false⟩ :: r)) :
    let m := carveMem h.mem p1 t q req k
    (readNode m x.1).flag = (readNode h.mem x.1).flag ∧
    (readNode m x.1).allocationStartPtr = (readNode h.mem x.1).allocationStartPtr ∧
    (readNode m x.1).sizeOfAllocation =
      (if x.1 = p1 then (req : ℤ) else (readNode h.mem x.1).sizeOfAllocation) ∧
    (readNode m x.1).next = (if x.1 = p1 then t else (readNode h.mem x.1).next) ∧
    (readNode m x.1).prev = (if x.1 = q then t else (readNode h.mem x.1).prev) := by
  have h1 := Rep.mem_mid d.start l r ⟨n, false⟩
  obtain ⟨y, hy, hyq⟩ := List.mem_map.mp (carve_next hr hp1 hq)
  have hlt1 := hr.cell_lt h1
  have hx1 := cells_apart h1 hx
  have hxq := cells_apart hy hx
  simp only [Block.len, hp1, hyq] at hlt1 hx1 hxq
  exact readNode_carveMem h.mem hx1 hxq (carve_apart hn hp1 ht hx) (by omega) (by omega)

theorem carve_read_new (hr : Rep d h (l ++ ⟨n, false⟩ :: r)) (hn : n = req + headerSize + k)
    {p1 t q : ℕ} (hp1 : d.start + span Block.len l = p1) (ht : p1 + headerSize + req = t)
    (hq : (readNode h.mem p1).next = q) :
    readNode (carveMem h.mem p1 t q req k) t =
      { flag := true.toNat, allocationStartPtr := t + headerSize, sizeOfAllocation := k, next := q,
        prev := p1 } := by
  have h1 := Rep.mem_mid d.start l r ⟨n, false⟩
  obtain ⟨y, hy, hyq⟩ := List.mem_map.mp (carve_next hr hp1 hq)
  have hlt1 := hr.cell_lt h1
  have hltq := hr.cell_lt hy
  have ha1 := (carve_apart hn hp1 ht h1).symm
  have haq := (carve_apart hn hp1 ht hy).symm
  simp only [Block.len, hp1, hyq] at hlt1 hltq ha1 haq
  exact readNode_carveMem_new h.mem ha1 haq (by omega) (by omega) (by omega) (by omega) (by omega)

theorem carve_ring (hr : Rep d h (l ++ ⟨n, false⟩ :: r)) (hn : n = req + headerSize + k)
    {p1 t q : ℕ} (hp1 : d.start + span Block.len l = p1) (ht : p1 + headerSize + req = t)
    (hq : (readNode h.mem p1).next = q) {m : Memory} (hm : m = carveMem h.mem p1 t q req k) :
    Circular (fun p => (readNode m p).next) (fun p => (readNode m p).prev)
      (addresses d.start (l ++ ⟨req, false⟩ :: ⟨k, true⟩ :: r)) := by
  have hlinks : ∀ w ∈ addresses d.start (l ++ ⟨n, false⟩ :: r),
      (readNode m w).next = (if w = p1 then t else (readNode h.mem w).next) ∧
      (readNode m w).prev = (if w = q then t else (readNode h.mem w).prev) := by
    intro w hw
    obtain ⟨x, hx, rfl⟩ := List.mem_map.mp hw
    rw [hm]
    exact (carve_reads hr hn hp1 ht hq hx).2.2.2
  have hnew := carve_read_new hr hn hp1 ht hq
  rw [← hm] at hnew
  have hqmem := carve_next hr hp1 hq
  have hring := hr.ring
  have hnodup := addresses_nodup d.start (l ++ ⟨n, false⟩ :: r)
  have hlen : t + (headerSize + k) = p1 + (headerSize + n) := by omega
  rw [addresses_split] at hring hlinks hqmem hnodup
  rw [addresses_pair]
  simp only [Block.len, hp1, ← Nat.add_assoc] at hring hlinks hqmem hnodup ⊢
  simp only [ht, Nat.add_assoc, hlen] at hring hlinks hqmem hnodup ⊢
  subst hq
  refine hring.insert hnodup ?_ ?_ ?_ ?_ ?_ ?_
  · rw [(hlinks p1 (by simp)).1, if_pos rfl]
  · rw [hnew]
  · rw [hnew]
  · rw [(hlinks _ hqmem).2, if_pos rfl]
  · intro w hw
    have hne : w ≠ p1 := by
      rintro rfl
      simp only [List.nodup_append, List.nodup_cons, List.mem_append] at hnodup hw
      grind
    rw [(hlinks w (by simp at hw ⊢; tauto)).1, if_neg hne]
  · intro w hw hne
    rw [(hlinks w hw).2, if_neg hne]

theorem carve_rep (hr : Rep d h (l ++ ⟨n, false⟩ :: r)) (hn : n = req + headerSize + k)
    (hreq : (Block.mk req false).WellSized) (hk : 0 < k) {p1 t q : ℕ}
    (hp1 : d.start + span Block.len l = p1) (ht : p1 + headerSize + req = t)
    (hq : (readNode h.mem p1).next = q) :
    Rep d { h with mem := carveMem h.mem p1 t q req k, list := carveList h.list k }
      (l ++ ⟨req, false⟩ :: ⟨k, true⟩ :: r) := by
  have h1 := Rep.mem_mid d.start l r ⟨n, false⟩
  have hd1 := hr.nodes _ h1
  have htile := hr.tile
  have hsize := hr.sized ⟨n, false⟩ (by simp)
  have hread := fun x hx => @carve_reads d h l r n req k hr hn p1 t q hp1 ht hq x hx
  have hnew := carve_read_new hr hn hp1 ht hq
  have hlen : span Block.len [⟨req, false⟩, ⟨k, true⟩] = span Block.len [⟨n, false⟩] := by
    simp only [span_cons, span_nil, Block.len]
    omega
  have hsame : ∀ x ∈ cells d.start (l ++ ⟨n, false⟩ :: r), x.1 ≠ p1 →
      SameBlock h.mem (carveMem h.mem p1 t q req k) x.1 := by
    intro x hx hxp
    obtain ⟨e1, e2, e3, -⟩ := hread x hx
    exact ⟨e1, e2, by rw [e3, if_neg hxp]⟩
  rw [show l ++ ⟨req, false⟩ :: ⟨k, true⟩ :: r = l ++ [⟨req, false⟩, ⟨k, true⟩] ++ r by simp]
  have hr' : Rep d h (l ++ [⟨n, false⟩] ++ r) := by simpa using hr
  refine hr'.replace (by simp) hr.first rfl ?_ hr.brk_le (Or.inr hlen) ?_ ?_ ?_ ?_ ?_ ?_
  · have htile' := hr'.tile
    simp only [span_append, hlen] at htile' ⊢
    exact htile'
  · intro b hb
    simp only [List.mem_cons, List.not_mem_nil, or_false] at hb
    simp only [Block.WellSized, headerSize] at hsize hreq hn ⊢
    rcases hb with rfl | rfl
    · exact hreq
    · simp only
      omega
  · intro x hx
    have hb := mem_place_bounds hx
    have hpos := x.2.len_pos
    exact hsame x (mem_cells_append.mpr (Or.inl hx)) (by omega)
  · intro x hx
    simp only [cells, place_cons, place_nil, List.mem_cons, List.not_mem_nil, or_false, hp1] at hx
    rcases hx with rfl | rfl
    · obtain ⟨e1, e2, e3, -⟩ := hread _ h1
      simp only [hp1] at e1 e2 e3 hd1
      exact ⟨e1.trans hd1.flag, e2.trans hd1.start, by rw [e3, if_pos trivial]⟩
    · have htt : p1 + (Block.mk req false).len = t := by
        rw [Block.len, ← Nat.add_assoc, ht]
      rw [← htt] at hnew ⊢
      exact ⟨by rw [hnew], by rw [hnew], by rw [hnew]⟩
  · intro x hx
    have hb := mem_place_bounds hx
    have hpos := (Block.mk n false).len_pos
    simp only [span_cons] at hb
    refine hsame x ?_ (by omega)
    rw [List.append_cons, mem_cells_append, span_append, ← Nat.add_assoc]
    exact Or.inr hx
  · have hring := carve_ring hr hn hp1 ht hq rfl
    simpa using hring
  · have hstats := carveList_stats hr hn
    simpa using hstats

theorem carve_onlyHeaders (hr : Rep d h (l ++ ⟨n, false⟩ :: r)) (hn : n = req + headerSize + k)
    {p1 t q : ℕ} (hp1 : d.start + span Block.len l = p1) (ht : p1 + headerSize + req = t)
    (hq : (readNode h.mem p1).next = q) :
    OnlyHeaders (addresses d.start (l ++ ⟨req, false⟩ :: ⟨k, true⟩ :: r)) h.mem
      (carveMem h.mem p1 t q req k) := by
  have hqmem := carve_next hr hp1 hq
  have hlen : t + (headerSize + k) = p1 + (headerSize + n) := by omega
  rw [addresses_split] at hqmem
  rw [addresses_pair]
  simp only [Block.len, hp1, ← Nat.add_assoc] at hqmem ⊢
  simp only [ht, Nat.add_assoc, hlen] at hqmem ⊢
  refine onlyHeaders_carveMem h.mem (by simp) ?_ (by simp)
  simp only [List.mem_append, List.mem_cons] at hqmem ⊢
  tauto

/-- The writes of `split`, up to the last merge. -/
theorem split_eq (hr : Rep d h (l ++ ⟨n, false⟩ :: r)) (hn : n = req + headerSize + k)
    {p1 t q : ℕ} (hp1 : d.start + span Block.len l = p1) (ht : p1 + headerSize + req = t)
    (hq : (readNode h.mem p1).next = q) :
    d.split p1 req h = d.checkIfFreeAndConnect t
      { h with mem := carveMem h.mem p1 t q req k, list := carveList h.list k } := by
  have h1 := Rep.mem_mid d.start l r ⟨n, false⟩
  obtain ⟨y, hy, hyq⟩ := List.mem_map.mp (carve_next hr hp1 hq)
  have hm1 := hr.mapped h1
  have hmq := hr.mapped hy
  have hlt1 := hr.cell_lt h1
  have hbound := (mem_place_bounds h1).2
  have ha1 := (carve_apart hn hp1 ht h1).symm
  have htile := hr.tile
  have hd1 := hr.nodes _ h1
  have hf := hd1.flagged
  have hs := hd1.start
  simp only [hp1, Block.len, hyq] at hm1 hmq hlt1 hbound ha1 hf hs
  have hmt : d.Mapped h t headerSize := ⟨by omega, by omega⟩
  have hk : (n : ℤ) - req - headerSize = k := by omega
  obtain ⟨hc1, hc2, hc3, hc4, hc5⟩ := carve_bumps hr hn
  have hlow : ∀ v : ℕ, -2 ^ 63 ≤ (v : ℤ) := fun v => by omega
  have hklt : (k : ℤ) < 2 ^ 63 := by omega
  have hreqlt : (req : ℤ) < 2 ^ 63 := by omega
  -- what the code reads back of its own writes
  have hnf : (readNode (putFreed (putSize (putStart h.mem t (t + headerSize)) t k) t false) t).isFreed
      = false := by
    rw [readNode_putFreed]
    rfl
  have hnk : (readNode (putFreed (putSize (putStart h.mem t (t + headerSize)) t k) t false)
      t).sizeOfAllocation = k := by
    rw [readNode_putFreed, readNode_putSize _ _ (hlow k) hklt]
  obtain ⟨m, hm⟩ : ∃ m, putFreed (putFreed (putSize (putStart h.mem t (t + headerSize)) t k) t false)
      t true = m := ⟨_, rfl⟩
  have hnext : (readNode (putSize m p1 req) p1).next = q := by
    rw [readNode_putSize _ _ (hlow req) hreqlt, ← hm, (onlyHeader_putFreed _ _ _).apart ha1.symm,
      (onlyHeader_putFreed _ _ _).apart ha1.symm, (onlyHeader_putSize _ _ _).apart ha1.symm,
      (onlyHeader_putStart _ _ _).apart ha1.symm, hq]
  have hnext' : (readNode (putPrev (putNext (putSize m p1 req) t q) t p1) p1).next = q := by
    rw [(onlyHeader_putPrev _ _ _).apart ha1.symm, (onlyHeader_putNext _ _ _).apart ha1.symm, hnext]
  have hsz := hd1.size
  simp only [hp1] at hsz
  simp only [split, node_ok hm1, ok_bind, hf, Bool.false_eq_true, if_false, pure_eq_ok, hs, ht, hc1,
    hc2, hc3, writeStart, writeSize, writeFreed, writeNext, writePrev, write_ok hmt, hsz, hk, setFree,
    node_ok hmt, hnf, hnk, hc4, hc5, hm, write_ok hm1, write_ok hmq, hnext, hnext', carveMem,
    carveList]

theorem split_used_rep (hr : Rep d h (l ++ ⟨n, false⟩ :: r)) (hn : n = req + headerSize + k)
    (hreq : (Block.mk req false).WellSized) (hk : 0 < k) {p : ℕ}
    (hp : d.start + span Block.len l = p) :
    ∃ h', d.split p req h = .ok h' ∧ Rep d h' (l ++ ⟨req, false⟩ :: absorb ⟨k, true⟩ r) ∧
      OnlyHeaders (addresses d.start (l ++ ⟨req, false⟩ :: ⟨k, true⟩ :: r)) h.mem h'.mem := by
  have hrep := carve_rep hr hn hreq hk hp rfl rfl
  rw [List.append_cons] at hrep
  have ht : d.start + span Block.len (l ++ [⟨req, false⟩]) = p + headerSize + req := by
    simp only [span_append, span_cons, span_nil, Block.len]
    omega
  obtain ⟨h', he, hrep', hmem⟩ := checkIfFreeAndConnect_rep hrep ht
  refine ⟨h', ?_, by simpa using hrep', ?_⟩
  · rw [split_eq hr hn hp rfl rfl, he]
  · rw [← List.append_cons] at hmem
    exact (carve_onlyHeaders hr hn hp rfl rfl).trans hmem

/-- `split` on a free block first marks it used. -/
theorem split_rep {f : Bool} (hr : Rep d h (l ++ ⟨n, f⟩ :: r)) (hn : n = req + headerSize + k)
    (hreq : (Block.mk req false).WellSized) (hk : 0 < k) {p : ℕ}
    (hp : d.start + span Block.len l = p) :
    ∃ h', d.split p req h = .ok h' ∧ Rep d h' (l ++ ⟨req, false⟩ :: absorb ⟨k, true⟩ r) ∧
      OnlyHeaders (addresses d.start (l ++ ⟨req, false⟩ :: ⟨k, true⟩ :: r)) h.mem h'.mem := by
  cases f with
  | false => exact split_used_rep hr hn hreq hk hp
  | true =>
    obtain ⟨h₁, he₁, hr₁, hmem₁⟩ := setUsed_rep hr
    obtain ⟨h₂, he₂, hr₂, hmem₂⟩ := split_used_rep hr₁ hn hreq hk hp
    rw [hp] at he₁
    have h1 := Rep.mem_mid d.start l r ⟨n, true⟩
    have h1' := Rep.mem_mid d.start l r ⟨n, false⟩
    have hf := (hr.nodes _ h1).flagged
    have hf' := (hr₁.nodes _ h1').flagged
    have hm := hr.mapped h1
    have hm' := hr₁.mapped h1'
    simp only [hp] at hf hf' hm hm'
    have heq : d.split p req h = d.split p req h₁ := by
      simp only [split, node_ok hm, node_ok hm', ok_bind, hf, hf', if_true, Bool.false_eq_true,
        if_false, he₁, pure_eq_ok]
    refine ⟨h₂, heq.trans he₂, hr₂, (hmem₁.mono ?_).trans hmem₂⟩
    intro a ha
    have hlen : (Block.mk req false).len + (Block.mk k true).len = (Block.mk n true).len := by
      simp only [Block.len]
      omega
    rw [addresses_split] at ha
    rw [addresses_pair, Nat.add_assoc _ (Block.len _) (Block.len _), hlen]
    simp only [List.mem_append, List.mem_cons] at ha ⊢
    tauto

end DataSegment

end OperationSystems.Malloc3
