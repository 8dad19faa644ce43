import OperationSystems.Malloc2.Blocks

/-!
# What the allocator changes

A block is marked used or free, the client writes into a payload, and a block
comes behind the last one. The first two leave the layout as it is.
-/

namespace OperationSystems.Malloc2
open ByteMemory CircularList Tiling
open Malloc3 (AllocInfoList Block Fault Result bytes freeBytes freeBlocks ok_bind pure_eq_ok)

section Flag
variable {d : Segment} {h h' : Heap} {l r bs : List Block} {n a size : ℕ} {f g : Bool}

theorem Rep.reflag (hr : Rep d h (l ++ ⟨n, f⟩ :: r)) {st : AllocInfoList}
    (hhead : st.head = h.list.head) (hst : Stats d.word st (l ++ ⟨n, g⟩ :: r)) :
    Rep d { h with mem := putFreed h.mem (d.start + span (len d.word) l) g, list := st }
      (l ++ ⟨n, g⟩ :: r) := by
  have hm := mem_mid d l r ⟨n, f⟩
  have hread : ∀ x ∈ cells d (l ++ ⟨n, f⟩ :: r),
      readNode d.word (putFreed h.mem (d.start + span (len d.word) l) g) x.1 =
        if x.1 = d.start + span (len d.word) l then { readNode d.word h.mem x.1 with isFreed := g }
        else readNode d.word h.mem x.1 :=
    fun x hx => readNode_putFreed_of d.word_pos h.mem (cells_apart hm hx)
  refine ⟨by simp, hr.first, hhead.trans hr.head, hr.tile.trans ?_, hr.brk_le, ?_, ?_, hst⟩
  · rw [span_flag]
  · intro x hx
    rcases mem_cells_flag (g := f) hx with rfl | ⟨hne, hx⟩
    · have hd := hr.nodes _ hm
      have hx := hread _ hm
      simp only [if_true] at hx
      exact ⟨by rw [hx], by rw [hx]; exact hd.start, by rw [hx]; exact hd.size⟩
    · exact (hr.nodes x hx).congr (by rw [hread x hx, if_neg hne])
  · rw [addresses_flag (g := f)]
    refine hr.ring.congr ?_ ?_ <;>
    · intro p hp
      obtain ⟨x, hx, rfl⟩ := List.mem_map.mp hp
      simp only [hread x hx]
      split_ifs <;> rfl

/-- Flags lie in front of the payloads. -/
theorem keeps_putFreed (hm : a ∈ addresses d bs) {st : AllocInfoList} :
    Keeps d (fun _ => False) h bs { h with mem := putFreed h.mem a g, list := st } :=
  fun _ hx _ _ hl hlt =>
    onlyHeader_putFreed d.word_pos h.mem a g _ (payload_outside hx hm hl hlt)

theorem mid_mem (d : Segment) (l r : List Block) (b : Block) :
    d.start + span (len d.word) l ∈ addresses d (l ++ b :: r) :=
  List.mem_map_of_mem (mem_mid d l r b)

theorem bump_eq {c c' : ℕ} {k : ℤ} (hk : (c : ℤ) + k = c') (hu : c' < 256 ^ d.word) :
    d.bump c k = .ok c' := by
  rw [Segment.bump, hk, if_pos ⟨Int.natCast_nonneg _, by exact_mod_cast hu⟩, Int.toNat_natCast]

theorem Stats.reflag {w k m : ℕ} {st : AllocInfoList} (hs : Stats w st (l ++ ⟨n, f⟩ :: r))
    (hk : k = freeBlocks (l ++ ⟨n, g⟩ :: r)) (hm : m = freeBytes (l ++ ⟨n, g⟩ :: r)) :
    Stats w { st with numFreeBlocks := k, numFreeBytes := m } (l ++ ⟨n, g⟩ :: r) where
  size := by simpa using hs.size
  numFreeBlocks := hk
  numFreeBytes := hm
  numAllocatedBlocks := by simpa using hs.numAllocatedBlocks
  numAllocatedBytes := by simpa using hs.numAllocatedBytes
  numMetaDataBlocks := by simpa using hs.numMetaDataBlocks
  numMetaDataBytes := by simpa using hs.numMetaDataBytes

/-- The counters of free blocks fit in a word whatever the flag of a block is. -/
theorem Rep.flag_bumps (hr : Rep d h (l ++ ⟨n, f⟩ :: r)) {i k : ℤ}
    (hi : h.list.numFreeBlocks + i = freeBlocks (l ++ ⟨n, g⟩ :: r))
    (hk : h.list.numFreeBytes + k = freeBytes (l ++ ⟨n, g⟩ :: r)) :
    d.bump h.list.numFreeBlocks i = .ok (freeBlocks (l ++ ⟨n, g⟩ :: r)) ∧
      d.bump h.list.numFreeBytes k = .ok (freeBytes (l ++ ⟨n, g⟩ :: r)) := by
  have hlt := hr.counters.2
  have hblocks := Malloc3.freeBlocks_le_length (l ++ ⟨n, g⟩ :: r)
  have hbytes := Malloc3.freeBytes_le_bytes (l ++ ⟨n, g⟩ :: r)
  have hlen : (l ++ ⟨n, g⟩ :: r).length = (l ++ ⟨n, f⟩ :: r).length := by simp
  have hsum : bytes (l ++ ⟨n, g⟩ :: r) = bytes (l ++ ⟨n, f⟩ :: r) := by simp
  exact ⟨bump_eq hi (by omega), bump_eq hk (by omega)⟩

theorem release_rep (hr : Rep d h (l ++ ⟨n, false⟩ :: r)) (ha : d.start + span (len d.word) l = a) :
    ∃ h', d.release a h = .ok h' ∧ Rep d h' (l ++ ⟨n, true⟩ :: r) ∧
      Keeps d (fun _ => False) h (l ++ ⟨n, false⟩ :: r) h' := by
  subst ha
  have hm := mem_mid d l r ⟨n, false⟩
  have hmap := hr.mapped hm
  have hsize := (hr.nodes _ hm).size
  have hfree := hr.stats.numFreeBlocks
  have hfreeBytes := hr.stats.numFreeBytes
  simp only at hmap hsize
  obtain ⟨hb₁, hb₂⟩ := hr.flag_bumps (g := true) (i := 1) (k := n) (by simp [hfree]; ring)
    (by simp [hfreeBytes]; ring)
  have hst := hr.stats.reflag (g := true) rfl rfl
  refine ⟨_, ?_, hr.reflag ?_ hst, keeps_putFreed (mid_mem d l r _)⟩
  swap
  · rfl
  have hmap' : d.Mapped { h with mem := putFreed h.mem (d.start + span (len d.word) l) true }
      (d.start + span (len d.word) l) d.header := hmap
  simp only [Segment.release, Segment.writeFreed, Segment.node, if_pos hmap, if_pos hmap', ok_bind,
    readNode_putFreed d.word_pos, hsize, hb₁, hb₂, pure_eq_ok]

/-- Writes inside one payload leave the heap as it is. -/
theorem Rep.payload (hr : Rep d h bs) {x : ℕ × Block} (hx : x ∈ cells d bs) {m : Memory}
    (hm : ∀ i, i < x.1 + d.header ∨ x.1 + len d.word x.2 ≤ i → m i = h.mem i) :
    Rep d { h with mem := m } bs := by
  have hread : ∀ y ∈ cells d bs, readNode d.word m y.1 = readNode d.word h.mem y.1 := by
    intro y hy
    have hy' := header_le_len d.word y.2
    refine readNode_congr d.word_pos fun i hi hlt => hm i ?_
    rcases place_apart hx hy with rfl | hd | hd
    · exact Or.inl hlt
    · exact Or.inr (by omega)
    · exact Or.inl (by omega)
  refine ⟨hr.nonempty, hr.first, hr.head, hr.tile, hr.brk_le, ?_, ?_, hr.stats⟩
  · intro y hy
    exact (hr.nodes y hy).congr (hread y hy)
  · refine hr.ring.congr ?_ ?_ <;>
    · intro p hp
      obtain ⟨y, hy, rfl⟩ := List.mem_map.mp hp
      simp only [hread y hy]

theorem keeps_payload {x : ℕ × Block} (hx : x ∈ cells d bs) {m : Memory}
    (hm : ∀ i, i < x.1 + d.header ∨ x.1 + len d.word x.2 ≤ i → m i = h.mem i) :
    Keeps d (· = x.1) h bs { h with mem := m } := by
  intro y hy hne i hl hlt
  refine hm i ?_
  rcases place_apart hx hy with rfl | hd | hd
  · exact absurd rfl hne
  · exact Or.inr (by omega)
  · exact Or.inl (by omega)

end Flag

end OperationSystems.Malloc2
