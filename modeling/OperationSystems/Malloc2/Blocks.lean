import OperationSystems.Malloc2.Model
import OperationSystems.Malloc3.Merge

/-!
# Heaps that only grow

The abstract heap is the list of its blocks in address order, as for the
merging allocator. `Rep` ties it to the bytes of the segment. A block changes
its flag only, and new blocks come behind the last one.
-/

namespace OperationSystems.Malloc2
open ByteMemory CircularList Tiling
open Malloc3 (AllocInfoList Block bytes freeBytes freeBlocks ok_bind pure_eq_ok)

def len (w : ℕ) (b : Block) : ℕ := headerSize w + b.size

abbrev cells (d : Segment) (bs : List Block) : List (ℕ × Block) := place (len d.word) d.start bs

def addresses (d : Segment) (bs : List Block) : List ℕ := (cells d bs).map Prod.fst

structure Stats (w : ℕ) (l : AllocInfoList) (bs : List Block) : Prop where
  size : l.size = bs.length
  numFreeBlocks : l.numFreeBlocks = freeBlocks bs
  numFreeBytes : l.numFreeBytes = freeBytes bs
  numAllocatedBlocks : l.numAllocatedBlocks = bs.length
  numAllocatedBytes : l.numAllocatedBytes = bytes bs
  numMetaDataBlocks : l.numMetaDataBlocks = bs.length
  numMetaDataBytes : l.numMetaDataBytes = headerSize w * bs.length

/-- The header at `x.1` describes the block `x.2`, up to its links. -/
structure Describes (w : ℕ) (m : Memory) (x : ℕ × Block) : Prop where
  isFreed : (readNode w m x.1).isFreed = x.2.free
  start : (readNode w m x.1).allocationStartPtr = x.1 + headerSize w
  size : (readNode w m x.1).sizeOfAllocation = x.2.size

theorem Describes.congr {w : ℕ} {m m' : Memory} {x : ℕ × Block} (h : Describes w m x)
    (he : readNode w m' x.1 = readNode w m x.1) : Describes w m' x :=
  ⟨he ▸ h.isFreed, he ▸ h.start, he ▸ h.size⟩

structure Rep (d : Segment) (h : Heap) (bs : List Block) : Prop where
  nonempty : bs ≠ []
  first : h.firstAlloc = false
  head : h.list.head = d.start
  tile : h.brk = d.start + span (len d.word) bs
  brk_le : h.brk ≤ d.limit
  nodes : ∀ x ∈ cells d bs, Describes d.word h.mem x
  ring : Circular (fun p => (readNode d.word h.mem p).next) (fun p => (readNode d.word h.mem p).prev)
    (addresses d bs)
  stats : Stats d.word h.list bs

/-- The payloads of all blocks outside `X` hold what they held. -/
def Keeps (d : Segment) (X : ℕ → Prop) (h : Heap) (bs : List Block) (h' : Heap) : Prop :=
  ∀ x ∈ cells d bs, ¬ X x.1 →
    ∀ i, x.1 + d.header ≤ i → i < x.1 + len d.word x.2 → h'.mem i = h.mem i

section Cells
variable {d : Segment} {h h' : Heap} {l r bs : List Block} {b : Block} {n : ℕ} {f g : Bool}

theorem header_le_len (w : ℕ) (b : Block) : headerSize w ≤ len w b := Nat.le_add_right _ _

theorem header_pos (d : Segment) : 0 < d.header := Nat.mul_pos (by decide) d.word_pos

theorem len_pos (d : Segment) (b : Block) : 0 < len d.word b :=
  (header_pos d).trans_le (header_le_len _ _)

theorem mem_mid (d : Segment) (l r : List Block) (b : Block) :
    (d.start + span (len d.word) l, b) ∈ cells d (l ++ b :: r) := by
  simp [cells, place_split]

theorem addresses_split (d : Segment) (l r : List Block) (b : Block) :
    addresses d (l ++ b :: r) = addresses d l ++ (d.start + span (len d.word) l) ::
      (place (len d.word) (d.start + span (len d.word) l + len d.word b) r).map Prod.fst := by
  simp [addresses, cells, place_split]

/-- The flag of a block is not part of the layout. -/
theorem addresses_flag : addresses d (l ++ ⟨n, f⟩ :: r) = addresses d (l ++ ⟨n, g⟩ :: r) := by
  rw [addresses_split, addresses_split]
  rfl

theorem span_flag : span (len d.word) (l ++ ⟨n, f⟩ :: r) = span (len d.word) (l ++ ⟨n, g⟩ :: r) := by
  rw [span_append, span_append]
  rfl

theorem mem_cells_flag {x : ℕ × Block} (hx : x ∈ cells d (l ++ ⟨n, f⟩ :: r)) :
    x = (d.start + span (len d.word) l, ⟨n, f⟩) ∨
      x.1 ≠ d.start + span (len d.word) l ∧ x ∈ cells d (l ++ ⟨n, g⟩ :: r) := by
  rcases place_apart hx (mem_mid d l r ⟨n, f⟩) with rfl | hne
  · exact Or.inl rfl
  · refine Or.inr ⟨?_, ?_⟩
    · have hpos := len_pos d x.2
      have hpos' := len_pos d ⟨n, f⟩
      simp only at hne
      omega
    · rw [cells, place_split] at hx ⊢
      simp only [List.mem_append, List.mem_cons] at hx ⊢
      refine hx.imp_right fun hx => Or.inr (hx.resolve_left ?_)
      rintro rfl
      have hpos := len_pos d ⟨n, f⟩
      simp only at hne
      omega

theorem cells_apart {x y : ℕ × Block} (hx : x ∈ cells d bs) (hy : y ∈ cells d bs) :
    y.1 = x.1 ∨ Apart d.word x.1 y.1 := by
  have hbx := header_le_len d.word x.2
  have hby := header_le_len d.word y.2
  rcases place_apart hx hy with rfl | h | h
  · exact Or.inl rfl
  · exact Or.inr (Or.inl (by omega))
  · exact Or.inr (Or.inr (by omega))

theorem payload_outside {x : ℕ × Block} {p i : ℕ} (hx : x ∈ cells d bs) (hp : p ∈ addresses d bs)
    (hl : x.1 + d.header ≤ i) (hr : i < x.1 + len d.word x.2) : i < p ∨ p + d.header ≤ i := by
  obtain ⟨y, hy, rfl⟩ := List.mem_map.mp hp
  have hb := header_le_len d.word y.2
  rcases place_apart hx hy with rfl | hd | hd
  · exact Or.inr hl
  · exact Or.inl (by omega)
  · exact Or.inr (by simp only [Segment.header]; omega)

namespace Rep

theorem mapped (hr : Rep d h bs) {x : ℕ × Block} (hx : x ∈ cells d bs) : d.Mapped h x.1 d.header := by
  have hb := mem_place_bounds hx
  have hl := header_le_len d.word x.2
  have ht := hr.tile
  exact ⟨hb.1, by simp only [Segment.header]; omega⟩

theorem node_ok (hr : Rep d h bs) {x : ℕ × Block} (hx : x ∈ cells d bs) :
    d.node x.1 h = .ok (readNode d.word h.mem x.1) := if_pos (hr.mapped hx)

theorem head_mem (hr : Rep d h bs) : d.start ∈ addresses d bs := by
  obtain ⟨b, r, rfl⟩ := List.exists_cons_of_ne_nil hr.nonempty
  simp [addresses]

theorem span_eq (w : ℕ) (bs : List Block) :
    span (len w) bs = headerSize w * bs.length + bytes bs := by
  induction bs with
  | nil => rfl
  | cons b bs ih =>
    simp only [span_cons, ih, len, List.length_cons, Malloc3.bytes_cons, Nat.mul_succ]
    omega

/-- All counters fit in a word. -/
theorem counters (hr : Rep d h bs) :
    headerSize d.word * bs.length + bytes bs < 256 ^ d.word ∧ bs.length + bytes bs < 256 ^ d.word := by
  have hspan := span_eq d.word bs
  have ht := hr.tile
  have hle := hr.brk_le
  have hlim := d.limit_lt
  have hlen : bs.length ≤ headerSize d.word * bs.length := Nat.le_mul_of_pos_left _ (header_pos d)
  exact ⟨by omega, by omega⟩

end Rep

end Cells

end OperationSystems.Malloc2
