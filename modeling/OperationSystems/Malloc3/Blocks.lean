import OperationSystems.Malloc3.Model
import OperationSystems.Lib.CircularList
import OperationSystems.Lib.Tiling

/-!
# Heaps as lists of blocks

The abstract heap is the list of its blocks in address order. `Rep` ties it to
the bytes of the data segment: the blocks tile the segment up to the break,
every header holds what the list says, the links form a ring in list order,
and the counters are what they are named after.
-/

namespace OperationSystems.Malloc3
open ByteMemory CircularList Tiling

structure Block where
  size : ℕ
  free : Bool
deriving DecidableEq

namespace Block

def len (b : Block) : ℕ := headerSize + b.size

def freeBytes (b : Block) : ℕ := if b.free then b.size else 0

def WellSized (b : Block) : Prop := 0 < b.size ∧ 4 ∣ b.size

theorem header_le_len (b : Block) : headerSize ≤ b.len := Nat.le_add_right _ _

theorem len_pos (b : Block) : 0 < b.len := Nat.lt_of_lt_of_le (by decide) b.header_le_len

@[simp] theorem freeBytes_used (n : ℕ) : (Block.mk n false).freeBytes = 0 := rfl

@[simp] theorem freeBytes_free (n : ℕ) : (Block.mk n true).freeBytes = n := rfl

theorem freeBytes_le (b : Block) : b.freeBytes ≤ b.size := by
  unfold freeBytes
  split <;> omega

end Block

abbrev cells (a : ℕ) (bs : List Block) : List (ℕ × Block) := place Block.len a bs

def addresses (a : ℕ) (bs : List Block) : List ℕ := (cells a bs).map Prod.fst

def bytes (bs : List Block) : ℕ := (bs.map Block.size).sum

def freeBytes (bs : List Block) : ℕ := (bs.map Block.freeBytes).sum

def freeBlocks (bs : List Block) : ℕ := bs.countP Block.free

section Totals
variable (l r : List Block) (b : Block)

@[simp] theorem bytes_nil : bytes [] = 0 := rfl
@[simp] theorem bytes_cons : bytes (b :: r) = b.size + bytes r := rfl
@[simp] theorem bytes_append : bytes (l ++ r) = bytes l + bytes r := by simp [bytes]
@[simp] theorem freeBytes_nil : freeBytes [] = 0 := rfl
@[simp] theorem freeBytes_cons : freeBytes (b :: r) = b.freeBytes + freeBytes r := rfl
@[simp] theorem freeBytes_append : freeBytes (l ++ r) = freeBytes l + freeBytes r := by
  simp [freeBytes]
@[simp] theorem freeBlocks_nil : freeBlocks [] = 0 := rfl
@[simp] theorem freeBlocks_cons : freeBlocks (b :: r) = freeBlocks r + b.free.toNat := by
  cases h : b.free <;> simp [freeBlocks, h]
@[simp] theorem freeBlocks_append : freeBlocks (l ++ r) = freeBlocks l + freeBlocks r := by
  simp [freeBlocks]

theorem freeBytes_le_bytes : freeBytes l ≤ bytes l := by
  induction l with
  | nil => exact le_rfl
  | cons b l ih =>
    have hb := b.freeBytes_le
    simp only [freeBytes_cons, bytes_cons]
    omega

theorem freeBlocks_le_length : freeBlocks l ≤ l.length := List.countP_le_length

theorem span_eq : span Block.len l = headerSize * l.length + bytes l := by
  induction l with
  | nil => rfl
  | cons b l ih =>
    simp only [span_cons, ih, Block.len, List.length_cons, bytes_cons, Nat.mul_succ]
    omega

end Totals

theorem addresses_split (a : ℕ) (l r : List Block) (b : Block) :
    addresses a (l ++ b :: r) =
      addresses a l ++ (a + span Block.len l) ::
        addresses (a + span Block.len l + b.len) r := by
  simp [addresses, cells, place_split]

theorem mem_cells_append {a : ℕ} {l r : List Block} {x : ℕ × Block} :
    x ∈ cells a (l ++ r) ↔ x ∈ cells a l ∨ x ∈ cells (a + span Block.len l) r := by
  rw [cells, place_append, List.mem_append]

theorem pair_mem (a : ℕ) (l r : List Block) (b c : Block) :
    (a + span Block.len l, b) ∈ cells a (l ++ b :: c :: r) ∧
      (a + span Block.len l + b.len, c) ∈ cells a (l ++ b :: c :: r) := by
  simp [cells, place_split]

theorem addresses_pair (a : ℕ) (l r : List Block) (b c : Block) :
    addresses a (l ++ b :: c :: r) = addresses a l ++ (a + span Block.len l) ::
      (a + span Block.len l + b.len) :: addresses (a + span Block.len l + b.len + c.len) r := by
  simp [addresses, cells, place_split]

theorem merged_len (n₁ n₂ : ℕ) (f : Bool) :
    (Block.mk (n₁ + (n₂ + headerSize)) f).len = (Block.mk n₁ f).len + (Block.mk n₂ true).len := by
  simp only [Block.len]
  omega

theorem addresses_nodup (a : ℕ) (bs : List Block) : (addresses a bs).Nodup :=
  (place_pairwise _ Block.len_pos a bs).imp Nat.ne_of_lt

theorem cells_apart {a : ℕ} {bs : List Block} {x y : ℕ × Block} (hx : x ∈ cells a bs)
    (hy : y ∈ cells a bs) : y.1 = x.1 ∨ Apart x.1 y.1 := by
  have hbx := x.2.header_le_len
  have hby := y.2.header_le_len
  rcases place_apart hx hy with rfl | h | h
  · exact Or.inl rfl
  · exact Or.inr (Or.inl (by omega))
  · exact Or.inr (Or.inr (by omega))

structure Stats (l : AllocInfoList) (bs : List Block) : Prop where
  numFreeBlocks : l.numFreeBlocks = freeBlocks bs
  numFreeBytes : l.numFreeBytes = freeBytes bs
  numAllocatedBlocks : l.numAllocatedBlocks = bs.length
  numAllocatedBytes : l.numAllocatedBytes = bytes bs
  numMetaDataBlocks : l.numMetaDataBlocks = bs.length

/-- The header at `x.1` describes the block `x.2`, up to its links. -/
structure Describes (m : Memory) (x : ℕ × Block) : Prop where
  flag : (readNode m x.1).flag = x.2.free.toNat
  start : (readNode m x.1).allocationStartPtr = x.1 + headerSize
  size : (readNode m x.1).sizeOfAllocation = x.2.size

theorem Describes.isFreed {m : Memory} {x : ℕ × Block} (h : Describes m x) :
    (readNode m x.1).isFreed = x.2.free := AllocInfoNode.isFreed_eq h.flag

theorem Describes.flagged {m : Memory} {x : ℕ × Block} (h : Describes m x) :
    (readNode m x.1).flagged = x.2.free := AllocInfoNode.flagged_eq h.flag

/-- The headers at `p` agree up to their links. -/
structure SameBlock (m m' : Memory) (p : ℕ) : Prop where
  flag : (readNode m' p).flag = (readNode m p).flag
  start : (readNode m' p).allocationStartPtr = (readNode m p).allocationStartPtr
  size : (readNode m' p).sizeOfAllocation = (readNode m p).sizeOfAllocation

theorem SameBlock.of_eq {m m' : Memory} {p : ℕ} (h : readNode m' p = readNode m p) :
    SameBlock m m' p := ⟨by rw [h], by rw [h], by rw [h]⟩

theorem Describes.of_same {m m' : Memory} {x : ℕ × Block} (h : Describes m x)
    (hs : SameBlock m m' x.1) : Describes m' x :=
  ⟨hs.flag.trans h.flag, hs.start.trans h.start, hs.size.trans h.size⟩

structure Rep (d : DataSegment) (h : Heap) (bs : List Block) : Prop where
  nonempty : bs ≠ []
  first : h.firstAlloc = false
  head : h.list.head = d.start
  tile : h.brk = d.start + span Block.len bs
  brk_le : h.brk ≤ d.limit
  sized : ∀ b ∈ bs, b.WellSized
  nodes : ∀ x ∈ cells d.start bs, Describes h.mem x
  ring : Circular (fun p => (readNode h.mem p).next) (fun p => (readNode h.mem p).prev)
    (addresses d.start bs)
  stats : Stats h.list bs

/-- Used blocks other than those in `X` stay where they are, with their bytes. -/
def Keeps (d : DataSegment) (X : ℕ → Prop) (h : Heap) (bs : List Block) (h' : Heap)
    (bs' : List Block) : Prop :=
  ∀ x ∈ cells d.start bs, x.2.free = false → ¬ X x.1 →
    x ∈ cells d.start bs' ∧
      ∀ i, x.1 + headerSize ≤ i → i < x.1 + x.2.len → h'.mem i = h.mem i

theorem Keeps.refl (d : DataSegment) (X : ℕ → Prop) (h : Heap) (bs : List Block) :
    Keeps d X h bs h bs := fun _ hx _ _ => ⟨hx, fun _ _ _ => rfl⟩

theorem Keeps.trans {d : DataSegment} {X : ℕ → Prop} {h₁ h₂ h₃ : Heap} {b₁ b₂ b₃ : List Block}
    (h : Keeps d X h₁ b₁ h₂ b₂) (h' : Keeps d X h₂ b₂ h₃ b₃) : Keeps d X h₁ b₁ h₃ b₃ := by
  intro x hx hu hX
  obtain ⟨hx₂, hm⟩ := h x hx hu hX
  obtain ⟨hx₃, hm'⟩ := h' x hx₂ hu hX
  exact ⟨hx₃, fun i hl hr => (hm' i hl hr).trans (hm i hl hr)⟩

theorem Keeps.mono {d : DataSegment} {X Y : ℕ → Prop} {h h' : Heap} {bs bs' : List Block}
    (hk : Keeps d X h bs h' bs') (hXY : ∀ a, X a → Y a) : Keeps d Y h bs h' bs' :=
  fun x hx hu hY => hk x hx hu fun hX => hY (hXY _ hX)

namespace Rep
variable {d : DataSegment} {h : Heap} {bs l r : List Block} {b : Block}

theorem mapped (hr : Rep d h bs) {x : ℕ × Block} (hx : x ∈ cells d.start bs) :
    d.Mapped h x.1 headerSize := by
  have hb := mem_place_bounds hx
  have hl := x.2.header_le_len
  have ht := hr.tile
  exact ⟨hb.1, by omega⟩

theorem cell_lt (hr : Rep d h bs) {x : ℕ × Block} (hx : x ∈ cells d.start bs) :
    0 < x.1 ∧ x.1 + x.2.len < 2 ^ 32 := by
  have hb := mem_place_bounds hx
  have ht := hr.tile
  have hl := hr.brk_le
  have hp := d.start_pos
  have hlim := d.limit_lt
  omega

theorem mem_mid (a : ℕ) (l r : List Block) (b : Block) :
    (a + span Block.len l, b) ∈ cells a (l ++ b :: r) := by
  simp [cells, place_split]

theorem bytes_lt (hr : Rep d h bs) : headerSize * bs.length + bytes bs < 2 ^ 32 := by
  have ht := hr.tile
  have hl := hr.brk_le
  have hlim := d.limit_lt
  have hs := span_eq bs
  omega

theorem payload_outside {a : ℕ} {x : ℕ × Block} {p i : ℕ}
    (hx : x ∈ cells a bs) (hp : p ∈ addresses a bs) (hl : x.1 + headerSize ≤ i)
    (hr : i < x.1 + x.2.len) : i < p ∨ p + headerSize ≤ i := by
  obtain ⟨y, hy, rfl⟩ := List.mem_map.mp hp
  have hb := y.2.header_le_len
  rcases place_apart hx hy with rfl | hd | hd
  · exact Or.inr hl
  · exact Or.inl (by omega)
  · exact Or.inr (by omega)

/-- A change of the headers of `bs₁` only, below the break, where the used
blocks outside `X` are blocks of `bs₁` and of the new list. -/
theorem keeps {X : ℕ → Prop} {h' : Heap} {bs₁ bs' : List Block} (hr : Rep d h bs)
    (hm : ∀ i < h.brk, (∀ p ∈ addresses d.start bs₁, i < p ∨ p + headerSize ≤ i) →
      h'.mem i = h.mem i)
    (hc : ∀ x ∈ cells d.start bs, x.2.free = false → ¬ X x.1 →
      x ∈ cells d.start bs₁ ∧ x ∈ cells d.start bs') :
    Keeps d X h bs h' bs' := by
  intro x hx hu hX
  obtain ⟨h₁, h'⟩ := hc x hx hu hX
  have hb := (mem_place_bounds hx).2
  have ht := hr.tile
  exact ⟨h', fun i hl hlt => hm i (by omega) fun _ hp => payload_outside h₁ hp hl hlt⟩

/-- The blocks of `mid` give way to those of `mid'`. Their successors do not
move; the break follows when there are none. -/
theorem replace {h' : Heap} {mid mid' : List Block} (hr : Rep d h (l ++ mid ++ r))
    (hne : mid' ≠ []) (hfirst : h'.firstAlloc = false) (hhead : h'.list.head = h.list.head)
    (htile : h'.brk = d.start + span Block.len (l ++ mid' ++ r)) (hlim : h'.brk ≤ d.limit)
    (hs : r = [] ∨ span Block.len mid' = span Block.len mid)
    (hsized : ∀ b ∈ mid', b.WellSized)
    (hleft : ∀ x ∈ cells d.start l, SameBlock h.mem h'.mem x.1)
    (hmid : ∀ x ∈ cells (d.start + span Block.len l) mid', Describes h'.mem x)
    (hright : ∀ x ∈ cells (d.start + span Block.len l + span Block.len mid) r,
      SameBlock h.mem h'.mem x.1)
    (hring : Circular (fun p => (readNode h'.mem p).next) (fun p => (readNode h'.mem p).prev)
      (addresses d.start (l ++ mid' ++ r)))
    (hstats : Stats h'.list (l ++ mid' ++ r)) : Rep d h' (l ++ mid' ++ r) := by
  refine ⟨by simp [hne], hfirst, hhead.trans hr.head, htile, hlim, ?_, ?_, hring, hstats⟩
  · intro b hb
    simp only [List.mem_append] at hb
    rcases hb with (hb | hb) | hb
    · exact hr.sized b (by simp [hb])
    · exact hsized b hb
    · exact hr.sized b (by simp [hb])
  · intro x hx
    have hold := hr.nodes x
    simp only [cells, place_append, List.mem_append, span_append, ← Nat.add_assoc] at hx hold
    rcases hx with (hx | hx) | hx
    · exact (hold (Or.inl (Or.inl hx))).of_same (hleft x hx)
    · exact hmid x hx
    · rcases hs with rfl | hs
      · simp at hx
      · rw [hs] at hx
        exact (hold (Or.inr hx)).of_same (hright x hx)

end Rep

end OperationSystems.Malloc3
