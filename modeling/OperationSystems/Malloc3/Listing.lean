import OperationSystems.Malloc3.Client

/-!
# The list of blocks as it stands in memory

`headers` follows the links from `head` until they lead back to it, and
`listing` reads the address, the size and the flag of each block. A represented
heap determines its list of blocks.
-/

namespace OperationSystems.Malloc3
open ByteMemory CircularList Tiling

namespace Heap

/-- The headers from `p` on; the break bounds their number. -/
def walk (h : Heap) : ℕ → ℕ → List ℕ
  | 0, _ => []
  | fuel + 1, p =>
    let next := (readNode h.mem p).next
    p :: if next = h.list.head then [] else walk h fuel next

def headers (h : Heap) : List ℕ := if h.firstAlloc then [] else h.walk h.brk h.list.head

/-- Address, size and `is_freed` of every block. -/
def listing (h : Heap) : List (ℕ × ℤ × Bool) :=
  h.headers.map fun p => (p, (readNode h.mem p).sizeOfAllocation, (readNode h.mem p).isFreed)

end Heap

/-- A placed block as `listing` shows it. -/
def entry (x : ℕ × Block) : ℕ × ℤ × Bool := (x.1, x.2.size, x.2.free)

theorem entry_injective : Function.Injective entry := by
  rintro ⟨a, n, f⟩ ⟨b, m, g⟩ he
  simp only [entry, Prod.mk.injEq, Nat.cast_inj] at he
  obtain ⟨rfl, rfl, rfl⟩ := he
  rfl

section Listing
variable {d : DataSegment} {h : Heap} {bs bs' l r : List Block} {b : Block}

theorem Rep.walk_eq (hr : Rep d h (l ++ b :: r)) {fuel : ℕ} (hfuel : r.length < fuel) :
    h.walk fuel (d.start + span Block.len l) = addresses (d.start + span Block.len l) (b :: r) := by
  induction r generalizing l b fuel with
  | nil =>
    obtain ⟨fuel, rfl⟩ := Nat.exists_eq_add_one_of_ne_zero (Nat.ne_of_gt hfuel)
    simp [Heap.walk, hr.links_last.1, hr.head, addresses, cells]
  | cons c r ih =>
    obtain ⟨fuel, rfl⟩ := Nat.exists_eq_add_one_of_ne_zero (Nat.ne_zero_of_lt hfuel)
    have hpos := b.len_pos
    have hnext := hr.links.1
    have hne : d.start + span Block.len l + b.len ≠ h.list.head := by
      rw [hr.head]
      omega
    have htail := @ih (l ++ [b]) c (by simpa using hr) fuel (by simpa using hfuel)
    simp only [span_append, span_cons, span_nil, Nat.add_zero, ← Nat.add_assoc] at htail
    simp only [Heap.walk, hnext, if_neg hne, htail, addresses, cells, place_cons, List.map_cons]

theorem Rep.headers_eq (hr : Rep d h bs) : h.headers = addresses d.start bs := by
  obtain ⟨b, r, rfl⟩ := List.exists_cons_of_ne_nil hr.nonempty
  have hsp := span_eq (b :: r)
  have htile := hr.tile
  simp only [headerSize, List.length_cons] at hsp
  have hw := @Rep.walk_eq d h [] r b hr h.brk (by omega)
  rw [Heap.headers, hr.first, if_neg (by simp), hr.head]
  simpa using hw

namespace DataSegment

theorem Represented.headers (hr : Represented d h bs) : h.headers = addresses d.start bs := by
  rcases hr with hr | ⟨rfl, hu⟩
  · exact hr.headers_eq
  · rw [Heap.headers, hu.firstAlloc, if_pos rfl]
    rfl

theorem Represented.listing (hr : Represented d h bs) :
    h.listing = (cells d.start bs).map entry := by
  rw [Heap.listing, hr.headers, addresses, List.map_map]
  refine List.map_congr_left fun x hx => ?_
  have hd := (hr.rep hx).nodes x hx
  simp only [Function.comp, entry, hd.size, hd.isFreed]

/-- There is one list of blocks that a heap represents. -/
theorem Represented.unique (hr : Represented d h bs) (hr' : Represented d h bs') : bs = bs' := by
  have hcells : cells d.start bs = cells d.start bs' :=
    entry_injective.list_map (hr.listing.symm.trans hr'.listing)
  have hmap := congrArg (List.map Prod.snd) hcells
  rwa [place_map_snd, place_map_snd] at hmap

end DataSegment

end Listing

end OperationSystems.Malloc3
