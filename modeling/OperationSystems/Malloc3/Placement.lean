import OperationSystems.Malloc3.Limits
import OperationSystems.Malloc3.Separation

/-!
# Where `malloc` puts a block

No two free blocks are neighbours, so the rest of a split block has nothing to
merge with and the list changes at one place only. The three ways to serve a
request are read off the list as it stands in memory.
-/

namespace OperationSystems.Malloc3
open ByteMemory CircularList Tiling Transition DataSegment

namespace Heap

/-- A free block that is large enough. -/
def Room (r : ℕ) (x : ℕ × ℤ × Bool) : Prop := x.2.2 = true ∧ (r : ℤ) ≤ x.2.1

/-- The block at `a` is put in use for `r` bytes. -/
inductive Puts (h : Heap) (r : ℕ) (h' : Heap) (a : ℕ) : Prop where
  | whole {l t : List (ℕ × ℤ × Bool)} {n : ℤ} (hb : h.listing = l ++ (a, n, true) :: t)
      (hroom : r ≤ n) (hlow : ∀ x ∈ h.listing, Room r x → a ≤ x.1)
      (hrest : n - r - headerSize < remain) (hl : h'.listing = l ++ (a, n, false) :: t)
      (hbrk : h'.brk = h.brk)
  | part {l t : List (ℕ × ℤ × Bool)} {n : ℤ} (hb : h.listing = l ++ (a, n, true) :: t)
      (hroom : r ≤ n) (hlow : ∀ x ∈ h.listing, Room r x → a ≤ x.1)
      (hrest : remain ≤ n - r - headerSize)
      (hl : h'.listing =
        l ++ (a, (r : ℤ), false) :: (a + headerSize + r, n - r - headerSize, true) :: t)
      (hbrk : h'.brk = h.brk)
  | grow {l : List (ℕ × ℤ × Bool)} {n : ℤ} (hb : h.listing = l ++ [(a, n, true)])
      (hnone : ∀ x ∈ h.listing, ¬ Room r x) (hl : h'.listing = l ++ [(a, (r : ℤ), false)])
      (hbrk : (h'.brk : ℤ) = h.brk + (r - n))
  | append (hlast : ∃ x ∈ h.listing.getLast?, x.2.2 = false)
      (hnone : ∀ x ∈ h.listing, ¬ Room r x) (ha : a = h.brk)
      (hl : h'.listing = h.listing ++ [(a, (r : ℤ), false)]) (hbrk : h'.brk = h.brk + (headerSize + r))

end Heap

section Puts
variable {d : DataSegment} {h h' : Heap} {l r bs bs' : List Block} {b : Block} {n k req : ℕ}

theorem absorb_of_separate (hs : Separate (⟨n, true⟩ :: r)) : absorb ⟨k, true⟩ r = ⟨k, true⟩ :: r := by
  rcases r with _ | ⟨⟨m, _ | _⟩, r⟩
  · rfl
  · rfl
  · exact absurd ⟨rfl, rfl⟩ (List.isChain_cons_cons.mp hs).1

theorem room_entry {x : ℕ × Block} : Heap.Room req (entry x) ↔ Fits req x.2 := by
  simp [Heap.Room, entry, Fits]

theorem listing_split (hr : Represented d h (l ++ b :: r)) :
    h.listing = (cells d.start l).map entry ++ (d.start + span Block.len l, (b.size : ℤ), b.free) ::
      (cells (d.start + span Block.len l + b.len) r).map entry := by
  rw [hr.listing, cells, place_split, List.map_append, List.map_cons]
  rfl

theorem no_room (hr : Represented d h bs) (hbs : ∀ c ∈ bs, ¬ Fits req c) :
    ∀ x ∈ h.listing, ¬ Heap.Room req x := by
  intro y hy
  rw [hr.listing] at hy
  obtain ⟨x, hx, rfl⟩ := List.mem_map.mp hy
  obtain ⟨l, r, rfl, -⟩ := mem_place_split hx
  rw [room_entry]
  exact hbs x.2 (by simp)

/-- The first block with room is the one at the lowest address. -/
theorem first_room (hr : Represented d h (l ++ b :: r)) (hl : ∀ c ∈ l, ¬ Fits req c) :
    ∀ x ∈ h.listing, Heap.Room req x → d.start + span Block.len l ≤ x.1 := by
  intro y hy hroom
  rw [hr.listing] at hy
  obtain ⟨x, hx, rfl⟩ := List.mem_map.mp hy
  rw [room_entry] at hroom
  rcases mem_cells_append.mp hx with hx | hx
  · obtain ⟨l₁, r₁, rfl, -⟩ := mem_place_split hx
    exact absurd hroom (hl x.2 (by simp))
  · exact (mem_place_bounds hx).1

theorem take_puts (hr : Represented d h (l ++ b :: r)) (hs : Separate (l ++ b :: r))
    (hl : ∀ c ∈ l, ¬ Fits req c) (hb : Fits req b) (hr' : Rep d h' (l ++ take req b r)) :
    h.Puts req h' (d.start + span Block.len l) := by
  obtain ⟨n, f⟩ := b
  obtain ⟨rfl, hn⟩ := hb
  have hlow := first_room hr hl
  have hlist := listing_split hr
  have hbrk : h'.brk = h.brk := by
    rw [hr'.tile, hr.brk_eq, span_append, span_append, span_take, span_cons]
  have hroom : (req : ℤ) ≤ n := by exact_mod_cast hn
  rcases @take_used_or_free req n true r with ⟨hsmall, ht⟩ | ⟨k, hk, hkr, ht⟩
  · rw [ht] at hr'
    refine .whole hlist hroom hlow ?_ (listing_split (Or.inl hr')) hbrk
    simp only [remain]
    omega
  · rw [ht, absorb_of_separate hs.right_of_append] at hr'
    have hlist' := listing_split (Or.inl hr')
    have hrest : (n : ℤ) - req - headerSize = k := by omega
    refine .part hlist hroom hlow (by rw [hrest, remain]; omega) ?_ hbrk
    rw [hlist', hrest]
    have hlen : (Block.mk n true).len = (Block.mk req false).len + (Block.mk k true).len := by
      simp only [Block.len]
      omega
    have hnext : d.start + span Block.len l + headerSize + req =
        d.start + span Block.len l + (Block.mk req false).len := Nat.add_assoc _ _ _
    rw [hlen, hnext, ← Nat.add_assoc (d.start + _)]
    rfl

theorem DataSegment.Granted.puts (hg : Granted req bs l bs') (hr : Rep d h bs) (hs : Separate bs)
    (hr' : Rep d h' bs') : h.Puts req h' (d.start + span Block.len l) := by
  have hr₀ : Represented d h bs := Or.inl hr
  cases hg with
  | first => exact absurd rfl hr.nonempty
  | placed hp =>
    cases hp with
    | fit hl hb => exact take_puts hr₀ hs hl hb hr'
    | @grow l b hbs hb =>
      obtain ⟨n, f⟩ := b
      obtain rfl : f = true := hb
      refine .grow (listing_split hr₀) (no_room hr₀ hbs) (listing_split (Or.inl hr')) ?_
      rw [hr'.tile, hr.tile]
      simp only [span_append, span_cons, span_nil, Block.len]
      omega
    | @append l b hbs hb =>
      refine .append ?_ (no_room hr₀ hbs) hr.tile.symm ?_ ?_
      · rw [hr₀.listing, List.getLast?_map, place_getLast]
        exact ⟨_, rfl, hb⟩
      · rw [listing_split (Or.inl hr'), hr₀.listing]
        rfl
      · rw [hr'.tile, hr.tile]
        simp only [span_append, span_cons, span_nil, Block.len]
        omega

end Puts

namespace Client
variable {d : DataSegment} {s : Client} {es : List Event} {bs : List Block} {size : ℕ}

/-- The payload of every block of `h` but that at `a` is the same in `h'`. -/
def LeavesOthers (h : Heap) (a : ℕ) (h' : Heap) : Prop :=
  ∀ x ∈ h.listing, x.1 ≠ a → ∀ i : ℕ, x.1 + headerSize ≤ i → (i : ℤ) < x.1 + headerSize + x.2.1 →
    h'.mem i = h.mem i

theorem leavesOthers {h h' : Heap} {a : ℕ} (hr : Represented d h bs) (hk : KeepsOthers d a h bs h') :
    LeavesOthers h a h' := by
  intro y hy hne i hl hlt
  rw [hr.listing] at hy
  obtain ⟨x, hx, rfl⟩ := List.mem_map.mp hy
  simp only [entry] at hne hl hlt
  refine hk x hx hne i hl ?_
  simp only [Block.len]
  omega

/-- Placement: in a heap that is not empty, `malloc` takes the first free block with room, else it
makes a free last block longer, else it appends one, and the break moves by what is missing only. -/
theorem malloc_places (h : Run (Step d) (start d) es s) (hne : s.heap.listing ≠ [])
    (hl : 1 ≤ size) (hu : size ≤ 100000000) :
    (Call.malloc size).Exceeds d s.heap ∨
      ∃ p h' a, d.malloc size s.heap = .ok (p, h') ∧ s.heap.Puts (roundUp size) h' a ∧
        (p ≠ 0 → p = a + headerSize) ∧ LeavesOthers s.heap a h' := by
  obtain ⟨bs, ho, hsep⟩ := run_separate h
  have hn : Accepted size := ⟨by omega, hu⟩
  have hr : Rep d s.heap bs := by
    refine ho.rep.resolve_right ?_
    rintro ⟨rfl, -⟩
    exact hne ho.rep.listing
  rcases malloc_grant ho.rep (mt not_accepted.mpr (not_not.mpr hn)) with ⟨-, he⟩ |
    ⟨l, p, h', bs', he, hg, hpres⟩
  · exact Or.inl ((malloc_fails_iff ho.rep rfl hn).mp he)
  · exact Or.inr ⟨p, h', _, he, hg.granted.puts hr hsep hg.rep, hg.pointer_eq,
      leavesOthers ho.rep hpres.others⟩

theorem malloc_places_sample :
    ∃ s, Run (Step sampleSegment) (start sampleSegment) sampleEvents s ∧
      ∃ p h' a, sampleSegment.malloc 100 s.heap = .ok (p, h') ∧ s.heap.Puts 100 h' a ∧
        (p ≠ 0 → p = a + headerSize) := by
  have hexec : (Run.exec (next sampleSegment) (start sampleSegment) sampleEvents).map (fun s =>
      (s.heap.listing, (Call.malloc 100).asks s.heap)) =
        some ([(4096, 40, false), (4160, 272, true), (4456, 16, false)], none) := by
    decide +kernel
  obtain ⟨s, hs, hm⟩ := Option.map_eq_some_iff.mp hexec
  obtain ⟨hlist, hasks⟩ := Prod.mk.inj hm
  have hrun := Run.of_exec (fun _ _ _ => step_of_next) hs
  rcases @malloc_places _ _ _ 100 hrun (by simp [hlist]) (by decide) (by decide) with
    ⟨k, hk, -⟩ | ⟨p, h', a, he, hp, hq, -⟩
  · rw [hasks] at hk
    cases hk
  · exact ⟨s, hrun, p, h', a, he, hp, hq⟩

end Client

end OperationSystems.Malloc3
