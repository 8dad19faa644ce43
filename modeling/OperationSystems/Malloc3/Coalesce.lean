import OperationSystems.Malloc3.Merge

/-!
# Coalescing a freed block

`coalesce` is what `checkIfFreeAndConnect` does to the list of blocks: a free
block takes in a free successor and goes into a free predecessor. The links
decide which neighbours exist, so the case of the first block and the case of
the last one are those where the list ends.
-/

namespace OperationSystems.Malloc3
open ByteMemory CircularList Tiling

/-- A block takes in the block after it if that one is free. -/
def absorb (b : Block) : List Block → List Block
  | ⟨m, true⟩ :: r => ⟨b.size + (m + headerSize), b.free⟩ :: r
  | r => b :: r

def coalesce (l : List Block) (n : ℕ) (r : List Block) : List Block :=
  match l.getLast? with
  | some ⟨m, true⟩ => l.dropLast ++ absorb ⟨m + (n + headerSize), true⟩ r
  | _ => l ++ absorb ⟨n, true⟩ r

section Coalesce
variable (l r : List Block) (b : Block) (m n : ℕ)

@[simp] theorem absorb_nil : absorb b [] = [b] := rfl

@[simp] theorem absorb_free :
    absorb b (⟨m, true⟩ :: r) = ⟨b.size + (m + headerSize), b.free⟩ :: r := rfl

@[simp] theorem absorb_used : absorb b (⟨m, false⟩ :: r) = b :: ⟨m, false⟩ :: r := rfl

@[simp] theorem coalesce_nil : coalesce [] n r = absorb ⟨n, true⟩ r := rfl

@[simp] theorem coalesce_free :
    coalesce (l ++ [⟨m, true⟩]) n r = l ++ absorb ⟨m + (n + headerSize), true⟩ r := by
  simp [coalesce]

@[simp] theorem coalesce_used :
    coalesce (l ++ [⟨m, false⟩]) n r = l ++ ⟨m, false⟩ :: absorb ⟨n, true⟩ r := by
  simp [coalesce]

end Coalesce

theorem absorb_cells {a : ℕ} {b : Block} {r : List Block} {x : ℕ × Block}
    (hx : x ∈ cells a (b :: r)) (hu : x.2.free = false) :
    x ∈ cells a (absorb b r) ∨ x = (a, b) := by
  rcases r with _ | ⟨⟨m, _ | _⟩, r⟩
  · exact Or.inl hx
  · exact Or.inl hx
  · simp only [cells, place_cons, List.mem_cons, absorb_free] at hx ⊢
    rcases hx with rfl | rfl | hx
    · exact Or.inr rfl
    · simp at hu
    · have hlen := merged_len b.size m b.free
      refine Or.inl (Or.inr ?_)
      rw [hlen]
      rwa [Nat.add_assoc] at hx

/-- Coalescing leaves every used block in place. -/
theorem coalesce_cells {a : ℕ} {l r : List Block} {n : ℕ} {x : ℕ × Block}
    (hx : x ∈ cells a (l ++ ⟨n, true⟩ :: r)) (hu : x.2.free = false) :
    x ∈ cells a (coalesce l n r) := by
  have hne : ∀ {c : ℕ} {k : ℕ}, x ≠ (c, ⟨k, true⟩) := by
    rintro c k rfl
    simp at hu
  rcases List.eq_nil_or_concat l with rfl | ⟨l, ⟨m, _ | _⟩, rfl⟩
  · exact (absorb_cells hx hu).resolve_right hne
  · rw [List.concat_eq_append] at hx ⊢
    rw [coalesce_used, List.append_cons, mem_cells_append]
    exact (mem_cells_append.mp hx).imp_right fun hx => (absorb_cells hx hu).resolve_right hne
  · rw [List.concat_eq_append] at hx ⊢
    rw [coalesce_free, mem_cells_append]
    simp only [List.append_assoc, List.cons_append, List.nil_append, mem_cells_append] at hx
    refine hx.imp_right fun hx => (absorb_cells ?_ hu).resolve_right hne
    have hlen := merged_len m n true
    simp only [cells, place_cons, List.mem_cons] at hx ⊢
    have hx := (hx.resolve_left hne).resolve_left hne
    rw [hlen]
    exact Or.inr (by rwa [Nat.add_assoc] at hx)

namespace Rep
variable {d : DataSegment} {h : Heap} {l r : List Block} {b c : Block}

theorem links (hr : Rep d h (l ++ b :: c :: r)) :
    (readNode h.mem (d.start + span Block.len l)).next = d.start + span Block.len l + b.len ∧
      (readNode h.mem (d.start + span Block.len l + b.len)).prev = d.start + span Block.len l := by
  have hring := hr.ring
  rw [addresses_pair] at hring
  exact hring.linked

theorem links_last (hr : Rep d h (l ++ [b])) :
    (readNode h.mem (d.start + span Block.len l)).next = d.start ∧
      (readNode h.mem d.start).prev = d.start + span Block.len l := by
  have hring := hr.ring
  rw [addresses_split] at hring
  have hl := hring.linked_last
  have hd : (addresses d.start l).headD (d.start + span Block.len l) = d.start := by
    cases l <;> simp [addresses]
  rwa [hd] at hl

theorem head_mem {bs : List Block} (hr : Rep d h bs) : d.start ∈ addresses d.start bs := by
  obtain ⟨b, r, rfl⟩ := List.exists_cons_of_ne_nil hr.nonempty
  simp [addresses]

/-- The node after a block that ends at `e`, when the blocks `r` follow it. -/
def successor (s e : ℕ) : List Block → ℕ
  | [] => s
  | _ :: _ => e

theorem next_eq (hr : Rep d h (l ++ b :: r)) :
    (readNode h.mem (d.start + span Block.len l)).next =
      successor d.start (d.start + span Block.len l + b.len) r := by
  cases r with
  | nil => exact hr.links_last.1
  | cons c r => exact hr.links.1

end Rep

namespace DataSegment
variable {d : DataSegment} {h : Heap} {l r : List Block} {b : Block} {n : ℕ}

/-- Merging with the upper neighbour, if there is one and it is free. -/
def connectUp (d : DataSegment) (p up head : ℕ) (h : Heap) : Result Heap := do
  if ← d.isFreedNot up head h then d.connect p up h else return h

theorem connectUp_rep (hr : Rep d h (l ++ b :: r)) {p up : ℕ}
    (hp : d.start + span Block.len l = p) (hup : (readNode h.mem p).next = up) :
    ∃ h', d.connectUp p up d.start h = .ok h' ∧ Rep d h' (l ++ absorb b r) ∧
      OnlyHeaders (addresses d.start (l ++ b :: r)) h.mem h'.mem := by
  subst hp
  rcases r with _ | ⟨⟨m, g⟩, r⟩
  · rw [hr.links_last.1] at hup
    subst hup
    exact ⟨h, by simp [connectUp, isFreedNot], hr, .refl _ _⟩
  · have hc := (pair_mem d.start l r b ⟨m, g⟩).2
    have hne : d.start + span Block.len l + b.len ≠ d.start := by
      have hpos := b.len_pos
      omega
    have hfree := (hr.nodes _ hc).flagged
    rw [hr.links.1] at hup
    subst hup
    simp only at hfree
    cases g with
    | false =>
      refine ⟨h, ?_, hr, .refl _ _⟩
      simp [connectUp, isFreedNot, hne, node_ok (hr.mapped hc), hfree]
    | true =>
      obtain ⟨h', he, hrep⟩ := @connect_rep d h l r b.size m b.free hr
      refine ⟨h', ?_, hrep⟩
      simp only [Block.len] at hne hfree hc ⊢
      simpa [connectUp, isFreedNot, hne, node_ok (hr.mapped hc), hfree] using he

theorem isFreedNot_down {m : ℕ} {g : Bool} (hr : Rep d h (l ++ ⟨m, g⟩ :: b :: r)) :
    d.isFreedNot (d.start + span Block.len l) (d.start + span Block.len l + (Block.mk m g).len) h =
      .ok g := by
  have hc := (pair_mem d.start l r ⟨m, g⟩ b).1
  have hne : d.start + span Block.len l ≠ d.start + span Block.len l + (Block.mk m g).len := by
    have hpos := (Block.mk m g).len_pos
    omega
  have hfree := (hr.nodes _ hc).flagged
  simp only at hfree
  rw [isFreedNot, if_neg hne, node_ok (hr.mapped hc) rfl, ok_bind, hfree, pure_eq_ok]

theorem addresses_merge_subset (a : ℕ) (l r : List Block) (n₁ n₂ : ℕ) (f : Bool) :
    addresses a (l ++ ⟨n₁ + (n₂ + headerSize), f⟩ :: r) ⊆
      addresses a (l ++ ⟨n₁, f⟩ :: ⟨n₂, true⟩ :: r) := by
  intro p hp
  rw [addresses_split, merged_len, ← Nat.add_assoc] at hp
  rw [addresses_pair]
  simp only [List.mem_append, List.mem_cons] at hp ⊢
  tauto

theorem checkIfFreeAndConnect_rep (hr : Rep d h (l ++ ⟨n, true⟩ :: r)) {p : ℕ}
    (hp : d.start + span Block.len l = p) :
    ∃ h', d.checkIfFreeAndConnect p h = .ok h' ∧ Rep d h' (coalesce l n r) ∧
      OnlyHeaders (addresses d.start (l ++ ⟨n, true⟩ :: r)) h.mem h'.mem := by
  have hmem := Rep.mem_mid d.start l r ⟨n, true⟩
  have hm := hr.mapped hmem
  have hfree := (hr.nodes _ hmem).flagged
  simp only [hp] at hm hfree
  obtain ⟨up, hup⟩ : ∃ up, (readNode h.mem p).next = up := ⟨_, rfl⟩
  obtain ⟨h', hconn, hrep, hmem'⟩ := connectUp_rep hr hp hup
  rw [connectUp] at hconn
  rcases List.eq_nil_or_concat l with rfl | ⟨l, ⟨m, g⟩, rfl⟩
  · have hhead : p = h.list.head := by
      rw [hr.head, ← hp, span_nil, Nat.add_zero]
    refine ⟨h', ?_, hrep, hmem'⟩
    simp only [checkIfFreeAndConnect, node_ok hm, ok_bind, if_pos hhead, hup]
    rw [hr.head]
    exact hconn
  · rw [List.concat_eq_append] at *
    have hr' : Rep d h (l ++ ⟨m, g⟩ :: ⟨n, true⟩ :: r) := by simpa using hr
    have hne : p ≠ h.list.head := by
      have hpos := (Block.mk m g).len_pos
      simp only [span_append, span_cons, span_nil] at hp
      rw [hr.head]
      omega
    have hp' : d.start + span Block.len l + (Block.mk m g).len = p := by
      simpa [Nat.add_assoc] using hp
    have hdown := hr'.links.2
    have hdf := isFreedNot_down hr'
    rw [hp'] at hdown hdf
    simp only [checkIfFreeAndConnect, node_ok hm, ok_bind, if_neg hne, hup, hdown, hdf, hfree]
    cases g with
    | false =>
      refine ⟨h', ?_, by simpa using hrep, hmem'⟩
      rw [hr.head]
      simpa using hconn
    | true =>
      obtain ⟨h₁, hconn₁, hrep₁, hmem₁⟩ := connect_rep hr'
      have hup₁ : (readNode h₁.mem (d.start + span Block.len l)).next = up := by
        rw [hrep₁.next_eq, ← hup, ← hp, hr.next_eq, merged_len, span_append, span_cons, span_nil,
          Nat.add_zero, ← Nat.add_assoc, ← Nat.add_assoc]
      obtain ⟨h₂, hconn₂, hrep₂, hmem₂⟩ := connectUp_rep hrep₁ rfl hup₁
      have hconn₁ : d.connect (d.start + span Block.len l) p h = .ok h₁ := hp' ▸ hconn₁
      rw [connectUp] at hconn₂
      refine ⟨h₂, ?_, by simpa using hrep₂, ?_⟩
      · simp only [Bool.and_self, if_true, hconn₁, ok_bind, hr.head]
        exact hconn₂
      · rw [List.append_assoc]
        exact hmem₁.trans (hmem₂.mono (addresses_merge_subset _ _ _ _ _ _))

end DataSegment

end OperationSystems.Malloc3
