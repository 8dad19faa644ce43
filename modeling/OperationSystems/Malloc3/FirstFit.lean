import OperationSystems.Malloc3.Extend

/-!
# First fit

`Placed` says where `malloc` puts a block: into the first free block that is
large enough, else into a free last block made longer, else behind the last
block. `malloc` does so on the represented heap and leaves the used blocks
alone.
-/

namespace OperationSystems.Malloc3
open ByteMemory CircularList Tiling

def Fits (req : ℕ) (b : Block) : Prop := b.free = true ∧ req ≤ b.size

/-- A free block is taken whole, or split if the rest is large enough. -/
def take (req : ℕ) (b : Block) (r : List Block) : List Block :=
  if b.size < req + headerSize + 128 then ⟨b.size, false⟩ :: r
  else ⟨req, false⟩ :: absorb ⟨b.size - req - headerSize, true⟩ r

inductive Placed (req : ℕ) : List Block → List Block → List Block → Prop where
  | fit {l r : List Block} {b : Block} (hl : ∀ c ∈ l, ¬ Fits req c) (hb : Fits req b) :
      Placed req (l ++ b :: r) l (l ++ take req b r)
  | grow {l : List Block} {b : Block} (hbs : ∀ c ∈ l ++ [b], ¬ Fits req c) (hb : b.free = true) :
      Placed req (l ++ [b]) l (l ++ [⟨req, false⟩])
  | append {l : List Block} {b : Block} (hbs : ∀ c ∈ l ++ [b], ¬ Fits req c)
      (hb : b.free = false) : Placed req (l ++ [b]) (l ++ [b]) (l ++ [b] ++ [⟨req, false⟩])

/-- The segment ends before an allocation of `req` bytes would. -/
inductive Short (d : DataSegment) (req : ℕ) (h : Heap) : List Block → Prop where
  | first (hl : d.limit < h.brk + (req + headerSize)) : Short d req h []
  | grow {l : List Block} {n : ℕ} (hbs : ∀ c ∈ l ++ [⟨n, true⟩], ¬ Fits req c)
      (hl : d.limit < h.brk + (req - n)) : Short d req h (l ++ [⟨n, true⟩])
  | append {l : List Block} {n : ℕ} (hbs : ∀ c ∈ l ++ [⟨n, false⟩], ¬ Fits req c)
      (hl : d.limit < h.brk + (req + headerSize)) : Short d req h (l ++ [⟨n, false⟩])

section Placed
variable {req a : ℕ} {l bs bs' : List Block}

theorem first_fit_or_none (req : ℕ) (bs : List Block) :
    (∃ l b r, bs = l ++ b :: r ∧ (∀ c ∈ l, ¬ Fits req c) ∧ Fits req b) ∨
      ∀ c ∈ bs, ¬ Fits req c := by
  induction bs with
  | nil => exact Or.inr (by simp)
  | cons c bs ih =>
    by_cases hc : Fits req c
    · exact Or.inl ⟨[], c, bs, rfl, by simp, hc⟩
    · rcases ih with ⟨l, b, r, rfl, hl, hb⟩ | h
      · exact Or.inl ⟨c :: l, b, r, rfl, by simpa [hc] using hl, hb⟩
      · exact Or.inr (by simpa [hc] using h)

/-- The block that `malloc` hands out. -/
theorem Placed.cell (h : Placed req bs l bs') :
    ∃ n, (a + span Block.len l, ⟨n, false⟩) ∈ cells a bs' ∧ req ≤ n := by
  cases h with
  | @fit l r b hl hb =>
    unfold take
    split
    · exact ⟨b.size, Rep.mem_mid _ _ _ _, hb.2⟩
    · exact ⟨req, Rep.mem_mid _ _ _ _, le_rfl⟩
  | grow hbs hb => exact ⟨req, Rep.mem_mid _ _ _ _, le_rfl⟩
  | append hbs hb => exact ⟨req, Rep.mem_mid _ _ _ _, le_rfl⟩

theorem Placed.exists_cons (h : Placed req bs l bs') (hl : l.length < bs.length) :
    ∃ b r, bs = l ++ b :: r := by
  cases h with
  | @fit l r b _ _ => exact ⟨b, r, rfl⟩
  | @grow l b _ _ => exact ⟨b, [], rfl⟩
  | append _ _ => exact absurd hl (lt_irrefl _)

/-- No used block lies where the new one is put. -/
theorem Placed.fresh (h : Placed req bs l bs') {x : ℕ × Block} (hx : x ∈ cells a bs)
    (hu : x.2.free = false) : x.1 ≠ a + span Block.len l := by
  have hfree : ∀ {r : List Block} {b : Block}, b.free = true → x ∈ cells a (l ++ b :: r) →
      x.1 ≠ a + span Block.len l := by
    intro r b hb hx he
    have hpos := x.2.len_pos
    have hpos' := b.len_pos
    rcases place_apart hx (Rep.mem_mid a l r b) with rfl | hd | hd
    · simp [hb] at hu
    · simp only at hd
      omega
    · simp only at hd
      omega
  cases h with
  | fit hl hb => exact hfree hb.1 hx
  | grow hbs hb => exact hfree hb hx
  | append hbs hb =>
    have hb := mem_place_bounds hx
    have hpos := x.2.len_pos
    omega

end Placed

theorem take_used_or_free {req n : ℕ} {f : Bool} {r : List Block} :
    (n < req + headerSize + 128 ∧ take req ⟨n, f⟩ r = ⟨n, false⟩ :: r) ∨
      ∃ k, n = req + headerSize + k ∧ 128 ≤ k ∧
        take req ⟨n, f⟩ r = ⟨req, false⟩ :: absorb ⟨k, true⟩ r := by
  by_cases h : n < req + headerSize + 128
  · exact Or.inl ⟨h, if_pos h⟩
  · refine Or.inr ⟨n - req - headerSize, by omega, by omega, ?_⟩
    rw [take, if_neg h]

/-- Blocks before and behind a block that is split stay. -/
theorem split_rest {a req k n : ℕ} {f : Bool} {l r : List Block} {x : ℕ × Block}
    (hn : n = req + headerSize + k) (hx : x ∈ cells a (l ++ ⟨n, f⟩ :: r))
    (hne : x ≠ (a + span Block.len l, ⟨n, f⟩)) :
    x ∈ cells a l ∨
      x ∈ cells (a + span Block.len l + (Block.mk req false).len + (Block.mk k true).len) r := by
  have hlen : (Block.mk n f).len = (Block.mk req false).len + (Block.mk k true).len := by
    simp only [Block.len]
    omega
  rw [mem_cells_append] at hx
  refine hx.imp_right fun hx => ?_
  simp only [cells, place_cons, List.mem_cons, hlen] at hx
  rw [Nat.add_assoc (a + _)]
  exact hx.resolve_left hne

theorem split_cells {a req k n : ℕ} {f : Bool} {l r : List Block} {x : ℕ × Block}
    (hn : n = req + headerSize + k) (hx : x ∈ cells a (l ++ ⟨n, f⟩ :: r)) (hu : x.2.free = false)
    (hne : x ≠ (a + span Block.len l, ⟨n, f⟩)) :
    x ∈ cells a (l ++ ⟨req, false⟩ :: ⟨k, true⟩ :: r) ∧
      x ∈ cells a (l ++ ⟨req, false⟩ :: absorb ⟨k, true⟩ r) := by
  simp only [mem_cells_append]
  rcases split_rest hn hx hne with hx | hx
  · exact ⟨Or.inl hx, Or.inl hx⟩
  · refine ⟨Or.inr (List.mem_cons_of_mem _ (List.mem_cons_of_mem _ hx)), Or.inr (List.mem_cons_of_mem _ ?_)⟩
    refine (absorb_cells (List.mem_cons_of_mem _ hx) hu).resolve_right ?_
    rintro rfl
    simp at hu

namespace Rep
variable {d : DataSegment} {h h' : Heap} {bs : List Block}

/-- Writes inside one payload leave the heap as it is. -/
theorem payload (hr : Rep d h bs) {x : ℕ × Block} (hx : x ∈ cells d.start bs) {m : Memory}
    (hm : ∀ i, i < x.1 + headerSize ∨ x.1 + x.2.len ≤ i → m i = h.mem i) :
    Rep d { h with mem := m } bs := by
  have hread : ∀ y ∈ cells d.start bs, readNode m y.1 = readNode h.mem y.1 := by
    intro y hy
    have hy' := y.2.header_le_len
    refine readNode_congr fun i hi hlt => hm i ?_
    rcases place_apart hx hy with rfl | hd | hd
    · exact Or.inl hlt
    · exact Or.inr (by omega)
    · exact Or.inl (by omega)
  refine ⟨hr.nonempty, hr.first, hr.head, hr.tile, hr.brk_le, hr.sized, ?_, ?_, hr.stats⟩
  · intro y hy
    exact (hr.nodes y hy).of_same (.of_eq (hread y hy))
  · refine hr.ring.congr ?_ ?_ <;>
    · intro p hp
      obtain ⟨y, hy, rfl⟩ := List.mem_map.mp hp
      simp only [hread y hy]

theorem keeps_payload {x : ℕ × Block} (hx : x ∈ cells d.start bs) {m : Memory}
    (hm : ∀ i, i < x.1 + headerSize ∨ x.1 + x.2.len ≤ i → m i = h.mem i) :
    Keeps d (· = x.1) h bs { h with mem := m } bs := by
  intro y hy _ hne
  refine ⟨hy, fun i hl hlt => hm i ?_⟩
  rcases place_apart hx hy with rfl | hd | hd
  · exact absurd rfl hne
  · exact Or.inr (by omega)
  · exact Or.inl (by omega)

end Rep

/-- The payload of a block placed at `a` holds what was there before, as far as it was mapped. -/
def KeepsBytes (h : Heap) (a req : ℕ) (h' : Heap) : Prop :=
  ∀ i, a + headerSize ≤ i → i < a + headerSize + req → i < h.brk → h'.mem i = h.mem i

theorem KeepsBytes.refl (h : Heap) (a req : ℕ) : KeepsBytes h a req h := fun _ _ _ _ => rfl

theorem KeepsBytes.trans {h₁ h₂ h₃ : Heap} {a n m req : ℕ} (hk : KeepsBytes h₁ a n h₂)
    (hk' : KeepsBytes h₂ a m h₃) (hb : h₁.brk ≤ h₂.brk) (hn : req ≤ n) (hm : req ≤ m) :
    KeepsBytes h₁ a req h₃ := fun i hl hlt hi =>
  (hk' i hl (by omega) (by omega)).trans (hk i hl (by omega) hi)

theorem KeepsBytes.of_below {a : ℕ} {bs : List Block} {h h' : Heap} {x : ℕ × Block} {req : ℕ}
    (hm : OnlyBelow (addresses a bs) h.brk h.mem h'.mem) (hx : x ∈ cells a bs)
    (hreq : req ≤ x.2.size ∨ h.brk ≤ x.1 + x.2.len) : KeepsBytes h x.1 req h' := by
  intro i hl hlt hb
  refine hm i hb fun p hp => Rep.payload_outside hx hp hl ?_
  simp only [Block.len] at hreq ⊢
  omega

/-- The payloads of all blocks but the one at `a` stay as they are. -/
def KeepsOthers (d : DataSegment) (a : ℕ) (h : Heap) (bs : List Block) (h' : Heap) : Prop :=
  ∀ x ∈ cells d.start bs, x.1 ≠ a →
    ∀ i, x.1 + headerSize ≤ i → i < x.1 + x.2.len → h'.mem i = h.mem i

theorem Rep.keepsOthers {d : DataSegment} {h h' : Heap} {bs bs₁ : List Block} {a : ℕ}
    (hr : Rep d h bs) (hm : OnlyBelow (addresses d.start bs₁) h.brk h.mem h'.mem)
    (hc : ∀ x ∈ cells d.start bs, x.1 ≠ a → x ∈ cells d.start bs₁) :
    KeepsOthers d a h bs h' := by
  intro x hx hne i hl hlt
  have hb := (mem_place_bounds hx).2
  have ht := hr.tile
  exact hm i (by omega) fun _ hp => Rep.payload_outside (hc x hx hne) hp hl hlt

/-- What an allocation of `req` bytes at `a` leaves of the payloads. -/
structure Preserves (d : DataSegment) (a req : ℕ) (h : Heap) (bs : List Block) (h' : Heap) : Prop where
  bytes : KeepsBytes h a req h'
  others : KeepsOthers d a h bs h'

namespace DataSegment
variable {d : DataSegment} {h : Heap} {l m r bs : List Block} {b : Block} {n req : ℕ}

section Find

theorem findLoop_miss (hr : Rep d h (l ++ b :: r)) (hb : ¬ Fits req b) (fuel : ℕ) :
    d.findLoop req (fuel + 1) (d.start + span Block.len l) h =
      if r = [] then .ok (none, h)
      else d.findLoop req fuel (d.start + span Block.len (l ++ [b])) h := by
  have hm := Rep.mem_mid d.start l r b
  have hd := hr.nodes _ hm
  have hcond : ¬ ((req : ℤ) ≤ (readNode h.mem (d.start + span Block.len l)).sizeOfAllocation ∧
      (readNode h.mem (d.start + span Block.len l)).isFreed = true) := by
    rw [hd.size, hd.isFreed]
    rintro ⟨hs, hf⟩
    exact hb ⟨hf, by exact_mod_cast hs⟩
  simp only [findLoop, node_ok (hr.mapped hm), ok_bind, if_neg hcond, hr.next_eq, hr.head]
  cases r with
  | nil => simp [Rep.successor]
  | cons c r =>
    have hne : d.start + span Block.len l + b.len ≠ d.start := by
      have hpos := b.len_pos
      omega
    rw [Rep.successor, if_pos hne, if_neg (List.cons_ne_nil c r), span_append, span_cons, span_nil,
      Nat.add_zero, ← Nat.add_assoc]

theorem findLoop_none (hr : Rep d h (l ++ b :: r)) (hbs : ∀ c ∈ b :: r, ¬ Fits req c) {fuel : ℕ}
    (hfuel : r.length < fuel) :
    d.findLoop req fuel (d.start + span Block.len l) h = .ok (none, h) := by
  induction r generalizing l b fuel with
  | nil =>
    obtain ⟨fuel, rfl⟩ := Nat.exists_eq_add_one_of_ne_zero (Nat.ne_of_gt hfuel)
    rw [findLoop_miss hr (hbs b (by simp)), if_pos rfl]
  | cons c r ih =>
    obtain ⟨fuel, rfl⟩ := Nat.exists_eq_add_one_of_ne_zero (Nat.ne_zero_of_lt hfuel)
    rw [findLoop_miss hr (hbs b (by simp)), if_neg (by simp)]
    refine ih (by simpa using hr) (fun c hc => hbs c (List.mem_cons_of_mem b hc)) ?_
    simpa using hfuel

theorem findLoop_skip (hr : Rep d h (l ++ m ++ b :: r)) (hm : ∀ c ∈ m, ¬ Fits req c) (fuel : ℕ) :
    d.findLoop req (fuel + m.length) (d.start + span Block.len l) h =
      d.findLoop req fuel (d.start + span Block.len (l ++ m)) h := by
  induction m generalizing l with
  | nil => simp
  | cons c m ih =>
    have hr' : Rep d h (l ++ c :: (m ++ b :: r)) := by simpa using hr
    rw [List.length_cons, ← Nat.add_assoc, findLoop_miss hr' (hm c (by simp)), if_neg (by simp),
      ih (by simpa using hr) (fun x hx => hm x (List.mem_cons_of_mem c hx))]
    simp

/-- Taking a block that fits, whole or in part. -/
theorem findLoop_hit (hr : Rep d h (l ++ b :: r)) (hb : Fits req b)
    (hreq : (Block.mk req false).WellSized) (fuel : ℕ) :
    ∃ h', d.findLoop req (fuel + 1) (d.start + span Block.len l) h =
        .ok (some (d.start + span Block.len l + headerSize), h') ∧
      Rep d h' (l ++ take req b r) ∧
      Keeps d (fun _ => False) h (l ++ b :: r) h' (l ++ take req b r) ∧
      Preserves d (d.start + span Block.len l) req h (l ++ b :: r) h' := by
  obtain ⟨n, f⟩ := b
  obtain ⟨rfl, hn⟩ := hb
  simp only at hn
  have hm := Rep.mem_mid d.start l r ⟨n, true⟩
  have hd := hr.nodes _ hm
  have hsize := hd.size
  have hfree := hd.isFreed
  simp only at hsize hfree
  have hcond : (req : ℤ) ≤ n ∧ True := ⟨by exact_mod_cast hn, trivial⟩
  have hstart {h' : Heap} {x : Block} {t : List Block} (hr' : Rep d h' (l ++ x :: t)) :
      d.node (d.start + span Block.len l) h' =
        .ok (readNode h'.mem (d.start + span Block.len l)) ∧
      (readNode h'.mem (d.start + span Block.len l)).allocationStartPtr =
        d.start + span Block.len l + headerSize := by
    have hx := Rep.mem_mid d.start l t x
    exact ⟨node_ok (hr'.mapped hx) rfl, (hr'.nodes _ hx).start⟩
  rcases @take_used_or_free req n true r with ⟨hsmall, ht⟩ | ⟨k, hk, hkr, ht⟩
  · obtain ⟨h', he, hr', hmem⟩ := setUsed_rep hr
    obtain ⟨hnode, hst⟩ := hstart hr'
    have hrem : (n : ℤ) - req - headerSize < remain := by
      simp only [remain]
      omega
    rw [ht]
    refine ⟨h', ?_, hr', hr.keeps (hmem.below h.brk) fun x hx hu _ => ⟨hx, ?_⟩,
      .of_below (hmem.below h.brk) hm (Or.inl hn), hr.keepsOthers (hmem.below h.brk) fun _ hx _ => hx⟩
    · simp only [findLoop, node_ok (hr.mapped hm), ok_bind, hsize, hfree, if_pos hcond, if_pos hrem,
        he, hnode, hst, pure_eq_ok]
    · rw [mem_cells_append] at hx ⊢
      refine hx.imp_right fun hx => ?_
      simp only [cells, place_cons, List.mem_cons] at hx ⊢
      refine Or.inr (hx.resolve_left ?_)
      rintro rfl
      simp at hu
  · obtain ⟨h', he, hr', hmem⟩ := split_rep hr hk hreq (by omega) rfl
    obtain ⟨hnode, hst⟩ := hstart hr'
    have hrem : ¬ (n : ℤ) - req - headerSize < remain := by
      simp only [remain]
      omega
    rw [ht]
    refine ⟨h', ?_, hr', hr.keeps (hmem.below h.brk) fun x hx hu _ => split_cells hk hx hu ?_,
      .of_below (hmem.below h.brk) (Rep.mem_mid d.start l _ ⟨req, false⟩) (Or.inl le_rfl),
      hr.keepsOthers (hmem.below h.brk) fun x hx hne => ?_⟩
    · simp only [findLoop, node_ok (hr.mapped hm), ok_bind, hsize, hfree, if_pos hcond, if_neg hrem,
        he, hnode, hst, pure_eq_ok]
    · rintro rfl
      simp at hu
    · rw [mem_cells_append]
      refine (split_rest hk hx fun he => hne (congrArg Prod.fst he)).imp_right fun hx => ?_
      exact List.mem_cons_of_mem _ (List.mem_cons_of_mem _ hx)

end Find

section Malloc

theorem Keeps.last {h' : Heap} {f : Bool} (hr : Rep d h (l ++ [⟨n, f⟩]))
    (hm : OnlyBelow (addresses d.start (l ++ [⟨n, f⟩])) h.brk h.mem h'.mem) {X : ℕ → Prop}
    (hX : f = true ∨ X (d.start + span Block.len l)) :
    Keeps d X h (l ++ [⟨n, f⟩]) h' (l ++ [⟨req, false⟩]) := by
  refine hr.keeps hm fun x hx hu hnX => ⟨hx, ?_⟩
  rw [mem_cells_append] at hx ⊢
  refine hx.imp_right fun hx => ?_
  rw [cells, place_cons, place_nil, List.mem_singleton] at hx
  subst hx
  rcases hX with rfl | hX
  · simp at hu
  · exact absurd hX hnX

/-- The search of `malloc`: a block, a failed `sbrk`, or nothing. -/
theorem findFree_spec (hr : Rep d h bs) (hreq : (Block.mk req false).WellSized) :
    (∃ l bs' h', Placed req bs l bs' ∧
        l.length < bs.length ∧
        d.findFreeAllocationAddress req h =
          .ok (d.start + span Block.len l + headerSize, h') ∧
        Rep d h' bs' ∧ Keeps d (fun _ => False) h bs h' bs' ∧
        Preserves d (d.start + span Block.len l) req h bs h') ∨
      Short d req h bs ∧ d.findFreeAllocationAddress req h = .error .breakFailed ∨
      d.findFreeAllocationAddress req h = .ok (0, h) ∧
        ∃ l b, bs = l ++ [b] ∧ (∀ c ∈ l ++ [b], ¬ Fits req c) ∧ b.free = false := by
  have hfuel : bs.length < h.brk := by
    have hsp := span_eq bs
    have htile := hr.tile
    have hpos := d.start_pos
    simp only [headerSize] at hsp
    omega
  rcases first_fit_or_none req bs with ⟨l, b, r, rfl, hl, hb⟩ | hnone
  · obtain ⟨fuel, hf⟩ : ∃ fuel, h.brk = fuel + 1 + l.length :=
      ⟨h.brk - 1 - l.length, by simp at hfuel; omega⟩
    obtain ⟨h', he, hr', hk⟩ := findLoop_hit hr hb hreq fuel
    have hskip := findLoop_skip (l := []) (m := l) hr hl (fuel + 1)
    simp only [span_nil, Nat.add_zero, List.nil_append, ← hf, he] at hskip
    refine Or.inl ⟨l, _, h', .fit hl hb, by simp, ?_, hr', hk⟩
    simp only [findFreeAllocationAddress, hr.head, hskip, ok_bind, pure_eq_ok]
  · obtain ⟨l, ⟨n, f⟩, rfl⟩ : ∃ l b, bs = l ++ [b] := by
      rcases List.eq_nil_or_concat bs with rfl | ⟨l, b, rfl⟩
      · exact absurd rfl hr.nonempty
      · exact ⟨l, b, List.concat_eq_append⟩
    have hfind : d.findLoop req h.brk d.start h = .ok (none, h) := by
      obtain ⟨c, r, hc⟩ := List.exists_cons_of_ne_nil hr.nonempty
      rw [hc] at hr hnone hfuel
      exact findLoop_none (l := []) hr hnone (by simp at hfuel; omega)
    have hm := Rep.mem_mid d.start l [] ⟨n, f⟩
    obtain ⟨y, hy, hyh⟩ := List.mem_map.mp hr.head_mem
    have hmh := hr.mapped hy
    have hfree := (hr.nodes _ hm).isFreed
    rw [hyh] at hmh
    have heq : d.findFreeAllocationAddress req h =
        if f then d.wilderness req h else .ok (0, h) := by
      simp only [findFreeAllocationAddress, hr.head, hfind, ok_bind, node_ok hmh, hr.links_last.2,
        isFreeWildernessBlock, node_ok (hr.mapped hm), hr.links_last.1, hfree, pure_eq_ok]
      simp
    cases f with
    | false => exact Or.inr (Or.inr ⟨heq, l, _, rfl, hnone, rfl⟩)
    | true =>
      rw [if_pos rfl] at heq
      have hlt : n < req := by
        by_contra hge
        exact hnone ⟨n, true⟩ (by simp) ⟨rfl, by simp only; omega⟩
      have hn : n + 4 ≤ req := by
        have hw := hr.sized ⟨n, true⟩ (by simp)
        simp only [Block.WellSized] at hw hreq
        omega
      by_cases hl : h.brk + (req - n) ≤ d.limit
      · refine Or.inl ⟨l, _, _, .grow hnone rfl, by simp, heq.trans (wilderness_eq hr hn hl rfl),
          extended_rep hr (by omega) hl hreq rfl, Keeps.last hr (extended_below rfl) (Or.inl rfl),
          .of_below (extended_below rfl) hm (Or.inr ?_), hr.keepsOthers (extended_below rfl) fun _ hx _ => hx⟩
        rw [hr.tile]
        simp [Nat.add_assoc]
      · exact Or.inr (Or.inl ⟨.grow hnone (by omega),
          heq.trans (wilderness_fail hr (by omega) (by omega))⟩)

theorem roundUp_wellSized {size : ℕ} (h : size ≠ 0) : (Block.mk (roundUp size) false).WellSized := by
  unfold roundUp
  split <;> simp only [Block.WellSized] <;> omega

theorem le_roundUp (size : ℕ) : size ≤ roundUp size := by
  unfold roundUp
  split <;> omega

/-- The blocks of a heap; there are none before the first allocation. -/
def Represented (d : DataSegment) (h : Heap) (bs : List Block) : Prop :=
  Rep d h bs ∨ bs = [] ∧ Untouched d h

theorem Represented.rep (hr : Represented d h bs) {x : ℕ × Block} (hx : x ∈ cells d.start bs) :
    Rep d h bs := by
  rcases hr with hr | ⟨rfl, -⟩
  · exact hr
  · simp at hx

theorem Represented.brk_eq (hr : Represented d h bs) :
    h.brk = d.start + span Block.len bs := by
  rcases hr with hr | ⟨rfl, hu⟩
  · exact hr.tile
  · exact hu.brk

/-- The result of an allocation of `size` bytes in a heap of the blocks `bs`:
nothing, or a used block where no used block was. -/
structure Allocated (d : DataSegment) (size : ℕ) (h : Heap) (bs : List Block) (p : ℕ) (h' : Heap)
    (bs' : List Block) : Prop where
  rep : Represented d h' bs'
  keeps : Keeps d (fun _ => False) h bs h' bs'
  block : p = 0 ∨ ∃ a n, p = a + headerSize ∧ (a, ⟨n, false⟩) ∈ cells d.start bs' ∧ size ≤ n ∧
    ∀ x ∈ cells d.start bs, x.2.free = false → x.1 ≠ a

theorem append_keeps (hr : Rep d h (l ++ [b])) {size last : ℕ}
    (hlast : d.start + span Block.len l = last) :
    Keeps d (fun _ => False) h (l ++ [b]) (appended d h last size)
      (l ++ [b] ++ [⟨size, false⟩]) := by
  refine hr.keeps (append_below hr hlast) fun x hx _ _ => ?_
  exact ⟨mem_cells_append.mpr (Or.inl hx), mem_cells_append.mpr (Or.inl hx)⟩

/-- The blocks before and after an allocation of `req` bytes, and those in front of the new one. -/
inductive Granted (req : ℕ) : List Block → List Block → List Block → Prop where
  | first : Granted req [] [] [⟨req, false⟩]
  | placed {l bs bs' : List Block} (h : Placed req bs l bs') : Granted req bs l bs'

theorem Granted.cell {a : ℕ} {bs' : List Block} (h : Granted req bs l bs') :
    ∃ n, (a + span Block.len l, ⟨n, false⟩) ∈ cells a bs' ∧ req ≤ n := by
  cases h with
  | first => exact ⟨req, by simp, le_rfl⟩
  | placed h => exact h.cell

theorem Granted.fresh {a : ℕ} {bs' : List Block} (h : Granted req bs l bs') {x : ℕ × Block}
    (hx : x ∈ cells a bs) (hu : x.2.free = false) : x.1 ≠ a + span Block.len l := by
  cases h with
  | first => simp at hx
  | placed h => exact h.fresh hx hu

/-- The test of `malloc` for the value that a failed `sbrk` returns. -/
def Marked (h : Heap) (p : ℕ) : Prop := load h.mem p 4 = 2 ^ 32 - 1

instance (h : Heap) (p : ℕ) : Decidable (Marked h p) :=
  inferInstanceAs (Decidable (load h.mem p 4 = 2 ^ 32 - 1))

theorem readInt_marked {p : ℕ} (hp : d.Mapped h p 4) :
    ∃ v, d.readInt (some p) h = .ok v ∧ (v = -1 ↔ Marked h p) := by
  have hlt := load_lt h.mem p 4
  refine ⟨_, if_pos hp, ?_⟩
  rw [Marked]
  simp only [Int.bmod]
  split_ifs <;> omega

/-- The result `p` and `h'` of an allocation of `req` bytes behind the blocks `l`: a block that was
there before is handed out only if its payload is not marked. -/
structure Grant (d : DataSegment) (req : ℕ) (h : Heap) (bs l : List Block) (p : ℕ) (h' : Heap)
    (bs' : List Block) : Prop where
  granted : Granted req bs l bs'
  rep : Rep d h' bs'
  keeps : Keeps d (fun _ => False) h bs h' bs'
  pointer : p = if l.length < bs.length ∧ Marked h (d.start + span Block.len l + headerSize) then 0
    else d.start + span Block.len l + headerSize

theorem Grant.pointer_eq {p : ℕ} {h' : Heap} {bs' : List Block} (hg : Grant d req h bs l p h' bs')
    (hp : p ≠ 0) : p = d.start + span Block.len l + headerSize := by
  have hpa := hg.pointer
  rwa [if_neg fun hm => hp (hpa.trans (if_pos hm))] at hpa

theorem Grant.allocated {p size : ℕ} {h' : Heap} {bs' : List Block} (hg : Grant d req h bs l p h' bs')
    (hsize : size ≤ req) : Allocated d size h bs p h' bs' := by
  obtain ⟨n, hcell, hn⟩ := hg.granted.cell (a := d.start)
  refine ⟨Or.inl hg.rep, hg.keeps, ?_⟩
  rw [hg.pointer]
  split_ifs with hm
  · exact Or.inl rfl
  · exact Or.inr ⟨_, n, rfl, hcell, hsize.trans hn, fun x hx hu => hg.granted.fresh hx hu⟩

theorem marked_of_keepsBytes {a : ℕ} {h' : Heap} (hk : KeepsBytes h a req h') (hreq : 4 ≤ req)
    (hb : a + headerSize + 4 ≤ h.brk) : Marked h' (a + headerSize) ↔ Marked h (a + headerSize) := by
  have hload : load h'.mem (a + headerSize) 4 = load h.mem (a + headerSize) 4 :=
    load_congr fun i hl hlt => hk i hl (by omega) (by omega)
  rw [Marked, Marked, hload]

theorem malloc_rep (hr : Rep d h bs) {size : ℕ} (hsize : ¬ (size > maxSize ∨ size = 0)) :
    Short d (roundUp size) h bs ∧ d.malloc size h = .error .breakFailed ∨
      ∃ l p h' bs', d.malloc size h = .ok (p, h') ∧ Grant d (roundUp size) h bs l p h' bs' ∧
        Preserves d (d.start + span Block.len l) (roundUp size) h bs h' := by
  have hreq := roundUp_wellSized fun h0 => hsize (Or.inr h0)
  have hmalloc : d.malloc size h =
      d.findFreeAllocationAddress (roundUp size) h >>= fun r =>
        if r.1 ≠ 0 then do
          if (← d.readInt (some r.1) r.2) = -1 then return (0, r.2) else return r
        else d.appendBlock (roundUp size) r.2 := by
    rw [malloc, if_neg hsize]
    simp only [hr.first, Bool.false_eq_true, if_false]
  rcases findFree_spec hr hreq with ⟨l, bs', h', hpl, hlen, he, hr', hk, hpres⟩ | ⟨hs, he⟩ |
    ⟨he, l, b, rfl, hnone, hb⟩
  · obtain ⟨n, hcell, hn⟩ := hpl.cell (a := d.start)
    have hw := hreq.2
    have hpos := hreq.1
    obtain ⟨a, ha⟩ : ∃ a, d.start + span Block.len l = a := ⟨_, rfl⟩
    have hbound : a + headerSize + 4 ≤ h.brk := by
      obtain ⟨c, r, rfl⟩ := hpl.exists_cons hlen
      have hc := hr.sized c (by simp)
      have htile := hr.tile
      simp only [Block.WellSized, span_append, span_cons, Block.len] at hc htile
      omega
    have hp : a + headerSize ≠ 0 := by simp [headerSize]
    have hmap : d.Mapped h' (a + headerSize) 4 := by
      have hx := (mem_place_bounds hcell).2
      have htile := hr'.tile
      simp only [Block.len] at hx
      simp only at hw hpos
      exact ⟨by omega, by omega⟩
    obtain ⟨v, hv, hvm⟩ := readInt_marked hmap
    rw [ha] at he hpres
    have hmark := marked_of_keepsBytes hpres.bytes (by simp only at hw hpos; omega) hbound
    refine Or.inr ⟨l, _, h', bs', ?_, ⟨.placed hpl, hr', hk, rfl⟩, ha ▸ hpres⟩
    rw [hmalloc, he, ok_bind]
    simp only [if_pos hp, hv, ok_bind, hvm, hmark, hlen, true_and, ha, pure_eq_ok]
    split_ifs <;> rfl
  · refine Or.inl ⟨hs, ?_⟩
    rw [hmalloc, he]
    rfl
  · have heq : d.malloc size h = d.appendBlock (roundUp size) h := by
      rw [hmalloc, he, ok_bind]
      simp
    by_cases hl : h.brk + (roundUp size + headerSize) ≤ d.limit
    · refine Or.inr ⟨_, _, _, _, heq.trans (appendBlock_eq hr hl rfl), ⟨.placed (.append hnone hb),
        append_rep hr hl hreq rfl, append_keeps hr rfl, ?_⟩, ?_,
        hr.keepsOthers (append_below hr rfl) fun _ hx _ => mem_cells_append.mpr (Or.inl hx)⟩
      · rw [if_neg (by simp), hr.tile]
      · intro i hi _ hib
        rw [← hr.tile] at hi
        omega
    · obtain ⟨n, f⟩ := b
      obtain rfl : f = false := hb
      exact Or.inl ⟨.append hnone (by omega), heq.trans (appendBlock_fail (by omega))⟩

theorem malloc_untouched (hu : Untouched d h) {size : ℕ} (hsize : ¬ (size > maxSize ∨ size = 0)) :
    Short d (roundUp size) h [] ∧ d.malloc size h = .error .breakFailed ∨
      ∃ l p h' bs', d.malloc size h = .ok (p, h') ∧ Grant d (roundUp size) h [] l p h' bs' ∧
        Preserves d (d.start + span Block.len l) (roundUp size) h [] h' := by
  have hreq := roundUp_wellSized fun h0 => hsize (Or.inr h0)
  have heq : d.malloc size h = d.firstAllocation (roundUp size) h := by
    simp only [malloc, if_neg hsize, hu.firstAlloc, if_true]
  by_cases hl : d.start + (roundUp size + headerSize) ≤ d.limit
  · refine Or.inr ⟨_, _, _, _, heq.trans (firstAllocation_eq hu hl), ⟨.first, first_rep hu hl hreq,
      fun x hx => absurd hx (by simp), by simp⟩, ?_, fun x hx => absurd hx (by simp)⟩
    intro i hi _ hib
    rw [hu.brk] at hib
    simp only [span_nil] at hi
    omega
  · refine Or.inl ⟨.first ?_, heq.trans (firstAllocation_fail hu (by omega))⟩
    rw [hu.brk]
    omega

/-- What `malloc` does for a size that it accepts. -/
theorem malloc_grant (hr : Represented d h bs) {size : ℕ} (hsize : ¬ (size > maxSize ∨ size = 0)) :
    Short d (roundUp size) h bs ∧ d.malloc size h = .error .breakFailed ∨
      ∃ l p h' bs', d.malloc size h = .ok (p, h') ∧ Grant d (roundUp size) h bs l p h' bs' ∧
        Preserves d (d.start + span Block.len l) (roundUp size) h bs h' := by
  rcases hr with hr | ⟨rfl, hu⟩
  · exact malloc_rep hr hsize
  · exact malloc_untouched hu hsize

theorem malloc_refuse {size : ℕ} (hsize : size > maxSize ∨ size = 0) :
    d.malloc size h = .ok (0, h) := by
  simp only [malloc, if_pos hsize, pure_eq_ok]

theorem malloc_spec (hr : Represented d h bs) (size : ℕ) :
    d.malloc size h = .error .breakFailed ∨
      ∃ p h' bs', d.malloc size h = .ok (p, h') ∧ Allocated d size h bs p h' bs' := by
  by_cases hsize : size > maxSize ∨ size = 0
  · exact Or.inr ⟨0, h, bs, malloc_refuse hsize, hr, .refl _ _ _ _, Or.inl rfl⟩
  · refine (malloc_grant hr hsize).imp And.right ?_
    rintro ⟨l, p, h', bs', he, hg, -⟩
    exact ⟨p, h', bs', he, hg.allocated (le_roundUp size)⟩

end Malloc

end DataSegment

end OperationSystems.Malloc3
