import OperationSystems.Malloc3.FirstFit

/-!
# `free`, `calloc` and `realloc`

Each call is given a pointer to the payload of a used block, as a client that
holds it does. `realloc` keeps the block where it is in three of its branches
and moves it in the last one.
-/

namespace OperationSystems.Malloc3
open ByteMemory CircularList Tiling

namespace DataSegment
variable {d : DataSegment} {h : Heap} {l r bs : List Block} {n size : ℕ}

theorem free_rep (hr : Rep d h (l ++ ⟨n, false⟩ :: r)) :
    ∃ h', d.free (d.start + span Block.len l + headerSize) h = .ok h' ∧
      Rep d h' (coalesce l n r) ∧
      Keeps d (· = d.start + span Block.len l) h (l ++ ⟨n, false⟩ :: r) h' (coalesce l n r) := by
  obtain ⟨h₁, he₁, hr₁, hmem₁⟩ := setFree_rep hr
  obtain ⟨h₂, he₂, hr₂, hmem₂⟩ := checkIfFreeAndConnect_rep hr₁ rfl
  have hm := Rep.mem_mid d.start l r ⟨n, false⟩
  have hne : d.start + span Block.len l + headerSize ≠ 0 := by simp [headerSize]
  have hfree := (hr.nodes _ hm).isFreed
  simp only at hfree
  have hk₁ : Keeps d (· = d.start + span Block.len l) h (l ++ ⟨n, false⟩ :: r) h₁
      (l ++ ⟨n, true⟩ :: r) := by
    refine hr.keeps (hmem₁.below h.brk) fun x hx _ hX => ⟨hx, ?_⟩
    rw [mem_cells_append] at hx ⊢
    refine hx.imp_right fun hx => ?_
    simp only [cells, place_cons, List.mem_cons] at hx ⊢
    refine Or.inr (hx.resolve_left ?_)
    rintro rfl
    exact hX rfl
  have hk₂ : Keeps d (fun _ => False) h₁ (l ++ ⟨n, true⟩ :: r) h₂ (coalesce l n r) :=
    hr₁.keeps (hmem₂.below h₁.brk) fun x hx hu _ => ⟨hx, coalesce_cells hx hu⟩
  refine ⟨h₂, ?_, hr₂, hk₁.trans (hk₂.mono fun _ => False.elim)⟩
  simp only [free, if_neg hne, Nat.add_sub_cancel, node_ok (hr.mapped hm), ok_bind, hfree,
    Bool.false_eq_true, if_false, he₁, he₂]

theorem splitLarge_rep (hr : Rep d h (l ++ ⟨n, false⟩ :: r))
    (hsize : (Block.mk size false).WellSized) :
    ∃ h', d.splitLarge (d.start + span Block.len l) size h = .ok h' ∧
      Rep d h' (l ++ take size ⟨n, false⟩ r) ∧
      Keeps d (· = d.start + span Block.len l) h (l ++ ⟨n, false⟩ :: r) h'
        (l ++ take size ⟨n, false⟩ r) ∧
      KeepsBytes h (d.start + span Block.len l) size h' := by
  have hm := Rep.mem_mid d.start l r ⟨n, false⟩
  have hsz := (hr.nodes _ hm).size
  simp only at hsz
  rcases @take_used_or_free size n false r with ⟨hsmall, ht⟩ | ⟨k, hk, hkr, ht⟩
  · have hrem : ¬ (n : ℤ) - size - headerSize ≥ remain := by
      simp only [remain]
      omega
    rw [ht]
    refine ⟨h, ?_, hr, .refl _ _ _ _, .refl _ _ _⟩
    simp only [splitLarge, node_ok (hr.mapped hm), ok_bind, hsz, if_neg hrem, pure_eq_ok]
  · have hrem : (n : ℤ) - size - headerSize ≥ remain := by
      simp only [remain]
      omega
    obtain ⟨h', he, hr', hmem⟩ := split_rep hr hk hsize (by omega) rfl
    rw [ht]
    refine ⟨h', ?_, hr', hr.keeps (hmem.below h.brk) fun x hx hu hX => split_cells hk hx hu ?_,
      .of_below (hmem.below h.brk) (Rep.mem_mid d.start l _ ⟨size, false⟩) (Or.inl le_rfl)⟩
    · simp only [splitLarge, node_ok (hr.mapped hm), ok_bind, hsz, if_pos hrem, he]
    · rintro rfl
      exact hX rfl

theorem take_cell (a : ℕ) (l r : List Block) (hn : size ≤ n) :
    ∃ k, (a + span Block.len l, ⟨k, false⟩) ∈ cells a (l ++ take size ⟨n, false⟩ r) ∧ size ≤ k := by
  unfold take
  split
  · exact ⟨n, Rep.mem_mid _ _ _ _, hn⟩
  · exact ⟨size, Rep.mem_mid _ _ _ _, le_rfl⟩

/-- The result of resizing the block at `a`: nothing, the same block, or a new
block with the old one free. -/
structure Resized (d : DataSegment) (size a : ℕ) (h : Heap) (bs : List Block) (p : ℕ) (h' : Heap)
    (bs' : List Block) : Prop where
  rep : Rep d h' bs'
  keeps : Keeps d (· = a) h bs h' bs'
  block : p = 0 ∧ Keeps d (fun _ => False) h bs h' bs' ∨
    ∃ a' n, p = a' + headerSize ∧ (a', ⟨n, false⟩) ∈ cells d.start bs' ∧ size ≤ n ∧
      (a' = a ∨ ∀ x ∈ cells d.start bs, x.2.free = false → x.1 ≠ a')

theorem payload_bounds (a : ℕ) {i : ℕ} (hi : i < n) {f : Bool} :
    a + headerSize ≤ a + headerSize + i ∧ a + headerSize + i < a + (Block.mk n f).len := by
  simp only [Block.len]
  omega

/-- A byte range inside a payload is mapped. -/
theorem mapped_payload (hr : Rep d h bs) {a k : ℕ} (hx : (a, ⟨n, false⟩) ∈ cells d.start bs)
    (hk : k ≤ n) : d.Mapped h (a + headerSize) k := by
  have hb := mem_place_bounds hx
  have htile := hr.tile
  simp only [Block.len] at hb
  exact ⟨by omega, by omega⟩

theorem fill_payload (m : Memory) {a k : ℕ} (hk : k ≤ n) (c : UInt8) :
    ∀ i, i < a + headerSize ∨ a + (Block.mk n false).len ≤ i →
      fill m (a + headerSize) k c i = m i := by
  intro i hi
  refine fill_outside m c ?_
  simp only [Block.len] at hi
  omega

theorem copy_payload (m : Memory) {a src k : ℕ} (hk : k ≤ n) :
    ∀ i, i < a + headerSize ∨ a + (Block.mk n false).len ≤ i →
      copy m (a + headerSize) src k i = m i := by
  intro i hi
  refine copy_outside m ?_
  simp only [Block.len] at hi
  omega

theorem node_cell (hr : Rep d h bs) {x : ℕ × Block} (hx : x ∈ cells d.start bs) :
    d.node (x.1 + headerSize - headerSize) h = .ok (readNode h.mem x.1) := by
  rw [Nat.add_sub_cancel, node_ok (hr.mapped hx) rfl]

/-- What `calloc` does for a product that `malloc` accepts. -/
theorem calloc_grant (hr : Represented d h bs) {num size k : ℕ} (hk : num * size % 2 ^ 32 = k)
    (hsize : ¬ (k > maxSize ∨ k = 0)) :
    Short d (roundUp k) h bs ∧ d.calloc num size h = .error .breakFailed ∨
      ∃ l p h' bs', d.calloc num size h = .ok (p, h') ∧ Grant d (roundUp k) h bs l p h' bs' ∧
        (p ≠ 0 → ∀ i < k, h'.mem (p + i) = 0) := by
  rcases malloc_grant hr hsize with ⟨hs, he⟩ | ⟨l, p, h₁, bs₁, he, hg, -⟩
  · refine Or.inl ⟨hs, ?_⟩
    simp only [calloc, hk, he]
    rfl
  · by_cases hp : p = 0
    · refine Or.inr ⟨l, p, h₁, bs₁, ?_, hg, fun hne => absurd hp hne⟩
      simp only [calloc, hk, he, ok_bind, if_pos hp, pure_eq_ok]
      rw [hp]
    · obtain ⟨n, hcell, hn⟩ := hg.granted.cell (a := d.start)
      have hpa := hg.pointer_eq hp
      obtain ⟨a, ha⟩ : ∃ a, d.start + span Block.len l = a := ⟨_, rfl⟩
      rw [ha] at hcell hpa
      have hr₁ := hg.rep
      have hst := (hr₁.nodes _ hcell).start
      have hkn : k ≤ n := (le_roundUp k).trans hn
      have hfill := fill_payload h₁.mem (a := a) hkn 0
      refine Or.inr ⟨l, p, { h₁ with mem := fill h₁.mem (a + headerSize) k 0 }, bs₁, ?_,
        ⟨hg.granted, hr₁.payload hcell hfill, ?_, hg.pointer⟩, ?_⟩
      · simp only [calloc, hk, he, ok_bind, if_neg hp]
        simp only [hpa, node_cell hr₁ hcell, ok_bind, hst, memset,
          if_pos (mapped_payload hr₁ hcell hkn), pure_eq_ok]
      · intro x hx hu hX
        obtain ⟨hx₁, hm₁⟩ := hg.keeps x hx hu hX
        obtain ⟨-, hm₂⟩ := Rep.keeps_payload hcell hfill x hx₁ hu (ha ▸ hg.granted.fresh hx hu)
        exact ⟨hx₁, fun i hl hlt => (hm₂ i hl hlt).trans (hm₁ i hl hlt)⟩
      · intro _ i hi
        rw [hpa]
        exact fill_inside h₁.mem 0 (by omega) (by omega)

theorem calloc_refuse {num size : ℕ}
    (hsize : num * size % 2 ^ 32 > maxSize ∨ num * size % 2 ^ 32 = 0) :
    d.calloc num size h = .ok (0, h) := by
  simp only [calloc, malloc_refuse hsize, ok_bind, if_true, pure_eq_ok]

theorem calloc_spec (hr : Represented d h bs) (num size : ℕ) :
    d.calloc num size h = .error .breakFailed ∨
      ∃ p h' bs', d.calloc num size h = .ok (p, h') ∧
        Allocated d (num * size % 2 ^ 32) h bs p h' bs' ∧
        (p ≠ 0 → ∀ i < num * size % 2 ^ 32, h'.mem (p + i) = 0) := by
  by_cases hsize : num * size % 2 ^ 32 > maxSize ∨ num * size % 2 ^ 32 = 0
  · exact Or.inr ⟨0, h, bs, calloc_refuse hsize, ⟨hr, .refl _ _ _ _, Or.inl rfl⟩, by simp⟩
  · refine (calloc_grant hr rfl hsize).imp And.right ?_
    rintro ⟨l, p, h', bs', he, hg, hz⟩
    exact ⟨p, h', bs', he, hg.allocated (le_roundUp _), hz⟩

/-- The used block at `a` was freed. -/
structure Freed (d : DataSegment) (a n : ℕ) (bs : List Block) (h' : Heap) (bs' : List Block) :
    Prop where
  rep : Rep d h' bs'
  blocks : ∃ l r, bs = l ++ ⟨n, false⟩ :: r ∧ a = d.start + span Block.len l ∧ bs' = coalesce l n r

/-- A block that moves is granted in the old list and freed in the new one. -/
theorem moveBlock_grant (hr : Rep d h bs) {a : ℕ} (ha : (a, ⟨n, false⟩) ∈ cells d.start bs)
    (hn : n ≤ size) (hsize : ¬ (size > maxSize ∨ size = 0)) :
    Short d (roundUp size) h bs ∧ d.moveBlock (a + headerSize) size h = .error .breakFailed ∨
      ∃ l p h₁ bs₁, Grant d (roundUp size) h bs l p h₁ bs₁ ∧
        (p = 0 ∧ d.moveBlock (a + headerSize) size h = .ok (0, h₁) ∨
          p ≠ 0 ∧ ∃ h' bs', d.moveBlock (a + headerSize) size h = .ok (p, h') ∧
            Freed d a n bs₁ h' bs' ∧ Keeps d (· = a) h bs h' bs' ∧
            (∀ i < n, h'.mem (p + i) = h.mem (a + headerSize + i)) ∧
            ∃ k, (d.start + span Block.len l, ⟨k, false⟩) ∈ cells d.start bs' ∧ size ≤ k) := by
  rcases malloc_grant (Or.inl hr) hsize with ⟨hs, he⟩ | ⟨l, p, h₁, bs₁, he, hg, -⟩
  · refine Or.inl ⟨hs, ?_⟩
    simp only [moveBlock, he]
    rfl
  refine Or.inr ⟨l, p, h₁, bs₁, hg, ?_⟩
  by_cases hp : p = 0
  · refine Or.inl ⟨hp, ?_⟩
    simp only [moveBlock, he, ok_bind, if_pos hp, pure_eq_ok]
  · refine Or.inr ⟨hp, ?_⟩
    have hpa := hg.pointer_eq hp
    obtain ⟨n', hx, hn'⟩ := hg.granted.cell (a := d.start)
    have hfresh : ∀ x ∈ cells d.start bs, x.2.free = false → x.1 ≠ d.start + span Block.len l :=
      fun x hx hu => hg.granted.fresh hx hu
    obtain ⟨a', ha'⟩ : ∃ a', d.start + span Block.len l = a' := ⟨_, rfl⟩
    rw [ha'] at hpa hx hfresh ⊢
    obtain ⟨ha₁, hold₁⟩ := hg.keeps _ ha rfl (by simp)
    have hr₁ := hg.rep
    have hsn : size ≤ n' := (le_roundUp size).trans hn'
    have haa : a ≠ a' := hfresh _ ha rfl
    have hst := (hr₁.nodes _ hx).start
    have hold := hr₁.nodes _ ha₁
    have holdst := hold.start
    have holdsz := hold.size
    simp only at hst holdst holdsz
    -- the copy goes into the new payload, then the old block is freed
    have hcopy := @copy_payload n' h₁.mem a' (a + headerSize) n (hn.trans hsn)
    have hr₂ := hr₁.payload hx hcopy
    have hk₂ := Rep.keeps_payload hx hcopy
    obtain ⟨l₁, r₁, hbs, hal⟩ := mem_place_split ha₁
    simp only at hbs hal
    subst hbs
    obtain ⟨h₃, he₃, hr₃, hk₃⟩ := free_rep hr₂
    rw [← hal] at he₃ hk₃
    obtain ⟨hx₃, hnew₃⟩ := hk₃ _ hx rfl haa.symm
    have hst₃ := (hr₃.nodes _ hx₃).start
    refine ⟨h₃, _, ?_, ⟨hr₃, l₁, r₁, rfl, hal, rfl⟩, ?_, ?_, n', hx₃, hsn⟩
    · have hmapped : d.Mapped h₁ (a' + headerSize) n ∧ d.Mapped h₁ (a + headerSize) n :=
        ⟨mapped_payload hr₁ hx (hn.trans hsn), mapped_payload hr₁ ha₁ le_rfl⟩
      simp only [moveBlock, he, ok_bind, if_neg hp]
      simp only [hpa, node_cell hr₁ hx, node_cell hr₁ ha₁, ok_bind, hst, holdst, holdsz, memcpy,
        Int.toNat_natCast, if_pos hmapped, he₃, node_cell hr₃ hx₃, hst₃, pure_eq_ok]
    · intro x hx' hu hX
      obtain ⟨hx₁, hm₁⟩ := hg.keeps x hx' hu (by simp)
      obtain ⟨hx₂, hm₂⟩ := hk₂ x hx₁ hu (hfresh x hx' hu)
      obtain ⟨hx₃, hm₃⟩ := hk₃ x hx₂ hu hX
      exact ⟨hx₃, fun i hl hlt => ((hm₃ i hl hlt).trans (hm₂ i hl hlt)).trans (hm₁ i hl hlt)⟩
    · intro i hi
      obtain ⟨hl, hlt⟩ := payload_bounds a hi
      obtain ⟨hl', hlt'⟩ := payload_bounds a' (hi.trans_le (hn.trans hsn))
      rw [hpa, hnew₃ _ hl' hlt']
      exact (copy_inside h₁.mem hi).trans (hold₁ _ hl hlt)

section Realloc
variable {m : ℕ} {g : Bool}

theorem last_ne (hr : Rep d h (l ++ ⟨n, false⟩ :: ⟨m, g⟩ :: r)) :
    (readNode h.mem d.start).prev ≠ d.start + span Block.len l := by
  obtain ⟨t, b, ht⟩ : ∃ t b, (⟨m, g⟩ : Block) :: r = t ++ [b] := by
    rcases List.eq_nil_or_concat ((⟨m, g⟩ : Block) :: r) with h0 | ⟨t, b, h0⟩
    · simp at h0
    · exact ⟨t, b, by rw [h0, List.concat_eq_append]⟩
  rw [ht, ← List.cons_append, ← List.append_assoc] at hr
  have hpos := (Block.mk n false).len_pos
  rw [hr.links_last.2, span_append, span_cons]
  omega

/-- Raising a flag and taking it back restores the memory. -/
theorem putFreed_undo {mem : Memory} {a : ℕ} (hf : (readNode mem a).flag = 0) :
    putFreed (putFreed mem a true) a false = mem := by
  have hz : mem a = 0 := by
    have h0 : (mem a).toNat = 0 := by simpa [readNode, load] using hf
    exact UInt8.toNat_inj.mp h0
  funext i
  simp only [putFreed, store]
  split_ifs with hi
  · have hia : i = a := by omega
    subst hia
    simp [hz]
  · rfl

/-- The branch of `realloc` that finds room in the block itself. -/
theorem realloc_shrink (hr : Rep d h (l ++ ⟨n, false⟩ :: r)) (hsize : ¬ (size = 0 ∨ size > maxSize))
    (hn : roundUp size ≤ n) {a : ℕ} (ha : d.start + span Block.len l = a) :
    d.realloc (a + headerSize) size h =
      (do return (a + headerSize, ← d.splitLarge a (roundUp size) h)) := by
  have hm := Rep.mem_mid d.start l r ⟨n, false⟩
  have hne : a + headerSize ≠ 0 := by simp [headerSize]
  have hsz := (hr.nodes _ hm).size
  have hcond : (roundUp size : ℤ) ≤ n := by exact_mod_cast hn
  simp only [ha] at hm hsz
  have hnode := node_cell hr hm
  simp only [Nat.add_sub_cancel] at hnode
  rw [realloc, if_neg hne, if_neg hsize]
  simp only [hnode, ok_bind, hsz, if_pos hcond, Nat.add_sub_cancel]

theorem realloc_connect (hr : Rep d h (l ++ ⟨n, false⟩ :: ⟨m, true⟩ :: r))
    (hsize : ¬ (size = 0 ∨ size > maxSize)) (hn : n < roundUp size)
    (hfit : roundUp size ≤ n + m + headerSize) {a : ℕ} (ha : d.start + span Block.len l = a) :
    d.realloc (a + headerSize) size h =
      (do
        let h ← d.connect a (a + (headerSize + n)) h
        return (a + headerSize, ← d.splitLarge a (roundUp size) h)) := by
  obtain ⟨hm, hc⟩ := pair_mem d.start l r ⟨n, false⟩ ⟨m, true⟩
  have hne : a + headerSize ≠ 0 := by simp [headerSize]
  have hsz := (hr.nodes _ hm).size
  have hdc := hr.nodes _ hc
  have hszc := hdc.size
  have hfree := hdc.flagged
  have hnext := hr.links.1
  have hmc := hr.mapped hc
  have hcond : ¬ (roundUp size : ℤ) ≤ n := by omega
  have hfits : (roundUp size : ℤ) ≤ n + m + headerSize := by exact_mod_cast hfit
  have hup : a + (headerSize + n) ≠ d.start := by
    have hpos := (Block.mk n false).len_pos
    simp only [Block.len] at hpos
    omega
  simp only [ha, Block.len] at hm hsz hszc hfree hnext hmc
  have hnode := node_cell hr hm
  simp only [Nat.add_sub_cancel] at hnode
  rw [realloc, if_neg hne, if_neg hsize]
  simp only [hnode, ok_bind, hsz, if_neg hcond, Nat.add_sub_cancel, hnext, hr.head, isFreedNot,
    if_neg hup, node_ok hmc, hfree, if_true, hszc, hfits, decide_true, pure_eq_ok]

theorem realloc_move (hr : Rep d h (l ++ ⟨n, false⟩ :: ⟨m, g⟩ :: r))
    (hsize : ¬ (size = 0 ∨ size > maxSize)) (hn : n < roundUp size)
    (hfit : ¬ (g = true ∧ roundUp size ≤ n + m + headerSize)) {a : ℕ}
    (ha : d.start + span Block.len l = a) :
    d.realloc (a + headerSize) size h = d.moveBlock (a + headerSize) (roundUp size) h := by
  obtain ⟨hm, hc⟩ := pair_mem d.start l r ⟨n, false⟩ ⟨m, g⟩
  obtain ⟨y, hy, hyh⟩ := List.mem_map.mp hr.head_mem
  have hmh := hr.mapped hy
  have hne : a + headerSize ≠ 0 := by simp [headerSize]
  have hsz := (hr.nodes _ hm).size
  have hdc := hr.nodes _ hc
  have hszc := hdc.size
  have hfree := hdc.flagged
  have hnext := hr.links.1
  have hmc := hr.mapped hc
  have hlast := last_ne hr
  have hcond : ¬ (roundUp size : ℤ) ≤ n := by omega
  have hup : a + (headerSize + n) ≠ d.start := by
    have hpos := (Block.mk n false).len_pos
    simp only [Block.len] at hpos
    omega
  simp only [ha, Block.len, hyh] at hm hsz hszc hfree hnext hmc hlast hmh
  have hnode := node_cell hr hm
  simp only [Nat.add_sub_cancel] at hnode
  rw [realloc, if_neg hne, if_neg hsize]
  cases g with
  | false =>
    simp only [hnode, ok_bind, hsz, if_neg hcond, Nat.add_sub_cancel, hnext, hr.head, isFreedNot,
      if_neg hup, node_ok hmc, hfree, Bool.false_eq_true, if_false, pure_eq_ok, node_ok hmh, hlast]
  | true =>
    have hfits : ¬ (roundUp size : ℤ) ≤ n + m + headerSize := by
      intro hle
      exact hfit ⟨rfl, by exact_mod_cast hle⟩
    simp only [hnode, ok_bind, hsz, if_neg hcond, Nat.add_sub_cancel, hnext, hr.head, isFreedNot,
      if_neg hup, node_ok hmc, hfree, if_true, hszc, hfits, decide_false, Bool.false_eq_true,
      if_false, pure_eq_ok, node_ok hmh, hlast]

/-- At the end of the heap `realloc` calls `wilderness`: the flag it raises for
the test is down again by then, and no counter has moved. -/
theorem realloc_last (hr : Rep d h (l ++ [⟨n, false⟩])) (hsize : ¬ (size = 0 ∨ size > maxSize))
    (hn : n < roundUp size) {a : ℕ} (ha : d.start + span Block.len l = a) :
    d.realloc (a + headerSize) size h = d.wilderness (roundUp size) h := by
  have hm := Rep.mem_mid d.start l [] ⟨n, false⟩
  obtain ⟨y, hy, hyh⟩ := List.mem_map.mp hr.head_mem
  have hmh := hr.mapped hy
  have hma := hr.mapped hm
  have hap := cells_apart hm hy
  have hne : a + headerSize ≠ 0 := by simp [headerSize]
  have hsz := (hr.nodes _ hm).size
  have hflag := (hr.nodes _ hm).flag
  have hfree := (hr.nodes _ hm).flagged
  obtain ⟨hnext, hprev⟩ := hr.links_last
  have hcond : ¬ (roundUp size : ℤ) ≤ n := by omega
  simp only [ha, hyh] at hm hma hsz hflag hfree hnext hprev hmh hap
  have hnode := node_cell hr hm
  simp only [Nat.add_sub_cancel] at hnode
  have hprev' : (readNode (putFreed h.mem a true) d.start).prev = a := by
    rw [readNode_putFreed_of _ hap]
    split_ifs <;> exact hprev
  have hnext' : (readNode (putFreed h.mem a true) a).next = d.start := by
    rw [readNode_putFreed]
    exact hnext
  have hraised : (readNode (putFreed h.mem a true) a).isFreed = true :=
    AllocInfoNode.isFreed_eq (by rw [readNode_putFreed])
  have hundo := putFreed_undo hflag
  rw [realloc, if_neg hne, if_neg hsize]
  simp only [hnode, ok_bind, hsz, if_neg hcond, Nat.add_sub_cancel, hr.head, isFreedNot, if_true,
    Bool.false_eq_true, if_false, pure_eq_ok, node_ok hmh, hprev, hfree, writeFreed,
    write_ok hma, setFree, node_ok hma, hraised, hprev', isFreeWildernessBlock, hnext, hnext',
    hundo]
  simp

theorem connect_keeps {h' : Heap} (hr : Rep d h (l ++ ⟨n, false⟩ :: ⟨m, true⟩ :: r))
    (hm : OnlyHeaders (addresses d.start (l ++ ⟨n, false⟩ :: ⟨m, true⟩ :: r)) h.mem h'.mem) :
    Keeps d (· = d.start + span Block.len l) h (l ++ ⟨n, false⟩ :: ⟨m, true⟩ :: r) h'
      (l ++ ⟨n + (m + headerSize), false⟩ :: r) := by
  refine hr.keeps (hm.below h.brk) fun x hx hu hX => ⟨hx, ?_⟩
  rw [mem_cells_append] at hx ⊢
  refine hx.imp_right fun hx => ?_
  have hab := absorb_cells hx hu
  refine hab.resolve_right ?_
  rintro rfl
  exact hX rfl

/-- The branches of `realloc` that leave the block where it is. -/
inductive InPlace (req n : ℕ) (l : List Block) : List Block → List Block → Prop where
  | within {r : List Block} (hn : req ≤ n) : InPlace req n l r (l ++ take req ⟨n, false⟩ r)
  | forward {m : ℕ} {r : List Block} (hn : n < req) (hfit : req ≤ n + m + headerSize) :
      InPlace req n l (⟨m, true⟩ :: r) (l ++ take req ⟨n + (m + headerSize), false⟩ r)
  | last (hn : n < req) : InPlace req n l [] (l ++ [⟨req, false⟩])

/-- The branch that moves it. -/
def Moves (req n : ℕ) (r : List Block) : Prop :=
  n < req ∧ ∃ m g r', r = ⟨m, g⟩ :: r' ∧ ¬ (g = true ∧ req ≤ n + m + headerSize)

theorem inPlace_or_moves (req n : ℕ) (l r : List Block) :
    (∃ bs', InPlace req n l r bs') ∨ Moves req n r := by
  by_cases hn : req ≤ n
  · exact Or.inl ⟨_, .within hn⟩
  rcases r with _ | ⟨⟨m, g⟩, r⟩
  · exact Or.inl ⟨_, .last (by omega)⟩
  by_cases hfit : g = true ∧ req ≤ n + m + headerSize
  · obtain ⟨rfl, hfit⟩ := hfit
    exact Or.inl ⟨_, .forward (by omega) hfit⟩
  · exact Or.inr ⟨by omega, m, g, r, rfl, hfit⟩

theorem InPlace.cell {req : ℕ} {bs' : List Block} (hp : InPlace req n l r bs') (a : ℕ) :
    ∃ k, (a + span Block.len l, ⟨k, false⟩) ∈ cells a bs' ∧ req ≤ k := by
  cases hp with
  | within hn => exact take_cell a l r hn
  | forward hn hfit => exact take_cell a l _ (by omega)
  | last hn => exact ⟨req, Rep.mem_mid _ _ _ _, le_rfl⟩

theorem realloc_inPlace (hr : Rep d h (l ++ ⟨n, false⟩ :: r)) (hsize : ¬ (size = 0 ∨ size > maxSize))
    {bs' : List Block} (hp : InPlace (roundUp size) n l r bs') {a : ℕ}
    (ha : d.start + span Block.len l = a) :
    (r = [] ∧ n < roundUp size ∧ d.limit < h.brk + (roundUp size - n)) ∧
        d.realloc (a + headerSize) size h = .error .breakFailed ∨
      ∃ h', d.realloc (a + headerSize) size h = .ok (a + headerSize, h') ∧ Rep d h' bs' ∧
        Keeps d (· = a) h (l ++ ⟨n, false⟩ :: r) h' bs' ∧ KeepsBytes h a (min n (roundUp size)) h' := by
  have hreq := roundUp_wellSized fun h0 => hsize (Or.inl h0)
  have hm := Rep.mem_mid d.start l r ⟨n, false⟩
  subst ha
  cases hp with
  | within hn =>
    obtain ⟨h', he, hr', hk, hb⟩ := splitLarge_rep hr hreq
    refine Or.inr ⟨h', ?_, hr', hk, by rwa [min_eq_right hn]⟩
    rw [realloc_shrink hr hsize hn rfl, he]
    rfl
  | @forward m r hn hfit =>
    obtain ⟨h₁, he₁, hr₁, hmem₁⟩ := connect_rep hr
    obtain ⟨h', he, hr', hk, hb⟩ := splitLarge_rep hr₁ hreq
    have hb₁ := KeepsBytes.of_below (hmem₁.below h.brk) hm (Or.inl le_rfl)
    have hbrk : h₁.brk = h.brk := by
      rw [hr₁.tile, hr.tile]
      simp only [span_append, span_cons, merged_len, Nat.add_assoc]
    refine Or.inr ⟨h', ?_, hr', (connect_keeps hr hmem₁).trans hk,
      hb₁.trans hb hbrk.ge (min_le_left _ _) (min_le_right _ _)⟩
    rw [realloc_connect hr hsize hn hfit rfl, he₁, ok_bind, he]
    rfl
  | last hn =>
    have hw := hr.sized ⟨n, false⟩ (by simp)
    have hn' : n + 4 ≤ roundUp size := by
      simp only [Block.WellSized] at hw hreq
      omega
    rw [realloc_last hr hsize hn rfl]
    by_cases hl : h.brk + (roundUp size - n) ≤ d.limit
    · exact Or.inr ⟨_, wilderness_eq hr hn' hl rfl, extended_rep hr (by omega) hl hreq rfl,
        Keeps.last hr (extended_below rfl) (Or.inr rfl),
        .of_below (extended_below rfl) hm (Or.inl (min_le_left _ _))⟩
    · exact Or.inl ⟨⟨rfl, hn, by omega⟩, wilderness_fail hr (by omega) (by omega)⟩

theorem realloc_refuse {p : ℕ} (hp : p ≠ 0) (hsize : size = 0 ∨ size > maxSize) :
    d.realloc p size h = .ok (0, h) := by
  simp only [realloc, if_neg hp, if_pos hsize, pure_eq_ok]

theorem roundUp_accepted (hsize : ¬ (size = 0 ∨ size > maxSize)) :
    ¬ (roundUp size > maxSize ∨ roundUp size = 0) ∧ roundUp (roundUp size) = roundUp size := by
  have hw := (roundUp_wellSized fun h0 => hsize (Or.inl h0)).2
  have hle := le_roundUp size
  have hmax : roundUp size ≤ maxSize := by
    simp only [roundUp, maxSize] at hsize ⊢
    split_ifs <;> omega
  simp only at hw
  refine ⟨by omega, ?_⟩
  rw [roundUp, if_neg (by omega)]

theorem realloc_moves (hr : Rep d h (l ++ ⟨n, false⟩ :: r)) (hsize : ¬ (size = 0 ∨ size > maxSize))
    (hm : Moves (roundUp size) n r) {a : ℕ} (ha : d.start + span Block.len l = a) :
    d.realloc (a + headerSize) size h = d.moveBlock (a + headerSize) (roundUp size) h := by
  obtain ⟨hn, m, g, r', rfl, hfit⟩ := hm
  exact realloc_move hr hsize hn hfit ha

theorem realloc_rep (hr : Rep d h bs) {a : ℕ} (ha : (a, ⟨n, false⟩) ∈ cells d.start bs) :
    d.realloc (a + headerSize) size h = .error .breakFailed ∨
      ∃ p h' bs', d.realloc (a + headerSize) size h = .ok (p, h') ∧
        Resized d size a h bs p h' bs' := by
  have hne : a + headerSize ≠ 0 := by simp [headerSize]
  by_cases hsize : size = 0 ∨ size > maxSize
  · exact Or.inr ⟨0, h, bs, realloc_refuse hne hsize, hr, .refl _ _ _ _,
      Or.inl ⟨rfl, .refl _ _ _ _⟩⟩
  have hle := le_roundUp size
  obtain ⟨l, r, rfl, hal⟩ := mem_place_split ha
  simp only at hal
  rcases inPlace_or_moves (roundUp size) n l r with ⟨bs', hp⟩ | hm
  · refine (realloc_inPlace hr hsize hp hal.symm).imp And.right ?_
    rintro ⟨h', he, hr', hk, -⟩
    obtain ⟨k, hcell, hk'⟩ := hp.cell d.start
    exact ⟨a + headerSize, h', bs', he, hr', hk,
      Or.inr ⟨a, k, rfl, hal ▸ hcell, hle.trans hk', Or.inl rfl⟩⟩
  · rw [realloc_moves hr hsize hm hal.symm]
    obtain ⟨hacc, -⟩ := roundUp_accepted hsize
    refine (moveBlock_grant hr ha hm.1.le hacc).imp And.right ?_
    rintro ⟨l', p, h₁, bs₁, hg, ⟨hp, he⟩ | ⟨hp, h', bs', he, hf, hk, -, k, hcell, hsk⟩⟩
    · exact ⟨0, h₁, bs₁, he, hg.rep, hg.keeps.mono fun _ => False.elim, Or.inl ⟨rfl, hg.keeps⟩⟩
    · exact ⟨p, h', bs', he, hf.rep, hk, Or.inr ⟨_, k, hg.pointer_eq hp, hcell, hle.trans hsk,
        Or.inr fun x hx hu => hg.granted.fresh hx hu⟩⟩

end Realloc

end DataSegment

end OperationSystems.Malloc3
