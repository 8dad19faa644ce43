import OperationSystems.Malloc2.Growth

/-!
# The calls

`malloc` takes a free block that is large enough, or a new one behind the last.
No call changes the size of a block, and none writes into the payload of a
block that was in use before it.
-/

namespace OperationSystems.Malloc2
open ByteMemory CircularList Tiling
open Malloc3 (AllocInfoList Block Fault Result maxSize ok_bind pure_eq_ok)

/-- A block in use lies at `a`. -/
def Used (d : Segment) (bs : List Block) (a : ℕ) : Prop := ∃ n, (a, ⟨n, false⟩) ∈ cells d bs

def sizes (bs : List Block) : List ℕ := bs.map Block.size

section Used
variable {d : Segment} {l r bs bs' : List Block} {n a b : ℕ}

theorem used_flag : Used d (l ++ ⟨n, false⟩ :: r) b ↔
    b = d.start + span (len d.word) l ∨ Used d (l ++ ⟨n, true⟩ :: r) b := by
  constructor
  · rintro ⟨k, hx⟩
    rcases mem_cells_flag (g := true) hx with he | ⟨-, hx⟩
    · exact Or.inl (congrArg Prod.fst he)
    · exact Or.inr ⟨k, hx⟩
  · rintro (rfl | ⟨k, hx⟩)
    · exact ⟨n, mem_mid d l r _⟩
    · rcases mem_cells_flag (g := false) hx with he | ⟨-, hx⟩
      · simp at he
      · exact ⟨k, hx⟩

theorem not_used_free : ¬ Used d (l ++ ⟨n, true⟩ :: r) (d.start + span (len d.word) l) := by
  rintro ⟨k, hx⟩
  rcases mem_cells_flag (g := true) hx with he | ⟨hne, -⟩
  · simp at he
  · exact hne rfl

theorem not_used_end : ¬ Used d bs (d.start + span (len d.word) bs) := by
  rintro ⟨k, hx⟩
  have hb := (mem_place_bounds hx).2
  have hpos := len_pos d ⟨k, false⟩
  simp only at hb
  omega

theorem used_concat : Used d (bs ++ [⟨n, false⟩]) b ↔
    b = d.start + span (len d.word) bs ∨ Used d bs b := by
  simp only [Used, cells, place_append, List.mem_append, place_cons, place_nil, List.mem_singleton,
    Prod.mk.injEq, Block.mk.injEq]
  constructor
  · rintro ⟨k, hx | ⟨rfl, -⟩⟩
    · exact Or.inr ⟨k, hx⟩
    · exact Or.inl rfl
  · rintro (rfl | ⟨k, hx⟩)
    · exact ⟨n, Or.inr ⟨rfl, rfl, trivial⟩⟩
    · exact ⟨k, Or.inl hx⟩

theorem sizes_flag (f g : Bool) : sizes (l ++ ⟨n, f⟩ :: r) = sizes (l ++ ⟨n, g⟩ :: r) := by
  simp [sizes]

/-- Where the blocks lie depends on their sizes only. -/
theorem cells_sizes (d : Segment) (bs : List Block) :
    (cells d bs).map (Prod.map id Block.size) =
      place (fun k => headerSize d.word + k) d.start (sizes bs) :=
  place_map (len d.word) (f := Block.size) (fun _ => rfl) d.start bs

theorem mem_cells_sizes (hs : sizes bs <+: sizes bs') {x : ℕ × Block} (hx : x ∈ cells d bs) :
    ∃ y ∈ cells d bs', y.1 = x.1 ∧ y.2.size = x.2.size := by
  have hp := place_prefix (fun k => headerSize d.word + k) d.start hs
  rw [← cells_sizes, ← cells_sizes] at hp
  obtain ⟨y, hy, he⟩ := List.mem_map.mp (hp.subset (List.mem_map_of_mem hx))
  exact ⟨y, hy, (Prod.mk.inj he).1, (Prod.mk.inj he).2⟩

theorem place_eq {x y : ℕ × Block} (hx : x ∈ cells d bs) (hy : y ∈ cells d bs) (h : x.1 = y.1) :
    x = y := by
  have hpos := len_pos d x.2
  have hpos' := len_pos d y.2
  rcases place_apart hx hy with he | hd | hd
  · exact he
  · omega
  · omega

theorem mem_cells_used (hs : sizes bs <+: sizes bs') (hx : (a, ⟨n, false⟩) ∈ cells d bs)
    (hu : Used d bs' a) : (a, ⟨n, false⟩) ∈ cells d bs' := by
  obtain ⟨k, hk⟩ := hu
  obtain ⟨y, hy, hya, hyn⟩ := mem_cells_sizes hs hx
  obtain rfl := place_eq hy hk hya
  obtain rfl : k = n := hyn
  exact hk

end Used

/-- The blocks of a heap; there are none before the first allocation. -/
def Represented (d : Segment) (h : Heap) (bs : List Block) : Prop :=
  Rep d h bs ∨ bs = [] ∧ Untouched d h

/-- The block at `a` is handed out for `size` bytes. -/
structure Allocated (d : Segment) (size : ℕ) (h : Heap) (bs : List Block) (a : ℕ) (h' : Heap)
    (bs' : List Block) : Prop where
  rep : Rep d h' bs'
  sizes : sizes bs <+: sizes bs'
  keeps : Keeps d (fun b => ¬ Used d bs b) h bs h'
  cell : ∃ n, (a, ⟨n, false⟩) ∈ cells d bs' ∧ size ≤ n
  fresh : ¬ Used d bs a
  used : ∀ b, Used d bs' b ↔ b = a ∨ Used d bs b

section Find
variable {d : Segment} {h : Heap} {l r bs : List Block} {b c : Block} {n size : ℕ}

theorem Keeps.mono {X Y : ℕ → Prop} {h' : Heap} (hk : Keeps d X h bs h') (hXY : ∀ a, X a → Y a) :
    Keeps d Y h bs h' := fun x hx hY => hk x hx fun hX => hY (hXY _ hX)

theorem findLoop_hit (hr : Rep d h (l ++ ⟨n, true⟩ :: r)) (hn : size ≤ n) (fuel : ℕ) :
    ∃ h', d.findLoop size (fuel + 1) (d.start + span (len d.word) l) h =
        .ok (d.start + span (len d.word) l + d.header, h') ∧
      Allocated d size h (l ++ ⟨n, true⟩ :: r) (d.start + span (len d.word) l) h'
        (l ++ ⟨n, false⟩ :: r) := by
  have hm := mem_mid d l r ⟨n, true⟩
  have hmap := hr.mapped hm
  have hdesc := hr.nodes _ hm
  have hsize := hdesc.size
  have hfree := hdesc.isFreed
  have hst := hdesc.start
  have hnum := hr.stats.numFreeBlocks
  have hnumBytes := hr.stats.numFreeBytes
  simp only at hmap hsize hfree hst
  obtain ⟨hb₁, hb₂⟩ := hr.flag_bumps (g := false) (i := -1) (k := -n) (by simp [hnum]; ring)
    (by simp [hnumBytes]; ring)
  have hlist := hr.stats.reflag (g := false) rfl rfl
  refine ⟨_, ?_, hr.reflag ?_ hlist, ?_, (keeps_putFreed (mid_mem d l r _)).mono fun _ => False.elim,
    ⟨n, mem_mid d l r _, hn⟩, not_used_free, fun b => used_flag⟩
  rotate_left
  · rfl
  · exact sizes_flag true false ▸ List.prefix_rfl
  have hmap' : d.Mapped { h with mem := putFreed h.mem (d.start + span (len d.word) l) false }
      (d.start + span (len d.word) l) d.header := hmap
  simp only [Segment.findLoop, Segment.writeFreed, Segment.node, if_pos hmap, if_pos hmap', ok_bind,
    readNode_putFreed d.word_pos, hsize, hfree, hst, hn, and_self, if_true, hb₁, hb₂, pure_eq_ok]

theorem next_eq (hr : Rep d h (l ++ b :: c :: r)) :
    (readNode d.word h.mem (d.start + span (len d.word) l)).next =
      d.start + span (len d.word) (l ++ [b]) := by
  have hring := hr.ring
  rw [addresses_split, place_cons, List.map_cons] at hring
  rw [hring.linked.1, span_append, span_cons, span_nil]
  simp only [Nat.add_zero, Nat.add_assoc]

/-- The search from a block on takes a free block that is large enough, or it finds nothing. -/
theorem findLoop_spec (hr : Rep d h (l ++ b :: r)) {fuel : ℕ} (hfuel : r.length < fuel) :
    (∃ a h' bs', d.findLoop size fuel (d.start + span (len d.word) l) h = .ok (a + d.header, h') ∧
        Allocated d size h (l ++ b :: r) a h' bs') ∨
      d.findLoop size fuel (d.start + span (len d.word) l) h = .ok (0, h) := by
  induction r generalizing l b fuel with
  | nil =>
    obtain ⟨fuel, rfl⟩ := Nat.exists_eq_add_one_of_ne_zero (Nat.ne_of_gt hfuel)
    by_cases hfit : size ≤ b.size ∧ b.free = true
    · obtain ⟨n, rfl⟩ : ∃ n, b = ⟨n, true⟩ := ⟨b.size, by rw [← hfit.2]⟩
      obtain ⟨h', he, ha⟩ := findLoop_hit hr hfit.1 fuel
      exact Or.inl ⟨_, h', _, he, ha⟩
    · have hm := mem_mid d l [] b
      have hd := hr.nodes _ hm
      refine Or.inr ?_
      simp only [Segment.findLoop, hr.node_ok hm, ok_bind, hd.size, hd.isFreed, if_neg hfit,
        (links_last hr).1, hr.head, ne_eq, not_true_eq_false, if_false, pure_eq_ok]
  | cons c r ih =>
    obtain ⟨fuel, rfl⟩ := Nat.exists_eq_add_one_of_ne_zero (Nat.ne_zero_of_lt hfuel)
    by_cases hfit : size ≤ b.size ∧ b.free = true
    · obtain ⟨n, rfl⟩ : ∃ n, b = ⟨n, true⟩ := ⟨b.size, by rw [← hfit.2]⟩
      obtain ⟨h', he, ha⟩ := findLoop_hit hr hfit.1 fuel
      exact Or.inl ⟨_, h', _, he, ha⟩
    · have hm := mem_mid d l (c :: r) b
      have hd := hr.nodes _ hm
      have hne : d.start + span (len d.word) (l ++ [b]) ≠ d.start := by
        have hpos := len_pos d b
        rw [span_append, span_cons]
        omega
      have hstep : d.findLoop size (fuel + 1) (d.start + span (len d.word) l) h =
          d.findLoop size fuel (d.start + span (len d.word) (l ++ [b])) h := by
        simp only [Segment.findLoop, hr.node_ok hm, ok_bind, hd.size, hd.isFreed, if_neg hfit,
          next_eq hr, hr.head, if_pos hne]
      rw [hstep]
      have hr' : Rep d h ((l ++ [b]) ++ c :: r) := by simpa using hr
      have htail := ih hr' (Nat.lt_of_succ_lt_succ hfuel)
      simpa only [List.append_assoc, List.singleton_append] using htail

theorem length_lt_brk (hr : Rep d h bs) : bs.length < h.brk := by
  have hspan := Rep.span_eq d.word bs
  have htile := hr.tile
  have hpos := d.start_pos
  have hlen : bs.length ≤ headerSize d.word * bs.length := Nat.le_mul_of_pos_left _ (header_pos d)
  omega

theorem find_spec (hr : Rep d h bs) :
    (∃ a h' bs', d.findFreeAllocationAddress size h = .ok (a + d.header, h') ∧
        Allocated d size h bs a h' bs') ∨
      d.findFreeAllocationAddress size h = .ok (0, h) := by
  obtain ⟨b, r, rfl⟩ := List.exists_cons_of_ne_nil hr.nonempty
  have hlen := length_lt_brk hr
  have hspec := @findLoop_spec d h [] r b size hr h.brk (by simp at hlen; omega)
  simpa only [Segment.findFreeAllocationAddress, hr.head, span_nil, Nat.add_zero, List.nil_append]
    using hspec

theorem append_allocated (hr : Rep d h bs) (hl : h.brk + (size + d.header) ≤ d.limit) :
    ∃ h', d.appendBlock size h = .ok (h.brk + d.header, h') ∧
      Allocated d size h bs h.brk h' (bs ++ [⟨size, false⟩]) := by
  obtain ⟨l, b, rfl⟩ : ∃ l b, bs = l ++ [b] := by
    rcases List.eq_nil_or_concat bs with rfl | ⟨l, b, rfl⟩
    · exact absurd rfl hr.nonempty
    · exact ⟨l, b, List.concat_eq_append⟩
  refine ⟨_, appendBlock_eq hr hl rfl, append_rep hr hl rfl, ?_,
    (append_keeps hr rfl).mono fun _ => False.elim, ⟨size, ?_, le_rfl⟩, ?_, fun c => ?_⟩
  · simp [sizes]
  · rw [hr.tile]
    exact mem_mid d (l ++ [b]) [] _
  · rw [hr.tile]
    exact not_used_end
  · rw [hr.tile]
    exact used_concat

end Find

section Malloc
variable {d : Segment} {h : Heap} {bs : List Block} {size : ℕ}

theorem Represented.rep (hr : Represented d h bs) {x : ℕ × Block} (hx : x ∈ cells d bs) :
    Rep d h bs := by
  rcases hr with hr | ⟨rfl, -⟩
  · exact hr
  · simp at hx

theorem payload_ne_zero (d : Segment) (a : ℕ) : a + d.header ≠ 0 := by
  have hpos := header_pos d
  omega

theorem malloc_rep (hr : Rep d h bs) (hsize : ¬ (size > maxSize ∨ size = 0)) :
    d.limit < h.brk + (size + d.header) ∧ d.malloc size h = .error .breakFailed ∨
      ∃ a h' bs', d.malloc size h = .ok (a + d.header, h') ∧ Allocated d size h bs a h' bs' := by
  have hmalloc : d.malloc size h =
      d.findFreeAllocationAddress size h >>= fun r =>
        if r.1 ≠ 0 then pure r else d.appendBlock size r.2 := by
    rw [Segment.malloc, if_neg hsize]
    simp only [hr.first, Bool.false_eq_true, if_false]
  rcases find_spec hr with ⟨a, h', bs', he, ha⟩ | he
  · refine Or.inr ⟨a, h', bs', ?_, ha⟩
    simp only [hmalloc, he, ok_bind, if_pos (payload_ne_zero d a), pure_eq_ok]
  · have heq : d.malloc size h = d.appendBlock size h := by
      rw [hmalloc, he, ok_bind]
      simp
    rw [heq]
    by_cases hl : h.brk + (size + d.header) ≤ d.limit
    · obtain ⟨h', he, ha⟩ := append_allocated hr hl
      exact Or.inr ⟨_, h', _, he, ha⟩
    · exact Or.inl ⟨by omega, appendBlock_fail (by omega)⟩

theorem malloc_untouched (hu : Untouched d h) (hsize : ¬ (size > maxSize ∨ size = 0)) :
    d.limit < h.brk + (size + d.header) ∧ d.malloc size h = .error .breakFailed ∨
      ∃ a h' bs', d.malloc size h = .ok (a + d.header, h') ∧ Allocated d size h [] a h' bs' := by
  have heq : d.malloc size h = d.firstAllocation size h := by
    simp only [Segment.malloc, if_neg hsize, hu.firstAlloc, if_true]
  rw [heq, hu.brk]
  by_cases hl : d.start + (size + d.header) ≤ d.limit
  · refine Or.inr ⟨_, _, [⟨size, false⟩], firstAllocation_eq hu hl, first_rep hu hl, List.nil_prefix,
      fun x hx => absurd hx (by simp), ⟨size, by simp, le_rfl⟩, by simp [Used], fun b => ?_⟩
    exact @used_concat d [] size b
  · exact Or.inl ⟨by omega, firstAllocation_fail hu (by omega)⟩

theorem malloc_spec (hr : Represented d h bs) (hsize : ¬ (size > maxSize ∨ size = 0)) :
    d.limit < h.brk + (size + d.header) ∧ d.malloc size h = .error .breakFailed ∨
      ∃ a h' bs', d.malloc size h = .ok (a + d.header, h') ∧ Allocated d size h bs a h' bs' := by
  rcases hr with hr | ⟨rfl, hu⟩
  · exact malloc_rep hr hsize
  · exact malloc_untouched hu hsize

theorem malloc_refuse (hsize : size > maxSize ∨ size = 0) : d.malloc size h = .ok (0, h) := by
  simp only [Segment.malloc, if_pos hsize, pure_eq_ok]

end Malloc

/-- The block at `a` is marked free. -/
structure Released (d : Segment) (h : Heap) (bs : List Block) (a : ℕ) (h' : Heap) (bs' : List Block) :
    Prop where
  rep : Rep d h' bs'
  sizes : sizes bs <+: sizes bs'
  keeps : Keeps d (fun _ => False) h bs h'
  used : ∀ b, Used d bs' b ↔ Used d bs b ∧ b ≠ a

section Free
variable {d : Segment} {h : Heap} {bs : List Block} {a : ℕ}

theorem release_spec (hr : Rep d h bs) (hu : Used d bs a) :
    ∃ h' bs', d.release a h = .ok h' ∧ Released d h bs a h' bs' := by
  obtain ⟨n, hx⟩ := hu
  obtain ⟨l, r, rfl, hal⟩ := mem_place_split hx
  simp only at hal hr ⊢
  obtain ⟨h', he, hr', hk⟩ := release_rep hr hal.symm
  refine ⟨h', _, he, hr', ?_, hk, fun b => ?_⟩
  · exact sizes_flag false true ▸ List.prefix_rfl
  · rw [used_flag, hal]
    constructor
    · intro hb
      refine ⟨Or.inr hb, ?_⟩
      rintro rfl
      exact not_used_free hb
    · rintro ⟨hb, hne⟩
      exact hb.resolve_left hne

theorem node_payload (hr : Rep d h bs) {x : ℕ × Block} (hx : x ∈ cells d bs) :
    d.node (x.1 + d.header - d.header) h = .ok (readNode d.word h.mem x.1) := by
  rw [Nat.add_sub_cancel]
  exact hr.node_ok hx

theorem free_used (hr : Rep d h bs) (hu : Used d bs a) :
    ∃ h' bs', d.free (a + d.header) h = .ok h' ∧ Released d h bs a h' bs' := by
  obtain ⟨h', bs', he, hrel⟩ := release_spec hr hu
  obtain ⟨n, hx⟩ := hu
  have hnode := hr.node_ok hx
  have hfree := (hr.nodes _ hx).isFreed
  simp only at hnode hfree
  refine ⟨h', bs', ?_, hrel⟩
  simp only [Segment.free, if_neg (payload_ne_zero d a), Nat.add_sub_cancel, hnode, ok_bind, hfree,
    Bool.false_eq_true, if_false, he]

/-- A second `free` finds the flag set. -/
theorem free_free (hr : Rep d h bs) {x : ℕ × Block} (hx : x ∈ cells d bs) (hu : ¬ Used d bs x.1) :
    d.free (x.1 + d.header) h = .ok h := by
  have hfree : x.2.free = true := by
    obtain ⟨b, n, _ | _⟩ := x
    · exact absurd ⟨n, hx⟩ hu
    · rfl
  simp only [Segment.free, if_neg (payload_ne_zero d x.1), node_payload hr hx, ok_bind,
    (hr.nodes x hx).isFreed, hfree, if_true, pure_eq_ok]

end Free

section Payload
variable {d : Segment} {h h' : Heap} {bs bs' : List Block} {a n size : ℕ}

theorem mapped_payload (hr : Rep d h bs) {k : ℕ} (hx : (a, ⟨n, false⟩) ∈ cells d bs) (hk : k ≤ n) :
    d.Mapped h (a + d.header) k := by
  have hb := mem_place_bounds hx
  have htile := hr.tile
  simp only [len, Segment.header] at hb ⊢
  exact ⟨by omega, by omega⟩

/-- The new block can be written to. -/
theorem Allocated.payload (ha : Allocated d size h bs a h' bs') {m : Memory}
    (hm : ∀ i, i < a + d.header ∨ a + d.header + size ≤ i → m i = h'.mem i) :
    Allocated d size h bs a { h' with mem := m } bs' := by
  obtain ⟨n, hx, hn⟩ := ha.cell
  have hm' : ∀ i, i < a + d.header ∨ a + len d.word ⟨n, false⟩ ≤ i → m i = h'.mem i := by
    intro i hi
    refine hm i (hi.imp_right fun hi => ?_)
    simp only [len, Segment.header] at hi ⊢
    omega
  refine ⟨ha.rep.payload hx hm', ha.sizes, ?_, ha.cell, ha.fresh, ha.used⟩
  intro x hx₀ hX i hl hlt
  obtain ⟨y, hy, hya, hys⟩ := mem_cells_sizes ha.sizes hx₀
  have hne : y.1 ≠ a := by
    rintro rfl
    exact hX (hya ▸ ha.fresh)
  have hk := keeps_payload hx hm' y hy hne i (by omega) (by simp only [len] at hlt ⊢; omega)
  exact hk.trans (ha.keeps x hx₀ hX i hl hlt)

theorem calloc_spec (hr : Represented d h bs) {num k : ℕ} (hk : num * size % 256 ^ d.word = k)
    (hsize : ¬ (k > maxSize ∨ k = 0)) :
    d.limit < h.brk + (k + d.header) ∧ d.calloc num size h = .error .breakFailed ∨
      ∃ a h' bs', d.calloc num size h = .ok (a + d.header, h') ∧ Allocated d k h bs a h' bs' := by
  refine (malloc_spec hr hsize).imp ?_ ?_
  · rintro ⟨hl, he⟩
    refine ⟨hl, ?_⟩
    simp only [Segment.calloc, hk, he]
    rfl
  · rintro ⟨a, h₁, bs', he, ha⟩
    obtain ⟨n, hx, hn⟩ := ha.cell
    refine ⟨a, _, bs', ?_, ha.payload (m := fill h₁.mem (a + d.header) k 0)
      fun i hi => fill_outside h₁.mem 0 hi⟩
    have hst := (ha.rep.nodes _ hx).start
    have hmap := mapped_payload ha.rep hx hn
    simp only at hst
    simp only [Segment.calloc, hk, he, ok_bind, if_neg (payload_ne_zero d a), node_payload ha.rep hx,
      hst, Segment.memset]
    simp only [if_pos hmap, ok_bind, pure_eq_ok]

theorem calloc_refuse {num : ℕ}
    (hsize : num * size % 256 ^ d.word > maxSize ∨ num * size % 256 ^ d.word = 0) :
    d.calloc num size h = .ok (0, h) := by
  simp only [Segment.calloc, malloc_refuse hsize, ok_bind, if_true, pure_eq_ok]

/-- The block at `a` gives way to the one at `b`. -/
structure Moved (d : Segment) (h : Heap) (bs : List Block) (a n b : ℕ) (h' : Heap)
    (bs' : List Block) : Prop where
  rep : Rep d h' bs'
  sizes : sizes bs <+: sizes bs'
  keeps : Keeps d (fun c => ¬ Used d bs c) h bs h'
  cell : ∃ y ∈ cells d bs', y.1 = b
  fresh : ¬ Used d bs b
  used : ∀ c, Used d bs' c ↔ (c = b ∨ Used d bs c) ∧ c ≠ a
  copied : ∀ i < n, h'.mem (b + d.header + i) = h.mem (a + d.header + i)

theorem realloc_within (hr : Rep d h bs) (hx : (a, ⟨n, false⟩) ∈ cells d bs)
    (hsize : ¬ (size = 0 ∨ size > maxSize)) (hn : size ≤ n) :
    d.realloc (a + d.header) size h = .ok (a + d.header, h) := by
  have hnode := hr.node_ok hx
  have hsz := (hr.nodes _ hx).size
  simp only at hnode hsz
  simp only [Segment.realloc, if_neg (payload_ne_zero d a), if_neg hsize, Nat.add_sub_cancel, hnode,
    ok_bind, hsz, if_pos hn, pure_eq_ok]

theorem realloc_move (hr : Rep d h bs) (hx : (a, ⟨n, false⟩) ∈ cells d bs)
    (hsize : ¬ (size = 0 ∨ size > maxSize)) (hn : n < size) :
    d.limit < h.brk + (size + d.header) ∧
        d.realloc (a + d.header) size h = .error .breakFailed ∨
      ∃ b h' bs', d.realloc (a + d.header) size h = .ok (b + d.header, h') ∧
        Moved d h bs a n b h' bs' := by
  have hnode := hr.node_ok hx
  have hsz := (hr.nodes _ hx).size
  simp only at hnode hsz
  have hrealloc : d.realloc (a + d.header) size h =
      d.malloc size h >>= fun r =>
        if r.1 = 0 then
          pure (0, r.2)
        else do
          let new ← d.node (r.1 - d.header) r.2
          let old ← d.node a r.2
          let h ← d.memcpy new.allocationStartPtr old.allocationStartPtr old.sizeOfAllocation r.2
          let h ← d.release a h
          return ((← d.node (r.1 - d.header) h).allocationStartPtr, h) := by
    rw [Segment.realloc, if_neg (payload_ne_zero d a), if_neg hsize, Nat.add_sub_cancel, hnode, ok_bind,
      hsz, if_neg (by omega)]
  rcases malloc_spec (Or.inl hr) (fun hs => hsize hs.symm) with ⟨hl, he⟩ | ⟨b, h₁, bs₁, he, hb⟩
  · refine Or.inl ⟨hl, ?_⟩
    rw [hrealloc, he]
    rfl
  · obtain ⟨m, hy, hm⟩ := hb.cell
    have hused : Used d bs a := ⟨n, hx⟩
    have hne : b ≠ a := by
      rintro rfl
      exact hb.fresh hused
    have hr₁ := hb.rep
    have hx₁ := mem_cells_used hb.sizes hx ((hb.used a).mpr (Or.inr hused))
    -- the copy goes into the new payload, then the old block is marked free
    have hcopy := hb.payload (m := copy h₁.mem (b + d.header) (a + d.header) n)
      fun i hi => copy_outside h₁.mem (by omega)
    obtain ⟨h₂, bs₂, he₂, hrel⟩ := release_spec hcopy.rep ((hcopy.used a).mpr (Or.inr hused))
    obtain ⟨y, hy₂, hyb, -⟩ := mem_cells_sizes hrel.sizes hy
    have hmap : d.Mapped h₁ (b + d.header) n ∧ d.Mapped h₁ (a + d.header) n :=
      ⟨mapped_payload hr₁ hy (by omega), mapped_payload hr₁ hx₁ le_rfl⟩
    have hnew := hr₁.node_ok hy
    have hnewst := (hr₁.nodes _ hy).start
    have hold := hr₁.node_ok hx₁
    have holdst := (hr₁.nodes _ hx₁).start
    have holdsz := (hr₁.nodes _ hx₁).size
    have hlast := hrel.rep.node_ok hy₂
    have hlastst := (hrel.rep.nodes _ hy₂).start
    simp only [hyb] at hnew hnewst hold holdst holdsz hlast hlastst
    refine Or.inr ⟨b, h₂, bs₂, ?_, hrel.rep, hcopy.sizes.trans hrel.sizes, ?_, ⟨y, hy₂, hyb⟩, hb.fresh,
      fun c => ?_, fun i hi => ?_⟩
    · rw [hrealloc, he]
      simp only [ok_bind, if_neg (payload_ne_zero d b), Nat.add_sub_cancel, hnew, hold, hnewst, holdst,
        holdsz, Segment.memcpy]
      simp only [if_pos hmap, ok_bind, he₂, hlast, hlastst, pure_eq_ok]
    · intro x hx₀ hX i hl hlt
      obtain ⟨z, hz, hzx, hzs⟩ := mem_cells_sizes hcopy.sizes hx₀
      have hk₂ := hrel.keeps z hz id i (by omega) (by simp only [len] at hlt ⊢; omega)
      exact hk₂.trans (hcopy.keeps x hx₀ hX i hl hlt)
    · rw [hrel.used, hcopy.used]
    · have hb₁ := hrel.keeps (b, ⟨m, false⟩) hy id (b + d.header + i) (Nat.le_add_right _ _)
        (by simp only [len, Segment.header]; omega)
      rw [hb₁]
      refine (copy_inside h₁.mem hi).trans (hb.keeps (a, ⟨n, false⟩) hx (fun hX => hX hused) _
        (Nat.le_add_right _ _) ?_)
      simp only [len, Segment.header]
      omega

end Payload

end OperationSystems.Malloc2
