import OperationSystems.Malloc3.Limits

/-!
# `realloc` from end to end

All branches of `realloc` keep the bytes that the old and the new size have in
common. Only the branch that moves the block returns another pointer, and it is
taken when neither the block, nor the block and a free next one, nor the end of
the heap has room.
-/

namespace OperationSystems.Malloc3
open ByteMemory CircularList Tiling Transition DataSegment

section Covers
variable {a n k size : ℕ} {l r bs : List Block}

theorem roundUp_le (hk : 4 ∣ k) (hle : n ≤ k) : roundUp n ≤ k := by
  unfold roundUp
  split <;> omega

theorem absorb_covers (a : ℕ) (n : ℕ) (r : List Block) :
    ∃ k, (a, ⟨k, true⟩) ∈ cells a (absorb ⟨n, true⟩ r) ∧ n ≤ k := by
  rcases r with _ | ⟨⟨m, _ | _⟩, r⟩
  · exact ⟨n, by simp [absorb], le_rfl⟩
  · exact ⟨n, by simp [absorb], le_rfl⟩
  · refine ⟨n + (m + headerSize), ?_, Nat.le_add_right _ _⟩
    rw [absorb_free]
    simp

/-- A block that was freed lies inside a free one. -/
theorem coalesce_covers (a : ℕ) (l : List Block) (n : ℕ) (r : List Block) :
    ∃ b k, (b, ⟨k, true⟩) ∈ cells a (coalesce l n r) ∧ b ≤ a + span Block.len l ∧
      a + span Block.len l + n ≤ b + k := by
  rcases List.eq_nil_or_concat l with rfl | ⟨l, ⟨m, _ | _⟩, rfl⟩
  · obtain ⟨k, hk, hle⟩ := absorb_covers a n r
    exact ⟨a, k, hk, le_rfl, by simpa using hle⟩
  · obtain ⟨k, hk, hle⟩ := absorb_covers (a + span Block.len (l ++ [⟨m, false⟩])) n r
    refine ⟨_, k, ?_, by rw [List.concat_eq_append], by rw [List.concat_eq_append]; omega⟩
    rw [List.concat_eq_append, coalesce_used, List.append_cons]
    exact mem_cells_append.mpr (Or.inr hk)
  · obtain ⟨k, hk, hle⟩ := absorb_covers (a + span Block.len l) (m + (n + headerSize)) r
    rw [List.concat_eq_append, coalesce_free]
    refine ⟨_, k, mem_cells_append.mpr (Or.inr hk), ?_, ?_⟩ <;>
    · simp only [span_append, span_cons, span_nil, Block.len]
      omega

end Covers

namespace Client
variable {d : DataSegment} {s : Client} {es : List Event} {bs bs' l r : List Block} {a n o p q : ℕ}
  {h' : Heap}

/-- The block of `p` is in use in `h'` at its place, with its size and its bytes. -/
def Intact (s : Client) (p : ℕ) (h' : Heap) : Prop :=
  (p - headerSize, (s.size p : ℤ), false) ∈ h'.listing ∧ ∀ i ∈ s.payload p, h'.mem i = s.heap.mem i

/-- The block of `p` has room for `n` bytes, alone, with a free block behind it or as the last one. -/
def Resizable (s : Client) (p n : ℕ) : Prop :=
  n ≤ s.size p ∨
    (∃ y ∈ s.heap.listing, y.1 = p + s.size p ∧ y.2.2 = true ∧
      (n : ℤ) ≤ s.size p + headerSize + y.2.1) ∨
    p + s.size p = s.heap.brk

/-- The result `q` and `h'` of `realloc(p, n)`. -/
structure Reallocated (s : Client) (p n q : ℕ) (h' : Heap) : Prop where
  null : q = 0 → s.Intact p h'
  block : q ≠ 0 → ∃ x ∈ h'.listing, x.2.2 = false ∧ q = x.1 + headerSize ∧ (roundUp n : ℤ) ≤ x.2.1 ∧
    ∀ i < min (s.size p) n, h'.mem (q + i) = s.heap.mem (p + i)
  others : ∀ p' ∈ s.held, p' ≠ p → s.Intact p' h'
  freed : q ≠ 0 → q ≠ p → ∃ x ∈ h'.listing, x.2.2 = true ∧ x.1 + headerSize ≤ p ∧
    ((p + s.size p : ℕ) : ℤ) ≤ x.1 + headerSize + x.2.1
  accepted : q ≠ 0 → Accepted n
  stays : Accepted n → s.Resizable p n → q = p

theorem intact_of_keeps (ho : s.Owns d bs) {X : ℕ → Prop} (hk : Keeps d X s.heap bs h' bs')
    (hr' : Represented d h' bs') (hx : (a, ⟨o, false⟩) ∈ cells d.start bs) (hX : ¬ X a) :
    s.Intact (a + headerSize) h' := by
  obtain ⟨hx', hm⟩ := hk _ hx rfl hX
  refine ⟨?_, fun i hi => ?_⟩
  · rw [Nat.add_sub_cancel, size_eq ho hx, hr'.listing]
    exact List.mem_map_of_mem hx'
  · rw [payload_eq ho hx, Set.mem_Ico] at hi
    refine hm i hi.1 ?_
    simp only [Block.len]
    omega

theorem others_intact (ho : s.Owns d bs) (hk : Keeps d (· = a) s.heap bs h' bs')
    (hr' : Represented d h' bs') : ∀ p' ∈ s.held, p' ≠ a + headerSize → s.Intact p' h' := by
  intro p' hp' hne
  obtain ⟨b, m, rfl, hy⟩ := ho.used p' hp'
  exact intact_of_keeps ho hk hr' hy fun hb => hne (by rw [hb])

/-- A block with room does not move. -/
theorem not_moves (ho : s.Owns d (l ++ ⟨o, false⟩ :: r)) (ha : d.start + span Block.len l = a)
    (hroom : s.Resizable (a + headerSize) n) : ¬ DataSegment.Moves (roundUp n) o r := by
  rintro ⟨hlt, m, g, r', rfl, hfit⟩
  obtain ⟨hx, hy⟩ := pair_mem d.start l r' ⟨o, false⟩ ⟨m, g⟩
  have hr := ho.rep.rep hx
  have hwo : 4 ∣ o := (hr.sized ⟨o, false⟩ (by simp)).2
  have hwm : 4 ∣ m := (hr.sized ⟨m, g⟩ (by simp)).2
  rw [ha] at hx hy
  rw [Resizable, size_eq ho hx] at hroom
  rcases hroom with hle | ⟨z, hz, hzp, hzf, hle⟩ | hbrk
  · exact absurd (roundUp_le hwo hle) (Nat.not_le.mpr hlt)
  · rw [ho.rep.listing] at hz
    obtain ⟨x, hx', rfl⟩ := List.mem_map.mp hz
    have hsame : x = (a + (Block.mk o false).len, ⟨m, g⟩) := by
      have hpos := x.2.len_pos
      have hpos' := (Block.mk m g).len_pos
      have hlen : (Block.mk o false).len = headerSize + o := rfl
      simp only [entry] at hzp
      refine (place_apart hx' hy).resolve_right ?_
      rintro (hd | hd) <;> simp only at hd <;> omega
    subst hsame
    simp only [entry] at hzf hle
    have h4 : 4 ∣ o + headerSize + m := by
      simp only [headerSize]
      omega
    have hround := roundUp_le h4 (n := n) (by omega)
    exact hfit ⟨hzf, by omega⟩
  · have htile := hr.tile
    have hpos := (Block.mk m g).len_pos
    simp only [span_append, span_cons, Block.len] at htile hpos
    omega

/-- The branches that keep the block where it is. -/
theorem inPlace_reallocated (ho : s.Owns d bs) (hx : (a, ⟨o, false⟩) ∈ cells d.start bs)
    (hn : Accepted n) (hr' : Rep d h' bs') (hk : Keeps d (· = a) s.heap bs h' bs')
    (hb : KeepsBytes s.heap a (min o (roundUp n)) h') {k : ℕ}
    (hcell : (a, ⟨k, false⟩) ∈ cells d.start bs') (hle : roundUp n ≤ k) :
    s.Reallocated (a + headerSize) n (a + headerSize) h' where
  null hq := absurd hq (payload_ne_zero a)
  block _ := by
    refine ⟨entry (a, ⟨k, false⟩), ?_, rfl, rfl, Int.ofNat_le.mpr hle, fun i hi => ?_⟩
    · rw [Represented.listing (Or.inl hr')]
      exact List.mem_map_of_mem hcell
    · have hround := le_roundUp n
      have hbound := (mem_place_bounds hx).2
      rw [← ho.rep.brk_eq] at hbound
      simp only [Block.len] at hbound
      rw [size_eq ho hx] at hi
      exact hb _ (Nat.le_add_right _ _) (by omega) (by omega)
  others := others_intact ho hk (Or.inl hr')
  freed _ hne := absurd rfl hne
  accepted _ := hn
  stays _ _ := rfl

/-- `realloc` returned `NULL`. -/
theorem null_reallocated (ho : s.Owns d bs) (hx : (a, ⟨o, false⟩) ∈ cells d.start bs)
    (hr' : Represented d h' bs') (hk : Keeps d (fun _ => False) s.heap bs h' bs')
    (hroom : Accepted n → ¬ s.Resizable (a + headerSize) n) :
    s.Reallocated (a + headerSize) n 0 h' where
  null _ := intact_of_keeps ho hk hr' hx id
  block hq := absurd rfl hq
  others := others_intact ho (hk.mono fun _ => False.elim) hr'
  freed hq := absurd rfl hq
  accepted hq := absurd rfl hq
  stays hn hs := absurd hs (hroom hn)

/-- The branch that moves the block. -/
theorem move_reallocated (ho : s.Owns d bs) (hx : (a, ⟨o, false⟩) ∈ cells d.start bs)
    (hn : Accepted n) {bs₁ : List Block} (hf : Freed d a o bs₁ h' bs')
    (hk : Keeps d (· = a) s.heap bs h' bs')
    (hb : ∀ i < o, h'.mem (q + i) = s.heap.mem (a + headerSize + i)) {b k : ℕ}
    (hq : q = b + headerSize) (hcell : (b, ⟨k, false⟩) ∈ cells d.start bs') (hle : roundUp n ≤ k)
    (hroom : ¬ s.Resizable (a + headerSize) n) : s.Reallocated (a + headerSize) n q h' where
  null hq' := absurd (hq.symm.trans hq') (payload_ne_zero b)
  block _ := by
    refine ⟨entry (b, ⟨k, false⟩), ?_, rfl, hq, Int.ofNat_le.mpr hle, fun i hi => hb i ?_⟩
    · rw [Represented.listing (Or.inl hf.rep)]
      exact List.mem_map_of_mem hcell
    · rw [size_eq ho hx] at hi
      exact hi.trans_le (min_le_left _ _)
  others := others_intact ho hk (Or.inl hf.rep)
  freed _ _ := by
    obtain ⟨l₁, r₁, -, rfl, rfl⟩ := hf.blocks
    obtain ⟨c, m, hc, hcl, hcm⟩ := coalesce_covers d.start l₁ o r₁
    refine ⟨entry (c, ⟨m, true⟩), ?_, rfl, Nat.add_le_add_right hcl _, ?_⟩
    · rw [Represented.listing (Or.inl hf.rep)]
      exact List.mem_map_of_mem hc
    · rw [size_eq ho hx]
      simp only [entry]
      omega
  accepted _ := hn
  stays _ hs := absurd hs hroom

/-- `realloc` on every reachable heap. -/
theorem realloc_spec (h : Run (Step d) (start d) es s) (hp : p ∈ s.held) (n : ℕ) :
    (Call.realloc p n).Exceeds d s.heap ∨
      ∃ q h', d.realloc p n s.heap = .ok (q, h') ∧ s.Reallocated p n q h' := by
  obtain ⟨bs, ho⟩ := run_owns h
  have hfails := held_fails_iff (c := .realloc p n) ho hp
  obtain ⟨a, o, rfl, hx⟩ := ho.used p hp
  have hr := ho.rep.rep hx
  obtain ⟨l, r, rfl, hal⟩ := mem_place_split hx
  simp only at hal
  by_cases hn : Accepted n
  swap
  · exact Or.inr ⟨0, s.heap, realloc_refuse (payload_ne_zero a) (not_accepted.mp hn).symm,
      null_reallocated ho hx ho.rep (.refl _ _ _ _) fun hn' => absurd hn' hn⟩
  have hsize : ¬ (n = 0 ∨ n > maxSize) := fun h => not_accepted.mpr h.symm hn
  rcases inPlace_or_moves (roundUp n) o l r with ⟨bs', hip⟩ | hm
  · rcases realloc_inPlace hr hsize hip hal.symm with ⟨-, he⟩ | ⟨h', he, hr', hk, hb⟩
    · exact Or.inl (hfails.mp he)
    · obtain ⟨k, hcell, hle⟩ := hip.cell d.start
      exact Or.inr ⟨_, h', he, inPlace_reallocated ho hx hn hr' hk hb (hal ▸ hcell) hle⟩
  · have hroom : ¬ s.Resizable (a + headerSize) n := fun hs => not_moves ho hal.symm hs hm
    obtain ⟨hacc, hround⟩ := roundUp_accepted hsize
    have heq := realloc_moves hr hsize hm hal.symm
    rw [heq]
    rcases moveBlock_grant hr hx hm.1.le hacc with ⟨-, he⟩ |
      ⟨l', q, h₁, bs₁, hg, ⟨rfl, he⟩ | ⟨hq, h', bs', he, hf, hk, hb, k, hcell, hle⟩⟩
    · exact Or.inl (hfails.mp (heq.trans he))
    · exact Or.inr ⟨0, h₁, he, null_reallocated ho hx (Or.inl hg.rep) hg.keeps fun _ => hroom⟩
    · rw [hround] at hg
      exact Or.inr ⟨q, h', he,
        move_reallocated ho hx hn hf hk hb (hg.pointer_eq hq) hcell hle hroom⟩

theorem realloc_spec_sample :
    ∃ s, Run (Step sampleSegment) (start sampleSegment) sampleEvents s ∧
      ∃ q h', sampleSegment.realloc 4120 250 s.heap = .ok (q, h') ∧ s.Reallocated 4120 250 q h' := by
  have hexec : (Run.exec (next sampleSegment) (start sampleSegment) sampleEvents).map
      (fun s => (s.held, (Call.realloc 4120 250).asks s.heap)) = some ([4120, 4480], none) := by
    decide +kernel
  obtain ⟨s, hs, hm⟩ := Option.map_eq_some_iff.mp hexec
  obtain ⟨hheld, hasks⟩ := Prod.mk.inj hm
  have hrun := Run.of_exec (fun _ _ _ => step_of_next) hs
  rcases realloc_spec (p := 4120) hrun (by simp [hheld]) 250 with ⟨k, hk, -⟩ | ⟨q, h', he, hre⟩
  · rw [hasks] at hk
    cases hk
  · exact ⟨s, hrun, q, h', he, hre⟩

end Client

end OperationSystems.Malloc3
