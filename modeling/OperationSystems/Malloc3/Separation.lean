import OperationSystems.Lib.Compaction
import OperationSystems.Malloc3.Effects
import OperationSystems.Malloc3.Guarantees

/-!
# No two free blocks side by side

A block is open when it is free, and `connect` joins two blocks. The freed block
is the only one that can be next to a free one, so `checkIfFreeAndConnect` gives
the compaction of the list.
-/

namespace OperationSystems.Malloc3
open ByteMemory CircularList Tiling Transition Compaction DataSegment

namespace Block

def join (b c : Block) : Block := ⟨b.size + (c.size + headerSize), b.free⟩

theorem joins : Joins free join where
  isOpen_join _ _ hb _ := hb
  assoc a b c := by
    simp only [join, mk.injEq, and_true]
    omega

end Block

def Separate (bs : List Block) : Prop := Settled Block.free bs

def merge (bs : List Block) : List Block := compact Block.free Block.join bs

section Separate
variable {l r bs bs' : List Block} {b : Block} {n req : ℕ}

theorem separate_split (hb : b.free = false) : Separate (l ++ b :: r) ↔ Separate l ∧ Separate r :=
  settled_split hb

theorem Separate.parts (h : Separate (l ++ b :: r)) : Separate l ∧ Separate r :=
  ⟨h.left_of_append, h.right_of_append.tail⟩

theorem Separate.cells (h : Separate bs) (a : ℕ) : (cells a bs).IsChain fun x y =>
    x.1 + x.2.len = y.1 ∧ ¬ (x.2.free = true ∧ y.2.free = true) := by
  induction bs generalizing a with
  | nil => exact .nil
  | cons b bs ih =>
    cases bs with
    | nil => exact .singleton _
    | cons c bs =>
      obtain ⟨hbc, h⟩ := List.isChain_cons_cons.mp h
      exact List.isChain_cons_cons.mpr ⟨⟨rfl, hbc⟩, ih h _⟩

theorem separate_merge : Separate (merge bs) := settled_compact

theorem merge_of_separate (h : Separate bs) : merge bs = bs := compact_of_settled h

theorem merge_split (hb : b.free = false) : merge (l ++ b :: r) = merge l ++ b :: merge r :=
  compact_split hb

theorem merge_right : merge (l ++ merge r) = merge (l ++ r) := compact_right Block.joins

theorem absorb_eq_push : absorb ⟨n, true⟩ r = push Block.free Block.join ⟨n, true⟩ r := by
  rcases r with _ | ⟨⟨m, _ | _⟩, r⟩ <;> rfl

theorem absorb_eq_merge (hr : Separate r) : absorb ⟨n, true⟩ r = merge (⟨n, true⟩ :: r) := by
  rw [merge, compact_cons, compact_of_settled hr, absorb_eq_push]

/-- Freeing a block between separate ones merges it with its free neighbours, and that is all
there is to merge. -/
theorem coalesce_eq_merge (hl : Separate l) (hr : Separate r) :
    coalesce l n r = merge (l ++ ⟨n, true⟩ :: r) := by
  rcases List.eq_nil_or_concat l with rfl | ⟨l, ⟨m, _ | _⟩, rfl⟩
  · exact absorb_eq_merge hr
  · rw [List.concat_eq_append] at hl ⊢
    have hl' := merge_of_separate ((separate_split rfl).mp hl).1
    rw [coalesce_used, absorb_eq_merge hr, List.append_assoc, List.singleton_append,
      merge_split rfl, hl']
  · have hjoin : merge (l ++ ⟨m, true⟩ :: ⟨n, true⟩ :: r) =
        merge (l ++ ⟨m + (n + headerSize), true⟩ :: r) := compact_cons_cons Block.joins rfl rfl
    rw [List.concat_eq_append] at hl ⊢
    rw [coalesce_free, List.append_assoc, List.singleton_append, hjoin, ← merge_right,
      ← absorb_eq_merge hr]
    refine (merge_of_separate ?_).symm
    -- the block in front of the freed ones is used, so nothing is left to merge
    obtain ⟨c, t, hc, hcf⟩ := @push_head _ Block.free Block.join r
      ⟨m + (n + headerSize), true⟩ Block.joins rfl
    have hpush : Settled Block.free (push Block.free Block.join ⟨m + (n + headerSize), true⟩ r) :=
      settled_push hr
    rw [absorb_eq_push]
    refine List.isChain_append.mpr ⟨hl.left_of_append, hpush, ?_⟩
    intro x hx y hy
    have hxf := (List.isChain_append.mp hl).2.2 x hx ⟨m, true⟩ (by simp)
    exact fun hxy => hxf ⟨hxy.1, rfl⟩

theorem separate_take (hl : Separate l) (hr : Separate r) : Separate (l ++ take req b r) := by
  obtain ⟨n, f⟩ := b
  rcases @take_used_or_free req n f r with ⟨-, ht⟩ | ⟨k, -, -, ht⟩
  · rw [ht]
    exact (separate_split rfl).mpr ⟨hl, hr⟩
  · rw [ht, absorb_eq_merge hr]
    exact (separate_split rfl).mpr ⟨hl, separate_merge⟩

theorem Placed.separate (hp : Placed req bs l bs') (h : Separate bs) : Separate bs' := by
  cases hp with
  | fit hl hb => exact separate_take h.parts.1 h.parts.2
  | grow hbs hb => exact (separate_split rfl).mpr ⟨h.parts.1, .nil⟩
  | append hbs hb => exact (separate_split rfl).mpr ⟨h, .nil⟩

theorem DataSegment.Granted.separate (hg : Granted req bs l bs') (h : Separate bs) : Separate bs' := by
  cases hg with
  | first => exact .singleton _
  | placed hp => exact hp.separate h

theorem DataSegment.InPlace.separate (hp : InPlace req n l r bs') (hl : Separate l) (hr : Separate r) :
    Separate bs' := by
  cases hp with
  | within hn => exact separate_take hl hr
  | forward hn hfit => exact separate_take hl hr.tail
  | last hn => exact (separate_split rfl).mpr ⟨hl, .nil⟩

theorem separate_coalesce (h : Separate (l ++ ⟨n, false⟩ :: r)) : Separate (coalesce l n r) := by
  rw [coalesce_eq_merge h.parts.1 h.parts.2]
  exact separate_merge

end Separate

theorem Effect.separate {d : DataSegment} {h : Heap} {bs bs' : List Block} {c : Call} {q : ℕ}
    (he : Effect d h bs c q bs') (hs : Separate bs) : Separate bs' := by
  cases he with
  | refuse hc hn => exact hs
  | grant hc hn hnull hg hp => exact hg.separate hs
  | freeNull => exact hs
  | free hbs => exact separate_coalesce (hbs ▸ hs)
  | inPlace hbs hsize hp =>
    subst hbs
    exact hp.separate hs.parts.1 hs.parts.2
  | stuck hbs hsize hm hg _ => exact hg.separate hs
  | move hbs hsize hm hg _ hbs₁ hl => exact separate_coalesce (hbs₁ ▸ hg.separate hs)

namespace Client
variable {d : DataSegment} {s t : Client} {es : List Event}

/-- What one event preserves. -/
theorem step_separate {e : Event} (h : ∃ bs, s.Owns d bs ∧ Separate bs) (hs : s.Step d e t) :
    ∃ bs, t.Owns d bs ∧ Separate bs := by
  obtain ⟨bs, ho, hsep⟩ := h
  cases e with
  | call c =>
    obtain ⟨q, h', bs', -, heff, ho', rfl⟩ := step_effect ho hs
    exact ⟨bs', ho', heff.separate hsep⟩
  | write p offset v =>
    obtain ⟨hp, hlt, rfl⟩ := step_write hs
    exact ⟨bs, write_owns ho v hp hlt, hsep⟩

/-- What a whole run preserves. -/
theorem run_separate (h : Run (Step d) (start d) es s) : ∃ bs, s.Owns d bs ∧ Separate bs :=
  h.invariant (P := fun s => ∃ bs, s.Owns d bs ∧ Separate bs) ⟨[], start_owns d, .nil⟩
    fun _ _ _ hp hs => step_separate hp hs

/-- The blocks follow one another without a gap, and no two neighbours are both free. -/
theorem no_adjacent_free (h : Run (Step d) (start d) es s) :
    (∀ x ∈ s.heap.listing.head?, x.1 = d.start) ∧
    (s.heap.listing.IsChain fun x y =>
      (x.1 : ℤ) + headerSize + x.2.1 = y.1 ∧ ¬ (x.2.2 = true ∧ y.2.2 = true)) ∧
    ∀ x ∈ s.heap.listing.getLast?, (x.1 : ℤ) + headerSize + x.2.1 = s.heap.brk := by
  obtain ⟨bs, ho, hsep⟩ := run_separate h
  rw [ho.rep.listing]
  refine ⟨?_, ?_, ?_⟩
  · cases bs <;> simp [entry]
  · rw [List.isChain_map]
    refine (hsep.cells d.start).imp ?_
    rintro x y ⟨hxy, hf⟩
    refine ⟨?_, hf⟩
    simp only [entry, ← hxy, Block.len]
    push_cast
    ring
  · rcases List.eq_nil_or_concat bs with rfl | ⟨l, b, rfl⟩
    · simp
    · rw [List.concat_eq_append] at ho ⊢
      have htile := (ho.rep.rep (Rep.mem_mid d.start l [] b)).tile
      rw [List.getLast?_map, place_getLast, htile]
      intro x hx
      simp only [Option.map_some, Option.mem_some_iff] at hx
      subst hx
      simp only [entry, span_append, span_cons, span_nil, Block.len]
      push_cast
      ring

theorem no_adjacent_free_sample :
    ∃ s, Run (Step sampleSegment) (start sampleSegment) sampleEvents s ∧
      s.heap.listing.IsChain fun x y =>
        (x.1 : ℤ) + headerSize + x.2.1 = y.1 ∧ ¬ (x.2.2 = true ∧ y.2.2 = true) := by
  obtain ⟨s, hrun, -⟩ := sample_run
  exact ⟨s, hrun, (no_adjacent_free hrun).2.1⟩

end Client

end OperationSystems.Malloc3
