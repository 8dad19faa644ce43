import OperationSystems.Malloc3.Listing

/-!
# What a call does to the list of blocks

`Effect` lists the outcomes of a call: the pointer that comes back and the list
of blocks behind it. The only outcome that depends on the bytes of a payload is
that of an allocation out of a free block.
-/

namespace OperationSystems.Malloc3
open ByteMemory CircularList Tiling Transition DataSegment

/-- The number of bytes that a call asks for. -/
def Call.request : Call → Option ℕ
  | .malloc size => some size
  | .calloc num size => some (num * size % 2 ^ 32)
  | .realloc _ size => some size
  | .free _ => none

/-- A size that the allocator serves. -/
def Accepted (n : ℕ) : Prop := n ≠ 0 ∧ n ≤ maxSize

instance (n : ℕ) : Decidable (Accepted n) := inferInstanceAs (Decidable (n ≠ 0 ∧ n ≤ maxSize))

theorem not_accepted {n : ℕ} : ¬ Accepted n ↔ n > maxSize ∨ n = 0 := by
  simp only [Accepted]
  omega

/-- The payload of a block that was there before is taken, and it is marked. -/
def Stuck (d : DataSegment) (h : Heap) (bs l : List Block) : Prop :=
  l.length < bs.length ∧ Marked h (d.start + span Block.len l + headerSize)

inductive Effect (d : DataSegment) (h : Heap) (bs : List Block) : Call → ℕ → List Block → Prop where
  | refuse {c : Call} {n : ℕ} (hc : c.request = some n) (hn : ¬ Accepted n) : Effect d h bs c 0 bs
  | grant {c : Call} {n p : ℕ} {l bs' : List Block} (hc : c.request = some n) (hn : Accepted n)
      (hnull : c.pointer = 0) (hg : Granted (roundUp n) bs l bs')
      (hp : Stuck d h bs l ∧ p = 0 ∨
        ¬ Stuck d h bs l ∧ p = d.start + span Block.len l + headerSize) :
      Effect d h bs c p bs'
  | freeNull : Effect d h bs (.free 0) 0 bs
  | free {n : ℕ} {l r : List Block} (hbs : bs = l ++ ⟨n, false⟩ :: r) :
      Effect d h bs (.free (d.start + span Block.len l + headerSize)) 0 (coalesce l n r)
  | inPlace {n size : ℕ} {l r bs' : List Block} (hbs : bs = l ++ ⟨n, false⟩ :: r)
      (hsize : Accepted size) (hp : InPlace (roundUp size) n l r bs') :
      Effect d h bs (.realloc (d.start + span Block.len l + headerSize) size)
        (d.start + span Block.len l + headerSize) bs'
  | stuck {n size : ℕ} {l r l' bs' : List Block} (hbs : bs = l ++ ⟨n, false⟩ :: r)
      (hsize : Accepted size) (hm : Moves (roundUp size) n r) (hg : Granted (roundUp size) bs l' bs')
      (hs : Stuck d h bs l') :
      Effect d h bs (.realloc (d.start + span Block.len l + headerSize) size) 0 bs'
  | move {n size : ℕ} {l r l' l₁ r₁ bs₁ : List Block} (hbs : bs = l ++ ⟨n, false⟩ :: r)
      (hsize : Accepted size) (hm : Moves (roundUp size) n r) (hg : Granted (roundUp size) bs l' bs₁)
      (hs : ¬ Stuck d h bs l') (hbs₁ : bs₁ = l₁ ++ ⟨n, false⟩ :: r₁)
      (hl : span Block.len l₁ = span Block.len l) :
      Effect d h bs (.realloc (d.start + span Block.len l + headerSize) size)
        (d.start + span Block.len l' + headerSize) (coalesce l₁ n r₁)

theorem Call.run_refuse {d : DataSegment} {h : Heap} {c : Call} {n : ℕ} (hc : c.request = some n)
    (hn : ¬ Accepted n) : c.run d h = .ok (0, h) := by
  have hn' := not_accepted.mp hn
  cases c with
  | malloc size =>
    cases hc
    exact malloc_refuse hn'
  | calloc num size =>
    cases hc
    exact calloc_refuse hn'
  | realloc p size =>
    cases hc
    by_cases hp : p = 0
    · rw [Call.run, DataSegment.realloc, if_pos hp, malloc_refuse hn']
    · exact realloc_refuse hp hn'.symm
  | free p => cases hc

namespace DataSegment
variable {d : DataSegment} {h h' : Heap} {bs bs' l : List Block} {req p : ℕ}

theorem Grant.stuck_or (hg : Grant d req h bs l p h' bs') :
    Stuck d h bs l ∧ p = 0 ∨ ¬ Stuck d h bs l ∧ p = d.start + span Block.len l + headerSize := by
  have hp := hg.pointer
  by_cases hs : Stuck d h bs l
  · exact Or.inl ⟨hs, hp.trans (if_pos hs)⟩
  · exact Or.inr ⟨hs, hp.trans (if_neg hs)⟩

end DataSegment

namespace Client
variable {d : DataSegment} {s : Client} {bs : List Block} {c : Call}

/-- The outcome of a call on a heap with the blocks `bs`. -/
def Outcome (d : DataSegment) (h : Heap) (bs : List Block) (c : Call) : Prop :=
  c.run d h = .error .breakFailed ∨
    ∃ q h' bs', c.run d h = .ok (q, h') ∧ Effect d h bs c q bs' ∧ DataSegment.Represented d h' bs'

theorem refuse_outcome {n : ℕ} (hr : DataSegment.Represented d s.heap bs) (hc : c.request = some n)
    (hn : ¬ Accepted n) : Outcome d s.heap bs c :=
  Or.inr ⟨0, s.heap, bs, Call.run_refuse hc hn, .refuse hc hn, hr⟩

theorem null_outcome (ho : s.Owns d bs) (hp : c.pointer = 0) : Outcome d s.heap bs c := by
  have hmalloc : ∀ {n : ℕ} {c : Call}, c.request = some n → c.pointer = 0 → Accepted n →
      c.run d s.heap = d.malloc n s.heap → Outcome d s.heap bs c := by
    intro n c hc hp hn he
    rw [Outcome, he]
    refine (DataSegment.malloc_grant ho.rep (mt not_accepted.mpr (not_not.mpr hn))).imp And.right ?_
    rintro ⟨l, q, h', bs', he, hg, -⟩
    exact ⟨q, h', bs', he, .grant hc hn hp hg.granted hg.stuck_or, Or.inl hg.rep⟩
  cases c with
  | malloc size =>
    by_cases hn : Accepted size
    · exact hmalloc rfl rfl hn rfl
    · exact refuse_outcome ho.rep rfl hn
  | calloc num size =>
    by_cases hn : Accepted (num * size % 2 ^ 32)
    · refine (DataSegment.calloc_grant ho.rep rfl (mt not_accepted.mpr (not_not.mpr hn))).imp And.right ?_
      rintro ⟨l, q, h', bs', he, hg, -⟩
      exact ⟨q, h', bs', he, .grant rfl hn rfl hg.granted hg.stuck_or, Or.inl hg.rep⟩
    · exact refuse_outcome ho.rep rfl hn
  | realloc p size =>
    by_cases hn : Accepted size
    · refine hmalloc rfl hp hn ?_
      have hp : p = 0 := hp
      rw [Call.run, DataSegment.realloc, if_pos hp]
    · exact refuse_outcome ho.rep rfl hn
  | free p =>
    obtain rfl : p = 0 := hp
    exact Or.inr ⟨0, s.heap, bs, rfl, .freeNull, ho.rep⟩

theorem held_outcome (ho : s.Owns d bs) (hp : c.pointer ∈ s.held) : Outcome d s.heap bs c := by
  obtain ⟨a, n, ha, hx⟩ := ho.used _ hp
  have hr := ho.rep.rep hx
  obtain ⟨l, r, rfl, hal⟩ := mem_place_split hx
  simp only at hal
  subst hal
  cases c with
  | malloc size => exact null_outcome ho rfl
  | calloc num size => exact null_outcome ho rfl
  | free p =>
    obtain rfl : p = d.start + span Block.len l + headerSize := ha
    obtain ⟨h', he, hr', -⟩ := DataSegment.free_rep hr
    refine Or.inr ⟨0, h', _, ?_, .free rfl, Or.inl hr'⟩
    simp only [Call.run, he, ok_bind, pure_eq_ok]
  | realloc p size =>
    obtain rfl : p = d.start + span Block.len l + headerSize := ha
    by_cases hn : Accepted size
    swap
    · exact refuse_outcome ho.rep rfl hn
    have hsize : ¬ (size = 0 ∨ size > maxSize) := fun h => not_accepted.mpr h.symm hn
    rcases inPlace_or_moves (roundUp size) n l r with ⟨bs', hip⟩ | hm
    · refine (DataSegment.realloc_inPlace hr hsize hip rfl).imp And.right ?_
      rintro ⟨h', he, hr', -⟩
      exact ⟨_, h', bs', he, .inPlace rfl hn hip, Or.inl hr'⟩
    · obtain ⟨hacc, hround⟩ := DataSegment.roundUp_accepted hsize
      rw [Outcome, Call.run, DataSegment.realloc_moves hr hsize hm rfl]
      refine (DataSegment.moveBlock_grant hr hx hm.1.le hacc).imp And.right ?_
      rw [hround]
      rintro ⟨l', q, h₁, bs₁, hg, ⟨hq, he⟩ | ⟨hq, h', bs', he, hf, -⟩⟩
      · have hs := hg.stuck_or.resolve_right ?_
        · exact ⟨0, h₁, bs₁, he, .stuck rfl hn hm hg.granted hs.1, Or.inl hg.rep⟩
        · rintro ⟨-, hq'⟩
          simp [hq', headerSize] at hq
      · obtain ⟨hs, rfl⟩ := hg.stuck_or.resolve_left fun hs => hq hs.2
        obtain ⟨l₁, r₁, hbs₁, hal, rfl⟩ := hf.blocks
        exact ⟨_, h', _, he, .move rfl hn hm hg.granted hs hbs₁ (by omega), Or.inl hf.rep⟩

/-- One call of a client: its effect on the blocks, and what the client holds after it. -/
theorem call_effect (ho : s.Owns d bs) (hl : s.Legal c) :
    c.run d s.heap = .error .breakFailed ∨
      ∃ q h' bs', c.run d s.heap = .ok (q, h') ∧ Effect d s.heap bs c q bs' ∧
        Owns d ⟨h', s.receive c q⟩ bs' ∧ Served d c s.heap bs q h' bs' := by
  have hout : Outcome d s.heap bs c := hl.elim (null_outcome ho) (held_outcome ho)
  refine hout.imp_right ?_
  rintro ⟨q, h', bs', he, heff, hr⟩
  rcases call_spec ho hl with hf | ⟨q', h'', bs'', he', hv⟩
  · rw [he] at hf
    cases hf
  · rw [he] at he'
    cases he'
    obtain rfl := hr.unique hv.rep
    exact ⟨q, h', bs', he, heff, call_owns ho hv, hv⟩

theorem step_effect (ho : s.Owns d bs) {t : Client} (hs : s.Step d (.call c) t) :
    ∃ q h' bs', c.run d s.heap = .ok (q, h') ∧ Effect d s.heap bs c q bs' ∧
      Owns d ⟨h', s.receive c q⟩ bs' ∧ t = ⟨h', s.receive c q⟩ := by
  obtain ⟨hl, q, h', hrun, rfl⟩ := step_call hs
  rcases call_effect ho hl with he | ⟨q', h'', bs', he, heff, ho', -⟩
  · rw [hrun] at he
    cases he
  · rw [hrun] at he
    cases he
    exact ⟨q, h', bs', hrun, heff, ho', rfl⟩

end Client

end OperationSystems.Malloc3
