import OperationSystems.Malloc3.Calls
import OperationSystems.Lib.Run

/-!
# Clients of the allocator

A client holds the pointers it got and has not given back. It calls the
allocator with these pointers only, and it writes only into the blocks it
holds. In every state that such a client reaches, the heap is represented by a
list of blocks in which each held pointer has a used block of its own.
-/

namespace OperationSystems.Malloc3
open ByteMemory CircularList Tiling Transition

inductive Call where
  | malloc (size : ℕ)
  | calloc (num size : ℕ)
  | realloc (p size : ℕ)
  | free (p : ℕ)
deriving DecidableEq

structure Client where
  heap : Heap
  held : List ℕ

inductive Event where
  | call (c : Call)
  | write (p offset : ℕ) (v : UInt8)
deriving DecidableEq

namespace Call

/-- The pointer that the call frees or resizes. -/
def pointer : Call → ℕ
  | malloc _ => 0
  | calloc _ _ => 0
  | realloc p _ => p
  | free p => p

/-- The pointer that the client gives up when the call returns `q`. -/
def released (q : ℕ) : Call → ℕ
  | malloc _ => 0
  | calloc _ _ => 0
  | realloc p _ => if q = 0 then 0 else p
  | free p => p

def run (d : DataSegment) : Call → Heap → Result (ℕ × Heap)
  | malloc size => d.malloc size
  | calloc num size => d.calloc num size
  | realloc p size => d.realloc p size
  | free p => fun h => do return (0, ← d.free p h)

end Call

namespace Client

def start (d : DataSegment) : Client := ⟨d.initial, []⟩

/-- `size_of_allocation` of the block that `p` points into. -/
def size (s : Client) (p : ℕ) : ℕ := (readNode s.heap.mem (p - headerSize)).sizeOfAllocation.toNat

def payload (s : Client) (p : ℕ) : Set ℕ := Set.Ico p (p + s.size p)

def Legal (s : Client) (c : Call) : Prop := c.pointer = 0 ∨ c.pointer ∈ s.held

instance (s : Client) (c : Call) : Decidable (s.Legal c) :=
  inferInstanceAs (Decidable (c.pointer = 0 ∨ c.pointer ∈ s.held))

/-- What the client holds after the call returned `q`. -/
def receive (s : Client) (c : Call) (q : ℕ) : List ℕ :=
  if q = 0 then s.held.erase (c.released q) else q :: s.held.erase (c.released q)

def step (d : DataSegment) (s : Client) : Event → Result Client
  | .call c =>
    if s.Legal c then do
      let (q, h) ← c.run d s.heap
      return ⟨h, s.receive c q⟩
    else .error .illegalCall
  | .write p offset v =>
    if p ∈ s.held ∧ offset < s.size p then
      .ok { s with heap := { s.heap with mem := fill s.heap.mem (p + offset) 1 v } }
    else .error .illegalCall

/-- One event of a client run. -/
def Step (d : DataSegment) (s : Client) (e : Event) (t : Client) : Prop := s.step d e = .ok t

/-- Every held pointer has a used block of its own. -/
structure Owns (d : DataSegment) (s : Client) (bs : List Block) : Prop where
  rep : DataSegment.Represented d s.heap bs
  nodup : s.held.Nodup
  used : ∀ p ∈ s.held, ∃ a n, p = a + headerSize ∧ (a, ⟨n, false⟩) ∈ cells d.start bs

end Client

/-- The result `q` of a call. -/
structure Served (d : DataSegment) (c : Call) (h : Heap) (bs : List Block) (q : ℕ) (h' : Heap)
    (bs' : List Block) : Prop where
  rep : DataSegment.Represented d h' bs'
  keeps : Keeps d (fun a => a + headerSize = c.released q) h bs h' bs'
  block : q = 0 ∨ ∃ a n, q = a + headerSize ∧ (a, ⟨n, false⟩) ∈ cells d.start bs' ∧
    (q = c.released q ∨ ∀ x ∈ cells d.start bs, x.2.free = false → x.1 ≠ a)

namespace Client
variable {d : DataSegment} {s t : Client} {bs : List Block} {c : Call}

theorem call_null (ho : s.Owns d bs) (hp : c.pointer = 0) :
    c.run d s.heap = .error .breakFailed ∨
      ∃ q h' bs', c.run d s.heap = .ok (q, h') ∧ Served d c s.heap bs q h' bs' := by
  have hserved : ∀ {q h' bs' n}, DataSegment.Allocated d n s.heap bs q h' bs' →
      Served d c s.heap bs q h' bs' := by
    rintro q h' bs' n ⟨hr, hk, hb⟩
    refine ⟨hr, hk.mono fun _ => False.elim, hb.imp_right ?_⟩
    rintro ⟨a, n, hq, hx, -, hfresh⟩
    exact ⟨a, n, hq, hx, Or.inr hfresh⟩
  cases c with
  | malloc n =>
    refine (DataSegment.malloc_spec ho.rep n).imp_right ?_
    rintro ⟨q, h', bs', he, ha⟩
    exact ⟨q, h', bs', he, hserved ha⟩
  | calloc num n =>
    refine (DataSegment.calloc_spec ho.rep num n).imp_right ?_
    rintro ⟨q, h', bs', he, ha, -⟩
    exact ⟨q, h', bs', he, hserved ha⟩
  | realloc p n =>
    have hp : p = 0 := hp
    have heq : (Call.realloc p n).run d s.heap = d.malloc n s.heap := by
      simp only [Call.run, DataSegment.realloc, if_pos hp]
    rw [heq]
    refine (DataSegment.malloc_spec ho.rep n).imp_right ?_
    rintro ⟨q, h', bs', he, ha⟩
    exact ⟨q, h', bs', he, hserved ha⟩
  | free p =>
    have hp : p = 0 := hp
    refine Or.inr ⟨0, s.heap, bs, ?_, ho.rep, .refl _ _ _ _, Or.inl rfl⟩
    simp only [Call.run, DataSegment.free, if_pos hp]
    rfl

theorem call_held (ho : s.Owns d bs) (hp : c.pointer ∈ s.held) :
    c.run d s.heap = .error .breakFailed ∨
      ∃ q h' bs', c.run d s.heap = .ok (q, h') ∧ Served d c s.heap bs q h' bs' := by
  obtain ⟨a, n, ha, hx⟩ := ho.used _ hp
  have hr := ho.rep.rep hx
  cases c with
  | malloc n => exact call_null ho rfl
  | calloc num n => exact call_null ho rfl
  | realloc p size =>
    obtain rfl : p = a + headerSize := ha
    refine (@DataSegment.realloc_rep d s.heap bs n size hr a hx).imp_right ?_
    rintro ⟨q, h', bs', he, hr', hk, hb⟩
    refine ⟨q, h', bs', he, Or.inl hr', ?_, ?_⟩
    · rcases hb with ⟨rfl, hk⟩ | ⟨a', n', rfl, -⟩
      · exact hk.mono fun _ => False.elim
      · refine hk.mono fun b hb => ?_
        rw [hb, Call.released, if_neg (by simp [headerSize])]
    · rcases hb with ⟨rfl, -⟩ | ⟨a', n', rfl, hx', -, hfresh⟩
      · exact Or.inl rfl
      · refine Or.inr ⟨a', n', rfl, hx', hfresh.imp_left fun he => ?_⟩
        rw [he, Call.released, if_neg (by simp [headerSize])]
  | free p =>
    obtain rfl : p = a + headerSize := ha
    obtain ⟨l, r, rfl, hal⟩ := mem_place_split hx
    simp only at hal
    obtain ⟨h', he, hr', hk⟩ := DataSegment.free_rep hr
    rw [← hal] at he hk
    refine Or.inr ⟨0, h', _, ?_, Or.inl hr', ?_, Or.inl rfl⟩
    · simp only [Call.run, he, ok_bind, pure_eq_ok]
    · exact hk.mono fun b hb => by rw [hb, Call.released]

theorem call_spec (ho : s.Owns d bs) (hl : s.Legal c) :
    c.run d s.heap = .error .breakFailed ∨
      ∃ q h' bs', c.run d s.heap = .ok (q, h') ∧ Served d c s.heap bs q h' bs' := by
  rcases hl with hp | hp
  · exact call_null ho hp
  · exact call_held ho hp

theorem served_held (ho : s.Owns d bs) {q : ℕ} {h' : Heap} {bs' : List Block}
    (hv : Served d c s.heap bs q h' bs') {p : ℕ} (hp : p ∈ s.held) (hne : p ≠ c.released q) :
    ∃ a n, p = a + headerSize ∧ (a, ⟨n, false⟩) ∈ cells d.start bs ∧
      (a, ⟨n, false⟩) ∈ cells d.start bs' ∧
      ∀ i, a + headerSize ≤ i → i < a + headerSize + n → h'.mem i = s.heap.mem i := by
  obtain ⟨a, n, rfl, hx⟩ := ho.used p hp
  obtain ⟨hx', hm⟩ := hv.keeps _ hx rfl hne
  refine ⟨a, n, rfl, hx, hx', fun i hl hr => hm i hl ?_⟩
  simp only [Block.len]
  omega

theorem call_owns (ho : s.Owns d bs) {q : ℕ} {h' : Heap} {bs' : List Block}
    (hv : Served d c s.heap bs q h' bs') : Owns d ⟨h', s.receive c q⟩ bs' := by
  have hrest : ∀ p ∈ s.held.erase (c.released q), ∃ a n, p = a + headerSize ∧
      (a, ⟨n, false⟩) ∈ cells d.start bs' := by
    intro p hp
    obtain ⟨hne, hp⟩ := ho.nodup.mem_erase_iff.mp hp
    obtain ⟨a, n, hpa, -, hx, -⟩ := served_held ho hv hp hne
    exact ⟨a, n, hpa, hx⟩
  have hnodup := ho.nodup.erase (c.released q)
  refine ⟨hv.rep, ?_, ?_⟩
  · simp only [receive]
    split_ifs with hq
    · exact hnodup
    · refine List.nodup_cons.mpr ⟨?_, hnodup⟩
      intro hmem
      obtain ⟨hne, hmem⟩ := ho.nodup.mem_erase_iff.mp hmem
      obtain ⟨a, n, rfl, -, hfresh⟩ := hv.block.resolve_left hq
      obtain ⟨a', n', ha, hx⟩ := ho.used _ hmem
      exact (hfresh.resolve_left hne) _ hx rfl (by simp only; omega)
  · intro p hp
    simp only [receive] at hp
    split_ifs at hp with hq
    · exact hrest p hp
    · rcases List.mem_cons.mp hp with rfl | hp
      · obtain ⟨a, n, hpa, hx, -⟩ := hv.block.resolve_left hq
        exact ⟨a, n, hpa, hx⟩
      · exact hrest p hp

theorem size_eq (ho : s.Owns d bs) {a n : ℕ} (hx : (a, ⟨n, false⟩) ∈ cells d.start bs) :
    s.size (a + headerSize) = n := by
  have hsz := ((ho.rep.rep hx).nodes _ hx).size
  simp only at hsz
  rw [size, Nat.add_sub_cancel, hsz, Int.toNat_natCast]

theorem write_owns (ho : s.Owns d bs) {p offset : ℕ} (v : UInt8) (hp : p ∈ s.held)
    (hlt : offset < s.size p) :
    Owns d { s with heap := { s.heap with mem := fill s.heap.mem (p + offset) 1 v } } bs := by
  obtain ⟨a, n, rfl, hx⟩ := ho.used p hp
  rw [size_eq ho hx] at hlt
  refine ⟨Or.inl ((ho.rep.rep hx).payload hx fun i hi => fill_outside _ _ ?_), ho.nodup, ho.used⟩
  simp only [Block.len] at hi
  omega

theorem step_call (hs : s.Step d (.call c) t) :
    s.Legal c ∧ ∃ q h', c.run d s.heap = .ok (q, h') ∧ t = ⟨h', s.receive c q⟩ := by
  simp only [Step, step] at hs
  split_ifs at hs with hl
  obtain ⟨⟨q, h'⟩, he, hs⟩ := bind_eq_ok.mp hs
  exact ⟨hl, q, h', he, (Except.ok.inj hs).symm⟩

theorem step_write {p offset : ℕ} {v : UInt8} (hs : s.Step d (.write p offset v) t) :
    p ∈ s.held ∧ offset < s.size p ∧
      t = { s with heap := { s.heap with mem := fill s.heap.mem (p + offset) 1 v } } := by
  simp only [Step, step] at hs
  split_ifs at hs with hl
  exact ⟨hl.1, hl.2, (Except.ok.inj hs).symm⟩

/-- What one event preserves. -/
theorem step_owns (ho : s.Owns d bs) {e : Event} (hs : s.Step d e t) : ∃ bs', t.Owns d bs' := by
  cases e with
  | call c =>
    obtain ⟨hl, q, h', hrun, rfl⟩ := step_call hs
    rcases call_spec ho hl with he | ⟨q', h'', bs', he, hv⟩
    · rw [hrun] at he
      cases he
    · rw [hrun] at he
      cases he
      exact ⟨bs', call_owns ho hv⟩
  | write p offset v =>
    obtain ⟨hp, hlt, rfl⟩ := step_write hs
    exact ⟨bs, write_owns ho v hp hlt⟩

theorem start_owns (d : DataSegment) : (start d).Owns d [] :=
  ⟨Or.inr ⟨rfl, rfl, rfl, rfl⟩, List.nodup_nil, by simp [start]⟩

/-- What a whole run preserves. -/
theorem run_owns {es : List Event} (h : Run (Step d) (start d) es s) : ∃ bs, s.Owns d bs := by
  refine h.invariant (P := fun s => ∃ bs, s.Owns d bs) ⟨[], start_owns d⟩ ?_
  rintro t e u ⟨bs, ho⟩ hs
  exact step_owns ho hs

/-- A step as far as it succeeds. -/
def next (d : DataSegment) (s : Client) (e : Event) : Option Client := (s.step d e).toOption

theorem step_of_next {e : Event} (h : next d s e = some t) : Step d s e t := ok_of_toOption h

end Client

end OperationSystems.Malloc3
