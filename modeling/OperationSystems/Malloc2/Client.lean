import OperationSystems.Malloc2.Calls
import OperationSystems.Malloc3.Client

/-!
# Clients that free as they like

The calls and events are those of the clients of the merging allocator. A client
resizes a pointer only while it holds it, but it may free any pointer it ever got.
The blocks in use are those of the held pointers in every state it reaches.
-/

namespace OperationSystems.Malloc2
open ByteMemory CircularList Tiling Transition
open Malloc3 (Block Call Event Fault Result maxSize bind_eq_ok ok_bind ok_of_toOption pure_eq_ok)

structure Client where
  heap : Heap
  held : List ℕ
  returned : List ℕ

namespace Segment

def run (d : Segment) : Call → Heap → Result (ℕ × Heap)
  | .malloc size => d.malloc size
  | .calloc num size => d.calloc num size
  | .realloc p size => d.realloc p size
  | .free p => fun h => do return (0, ← d.free p h)

/-- The bytes that a call asks for. -/
def request (d : Segment) : Call → Option ℕ
  | .malloc size => some size
  | .calloc num size => some (num * size % 256 ^ d.word)
  | .realloc _ size => some size
  | .free _ => none

end Segment

namespace Client

def start (d : Segment) : Client := ⟨d.initial, [], []⟩

def size (d : Segment) (s : Client) (p : ℕ) : ℕ :=
  (readNode d.word s.heap.mem (p - d.header)).sizeOfAllocation

def payload (d : Segment) (s : Client) (p : ℕ) : Set ℕ := Set.Ico p (p + s.size d p)

def Legal (s : Client) : Call → Prop
  | .malloc _ => True
  | .calloc _ _ => True
  | .realloc p _ => p = 0 ∨ p ∈ s.held
  | .free p => p = 0 ∨ p ∈ s.returned

instance (s : Client) : (c : Call) → Decidable (s.Legal c)
  | .malloc _ => isTrue trivial
  | .calloc _ _ => isTrue trivial
  | .realloc p _ => inferInstanceAs (Decidable (p = 0 ∨ p ∈ s.held))
  | .free p => inferInstanceAs (Decidable (p = 0 ∨ p ∈ s.returned))

/-- The client after the call returned `q`. -/
def receive (s : Client) (c : Call) (q : ℕ) (h : Heap) : Client where
  heap := h
  held := if q = 0 then s.held.erase (c.released q) else q :: s.held.erase (c.released q)
  returned := if q = 0 then s.returned else q :: s.returned

def write (s : Client) (p : ℕ) (v : UInt8) : Client :=
  { s with heap := { s.heap with mem := fill s.heap.mem p 1 v } }

def step (d : Segment) (s : Client) : Event → Result Client
  | .call c =>
    if s.Legal c then do
      let (q, h) ← d.run c s.heap
      return s.receive c q h
    else .error .illegalCall
  | .write p offset v =>
    if p ∈ s.held ∧ offset < s.size d p then .ok (s.write (p + offset) v) else .error .illegalCall

/-- One event of a client run. -/
def Step (d : Segment) (s : Client) (e : Event) (t : Client) : Prop := s.step d e = .ok t

structure Owns (d : Segment) (s : Client) (bs : List Block) : Prop where
  rep : Represented d s.heap bs
  nodup : s.held.Nodup
  held : ∀ p, p ∈ s.held ↔ ∃ a, p = a + d.header ∧ Used d bs a
  returned : ∀ p ∈ s.returned, ∃ x ∈ cells d bs, p = x.1 + d.header

end Client

/-- The result `q` of a call. -/
structure Served (d : Segment) (c : Call) (h : Heap) (bs : List Block) (q : ℕ) (h' : Heap)
    (bs' : List Block) : Prop where
  rep : Represented d h' bs'
  sizes : sizes bs <+: sizes bs'
  keeps : Keeps d (fun b => ¬ Used d bs b) h bs h'
  block : q = 0 ∨ ∃ x ∈ cells d bs', q = x.1 + d.header ∧ (q = c.released q ∨ ¬ Used d bs x.1)
  used : ∀ b, Used d bs' b ↔ q = b + d.header ∨ Used d bs b ∧ b + d.header ≠ c.released q
  copied : ∀ a n size, c = .realloc (a + d.header) size → (a, ⟨n, false⟩) ∈ cells d bs → q ≠ 0 →
    ∀ i < min n size, h'.mem (q + i) = h.mem (a + d.header + i)

section Served
variable {d : Segment} {h h' : Heap} {bs bs' : List Block} {c : Call} {a b n p q size : ℕ}

/-- A call that does nothing to the blocks in use. -/
theorem served_same (hr : Represented d h bs) (hq : ∀ b, Used d bs b → b + d.header ≠ c.released 0) :
    Served d c h bs 0 h bs := by
  refine ⟨hr, List.prefix_rfl, fun _ _ _ _ _ _ => rfl, Or.inl rfl, fun b => ?_,
    fun _ _ _ _ _ hne => absurd rfl hne⟩
  constructor
  · exact fun hb => Or.inr ⟨hb, hq b hb⟩
  · rintro (he | ⟨hb, -⟩)
    · exact absurd he.symm (payload_ne_zero d b)
    · exact hb

theorem Allocated.served (ha : Allocated d n h bs a h' bs') (hnull : c.pointer = 0)
    (hc : c.released (a + d.header) = 0) : Served d c h bs (a + d.header) h' bs' := by
  obtain ⟨m, hx, hm⟩ := ha.cell
  refine ⟨Or.inl ha.rep, ha.sizes, ha.keeps, Or.inr ⟨_, hx, rfl, Or.inr ha.fresh⟩, fun b => ?_, ?_⟩
  · rw [ha.used, hc, Nat.add_right_cancel_iff, eq_comm (a := a)]
    exact or_congr_right (and_iff_left (payload_ne_zero d b)).symm
  · rintro a n size rfl
    exact absurd hnull (payload_ne_zero d a)

theorem malloc_served (hr : Represented d h bs) (hnull : c.pointer = 0) (hc : ∀ q, c.released q = 0)
    (size : ℕ) :
    d.limit < h.brk + (size + d.header) ∧ d.malloc size h = .error .breakFailed ∨
      ∃ q h' bs', d.malloc size h = .ok (q, h') ∧ Served d c h bs q h' bs' := by
  by_cases hsize : size > maxSize ∨ size = 0
  · exact Or.inr ⟨0, h, bs, malloc_refuse hsize,
      served_same hr fun b _ => (hc 0).symm ▸ payload_ne_zero d b⟩
  · refine (malloc_spec hr hsize).imp_right ?_
    rintro ⟨a, h', bs', he, ha⟩
    exact ⟨_, h', bs', he, ha.served hnull (hc _)⟩

theorem calloc_served (hr : Represented d h bs) (hnull : c.pointer = 0) (hc : ∀ q, c.released q = 0)
    (num size : ℕ) :
    d.limit < h.brk + (num * size % 256 ^ d.word + d.header) ∧
        d.calloc num size h = .error .breakFailed ∨
      ∃ q h' bs', d.calloc num size h = .ok (q, h') ∧ Served d c h bs q h' bs' := by
  by_cases hsize : num * size % 256 ^ d.word > maxSize ∨ num * size % 256 ^ d.word = 0
  · exact Or.inr ⟨0, h, bs, calloc_refuse hsize,
      served_same hr fun b _ => (hc 0).symm ▸ payload_ne_zero d b⟩
  · refine (calloc_spec hr rfl hsize).imp_right ?_
    rintro ⟨a, h', bs', he, ha⟩
    exact ⟨_, h', bs', he, ha.served hnull (hc _)⟩

theorem released_realloc (hq : q ≠ 0) : (Call.realloc p size).released q = p := if_neg hq

theorem within_served (hr : Represented d h bs) (hx : (a, ⟨n, false⟩) ∈ cells d bs) :
    Served d (.realloc (a + d.header) size) h bs (a + d.header) h bs := by
  have hne := payload_ne_zero d a
  refine ⟨hr, List.prefix_rfl, fun _ _ _ _ _ _ => rfl,
    Or.inr ⟨_, hx, rfl, Or.inl (released_realloc hne).symm⟩, fun b => ?_, ?_⟩
  · rw [released_realloc hne]
    constructor
    · intro hb
      by_cases hab : a = b
      · exact Or.inl (by rw [hab])
      · exact Or.inr ⟨hb, by omega⟩
    · rintro (he | ⟨hb, -⟩)
      · obtain rfl : a = b := by omega
        exact ⟨n, hx⟩
      · exact hb
  · rintro a' n' size' he - - i -
    simp only [Call.realloc.injEq] at he
    rw [he.1]

theorem Moved.served (hm : Moved d h bs a n b h' bs') (hx : (a, ⟨n, false⟩) ∈ cells d bs) :
    Served d (.realloc (a + d.header) size) h bs (b + d.header) h' bs' := by
  have hne := payload_ne_zero d b
  have hab : b ≠ a := by
    rintro rfl
    exact hm.fresh ⟨n, hx⟩
  obtain ⟨y, hy, rfl⟩ := hm.cell
  refine ⟨Or.inl hm.rep, hm.sizes, hm.keeps, Or.inr ⟨y, hy, rfl, Or.inr hm.fresh⟩, fun c => ?_, ?_⟩
  · rw [hm.used, released_realloc hne]
    constructor
    · rintro ⟨rfl | hc, hca⟩
      · exact Or.inl rfl
      · exact Or.inr ⟨hc, by omega⟩
    · rintro (he | ⟨hc, hca⟩)
      · obtain rfl : y.1 = c := by omega
        exact ⟨Or.inl rfl, hab⟩
      · exact ⟨Or.inr hc, by omega⟩
  · rintro a' n' size' he hx' - i hi
    simp only [Call.realloc.injEq] at he
    obtain rfl : a' = a := by omega
    have hn := congrArg (fun z : ℕ × Block => z.2.size) (place_eq hx hx' rfl)
    simp only at hn
    exact hm.copied i (by omega)

theorem realloc_served (hr : Represented d h bs) (hx : (a, ⟨n, false⟩) ∈ cells d bs) :
    d.limit < h.brk + (size + d.header) ∧
        d.realloc (a + d.header) size h = .error .breakFailed ∨
      ∃ q h' bs', d.realloc (a + d.header) size h = .ok (q, h') ∧
        Served d (.realloc (a + d.header) size) h bs q h' bs' := by
  by_cases hsize : size = 0 ∨ size > maxSize
  · refine Or.inr ⟨0, h, bs, ?_, served_same hr fun b _ => payload_ne_zero d b⟩
    simp only [Segment.realloc, if_neg (payload_ne_zero d a), if_pos hsize, pure_eq_ok]
  · by_cases hn : size ≤ n
    · exact Or.inr ⟨_, h, bs, realloc_within (hr.rep hx) hx hsize hn, within_served hr hx⟩
    · refine (realloc_move (hr.rep hx) hx hsize (by omega)).imp_right ?_
      rintro ⟨b, h', bs', he, hm⟩
      exact ⟨_, h', bs', he, hm.served hx⟩

theorem Released.served (hrel : Released d h bs a h' bs') : Served d (.free (a + d.header)) h bs 0 h' bs' := by
  refine ⟨Or.inl hrel.rep, hrel.sizes, fun x hx _ => hrel.keeps x hx id, Or.inl rfl, fun b => ?_,
    fun _ _ _ _ _ hne => absurd rfl hne⟩
  rw [hrel.used]
  simp only [Call.released, (payload_ne_zero d b).symm, false_or, ne_eq, Nat.add_right_cancel_iff]

/-- A pointer to a block is freed, whatever the flag of the block is. -/
theorem free_served (hr : Represented d h bs) {x : ℕ × Block} (hx : x ∈ cells d bs) :
    ∃ h' bs', d.free (x.1 + d.header) h = .ok h' ∧ Served d (.free (x.1 + d.header)) h bs 0 h' bs' := by
  by_cases hu : Used d bs x.1
  · obtain ⟨h', bs', he, hrel⟩ := free_used (hr.rep hx) hu
    exact ⟨h', bs', he, hrel.served⟩
  · refine ⟨h, bs, free_free (hr.rep hx) hx hu, served_same hr fun b hb he => hu ?_⟩
    simp only [Call.released, Nat.add_right_cancel_iff] at he
    rwa [← he]

end Served

namespace Client
variable {d : Segment} {s t : Client} {bs bs' : List Block} {c : Call} {es : List Event}

/-- The segment ends before the block that the call asks for would. -/
def Short (d : Segment) (s : Client) (c : Call) : Prop :=
  ∃ n, d.request c = some n ∧ d.limit < s.heap.brk + (n + d.header)

theorem call_spec (ho : s.Owns d bs) (hl : s.Legal c) :
    s.Short d c ∧ d.run c s.heap = .error .breakFailed ∨
      ∃ q h' bs', d.run c s.heap = .ok (q, h') ∧ Served d c s.heap bs q h' bs' := by
  cases c with
  | malloc n =>
    exact (malloc_served ho.rep rfl (fun _ => rfl) n).imp_left (And.imp_left fun hlt => ⟨n, rfl, hlt⟩)
  | calloc num n =>
    exact (calloc_served ho.rep rfl (fun _ => rfl) num n).imp_left
      (And.imp_left fun hlt => ⟨_, rfl, hlt⟩)
  | realloc p n =>
    rcases hl with rfl | hp
    · have heq : d.run (.realloc 0 n) s.heap = d.malloc n s.heap := by
        simp only [Segment.run, Segment.realloc, if_true]
      rw [heq]
      exact (malloc_served (c := .realloc 0 n) ho.rep rfl (fun _ => ite_self 0) n).imp_left
        (And.imp_left fun hlt => ⟨n, rfl, hlt⟩)
    · obtain ⟨a, rfl, m, hx⟩ := (ho.held p).mp hp
      exact (realloc_served ho.rep hx).imp_left (And.imp_left fun hlt => ⟨n, rfl, hlt⟩)
  | free p =>
    rcases hl with rfl | hp
    · refine Or.inr ⟨0, s.heap, bs, ?_, served_same ho.rep fun b _ => payload_ne_zero d b⟩
      simp only [Segment.run, Segment.free, if_true, ok_bind, pure_eq_ok]
    · obtain ⟨x, hx, rfl⟩ := ho.returned p hp
      obtain ⟨h', bs', he, hv⟩ := free_served ho.rep hx
      refine Or.inr ⟨0, h', bs', ?_, hv⟩
      simp only [Segment.run, he, ok_bind, pure_eq_ok]

theorem call_owns (ho : s.Owns d bs) {q : ℕ} {h' : Heap} (hv : Served d c s.heap bs q h' bs') :
    (s.receive c q h').Owns d bs' := by
  have herase : ∀ p, p ∈ s.held.erase (c.released q) ↔ p ≠ c.released q ∧ p ∈ s.held :=
    fun p => ho.nodup.mem_erase_iff
  have hnodup := ho.nodup.erase (c.released q)
  refine ⟨hv.rep, ?_, fun p => ?_, fun p hp => ?_⟩
  · simp only [receive]
    split_ifs with hq
    · exact hnodup
    · refine List.nodup_cons.mpr ⟨fun hmem => ?_, hnodup⟩
      obtain ⟨hne, hmem⟩ := (herase q).mp hmem
      obtain ⟨x, hx, rfl, hfresh⟩ := hv.block.resolve_left hq
      obtain ⟨a, ha, hu⟩ := (ho.held _).mp hmem
      exact hfresh.resolve_left hne (Nat.add_right_cancel ha ▸ hu)
  · have hmem : p ∈ (s.receive c q h').held ↔ q ≠ 0 ∧ p = q ∨ p ≠ c.released q ∧ p ∈ s.held := by
      simp only [receive]
      split_ifs with hq
      · rw [herase]
        simp [hq]
      · rw [List.mem_cons, herase]
        simp [hq]
    rw [hmem, ho.held]
    constructor
    · rintro (⟨hq, rfl⟩ | ⟨hne, a, rfl, hu⟩)
      · obtain ⟨x, -, hx, -⟩ := hv.block.resolve_left hq
        exact ⟨x.1, hx, (hv.used _).mpr (Or.inl hx)⟩
      · exact ⟨a, rfl, (hv.used a).mpr (Or.inr ⟨hu, hne⟩)⟩
    · rintro ⟨a, rfl, hu⟩
      rcases (hv.used a).mp hu with rfl | ⟨hu, hne⟩
      · exact Or.inl ⟨payload_ne_zero d a, rfl⟩
      · exact Or.inr ⟨hne, a, rfl, hu⟩
  · have hold : p ∈ s.returned → ∃ x ∈ cells d bs', p = x.1 + d.header := by
      intro hp
      obtain ⟨x, hx, rfl⟩ := ho.returned p hp
      obtain ⟨y, hy, hyx, -⟩ := mem_cells_sizes hv.sizes hx
      exact ⟨y, hy, by rw [hyx]⟩
    simp only [receive] at hp
    split_ifs at hp with hq
    · exact hold hp
    · rcases List.mem_cons.mp hp with rfl | hp
      · obtain ⟨x, hx, he, -⟩ := hv.block.resolve_left hq
        exact ⟨x, hx, he⟩
      · exact hold hp

theorem size_eq (hr : Rep d s.heap bs) {x : ℕ × Block} (hx : x ∈ cells d bs) :
    s.size d (x.1 + d.header) = x.2.size := by
  rw [size, Nat.add_sub_cancel]
  exact (hr.nodes x hx).size

theorem write_owns (ho : s.Owns d bs) {p offset : ℕ} (v : UInt8) (hp : p ∈ s.held)
    (hlt : offset < s.size d p) : (s.write (p + offset) v).Owns d bs := by
  obtain ⟨a, rfl, n, hx⟩ := (ho.held p).mp hp
  have hr := ho.rep.rep hx
  have hsz := size_eq hr hx
  simp only at hsz
  refine ⟨Or.inl (hr.payload hx fun i hi => fill_outside _ _ ?_), ho.nodup, ho.held, ho.returned⟩
  simp only [len, Segment.header] at hi hlt hsz ⊢
  omega

theorem step_call (hs : s.Step d (.call c) t) :
    s.Legal c ∧ ∃ q h', d.run c s.heap = .ok (q, h') ∧ t = s.receive c q h' := by
  simp only [Step, step] at hs
  split_ifs at hs with hl
  obtain ⟨⟨q, h'⟩, he, hs⟩ := bind_eq_ok.mp hs
  exact ⟨hl, q, h', he, (Except.ok.inj hs).symm⟩

/-- What one event preserves. -/
theorem step_owns (ho : s.Owns d bs) {e : Event} (hs : s.Step d e t) :
    ∃ bs', t.Owns d bs' ∧ sizes bs <+: sizes bs' := by
  cases e with
  | call c =>
    obtain ⟨hl, q, h', hrun, rfl⟩ := step_call hs
    rcases call_spec ho hl with ⟨-, he⟩ | ⟨q', h'', bs', he, hv⟩
    · rw [hrun] at he
      cases he
    · rw [hrun] at he
      cases he
      exact ⟨bs', call_owns ho hv, hv.sizes⟩
  | write p offset v =>
    simp only [Step, step] at hs
    split_ifs at hs with hl
    exact ⟨bs, Except.ok.inj hs ▸ write_owns ho v hl.1 hl.2, List.prefix_rfl⟩

theorem start_owns (d : Segment) : (start d).Owns d [] :=
  ⟨Or.inr ⟨rfl, rfl, rfl, rfl⟩, List.nodup_nil, by simp [start, Used], by simp [start]⟩

/-- What a run from a state on preserves. -/
theorem run_owns (ho : s.Owns d bs) (h : Run (Step d) s es t) :
    ∃ bs', t.Owns d bs' ∧ sizes bs <+: sizes bs' := by
  refine h.invariant (P := fun t => ∃ bs', t.Owns d bs' ∧ sizes bs <+: sizes bs')
    ⟨bs, ho, List.prefix_rfl⟩ ?_
  rintro u e w ⟨bs₁, ho₁, hs₁⟩ hs
  obtain ⟨bs₂, ho₂, hs₂⟩ := step_owns ho₁ hs
  exact ⟨bs₂, ho₂, hs₁.trans hs₂⟩

/-- A step as far as it succeeds. -/
def next (d : Segment) (s : Client) (e : Event) : Option Client := (s.step d e).toOption

theorem step_of_next {e : Event} (h : next d s e = some t) : Step d s e t := ok_of_toOption h

end Client

end OperationSystems.Malloc2
