import OperationSystems.Malloc3.Used

/-!
# No block is lost

The used blocks are those of the held pointers, as long as no call takes a free
block whose first word is `-1`. `malloc` takes such a block out of the free
ones and then reads the word as a failure of `sbrk`.
-/

namespace OperationSystems.Malloc3
open ByteMemory CircularList Tiling Transition DataSegment

theorem Effect.null_iff {d : DataSegment} {h : Heap} {bs bs' : List Block} {c : Call} {q n : ℕ}
    (he : Effect d h bs c q bs') (hr : Represented d h bs) (hc : c.Clear h)
    (hreq : c.request = some n) : q = 0 ↔ ¬ Accepted n := by
  cases he with
  | refuse hreq' hn =>
    cases hreq.symm.trans hreq'
    exact iff_of_true rfl hn
  | grant hreq' hn hnull hg hp =>
    cases hreq.symm.trans hreq'
    have hs := (Call.clear_iff hr (Call.mallocs_null hreq hnull) hn hg).mp hc
    obtain ⟨-, rfl⟩ := hp.resolve_left fun h => hs h.1
    exact iff_of_false (payload_ne_zero _) (not_not.mpr hn)
  | freeNull => cases hreq
  | free hbs => cases hreq
  | inPlace hbs hsize hp =>
    cases hreq
    exact iff_of_false (payload_ne_zero _) (not_not.mpr hsize)
  | stuck hbs hsize hm hg hs =>
    have hcall := (Call.mallocs_realloc (Effect.rep_of_split hr hbs)).mpr hm
    exact absurd hs ((Call.clear_iff hr hcall hsize hg).mp hc)
  | move hbs hsize hm hg hs hbs₁ hl =>
    cases hreq
    exact iff_of_false (payload_ne_zero _) (not_not.mpr hsize)

namespace Client
variable {d : DataSegment} {s t : Client} {es : List Event} {bs bs' : List Block} {c : Call}

/-- The blocks in use are those of the held pointers. -/
def Accounted (s : Client) : Prop :=
  ∀ p, p ∈ s.held ↔ ∃ x ∈ s.heap.listing, x.2.2 = false ∧ p = x.1 + headerSize

/-- A call that does what its client relies on: no block is lost, whether it succeeds depends on the
size alone, and if it does not, nothing has changed. -/
structure Clean (s : Client) (c : Call) (q : ℕ) (h' : Heap) : Prop where
  accounted : Accounted ⟨h', s.receive c q⟩
  null : ∀ n, c.request = some n → (q = 0 ↔ ¬ Accepted n)
  unchanged : c.request ≠ none → q = 0 → h' = s.heap

/-- The condition under which an event is clean. -/
def Clear (s : Client) : Event → Prop
  | .call c => c.Clear s.heap
  | .write _ _ _ => True

theorem accounted_iff (ho : s.Owns d bs) :
    s.Accounted ↔ ∀ a, a + headerSize ∈ s.held ↔ a ∈ used d.start bs := by
  have hlist : ∀ p, (∃ x ∈ s.heap.listing, x.2.2 = false ∧ p = x.1 + headerSize) ↔
      ∃ a ∈ used d.start bs, p = a + headerSize := by
    intro p
    rw [ho.rep.listing]
    constructor
    · rintro ⟨y, hy, hf, rfl⟩
      obtain ⟨⟨a, n, f⟩, hx, rfl⟩ := List.mem_map.mp hy
      obtain rfl : f = false := hf
      exact ⟨a, mem_used.mpr ⟨n, hx⟩, rfl⟩
    · rintro ⟨a, ha, rfl⟩
      obtain ⟨n, hx⟩ := mem_used.mp ha
      exact ⟨entry (a, ⟨n, false⟩), List.mem_map_of_mem hx, rfl, rfl⟩
  constructor
  · intro h a
    rw [h, hlist]
    constructor
    · rintro ⟨b, hb, he⟩
      rwa [Nat.add_right_cancel he]
    · exact fun ha => ⟨a, ha, rfl⟩
  · intro h p
    rw [hlist]
    constructor
    · intro hp
      obtain ⟨a, n, rfl, hx⟩ := ho.used p hp
      exact ⟨a, mem_used.mpr ⟨n, hx⟩, rfl⟩
    · rintro ⟨a, ha, rfl⟩
      exact (h a).mpr ha

theorem mem_receive (ho : s.Owns d bs) {a q : ℕ} : a + headerSize ∈ s.receive c q ↔
    a + headerSize ∈ s.held ∧ a + headerSize ≠ c.released q ∨ q = a + headerSize := by
  have herase : a + headerSize ∈ s.held.erase (c.released q) ↔
      a + headerSize ≠ c.released q ∧ a + headerSize ∈ s.held := ho.nodup.mem_erase_iff
  have hne := payload_ne_zero a
  rw [receive]
  split_ifs with hq
  · rw [herase, hq]
    tauto
  · rw [List.mem_cons, herase]
    tauto

/-- A call is clean if and only if it takes no marked block. -/
theorem call_clean_iff (ho : s.Owns d bs) (ha : s.Accounted) {q : ℕ} {h' : Heap}
    (hrun : c.run d s.heap = .ok (q, h')) (he : Effect d s.heap bs c q bs')
    (ho' : Owns d ⟨h', s.receive c q⟩ bs') : s.Clean c q h' ↔ c.Clear s.heap := by
  have hheld := (accounted_iff ho).mp ha
  constructor
  · intro hcl
    by_contra hc
    obtain ⟨rfl, a, hnew, hold⟩ := he.unbalanced ho.rep hc
    have hmem : a + headerSize ∈ s.receive c 0 :=
      ((accounted_iff ho').mp hcl.accounted a).mpr hnew
    rcases (mem_receive ho).mp hmem with ⟨hm, -⟩ | hz
    · exact hold ((hheld a).mp hm)
    · exact payload_ne_zero a hz.symm
  · intro hc
    refine ⟨(accounted_iff ho').mpr fun a => ?_, fun n hn => he.null_iff ho.rep hc hn, ?_⟩
    · rw [mem_receive ho, hheld, he.balanced ho.rep hc a]
    · intro hreq hq
      obtain ⟨n, hn⟩ := Option.ne_none_iff_exists'.mp hreq
      rw [Call.run_refuse hn ((he.null_iff ho.rep hc hn).mp hq)] at hrun
      cases hrun
      rfl

theorem write_accounted (ho : s.Owns d bs) (ha : s.Accounted) {p offset : ℕ} (v : UInt8)
    (hp : p ∈ s.held) (hlt : offset < s.size p) :
    Accounted { s with heap := { s.heap with mem := fill s.heap.mem (p + offset) 1 v } } :=
  (accounted_iff (write_owns ho v hp hlt)).mpr ((accounted_iff ho).mp ha)

/-- What one event preserves. -/
theorem step_accounted {e : Event} (h : ∃ bs, s.Owns d bs ∧ s.Accounted) (hs : s.Step d e t)
    (hc : s.Clear e) : ∃ bs, t.Owns d bs ∧ t.Accounted := by
  obtain ⟨bs, ho, ha⟩ := h
  cases e with
  | call c =>
    obtain ⟨q, h', bs', he, heff, ho', rfl⟩ := step_effect ho hs
    exact ⟨bs', ho', ((call_clean_iff ho ha he heff ho').mpr hc).accounted⟩
  | write p offset v =>
    obtain ⟨hp, hlt, rfl⟩ := step_write hs
    exact ⟨bs, write_owns ho v hp hlt, write_accounted ho ha v hp hlt⟩

theorem start_accounted (d : DataSegment) : (start d).Accounted :=
  (accounted_iff (start_owns d)).mpr (by simp [start])

/-- Along a run whose calls take no marked block, the used blocks are the held ones, and the next
call keeps it so, succeeds by its size alone and changes nothing if it fails, if and only if it takes
no marked block either. -/
theorem no_block_lost (h : Run (fun s e t => Step d s e t ∧ s.Clear e) (start d) es s) :
    s.Accounted ∧ ∀ c : Call, s.Legal c → c.run d s.heap = .error .breakFailed ∨
      ∃ q h', c.run d s.heap = .ok (q, h') ∧ (s.Clean c q h' ↔ c.Clear s.heap) := by
  obtain ⟨bs, ho, ha⟩ := h.invariant (P := fun s => ∃ bs, s.Owns d bs ∧ s.Accounted)
    ⟨[], start_owns d, start_accounted d⟩ fun _ _ _ hp hs => step_accounted hp hs.1 hs.2
  refine ⟨ha, fun c hl => (call_effect ho hl).imp_right ?_⟩
  rintro ⟨q, h', bs', he, heff, ho', -⟩
  exact ⟨q, h', he, call_clean_iff ho ha he heff ho'⟩

instance (s : Client) (e : Event) : Decidable (s.Clear e) := by
  unfold Clear Call.Clear
  cases e <;> infer_instance

/-- A step as far as it succeeds, without lost blocks. -/
def nextClear (d : DataSegment) (s : Client) (e : Event) : Option Client :=
  if s.Clear e then next d s e else none

theorem step_of_nextClear {e : Event} (h : nextClear d s e = some t) : s.Step d e t ∧ s.Clear e := by
  unfold nextClear at h
  split_ifs at h with hc
  exact ⟨step_of_next h, hc⟩

theorem no_block_lost_sample :
    ∃ s, Run (fun s e t => Step sampleSegment s e t ∧ s.Clear e) (start sampleSegment) sampleEvents s ∧
      s.Accounted := by
  have hexec : (Run.exec (nextClear sampleSegment) (start sampleSegment) sampleEvents).isSome := by
    decide +kernel
  obtain ⟨s, hs⟩ := Option.isSome_iff_exists.mp hexec
  have hrun := Run.of_exec (fun _ _ _ => step_of_nextClear) hs
  exact ⟨s, hrun, (no_block_lost hrun).1⟩

def lostEvents : List Event :=
  [.call (.malloc 8), .write 4120 0 255, .write 4120 1 255, .write 4120 2 255, .write 4120 3 255,
    .call (.free 4120), .call (.malloc 8)]

/-- A block whose first word is `-1` is in use after the second `malloc`, and nobody holds it. -/
theorem block_lost : ∃ s, Run (Step sampleSegment) (start sampleSegment) lostEvents s ∧
    s.held = [] ∧ s.heap.listing = [(4096, 8, false)] ∧ ¬ s.Accounted := by
  have hexec : (Run.exec (next sampleSegment) (start sampleSegment) lostEvents).map
      (fun s => (s.held, s.heap.listing)) = some ([], [(4096, 8, false)]) := by
    decide +kernel
  obtain ⟨s, hs, hf⟩ := Option.map_eq_some_iff.mp hexec
  obtain ⟨hheld, hlist⟩ := Prod.mk.inj hf
  refine ⟨s, Run.of_exec (fun _ _ _ => step_of_next) hs, hheld, hlist, ?_⟩
  intro ha
  have hmem := (ha 4120).mpr ⟨(4096, 8, false), by rw [hlist]; simp, rfl, rfl⟩
  rw [hheld] at hmem
  cases hmem

end Client

end OperationSystems.Malloc3
