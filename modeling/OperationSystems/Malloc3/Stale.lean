import OperationSystems.Malloc3.Limits
import OperationSystems.Malloc3.Frames

/-!
# Pointers that were released before

A client may also hand back a pointer that it released earlier and did not get
again. `free` looks at the flag byte in front of that pointer, wherever the
header that was there has gone, and compares it with 1.
-/

namespace OperationSystems.Malloc3
open ByteMemory CircularList Tiling Transition DataSegment

section Span
variable {l r bs bs' : List Block} {n req q : ℕ} {c : Call} {d : DataSegment} {h : Heap}

theorem span_coalesce : span Block.len (coalesce l n r) = span Block.len (l ++ ⟨n, false⟩ :: r) := by
  rcases List.eq_nil_or_concat l with rfl | ⟨l, ⟨m, _ | _⟩, rfl⟩
  · rw [coalesce_nil, span_absorb]
    rfl
  · rw [List.concat_eq_append, coalesce_used, span_append, span_cons, span_absorb]
    simp [Block.len]
  · rw [List.concat_eq_append, coalesce_free, span_append, span_absorb]
    simp [Block.len]
    omega

theorem DataSegment.Granted.span_le (hg : Granted req bs l bs') :
    span Block.len bs ≤ span Block.len bs' := by
  cases hg with
  | first => simp
  | placed hp =>
    cases hp with
    | fit hl hb => rw [span_append, span_append, span_take, span_cons]
    | @grow l b hbs hb =>
      have hlt : b.size < req := by
        by_contra hge
        exact hbs b (by simp) ⟨hb, by omega⟩
      simp only [span_append, span_cons, span_nil, Block.len]
      omega
    | append hbs hb => simp

theorem DataSegment.InPlace.span_le (hp : InPlace req n l r bs') :
    span Block.len (l ++ ⟨n, false⟩ :: r) ≤ span Block.len bs' := by
  cases hp with
  | within hn => rw [span_append, span_append, span_take, span_cons]
  | forward hn hfit => rw [span_append, span_append, span_take, merged_len, span_cons, span_cons, Nat.add_assoc]
  | last hn =>
    simp only [span_append, span_cons, span_nil, Block.len]
    omega

/-- No call lets the break go back. -/
theorem Effect.span_le (he : Effect d h bs c q bs') : span Block.len bs ≤ span Block.len bs' := by
  cases he with
  | refuse hc hn => exact le_rfl
  | grant hc hn hnull hg hp => exact hg.span_le
  | freeNull => exact le_rfl
  | free hbs => rw [hbs, span_coalesce]
  | inPlace hbs hsize hp => exact hbs ▸ hp.span_le
  | stuck hbs hsize hm hg hs => exact hg.span_le
  | move hbs hsize hm hg hs hbs₁ hl =>
    rw [span_coalesce, ← hbs₁]
    exact hg.span_le

end Span

namespace Client
variable {d : DataSegment} {s t : Client} {es : List Event} {bs bs' : List Block} {e : Event} {p : ℕ}

theorem step_brk (ho : s.Owns d bs) (hs : s.Step d e t) : s.heap.brk ≤ t.heap.brk := by
  cases e with
  | call c =>
    obtain ⟨q, h', bs', -, heff, ho', rfl⟩ := step_effect ho hs
    rw [ho.rep.brk_eq, ho'.rep.brk_eq]
    exact Nat.add_le_add_left heff.span_le _
  | write p offset v =>
    obtain ⟨-, -, rfl⟩ := step_write hs
    exact le_rfl

end Client

/-- A client together with the pointers that it released and did not get again. -/
structure Tracker where
  client : Client
  released : List ℕ

/-- What such a client does: an event as before, or `free` on one of the released pointers. -/
inductive Deed where
  | event (e : Event)
  | again (p : ℕ)
deriving DecidableEq

namespace Tracker
open Client (sampleSegment)

def start (d : DataSegment) : Tracker := ⟨.start d, []⟩

/-- The released pointers after a call that returned `q`. -/
def receive (t : Tracker) (c : Call) (q : ℕ) : List ℕ :=
  (if c.released q = 0 then t.released else c.released q :: t.released).filter (· ≠ q)

def step (d : DataSegment) (t : Tracker) : Deed → Result Tracker
  | .event (.call c) =>
    if t.client.Legal c then do
      let (q, h) ← c.run d t.client.heap
      return ⟨⟨h, t.client.receive c q⟩, t.receive c q⟩
    else .error .illegalCall
  | .event (.write p offset v) => do
    return ⟨← t.client.step d (.write p offset v), t.released⟩
  | .again p =>
    if p ∈ t.released then do
      let h ← d.free p t.client.heap
      return ⟨{ t.client with heap := h }, t.released⟩
    else .error .illegalCall

def Step (d : DataSegment) (t : Tracker) (x : Deed) (u : Tracker) : Prop := t.step d x = .ok u

/-- The byte in front of `p` that was its flag is exactly 1. -/
def FlagSet (t : Tracker) (p : ℕ) : Prop := t.client.heap.mem (p - headerSize) = 1

/-- `free` is called a second time only where the flag byte is 1. -/
def Guarded (t : Tracker) : Deed → Prop
  | .event _ => True
  | .again p => t.FlagSet p

/-- Releasing `p` once more changes no block, no counter and no byte of a held block. -/
def Harmless (d : DataSegment) (t : Tracker) (p : ℕ) : Prop :=
  ∃ h', d.free p t.client.heap = .ok h' ∧ h'.listing = t.client.heap.listing ∧
    h'.list = t.client.heap.list ∧
    ∀ q ∈ t.client.held, ∀ i ∈ t.client.payload q, h'.mem i = t.client.heap.mem i

/-- In front of every released pointer there is room for the header that was there. -/
structure Tracks (d : DataSegment) (t : Tracker) (bs : List Block) : Prop where
  owns : t.client.Owns d bs
  mapped : ∀ p ∈ t.released, ∃ a, p = a + headerSize ∧ d.Mapped t.client.heap a headerSize

variable {d : DataSegment} {t u : Tracker} {xs : List Deed} {bs : List Block} {x : Deed} {e : Event}
  {c : Call} {p q : ℕ}

theorem flagSet_iff :
    t.FlagSet p ↔ (readNode t.client.heap.mem (p - headerSize)).isFreed = true := by
  simp [FlagSet, AllocInfoNode.isFreed, readNode, load, ← UInt8.toNat_inj]

theorem step_client (hs : t.Step d (.event e) u) : Client.Step d t.client e u.client := by
  cases e with
  | call c =>
    simp only [Step, step] at hs
    split_ifs at hs with hl
    obtain ⟨⟨q, h⟩, he, hs⟩ := bind_eq_ok.mp hs
    cases hs
    simp only [Client.Step, Client.step, if_pos hl, he]
    rfl
  | write p offset v =>
    obtain ⟨s, he, hs⟩ := bind_eq_ok.mp hs
    cases hs
    exact he

/-- A pointer that a call releases was held. -/
theorem released_held (hl : t.client.Legal c) (hq : c.released q ≠ 0) :
    c.released q ∈ t.client.held := by
  have heq := (Client.released_cases c q).resolve_left hq
  rw [heq] at hq ⊢
  exact hl.resolve_left hq

theorem mem_receive (hp : p ∈ t.receive c q) : p ∈ t.released ∨ p = c.released q ∧ p ≠ 0 := by
  have hmem := (List.mem_filter.mp hp).1
  split_ifs at hmem with h0
  · exact Or.inl hmem
  · rcases List.mem_cons.mp hmem with rfl | hmem
    · exact Or.inr ⟨rfl, h0⟩
    · exact Or.inl hmem

theorem mem_released (ho : t.client.Owns d bs) (hs : t.Step d (.event e) u) (hp : p ∈ u.released) :
    p ∈ t.released ∨ ∃ a, p = a + headerSize ∧ d.Mapped t.client.heap a headerSize := by
  cases e with
  | call c =>
    simp only [Step, step] at hs
    split_ifs at hs with hl
    obtain ⟨⟨q, h⟩, -, hs⟩ := bind_eq_ok.mp hs
    cases hs
    refine (mem_receive hp).imp_right ?_
    rintro ⟨rfl, hq⟩
    obtain ⟨a, n, ha, hx⟩ := ho.used _ (released_held hl hq)
    exact ⟨a, ha, (ho.rep.rep hx).mapped hx⟩
  | write p offset v =>
    obtain ⟨s, -, hs⟩ := bind_eq_ok.mp hs
    cases hs
    exact Or.inl hp

theorem free_flagged (ht : t.Tracks d bs) (hp : p ∈ t.released) (hf : t.FlagSet p) :
    d.free p t.client.heap = .ok t.client.heap := by
  obtain ⟨a, rfl, hm⟩ := ht.mapped p hp
  rw [flagSet_iff, Nat.add_sub_cancel] at hf
  simp only [DataSegment.free, if_neg (payload_ne_zero a), Nat.add_sub_cancel, node_ok hm, ok_bind, hf,
    if_true, pure_eq_ok]

/-- What one deed preserves. -/
theorem step_tracks (ht : ∃ bs, t.Tracks d bs) (hs : t.Step d x u) (hg : t.Guarded x) :
    ∃ bs, u.Tracks d bs := by
  obtain ⟨bs, ht⟩ := ht
  cases x with
  | event e =>
    have hstep := step_client hs
    have hbrk := Client.step_brk ht.owns hstep
    obtain ⟨bs', ho⟩ := Client.step_owns ht.owns hstep
    refine ⟨bs', ho, fun p hp => ?_⟩
    obtain ⟨a, hpa, hm⟩ := (mem_released ht.owns hs hp).elim (ht.mapped p) id
    exact ⟨a, hpa, hm.1, hm.2.trans hbrk⟩
  | again p =>
    simp only [Step, step] at hs
    split_ifs at hs with hp
    rw [free_flagged ht hp hg] at hs
    cases hs
    exact ⟨bs, ht⟩

theorem run_tracks (h : Run (fun t x u => Step d t x u ∧ t.Guarded x) (start d) xs t) :
    ∃ bs, t.Tracks d bs :=
  h.invariant (P := fun t => ∃ bs, t.Tracks d bs) ⟨[], Client.start_owns d, by simp [start]⟩
    fun _ _ _ ht hs => step_tracks ht hs.1 hs.2

/-- Along a run that calls `free` a second time only where the flag byte is 1, doing so once more is
harmless if and only if that byte is 1. -/
theorem stale_free_harmless_iff
    (h : Run (fun t x u => Step d t x u ∧ t.Guarded x) (start d) xs t) (hp : p ∈ t.released) :
    t.Harmless d p ↔ t.FlagSet p := by
  obtain ⟨bs, ht⟩ := run_tracks h
  constructor
  · rintro ⟨h', he, -, hlist, -⟩
    by_contra hf
    obtain ⟨a, rfl, -⟩ := ht.mapped p hp
    exact free_counts (payload_ne_zero a) (by simpa [flagSet_iff] using hf) he hlist
  · intro hf
    exact ⟨_, free_flagged ht hp hf, rfl, rfl, fun _ _ _ _ => rfl⟩

instance (t : Tracker) (x : Deed) : Decidable (t.Guarded x) := by
  unfold Guarded FlagSet
  cases x <;> infer_instance

/-- A step as far as it succeeds, with the flag set. -/
def next (d : DataSegment) (t : Tracker) (x : Deed) : Option Tracker :=
  if t.Guarded x then (t.step d x).toOption else none

theorem step_of_next (h : next d t x = some u) : Step d t x u ∧ t.Guarded x := by
  unfold next at h
  split_ifs at h with hg
  exact ⟨ok_of_toOption h, hg⟩

theorem stale_free_harmless_iff_sample :
    ∃ t, Run (fun t x u => Step sampleSegment t x u ∧ t.Guarded x) (start sampleSegment)
        [.event (.call (.malloc 10)), .event (.call (.free 4120)), .again 4120] t ∧
      t.Harmless sampleSegment 4120 := by
  have hexec : (Run.exec (next sampleSegment) (start sampleSegment)
      [.event (.call (.malloc 10)), .event (.call (.free 4120)), .again 4120]).map
        (fun t => (t.released, t.client.heap.mem 4096)) = some ([4120], 1) := by
    decide +kernel
  obtain ⟨t, ht, hm⟩ := Option.map_eq_some_iff.mp hexec
  obtain ⟨hrel, hflag⟩ := Prod.mk.inj hm
  have hrun := Run.of_exec (fun _ _ _ => step_of_next) ht
  exact ⟨t, hrun, (stale_free_harmless_iff hrun (by simp [hrel])).mpr hflag⟩

def staleDeeds : List Deed :=
  [.event (.call (.malloc 100)), .event (.call (.malloc 200)), .event (.call (.malloc 300)),
    .event (.call (.free 4120)), .event (.call (.free 4244)), .event (.call (.malloc 88))]

/-- The header of the second block is taken in by the first one, and then the rest of a split writes
its size over the flag. -/
theorem stale_free_corrupts : ∃ t, Run (Step sampleSegment) (start sampleSegment) staleDeeds t ∧
    t.released = [4244] ∧ ¬ t.Harmless sampleSegment 4244 := by
  have hexec : (Run.exec (next sampleSegment) (start sampleSegment) staleDeeds).map (fun t =>
      (t.released, t.client.heap.listing.map fun x => x.2.1,
        (sampleSegment.free 4244 t.client.heap).toOption.map fun h => h.listing.map fun x => x.2.1)) =
      some ([4244], [88, 212, 300], some [88, 4294967508, 300]) := by
    decide +kernel
  obtain ⟨t, ht, hm⟩ := Option.map_eq_some_iff.mp hexec
  simp only [Prod.mk.injEq] at hm
  obtain ⟨hrel, hlist, hfree⟩ := hm
  refine ⟨t, Run.of_exec (fun _ _ _ h => (step_of_next h).1) ht, hrel, ?_⟩
  rintro ⟨h', he, hsame, -⟩
  simp only [he, Except.toOption, Option.map_some, hsame, hlist, Option.some.injEq] at hfree
  revert hfree
  decide

end Tracker

end OperationSystems.Malloc3
