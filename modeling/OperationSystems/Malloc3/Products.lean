import OperationSystems.Malloc3.Limits

/-!
# The product in `calloc`

`calloc` multiplies two `size_t` values and takes the block and the bytes to
clear from the product as it comes out. A block is shorter than `2 ^ 32` bytes,
so a product that wraps never gets the block that it stands for.
-/

namespace OperationSystems.Malloc3
open ByteMemory CircularList Tiling Transition DataSegment

namespace Client
variable {d : DataSegment} {s : Client} {es : List Event} {bs bs' l : List Block} {num size q : ℕ}
  {h' : Heap}

/-- What `calloc` returns: nothing, or a block with all the bytes that it was asked for, each of them
zero, while those of the client stay as they are. -/
def HandsOutZeroed (s : Client) (num size q : ℕ) (h' : Heap) : Prop :=
  q ≠ 0 → ∃ x ∈ h'.listing, x.2.2 = false ∧ q = x.1 + headerSize ∧ ((num * size : ℕ) : ℤ) ≤ x.2.1 ∧
    (∀ i < num * size, h'.mem (q + i) = 0) ∧ ∀ p ∈ s.held, ∀ i ∈ s.payload p, h'.mem i = s.heap.mem i

/-- A pointer that `calloc` returns is that of a zeroed block if and only if the product did not
wrap. -/
theorem granted_zeroed_iff (ho : s.Owns d bs)
    (hg : Grant d (roundUp (num * size % 2 ^ 32)) s.heap bs l q h' bs') (hq : q ≠ 0)
    (hz : ∀ i < num * size % 2 ^ 32, h'.mem (q + i) = 0) :
    s.HandsOutZeroed num size q h' ↔ num * size < 2 ^ 32 := by
  obtain ⟨n, hcell, hn⟩ := hg.granted.cell (a := d.start)
  have hpa := hg.pointer_eq hq
  have hlist := Represented.listing (Or.inl hg.rep)
  constructor
  · intro hout
    obtain ⟨y, hy, -, -, hle, -⟩ := hout hq
    rw [hlist] at hy
    obtain ⟨x, hx, rfl⟩ := List.mem_map.mp hy
    have hlt := (hg.rep.cell_lt hx).2
    simp only [entry, Block.len] at hle hlt
    omega
  · intro hlt _
    rw [Nat.mod_eq_of_lt hlt] at hn hz
    have hle := (le_roundUp (num * size)).trans hn
    refine ⟨entry (_, ⟨n, false⟩), hlist ▸ List.mem_map_of_mem hcell, rfl, hpa, ?_, hz, ?_⟩
    · simp only [entry]
      omega
    · intro p hp i hi
      obtain ⟨a, m, rfl, hx⟩ := ho.used p hp
      rw [payload_eq ho hx, Set.mem_Ico] at hi
      refine (hg.keeps _ hx rfl (by simp)).2 i hi.1 ?_
      simp only [Block.len]
      omega

/-- `calloc` hands out what it was asked for if and only if the product does not wrap, or what it
wraps to gets nothing: it is zero or too large, or the block to be taken is marked. -/
theorem calloc_zeroed_iff (h : Run (Step d) (start d) es s) (num size : ℕ) :
    (Call.calloc num size).Exceeds d s.heap ∨
      ∃ q h', d.calloc num size s.heap = .ok (q, h') ∧
        (s.HandsOutZeroed num size q h' ↔ num * size < 2 ^ 32 ∨
          ¬ Accepted (num * size % 2 ^ 32) ∨ ¬ (Call.calloc num size).Clear s.heap) := by
  obtain ⟨bs, ho⟩ := run_owns h
  by_cases hn : Accepted (num * size % 2 ^ 32)
  swap
  · refine Or.inr ⟨0, s.heap, calloc_refuse (not_accepted.mp hn), ?_⟩
    exact iff_of_true (fun hq => absurd rfl hq) (Or.inr (Or.inl hn))
  rcases calloc_grant ho.rep rfl (mt not_accepted.mpr (not_not.mpr hn)) with ⟨-, he⟩ |
    ⟨l, q, h', bs', he, hg, hz⟩
  · exact Or.inl ((null_fails_iff ho rfl).mp he)
  refine Or.inr ⟨q, h', he, ?_⟩
  have hclear := Call.clear_iff (c := .calloc num size) ho.rep rfl hn hg.granted
  rcases hg.stuck_or with ⟨hs, rfl⟩ | ⟨hs, hq⟩
  · exact iff_of_true (fun hq => absurd rfl hq) (Or.inr (Or.inr (mt hclear.mp (not_not.mpr hs))))
  · have hq : q ≠ 0 := hq ▸ payload_ne_zero _
    rw [granted_zeroed_iff ho hg hq (hz hq), hclear]
    simp only [hn, hs, not_true_eq_false, not_false_eq_true, or_false]

theorem calloc_zeroed_iff_sample :
    ∃ s, Run (Step sampleSegment) (start sampleSegment) sampleEvents s ∧
      ∃ q h', sampleSegment.calloc 3 5 s.heap = .ok (q, h') ∧ s.HandsOutZeroed 3 5 q h' := by
  have hexec : (Run.exec (next sampleSegment) (start sampleSegment) sampleEvents).map
      (fun s => (Call.calloc 3 5).asks s.heap) = some none := by
    decide +kernel
  obtain ⟨s, hs, hasks⟩ := Option.map_eq_some_iff.mp hexec
  have hrun := Run.of_exec (fun _ _ _ => step_of_next) hs
  rcases calloc_zeroed_iff hrun 3 5 with ⟨k, hk, -⟩ | ⟨q, h', he, hiff⟩
  · rw [hasks] at hk
    cases hk
  · exact ⟨s, hrun, q, h', he, hiff.mpr (Or.inl (by decide))⟩

/-- `65537 * 65536` wraps to `65536`. -/
theorem wrapped_product : ∃ q h',
    sampleSegment.calloc 65537 65536 (start sampleSegment).heap = .ok (q, h') ∧ q = 4120 ∧
      h'.listing = [(4096, 65536, false)] ∧
      ¬ (start sampleSegment).HandsOutZeroed 65537 65536 q h' := by
  have hexec : (sampleSegment.calloc 65537 65536 (start sampleSegment).heap).toOption.map
      (fun r => (r.1, r.2.listing)) = some (4120, [(4096, 65536, false)]) := by
    decide +kernel
  obtain ⟨⟨q, h'⟩, hr, hv⟩ := Option.map_eq_some_iff.mp hexec
  obtain ⟨rfl, hlist⟩ := Prod.mk.inj hv
  refine ⟨4120, h', ok_of_toOption hr, rfl, hlist, fun hout => ?_⟩
  obtain ⟨x, hx, -, -, hle, -⟩ := hout (by decide)
  rw [hlist, List.mem_singleton] at hx
  subst hx
  revert hle
  decide

end Client

end OperationSystems.Malloc3
