import OperationSystems.Malloc3.Client

/-!
# What the allocator guarantees on every run

The list of blocks is read back off the links that start at `head`. Isolation
of the payloads, the layout of the list and the meaning of the counters follow
for every state that a client run reaches.
-/

namespace OperationSystems.Malloc3
open ByteMemory CircularList Tiling Transition

def nextOf (h : Heap) (p : ℕ) : ℕ := (readNode h.mem p).next

def prevOf (h : Heap) (p : ℕ) : ℕ := (readNode h.mem p).prev

/-- `ps` are the headers met from `head` along `next` until `head` comes again. -/
structure Traversal (h : Heap) (ps : List ℕ) : Prop where
  nonempty : ps ≠ []
  visits : ∀ i, i < ps.length → ps[i]? = some ((nextOf h)^[i] h.list.head)
  returns : (nextOf h)^[ps.length] h.list.head = h.list.head

namespace Rep
variable {d : DataSegment} {h : Heap} {bs : List Block}

theorem addresses_cons (hr : Rep d h bs) : ∃ t, addresses d.start bs = h.list.head :: t := by
  obtain ⟨b, r, rfl⟩ := List.exists_cons_of_ne_nil hr.nonempty
  exact ⟨addresses (d.start + b.len) r, by simp [addresses, hr.head]⟩

theorem traversal (hr : Rep d h bs) : Traversal h (addresses d.start bs) := by
  obtain ⟨t, ht⟩ := hr.addresses_cons
  have hring := hr.ring
  rw [ht] at hring ⊢
  refine ⟨by simp, ?_, hring.iterate_length⟩
  intro i hi
  have hget := hring.iterate (Nat.le_of_lt hi)
  rw [closed, ← List.cons_append, List.getElem?_append_left hi] at hget
  exact hget

/-- Whatever `next` leads to is one of the headers. -/
theorem iterate_mem (hr : Rep d h bs) (k : ℕ) :
    (nextOf h)^[k] h.list.head ∈ addresses d.start bs := by
  induction k with
  | zero => exact hr.head ▸ hr.head_mem
  | succ k ih =>
    rw [Function.iterate_succ_apply']
    exact hr.ring.next_mem ih

end Rep

/-- A total over the headers is a total over the blocks. -/
theorem sum_addresses {a : ℕ} {bs : List Block} {f : ℕ → ℤ} {g : Block → ℕ}
    (hfg : ∀ x ∈ cells a bs, f x.1 = g x.2) : ((addresses a bs).map f).sum = (bs.map g).sum := by
  induction bs generalizing a with
  | nil => rfl
  | cons b bs ih =>
    have hhead := hfg (a, b) (by simp)
    have htail := @ih (a + b.len) fun x hx => hfg x (List.mem_cons_of_mem _ hx)
    simp only [addresses, cells, place_cons, List.map_cons, List.sum_cons, Nat.cast_add] at htail ⊢
    rw [hhead, htail]

def sizeAt (h : Heap) (p : ℕ) : ℤ := (readNode h.mem p).sizeOfAllocation

namespace Rep
variable {d : DataSegment} {h : Heap} {bs : List Block}

theorem isChain (hr : Rep d h bs) :
    (addresses d.start bs).IsChain (fun p q : ℕ => (p : ℤ) + headerSize + sizeAt h p = q) := by
  rw [addresses, List.isChain_map]
  refine (place_isChain Block.len d.start bs).imp_of_mem_imp fun x y hx _ hxy => ?_
  have hsz := (hr.nodes x hx).size
  rw [sizeAt, hsz, ← hxy, Block.len]
  push_cast
  ring

theorem ends_at_brk (hr : Rep d h bs) {p : ℕ} (hp : (addresses d.start bs).getLast? = some p) :
    (p : ℤ) + headerSize + sizeAt h p = h.brk ∧ prevOf h h.list.head = p := by
  obtain ⟨l, b, rfl⟩ : ∃ l b, bs = l ++ [b] := by
    rcases List.eq_nil_or_concat bs with rfl | ⟨l, b, rfl⟩
    · exact absurd rfl hr.nonempty
    · exact ⟨l, b, List.concat_eq_append⟩
  rw [addresses, cells, List.getLast?_map, place_getLast, Option.map_some, Option.some.injEq] at hp
  subst hp
  have hsz := (hr.nodes _ (Rep.mem_mid d.start l [] b)).size
  simp only at hsz
  refine ⟨?_, ?_⟩
  · rw [sizeAt, hsz, hr.tile, span_append, span_cons, span_nil, Block.len]
    push_cast
    ring
  · rw [prevOf, hr.head, hr.links_last.2]

theorem node_at (hr : Rep d h bs) {p : ℕ} (hp : p ∈ addresses d.start bs) :
    (readNode h.mem p).allocationStartPtr = p + headerSize ∧ 0 < sizeAt h p ∧ 4 ∣ sizeAt h p := by
  obtain ⟨x, hx, rfl⟩ := List.mem_map.mp hp
  have hd := hr.nodes x hx
  obtain ⟨l, r, hbs, -⟩ := mem_place_split hx
  have hw := hr.sized x.2 (by rw [hbs]; simp)
  refine ⟨hd.start, ?_, ?_⟩
  · rw [sizeAt, hd.size]
    exact_mod_cast hw.1
  · rw [sizeAt, hd.size]
    exact_mod_cast hw.2

/-- The totals over the headers are those over the blocks. -/
theorem totals (hr : Rep d h bs) :
    (addresses d.start bs).length = bs.length ∧
    (addresses d.start bs).countP (fun p => (readNode h.mem p).isFreed) = freeBlocks bs ∧
    ((addresses d.start bs).map (sizeAt h)).sum = bytes bs ∧
    ((addresses d.start bs).map
      fun p => if (readNode h.mem p).isFreed then sizeAt h p else 0).sum = freeBytes bs := by
  have hsnd := place_map_snd Block.len d.start bs
  refine ⟨?_, ?_, ?_, ?_⟩
  · rw [addresses, List.length_map, ← List.length_map Prod.snd, hsnd]
  · rw [addresses, List.countP_map, freeBlocks]
    conv_rhs => rw [← hsnd, List.countP_map]
    refine List.countP_congr fun x hx => ?_
    simp only [Function.comp, (hr.nodes x hx).isFreed]
  · exact sum_addresses fun x hx => (hr.nodes x hx).size
  · refine sum_addresses fun x hx => ?_
    rw [sizeAt, (hr.nodes x hx).size, (hr.nodes x hx).isFreed, Block.freeBytes]
    split_ifs <;> rfl

end Rep

namespace Client
variable {d : DataSegment} {s : Client} {es : List Event}

theorem owns_rep {bs : List Block} (ho : s.Owns d bs) (hf : s.heap.firstAlloc = false) :
    Rep d s.heap bs := by
  rcases ho.rep with hr | ⟨-, hu⟩
  · exact hr
  · rw [hu.firstAlloc] at hf
    exact absurd hf (by decide)

theorem payload_eq {bs : List Block} (ho : s.Owns d bs) {a n : ℕ}
    (hx : (a, ⟨n, false⟩) ∈ cells d.start bs) :
    s.payload (a + headerSize) = Set.Ico (a + headerSize) (a + headerSize + n) := by
  rw [payload, size_eq ho hx]

theorem payloads_disjoint {bs : List Block} (ho : s.Owns d bs) {p q : ℕ} (hp : p ∈ s.held)
    (hq : q ∈ s.held) (hne : p ≠ q) : Disjoint (s.payload p) (s.payload q) := by
  obtain ⟨a, n, rfl, hx⟩ := ho.used p hp
  obtain ⟨b, m, rfl, hy⟩ := ho.used q hq
  rw [payload_eq ho hx, payload_eq ho hy, Set.disjoint_left]
  intro i hi hi'
  simp only [Set.mem_Ico] at hi hi'
  rcases place_apart hx hy with he | hd | hd
  · cases he
    exact hne rfl
  · simp only [Block.len] at hd
    omega
  · simp only [Block.len] at hd
    omega

theorem payload_header {bs : List Block} (ho : s.Owns d bs) {p : ℕ} (hp : p ∈ s.held) (k : ℕ) :
    Disjoint (s.payload p) (Set.Ico ((nextOf s.heap)^[k] s.heap.list.head)
      ((nextOf s.heap)^[k] s.heap.list.head + headerSize)) := by
  obtain ⟨a, n, rfl, hx⟩ := ho.used p hp
  have hmem := (ho.rep.rep hx).iterate_mem k
  rw [payload_eq ho hx, Set.disjoint_left]
  intro i hi hi'
  simp only [Set.mem_Ico] at hi hi'
  have hout := Rep.payload_outside hx hmem hi.1 (by simp only [Block.len]; omega)
  omega

theorem released_cases (c : Call) (q : ℕ) : c.released q = 0 ∨ c.released q = c.pointer := by
  cases c with
  | malloc _ => exact Or.inl rfl
  | calloc _ _ => exact Or.inl rfl
  | realloc p _ =>
    by_cases hq : q = 0
    · exact Or.inl (if_pos hq)
    · exact Or.inr (if_neg hq)
  | free _ => exact Or.inr rfl

theorem call_keeps {bs bs' : List Block} {c : Call} {q : ℕ} {h' : Heap} (ho : s.Owns d bs)
    (hv : Served d c s.heap bs q h' bs') {p : ℕ} (hp : p ∈ s.held) (hne : p ≠ c.pointer) :
    p ∈ s.receive c q ∧ payload ⟨h', s.receive c q⟩ p = s.payload p ∧
      ∀ i ∈ s.payload p, h'.mem i = s.heap.mem i := by
  have hrel : p ≠ c.released q := by
    obtain ⟨a, n, rfl, -⟩ := ho.used p hp
    rcases released_cases c q with hr | hr
    · rw [hr]
      simp [headerSize]
    · rwa [hr]
  have hmem : p ∈ s.receive c q := by
    have := ho.nodup.mem_erase_iff.mpr ⟨hrel, hp⟩
    rw [receive]
    split_ifs
    · exact this
    · exact List.mem_cons_of_mem q this
  obtain ⟨a, n, rfl, hx, hx', hm⟩ := served_held ho hv hp hrel
  have hpay := payload_eq ho hx
  refine ⟨hmem, ?_, ?_⟩
  · rw [hpay, payload_eq (call_owns ho hv) hx']
  · intro i hi
    rw [hpay, Set.mem_Ico] at hi
    exact hm i hi.1 hi.2

/-- Isolation: the payloads of held pointers are disjoint from each other and
from every header, and a call changes no held payload but that of its own
pointer. The only call that does not return is one whose `sbrk` failed. -/
theorem payloads_isolated (h : Run (Step d) (start d) es s) :
    s.held.Nodup ∧ (∀ p ∈ s.held, ∀ q ∈ s.held, p ≠ q → Disjoint (s.payload p) (s.payload q)) ∧
    (∀ p ∈ s.held, ∀ k, Disjoint (s.payload p)
      (Set.Ico ((nextOf s.heap)^[k] s.heap.list.head)
        ((nextOf s.heap)^[k] s.heap.list.head + headerSize))) ∧
    ∀ c : Call, s.Legal c → c.run d s.heap = .error .breakFailed ∨
      ∃ q h', c.run d s.heap = .ok (q, h') ∧ ∀ p ∈ s.held, p ≠ c.pointer →
        p ∈ s.receive c q ∧ payload ⟨h', s.receive c q⟩ p = s.payload p ∧
        ∀ i ∈ s.payload p, h'.mem i = s.heap.mem i := by
  obtain ⟨bs, ho⟩ := run_owns h
  refine ⟨ho.nodup, fun p hp q hq => payloads_disjoint ho hp hq, fun p hp k => payload_header ho hp k, ?_⟩
  intro c hl
  refine (call_spec ho hl).imp_right ?_
  rintro ⟨q, h', bs', he, hv⟩
  exact ⟨q, h', he, fun p hp hne => call_keeps ho hv hp hne⟩

def sampleSegment : DataSegment := ⟨4096, 1048576, by decide, by decide, by decide⟩

def sampleEvents : List Event :=
  [.call (.malloc 10), .write 4120 3 255, .call (.malloc 300), .call (.calloc 3 5),
    .call (.free 4156), .call (.realloc 4120 40)]

theorem sample_run : ∃ s, Run (Step sampleSegment) (start sampleSegment) sampleEvents s ∧
    s.held = [4120, 4480] ∧ s.heap.firstAlloc = false := by
  have hexec : (Run.exec (next sampleSegment) (start sampleSegment) sampleEvents).map
      (fun s => (s.held, s.heap.firstAlloc)) = some ([4120, 4480], false) := by
    decide +kernel
  obtain ⟨s, hs, hf⟩ := Option.map_eq_some_iff.mp hexec
  obtain ⟨hheld, hfirst⟩ := Prod.mk.inj hf
  exact ⟨s, Run.of_exec (fun _ _ _ => step_of_next) hs, hheld, hfirst⟩

theorem payloads_isolated_sample :
    ∃ s, Run (Step sampleSegment) (start sampleSegment) sampleEvents s ∧
      Disjoint (s.payload 4120) (s.payload 4480) := by
  obtain ⟨s, hrun, hheld, -⟩ := sample_run
  refine ⟨s, hrun, (payloads_isolated hrun).2.1 4120 ?_ 4480 ?_ (by decide)⟩ <;> simp [hheld]

/-- Layout: `next` visits the blocks in address order and comes back to
`head`, `prev` is its inverse, and the blocks tile the segment up to the break. -/
theorem heap_layout (h : Run (Step d) (start d) es s) (hf : s.heap.firstAlloc = false) :
    ∃ ps, Traversal s.heap ps ∧ ps.Pairwise (· < ·) ∧ s.heap.list.head = d.start ∧
      (∀ p ∈ ps, prevOf s.heap (nextOf s.heap p) = p ∧ nextOf s.heap (prevOf s.heap p) = p) ∧
      ps.IsChain (fun p q : ℕ => (p : ℤ) + headerSize + sizeAt s.heap p = q) ∧
      (∀ p, ps.getLast? = some p →
        (p : ℤ) + headerSize + sizeAt s.heap p = s.heap.brk ∧ prevOf s.heap s.heap.list.head = p) ∧
      ∀ p ∈ ps, (readNode s.heap.mem p).allocationStartPtr = p + headerSize ∧
        0 < sizeAt s.heap p ∧ 4 ∣ sizeAt s.heap p := by
  obtain ⟨bs, ho⟩ := run_owns h
  have hr := owns_rep ho hf
  exact ⟨addresses d.start bs, hr.traversal, place_pairwise _ Block.len_pos _ _, hr.head,
    fun p hp => ⟨hr.ring.prev_next hp, hr.ring.next_prev hp⟩, hr.isChain,
    fun p hp => hr.ends_at_brk hp, fun p hp => hr.node_at hp⟩

theorem heap_layout_sample :
    ∃ s, Run (Step sampleSegment) (start sampleSegment) sampleEvents s ∧
      ∃ ps, Traversal s.heap ps ∧ ps.Pairwise (· < ·) := by
  obtain ⟨s, hrun, -, hfirst⟩ := sample_run
  obtain ⟨ps, htrav, hlt, -⟩ := heap_layout hrun hfirst
  exact ⟨s, hrun, ps, htrav, hlt⟩

/-- The headers of a heap; there are none before the first allocation. -/
def Visited (h : Heap) (ps : List ℕ) : Prop :=
  (h.firstAlloc = true ∧ ps = []) ∨ (h.firstAlloc = false ∧ Traversal h ps)

/-- Statistics: each counter is what it is named after, and none has wrapped. -/
theorem counters_exact (h : Run (Step d) (start d) es s) :
    (∃ ps, Visited s.heap ps ∧
      s.heap.list.numFreeBlocks = ps.countP (fun p => (readNode s.heap.mem p).isFreed) ∧
      (s.heap.list.numFreeBytes : ℤ) =
        (ps.map fun p => if (readNode s.heap.mem p).isFreed then sizeAt s.heap p else 0).sum ∧
      s.heap.list.numAllocatedBlocks = ps.length ∧
      s.heap.list.numMetaDataBlocks = ps.length ∧
      (s.heap.list.numAllocatedBytes : ℤ) = (ps.map (sizeAt s.heap)).sum ∧
      d.start + (s.heap.list.numAllocatedBytes + s.heap.list.numMetaDataBlocks * headerSize) =
        s.heap.brk) ∧
    ∀ c : Call, s.Legal c → c.run d s.heap ≠ .error .counterWrap := by
  obtain ⟨bs, ho⟩ := run_owns h
  refine ⟨?_, ?_⟩
  · rcases ho.rep with hr | ⟨rfl, hu⟩
    · obtain ⟨h1, h2, h3, h4⟩ := hr.totals
      have hst := hr.stats
      refine ⟨addresses d.start bs, Or.inr ⟨hr.first, hr.traversal⟩, ?_, ?_, ?_, ?_, ?_, ?_⟩
      · rw [h2, hst.numFreeBlocks]
      · rw [h4, hst.numFreeBytes]
      · rw [h1, hst.numAllocatedBlocks]
      · rw [h1, hst.numMetaDataBlocks]
      · rw [h3, hst.numAllocatedBytes]
      · rw [hst.numAllocatedBytes, hst.numMetaDataBlocks, hr.tile, span_eq]
        ring
    · refine ⟨[], Or.inl ⟨hu.firstAlloc, rfl⟩, ?_⟩
      simp [hu.list, hu.brk]
  · intro c hl he
    rcases call_spec ho hl with hb | ⟨q, h', bs', hok, -⟩
    · rw [he] at hb
      cases hb
    · rw [he] at hok
      cases hok

theorem counters_exact_sample :
    ∃ s, Run (Step sampleSegment) (start sampleSegment) sampleEvents s ∧
      ∃ ps, Visited s.heap ps ∧ s.heap.list.numAllocatedBlocks = ps.length := by
  obtain ⟨s, hrun, -, -⟩ := sample_run
  obtain ⟨⟨ps, hv, -, -, hlen, -⟩, -⟩ := counters_exact hrun
  exact ⟨s, hrun, ps, hv, hlen⟩

end Client

end OperationSystems.Malloc3
