import OperationSystems.Malloc2.Client

/-!
# The contract of the allocator that only grows

The list of blocks is read off the links from `head` on. Every reachable heap
has the layout, the counters and the used blocks it should have, and along a
run the blocks keep their places and their sizes.
-/

namespace OperationSystems.Malloc2
open ByteMemory CircularList Tiling Transition
open Malloc3 (Block Call Event Fault Result bytes freeBytes freeBlocks)

namespace Heap

/-- The headers from `p` on; the break bounds their number. -/
def walk (w : ℕ) (h : Heap) : ℕ → ℕ → List ℕ
  | 0, _ => []
  | fuel + 1, p =>
    let next := (readNode w h.mem p).next
    p :: if next = h.list.head then [] else walk w h fuel next

def headers (w : ℕ) (h : Heap) : List ℕ := if h.firstAlloc then [] else h.walk w h.brk h.list.head

/-- Address, size and `is_freed` of every block. -/
def listing (w : ℕ) (h : Heap) : List (ℕ × ℕ × Bool) :=
  (h.headers w).map fun p => (p, (readNode w h.mem p).sizeOfAllocation, (readNode w h.mem p).isFreed)

end Heap

/-- The links make a ring of the headers, which lie in address order, and the blocks fill the segment
up to the break. -/
structure Laid (d : Segment) (h : Heap) : Prop where
  head : h.firstAlloc = false → (h.headers d.word).head? = some h.list.head
  ring : Circular (fun p => (readNode d.word h.mem p).next) (fun p => (readNode d.word h.mem p).prev)
    (h.headers d.word)
  ordered : (h.headers d.word).Pairwise (· < ·)
  first : ∀ x ∈ (h.listing d.word).head?, x.1 = d.start
  adjacent : (h.listing d.word).IsChain fun x y => x.1 + d.header + x.2.1 = y.1
  last : ∀ x ∈ (h.listing d.word).getLast?, x.1 + d.header + x.2.1 = h.brk
  empty : h.listing d.word = [] → h.brk = d.start

/-- Each counter is what it is named after. -/
structure Counted (d : Segment) (h : Heap) : Prop where
  size : h.list.size = (h.listing d.word).length
  numAllocatedBlocks : h.list.numAllocatedBlocks = (h.listing d.word).length
  numMetaDataBlocks : h.list.numMetaDataBlocks = (h.listing d.word).length
  numMetaDataBytes : h.list.numMetaDataBytes = d.header * (h.listing d.word).length
  numAllocatedBytes : h.list.numAllocatedBytes = ((h.listing d.word).map fun x => x.2.1).sum
  numFreeBlocks : h.list.numFreeBlocks = (h.listing d.word).countP fun x => x.2.2
  numFreeBytes : h.list.numFreeBytes =
    ((h.listing d.word).map fun x => if x.2.2 then x.2.1 else 0).sum

structure Contract (d : Segment) (s : Client) : Prop where
  laid : Laid d s.heap
  counted : Counted d s.heap
  nodup : s.held.Nodup
  inUse : ∀ p, p ∈ s.held ↔ ∃ x ∈ s.heap.listing d.word, x.2.2 = false ∧ p = x.1 + d.header
  freeAgain : ∀ p ∈ s.returned, p ∉ s.held → d.free p s.heap = .ok s.heap
  disjoint : ∀ p ∈ s.held, ∀ q ∈ s.held, p ≠ q → Disjoint (s.payload d p) (s.payload d q)
  calls : ∀ c, s.Legal c → s.Short d c ∧ d.run c s.heap = .error .breakFailed ∨
    ∃ q h, d.run c s.heap = .ok (q, h) ∧ ∀ p ∈ s.held, p ≠ c.pointer →
      p ∈ (s.receive c q h).held ∧ (s.receive c q h).payload d p = s.payload d p ∧
      ∀ i ∈ s.payload d p, h.mem i = s.heap.mem i
  resized : ∀ p ∈ s.held, ∀ size q h, d.realloc p size s.heap = .ok (q, h) → q ≠ 0 →
    ∀ i < min (s.size d p) size, h.mem (q + i) = s.heap.mem (p + i)

/-- A placed block as `listing` shows it. -/
def entry (x : ℕ × Block) : ℕ × ℕ × Bool := (x.1, x.2.size, x.2.free)

section Listing
variable {d : Segment} {h : Heap} {bs l r : List Block} {b : Block}

theorem Rep.walk_eq (hr : Rep d h (l ++ b :: r)) {fuel : ℕ} (hfuel : r.length < fuel) :
    h.walk d.word fuel (d.start + span (len d.word) l) =
      (place (len d.word) (d.start + span (len d.word) l) (b :: r)).map Prod.fst := by
  induction r generalizing l b fuel with
  | nil =>
    obtain ⟨fuel, rfl⟩ := Nat.exists_eq_add_one_of_ne_zero (Nat.ne_of_gt hfuel)
    simp [Heap.walk, (links_last hr).1, hr.head]
  | cons c r ih =>
    obtain ⟨fuel, rfl⟩ := Nat.exists_eq_add_one_of_ne_zero (Nat.ne_zero_of_lt hfuel)
    have hpos := len_pos d b
    have hnext := next_eq hr
    have hne : d.start + span (len d.word) (l ++ [b]) ≠ h.list.head := by
      rw [hr.head, span_append, span_cons]
      omega
    have htail := @ih (l ++ [b]) c (by simpa using hr) fuel (by simpa using hfuel)
    rw [Heap.walk, hnext, if_neg hne, htail]
    simp only [place_cons, List.map_cons, span_append, span_cons, span_nil, Nat.add_zero, Nat.add_assoc]

theorem Rep.headers_eq (hr : Rep d h bs) : h.headers d.word = addresses d bs := by
  obtain ⟨b, r, rfl⟩ := List.exists_cons_of_ne_nil hr.nonempty
  have hlen := length_lt_brk hr
  have hw := @Rep.walk_eq d h [] r b hr h.brk (by simp at hlen; omega)
  rw [Heap.headers, hr.first, if_neg (by simp), hr.head]
  simpa [addresses] using hw

theorem Represented.headers (hr : Represented d h bs) : h.headers d.word = addresses d bs := by
  rcases hr with hr | ⟨rfl, hu⟩
  · exact hr.headers_eq
  · rw [Heap.headers, hu.firstAlloc, if_pos rfl]
    rfl

theorem Represented.listing (hr : Represented d h bs) : h.listing d.word = (cells d bs).map entry := by
  rw [Heap.listing, hr.headers, addresses, List.map_map]
  refine List.map_congr_left fun x hx => ?_
  have hd := (hr.rep hx).nodes x hx
  simp only [Function.comp, entry, hd.size, hd.isFreed]

theorem Represented.laid (hr : Represented d h bs) : Laid d h := by
  have hlist := hr.listing
  have hheaders := hr.headers
  refine ⟨?_, ?_, ?_, ?_, ?_, ?_, ?_⟩
  · intro hf
    rcases hr with hr | ⟨-, hu⟩
    · obtain ⟨b, r, rfl⟩ := List.exists_cons_of_ne_nil hr.nonempty
      rw [hheaders, hr.head]
      rfl
    · rw [hu.firstAlloc] at hf
      cases hf
  · rw [hheaders]
    rcases hr with hr | ⟨rfl, -⟩
    · exact hr.ring
    · exact .nil
  · rw [hheaders]
    exact place_pairwise _ (len_pos d) _ bs
  · rw [hlist]
    cases bs <;> simp [entry]
  · rw [hlist, List.isChain_map]
    refine (place_isChain (len d.word) d.start bs).imp fun x y hxy => ?_
    simp only [entry, ← hxy, len, Segment.header, Nat.add_assoc]
  · rw [hlist]
    rcases List.eq_nil_or_concat bs with rfl | ⟨l, b, rfl⟩
    · simp
    · rw [List.concat_eq_append] at hr ⊢
      have htile := (hr.rep (mem_mid d l [] b)).tile
      rw [List.getLast?_map, place_getLast]
      intro x hx
      simp only [Option.map_some, Option.mem_some_iff] at hx
      subst hx
      simp only [entry, htile, span_append, span_cons, span_nil, len, Segment.header, Nat.add_assoc,
        Nat.add_zero]
  · rw [hlist]
    intro hnil
    rcases hr with hr | ⟨-, hu⟩
    · obtain ⟨b, r, rfl⟩ := List.exists_cons_of_ne_nil hr.nonempty
      simp at hnil
    · exact hu.brk

theorem map_entry (d : Segment) (bs : List Block) :
    ((cells d bs).map entry).map Prod.snd = bs.map fun b => (b.size, b.free) := by
  have hsnd := place_map_snd (len d.word) d.start bs
  conv_rhs => rw [← hsnd]
  simp only [List.map_map]
  rfl

theorem Represented.counted (hr : Represented d h bs) : Counted d h := by
  have hst : Stats d.word h.list bs := by
    rcases hr with hr | ⟨rfl, hu⟩
    · exact hr.stats
    · rw [hu.list]
      exact ⟨rfl, rfl, rfl, rfl, rfl, rfl, rfl⟩
  have hsnd := map_entry d bs
  rw [← hr.listing] at hsnd
  have hlen : (h.listing d.word).length = bs.length := by
    simpa using congrArg List.length hsnd
  refine ⟨?_, ?_, ?_, ?_, ?_, ?_, ?_⟩
  · rw [hlen, hst.size]
  · rw [hlen, hst.numAllocatedBlocks]
  · rw [hlen, hst.numMetaDataBlocks]
  · rw [hlen, hst.numMetaDataBytes]
  · have hmap := congrArg (List.map Prod.fst) hsnd
    simp only [List.map_map] at hmap
    rw [hst.numAllocatedBytes, bytes]
    exact congrArg List.sum hmap.symm
  · have hcount := congrArg (List.countP Prod.snd) hsnd
    simp only [List.countP_map] at hcount
    rw [hst.numFreeBlocks, freeBlocks]
    exact hcount.symm
  · have hmap := congrArg (List.map fun y => if y.2 then y.1 else 0) hsnd
    simp only [List.map_map] at hmap
    rw [hst.numFreeBytes, freeBytes]
    exact congrArg List.sum hmap.symm

end Listing

namespace Client
variable {d : Segment} {s t : Client} {bs : List Block} {c : Call} {es fs : List Event}

theorem held_cell (ho : s.Owns d bs) {p : ℕ} (hp : p ∈ s.held) :
    ∃ a n, p = a + d.header ∧ (a, ⟨n, false⟩) ∈ cells d bs ∧ s.size d p = n := by
  obtain ⟨a, rfl, n, hx⟩ := (ho.held p).mp hp
  exact ⟨a, n, rfl, hx, size_eq (ho.rep.rep hx) hx⟩

theorem held_iff (ho : s.Owns d bs) (p : ℕ) :
    p ∈ s.held ↔ ∃ x ∈ s.heap.listing d.word, x.2.2 = false ∧ p = x.1 + d.header := by
  rw [ho.held, ho.rep.listing]
  constructor
  · rintro ⟨a, rfl, n, hx⟩
    exact ⟨_, List.mem_map_of_mem hx, rfl, rfl⟩
  · rintro ⟨y, hy, hf, rfl⟩
    obtain ⟨⟨a, n, f⟩, hx, rfl⟩ := List.mem_map.mp hy
    obtain rfl : f = false := hf
    exact ⟨a, rfl, n, hx⟩

theorem free_again (ho : s.Owns d bs) {p : ℕ} (hp : p ∈ s.returned) (hn : p ∉ s.held) :
    d.free p s.heap = .ok s.heap := by
  obtain ⟨x, hx, rfl⟩ := ho.returned p hp
  exact free_free (ho.rep.rep hx) hx fun hu => hn ((ho.held _).mpr ⟨x.1, rfl, hu⟩)

theorem payloads_disjoint (ho : s.Owns d bs) {p q : ℕ} (hp : p ∈ s.held) (hq : q ∈ s.held)
    (hne : p ≠ q) : Disjoint (s.payload d p) (s.payload d q) := by
  obtain ⟨a, n, rfl, hx, hn⟩ := held_cell ho hp
  obtain ⟨b, m, rfl, hy, hm⟩ := held_cell ho hq
  rw [payload, payload, hn, hm, Set.disjoint_left]
  intro i hi hi'
  simp only [Set.mem_Ico] at hi hi'
  rcases place_apart hx hy with he | hd | hd
  · cases he
    exact hne rfl
  · simp only [len, Segment.header] at hd hi hi'
    omega
  · simp only [len, Segment.header] at hd hi hi'
    omega

theorem released_ne {q : ℕ} (ho : s.Owns d bs) {p : ℕ} (hp : p ∈ s.held) (hne : p ≠ c.pointer) :
    p ≠ c.released q := by
  obtain ⟨a, n, rfl, -⟩ := held_cell ho hp
  have hpos := payload_ne_zero d a
  cases c with
  | malloc _ => exact hpos
  | calloc _ _ => exact hpos
  | realloc r _ =>
    rw [Call.released]
    split_ifs
    · exact hpos
    · exact hne
  | free _ => exact hne

theorem call_keeps {bs' : List Block} {q : ℕ} {h : Heap} (ho : s.Owns d bs)
    (hv : Served d c s.heap bs q h bs') {p : ℕ} (hp : p ∈ s.held) (hne : p ≠ c.pointer) :
    p ∈ (s.receive c q h).held ∧ (s.receive c q h).payload d p = s.payload d p ∧
      ∀ i ∈ s.payload d p, h.mem i = s.heap.mem i := by
  have hrel := released_ne (q := q) ho hp hne
  obtain ⟨a, n, rfl, hx, hn⟩ := held_cell ho hp
  have hused : Used d bs a := ⟨n, hx⟩
  have hused' := (hv.used a).mpr (Or.inr ⟨hused, hrel⟩)
  have hmem := ((call_owns ho hv).held _).mpr ⟨a, rfl, hused'⟩
  have hx' := mem_cells_used hv.sizes hx hused'
  have hn' := size_eq (s := s.receive c q h) (hv.rep.rep hx') hx'
  refine ⟨hmem, ?_, ?_⟩
  · rw [payload, payload, hn, hn']
  · intro i hi
    rw [payload, hn, Set.mem_Ico] at hi
    refine hv.keeps _ hx (fun hX => hX hused) i hi.1 ?_
    simp only [len, Segment.header] at hi ⊢
    omega

theorem realloc_copies (ho : s.Owns d bs) {p size q : ℕ} {h : Heap} (hp : p ∈ s.held)
    (he : d.realloc p size s.heap = .ok (q, h)) (hq : q ≠ 0) :
    ∀ i < min (s.size d p) size, h.mem (q + i) = s.heap.mem (p + i) := by
  obtain ⟨a, n, rfl, hx, hn⟩ := held_cell ho hp
  rcases realloc_served ho.rep hx with ⟨-, hf⟩ | ⟨q', h', bs', he', hv⟩
  · rw [he] at hf
    cases hf
  · rw [he] at he'
    cases he'
    rw [hn]
    exact hv.copied a n size rfl hx hq

theorem Owns.contract (ho : s.Owns d bs) : Contract d s where
  laid := ho.rep.laid
  counted := ho.rep.counted
  nodup := ho.nodup
  inUse := held_iff ho
  freeAgain _ hp hn := free_again ho hp hn
  disjoint _ hp _ hq hne := payloads_disjoint ho hp hq hne
  calls _ hl := by
    refine (call_spec ho hl).imp_right ?_
    rintro ⟨q, h, bs', he, hv⟩
    exact ⟨q, h, he, fun _ hp hne => call_keeps ho hv hp hne⟩
  resized _ hp _ _ _ he hq := realloc_copies ho hp he hq

/-- Places and sizes of the blocks. -/
def Places (d : Segment) (s : Client) : List (ℕ × ℕ) := (s.heap.listing d.word).map fun x => (x.1, x.2.1)

theorem Owns.places (ho : s.Owns d bs) :
    s.Places d = place (fun k => headerSize d.word + k) d.start (sizes bs) := by
  rw [Places, ho.rep.listing, List.map_map, ← cells_sizes]
  rfl

/-- The contract holds in every reachable state, and blocks only come behind those there are. -/
theorem whole_run_contract (h : Run (Step d) (start d) es s) :
    Contract d s ∧ ∀ fs t, Run (Step d) s fs t → s.Places d <+: t.Places d := by
  obtain ⟨bs, ho, -⟩ := run_owns (start_owns d) h
  refine ⟨ho.contract, fun fs t hrun => ?_⟩
  obtain ⟨bs', ho', hs⟩ := run_owns ho hrun
  rw [ho.places, ho'.places]
  exact place_prefix _ _ hs

def sampleSegment : Segment := ⟨8, 65536, 2097152, by decide, by decide, by decide, by decide⟩

def sampleEvents : List Event :=
  [.call (.malloc 10), .write 65576 3 255, .call (.calloc 3 5), .call (.realloc 65576 40),
    .call (.free 65576), .call (.malloc 7), .call (.free 65576), .call (.free 65576)]

theorem whole_run_contract_sample :
    ∃ s, Run (Step sampleSegment) (start sampleSegment) sampleEvents s ∧
      s.Places sampleSegment = [(65536, 10), (65586, 15), (65641, 40)] ∧ Contract sampleSegment s := by
  have hexec : (Run.exec (next sampleSegment) (start sampleSegment) sampleEvents).map
      (fun s => s.Places sampleSegment) = some [(65536, 10), (65586, 15), (65641, 40)] := by
    decide +kernel
  obtain ⟨s, hs, hf⟩ := Option.map_eq_some_iff.mp hexec
  have hrun := Run.of_exec (fun _ _ _ => step_of_next) hs
  exact ⟨s, hrun, hf, (whole_run_contract hrun).1⟩

end Client

end OperationSystems.Malloc2
