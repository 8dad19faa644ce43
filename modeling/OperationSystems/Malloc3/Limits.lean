import OperationSystems.Malloc3.Used

/-!
# When the break cannot move

`asks` reads off the list of blocks how far a call moves the break. If the
segment ends before that, `sbrk` returns `(void*)-1`, and each of its three
callers reads an `int` at this address before it compares anything.
-/

namespace OperationSystems.Malloc3
open ByteMemory CircularList Tiling Transition DataSegment

namespace Heap

/-- The bytes that an allocation of `req` bytes asks `sbrk` for. -/
def shortage (h : Heap) (req : ℕ) : Option ℤ :=
  match h.listing.find? fun x => x.2.2 && decide ((req : ℤ) ≤ x.2.1) with
  | some _ => none
  | none =>
    match h.listing.getLast? with
    | some (_, n, true) => some (req - n)
    | _ => some (req + headerSize)

/-- The bytes that `realloc` asks for to make the last block longer. -/
def extension (h : Heap) (p req : ℕ) : Option ℤ :=
  let n := readNode h.mem (p - headerSize)
  if n.sizeOfAllocation < req ∧ n.next = h.list.head then some (req - n.sizeOfAllocation) else none

end Heap

/-- The bytes that a call asks `sbrk` for. -/
def Call.asks (h : Heap) (c : Call) : Option ℤ :=
  match c.mallocs h with
  | some n => if Accepted n then h.shortage (roundUp n) else none
  | none =>
    match c with
    | realloc p size => if Accepted size then h.extension p (roundUp size) else none
    | _ => none

/-- The segment ends before the place that the call moves the break to. -/
def Call.Exceeds (d : DataSegment) (h : Heap) (c : Call) : Prop :=
  ∃ k ∈ c.asks h, (d.limit : ℤ) < h.brk + k

section Short
variable {d : DataSegment} {h h' : Heap} {l r bs bs' : List Block} {n req size p : ℕ}

theorem span_absorb {k : ℕ} : span Block.len (absorb ⟨k, true⟩ r) = headerSize + k + span Block.len r := by
  rcases r with _ | ⟨⟨m, _ | _⟩, r⟩
  · rfl
  · rfl
  · rw [absorb_free, span_cons, span_cons, Nat.add_comm m]
    simp only [Block.len]
    omega

theorem span_take {b : Block} : span Block.len (take req b r) = b.len + span Block.len r := by
  obtain ⟨n, f⟩ := b
  rcases @take_used_or_free req n f r with ⟨-, ht⟩ | ⟨k, hn, -, ht⟩
  · rw [ht]
    rfl
  · rw [ht, span_cons, span_absorb]
    simp only [Block.len]
    omega

theorem shortage_hit {b : Block} (hr : Represented d h (l ++ b :: r)) (hl : ∀ c ∈ l, ¬ Fits req c)
    (hb : Fits req b) : h.shortage req = none := by
  rw [Heap.shortage, hr.listing, find_hit hl hb]

theorem shortage_miss (hr : Represented d h bs) (hbs : ∀ c ∈ bs, ¬ Fits req c) :
    h.shortage req = match bs.getLast? with
      | some ⟨n, true⟩ => some ((req : ℤ) - n)
      | _ => some ((req : ℤ) + headerSize) := by
  rw [Heap.shortage, hr.listing, find_miss hbs, List.getLast?_map]
  rcases List.eq_nil_or_concat bs with rfl | ⟨l, ⟨n, _ | _⟩, rfl⟩
  · rfl
  · rw [List.concat_eq_append, place_getLast, List.getLast?_concat]
    rfl
  · rw [List.concat_eq_append, place_getLast, List.getLast?_concat]
    rfl

theorem short_iff (hr : Represented d h bs) :
    Short d req h bs ↔ ∃ k ∈ h.shortage req, (d.limit : ℤ) < h.brk + k := by
  constructor
  · intro hs
    cases hs with
    | first hl =>
      rw [shortage_miss hr (by simp)]
      exact ⟨_, rfl, by omega⟩
    | @grow l n hbs hl =>
      have hlt : n < req := by
        by_contra hge
        exact hbs ⟨n, true⟩ (by simp) ⟨rfl, by simp only; omega⟩
      rw [shortage_miss hr hbs, List.getLast?_concat]
      exact ⟨_, rfl, by omega⟩
    | append hbs hl =>
      rw [shortage_miss hr hbs, List.getLast?_concat]
      exact ⟨_, rfl, by omega⟩
  · rintro ⟨k, hk, hl⟩
    rcases first_fit_or_none req bs with ⟨l, b, r, rfl, hmiss, hb⟩ | hmiss
    · rw [shortage_hit hr hmiss hb] at hk
      cases hk
    rw [shortage_miss hr hmiss] at hk
    rcases List.eq_nil_or_concat bs with rfl | ⟨l, ⟨n, _ | _⟩, rfl⟩
    · cases hk
      exact .first (by omega)
    · rw [List.concat_eq_append] at hmiss ⊢
      rw [List.concat_eq_append, List.getLast?_concat] at hk
      cases hk
      exact .append hmiss (by omega)
    · rw [List.concat_eq_append] at hmiss ⊢
      rw [List.concat_eq_append, List.getLast?_concat] at hk
      cases hk
      exact .grow hmiss (by omega)

/-- An allocation moves the break by what it asks for. -/
theorem DataSegment.Granted.shortage (hg : Granted req bs l bs') (hr : Represented d h bs) :
    (span Block.len bs' : ℤ) = span Block.len bs + (h.shortage req).getD 0 := by
  cases hg with
  | first =>
    rw [shortage_miss hr (by simp)]
    simp [Block.len, add_comm]
  | placed hp =>
    cases hp with
    | @fit l r b hl hb =>
      rw [shortage_hit hr hl hb]
      simp [span_take]
    | @grow l b hbs hb =>
      obtain ⟨n, f⟩ := b
      obtain rfl : f = true := hb
      rw [shortage_miss hr hbs, List.getLast?_concat]
      simp [Block.len]
      omega
    | @append l b hbs hb =>
      obtain ⟨n, f⟩ := b
      obtain rfl : f = false := hb
      rw [shortage_miss hr hbs, List.getLast?_concat]
      simp [Block.len]
      omega

theorem DataSegment.InPlace.last_le (hp : InPlace req n l [] bs') (hn : n < req)
    (hr : Rep d h (l ++ [⟨n, false⟩])) (hr' : Rep d h' bs') : ¬ (d.limit : ℤ) < h.brk + (req - n) := by
  cases hp with
  | within hle => omega
  | last _ =>
    have hbrk := hr.tile
    have hle := hr'.brk_le
    rw [hr'.tile] at hle
    simp only [span_append, span_cons, span_nil, Block.len] at hbrk hle
    omega

/-- A call that allocates `req` bytes or fails does so as the list of blocks says. -/
theorem fails_iff {o : Result (ℕ × Heap)} (hr : Represented d h bs)
    (ho : Short d req h bs ∧ o = .error .breakFailed ∨
      o ≠ .error .breakFailed ∧ ∃ l p h' bs', Grant d req h bs l p h' bs') :
    o = .error .breakFailed ↔ ∃ k ∈ h.shortage req, (d.limit : ℤ) < h.brk + k := by
  rw [← short_iff hr]
  rcases ho with ⟨hs, he⟩ | ⟨hne, l, p, h', bs', hg⟩
  · exact iff_of_true he hs
  · refine iff_of_false hne fun hs => ?_
    obtain ⟨k, hk, hl⟩ := (short_iff hr).mp hs
    have hspan := hg.granted.shortage hr
    have hbrk := hr.brk_eq
    have hle := hg.rep.brk_le
    rw [hg.rep.tile] at hle
    rw [Option.mem_def.mp hk, Option.getD_some] at hspan
    omega

end Short

namespace Call
variable {d : DataSegment} {h : Heap} {l r : List Block} {c : Call} {n size : ℕ}

theorem asks_mallocs (hc : c.mallocs h = some n) (hn : Accepted n) :
    c.asks h = h.shortage (roundUp n) := by
  simp only [asks, hc, if_pos hn]

theorem asks_refuse (hc : c.request = some n) (hn : ¬ Accepted n) : c.asks h = none := by
  cases hm : c.mallocs h with
  | some k =>
    cases hc.symm.trans (request_of_mallocs hm)
    simp only [asks, hm, if_neg hn]
  | none =>
    cases c with
    | realloc p size =>
      cases hc
      simp only [asks, hm, if_neg hn]
    | malloc size => cases hm
    | calloc num size => cases hm
    | free p => cases hc

theorem asks_resize {p : ℕ} (hc : (realloc p size).mallocs h = none) (hsize : Accepted size) :
    (realloc p size).asks h = h.extension p (roundUp size) := by
  simp only [asks, hc, if_pos hsize]

theorem extension_eq (hr : Rep d h (l ++ ⟨n, false⟩ :: r)) {a req : ℕ}
    (ha : d.start + span Block.len l = a) : h.extension (a + headerSize) req =
      if n < req ∧ r = [] then some ((req : ℤ) - n) else none := by
  have hsz := (hr.nodes _ (Rep.mem_mid d.start l r ⟨n, false⟩)).size
  have hnext : (readNode h.mem (d.start + span Block.len l)).next = h.list.head ↔ r = [] := by
    rw [hr.next_eq, hr.head]
    cases r with
    | nil => exact iff_of_true rfl rfl
    | cons c r =>
      have hpos := (Block.mk n false).len_pos
      exact iff_of_false (by simp only [Rep.successor]; omega) (List.cons_ne_nil c r)
  simp only [ha] at hsz hnext
  have hcond : ((readNode h.mem (a + headerSize - headerSize)).sizeOfAllocation < req ∧
      (readNode h.mem (a + headerSize - headerSize)).next = h.list.head) ↔ n < req ∧ r = [] := by
    rw [Nat.add_sub_cancel, hsz, hnext, Nat.cast_lt]
  rw [Heap.extension]
  by_cases hc : n < req ∧ r = []
  · rw [if_pos hc, if_pos (hcond.mpr hc), Nat.add_sub_cancel, hsz]
  · rw [if_neg hc, if_neg (mt hcond.mp hc)]

theorem asks_inPlace (hr : Rep d h (l ++ ⟨n, false⟩ :: r)) (hsize : Accepted size)
    (hm : ¬ DataSegment.Moves (roundUp size) n r) {a : ℕ} (ha : d.start + span Block.len l = a) :
    (realloc (a + headerSize) size).asks h =
      if n < roundUp size ∧ r = [] then some ((roundUp size : ℤ) - n) else none := by
  have hnone : (realloc (a + headerSize) size).mallocs h = none := by
    rw [mallocs, if_neg]
    rintro (h0 | hm')
    · exact payload_ne_zero _ h0
    · exact hm (hr.moves_iff.mp (ha ▸ hm'))
  rw [asks_resize hnone hsize, extension_eq hr ha]

end Call

namespace Client
variable {d : DataSegment} {s t : Client} {es : List Event} {bs : List Block} {c : Call} {n : ℕ}

theorem grant_fails_iff {h : Heap} {req : ℕ} {o : Result (ℕ × Heap)} (hr : Represented d h bs)
    (hc : c.mallocs h = some n) (hn : Accepted n) (hreq : roundUp n = req)
    (ho : Short d req h bs ∧ o = .error .breakFailed ∨
      o ≠ .error .breakFailed ∧ ∃ l p h' bs', Grant d req h bs l p h' bs') :
    o = .error .breakFailed ↔ c.Exceeds d h := by
  rw [Call.Exceeds, Call.asks_mallocs hc hn, hreq]
  exact fails_iff hr ho

theorem malloc_fails_iff {h : Heap} (hr : Represented d h bs) (hc : c.mallocs h = some n)
    (hn : Accepted n) : d.malloc n h = .error .breakFailed ↔ c.Exceeds d h := by
  refine grant_fails_iff hr hc hn rfl ?_
  refine (malloc_grant hr (mt not_accepted.mpr (not_not.mpr hn))).imp_right ?_
  rintro ⟨l, p, h', bs', he, hg, -⟩
  exact ⟨by simp [he], l, p, h', bs', hg⟩

theorem null_fails_iff (ho : s.Owns d bs) (hp : c.pointer = 0) :
    c.run d s.heap = .error .breakFailed ↔ c.Exceeds d s.heap := by
  cases hreq : c.request with
  | none =>
    cases c with
    | free p =>
      obtain rfl : p = 0 := hp
      exact iff_of_false (by simp [Call.run, DataSegment.free]) (by simp [Call.Exceeds, Call.asks, Call.mallocs])
    | malloc size => cases hreq
    | calloc num size => cases hreq
    | realloc p size => cases hreq
  | some n =>
    by_cases hn : Accepted n
    swap
    · rw [Call.run_refuse hreq hn, Call.Exceeds, Call.asks_refuse hreq hn]
      simp
    have hc := Call.mallocs_null (h := s.heap) hreq hp
    cases c with
    | malloc size =>
      cases hreq
      exact malloc_fails_iff ho.rep hc hn
    | calloc num size =>
      cases hreq
      refine grant_fails_iff ho.rep hc hn rfl ?_
      refine (calloc_grant ho.rep rfl (mt not_accepted.mpr (not_not.mpr hn))).imp_right ?_
      rintro ⟨l, p, h', bs', he, hg, -⟩
      exact ⟨by simp [Call.run, he], l, p, h', bs', hg⟩
    | realloc p size =>
      cases hreq
      have hp : p = 0 := hp
      rw [Call.run, DataSegment.realloc, if_pos hp]
      exact malloc_fails_iff ho.rep hc hn
    | free p => cases hreq

theorem held_fails_iff (ho : s.Owns d bs) (hp : c.pointer ∈ s.held) :
    c.run d s.heap = .error .breakFailed ↔ c.Exceeds d s.heap := by
  obtain ⟨a, n, ha, hx⟩ := ho.used _ hp
  have hr := ho.rep.rep hx
  obtain ⟨l, r, rfl, hal⟩ := mem_place_split hx
  simp only at hal
  cases c with
  | malloc size => exact null_fails_iff ho rfl
  | calloc num size => exact null_fails_iff ho rfl
  | free p =>
    obtain rfl : p = a + headerSize := ha
    obtain ⟨h', he, -⟩ := free_rep hr
    rw [← hal] at he
    exact iff_of_false (by simp [Call.run, he]) (by simp [Call.Exceeds, Call.asks, Call.mallocs])
  | realloc p size =>
    obtain rfl : p = a + headerSize := ha
    by_cases hn : Accepted size
    swap
    · rw [Call.run_refuse rfl hn, Call.Exceeds, Call.asks_refuse rfl hn]
      simp
    have hsize : ¬ (size = 0 ∨ size > maxSize) := fun h => not_accepted.mpr h.symm hn
    rcases inPlace_or_moves (roundUp size) n l r with ⟨bs', hip⟩ | hm
    · rw [Call.Exceeds, Call.asks_inPlace hr hn hip.not_moves hal.symm]
      rcases realloc_inPlace hr hsize hip hal.symm with ⟨⟨hnil, hlt, hlim⟩, he⟩ | ⟨h', he, hr', -⟩
      · refine iff_of_true he ⟨_, if_pos ⟨hlt, hnil⟩, ?_⟩
        omega
      · refine iff_of_false (by simp [Call.run, he]) ?_
        rintro ⟨k, hk, hlim⟩
        split_ifs at hk with hc
        · obtain ⟨hlt, rfl⟩ := hc
          cases hk
          exact hip.last_le hlt hr hr' hlim
        · cases hk
    · obtain ⟨hacc, hround⟩ := roundUp_accepted hsize
      rw [Call.run, realloc_moves hr hsize hm hal.symm]
      refine grant_fails_iff ho.rep ?_ hn hround.symm ?_
      · rw [hal]
        exact (Call.mallocs_realloc hr).mpr hm
      · refine (moveBlock_grant hr hx hm.1.le hacc).imp_right ?_
        rintro ⟨l', p, h₁, bs₁, hg, ⟨-, he⟩ | ⟨-, h', bs', he, -⟩⟩
        · exact ⟨by simp [he], l', p, h₁, bs₁, hround ▸ hg⟩
        · exact ⟨by simp [he], l', p, h₁, bs₁, hround ▸ hg⟩

/-- A call fails if and only if it asks for more than the segment has. -/
theorem run_fails_iff (ho : s.Owns d bs) (hl : s.Legal c) :
    c.run d s.heap = .error .breakFailed ↔ c.Exceeds d s.heap :=
  hl.elim (null_fails_iff ho) (held_fails_iff ho)

/-- The blocks are as they were if the segment ends earlier, but not before the break. -/
theorem Owns.limit {d' : DataSegment} (ho : s.Owns d bs) (hs : d'.start = d.start)
    (hb : s.heap.brk ≤ d'.limit) : s.Owns d' bs := by
  refine ⟨?_, ho.nodup, hs ▸ ho.used⟩
  rcases ho.rep with hr | ⟨rfl, hu⟩
  · exact Or.inl ⟨hr.nonempty, hr.first, hr.head.trans hs.symm, hs ▸ hr.tile, hb, hr.sized,
      hs ▸ hr.nodes, hs ▸ hr.ring, hr.stats⟩
  · exact Or.inr ⟨rfl, hu.brk.trans hs.symm, hu.firstAlloc, hu.list⟩

/-- The call returns `NULL`, without a fault, and nothing has changed. -/
def FailsCleanly (d : DataSegment) (s : Client) (c : Call) : Prop :=
  ∃ h', c.run d s.heap = .ok (0, h') ∧ h'.listing = s.heap.listing ∧ h'.list = s.heap.list ∧
    h'.firstAlloc = s.heap.firstAlloc ∧ ∀ p ∈ s.held, ∀ i ∈ s.payload p, h'.mem i = s.heap.mem i

/-- Wherever the kernel lets the segment end, a call whose `sbrk` fails dereferences `(void*)-1`, so
that it never fails cleanly. -/
theorem sbrk_failure_faults (h : Run (Step d) (start d) es s) {d' : DataSegment}
    (hs : d'.start = d.start) (hb : s.heap.brk ≤ d'.limit) (hl : s.Legal c) :
    (c.Exceeds d' s.heap ↔ c.run d' s.heap = .error .breakFailed) ∧
      (c.Exceeds d' s.heap → ¬ FailsCleanly d' s c) := by
  obtain ⟨bs, ho⟩ := run_owns h
  have hiff := run_fails_iff (ho.limit hs hb) hl
  refine ⟨hiff.symm, fun hx hc => ?_⟩
  obtain ⟨h', he, -⟩ := hc
  rw [hiff.mpr hx] at he
  cases he

theorem sbrk_failure_faults_sample :
    ∃ s, Run (Step sampleSegment) (start sampleSegment) sampleEvents s ∧
      sampleSegment.malloc 100000000 s.heap = .error .breakFailed ∧
      ¬ FailsCleanly sampleSegment s (.malloc 100000000) := by
  have hexec : (Run.exec (next sampleSegment) (start sampleSegment) sampleEvents).map (fun s =>
      (s.heap.brk, (Call.malloc 100000000).asks s.heap)) = some (4496, some 100000024) := by
    decide +kernel
  obtain ⟨s, hs, hm⟩ := Option.map_eq_some_iff.mp hexec
  obtain ⟨hbrk, hasks⟩ := Prod.mk.inj hm
  have hrun := Run.of_exec (fun _ _ _ => step_of_next) hs
  have hb : s.heap.brk ≤ sampleSegment.limit := by
    rw [hbrk]
    decide
  have hx : (Call.malloc 100000000).Exceeds sampleSegment s.heap := by
    refine ⟨_, hasks, ?_⟩
    rw [hbrk]
    decide
  obtain ⟨hiff, hclean⟩ := sbrk_failure_faults (c := .malloc 100000000) hrun rfl hb (Or.inl rfl)
  exact ⟨s, hrun, hiff.mp hx, hclean hx⟩

/-- The first allocation of a segment that is too short for it. -/
theorem first_allocation_faults :
    Run (Step sampleSegment) (start sampleSegment) [] (start sampleSegment) ∧
      (sampleSegment.sbrk (100000000 + headerSize) (start sampleSegment).heap).1 = none ∧
      sampleSegment.malloc 100000000 (start sampleSegment).heap = .error .breakFailed ∧
      ¬ FailsCleanly sampleSegment (start sampleSegment) (.malloc 100000000) := by
  have hrun : sampleSegment.malloc 100000000 (start sampleSegment).heap = .error .breakFailed := rfl
  refine ⟨.nil, rfl, hrun, ?_⟩
  rintro ⟨h', he, -⟩
  rw [Call.run, hrun] at he
  cases he

end Client

end OperationSystems.Malloc3
