import OperationSystems.Malloc3.Frames
import OperationSystems.Malloc3.Ledger
import OperationSystems.Malloc3.Separation

/-!
# Frees in any order

Freeing some of the used blocks leaves the merged list of blocks in which these
are free, whatever the order. `free` after `malloc` merges what `malloc` has
split.
-/

namespace OperationSystems.Malloc3
open ByteMemory CircularList Tiling Transition Compaction DataSegment

/-- The blocks with those at the addresses `as` free. -/
def release (as : List ℕ) : ℕ → List Block → List Block
  | _, [] => []
  | a, b :: bs => ⟨b.size, b.free || decide (a ∈ as)⟩ :: release as (a + b.len) bs

section Release
variable {as : List ℕ} {a n : ℕ} {b : Block} {l r bs : List Block}

theorem release_append :
    release as a (l ++ r) = release as a l ++ release as (a + span Block.len l) r := by
  induction l generalizing a with
  | nil => simp [release]
  | cons b l ih => simp [release, ih, Nat.add_assoc]

theorem release_congr {as' : List ℕ} (h : ∀ p, a ≤ p → p < a + span Block.len bs → (p ∈ as ↔ p ∈ as')) :
    release as a bs = release as' a bs := by
  induction bs generalizing a with
  | nil => rfl
  | cons b bs ih =>
    have hpos := b.len_pos
    rw [span_cons] at h
    rw [release, release, ih fun p hp hlt => h p (by omega) (by omega)]
    simp only [h a le_rfl (by omega)]

theorem release_nil : release [] a bs = bs := by
  induction bs generalizing a with
  | nil => rfl
  | cons b bs ih => simp [release, ih]

theorem span_release : span Block.len (release as a bs) = span Block.len bs := by
  induction bs generalizing a with
  | nil => rfl
  | cons b bs ih => rw [release, span_cons, span_cons, ih, Block.len, Block.len]

theorem release_split (ha : a + span Block.len l ∉ as) : release as a (l ++ ⟨n, false⟩ :: r) =
    release as a l ++
      ⟨n, false⟩ :: release as (a + span Block.len l + (Block.mk n false).len) r := by
  rw [release_append, release]
  simp [ha]

/-- Freeing one more block. -/
theorem release_cons : release ((a + span Block.len l) :: as) a (l ++ ⟨n, false⟩ :: r) =
    release as a l ++
      ⟨n, true⟩ :: release as (a + span Block.len l + (Block.mk n false).len) r := by
  have hl : release ((a + span Block.len l) :: as) a l = release as a l :=
    release_congr fun p _ hlt => by simp [hlt.ne]
  have hr : release ((a + span Block.len l) :: as) (a + span Block.len l + (Block.mk n false).len) r =
      release as (a + span Block.len l + (Block.mk n false).len) r := by
    refine release_congr fun p hp _ => ?_
    have hpos := (Block.mk n false).len_pos
    have hne : p ≠ a + span Block.len l := by omega
    simp [hne]
  rw [release_append, release, hl, hr]
  simp

theorem span_merge : span Block.len (merge bs) = span Block.len bs := by
  induction bs with
  | nil => rfl
  | cons b bs ih =>
    rw [span_cons, ← ih, merge, compact_cons, ← merge]
    cases hm : merge bs with
    | nil => rfl
    | cons c r =>
      rw [push]
      split_ifs
      · simp only [span_cons, Block.len, Block.join]
        omega
      · rfl

theorem merge_left : merge (merge l ++ r) = merge (l ++ r) := compact_left Block.joins

/-- Freeing a block of a merged list. -/
theorem coalesce_merge : coalesce (merge l) n (merge r) = merge (l ++ ⟨n, true⟩ :: r) := by
  rw [coalesce_eq_merge separate_merge separate_merge, merge_left, List.append_cons, merge_right,
    ← List.append_cons]

theorem merge_release (ha : a + span Block.len l ∉ as) :
    merge (release as a (l ++ ⟨n, false⟩ :: r)) = merge (release as a l) ++
      ⟨n, false⟩ :: merge (release as (a + span Block.len l + (Block.mk n false).len) r) := by
  rw [release_split ha, merge_split rfl]

/-- A list of free blocks merges into one. -/
theorem merge_free (hb : ∀ c ∈ b :: bs, c.free = true) :
    merge (b :: bs) = [⟨b.size + span Block.len bs, true⟩] := by
  induction bs generalizing b with
  | nil =>
    obtain ⟨n, f⟩ := b
    obtain rfl : f = true := hb ⟨n, f⟩ (by simp)
    rfl
  | cons c bs ih =>
    have hbf := hb b (by simp)
    have htail := @ih c fun x hx => hb x (List.mem_cons_of_mem b hx)
    rw [merge, compact_cons, ← merge, htail, push_open hbf rfl]
    simp only [Block.join, hbf, span_cons, Block.len, List.cons.injEq, Block.mk.injEq, and_true]
    omega

theorem free_of_release (h : ∀ p ∈ used a bs, p ∈ as) : ∀ c ∈ release as a bs, c.free = true := by
  induction bs generalizing a with
  | nil => simp [release]
  | cons b bs ih =>
    obtain ⟨n, f⟩ := b
    intro c hc
    rcases List.mem_cons.mp hc with rfl | hc
    · cases f with
      | true => rfl
      | false => simpa using h a (by simp)
    · refine ih (fun p hp => h p ?_) c hc
      cases f with
      | true => exact hp
      | false => exact List.mem_cons_of_mem a hp

end Release

/-- The blocks determine all the counters but those that `Quiet` keeps. -/
theorem Rep.list_eq {d : DataSegment} {h h' : Heap} {bs : List Block} (hr : Rep d h bs)
    (hr' : Rep d h' bs) (hq : Quiet h.list h'.list) : h'.list = h.list := by
  have hs := hr.stats
  have hs' := hr'.stats
  have hext : ∀ {a b : AllocInfoList}, a.size = b.size → a.numFreeBlocks = b.numFreeBlocks →
      a.numFreeBytes = b.numFreeBytes → a.numAllocatedBlocks = b.numAllocatedBlocks →
      a.numAllocatedBytes = b.numAllocatedBytes → a.numMetaDataBytes = b.numMetaDataBytes →
      a.numMetaDataBlocks = b.numMetaDataBlocks → a.head = b.head → a = b := by
    rintro ⟨⟩ ⟨⟩ rfl rfl rfl rfl rfl rfl rfl rfl
    rfl
  refine hext hq.size ?_ ?_ ?_ ?_ hq.numMetaDataBytes ?_ hq.head
  · rw [hs.numFreeBlocks, hs'.numFreeBlocks]
  · rw [hs.numFreeBytes, hs'.numFreeBytes]
  · rw [hs.numAllocatedBlocks, hs'.numAllocatedBlocks]
  · rw [hs.numAllocatedBytes, hs'.numAllocatedBytes]
  · rw [hs.numMetaDataBlocks, hs'.numMetaDataBlocks]

/-- An allocation that leaves the break where it is touches no counter of `sbrk` calls. -/
theorem malloc_quiet {d : DataSegment} {h h' : Heap} {bs : List Block} {size p : ℕ} (hr : Rep d h bs)
    (he : d.malloc size h = .ok (p, h')) (hb : h'.brk = h.brk) : Quiet h.list h'.list := by
  by_cases hsize : size > maxSize ∨ size = 0
  · rw [malloc_refuse hsize] at he
    cases he
    exact .refl _
  have hreq := roundUp_wellSized fun h0 => hsize (Or.inr h0)
  rw [malloc, if_neg hsize, hr.first, if_neg (by simp)] at he
  rcases findFree_spec hr hreq with ⟨l, bs', h₁, -, -, hf, -⟩ | ⟨-, hf⟩ | ⟨hf, l, b, rfl, -⟩
  · have hq := findFree_frame hf
    rw [hf, ok_bind] at he
    dsimp only at he
    rw [if_pos (payload_ne_zero _)] at he
    obtain ⟨v, -, he⟩ := bind_eq_ok.mp he
    split at he <;>
    · cases he
      exact hq
  · rw [hf] at he
    cases he
  · rw [hf, ok_bind] at he
    dsimp only at he
    rw [if_neg (by simp)] at he
    by_cases hl : h.brk + (roundUp size + headerSize) ≤ d.limit
    · rw [appendBlock_eq hr hl rfl] at he
      cases he
      simp [appended, headerSize] at hb
    · rw [appendBlock_fail (by omega)] at he
      cases he

section Undo
variable {req n : ℕ} {b : Block} {l r : List Block}

/-- Freeing what was taken out of a free block restores the list. -/
theorem free_take (hs : Separate (l ++ ⟨n, true⟩ :: r)) : ∃ k r',
    take req ⟨n, true⟩ r = ⟨k, false⟩ :: r' ∧ coalesce l k r' = l ++ ⟨n, true⟩ :: r := by
  obtain ⟨hl, hr⟩ := hs.parts
  rcases @take_used_or_free req n true r with ⟨-, ht⟩ | ⟨k, hn, -, ht⟩
  · exact ⟨n, r, ht, by rw [coalesce_eq_merge hl hr, merge_of_separate hs]⟩
  · refine ⟨req, _, ht, ?_⟩
    have hjoin : merge (l ++ ⟨req, true⟩ :: ⟨k, true⟩ :: r) = merge (l ++ ⟨n, true⟩ :: r) := by
      have hlen : n = req + (k + headerSize) := by omega
      rw [hlen]
      exact compact_cons_cons Block.joins rfl rfl
    rw [absorb_eq_merge hr, coalesce_eq_merge hl separate_merge, List.append_cons, merge_right,
      ← List.append_cons, hjoin, merge_of_separate hs]

end Undo

namespace Client
variable {d : DataSegment} {s t : Client} {es : List Event} {bs l r : List Block} {n : ℕ}

/-- One call of `free` for each of the pointers. -/
def frees (qs : List ℕ) : List Event := qs.map fun q => .call (.free q)

theorem free_step (ho : s.Owns d (l ++ ⟨n, false⟩ :: r)) {p : ℕ} (hp : p ∈ s.held)
    (hl : p = d.start + span Block.len l + headerSize) :
    ∃ t, Step d s (.call (.free p)) t ∧ t.Owns d (coalesce l n r) ∧ t.held = s.held.erase p ∧
      Quiet s.heap.list t.heap.list := by
  have hr := ho.rep.rep (Rep.mem_mid d.start l r ⟨n, false⟩)
  obtain ⟨h', he, hr', -⟩ := free_rep hr
  rw [← hl] at he
  have hlegal : s.Legal (.free p) := Or.inr hp
  have hrun : (Call.free p).run d s.heap = .ok (0, h') := by
    simp only [Call.run, he, ok_bind, pure_eq_ok]
  rcases call_effect ho hlegal with hf | ⟨q, h'', bs', he', -, ho', -⟩
  · rw [hrun] at hf
    cases hf
  · rw [hrun] at he'
    cases he'
    refine ⟨⟨h', s.receive (.free p) 0⟩, ?_, ?_, ?_, free_frame he⟩
    · simp only [Step, step, if_pos hlegal, hrun, ok_bind, pure_eq_ok]
    · rwa [← ho'.rep.unique (Or.inl hr')]
    · simp [receive, Call.released]

/-- A series of frees leaves the merged list in which the freed blocks are free. -/
theorem frees_run (ho : s.Owns d bs) (hsep : Separate bs) {qs : List ℕ} (hq : qs.Nodup)
    (hheld : ∀ q ∈ qs, q ∈ s.held) {as : List ℕ} (has : as.map (· + headerSize) = qs.reverse) :
    ∃ t, Run (Step d) s (frees qs) t ∧ t.Owns d (merge (release as d.start bs)) ∧
      (∀ p ∈ s.held, p ∉ qs → p ∈ t.held) ∧ Quiet s.heap.list t.heap.list := by
  induction qs using List.reverseRecOn generalizing as with
  | nil =>
    obtain rfl : as = [] := by simpa using has
    rw [release_nil, merge_of_separate hsep]
    exact ⟨s, .nil, ho, fun _ hp _ => hp, .refl _⟩
  | append_singleton qs q ih =>
    obtain ⟨a, as, rfl, rfl, htail⟩ : ∃ a as', as = a :: as' ∧ a + headerSize = q ∧
        as'.map (· + headerSize) = qs.reverse := by
      cases as with
      | nil => simp at has
      | cons a as => simpa using has
    obtain ⟨hqs, -, hnew⟩ := List.nodup_append.mp hq
    have hmem : a + headerSize ∈ s.held := hheld _ (by simp)
    have hfresh : a + headerSize ∉ qs := fun h => hnew _ h (a + headerSize) (by simp) rfl
    obtain ⟨t, hrun, hot, hkeep, hquiet⟩ := ih hqs (fun p hp => hheld p (by simp [hp])) htail
    obtain ⟨a', n, ha, hx⟩ := ho.used _ hmem
    obtain rfl := Nat.add_right_cancel ha
    obtain ⟨l, r, rfl, hal⟩ := mem_place_split hx
    simp only at hal
    subst hal
    have hnot : d.start + span Block.len l ∉ as := fun h => hfresh <| by
      have := List.mem_map_of_mem (f := (· + headerSize)) h
      rw [htail] at this
      simpa using this
    rw [merge_release hnot] at hot
    have hspan : span Block.len (merge (release as d.start l)) = span Block.len l := by
      rw [span_merge, span_release]
    obtain ⟨u, hstep, hou, hheldu, hquiet'⟩ := free_step hot (hkeep _ hmem hfresh)
      (by rw [hspan])
    refine ⟨u, ?_, ?_, ?_, hquiet.trans hquiet'⟩
    · rw [frees, List.map_append]
      exact hrun.snoc hstep
    · rwa [release_cons, ← coalesce_merge]
    · intro p hp hpq
      have hpq : p ∉ qs ∧ p ≠ d.start + span Block.len l + headerSize := by simpa using hpq
      rw [hheldu]
      exact (List.mem_erase_of_ne hpq.2).mpr (hkeep p hp hpq.1)

theorem list_eq_of_owns {u : Client} (ho : t.Owns d bs) (ho' : u.Owns d bs)
    (hq : Quiet t.heap.list u.heap.list) : u.heap.list = t.heap.list := by
  rcases ho.rep with hr | ⟨rfl, hu⟩
  · rcases ho'.rep with hr' | ⟨rfl, -⟩
    · exact hr.list_eq hr' hq
    · exact absurd rfl hr.nonempty
  · rcases ho'.rep with hr' | ⟨-, hu'⟩
    · exact absurd rfl hr'.nonempty
    · rw [hu.list, hu'.list]

/-- The addresses of held blocks. -/
theorem exists_addresses (ho : s.Owns d bs) {qs : List ℕ} (hheld : ∀ q ∈ qs, q ∈ s.held) :
    ∃ as : List ℕ, as.map (· + headerSize) = qs.reverse := by
  refine ⟨(qs.reverse).map (· - headerSize), ?_⟩
  rw [List.map_map]
  refine (List.map_congr_left fun q hq => ?_).trans (List.map_id _)
  obtain ⟨a, n, rfl, -⟩ := ho.used q (hheld q (List.mem_reverse.mp hq))
  simp

theorem mem_addresses {as qs : List ℕ} {a : ℕ} (has : as.map (· + headerSize) = qs.reverse) :
    a ∈ as ↔ a + headerSize ∈ qs := by
  have hmap : a + headerSize ∈ qs ↔ a + headerSize ∈ as.map (· + headerSize) := by
    rw [has, List.mem_reverse]
  rw [hmap, List.mem_map]
  constructor
  · exact fun ha => ⟨a, ha, rfl⟩
  · rintro ⟨b, hb, he⟩
    rwa [← Nat.add_right_cancel he]

theorem listing_single {k : ℕ} (ho : t.Owns d [⟨k, true⟩]) :
    t.heap.listing = [(d.start, (t.heap.brk : ℤ) - d.start - headerSize, true)] ∧
      t.heap.list.numFreeBlocks = 1 ∧ t.heap.list.numAllocatedBlocks = 1 := by
  have hr := ho.rep.rep (x := (d.start, ⟨k, true⟩)) (by simp)
  have hst := hr.stats
  refine ⟨?_, hst.numFreeBlocks, hst.numAllocatedBlocks⟩
  rw [ho.rep.listing, hr.tile]
  simp [entry, Block.len]

/-- Frees commute: two orders of freeing the same held pointers leave the same blocks and the same
counters, and when these were all the used blocks there is one free block left. -/
theorem frees_commute (h : Run (Step d) (start d) es s) {qs qs' : List ℕ} (hq : qs.Nodup)
    (hheld : ∀ q ∈ qs, q ∈ s.held) (hperm : qs.Perm qs') :
    ∃ t t', Run (Step d) s (frees qs) t ∧ Run (Step d) s (frees qs') t' ∧
      t.heap.listing = t'.heap.listing ∧ t.heap.list = t'.heap.list ∧
      t.heap.brk = s.heap.brk ∧
      (s.heap.firstAlloc = false → s.Accounted → (∀ p ∈ s.held, p ∈ qs) →
        t.heap.listing = [(d.start, (s.heap.brk : ℤ) - d.start - headerSize, true)] ∧
          t.heap.list.numFreeBlocks = 1 ∧ t.heap.list.numAllocatedBlocks = 1) := by
  obtain ⟨bs, ho, hsep⟩ := run_separate h
  have hheld' : ∀ q ∈ qs', q ∈ s.held := fun q hm => hheld q (hperm.mem_iff.mpr hm)
  obtain ⟨as, has⟩ := exists_addresses ho hheld
  obtain ⟨as', has'⟩ := exists_addresses ho hheld'
  have hmem := fun a => mem_addresses has (a := a)
  have hmem' := fun a => mem_addresses has' (a := a)
  obtain ⟨t, hrun, hot, -, hquiet⟩ := frees_run ho hsep hq hheld has
  obtain ⟨t', hrun', hot', -, hquiet'⟩ := frees_run ho hsep (hperm.nodup_iff.mp hq) hheld' has'
  have hsame : release as' d.start bs = release as d.start bs :=
    release_congr fun p _ _ => by rw [hmem, hmem', hperm.mem_iff]
  rw [hsame] at hot'
  have hbrk : t.heap.brk = s.heap.brk := by
    rw [hot.rep.brk_eq, ho.rep.brk_eq, span_merge, span_release]
  refine ⟨t, t', hrun, hrun', ?_, ?_, hbrk, ?_⟩
  · rw [hot.rep.listing, hot'.rep.listing]
  · exact list_eq_of_owns hot' hot (hquiet'.symm.trans hquiet)
  · intro hfirst hacc hall
    have hr := owns_rep ho hfirst
    obtain ⟨b, r, rfl⟩ := List.exists_cons_of_ne_nil hr.nonempty
    have hfree := free_of_release fun p hp =>
      (hmem p).mpr (hall _ (((accounted_iff ho).mp hacc p).mpr hp))
    rw [release] at hfree hot
    rw [merge_free hfree] at hot
    rw [← hbrk]
    exact listing_single hot

theorem frees_commute_sample :
    ∃ s t t', Run (Step sampleSegment) (start sampleSegment) sampleEvents s ∧
      Run (Step sampleSegment) s (frees [4120, 4480]) t ∧
      Run (Step sampleSegment) s (frees [4480, 4120]) t' ∧ t.heap.listing = t'.heap.listing ∧
      t.heap.list = t'.heap.list := by
  obtain ⟨s, hrun, hheld, -⟩ := sample_run
  obtain ⟨t, t', ht, ht', hl, hc, -⟩ := @frees_commute _ _ _ hrun [4120, 4480] [4480, 4120]
    (by decide) (by simp [hheld]) (by decide)
  exact ⟨s, t, t', hrun, ht, ht', hl, hc⟩

/-- Before the first allocation there is no block, and frees leave none. -/
theorem frees_of_nothing : ∃ s t, Run (Step sampleSegment) (start sampleSegment) [] s ∧ s.Accounted ∧
    Run (Step sampleSegment) s (frees s.held) t ∧ t.heap.listing = [] ∧
    t.heap.list.numAllocatedBlocks = 0 :=
  ⟨start sampleSegment, start sampleSegment, .nil, start_accounted _, .nil, rfl, rfl⟩

/-- A `free` right after a `malloc` that did not move the break undoes it. -/
theorem free_undoes_malloc (h : Run (Step d) (start d) es s) {size p : ℕ} {h' : Heap}
    (hm : d.malloc size s.heap = .ok (p, h')) (hp : p ≠ 0) (hb : h'.brk = s.heap.brk) :
    ∃ h'', d.free p h' = .ok h'' ∧ h''.listing = s.heap.listing ∧ h''.list = s.heap.list := by
  obtain ⟨bs, ho, hsep⟩ := run_separate h
  have hsize : ¬ (size > maxSize ∨ size = 0) := fun hs => by
    rw [malloc_refuse hs] at hm
    cases hm
    exact hp rfl
  have hbrk := ho.rep.brk_eq
  rcases malloc_grant ho.rep hsize with ⟨-, he⟩ | ⟨l, q, h₁, bs', he, hg, -⟩
  · rw [he] at hm
    cases hm
  rw [he] at hm
  cases hm
  have htile := hg.rep.tile
  have hpa := hg.pointer_eq hp
  obtain ⟨hgrant, hr', -, -⟩ := hg
  cases hgrant with
  | first =>
    simp only [span_cons, span_nil, Block.len, headerSize] at htile hbrk
    omega
  | placed hpl =>
    cases hpl with
    | @fit l r b hl hfit =>
      obtain ⟨n, f⟩ := b
      obtain ⟨rfl, -⟩ := hfit
      obtain ⟨k, r', ht, hundo⟩ := free_take hsep
      have hr := ho.rep.rep (Rep.mem_mid d.start l r ⟨n, true⟩)
      rw [ht] at hr'
      obtain ⟨h'', hf, hr'', -⟩ := free_rep hr'
      rw [hundo] at hr''
      refine ⟨h'', hpa ▸ hf, ?_, ?_⟩
      · rw [Represented.listing (Or.inl hr''), ho.rep.listing]
      · exact hr.list_eq hr'' ((malloc_quiet hr he hb).trans (free_frame hf))
    | @grow l b hmiss hfree =>
      have hlt : b.size < roundUp size := by
        by_contra hge
        exact hmiss b (by simp) ⟨hfree, by omega⟩
      simp only [span_append, span_cons, span_nil, Block.len] at htile hbrk
      omega
    | append hmiss hused =>
      simp only [span_append, span_cons, span_nil, Block.len, headerSize] at htile hbrk
      omega

theorem free_undoes_malloc_sample :
    ∃ s h' h'', Run (Step sampleSegment) (start sampleSegment) sampleEvents s ∧
      sampleSegment.malloc 100 s.heap = .ok (4184, h') ∧ sampleSegment.free 4184 h' = .ok h'' ∧
      h''.listing = s.heap.listing ∧ h''.list = s.heap.list := by
  have hexec : (Run.exec (next sampleSegment) (start sampleSegment) sampleEvents).map (fun s =>
      (sampleSegment.malloc 100 s.heap).toOption.map fun r => (r.1, r.2.brk - s.heap.brk,
        s.heap.brk - r.2.brk)) = some (some (4184, 0, 0)) := by
    decide +kernel
  obtain ⟨s, hs, hm⟩ := Option.map_eq_some_iff.mp hexec
  obtain ⟨⟨p, h'⟩, hr, hv⟩ := Option.map_eq_some_iff.mp hm
  have hmalloc : sampleSegment.malloc 100 s.heap = .ok (p, h') := ok_of_toOption hr
  simp only [Prod.mk.injEq] at hv
  obtain ⟨rfl, hb, hb'⟩ := hv
  have hrun := Run.of_exec (fun _ _ _ => step_of_next) hs
  obtain ⟨h'', hf, hl, hc⟩ := free_undoes_malloc hrun hmalloc (by decide) (by omega)
  exact ⟨s, h', h'', hrun, hmalloc, hf, hl, hc⟩

end Client

end OperationSystems.Malloc3
