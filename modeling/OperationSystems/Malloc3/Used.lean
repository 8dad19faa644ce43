import OperationSystems.Malloc3.Effects
import OperationSystems.Malloc3.Guarantees

/-!
# The used blocks

Merging and splitting move the free blocks only. What a call does to the
addresses of the used ones is what it says to its client, but for a grant out of
a marked block: that block is used, and nobody got its pointer.
-/

namespace OperationSystems.Malloc3
open ByteMemory CircularList Tiling Transition DataSegment

/-- The addresses of the used blocks. -/
def used (a : ℕ) (bs : List Block) : List ℕ :=
  ((cells a bs).filter fun x => !x.2.free).map Prod.fst

section Used
variable {a req n : ℕ} {b : Block} {l r bs bs' : List Block}

theorem mem_used {p : ℕ} : p ∈ used a bs ↔ ∃ n, (p, ⟨n, false⟩) ∈ cells a bs := by
  simp only [used, List.mem_map, List.mem_filter]
  constructor
  · rintro ⟨⟨q, n, f⟩, ⟨hx, hf⟩, rfl⟩
    obtain rfl : f = false := by simpa using hf
    exact ⟨n, hx⟩
  · rintro ⟨n, hx⟩
    exact ⟨(p, ⟨n, false⟩), ⟨hx, rfl⟩, rfl⟩

@[simp] theorem used_nil : used a [] = [] := rfl

@[simp] theorem used_free : used a (⟨n, true⟩ :: r) = used (a + (headerSize + n)) r := rfl

@[simp] theorem used_used : used a (⟨n, false⟩ :: r) = a :: used (a + (headerSize + n)) r := rfl

theorem used_append : used a (l ++ r) = used a l ++ used (a + span Block.len l) r := by
  simp [used, cells, place_append]

theorem used_absorb : used a (absorb ⟨n, true⟩ r) = used (a + (headerSize + n)) r := by
  rcases r with _ | ⟨⟨m, _ | _⟩, r⟩
  · rfl
  · rfl
  · have hadd : a + (headerSize + (n + (m + headerSize))) = a + (headerSize + n) + (headerSize + m) := by
      omega
    rw [absorb_free, used_free, used_free]
    exact congrArg (used · r) hadd

/-- Coalescing leaves the used blocks as they are. -/
theorem used_coalesce : used a (coalesce l n r) = used a (l ++ ⟨n, true⟩ :: r) := by
  rcases List.eq_nil_or_concat l with rfl | ⟨l, ⟨m, _ | _⟩, rfl⟩
  · exact used_absorb
  · rw [List.concat_eq_append, coalesce_used, List.append_assoc, used_append, used_append,
      List.singleton_append, used_used, used_used, used_absorb, used_free]
  · rw [List.concat_eq_append, coalesce_free, List.append_assoc, used_append, used_append,
      List.singleton_append, used_free, used_free, used_absorb]
    congr 2
    omega

theorem used_take : used a (l ++ take req b r) =
    used a l ++ (a + span Block.len l) :: used (a + span Block.len l + b.len) r := by
  obtain ⟨n, f⟩ := b
  rw [used_append]
  rcases @take_used_or_free req n f r with ⟨-, ht⟩ | ⟨k, hn, -, ht⟩
  · rw [ht]
    rfl
  · rw [ht, used_used, used_absorb]
    congr 3
    simp only [Block.len]
    omega

theorem used_lt {p : ℕ} (hp : p ∈ used a l) : p < a + span Block.len l := by
  obtain ⟨n, hx⟩ := mem_used.mp hp
  have hb := (mem_place_bounds hx).2
  have hpos := (Block.mk n false).len_pos
  simp only at hb
  omega

theorem le_used {p : ℕ} (hp : p ∈ used a l) : a ≤ p := by
  obtain ⟨n, hx⟩ := mem_used.mp hp
  exact (mem_place_bounds hx).1

/-- Around one block: the used blocks before it and behind it are others. -/
theorem mem_used_split {p : ℕ} :
    p ∈ used a (l ++ b :: r) ↔ p = a + span Block.len l ∧ b.free = false ∨
      p ≠ a + span Block.len l ∧
        (p ∈ used a l ∨ p ∈ used (a + span Block.len l + b.len) r) := by
  obtain ⟨n, f⟩ := b
  have hl := @used_lt a l p
  have hr := @le_used (a + span Block.len l + (Block.mk n f).len) r p
  have hpos := (Block.mk n f).len_pos
  have hne : p ∈ used a l ∨ p ∈ used (a + span Block.len l + (Block.mk n f).len) r →
      p ≠ a + span Block.len l := by
    rintro (h | h)
    · exact (hl h).ne
    · have := hr h
      omega
  rw [used_append, List.mem_append]
  cases f with
  | true =>
    rw [used_free]
    simp only [Block.len] at hne ⊢
    tauto
  | false =>
    rw [used_used, List.mem_cons]
    simp only [Block.len] at hne ⊢
    tauto

theorem mem_used_coalesce {p : ℕ} : p ∈ used a (coalesce l n r) ↔
    p ∈ used a (l ++ ⟨n, false⟩ :: r) ∧ p ≠ a + span Block.len l := by
  rw [used_coalesce, mem_used_split, mem_used_split]
  simp only [Block.len]
  tauto

theorem mem_used_take {p : ℕ} : p ∈ used a (l ++ take req b r) ↔
    p ∈ used a (l ++ b :: r) ∨ p = a + span Block.len l := by
  rw [used_take, mem_used_split, List.mem_append, List.mem_cons]
  have hl := @used_lt a l p
  have hr := @le_used (a + span Block.len l + b.len) r p
  have hpos := b.len_pos
  by_cases hp : p = a + span Block.len l
  · simp [hp]
  · simp only [hp, false_and, not_false_eq_true, true_and, false_or, or_false, ne_eq]

theorem mem_used_last {p : ℕ} : p ∈ used a (l ++ [⟨n, false⟩]) ↔
    p ∈ used a l ∨ p = a + span Block.len l := by
  rw [used_append, List.mem_append, used_used, used_nil, List.mem_singleton]

theorem Placed.mem_used {p : ℕ} (hp : Placed req bs l bs') :
    p ∈ used a bs' ↔ p ∈ used a bs ∨ p = a + span Block.len l := by
  cases hp with
  | fit hl hb => exact mem_used_take
  | @grow l b hbs hb =>
    obtain ⟨n, f⟩ := b
    obtain rfl : f = true := hb
    rw [mem_used_last, used_append, used_free, used_nil, List.append_nil]
  | append hbs hb => exact mem_used_last

theorem DataSegment.Granted.mem_used {p : ℕ} (hg : Granted req bs l bs') :
    p ∈ used a bs' ↔ p ∈ used a bs ∨ p = a + span Block.len l := by
  cases hg with
  | first => simp
  | placed hp => exact hp.mem_used

theorem DataSegment.Granted.not_mem_used (hg : Granted req bs l bs') :
    a + span Block.len l ∉ used a bs := by
  intro hm
  obtain ⟨n, hx⟩ := Malloc3.mem_used.mp hm
  exact hg.fresh hx rfl rfl

theorem DataSegment.InPlace.mem_used {p : ℕ} (hp : InPlace req n l r bs') :
    p ∈ used a bs' ↔ p ∈ used a (l ++ ⟨n, false⟩ :: r) := by
  cases hp with
  | within hn =>
    rw [mem_used_take, mem_used_split]
    tauto
  | @forward m r hn hfit =>
    rw [mem_used_take, mem_used_split, mem_used_split, used_free]
    have hlen := merged_len n m false
    have hadd : a + span Block.len l + (Block.mk (n + (m + headerSize)) false).len =
        a + span Block.len l + (Block.mk n false).len + (headerSize + m) := by
      rw [hlen]
      simp only [Block.len]
      omega
    rw [hadd]
    tauto
  | last hn => rw [mem_used_last, mem_used_last]

end Used

namespace Heap

/-- The block that an allocation of `req` bytes takes: the first free one that is large enough, else
a free last one. -/
def wanted (h : Heap) (req : ℕ) : Option ℕ :=
  match h.listing.find? fun x => x.2.2 && decide ((req : ℤ) ≤ x.2.1) with
  | some x => some x.1
  | none => (h.listing.getLast?.filter fun x => x.2.2).map Prod.fst

/-- A block that `realloc` cannot resize where it is: it is too small, there is a block behind it,
and that one is used or does not make up for it. -/
def Moves (h : Heap) (p req : ℕ) : Prop :=
  let n := readNode h.mem (p - headerSize)
  let up := readNode h.mem n.next
  n.sizeOfAllocation < req ∧ n.next ≠ h.list.head ∧
    ¬ (up.flagged = true ∧ (req : ℤ) ≤ n.sizeOfAllocation + up.sizeOfAllocation + headerSize)

instance (h : Heap) (p req : ℕ) : Decidable (h.Moves p req) := by
  unfold Moves
  infer_instance

end Heap

namespace Call

/-- The size with which the call runs `malloc`, if it does. -/
def mallocs (h : Heap) : Call → Option ℕ
  | malloc size => some size
  | calloc num size => some (num * size % 2 ^ 32)
  | realloc p size => if p = 0 ∨ h.Moves p (roundUp size) then some size else none
  | free _ => none

/-- The call does not take a block whose first word is `-1`. -/
def Clear (h : Heap) (c : Call) : Prop :=
  ∀ n ∈ c.mallocs h, Accepted n → ∀ a ∈ h.wanted (roundUp n), ¬ Marked h (a + headerSize)

end Call

section Wanted
variable {d : DataSegment} {h : Heap} {l r bs bs' : List Block} {n req : ℕ}

theorem entry_fits {x : ℕ × Block} :
    ((entry x).2.2 && decide ((req : ℤ) ≤ (entry x).2.1)) = true ↔ Fits req x.2 := by
  simp [entry, Fits]

theorem find_miss {a : ℕ} (hbs : ∀ c ∈ bs, ¬ Fits req c) :
    ((cells a bs).map entry).find? (fun x => x.2.2 && decide ((req : ℤ) ≤ x.2.1)) = none := by
  rw [List.find?_eq_none]
  intro y hy
  obtain ⟨x, hx, rfl⟩ := List.mem_map.mp hy
  obtain ⟨l, r, rfl, -⟩ := mem_place_split hx
  rw [entry_fits]
  exact hbs x.2 (by simp)

theorem find_hit {a : ℕ} {b : Block} (hl : ∀ c ∈ l, ¬ Fits req c) (hb : Fits req b) :
    ((cells a (l ++ b :: r)).map entry).find? (fun x => x.2.2 && decide ((req : ℤ) ≤ x.2.1)) =
      some (entry (a + span Block.len l, b)) := by
  rw [cells, place_split, List.map_append, List.find?_append, find_miss hl, Option.none_or,
    List.map_cons, List.find?_cons_of_pos]
  exact entry_fits.mpr hb

/-- The block that an allocation takes is the one in front of which `Granted` stops. -/
theorem DataSegment.Granted.wanted (hg : Granted req bs l bs') (hr : Represented d h bs) :
    h.wanted req = if l.length < bs.length then some (d.start + span Block.len l) else none := by
  rw [Heap.wanted, hr.listing]
  cases hg with
  | first => rfl
  | placed hp =>
    cases hp with
    | fit hl hb =>
      rw [find_hit hl hb, if_pos (by simp)]
      rfl
    | grow hbs hb =>
      rw [find_miss hbs, if_pos (by simp), List.getLast?_map, place_getLast]
      simp [entry, hb]
    | append hbs hb =>
      rw [find_miss hbs, if_neg (by simp), List.getLast?_map, place_getLast]
      simp [entry, hb]

theorem DataSegment.Granted.stuck_iff (hg : Granted req bs l bs') (hr : Represented d h bs) :
    Stuck d h bs l ↔ ∃ a ∈ h.wanted req, Marked h (a + headerSize) := by
  rw [hg.wanted hr, Stuck]
  split_ifs with hl
  · simp [hl]
  · simp [hl]

theorem Rep.moves_iff (hr : Rep d h (l ++ ⟨n, false⟩ :: r)) :
    h.Moves (d.start + span Block.len l + headerSize) req ↔ DataSegment.Moves req n r := by
  have hsz := (hr.nodes _ (Rep.mem_mid d.start l r ⟨n, false⟩)).size
  have hnext := hr.next_eq
  simp only at hsz
  rw [Heap.Moves, DataSegment.Moves, Nat.add_sub_cancel, hsz, hnext, hr.head, Nat.cast_lt]
  cases r with
  | nil => simp [Rep.successor]
  | cons c r =>
    obtain ⟨m, g⟩ := c
    have hd := hr.nodes _ (pair_mem d.start l r ⟨n, false⟩ ⟨m, g⟩).2
    have hpos := (Block.mk n false).len_pos
    have hne : d.start + span Block.len l + (Block.mk n false).len ≠ d.start := by omega
    have hm := hd.size
    have hf := hd.flagged
    simp only at hm hf
    simp only [Rep.successor, hm, hf]
    constructor
    · rintro ⟨hn, -, hfit⟩
      exact ⟨hn, m, g, r, rfl, by exact_mod_cast hfit⟩
    · rintro ⟨hn, m', g', r', hr', hfit⟩
      cases hr'
      exact ⟨hn, hne, by exact_mod_cast hfit⟩

end Wanted


theorem DataSegment.InPlace.not_moves (hp : InPlace req n l r bs') : ¬ DataSegment.Moves req n r := by
  rintro ⟨hlt, m, g, r', rfl, hfit⟩
  cases hp with
  | within hn => omega
  | forward hn hfit' => exact hfit ⟨rfl, hfit'⟩

theorem payload_ne_zero (a : ℕ) : a + headerSize ≠ 0 := by simp [headerSize]

namespace Call
variable {c : Call} {d : DataSegment} {h : Heap} {l r bs bs' : List Block} {n size : ℕ}

theorem request_of_mallocs (hc : c.mallocs h = some n) : c.request = some n := by
  cases c with
  | malloc _ => exact hc
  | calloc _ _ => exact hc
  | realloc p size =>
    simp only [mallocs] at hc
    split_ifs at hc
    exact hc
  | free _ => cases hc

theorem mallocs_null (hc : c.request = some n) (hp : c.pointer = 0) : c.mallocs h = some n := by
  cases c with
  | malloc _ => exact hc
  | calloc _ _ => exact hc
  | realloc p size => exact (if_pos (Or.inl hp)).trans hc
  | free _ => cases hc

theorem released_realloc {p q : ℕ} (hq : q ≠ 0) : (realloc p size).released q = p := if_neg hq

theorem mallocs_realloc (hr : Rep d h (l ++ ⟨n, false⟩ :: r)) :
    (realloc (d.start + span Block.len l + headerSize) size).mallocs h = some size ↔
      DataSegment.Moves (roundUp size) n r := by
  have hne : d.start + span Block.len l + headerSize ≠ 0 := payload_ne_zero _
  rw [← hr.moves_iff, mallocs]
  split_ifs with hm
  · exact iff_of_true rfl (hm.resolve_left hne)
  · exact iff_of_false (by simp) fun h => hm (Or.inr h)

/-- A call that runs `malloc` is clear if and only if the block it takes is not marked. -/
theorem clear_iff (hr : Represented d h bs) (hc : c.mallocs h = some n) (hn : Accepted n)
    (hg : Granted (roundUp n) bs l bs') : c.Clear h ↔ ¬ Stuck d h bs l := by
  rw [hg.stuck_iff hr, Clear]
  constructor
  · rintro hcl ⟨a, ha, hm⟩
    exact hcl n hc hn a ha hm
  · intro hs n' hn' _ a ha hm
    cases hc.symm.trans hn'
    exact hs ⟨a, ha, hm⟩

end Call

namespace Effect
variable {d : DataSegment} {h : Heap} {bs bs' : List Block} {c : Call} {q : ℕ}

/-- The used blocks after a call are those before it without the released one and with the one
that was handed out. -/
def Balanced (d : DataSegment) (bs : List Block) (c : Call) (q : ℕ) (bs' : List Block) : Prop :=
  ∀ a, a ∈ used d.start bs' ↔
    a ∈ used d.start bs ∧ a + headerSize ≠ c.released q ∨ q = a + headerSize

theorem rep_of_split {n : ℕ} {l r : List Block} (hr : Represented d h bs)
    (hbs : bs = l ++ ⟨n, false⟩ :: r) : Rep d h (l ++ ⟨n, false⟩ :: r) :=
  hbs ▸ hr.rep (hbs ▸ Rep.mem_mid d.start l r ⟨n, false⟩)

theorem balanced_grant {n p : ℕ} {l : List Block} (hnull : c.pointer = 0) (hg : Granted n bs l bs')
    (hp : p = d.start + span Block.len l + headerSize) : Balanced d bs c p bs' := by
  have hrel : c.released p = 0 := (Client.released_cases c p).elim id fun h => h.trans hnull
  intro a
  rw [hrel, hg.mem_used, hp, Nat.add_right_cancel_iff]
  constructor
  · rintro (ha | rfl)
    · exact Or.inl ⟨ha, by simp [headerSize]⟩
    · exact Or.inr rfl
  · rintro (⟨ha, -⟩ | rfl)
    · exact Or.inl ha
    · exact Or.inr rfl

theorem balanced (he : Effect d h bs c q bs') (hr : Represented d h bs) (hc : c.Clear h) :
    Balanced d bs c q bs' := by
  cases he with
  | refuse hreq hn =>
    have hrel : c.released 0 = 0 := by
      cases c <;> simp [Call.released, Call.request] at hreq ⊢
    intro a
    simp [hrel, headerSize]
  | grant hreq hn hnull hg hp =>
    have hs := (Call.clear_iff hr (Call.mallocs_null hreq hnull) hn hg).mp hc
    exact balanced_grant hnull hg (hp.resolve_left fun h => hs h.1).2
  | freeNull =>
    intro a
    simp [Call.released, headerSize]
  | free hbs =>
    intro a
    subst hbs
    rw [mem_used_coalesce, Call.released]
    simp [headerSize]
  | @inPlace n size l r bs' hbs hsize hp =>
    intro a
    subst hbs
    have ha : d.start + span Block.len l ∈ used d.start (l ++ ⟨n, false⟩ :: r) :=
      mem_used.mpr ⟨n, Rep.mem_mid _ _ _ _⟩
    have hrel : (Call.realloc (d.start + span Block.len l + headerSize) size).released
        (d.start + span Block.len l + headerSize) = d.start + span Block.len l + headerSize :=
      Call.released_realloc (payload_ne_zero _)
    rw [hp.mem_used, hrel, ne_eq, Nat.add_right_cancel_iff, Nat.add_right_cancel_iff]
    constructor
    · intro h
      by_cases he : a = d.start + span Block.len l
      · exact Or.inr he.symm
      · exact Or.inl ⟨h, he⟩
    · rintro (⟨h, -⟩ | rfl)
      · exact h
      · exact ha
  | stuck hbs hsize hm hg hs =>
    have hcall := (Call.mallocs_realloc (rep_of_split hr hbs)).mpr hm
    exact absurd hs ((Call.clear_iff hr hcall hsize hg).mp hc)
  | @move n size l r l' l₁ r₁ bs₁ hbs hsize hm hg hs hbs₁ hl =>
    intro a
    subst hbs hbs₁
    have ha : d.start + span Block.len l ∈ used d.start (l ++ ⟨n, false⟩ :: r) :=
      mem_used.mpr ⟨n, Rep.mem_mid _ _ _ _⟩
    have hfresh : d.start + span Block.len l' ≠ d.start + span Block.len l :=
      fun he => hg.not_mem_used (he ▸ ha)
    have hrel : (Call.realloc (d.start + span Block.len l + headerSize) size).released
        (d.start + span Block.len l' + headerSize) = d.start + span Block.len l + headerSize :=
      Call.released_realloc (payload_ne_zero _)
    rw [mem_used_coalesce, hg.mem_used, hrel, hl, ne_eq, ne_eq, Nat.add_right_cancel_iff,
      Nat.add_right_cancel_iff]
    constructor
    · rintro ⟨h | rfl, hne⟩
      · exact Or.inl ⟨h, hne⟩
      · exact Or.inr rfl
    · rintro (⟨h, hne⟩ | rfl)
      · exact ⟨Or.inl h, hne⟩
      · exact ⟨Or.inr rfl, hfresh⟩

/-- A call that is not clear makes a block used and returns `NULL`. -/
theorem unbalanced (he : Effect d h bs c q bs') (hr : Represented d h bs) (hc : ¬ c.Clear h) :
    q = 0 ∧ ∃ a ∈ used d.start bs', a ∉ used d.start bs := by
  have hlost : ∀ {n : ℕ} {l bs' : List Block}, Granted n bs l bs' →
      ∃ a ∈ used d.start bs', a ∉ used d.start bs :=
    fun hg => ⟨_, hg.mem_used.mpr (Or.inr rfl), hg.not_mem_used⟩
  have hidle : (∀ n ∈ c.mallocs h, ¬ Accepted n) → False :=
    fun hn => hc fun n hm ha => absurd ha (hn n hm)
  cases he with
  | refuse hreq hn =>
    refine (hidle fun n' hm => ?_).elim
    cases hreq.symm.trans (Call.request_of_mallocs hm)
    exact hn
  | grant hreq hn hnull hg hp =>
    have hs := mt (Call.clear_iff hr (Call.mallocs_null hreq hnull) hn hg).mpr hc
    exact ⟨(hp.resolve_right fun h => hs h.1).2, hlost hg⟩
  | freeNull => exact (hidle fun n hm => by cases hm).elim
  | free hbs => exact (hidle fun n hm => by cases hm).elim
  | inPlace hbs hsize hp =>
    refine (hidle fun n hm => ?_).elim
    cases Call.request_of_mallocs hm
    exact absurd ((Call.mallocs_realloc (rep_of_split hr hbs)).mp hm) hp.not_moves
  | stuck hbs hsize hm hg hs => exact ⟨rfl, hlost hg⟩
  | move hbs hsize hm hg hs hbs₁ hl =>
    have hcall := (Call.mallocs_realloc (rep_of_split hr hbs)).mpr hm
    exact absurd hs (mt (Call.clear_iff hr hcall hsize hg).mpr hc)

end Effect

end OperationSystems.Malloc3
