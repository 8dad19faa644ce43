import Mathlib

/-!
# Circular doubly linked lists

The links are two functions on nodes. A circular list is a list of nodes whose
consecutive members, the last and the first included, are linked in both
directions. Removal and insertion are stated for any pair of link functions
that differ from the old ones only where the operation writes, so they apply
to links that are stored in memory as well as to functions.
-/

namespace OperationSystems.CircularList

variable {α : Type*} {next prev next' prev' : α → α}

def Linked (next prev : α → α) (x y : α) : Prop := next x = y ∧ prev y = x

abbrev Path (next prev : α → α) (p : List α) : Prop := p.IsChain (Linked next prev)

def closed : List α → List α
  | [] => []
  | a :: t => a :: (t ++ [a])

def Circular (next prev : α → α) (as : List α) : Prop := Path next prev (closed as)

theorem closed_split (l r : List α) (x : α) :
    closed (l ++ x :: r) = l ++ x :: (r ++ [l.headD x]) := by
  cases l <;> simp [closed]

theorem path_congr {p : List α} (hn : ∀ x ∈ p.dropLast, next' x = next x)
    (hp : ∀ y ∈ p.tail, prev' y = prev y) (h : Path next prev p) : Path next' prev' p := by
  induction p with
  | nil => exact .nil
  | cons x t ih =>
    cases t with
    | nil => exact .singleton x
    | cons y t =>
      obtain ⟨hxy, ht⟩ := List.isChain_cons_cons.mp h
      refine List.isChain_cons_cons.mpr ⟨⟨?_, ?_⟩, ih ?_ ?_ ht⟩
      · rw [hn x (by simp), hxy.1]
      · rw [hp y (by simp), hxy.2]
      · intro z hz
        exact hn z (by simp only [List.dropLast_cons_cons]; exact List.mem_cons_of_mem _ hz)
      · intro z hz
        exact hp z (by simpa using List.mem_cons_of_mem y hz)

theorem Circular.congr {as : List α} (h : Circular next prev as) (hn : ∀ x ∈ as, next' x = next x)
    (hp : ∀ x ∈ as, prev' x = prev x) : Circular next' prev' as := by
  cases as with
  | nil => exact .nil
  | cons a t =>
    refine path_congr ?_ ?_ h
    · intro x hx
      refine hn x ?_
      have hd : (closed (a :: t)).dropLast = a :: t := by
        rw [closed, ← List.cons_append, List.dropLast_concat]
      rwa [hd] at hx
    · intro x hx
      refine hp x ?_
      simpa [closed, or_comm] using hx

theorem Circular.linked {l r : List α} {x y : α} (h : Circular next prev (l ++ x :: y :: r)) :
    next x = y ∧ prev y = x := by
  have hs := closed_split l (y :: r) x
  rw [Circular, Path, hs, List.cons_append, List.isChain_append_cons_cons] at h
  exact h.2.1

theorem Circular.linked_last {l : List α} {x : α} (h : Circular next prev (l ++ [x])) :
    next x = l.headD x ∧ prev (l.headD x) = x := by
  have hs := closed_split l [] x
  rw [Circular, Path, hs, List.nil_append, List.isChain_append_cons_cons] at h
  exact h.2.1

/-- Around a cut after `x`, the links of all other nodes carry over: `x` is no
source before the cut, and the node `z` after the cut is no target elsewhere. -/
theorem path_outside {l r q : List α} {x z : α} (hq : r ++ [l.headD x] = z :: q)
    (hd : (l ++ x :: r).Nodup) (hn : ∀ w ∈ l ++ r, next' w = next w)
    (hp : ∀ w ∈ l ++ x :: r, w ≠ z → prev' w = prev w) :
    (Path next prev (l ++ [x]) → Path next' prev' (l ++ [x])) ∧
      (Path next prev (z :: q) → Path next' prev' (z :: q)) := by
  simp only [List.nodup_append, List.nodup_cons, List.mem_cons] at hd
  obtain ⟨hdl, ⟨hxr, hdr⟩, hdis⟩ := hd
  refine ⟨path_congr ?_ ?_, path_congr ?_ ?_⟩
  · intro w hw
    rw [List.dropLast_concat] at hw
    exact hn w (by simp [hw])
  · intro w hw
    have hmem := List.mem_of_mem_tail hw
    refine hp w (by simp at hmem ⊢; tauto) ?_
    rintro rfl
    cases l with
    | nil => simp at hw
    | cons a l =>
      cases r with
      | nil =>
        obtain ⟨rfl, -⟩ := List.cons.inj hq
        have hal := (List.nodup_cons.mp hdl).1
        have hax := hdis a (by simp) x (by simp)
        simp_all
      | cons b r =>
        obtain ⟨rfl, -⟩ := List.cons.inj hq
        rcases List.mem_append.mp hmem with hm | hm
        · exact hdis b hm b (by simp) rfl
        · exact hxr (by simp [List.mem_singleton.mp hm])
  · intro w hw
    rw [← hq, List.dropLast_concat] at hw
    exact hn w (by simp [hw])
  · intro w hw
    rw [List.tail_cons] at hw
    have hmem : w ∈ r ++ [l.headD x] := hq ▸ List.mem_cons_of_mem z hw
    have hhead : l.headD x ∈ l ++ [x] := by cases l <;> simp
    refine hp w ?_ ?_
    · rcases List.mem_append.mp hmem with hm | hm
      · simp [hm]
      · rw [← List.mem_singleton.mp hm] at hhead
        simp at hhead ⊢
        tauto
    · rintro rfl
      cases r with
      | nil =>
        rw [List.nil_append] at hq
        simp [(List.cons.inj hq).2.symm] at hw
      | cons b r =>
        obtain ⟨rfl, rfl⟩ := List.cons.inj hq
        rcases List.mem_append.mp hw with hm | hm
        · exact (List.nodup_cons.mp hdr).1 hm
        · rw [List.mem_singleton] at hm
          rw [← hm] at hhead
          rcases List.mem_append.mp hhead with hh | hh
          · exact hdis b hh b (by simp) rfl
          · exact hxr (by simp [List.mem_singleton.mp hh])

theorem Circular.remove {l r : List α} {x y : α} (h : Circular next prev (l ++ x :: y :: r))
    (hd : (l ++ x :: r).Nodup) (hx : next' x = next y) (hz : prev' (next y) = x)
    (hn : ∀ w ∈ l ++ r, next' w = next w)
    (hp : ∀ w ∈ l ++ x :: r, w ≠ next y → prev' w = prev w) :
    Circular next' prev' (l ++ x :: r) := by
  obtain ⟨z, q, hq⟩ : ∃ z q, r ++ [l.headD x] = z :: q :=
    List.exists_cons_of_ne_nil (by simp)
  rw [Circular, Path, closed_split, List.cons_append, hq, List.isChain_append_cons_cons,
    List.isChain_cons_cons] at h
  obtain ⟨hl, _, hyz, hr⟩ := h
  rw [hyz.1] at hx hz hp
  obtain ⟨hbefore, hafter⟩ := path_outside hq hd hn hp
  rw [Circular, Path, closed_split, hq, List.isChain_append_cons_cons]
  exact ⟨hbefore hl, ⟨hx, hz⟩, hafter hr⟩

theorem Circular.insert {l r : List α} {x y : α} (h : Circular next prev (l ++ x :: r))
    (hd : (l ++ x :: r).Nodup) (hx : next' x = y) (hy : next' y = next x)
    (hyp : prev' y = x) (hz : prev' (next x) = y)
    (hn : ∀ w ∈ l ++ r, next' w = next w)
    (hp : ∀ w ∈ l ++ x :: r, w ≠ next x → prev' w = prev w) :
    Circular next' prev' (l ++ x :: y :: r) := by
  obtain ⟨z, q, hq⟩ : ∃ z q, r ++ [l.headD x] = z :: q :=
    List.exists_cons_of_ne_nil (by simp)
  rw [Circular, Path, closed_split, hq, List.isChain_append_cons_cons] at h
  obtain ⟨hl, hxz, hr⟩ := h
  rw [hxz.1] at hy hz hp
  obtain ⟨hbefore, hafter⟩ := path_outside hq hd hn hp
  rw [Circular, Path, closed_split, List.cons_append, hq, List.isChain_append_cons_cons,
    List.isChain_cons_cons]
  exact ⟨hbefore hl, ⟨hx, hyp⟩, ⟨hy, hz⟩, hafter hr⟩

theorem Circular.next_mem {as : List α} (h : Circular next prev as) {x : α} (hx : x ∈ as) :
    next x ∈ as := by
  obtain ⟨l, r, rfl⟩ := List.append_of_mem hx
  cases r with
  | nil =>
    rw [h.linked_last.1]
    cases l <;> simp
  | cons y r =>
    rw [h.linked.1]
    simp

theorem Circular.exists_next {as : List α} (h : Circular next prev as) {x : α} (hx : x ∈ as) :
    ∃ y ∈ as, next y = x ∧ prev x = y := by
  obtain ⟨l, r, rfl⟩ := List.append_of_mem hx
  rcases List.eq_nil_or_concat l with rfl | ⟨l, y, rfl⟩
  · rcases List.eq_nil_or_concat r with rfl | ⟨r, y, rfl⟩
    · exact ⟨x, hx, h.linked_last⟩
    · have hl := @Circular.linked_last _ next prev (x :: r) y (by simpa using h)
      exact ⟨y, by simp, hl⟩
  · have hl := @Circular.linked _ next prev l r y x (by simpa using h)
    exact ⟨y, by simp, hl⟩

theorem Circular.next_prev {as : List α} (h : Circular next prev as) {x : α} (hx : x ∈ as) :
    next (prev x) = x := by
  obtain ⟨y, -, hn, hp⟩ := h.exists_next hx
  rw [hp, hn]

/-- The successor of a node that is not alone is another node. -/
theorem Circular.next_mem_of_cons {l r : List α} {x y : α} (h : Circular next prev (l ++ x :: y :: r)) :
    next y ∈ l ++ x :: r := by
  cases r with
  | nil =>
    have hl := @Circular.linked_last _ next prev (l ++ [x]) y (by simpa using h)
    rw [hl.1]
    cases l <;> simp
  | cons z r =>
    have hl := @Circular.linked _ next prev (l ++ [x]) r y z (by simpa using h)
    rw [hl.1]
    simp

theorem Circular.iterate {a : α} {t : List α} (h : Circular next prev (a :: t)) {i : ℕ}
    (hi : i ≤ t.length + 1) : (closed (a :: t))[i]? = some (next^[i] a) := by
  have hc := List.isChain_iff_getElem.mp h
  induction i with
  | zero => rfl
  | succ i ih =>
    have hlen : i + 1 < (closed (a :: t)).length := by
      simp only [closed, List.length_cons, List.length_append, List.length_nil]
      omega
    obtain ⟨hlt, hv⟩ := List.getElem?_eq_some_iff.mp (ih (by omega))
    rw [List.getElem?_eq_getElem hlen, Function.iterate_succ_apply', ← (hc i hlen).1, hv]

theorem Circular.iterate_length {a : α} {t : List α} (h : Circular next prev (a :: t)) :
    next^[t.length + 1] a = a := by
  have hi := h.iterate le_rfl
  have hlast : (closed (a :: t))[t.length + 1]? = some a := by simp [closed]
  exact (Option.some.inj (hlast.symm.trans hi)).symm

theorem Circular.prev_next {as : List α} (h : Circular next prev as) {x : α} (hx : x ∈ as) :
    prev (next x) = x := by
  obtain ⟨l, r, rfl⟩ := List.append_of_mem hx
  cases r with
  | nil =>
    obtain ⟨hn, hp⟩ := h.linked_last
    rw [hn, hp]
  | cons y r =>
    obtain ⟨hn, hp⟩ := h.linked
    rw [hn, hp]

end OperationSystems.CircularList
