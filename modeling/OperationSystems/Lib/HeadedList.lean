import Mathlib

/-!
# Doubly linked lists with heads

A cell holds a forward pointer: it is the head of a list or the forward link of
a node. The backward link of a node names the cell that points at it. Nodes
enter a list at its head and leave it anywhere. The operations are stated for
any links that differ from the old ones only where the operation writes.
-/

namespace OperationSystems.HeadedList

variable {κ α : Type*} {read read' : κ ⊕ α → Option α} {back back' : α → κ ⊕ α} {q : κ → List α}

/-- The last cell on the way along `l` from a cell. -/
def cell : κ ⊕ α → List α → κ ⊕ α
  | c, [] => c
  | _, a :: t => cell (.inr a) t

def Path (read : κ ⊕ α → Option α) (back : α → κ ⊕ α) : κ ⊕ α → List α → Prop
  | _, [] => True
  | c, a :: t => read c = some a ∧ back a = c ∧ Path read back (.inr a) t

def Segment (read : κ ⊕ α → Option α) (back : α → κ ⊕ α) (c : κ ⊕ α) (l : List α) : Prop :=
  Path read back c l ∧ read (cell c l) = none

/-- The list at every head. -/
def Holds (read : κ ⊕ α → Option α) (back : α → κ ⊕ α) (q : κ → List α) : Prop :=
  ∀ k, Segment read back (.inl k) (q k)

theorem cell_append (c : κ ⊕ α) (l t : List α) : cell c (l ++ t) = cell (cell c l) t := by
  induction l generalizing c with
  | nil => rfl
  | cons a l ih => exact ih _

theorem cell_concat (c : κ ⊕ α) (l : List α) (a : α) : cell c (l ++ [a]) = .inr a := by
  rw [cell_append]
  rfl

theorem cell_mem (c : κ ⊕ α) (l : List α) : cell c l ∈ c :: l.map .inr := by
  induction l generalizing c with
  | nil => exact List.mem_singleton.mpr rfl
  | cons a l ih => exact List.mem_cons_of_mem c (ih (.inr a))

theorem path_append {c : κ ⊕ α} {l t : List α} :
    Path read back c (l ++ t) ↔ Path read back c l ∧ Path read back (cell c l) t := by
  induction l generalizing c with
  | nil => simp [Path, cell]
  | cons a l ih => simp [Path, cell, ih, and_assoc]

theorem path_cons {c : κ ⊕ α} {l t : List α} {a : α} (h : Path read back c (l ++ a :: t)) :
    Path read back c l ∧ read (cell c l) = some a ∧ back a = cell c l ∧ Path read back (.inr a) t :=
  path_append.mp h

/-- The links before a node determine its head and its place. -/
theorem path_unique {k k' : κ} {l m t u : List α} {a : α} (h : Path read back (.inl k) (l ++ a :: t))
    (h' : Path read back (.inl k') (m ++ a :: u)) : k = k' ∧ l = m := by
  induction l using List.reverseRecOn generalizing a m t u with
  | nil =>
    obtain ⟨-, -, hb, -⟩ := path_cons h
    obtain ⟨-, -, hb', -⟩ := path_cons h'
    rcases List.eq_nil_or_concat' m with rfl | ⟨m, b, rfl⟩
    · exact ⟨Sum.inl_injective (hb.symm.trans hb'), rfl⟩
    · rw [hb', cell_concat] at hb
      exact absurd hb Sum.inr_ne_inl
  | append_singleton l b ih =>
    obtain ⟨-, -, hb, -⟩ := path_cons h
    obtain ⟨-, -, hb', -⟩ := path_cons h'
    rw [cell_concat] at hb
    rcases List.eq_nil_or_concat' m with rfl | ⟨m, c, rfl⟩
    · exact absurd (hb.symm.trans hb') Sum.inr_ne_inl
    · rw [hb, cell_concat] at hb'
      obtain rfl := Sum.inr_injective hb'
      rw [List.append_assoc] at h h'
      obtain ⟨hk, rfl⟩ := ih h h'
      exact ⟨hk, rfl⟩

theorem path_congr {c : κ ⊕ α} {l : List α} (hd : (c :: l.map .inr).Nodup)
    (hr : ∀ d ∈ c :: l.map .inr, d ≠ cell c l → read' d = read d) (hb : ∀ a ∈ l, back' a = back a)
    (h : Path read back c l) : Path read' back' c l := by
  induction l generalizing c with
  | nil => trivial
  | cons a t ih =>
    obtain ⟨hc, ha, ht⟩ := h
    obtain ⟨hn, hd⟩ := List.nodup_cons.mp hd
    have hne : c ≠ cell c (a :: t) := by
      intro he
      exact hn (he ▸ cell_mem (.inr a) t)
    refine ⟨?_, ?_, ih hd (fun d hm => hr d (List.mem_cons_of_mem c hm)) ?_ ht⟩
    · rw [hr c List.mem_cons_self hne, hc]
    · rw [hb a List.mem_cons_self, ha]
    · exact fun b hm => hb b (List.mem_cons_of_mem a hm)

theorem Segment.congr {c : κ ⊕ α} {l : List α} (h : Segment read back c l)
    (hd : (c :: l.map .inr).Nodup) (hr : ∀ d ∈ c :: l.map .inr, read' d = read d)
    (hb : ∀ a ∈ l, back' a = back a) : Segment read' back' c l :=
  ⟨path_congr hd (fun d hm _ => hr d hm) hb h.1, by rw [hr _ (cell_mem c l), h.2]⟩

theorem Segment.read_eq {c : κ ⊕ α} {l : List α} (h : Segment read back c l) : read c = l.head? := by
  cases l with
  | nil => exact h.2
  | cons a t => exact h.1.1

theorem Segment.mem_of_read {c : κ ⊕ α} {l : List α} (h : Segment read back c l) {a : α}
    (ha : read c = some a) : a ∈ l :=
  List.mem_of_head? (h.read_eq ▸ ha)

theorem Segment.drop {c : κ ⊕ α} {l t : List α} (h : Segment read back c (l ++ t)) :
    Segment read back (cell c l) t :=
  ⟨(path_append.mp h.1).2, by rw [← cell_append, h.2]⟩

namespace Holds

theorem nodup (h : Holds read back q) (k : κ) : (q k).Nodup := by
  rw [List.nodup_iff_sublist]
  intro a hs
  obtain ⟨r, s, hq, hr, hs⟩ := List.cons_sublist_iff.mp hs
  obtain ⟨l, x, rfl⟩ := List.append_of_mem hr
  obtain ⟨m, t, rfl⟩ := List.append_of_mem (List.singleton_sublist.mp hs)
  have hp := (h k).1
  rw [hq] at hp
  have h1 : Path read back (.inl k) (l ++ a :: (x ++ (m ++ a :: t))) := by simpa using hp
  have h2 : Path read back (.inl k) ((l ++ a :: (x ++ m)) ++ a :: t) := by simpa using hp
  have hl := congrArg List.length (path_unique h1 h2).2
  simp only [List.length_append, List.length_cons] at hl
  omega

theorem head_unique (h : Holds read back q) {k k' : κ} {a : α} (ha : a ∈ q k) (ha' : a ∈ q k') :
    k = k' := by
  obtain ⟨l, t, hl⟩ := List.append_of_mem ha
  obtain ⟨m, u, hm⟩ := List.append_of_mem ha'
  have h1 := (h k).1
  have h2 := (h k').1
  rw [hl] at h1
  rw [hm] at h2
  exact (path_unique h1 h2).1

theorem next_mem (h : Holds read back q) {k : κ} {a b : α} (ha : a ∈ q k)
    (hb : read (.inr a) = some b) : b ∈ q k := by
  obtain ⟨l, t, hq⟩ := List.append_of_mem ha
  have hs : Segment read back (.inl k) ((l ++ [a]) ++ t) := by
    simpa [hq] using h k
  have hd := hs.drop
  rw [cell_concat] at hd
  simp [hq, hd.mem_of_read hb]

theorem back_mem (h : Holds read back q) {k : κ} {a : α} (ha : a ∈ q k) :
    back a ∈ (.inl k : κ ⊕ α) :: (q k).map .inr ∧ read (back a) = some a := by
  obtain ⟨l, t, hq⟩ := List.append_of_mem ha
  have hp := (h k).1
  rw [hq] at hp
  obtain ⟨-, hr, hb, -⟩ := path_cons hp
  rw [hb, hq]
  refine ⟨?_, hr⟩
  simpa using List.mem_append_left ((.inr a : κ ⊕ α) :: t.map .inr) (cell_mem (.inl k) l)

theorem cells_nodup (h : Holds read back q) (k : κ) :
    ((.inl k : κ ⊕ α) :: (q k).map .inr).Nodup := by
  rw [List.nodup_cons]
  refine ⟨by simp, (h.nodup k).map Sum.inr_injective⟩

/-- A cell of one list is no cell of another. -/
theorem cell_ne (h : Holds read back q) {j k : κ} (hj : j ≠ k) {c d : κ ⊕ α}
    (hc : c ∈ (.inl j : κ ⊕ α) :: (q j).map .inr) (hd : d ∈ (.inl k : κ ⊕ α) :: (q k).map .inr) :
    c ≠ d := by
  rintro rfl
  rcases List.mem_cons.mp hc with rfl | hc
  · rcases List.mem_cons.mp hd with he | hd
    · exact hj (Sum.inl_injective he)
    · simp at hd
  · obtain ⟨a, ha, rfl⟩ := List.mem_map.mp hc
    rcases List.mem_cons.mp hd with he | hd
    · exact Sum.inr_ne_inl he
    · obtain ⟨b, hb, he⟩ := List.mem_map.mp hd
      obtain rfl := Sum.inr_injective he
      exact hj (h.head_unique ha hb)

theorem congr (h : Holds read back q) (hr : ∀ k, ∀ c ∈ (.inl k : κ ⊕ α) :: (q k).map .inr, read' c = read c)
    (hb : ∀ k, ∀ a ∈ q k, back' a = back a) : Holds read' back' q :=
  fun k => (h k).congr (h.cells_nodup k) (hr k) (hb k)

variable [DecidableEq κ] {k : κ} {a : α}

/-- A node that is in no list becomes the first of one. -/
theorem push (h : Holds read back q) (ha : ∀ j, a ∉ q j) (hk : read' (.inl k) = some a)
    (hn : read' (.inr a) = read (.inl k))
    (hr : ∀ c, c ≠ .inl k → c ≠ .inr a → read' c = read c) (hba : back' a = .inl k)
    (hbh : ∀ b, read (.inl k) = some b → back' b = .inr a)
    (hb : ∀ b, b ≠ a → read (.inl k) ≠ some b → back' b = back b) :
    Holds read' back' (Function.update q k (a :: q k)) := by
  have hnode : ∀ j, ∀ c ∈ (.inl j : κ ⊕ α) :: (q j).map .inr, c ≠ .inl k → read' c = read c := by
    intro j c hc hne
    refine hr c hne ?_
    rintro rfl
    rcases List.mem_cons.mp hc with hc | hc
    · exact Sum.inr_ne_inl hc
    · obtain ⟨b, hm, he⟩ := List.mem_map.mp hc
      exact ha j (Sum.inr_injective he ▸ hm)
  intro j
  by_cases hj : j = k
  · subst hj
    rw [Function.update_self]
    obtain ⟨hp, hend⟩ := h j
    have hcells := h.cells_nodup j
    have hhead := h.nodup j
    cases hq : q j with
    | nil =>
      rw [hq] at hend
      exact ⟨⟨hk, hba, trivial⟩, hn.trans hend⟩
    | cons b t =>
      rw [hq] at hp hend hcells hhead
      obtain ⟨hf, -, ht⟩ := hp
      have hmem : ∀ c ∈ (.inr b : κ ⊕ α) :: t.map .inr, read' c = read c := by
        intro c hc
        refine hnode j c ?_ ?_
        · rw [hq]
          exact List.mem_cons_of_mem _ hc
        · rintro rfl
          exact (List.nodup_cons.mp hcells).1 hc
      have hback : ∀ x ∈ t, back' x = back x := by
        intro x hx
        refine hb x ?_ ?_
        · rintro rfl
          exact ha j (hq ▸ List.mem_cons_of_mem b hx)
        · rw [hf]
          rintro ⟨⟩
          exact (List.nodup_cons.mp hhead).1 hx
      have hs : Segment read' back' (.inr b) t :=
        Segment.congr ⟨ht, hend⟩ (List.nodup_cons.mp hcells).2 hmem hback
      exact ⟨⟨hk, hba, hn.trans hf, hbh b hf, hs.1⟩, hs.2⟩
  · rw [Function.update_of_ne hj]
    refine (h j).congr (h.cells_nodup j) ?_ ?_
    · intro c hc
      exact hnode j c hc (h.cell_ne hj hc List.mem_cons_self)
    · intro x hx
      refine hb x ?_ ?_
      · rintro rfl
        exact ha j hx
      · intro hf
        exact hj (h.head_unique hx ((h k).mem_of_read hf))

/-- A node leaves its list; its own links may keep any values. -/
theorem remove [DecidableEq α] (h : Holds read back q) (ha : a ∈ q k)
    (hc : read' (back a) = read (.inr a)) (hr : ∀ c, c ≠ back a → c ≠ .inr a → read' c = read c)
    (hbn : ∀ b, read (.inr a) = some b → back' b = back a)
    (hb : ∀ b, b ≠ a → read (.inr a) ≠ some b → back' b = back b) :
    Holds read' back' (Function.update q k ((q k).erase a)) := by
  obtain ⟨l, t, hq⟩ := List.append_of_mem ha
  have hcells := h.cells_nodup k
  have hnd := h.nodup k
  obtain ⟨hp, hend⟩ := h k
  rw [hq] at hp hend hcells hnd
  obtain ⟨hl, -, hba, ht⟩ := path_cons hp
  have hrest : Segment read back (.inr a) t := by
    have hs : Segment read back (.inl k) ((l ++ [a]) ++ t) := by simpa [Segment] using And.intro hp hend
    simpa [cell_concat] using hs.drop
  have hal : a ∉ l := by
    intro hm
    exact (List.nodup_append.mp hnd).2.2 a hm a List.mem_cons_self rfl
  have herase : (q k).erase a = l ++ t := by
    rw [hq, List.erase_append_right _ hal, List.erase_cons_head]
  have hsplit : (((.inl k : κ ⊕ α) :: l.map .inr) ++ ((.inr a : κ ⊕ α) :: t.map .inr)).Nodup := by
    simpa using hcells
  obtain ⟨hdl, hdt, hdis⟩ := List.nodup_append.mp hsplit
  have hback : back a ∈ (.inl k : κ ⊕ α) :: l.map .inr := hba ▸ cell_mem (.inl k) l
  have hbefore : Path read' back' (.inl k) l := by
    refine path_congr hdl ?_ ?_ hl
    · intro c hm hne
      exact hr c (hba ▸ hne) (hdis c hm _ List.mem_cons_self)
    · intro x hx
      refine hb x ?_ ?_
      · rintro rfl
        exact hal hx
      · intro hf
        exact (List.nodup_append.mp hnd).2.2 x hx x (by simp [hrest.mem_of_read hf]) rfl
  have hafter : ∀ c ∈ t.map (Sum.inr : α → κ ⊕ α), read' c = read c := by
    intro c hm
    refine hr c ?_ ?_
    · rintro rfl
      exact hdis _ hback _ (List.mem_cons_of_mem _ hm) rfl
    · rintro rfl
      exact (List.nodup_cons.mp hdt).1 hm
  intro j
  by_cases hj : j = k
  · subst hj
    rw [Function.update_self, herase, Segment, path_append, cell_append]
    cases t with
    | nil =>
      refine ⟨⟨hbefore, trivial⟩, ?_⟩
      rw [cell, ← hba, hc, hrest.read_eq, List.head?_nil]
    | cons b t =>
      have hs : Segment read' back' (.inr b) t := by
        refine Segment.congr ⟨ht.2.2, hrest.2⟩ (List.nodup_cons.mp hdt).2 hafter ?_
        intro x hx
        have hbt := List.nodup_cons.mp (List.nodup_append.mp hnd).2.1
        refine hb x ?_ ?_
        · rintro rfl
          exact hbt.1 (List.mem_cons_of_mem b hx)
        · rw [ht.1]
          rintro ⟨⟩
          exact (List.nodup_cons.mp hbt.2).1 hx
      refine ⟨⟨hbefore, ?_, ?_, hs.1⟩, hs.2⟩
      · rw [← hba, hc, ht.1]
      · rw [hbn b ht.1, hba]
  · rw [Function.update_of_ne hj]
    refine (h j).congr (h.cells_nodup j) ?_ ?_
    · intro c hm
      refine hr c ?_ ?_
      · refine h.cell_ne hj hm ?_
        rw [hq]
        simpa using List.mem_append_left ((.inr a : κ ⊕ α) :: t.map .inr) hback
      · exact h.cell_ne hj hm (List.mem_cons_of_mem _ (List.mem_map_of_mem ha))
    · intro x hx
      refine hb x ?_ ?_
      · rintro rfl
        exact hj (h.head_unique hx ha)
      · intro hf
        have hxt := hrest.mem_of_read hf
        exact hj (h.head_unique hx (by simp [hq, hxt]))

end Holds

/-- The first node from a cell on that `p` accepts, in at most `fuel` steps. -/
def search (read : κ ⊕ α → Option α) (p : α → Bool) : ℕ → κ ⊕ α → Option (Option α)
  | 0, _ => none
  | fuel + 1, c =>
    match read c with
    | none => some none
    | some a => if p a then some (some a) else search read p fuel (.inr a)

theorem Segment.search_eq {c : κ ⊕ α} {l : List α} (h : Segment read back c l) (p : α → Bool) {fuel : ℕ}
    (hf : l.length < fuel) : search read p fuel c = some (l.find? p) := by
  induction l generalizing c fuel with
  | nil =>
    obtain ⟨n, rfl⟩ : ∃ n, fuel = n + 1 := ⟨fuel - 1, by simp at hf; omega⟩
    simp only [search, show read c = none from h.2, List.find?_nil]
  | cons a t ih =>
    obtain ⟨n, rfl⟩ : ∃ n, fuel = n + 1 := ⟨fuel - 1, by simp at hf; omega⟩
    obtain ⟨⟨hc, -, ht⟩, hend⟩ := h
    simp only [search, hc, List.find?_cons]
    cases p a with
    | true => rfl
    | false => simpa using ih ⟨ht, hend⟩ (by simpa using hf)

end OperationSystems.HeadedList
