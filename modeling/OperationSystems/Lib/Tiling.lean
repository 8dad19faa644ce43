import Mathlib

/-!
# Consecutive layout of variable-length cells

`place len a bs` gives each cell of `bs` its address when the cells are laid
out one after the other from address `a` on, and `span len bs` is the space
they take.
-/

namespace OperationSystems.Tiling

variable {β : Type*} (len : β → ℕ)

def span (bs : List β) : ℕ := (bs.map len).sum

def place : ℕ → List β → List (ℕ × β)
  | _, [] => []
  | a, b :: bs => (a, b) :: place (a + len b) bs

@[simp] theorem span_nil : span len [] = 0 := rfl

@[simp] theorem span_cons (b : β) (bs : List β) : span len (b :: bs) = len b + span len bs := rfl

@[simp] theorem span_append (l r : List β) : span len (l ++ r) = span len l + span len r := by
  simp [span]

@[simp] theorem place_nil (a : ℕ) : place len a [] = [] := rfl

@[simp] theorem place_cons (a : ℕ) (b : β) (bs : List β) :
    place len a (b :: bs) = (a, b) :: place len (a + len b) bs := rfl

theorem place_append (a : ℕ) (l r : List β) :
    place len a (l ++ r) = place len a l ++ place len (a + span len l) r := by
  induction l generalizing a with
  | nil => simp
  | cons b l ih => simp [ih, Nat.add_assoc]

theorem place_split (a : ℕ) (l r : List β) (b : β) :
    place len a (l ++ b :: r) =
      place len a l ++ (a + span len l, b) :: place len (a + span len l + len b) r := by
  rw [place_append, place_cons]

variable {len} in
theorem mem_place_split {a : ℕ} {bs : List β} {x : ℕ × β} (h : x ∈ place len a bs) :
    ∃ l r, bs = l ++ x.2 :: r ∧ x.1 = a + span len l := by
  induction bs generalizing a with
  | nil => simp at h
  | cons b bs ih =>
    rcases List.mem_cons.mp h with rfl | h
    · exact ⟨[], bs, rfl, rfl⟩
    · obtain ⟨l, r, rfl, hx⟩ := ih h
      exact ⟨b :: l, r, rfl, by rw [hx, span_cons, Nat.add_assoc]⟩

variable {len} in
theorem mem_place_bounds {a : ℕ} {bs : List β} {x : ℕ × β} (h : x ∈ place len a bs) :
    a ≤ x.1 ∧ x.1 + len x.2 ≤ a + span len bs := by
  obtain ⟨l, r, rfl, hx⟩ := mem_place_split h
  simp only [span_append, span_cons]
  omega

variable {len} in
/-- Two placed cells are the same or lie entirely before one another. -/
theorem place_apart {a : ℕ} {bs : List β} {x y : ℕ × β} (hx : x ∈ place len a bs)
    (hy : y ∈ place len a bs) : x = y ∨ x.1 + len x.2 ≤ y.1 ∨ y.1 + len y.2 ≤ x.1 := by
  induction bs generalizing a with
  | nil => simp at hx
  | cons b bs ih =>
    rcases List.mem_cons.mp hx with rfl | hx <;> rcases List.mem_cons.mp hy with rfl | hy
    · exact Or.inl rfl
    · exact Or.inr (Or.inl (mem_place_bounds hy).1)
    · exact Or.inr (Or.inr (mem_place_bounds hx).1)
    · exact ih hx hy

theorem place_pairwise (hlen : ∀ b, 0 < len b) (a : ℕ) (bs : List β) :
    ((place len a bs).map Prod.fst).Pairwise (· < ·) := by
  induction bs generalizing a with
  | nil => simp
  | cons b bs ih =>
    refine List.pairwise_cons.mpr ⟨?_, ih _⟩
    intro c hc
    obtain ⟨x, hx, rfl⟩ := List.mem_map.mp hc
    have := (mem_place_bounds hx).1
    have := hlen b
    omega

theorem place_isChain (a : ℕ) (bs : List β) :
    (place len a bs).IsChain (fun x y => x.1 + len x.2 = y.1) := by
  induction bs generalizing a with
  | nil => exact .nil
  | cons b bs ih =>
    cases bs with
    | nil => exact .singleton _
    | cons c bs => exact List.isChain_cons_cons.mpr ⟨rfl, ih _⟩

theorem place_getLast (a : ℕ) (l : List β) (b : β) :
    (place len a (l ++ [b])).getLast? = some (a + span len l, b) := by
  rw [place_split, place_nil, List.getLast?_concat]

theorem place_map_snd (a : ℕ) (bs : List β) : (place len a bs).map Prod.snd = bs := by
  induction bs generalizing a with
  | nil => rfl
  | cons b bs ih => simp [ih]

/-- Cells that are as long as their images lie where these do. -/
theorem place_map {γ : Type*} {len' : γ → ℕ} {f : β → γ} (hf : ∀ b, len' (f b) = len b) (a : ℕ)
    (bs : List β) : (place len a bs).map (Prod.map id f) = place len' a (bs.map f) := by
  induction bs generalizing a with
  | nil => rfl
  | cons b bs ih => simp [ih, hf]

theorem place_prefix (a : ℕ) {bs bs' : List β} (h : bs <+: bs') : place len a bs <+: place len a bs' := by
  obtain ⟨t, rfl⟩ := h
  rw [place_append]
  exact List.prefix_append _ _

end OperationSystems.Tiling
