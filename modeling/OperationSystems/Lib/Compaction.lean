import Mathlib

/-!
# Compaction of a sequence of cells

Some cells are open, and an open cell can be joined with an open one after it.
`compact` joins neighbours as long as it can. A list is settled when there is
nothing to join, and compaction of a part of a list does not change what
compaction of the whole gives.
-/

namespace OperationSystems.Compaction

variable {β : Type*} (isOpen : β → Bool) (join : β → β → β)

/-- A cell in front of a list, joined with the first cell if both are open. -/
def push (b : β) : List β → List β
  | [] => [b]
  | c :: r => if isOpen b && isOpen c then join b c :: r else b :: c :: r

def compact : List β → List β
  | [] => []
  | b :: r => push isOpen join b (compact r)

def Settled (bs : List β) : Prop := bs.IsChain fun b c => ¬ (isOpen b = true ∧ isOpen c = true)

/-- Joining open cells gives an open cell, in whatever order they are joined. -/
structure Joins : Prop where
  isOpen_join : ∀ b c, isOpen b = true → isOpen c = true → isOpen (join b c) = true
  assoc : ∀ a b c, join (join a b) c = join a (join b c)

variable {isOpen join} {l r s : List β} {b c : β}

@[simp] theorem push_nil : push isOpen join b [] = [b] := rfl

theorem push_open (hb : isOpen b = true) (hc : isOpen c = true) :
    push isOpen join b (c :: r) = join b c :: r := by
  simp [push, hb, hc]

theorem push_closed (hb : isOpen b = false) : push isOpen join b r = b :: r := by
  cases r with
  | nil => rfl
  | cons c r => simp [push, hb]

theorem push_before_closed (hc : isOpen c = false) :
    push isOpen join b (c :: r) = b :: c :: r := by
  simp [push, hc]

@[simp] theorem compact_nil : compact isOpen join [] = [] := rfl

@[simp] theorem compact_cons :
    compact isOpen join (b :: r) = push isOpen join b (compact isOpen join r) := rfl

theorem compact_append :
    compact isOpen join (l ++ r) = l.foldr (push isOpen join) (compact isOpen join r) := by
  induction l with
  | nil => rfl
  | cons b l ih => rw [List.cons_append, compact_cons, ih, List.foldr_cons]

/-- A closed cell separates what is before it from what is behind it. -/
theorem compact_split (hb : isOpen b = false) :
    compact isOpen join (l ++ b :: r) = compact isOpen join l ++ b :: compact isOpen join r := by
  induction l with
  | nil => exact push_closed hb
  | cons a l ih =>
    rw [List.cons_append, compact_cons, ih, compact_cons]
    cases compact isOpen join l with
    | nil => exact push_before_closed hb
    | cons c t =>
      rw [List.cons_append]
      by_cases h : isOpen a && isOpen c
      · simp [push, h]
      · simp [push, h]

theorem push_push (hj : Joins isOpen join) (hb : isOpen b = true) (hc : isOpen c = true) :
    push isOpen join b (push isOpen join c r) = push isOpen join (join b c) r := by
  have hbc := hj.isOpen_join b c hb hc
  cases r with
  | nil => exact push_open hb hc
  | cons a r =>
    cases ha : isOpen a with
    | false => rw [push_before_closed ha, push_before_closed ha, push_open hb hc]
    | true =>
      rw [push_open hc ha, push_open hb (hj.isOpen_join c a hc ha), push_open hbc ha, hj.assoc]

theorem foldr_compact (hj : Joins isOpen join) :
    (compact isOpen join l).foldr (push isOpen join) s = l.foldr (push isOpen join) s := by
  induction l with
  | nil => rfl
  | cons b l ih =>
    rw [compact_cons, List.foldr_cons, ← ih]
    cases compact isOpen join l with
    | nil => rfl
    | cons c t =>
      cases hb : isOpen b with
      | false => rw [push_closed hb, List.foldr_cons]
      | true =>
        cases hc : isOpen c with
        | false => rw [push_before_closed hc, List.foldr_cons]
        | true => rw [push_open hb hc, List.foldr_cons, List.foldr_cons, push_push hj hb hc]

theorem compact_compact (hj : Joins isOpen join) :
    compact isOpen join (compact isOpen join l) = compact isOpen join l := by
  have hfold : ∀ t, compact isOpen join t = t.foldr (push isOpen join) [] := fun t => by
    simpa using @compact_append β isOpen join t []
  rw [hfold (compact isOpen join l), foldr_compact hj, ← hfold]

theorem compact_left (hj : Joins isOpen join) :
    compact isOpen join (compact isOpen join l ++ r) = compact isOpen join (l ++ r) := by
  rw [compact_append, compact_append, foldr_compact hj]

theorem compact_right (hj : Joins isOpen join) :
    compact isOpen join (l ++ compact isOpen join r) = compact isOpen join (l ++ r) := by
  rw [compact_append, compact_append, compact_compact hj]

theorem compact_cons_cons (hj : Joins isOpen join) (hb : isOpen b = true) (hc : isOpen c = true) :
    compact isOpen join (l ++ b :: c :: r) = compact isOpen join (l ++ join b c :: r) := by
  rw [compact_append, compact_append, compact_cons, compact_cons, push_push hj hb hc, compact_cons]

/-- An open cell stays open when it takes in the next one. -/
theorem push_head (hj : Joins isOpen join) (hb : isOpen b = true) :
    ∃ c t, push isOpen join b r = c :: t ∧ isOpen c = true := by
  cases r with
  | nil => exact ⟨b, [], rfl, hb⟩
  | cons c r =>
    cases hc : isOpen c with
    | false => exact ⟨b, c :: r, push_before_closed hc, hb⟩
    | true => exact ⟨join b c, r, push_open hb hc, hj.isOpen_join b c hb hc⟩

theorem settled_push (hr : Settled isOpen r) :
    Settled isOpen (push isOpen join b r) := by
  cases r with
  | nil => exact .singleton b
  | cons c r =>
    cases hb : isOpen b with
    | false =>
      rw [push_closed hb]
      exact List.isChain_cons_cons.mpr ⟨by simp [hb], hr⟩
    | true =>
      cases hc : isOpen c with
      | false =>
        rw [push_before_closed hc]
        exact List.isChain_cons_cons.mpr ⟨by simp [hc], hr⟩
      | true =>
        rw [push_open hb hc]
        cases r with
        | nil => exact .singleton _
        | cons a r =>
          obtain ⟨hca, hr⟩ := List.isChain_cons_cons.mp hr
          refine List.isChain_cons_cons.mpr ⟨fun h => hca ⟨hc, h.2⟩, hr⟩

theorem settled_compact : Settled isOpen (compact isOpen join l) := by
  induction l with
  | nil => exact .nil
  | cons b l ih => exact settled_push ih

theorem compact_of_settled (hl : Settled isOpen l) : compact isOpen join l = l := by
  induction l with
  | nil => rfl
  | cons b l ih =>
    cases l with
    | nil => rfl
    | cons c l =>
      obtain ⟨hbc, hl⟩ := List.isChain_cons_cons.mp hl
      rw [compact_cons, ih hl, push, if_neg]
      simpa using hbc

/-- Around a closed cell, both sides are settled on their own. -/
theorem settled_split (hb : isOpen b = false) :
    Settled isOpen (l ++ b :: r) ↔ Settled isOpen l ∧ Settled isOpen r := by
  simp only [Settled, List.isChain_append, List.isChain_cons, List.head?_cons, Option.mem_some_iff]
  constructor
  · rintro ⟨hl, ⟨-, hr⟩, -⟩
    exact ⟨hl, hr⟩
  · rintro ⟨hl, hr⟩
    refine ⟨hl, ⟨?_, hr⟩, ?_⟩
    · simp [hb]
    · rintro x - y rfl
      simp [hb]

end OperationSystems.Compaction
