import OperationSystems.Lib.Run

/-!
# Populations

Individuals that are alive hold values. One of them changes its value, puts a
copy of it into a new individual, or goes. What every change keeps is kept in
all who descend from an individual, and the number of those with a given
feature follows the events.
-/

namespace OperationSystems.Transition

structure Population (κ ν : Type*) where
  live : Finset κ
  value : κ → ν

namespace Population

/-- A change is labelled with what it does. -/
inductive Label (κ ε : Type*) where
  | change (p : κ) (e : ε)
  | copy (p q : κ)
  | drop (p : κ)
deriving DecidableEq

variable {κ ν ε φ : Type*} [DecidableEq κ] [DecidableEq φ] {R : ε → ν → ν → Prop} {s t : Population κ ν}
  {p q : κ} {v : ν} {f : ν → φ} {u : φ} {D : Finset κ} {es : List (Label κ ε)}

def change (s : Population κ ν) (p : κ) (v : ν) : Population κ ν := { s with value := Function.update s.value p v }

def copy (s : Population κ ν) (p q : κ) : Population κ ν where
  live := insert q s.live
  value := Function.update s.value q (s.value p)

def drop (s : Population κ ν) (p : κ) : Population κ ν := { s with live := s.live.erase p }

/-- A copy may also fail. -/
inductive Move (R : ε → ν → ν → Prop) (s : Population κ ν) : Label κ ε → Population κ ν → Prop where
  | change {p : κ} {e : ε} {v : ν} : p ∈ s.live → R e (s.value p) v → Move R s (.change p e) (s.change p v)
  | copy {p q : κ} : p ∈ s.live → q ∉ s.live → Move R s (.copy p q) (s.copy p q)
  | fail {p q : κ} : q ∉ s.live → Move R s (.copy p q) s
  | drop {p : κ} : Move R s (.drop p) (s.drop p)

/-- Those who descend from the members of `D` by copies. A new individual is a descendant
only if it is a copy of one. -/
def heirs (D : Finset κ) : Label κ ε → Finset κ
  | .change _ _ => D
  | .copy p q => if p ∈ D then insert q D else D.erase q
  | .drop _ => D

/-- A member of `D`, or who descends from one, makes the change `e`. -/
def Makes (D : Finset κ) (es : List (Label κ ε)) (e : ε) : Prop :=
  ∃ es₁ es₂ p, es = es₁ ++ .change p e :: es₂ ∧ p ∈ es₁.foldl heirs D

omit [DecidableEq φ] in
theorem Makes.mem {e : ε} (h : Makes D es e) : ∃ p, .change p e ∈ es := by
  obtain ⟨es₁, es₂, p, rfl, -⟩ := h
  exact ⟨p, by simp⟩

@[simp] theorem change_live (s : Population κ ν) (p : κ) (v : ν) : (s.change p v).live = s.live := rfl

@[simp] theorem change_value_self (s : Population κ ν) (p : κ) (v : ν) : (s.change p v).value p = v :=
  Function.update_self ..

theorem change_value_of_ne (s : Population κ ν) (v : ν) (h : q ≠ p) : (s.change p v).value q = s.value q :=
  Function.update_of_ne h _ _

@[simp] theorem copy_value_self (s : Population κ ν) (p q : κ) : (s.copy p q).value q = s.value p :=
  Function.update_self ..

theorem copy_value_of_ne (s : Population κ ν) {r : κ} (h : r ≠ q) : (s.copy p q).value r = s.value r :=
  Function.update_of_ne h _ _

theorem mem_copy_live {r : κ} : r ∈ (s.copy p q).live ↔ r = q ∨ r ∈ s.live := Finset.mem_insert

/-- One step, for the members of `D` and their copies. -/
theorem Move.heirs {I : ν → Prop} {e : Label κ ε} (h : Move R s e t) (hs : ∀ q ∈ D, q ∈ s.live → I (s.value q))
    (hR : ∀ p a v v', e = .change p a → p ∈ D → I v → R a v v' → I v') :
    ∀ q ∈ heirs D e, q ∈ t.live → I (t.value q) := by
  cases h with
  | @change p a v hp hr =>
    intro q hq hl
    by_cases he : q = p
    · subst he
      rw [change_value_self]
      exact hR q a _ v rfl hq (hs q hq hp) hr
    · rw [change_value_of_ne s v he]
      exact hs q hq hl
  | @copy p q hp hq =>
    intro r hr hl
    simp only [Population.heirs] at hr
    by_cases he : r = q
    · subst he
      rw [copy_value_self]
      split at hr
      · exact hs p ‹_› hp
      · exact absurd rfl (Finset.ne_of_mem_erase hr)
    · rw [copy_value_of_ne s he]
      have hrs := (mem_copy_live.mp hl).resolve_left he
      split at hr
      · exact hs r ((Finset.mem_insert.mp hr).resolve_left he) hrs
      · exact hs r (Finset.mem_of_mem_erase hr) hrs
  | @fail p q hq =>
    intro r hr hl
    simp only [Population.heirs] at hr
    have he : r ≠ q := fun he => hq (he ▸ hl)
    split at hr
    · exact hs r ((Finset.mem_insert.mp hr).resolve_left he) hl
    · exact hs r (Finset.mem_of_mem_erase hr) hl
  | @drop p => exact fun q hq hl => hs q hq (Finset.mem_of_mem_erase hl)

/-- What the changes that are made by members of `D` and their descendants keep holds for all of them. -/
theorem heirs_run {I : ν → Prop} (h : Run (Move R) s es t) (hs : ∀ q ∈ D, q ∈ s.live → I (s.value q))
    (hR : ∀ a v v', Makes D es a → I v → R a v v' → I v') :
    ∀ q ∈ es.foldl heirs D, q ∈ t.live → I (t.value q) := by
  induction h with
  | nil => exact hs
  | @snoc es t u e _ he ih =>
    have hprefix := ih fun a v v' hm => by
      obtain ⟨es₁, es₂, p, rfl, hp⟩ := hm
      exact hR a v v' ⟨es₁, es₂ ++ [e], p, by simp, hp⟩
    rw [List.foldl_append]
    refine he.heirs hprefix fun p a v v' hl hp => hR a v v' ⟨es, [], p, by rw [hl], hp⟩

/-- Everybody descends from those who were there. -/
theorem Move.live_subset {e : Label κ ε} (h : Move R s e t) (hs : s.live ⊆ D) : t.live ⊆ Population.heirs D e := by
  cases h with
  | change => exact hs
  | copy hp hq =>
    rw [Population.heirs, if_pos (hs hp)]
    exact Finset.insert_subset_insert _ hs
  | @fail p q hq =>
    rw [Population.heirs]
    split
    · exact hs.trans (Finset.subset_insert q D)
    · exact fun r hr => Finset.mem_erase.mpr ⟨fun he => hq (he ▸ hr), hs hr⟩
  | drop => exact (Finset.erase_subset _ _).trans hs

theorem live_subset_run (h : Run (Move R) s es t) (hs : s.live ⊆ D) : t.live ⊆ es.foldl heirs D := by
  induction h with
  | nil => exact hs
  | snoc _ he ih =>
    rw [List.foldl_append]
    exact he.live_subset ih

/-- How many have the feature `u`. -/
def tally (s : Population κ ν) (f : ν → φ) (u : φ) : ℕ := (s.live.filter fun p => f (s.value p) = u).card

omit [DecidableEq κ] in
theorem tally_congr {g : ν → φ} (h : ∀ p ∈ s.live, f (s.value p) = g (s.value p)) (u : φ) :
    s.tally f u = s.tally g u :=
  congrArg Finset.card (Finset.filter_congr fun p hp => by rw [h p hp])

theorem tally_change (s : Population κ ν) (f : ν → φ) (u : φ) (v : ν) (hp : p ∈ s.live) :
    (s.change p v).tally f u + (if f (s.value p) = u then 1 else 0) =
      s.tally f u + if f v = u then 1 else 0 := by
  have hrest : (s.live.erase p).filter (fun q => f ((s.change p v).value q) = u) =
      (s.live.erase p).filter fun q => f (s.value q) = u :=
    Finset.filter_congr fun q hq => by rw [change_value_of_ne s v (Finset.ne_of_mem_erase hq)]
  have hsplit : ∀ g : κ → ν, (s.live.filter fun q => f (g q) = u).card =
      ((s.live.erase p).filter fun q => f (g q) = u).card + if f (g p) = u then 1 else 0 := by
    intro g
    conv_lhs => rw [← Finset.insert_erase hp, Finset.filter_insert]
    split
    · rw [Finset.card_insert_of_notMem (by simp)]
    · rfl
  rw [tally, tally, change_live, hsplit (s.change p v).value, hsplit s.value, hrest, change_value_self]
  omega

theorem tally_copy (s : Population κ ν) (f : ν → φ) (u : φ) (hq : q ∉ s.live) :
    (s.copy p q).tally f u = s.tally f u + if f (s.value p) = u then 1 else 0 := by
  have hrest : s.live.filter (fun r => f ((s.copy p q).value r) = u) = s.live.filter fun r => f (s.value r) = u :=
    Finset.filter_congr fun r hr => by
      have hne : r ≠ q := fun he => hq (he ▸ hr)
      rw [copy_value_of_ne s hne]
  rw [tally, tally, copy, Finset.filter_insert, ← copy, hrest, copy_value_self]
  split
  · rw [Finset.card_insert_of_notMem (by simp [hq])]
  · rfl

theorem tally_drop (s : Population κ ν) (f : ν → φ) (u : φ) (hp : p ∈ s.live) :
    (s.drop p).tally f u + (if f (s.value p) = u then 1 else 0) = s.tally f u := by
  rw [tally, tally, drop]
  conv_rhs => rw [← Finset.insert_erase hp, Finset.filter_insert]
  split
  · rw [Finset.card_insert_of_notMem (by simp)]
  · rfl

end Population

end OperationSystems.Transition
