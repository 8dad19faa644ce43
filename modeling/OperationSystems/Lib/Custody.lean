import Mathlib

/-!
# Tokens handed from a queue to holders and on

A token waits in a queue, is held by one of `n` holders and is done. The three
moves keep the tokens of all places together the same, so no token is lost or
handed out twice.
-/

namespace OperationSystems.Custody

variable {τ : Type*}

/-- The tokens of the first `n` holders. -/
def holders (n : ℕ) (held : ℕ → Option τ) : List τ := (List.range n).filterMap held

def all (n : ℕ) (done : List τ) (held : ℕ → Option τ) (queue : List τ) : List τ :=
  done ++ (holders n held ++ queue)

theorem mem_holders {n : ℕ} {held : ℕ → Option τ} {a : τ} :
    a ∈ holders n held ↔ ∃ k < n, held k = some a := by
  simp [holders]

/-- A free holder that takes a token adds it to those held. -/
theorem holders_take {n k : ℕ} {held held' : ℕ → Option τ} {a : τ} (hk : k < n) (hfree : held k = none)
    (htake : held' k = some a) (hrest : ∀ l, l ≠ k → held' l = held l) :
    (holders n held').Perm (a :: holders n held) := by
  obtain ⟨l, r, hlr⟩ := List.append_of_mem (List.mem_range.mpr hk)
  have hnd : (k :: (l ++ r)).Nodup :=
    (List.perm_middle.nodup_iff).mp (hlr ▸ List.nodup_range (n := n))
  have hnot : ∀ x ∈ l ++ r, held' x = held x := fun x hx =>
    hrest x fun h => (List.nodup_cons.mp hnd).1 (h ▸ hx)
  unfold holders
  rw [hlr, List.filterMap_append, List.filterMap_append, List.filterMap_cons_some htake,
    List.filterMap_cons_none hfree]
  rw [List.filterMap_congr fun x hx => hnot x (List.mem_append_left r hx),
    List.filterMap_congr fun x hx => hnot x (List.mem_append_right l hx)]
  exact List.perm_middle

section Moves

variable {n k : ℕ} {done queue : List τ} {held held' : ℕ → Option τ} {a : τ}

theorem all_push (n : ℕ) (done queue : List τ) (held : ℕ → Option τ) (a : τ) :
    all n done held (queue ++ [a]) = all n done held queue ++ [a] := by
  simp [all]

/-- Taking the first token of the queue. -/
theorem all_take (hk : k < n) (hfree : held k = none) (htake : held' k = some a)
    (hrest : ∀ l, l ≠ k → held' l = held l) :
    (all n done held' queue).Perm (all n done held (a :: queue)) := by
  unfold all
  refine List.Perm.append_left done ?_
  exact ((holders_take hk hfree htake hrest).append_right queue).trans List.perm_middle.symm

/-- A holder is done with its token. -/
theorem all_finish (hk : k < n) (hheld : held k = some a) (hfree : held' k = none)
    (hrest : ∀ l, l ≠ k → held' l = held l) :
    (all n (done ++ [a]) held' queue).Perm (all n done held queue) := by
  have h := holders_take hk hfree hheld fun l hl => (hrest l hl).symm
  unfold all
  rw [List.append_assoc]
  exact List.Perm.append_left done (h.symm.append_right queue)

/-- When as many tokens are done as there are, none is held and none waits. -/
theorem all_done {m : ℕ} (h : (all n done held queue).length = m) (hm : m ≤ done.length) :
    holders n held = [] ∧ queue = [] := by
  simp only [all, List.length_append] at h
  exact ⟨List.eq_nil_of_length_eq_zero (by omega), List.eq_nil_of_length_eq_zero (by omega)⟩

end Moves

end OperationSystems.Custody
