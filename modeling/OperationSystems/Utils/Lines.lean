import Mathlib

/-!
# Lines and tokens

`read_lines` and `split` of `utils.cpp` on the characters of a file. Both call
`getline` until it fails, which it does at the end of the stream only, so a
delimiter at the very end is not followed by an empty piece and one elsewhere
may be.
-/

namespace OperationSystems.Utils

/-- `getline`, with what it leaves in the stream. -/
def getline (delimiter : Char) (stream : List Char) : Option (List Char × List Char) :=
  if stream.isEmpty then none
  else some (stream.takeWhile (· ≠ delimiter), (stream.dropWhile (· ≠ delimiter)).drop 1)

/-- The loop that calls `getline`, for at most `fuel` calls. -/
def readWhile (delimiter : Char) : ℕ → List Char → List (List Char)
  | 0, _ => []
  | fuel + 1, stream =>
    match getline delimiter stream with
    | none => []
    | some (token, stream) => token :: readWhile delimiter fuel stream

/-- Every call that succeeds takes a character out of the stream. -/
def pieces (delimiter : Char) (stream : List Char) : List (List Char) :=
  readWhile delimiter stream.length stream

def readLines (file : List Char) : List (List Char) :=
  (pieces '\n' file).filter fun curr => decide (curr.length > 0)

def split (s : List Char) (delimiter : Char) : List (List Char) := pieces delimiter s

variable {d : Char} {s t r : List Char}

theorem getline_lt (h : getline d s = some (t, r)) : r.length < s.length := by
  unfold getline at h
  split_ifs at h with hs
  obtain ⟨-, rfl⟩ := Prod.mk.inj (Option.some.inj h)
  have hpos : 0 < s.length := List.length_pos_of_ne_nil fun he => hs (by rw [he]; rfl)
  have hle : (s.dropWhile (· ≠ d)).length ≤ s.length := (List.dropWhile_sublist _).length_le
  rw [List.length_drop]
  omega

/-- The loop has ended after as many calls as there are characters. -/
theorem readWhile_enough {fuel : ℕ} (h : s.length ≤ fuel) : readWhile d fuel s = pieces d s := by
  have hall : ∀ fuel fuel' : ℕ, ∀ s : List Char, s.length ≤ fuel → s.length ≤ fuel' →
      readWhile d fuel s = readWhile d fuel' s := by
    intro fuel
    induction fuel with
    | zero =>
      intro fuel' s hs _
      obtain rfl := List.length_eq_zero_iff.mp (Nat.le_zero.mp hs)
      cases fuel' with
      | zero => rfl
      | succ fuel' => rfl
    | succ fuel ih =>
      intro fuel' s hs hs'
      cases fuel' with
      | zero =>
        obtain rfl := List.length_eq_zero_iff.mp (Nat.le_zero.mp hs')
        rfl
      | succ fuel' =>
        simp only [readWhile]
        cases hg : getline d s with
        | none => rfl
        | some r =>
          have hlt := getline_lt (t := r.1) (r := r.2) hg
          exact congrArg (r.1 :: ·) (ih fuel' r.2 (by omega) (by omega))
  exact hall fuel s.length s h (le_refl _)

@[simp] theorem pieces_nil (d : Char) : pieces d [] = [] := rfl

theorem pieces_of_getline (h : getline d s = some (t, r)) : pieces d s = t :: pieces d r := by
  have hlt := getline_lt h
  obtain ⟨n, hn⟩ := Nat.exists_eq_add_one_of_ne_zero (Nat.ne_of_gt (Nat.zero_lt_of_lt hlt))
  rw [pieces, hn, readWhile, h]
  exact congrArg (t :: ·) (readWhile_enough (by omega))

theorem takeWhile_of_not_mem (ht : d ∉ t) : ∀ a ∈ t, decide (a ≠ d) = true :=
  fun _ ha => decide_eq_true fun he => ht (he ▸ ha)

/-- A piece that ends with the delimiter. -/
theorem pieces_append (ht : d ∉ t) (r : List Char) : pieces d (t ++ d :: r) = t :: pieces d r := by
  refine pieces_of_getline ?_
  have hall := takeWhile_of_not_mem ht
  rw [getline, if_neg (by simp), List.takeWhile_append_of_pos hall, List.dropWhile_append_of_pos hall]
  simp

/-- The last piece, without a delimiter. -/
theorem pieces_last (ht : d ∉ t) (hne : t ≠ []) : pieces d t = [t] := by
  refine pieces_of_getline (r := []) ?_
  have hall := takeWhile_of_not_mem ht
  have htake : (t ++ []).takeWhile (· ≠ d) = t ++ [].takeWhile (· ≠ d) :=
    List.takeWhile_append_of_pos hall
  have hdrop : (t ++ []).dropWhile (· ≠ d) = [].dropWhile (· ≠ d) :=
    List.dropWhile_append_of_pos hall
  simp only [List.append_nil, List.takeWhile_nil, List.dropWhile_nil] at htake hdrop
  rw [getline, if_neg (by simpa using hne), htake, hdrop]
  rfl

end OperationSystems.Utils
