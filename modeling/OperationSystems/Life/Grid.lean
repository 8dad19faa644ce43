import Mathlib

/-!
# The cells of the board

A `bool_mat` is read at a line and a cell of it. The neighbours of a cell are
counted as the workers do, over the lines and cells next to it that exist, and
compared with the rule of the game, for which every cell outside the board is
dead. The source keeps lines, cells and counts in an `int` or a `uint`; on a
board of fewer than 2 ^ 31 lines and cells none of them leaves its range, and
natural numbers stand for both.
-/

namespace OperationSystems.Life

abbrev BoolMat := ℕ → ℕ → Bool

def BoolMat.set (m : BoolMat) (line cell : ℕ) (v : Bool) : BoolMat := fun i j =>
  if i = line ∧ j = cell then v else m i j

@[simp] theorem BoolMat.set_same (m : BoolMat) (line cell : ℕ) (v : Bool) :
    m.set line cell v line cell = v := by
  simp [BoolMat.set]

theorem BoolMat.set_of_ne {m : BoolMat} {line cell i j : ℕ} {v : Bool} (h : ¬ (i = line ∧ j = cell)) :
    m.set line cell v i j = m i j := if_neg h

/-- The values of a loop variable that runs from one place before `x` to one behind it, inside `0 .. n - 1`. -/
def span (x n : ℕ) : List ℕ :=
  let lowest := if x ≠ 0 then x - 1 else x
  let highest := if x = n - 1 then x else x + 1
  List.range' lowest (highest + 1 - lowest)

def calculateLiveNeighbours (currentCellLine currentCellNum inputWidth inputHeight : ℕ)
    (currMatrix : BoolMat) : ℕ :=
  (span currentCellLine inputHeight).foldl (fun numOfLiveNeighbours i =>
    (span currentCellNum inputWidth).foldl (fun numOfLiveNeighbours j =>
      if i = currentCellLine ∧ j = currentCellNum then numOfLiveNeighbours
      else if currMatrix i j = true then numOfLiveNeighbours + 1
      else numOfLiveNeighbours) numOfLiveNeighbours) 0

/-- The value the workers write for one cell. -/
def nextCell (line cell inputWidth inputHeight : ℕ) (currMatrix : BoolMat) : Bool :=
  let numOfLiveNeighbours := calculateLiveNeighbours line cell inputWidth inputHeight currMatrix
  if currMatrix line cell = true then
    decide (numOfLiveNeighbours = 2) || decide (numOfLiveNeighbours = 3)
  else decide (numOfLiveNeighbours = 3)

/-- A cell of the unbounded plane, dead outside the board. -/
def Alive (h w : ℕ) (m : BoolMat) (i j : ℤ) : Prop :=
  (0 ≤ i ∧ i < h) ∧ (0 ≤ j ∧ j < w) ∧ m i.toNat j.toNat = true

instance (h w : ℕ) (m : BoolMat) (i j : ℤ) : Decidable (Alive h w m i j) :=
  inferInstanceAs (Decidable ((0 ≤ i ∧ i < h) ∧ (0 ≤ j ∧ j < w) ∧ m i.toNat j.toNat = true))

def directions : List (ℤ × ℤ) :=
  [(-1, -1), (-1, 0), (-1, 1), (0, -1), (0, 1), (1, -1), (1, 0), (1, 1)]

def liveNeighbours (h w : ℕ) (m : BoolMat) (i j : ℤ) : ℕ :=
  directions.countP fun d => decide (Alive h w m (i + d.1) (j + d.2))

/-- A cell is born with three live neighbours and survives with two or three. -/
def successor (h w : ℕ) (m : BoolMat) : BoolMat := fun i j =>
  decide (liveNeighbours h w m i j = 3) || m i j && decide (liveNeighbours h w m i j = 2)

/-- The board after `g` generations. -/
def generation (h w : ℕ) (board : BoolMat) : ℕ → BoolMat
  | 0 => board
  | g + 1 => successor h w (generation h w board g)

theorem span_eq {x n : ℕ} (hx : x < n) :
    span x n = (if 0 < x then [x - 1] else []) ++ [x] ++ (if x + 1 < n then [x + 1] else []) := by
  unfold span
  cases x with
  | zero =>
    by_cases h : n = 1
    · simp [h]
    · have h1 : ¬ (0 = n - 1) := by omega
      have h2 : 0 + 1 < n := by omega
      simp [h1, h2, List.range']
  | succ x =>
    by_cases h : x + 2 < n
    · have h1 : ¬ (x + 1 = n - 1) := by omega
      have h2 : x + 1 + 1 + 1 - x = 3 := by omega
      simp [h1, h2, h, List.range']
    · obtain rfl : n = x + 2 := by omega
      have h2 : x + 1 + 1 - x = 2 := by omega
      simp [h2, List.range']

theorem foldl_span {x n : ℕ} (hx : x < n) (f : ℕ → ℕ) (a : ℕ) :
    (span x n).foldl (fun acc k => acc + f k) a =
      a + ((if 0 < x then f (x - 1) else 0) + f x + (if x + 1 < n then f (x + 1) else 0)) := by
  rw [span_eq hx]
  split_ifs <;> simp [Nat.add_assoc]

/-- One line of the count: the cell itself is passed over on its own line. -/
theorem foldl_line {line cell w i : ℕ} (hc : cell < w) (m : BoolMat) (a : ℕ) :
    (span cell w).foldl (fun acc j =>
      if i = line ∧ j = cell then acc else if m i j = true then acc + 1 else acc) a =
      a + ((if 0 < cell ∧ m i (cell - 1) = true then 1 else 0) +
        (if i ≠ line ∧ m i cell = true then 1 else 0) +
        (if cell + 1 < w ∧ m i (cell + 1) = true then 1 else 0)) := by
  have hf : (fun acc j => if i = line ∧ j = cell then acc else if m i j = true then acc + 1 else acc) =
      fun acc j => acc + if i = line ∧ j = cell then 0 else if m i j = true then 1 else 0 := by
    funext acc j
    split_ifs <;> rfl
  have h1 : 0 < cell → ¬ (i = line ∧ cell - 1 = cell) := by omega
  have h2 : ¬ (i = line ∧ cell + 1 = cell) := by omega
  rw [hf, foldl_span hc, if_neg h2]
  congr 2
  · congr 1
    · by_cases h0 : 0 < cell
      · rw [if_pos h0, if_neg (h1 h0)]
        simp [h0]
      · simp [h0]
    · by_cases hi : i = line <;> simp [hi]
  · by_cases h3 : cell + 1 < w <;> simp [h3]

theorem alive_iff {h w i j : ℕ} {m : BoolMat} {di dj : ℤ} :
    Alive h w m (i + di) (j + dj) ↔ (0 ≤ i + di ∧ i + di < h) ∧ (0 ≤ j + dj ∧ j + dj < w) ∧
      m (i + di).toNat (j + dj).toNat = true := Iff.rfl

/-- The loops of the workers count the live neighbours of the rule. -/
theorem calculateLiveNeighbours_eq {line cell h w : ℕ} (hl : line < h) (hc : cell < w) (m : BoolMat) :
    calculateLiveNeighbours line cell w h m = liveNeighbours h w m line cell := by
  have hbody : (fun acc i => (span cell w).foldl (fun acc j =>
      if i = line ∧ j = cell then acc else if m i j = true then acc + 1 else acc) acc) =
      fun acc i => acc + ((if 0 < cell ∧ m i (cell - 1) = true then 1 else 0) +
        (if i ≠ line ∧ m i cell = true then 1 else 0) +
        (if cell + 1 < w ∧ m i (cell + 1) = true then 1 else 0)) := by
    funext acc i
    exact foldl_line hc m acc
  have hup : (0 ≤ (line : ℤ) + -1 ∧ (line : ℤ) + -1 < h) ↔ 0 < line := by omega
  have hleft : (0 ≤ (cell : ℤ) + -1 ∧ (cell : ℤ) + -1 < w) ↔ 0 < cell := by omega
  have hdown : (0 ≤ (line : ℤ) + 1 ∧ (line : ℤ) + 1 < h) ↔ line + 1 < h := by omega
  have hright : (0 ≤ (cell : ℤ) + 1 ∧ (cell : ℤ) + 1 < w) ↔ cell + 1 < w := by omega
  have hline : (0 ≤ (line : ℤ) + 0 ∧ (line : ℤ) + 0 < h) ↔ True := iff_true_intro (by omega)
  have hcell : (0 ≤ (cell : ℤ) + 0 ∧ (cell : ℤ) + 0 < w) ↔ True := iff_true_intro (by omega)
  have hpred : ∀ x : ℕ, ((x : ℤ) + -1).toNat = x - 1 := by omega
  have hsame : ∀ x : ℕ, ((x : ℤ) + 0).toNat = x := by omega
  have hsucc : ∀ x : ℕ, ((x : ℤ) + 1).toNat = x + 1 := by omega
  unfold calculateLiveNeighbours liveNeighbours
  rw [hbody, foldl_span hl]
  simp only [directions, List.countP_cons, List.countP_nil, decide_eq_true_eq, alive_iff, hup, hleft,
    hdown, hright, hline, hcell, hpred, hsame, hsucc, true_and]
  have hup' : 0 < line → line - 1 ≠ line := by omega
  by_cases h0 : 0 < line <;> by_cases h1 : line + 1 < h
  · simp [h0, h1, hup' h0]
    omega
  · simp [h0, h1, hup' h0]
    omega
  · simp [h0, h1]
    omega
  · simp [h0, h1, Nat.add_comm]

/-- What the workers write for a cell of the board is its successor. -/
theorem nextCell_eq {line cell h w : ℕ} (hl : line < h) (hc : cell < w) (m : BoolMat) :
    nextCell line cell w h m = successor h w m line cell := by
  unfold nextCell successor
  rw [calculateLiveNeighbours_eq hl hc]
  by_cases hm : m line cell = true
  · simp [hm, Bool.or_comm]
  · simp [hm]

theorem alive_congr {h w : ℕ} {m m' : BoolMat} (hm : ∀ i < h, ∀ j < w, m i j = m' i j) (i j : ℤ) :
    Alive h w m i j ↔ Alive h w m' i j := by
  unfold Alive
  constructor
  · rintro ⟨hi, hj, hv⟩
    exact ⟨hi, hj, hm i.toNat (by omega) j.toNat (by omega) ▸ hv⟩
  · rintro ⟨hi, hj, hv⟩
    exact ⟨hi, hj, (hm i.toNat (by omega) j.toNat (by omega)).symm ▸ hv⟩

/-- The rule reads the cells of the board only. -/
theorem successor_congr {h w : ℕ} {m m' : BoolMat} (hm : ∀ i < h, ∀ j < w, m i j = m' i j) {i j : ℕ}
    (hi : i < h) (hj : j < w) : successor h w m i j = successor h w m' i j := by
  unfold successor liveNeighbours
  rw [hm i hi j hj]
  simp only [alive_congr hm]

end OperationSystems.Life
