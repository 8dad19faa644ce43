import OperationSystems.Life.Grid

/-!
# The bounds of the neighbour count

`calculate_live_neighbours` on the rows of a `bool_mat`, where a bound that was
not set cannot be used and a cell that does not exist cannot be read. On a
board of any size at least one by one neither happens, and the count is that of
the live cells at Chebyshev distance 1. The bounds and the loop variables stay
between 0 and the size of the board, so they fit an `int` where that does.
-/

namespace OperationSystems.Life

/-- A board of `h` rows with `w` cells each. -/
structure Rectangular (h w : ℕ) (m : List (List Bool)) : Prop where
  height : m.length = h
  width : ∀ row ∈ m, row.length = w

/-- The read of `m[i][j]`, which fails outside of the board. -/
def cellAt (m : List (List Bool)) (i j : ℤ) : Option Bool :=
  if 0 ≤ i ∧ 0 ≤ j then m[i.toNat]?.bind fun row => row[j.toNat]? else none

/-- The values of a loop variable that goes from `low` to `high`. -/
def loopRange (low high : ℤ) : List ℤ :=
  (List.range (high + 1 - low).toNat).map fun k : ℕ => low + k

namespace LifeThread

/-- `Life_Thread::calculate_live_neighbours`. The result is `none` if it uses a bound that was not
set or reads a cell that does not exist. -/
def calculateLiveNeighbours (currentCellLine currentCellNum inputWidth inputHeight : ℤ)
    (currMatrix : List (List Bool)) : Option ℤ :=
  let highestLine := if currentCellLine ≠ 0 then currentCellLine - 1 else currentCellLine
  let lowestLine := if currentCellLine = inputHeight - 1 then currentCellLine else currentCellLine + 1
  let leftestNeighbour := if currentCellNum = 0 then 0 else currentCellNum - 1
  let rightestNeighbour :=
    if currentCellNum = 0 then if inputWidth ≠ 1 then some (currentCellNum + 1) else none
    else some (currentCellNum + 1)
  let rightestNeighbour :=
    if currentCellNum = inputWidth - 1 then some currentCellNum else rightestNeighbour
  rightestNeighbour.bind fun rightestNeighbour =>
  (loopRange highestLine lowestLine).foldlM (fun numOfLiveNeighbours i =>
    (loopRange leftestNeighbour rightestNeighbour).foldlM (fun numOfLiveNeighbours j =>
      if i = currentCellLine ∧ j = currentCellNum then some numOfLiveNeighbours
      else (cellAt currMatrix i j).map fun live =>
        if live = true then numOfLiveNeighbours + 1 else numOfLiveNeighbours)
      numOfLiveNeighbours) 0

end LifeThread

/-- The cells of the rows, read by line and cell. -/
def matrixOf (m : List (List Bool)) : BoolMat := fun i j => (cellAt m i j).getD false

variable {h w line cell : ℕ} {m : List (List Bool)}

theorem Rectangular.cellAt (hm : Rectangular h w m) {i j : ℕ} (hi : i < h) (hj : j < w) :
    cellAt m i j = some (matrixOf m i j) := by
  have hi' : i < m.length := hm.height.symm ▸ hi
  have hj' : j < m[i].length := (hm.width _ (List.getElem_mem hi')).symm ▸ hj
  have hcell : Life.cellAt m i j = some m[i][j] := by
    rw [Life.cellAt, if_pos ⟨Int.natCast_nonneg i, Int.natCast_nonneg j⟩]
    simp [hi', hj']
  rw [matrixOf, hcell]
  rfl

/-- A loop over numbers in which every turn succeeds. -/
theorem foldlM_natCast {f : ℤ → ℤ → Option ℤ} {g : ℕ → ℕ → ℕ} {l : List ℕ}
    (hf : ∀ k ∈ l, ∀ n : ℕ, f n k = some (g n k : ℕ)) (n : ℕ) :
    (l.map fun k : ℕ => (k : ℤ)).foldlM f n = some (l.foldl g n : ℕ) := by
  induction l generalizing n with
  | nil => rfl
  | cons k l ih =>
    rw [List.map_cons, List.foldlM_cons, hf k List.mem_cons_self, List.foldl_cons]
    exact ih (fun k hk => hf k (List.mem_cons_of_mem _ hk)) _

theorem loopRange_natCast (a b : ℕ) :
    loopRange a b = (List.range' a (b + 1 - a)).map fun k : ℕ => (k : ℤ) := by
  have hlen : ((b : ℤ) + 1 - a).toNat = b + 1 - a := by omega
  rw [loopRange, hlen, List.range'_eq_map_range, List.map_map]
  rfl

/-- The bounds of the loops around a place `x` of `0 .. n - 1`. -/
theorem loopRange_eq_span {x n : ℕ} (hx : x < n) {low high : ℤ}
    (hlow : low = if (x : ℤ) ≠ 0 then (x : ℤ) - 1 else x)
    (hhigh : high = if (x : ℤ) = (n : ℤ) - 1 then (x : ℤ) else x + 1) :
    loopRange low high = (span x n).map fun k : ℕ => (k : ℤ) := by
  have hl : low = (if x ≠ 0 then x - 1 else x : ℕ) := by
    rw [hlow]
    split_ifs <;> omega
  have hh : high = (if x = n - 1 then x else x + 1 : ℕ) := by
    rw [hhigh]
    split_ifs <;> omega
  rw [hl, hh, loopRange_natCast]
  rfl

theorem mem_span {x n k : ℕ} (hx : x < n) (hk : k ∈ span x n) : k < n := by
  rw [span_eq hx] at hk
  simp only [List.mem_append, List.mem_singleton] at hk
  rcases hk with (hk | rfl) | hk
  · split_ifs at hk
    · obtain rfl := List.mem_singleton.mp hk
      omega
    · simp at hk
  · exact hx
  · split_ifs at hk
    · rwa [List.mem_singleton.mp hk]
    · simp at hk

/-- The bounds are set and the cells exist, and the loops count as those over the lines and
cells next to the cell. -/
theorem calculateLiveNeighbours_runs (hm : Rectangular h w m) (hl : line < h) (hc : cell < w) :
    LifeThread.calculateLiveNeighbours line cell w h m =
      some (calculateLiveNeighbours line cell w h (matrixOf m) : ℕ) := by
  have hlines := loopRange_eq_span hl rfl rfl
  have hright : (if (cell : ℤ) = w - 1 then some (cell : ℤ)
      else if (cell : ℤ) = 0 then if (w : ℤ) ≠ 1 then some ((cell : ℤ) + 1) else none
      else some ((cell : ℤ) + 1)) = some (if (cell : ℤ) = w - 1 then (cell : ℤ) else cell + 1) := by
    split_ifs
    · rfl
    · rfl
    · omega
    · rfl
  have hleft : (if (cell : ℤ) = 0 then (0 : ℤ) else cell - 1) =
      if (cell : ℤ) ≠ 0 then (cell : ℤ) - 1 else cell := by
    split_ifs <;> omega
  have hcells := loopRange_eq_span hc rfl rfl
  unfold LifeThread.calculateLiveNeighbours
  dsimp only
  rw [hright, Option.bind_some, hlines, hleft, hcells]
  refine foldlM_natCast (n := 0) (fun i hi n => foldlM_natCast (fun j hj n => ?_) n)
  rw [hm.cellAt (mem_span hl hi) (mem_span hc hj), Option.map_some]
  split_ifs <;> first | rfl | omega

/-- The cells of the board at distance 1 from a cell, where a diagonal step counts as one. -/
def neighbours (h w line cell : ℕ) : Finset (ℕ × ℕ) :=
  (Finset.range h ×ˢ Finset.range w).filter fun q =>
    max |(q.1 : ℤ) - line| |(q.2 : ℤ) - cell| = 1

theorem mem_directions {d : ℤ × ℤ} : d ∈ directions ↔ max |d.1| |d.2| = 1 := by
  obtain ⟨a, b⟩ := d
  constructor
  · intro h
    have hall : ∀ d ∈ directions, max |d.1| |d.2| = 1 := by decide
    exact hall _ h
  · intro h
    have ha := abs_le.mp (h ▸ le_max_left |a| |b|)
    have hb := abs_le.mp (h ▸ le_max_right |a| |b|)
    obtain ⟨ha₁, ha₂⟩ := ha
    obtain ⟨hb₁, hb₂⟩ := hb
    interval_cases a <;> interval_cases b <;> simp [directions] at h ⊢

/-- The directions lead to the neighbours that are cells of the board. -/
theorem liveNeighbours_eq_card (h w : ℕ) (m : BoolMat) (line cell : ℕ) :
    liveNeighbours h w m line cell =
      ((neighbours h w line cell).filter fun q => m q.1 q.2 = true).card := by
  have hnodup : directions.Nodup := by decide
  rw [liveNeighbours, List.countP_eq_length_filter,
    ← List.toFinset_card_of_nodup (hnodup.filter _)]
  refine Finset.card_nbij' (fun d => ((line + d.1).toNat, (cell + d.2).toNat))
    (fun q => ((q.1 : ℤ) - line, (q.2 : ℤ) - cell)) (fun d hd => ?_) (fun q hq => ?_)
    (fun d hd => ?_) (fun q hq => ?_)
  · simp only [List.coe_toFinset, Set.mem_ofPred_eq, List.mem_filter, decide_eq_true_eq] at hd
    obtain ⟨hd, ⟨h0, hh⟩, ⟨w0, hw⟩, hlive⟩ := hd
    have hdist := mem_directions.mp hd
    simp only [neighbours, Finset.coe_filter, Finset.mem_filter, Finset.mem_product, Finset.mem_range,
      Set.mem_ofPred_eq]
    refine ⟨⟨⟨by omega, by omega⟩, ?_⟩, hlive⟩
    rw [Int.toNat_of_nonneg h0, Int.toNat_of_nonneg w0, add_sub_cancel_left, add_sub_cancel_left]
    exact hdist
  · simp only [neighbours, Finset.coe_filter, Finset.mem_filter, Finset.mem_product, Finset.mem_range,
      Set.mem_ofPred_eq] at hq
    obtain ⟨⟨⟨hh, hw⟩, hdist⟩, hlive⟩ := hq
    simp only [List.coe_toFinset, Set.mem_ofPred_eq, List.mem_filter, decide_eq_true_eq]
    refine ⟨mem_directions.mpr hdist, ⟨by omega, by omega⟩, ⟨by omega, by omega⟩, ?_⟩
    simpa using hlive
  · simp only [List.coe_toFinset, Set.mem_ofPred_eq, List.mem_filter, decide_eq_true_eq] at hd
    obtain ⟨-, ⟨h0, -⟩, ⟨w0, -⟩, -⟩ := hd
    dsimp only
    rw [Int.toNat_of_nonneg h0, Int.toNat_of_nonneg w0, add_sub_cancel_left, add_sub_cancel_left]
  · simp

/-- The count uses bounds that are set and cells that exist, and it is that of the live neighbours. -/
theorem calculateLiveNeighbours_exact (hm : Rectangular h w m) (hl : line < h) (hc : cell < w) :
    LifeThread.calculateLiveNeighbours line cell w h m =
      some (((neighbours h w line cell).filter fun q => cellAt m q.1 q.2 = some true).card : ℕ) := by
  rw [calculateLiveNeighbours_runs hm hl hc, calculateLiveNeighbours_eq hl hc, liveNeighbours_eq_card]
  congr 3
  refine Finset.filter_congr fun q hq => ?_
  simp only [neighbours, Finset.mem_filter, Finset.mem_product, Finset.mem_range] at hq
  rw [hm.cellAt hq.1.1 hq.1.2, Option.some.injEq]

/-- On a board of one column the right bound is set by the last test alone. -/
theorem calculateLiveNeighbours_exact_column :
    LifeThread.calculateLiveNeighbours 1 0 1 3 [[true], [true], [true]] = some 2 := by
  have hm : Rectangular 3 1 [[true], [true], [true]] := ⟨rfl, by simp⟩
  have hcount := calculateLiveNeighbours_exact hm (by decide : 1 < 3) (by decide : 0 < 1)
  rw [show ((neighbours 3 1 1 0).filter fun q =>
    cellAt [[true], [true], [true]] q.1 q.2 = some true).card = 2 by decide +kernel] at hcount
  exact hcount

end OperationSystems.Life
