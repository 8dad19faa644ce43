import OperationSystems.Life.Neighbours
import OperationSystems.Life.Partition
import OperationSystems.Utils.Lines

/-!
# Loading the board

`_init_game` counts the lines of its file and the tokens of the last one, and
makes the rows from the tokens `0` and `1` of each line. Nothing is checked, so
a row has as many cells as the last line has tokens only if the file says so: a
carriage return at the end of a line costs a cell. Sizes are `uint`.
-/

namespace OperationSystems.Life
open Utils

def vstringToVbool (arg : List (List Char)) : List Bool :=
  arg.filterMap fun it =>
    if it = ['0'] then some false else if it = ['1'] then some true else none

/-- The conversion to `uint`. -/
def uint (n : ℕ) : ℕ := n % 2 ^ 32

/-- The tokens of the last line that was read, and the rows so far. -/
structure Rows where
  arguments : List (List Char)
  currMatrix : List (List Bool)
  nextMatrix : List (List Bool)

def Rows.push (rows : Rows) (line : List Char) : Rows :=
  let arguments := split line ' '
  { arguments := arguments
    currMatrix := rows.currMatrix ++ [vstringToVbool arguments]
    nextMatrix := rows.nextMatrix ++ [vstringToVbool arguments] }

/-- What `_init_game` sets before it starts the threads. -/
structure Loaded where
  inputHeight : ℕ
  inputWidth : ℕ
  mThreadNum : ℕ
  currMatrix : List (List Bool)
  nextMatrix : List (List Bool)
deriving DecidableEq

def initGame (file : List Char) (mThreadNum : ℕ) : Loaded :=
  let lines := readLines file
  let inputHeight := uint lines.length
  let rows := (lines.take inputHeight).foldl Rows.push ⟨[], [], []⟩
  { inputHeight := inputHeight
    inputWidth := uint rows.arguments.length
    mThreadNum := if inputHeight ≤ mThreadNum then inputHeight else mThreadNum
    currMatrix := rows.currMatrix
    nextMatrix := rows.nextMatrix }

/-- The division of `_step` is defined and the cells that the game uses exist. -/
structure Loaded.Playable (b : Loaded) : Prop where
  height : 1 ≤ b.inputHeight
  threads : 1 ≤ b.mThreadNum ∧ b.mThreadNum ≤ b.inputHeight
  curr : Rectangular b.inputHeight b.inputWidth b.currMatrix
  next : Rectangular b.inputHeight b.inputWidth b.nextMatrix

/-- The lines that become rows: all of them, unless they are too many to be counted. -/
def boardLines (file : List Char) : List (List Char) :=
  (readLines file).take (uint (readLines file).length)

/-- The number of tokens of a line that stand for a cell. -/
def cellTokens (line : List Char) : ℕ :=
  (split line ' ').countP fun token => decide (token = ['0'] ∨ token = ['1'])

/-- There is a last line, and every line has as many cells as the last one has tokens. -/
def Regular (file : List Char) : Prop :=
  ∃ last, (boardLines file).getLast? = some last ∧
    ∀ line ∈ boardLines file, cellTokens line = uint (split last ' ').length

variable {file line : List Char} {lines : List (List Char)} {n : ℕ}

theorem vstringToVbool_length (line : List Char) :
    (vstringToVbool (split line ' ')).length = cellTokens line := by
  rw [vstringToVbool, List.length_filterMap_eq_countP, cellTokens]
  refine List.countP_congr fun token _ => ?_
  split_ifs with h0 h1
  · simp [h0]
  · simp [h1]
  · simp [h0, h1]

/-- Both matrices get a row for each line, and the tokens are those of the last one. -/
theorem foldl_push (lines : List (List Char)) (rows : Rows) :
    lines.foldl Rows.push rows =
      { arguments := (lines.getLast?.map fun line => split line ' ').getD rows.arguments
        currMatrix := rows.currMatrix ++ lines.map fun line => vstringToVbool (split line ' ')
        nextMatrix := rows.nextMatrix ++ lines.map fun line => vstringToVbool (split line ' ') } := by
  induction lines generalizing rows with
  | nil => simp
  | cons line lines ih =>
    rw [List.foldl_cons, ih, List.getLast?_cons]
    simp only [Rows.push, List.append_assoc, List.map_cons, Rows.mk.injEq]
    refine ⟨?_, rfl, rfl⟩
    cases lines.getLast? <;> rfl

theorem boardLines_length (file : List Char) : (boardLines file).length = uint (readLines file).length := by
  rw [boardLines, List.length_take]
  exact Nat.min_eq_left (Nat.mod_le _ _)

theorem initGame_eq (file : List Char) (n : ℕ) : initGame file n =
    { inputHeight := (boardLines file).length
      inputWidth := uint (((boardLines file).getLast?.map fun line => split line ' ').getD []).length
      mThreadNum := if (boardLines file).length ≤ n then (boardLines file).length else n
      currMatrix := (boardLines file).map fun line => vstringToVbool (split line ' ')
      nextMatrix := (boardLines file).map fun line => vstringToVbool (split line ' ') } := by
  simp only [initGame, foldl_push, boardLines_length, List.nil_append]
  rfl

/-- The rows of the lines all have `w` cells if the lines have as many tokens for a cell. -/
theorem rectangular_iff {w : ℕ} :
    Rectangular lines.length w (lines.map fun line => vstringToVbool (split line ' ')) ↔
      ∀ line ∈ lines, cellTokens line = w := by
  constructor
  · intro h line hline
    rw [← vstringToVbool_length]
    exact h.width _ (List.mem_map_of_mem hline)
  · intro h
    refine ⟨List.length_map _, fun row hrow => ?_⟩
    obtain ⟨line, hline, rfl⟩ := List.mem_map.mp hrow
    rw [vstringToVbool_length, h line hline]

/-- What the game relies on holds after loading exactly for the files whose lines agree. -/
theorem initGame_playable_iff (hn : 1 ≤ n) : (initGame file n).Playable ↔ Regular file := by
  rw [initGame_eq]
  constructor
  · intro h
    have hne : boardLines file ≠ [] := List.length_pos_iff.mp h.height
    refine ⟨(boardLines file).getLast hne, List.getLast?_eq_some_getLast hne, fun line hline => ?_⟩
    have hrect := rectangular_iff.mp h.curr line hline
    rwa [List.getLast?_eq_some_getLast hne] at hrect
  · rintro ⟨last, hlast, hlines⟩
    have hpos : 1 ≤ (boardLines file).length := List.length_pos_of_mem (List.mem_of_getLast? hlast)
    have hrect := rectangular_iff.mpr hlines
    refine ⟨hpos, ?_, ?_, ?_⟩
    · dsimp only
      split_ifs <;> omega
    · rw [hlast]
      exact hrect
    · rw [hlast]
      exact hrect

theorem initGame_playable_iff_sample : (initGame "0 1\n\n1 1".toList 3).Playable :=
  (initGame_playable_iff (by decide)).mpr
    ⟨['1', ' ', '1'], by decide +kernel, by decide +kernel⟩

/-- With carriage returns the last cell of each line is lost, and an empty file leaves no thread. -/
theorem initGame_unplayable :
    initGame "0 1\r\n1 0\r\n".toList 2 = ⟨2, 2, 2, [[false], [true]], [[false], [true]]⟩ ∧
      ¬ (initGame "0 1\r\n1 0\r\n".toList 2).Playable ∧
      initGame [] 2 = ⟨0, 0, 0, [], []⟩ ∧ ¬ (initGame [] 2).Playable := by
  have hcr : initGame "0 1\r\n1 0\r\n".toList 2 = ⟨2, 2, 2, [[false], [true]], [[false], [true]]⟩ := by
    decide +kernel
  have hempty : initGame [] 2 = ⟨0, 0, 0, [], []⟩ := by decide +kernel
  refine ⟨hcr, fun h => ?_, hempty, fun h => ?_⟩
  · rw [hcr] at h
    exact absurd (h.curr.width [false] (by simp)) (by decide)
  · rw [hempty] at h
    exact absurd h.height (by decide)

/-- The parameters of the game that is played on the board. -/
def Loaded.params (b : Loaded) (nGen nThread : ℕ) : GameParams where
  nGen := nGen
  nThread := nThread
  inputHeight := b.inputHeight
  inputWidth := b.inputWidth

namespace Loaded.Playable

/-- The threads of the game have their lines. -/
theorem valid (h : (initGame file n).Playable) (hn : 1 ≤ n) (nGen : ℕ) :
    ((initGame file n).params nGen n).Valid ∧
      (initGame file n).mThreadNum = ((initGame file n).params nGen n).threadNum :=
  ⟨⟨h.height, hn⟩, rfl⟩

/-- The neighbours of every cell can be counted. -/
theorem counts {b : Loaded} (h : b.Playable) {line cell : ℕ} (hl : line < b.inputHeight)
    (hc : cell < b.inputWidth) :
    ∃ k, LifeThread.calculateLiveNeighbours line cell b.inputWidth b.inputHeight b.currMatrix = some k :=
  ⟨_, calculateLiveNeighbours_runs h.curr hl hc⟩

end Loaded.Playable

def cellText (live : Bool) : Char := if live = true then '1' else '0'

/-- A row with blanks between its cells. -/
def rowText (row : List Bool) : List Char := (row.map cellText).intersperse ' '

def boardText (m : List (List Bool)) : List Char := m.flatMap fun row => rowText row ++ ['\n']

theorem cellText_ne (live : Bool) : cellText live ≠ ' ' ∧ cellText live ≠ '\n' := by
  cases live <;> decide

theorem vstringToVbool_cells (row : List Bool) :
    vstringToVbool (row.map fun live => [cellText live]) = row := by
  induction row with
  | nil => rfl
  | cons live row ih =>
    rw [List.map_cons, vstringToVbool, List.filterMap_cons]
    cases live
    · exact congrArg (false :: ·) ih
    · exact congrArg (true :: ·) ih

theorem split_rowText (row : List Bool) :
    split (rowText row) ' ' = row.map fun live => [cellText live] := by
  induction row with
  | nil => rfl
  | cons live row ih =>
    have hnot : ' ' ∉ [cellText live] := by simpa using (cellText_ne live).1.symm
    cases row with
    | nil => exact pieces_last hnot (List.cons_ne_nil _ _)
    | cons live' row =>
      have hcons : rowText (live :: live' :: row) = [cellText live] ++ ' ' :: rowText (live' :: row) := rfl
      rw [split, hcons, pieces_append hnot]
      exact congrArg ([cellText live] :: ·) ih

theorem rowText_line (row : List Bool) : '\n' ∉ rowText row := by
  induction row with
  | nil => simp [rowText]
  | cons live row ih =>
    have hne := (cellText_ne live).2.symm
    cases row with
    | nil => simpa [rowText] using hne
    | cons live' row =>
      have hcons : rowText (live :: live' :: row) = cellText live :: ' ' :: rowText (live' :: row) := rfl
      rw [hcons, List.mem_cons, List.mem_cons]
      rintro (h | h | h)
      · exact hne h
      · simp at h
      · exact ih h

theorem pieces_boardText (m : List (List Bool)) : pieces '\n' (boardText m) = m.map rowText := by
  induction m with
  | nil => rfl
  | cons row m ih =>
    have hcons : boardText (row :: m) = rowText row ++ '\n' :: boardText m := by
      simp [boardText]
    rw [hcons, pieces_append (rowText_line row), ih, List.map_cons]

/-- A board that was written is loaded as it was. -/
theorem initGame_boardText {h w : ℕ} {m : List (List Bool)} (hm : Rectangular h w m)
    (hh : 1 ≤ h ∧ h < 2 ^ 32) (hw : 1 ≤ w ∧ w < 2 ^ 32) (n : ℕ) :
    initGame (boardText m) n = ⟨h, w, if h ≤ n then h else n, m, m⟩ := by
  have hlines : readLines (boardText m) = m.map rowText := by
    rw [readLines, pieces_boardText, List.filter_eq_self]
    intro text htext
    obtain ⟨row, hrow, rfl⟩ := List.mem_map.mp htext
    have hlen := hm.width row hrow
    simp only [rowText, List.length_intersperse, List.length_map, decide_eq_true_eq]
    omega
  have hboard : boardLines (boardText m) = m.map rowText := by
    rw [boardLines, hlines, List.take_of_length_le]
    rw [uint, List.length_map, hm.height, Nat.mod_eq_of_lt hh.2]
  have hrows : (m.map rowText).map (fun line => vstringToVbool (split line ' ')) = m := by
    rw [List.map_map]
    refine (List.map_congr_left fun row _ => ?_).trans (List.map_id m)
    exact (congrArg vstringToVbool (split_rowText row)).trans (vstringToVbool_cells row)
  have hne : m ≠ [] := List.length_pos_iff.mp (by rw [hm.height]; exact hh.1)
  have hlast : uint (((m.map rowText).getLast?.map fun line => split line ' ').getD []).length = w := by
    rw [List.getLast?_map, List.getLast?_eq_some_getLast hne, Option.map_some, Option.map_some,
      Option.getD_some, split_rowText, List.length_map, hm.width _ (List.getLast_mem hne), uint,
      Nat.mod_eq_of_lt hw.2]
  rw [initGame_eq, hboard, hrows, hlast, List.length_map, hm.height]

end OperationSystems.Life
