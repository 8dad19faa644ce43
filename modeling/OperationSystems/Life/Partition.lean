import OperationSystems.Life.Model

/-!
# The lines of the jobs

The first jobs of a generation get the quotient of lines each and the last one
gets the rest. Every line of the board is in exactly one of them.
-/

namespace OperationSystems.Life

/-- What the game is started with: a board of at least one line, at least one thread. -/
structure GameParams.Valid (p : GameParams) : Prop where
  height : 1 ≤ p.inputHeight
  thread : 1 ≤ p.nThread

namespace GameParams

variable {p : GameParams}

/-- The lines of job `k` of a generation. -/
def startingLine (p : GameParams) (k : ℕ) : ℕ := k * p.divider

def endingLine (p : GameParams) (k : ℕ) : ℕ :=
  if k + 1 = p.threadNum then p.inputHeight - 1 else k * p.divider + p.divider - 1

def HasLine (p : GameParams) (k line : ℕ) : Prop := p.startingLine k ≤ line ∧ line ≤ p.endingLine k

theorem Valid.threadNum_pos (hp : p.Valid) : 0 < p.threadNum := by
  have h1 := hp.height
  have h2 := hp.thread
  unfold threadNum
  split_ifs <;> omega

theorem threadNum_le (p : GameParams) : p.threadNum ≤ p.inputHeight := by
  unfold threadNum
  split_ifs <;> omega

theorem Valid.divider_eq (hp : p.Valid) : p.divider = p.inputHeight / p.threadNum := by
  have h : 0 < p.inputHeight / p.threadNum := Nat.div_pos p.threadNum_le hp.threadNum_pos
  unfold divider
  rw [if_neg (Nat.ne_of_gt h)]

theorem Valid.divider_pos (hp : p.Valid) : 0 < p.divider := by
  rw [hp.divider_eq]
  exact Nat.div_pos p.threadNum_le hp.threadNum_pos

theorem Valid.mul_divider_le (hp : p.Valid) : p.threadNum * p.divider ≤ p.inputHeight := by
  rw [hp.divider_eq]
  exact Nat.mul_div_le _ _

/-- The lines of a job end where those of the next begin. -/
theorem Valid.endingLine_lt (hp : p.Valid) {k : ℕ} (hk : k + 1 < p.threadNum) :
    p.endingLine k + 1 = p.startingLine (k + 1) := by
  have hd := hp.divider_pos
  unfold endingLine startingLine
  rw [if_neg (Nat.ne_of_lt hk), Nat.succ_mul]
  omega

theorem startingLine_mono {k l : ℕ} (h : k ≤ l) : p.startingLine k ≤ p.startingLine l :=
  Nat.mul_le_mul_right _ h

theorem Valid.line_lt (hp : p.Valid) {k line : ℕ} (hk : k < p.threadNum) (h : p.HasLine k line) :
    line < p.inputHeight := by
  have hh := hp.height
  have hle := h.2
  unfold endingLine at hle
  split_ifs at hle with hlast
  · omega
  · have hmul : (k + 1) * p.divider ≤ p.inputHeight :=
      Nat.le_trans (Nat.mul_le_mul_right _ hk) hp.mul_divider_le
    rw [Nat.succ_mul] at hmul
    have hd := hp.divider_pos
    omega

/-- No line belongs to two jobs. -/
theorem Valid.hasLine_unique (hp : p.Valid) {k l line : ℕ} (hk : k < p.threadNum) (hl : l < p.threadNum)
    (h : p.HasLine k line) (h' : p.HasLine l line) : k = l := by
  have key : ∀ {a b : ℕ}, a < b → b < p.threadNum → p.HasLine a line → p.HasLine b line → False := by
    intro a b hab hb ha hb'
    have hend := hp.endingLine_lt (k := a) (by omega)
    have hmono := startingLine_mono (p := p) (show a + 1 ≤ b from hab)
    have h1 := ha.2
    have h2 := hb'.1
    omega
  rcases Nat.lt_trichotomy k l with hlt | heq | hgt
  · exact (key hlt hl h h').elim
  · exact heq
  · exact (key hgt hk h' h).elim

/-- Every line belongs to a job. -/
theorem Valid.exists_hasLine (hp : p.Valid) {line : ℕ} (h : line < p.inputHeight) :
    ∃ k < p.threadNum, p.HasLine k line := by
  have hn := hp.threadNum_pos
  have hd := hp.divider_pos
  by_cases hlast : p.startingLine (p.threadNum - 1) ≤ line
  · refine ⟨p.threadNum - 1, by omega, hlast, ?_⟩
    unfold endingLine
    rw [if_pos (by omega)]
    omega
  · have hlt : line / p.divider < p.threadNum - 1 :=
      Nat.div_lt_of_lt_mul (by rw [Nat.mul_comm]; exact Nat.lt_of_not_le hlast)
    refine ⟨line / p.divider, by omega, Nat.div_mul_le_self _ _, ?_⟩
    have hmod := Nat.div_add_mod line p.divider
    have hmodlt := Nat.mod_lt line hd
    unfold endingLine
    rw [if_neg (by omega), Nat.mul_comm]
    omega

end GameParams

/-- Job `serial` as main makes it: its generation decides the matrices, its place in it the lines. -/
def GameParams.job (p : GameParams) (serial : ℕ) : Job where
  serial := serial
  currentMatrix := decide (serial / p.threadNum % 2 = 1)
  nextMatrix := decide (serial / p.threadNum % 2 = 0)
  startingLine := p.startingLine (serial % p.threadNum)
  endingLine := p.endingLine (serial % p.threadNum)
  inputWidth := p.inputWidth
  inputHeight := p.inputHeight

end OperationSystems.Life
