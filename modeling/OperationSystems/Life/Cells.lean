import OperationSystems.Life.Accounts

/-!
# What the matrices hold

The matrix of the generation that is counted is not written; every cell written
in the other one has the value of the next generation, whoever wrote it. Main
clears the counter when every line of the board has been written.
-/

namespace OperationSystems.Life

variable {p : GameParams} {board : BoolMat} {s t : Game}

/-- The matrix that holds a generation. -/
def parity (gen : ℕ) : Bool := decide (gen % 2 = 1)

theorem parity_succ (gen : ℕ) : parity (gen + 1) = !parity gen := by
  unfold parity
  rcases Nat.mod_two_eq_zero_or_one gen with h | h
  · have h' : (gen + 1) % 2 = 1 := by omega
    simp [h, h']
  · have h' : (gen + 1) % 2 = 0 := by omega
    simp [h, h']

/-- The cells of its job that a worker has written. -/
def WorkerPc.Wrote : WorkerPc → ℕ → ℕ → Prop
  | .work _ line cell, i, j => i < line ∨ i = line ∧ j < cell
  | .lock _, _, _ => True
  | .load _, _, _ => True
  | .store _ _, _, _ => True
  | _, _, _ => False

structure Cells (p : GameParams) (board : BoolMat) (s : Game) : Prop where
  shown : ∀ i < p.inputHeight, ∀ j < p.inputWidth, s.mem (parity (p.base s.main)) i j =
    generation p.inputHeight p.inputWidth board (p.base s.main) i j
  written : ∀ a i j, (a, i, j) ∈ s.writes → a < s.serial ∧ p.HasLine (a % p.threadNum) i ∧ j < p.inputWidth
  fresh : ∀ a i j, (a, i, j) ∈ s.writes → p.base s.main * p.threadNum ≤ a →
    s.mem (parity (p.base s.main + 1)) i j =
      generation p.inputHeight p.inputWidth board (p.base s.main + 1) i j
  counted : ∀ a ∈ s.counted, ∀ i j, p.HasLine (a % p.threadNum) i → j < p.inputWidth → (a, i, j) ∈ s.writes
  within : ∀ k job line cell, s.workers k = .work job line cell → job.startingLine ≤ line
  progress : ∀ k job, (s.workers k).heldJob = some job → ∀ i j, p.HasLine (job.serial % p.threadNum) i →
    j < p.inputWidth → (s.workers k).Wrote i j → (job.serial, i, j) ∈ s.writes

theorem cells_init (hp : p.Valid) (board : BoolMat) : Cells p board (p.init board) := by
  obtain ⟨hbase, -⟩ := enter_spec hp (Nat.zero_le p.nGen)
  exact {
    shown := fun i _ j _ => by
      rw [show p.base (p.init board).main = 0 from hbase]
      rfl
    written := fun a i j h => by simp [GameParams.init] at h
    fresh := fun a i j h => by simp [GameParams.init] at h
    counted := fun a h => by simp [GameParams.init] at h
    within := fun k job line cell h => by cases h
    progress := fun k job h => by cases h }

namespace Cells

/-- When every job of a generation has been counted, the other matrix holds the next one. -/
theorem complete (hs : Cells p board s) (hp : p.Valid)
    (hall : ∀ a < p.base s.main * p.threadNum + p.threadNum, a ∈ s.counted) {i j : ℕ}
    (hi : i < p.inputHeight) (hj : j < p.inputWidth) :
    s.mem (parity (p.base s.main + 1)) i j =
      generation p.inputHeight p.inputWidth board (p.base s.main + 1) i j := by
  obtain ⟨k, hk, hline⟩ := hp.exists_hasLine hi
  have hmod : (p.base s.main * p.threadNum + k) % p.threadNum = k := by
    rw [Nat.add_comm, Nat.add_mul_mod_self_right, Nat.mod_eq_of_lt hk]
  exact hs.fresh _ i j (hs.counted _ (hall _ (by omega)) i j (hmod.symm ▸ hline) hj) (Nat.le_add_right _ _)

end Cells

/-- A step of main does not touch the matrices, the writes or what has been counted. -/
theorem MainMove.frame (h : MainMove p s t) :
    t.mem = s.mem ∧ t.writes = s.writes ∧ t.counted = s.counted ∧ s.serial ≤ t.serial := by
  cases h with
  | pushJob | pushLast => exact ⟨rfl, rfl, rfl, Nat.le_succ _⟩
  | _ => exact ⟨rfl, rfl, rfl, Nat.le_refl _⟩

/-- Clearing the counter is the start of the next generation. -/
theorem MainMove.base (h : MainMove p s t) (hs : Accounts p s) :
    p.base t.main = p.base s.main ∨
      (∃ gen, s.main = .reset gen) ∧ p.base t.main = p.base s.main + 1 := by
  cases h with
  | spin => exact .inl rfl
  | reset gen hpc =>
    refine .inr ⟨⟨gen, hpc⟩, ?_⟩
    rw [hpc]
    rfl
  | unlock gen hpc =>
    left
    have hok := hs.main
    rw [hpc] at hok ⊢
    unfold GameParams.enter
    split_ifs with hlt
    · rfl
    · exact Nat.le_antisymm (Nat.le_of_not_lt hlt) hok
  | _ =>
    rename_i hpc
    left
    rw [hpc]
    rfl

/-- A step of a worker writes one cell of its job or none. -/
theorem WorkerMove.writes {k calcTime : ℕ} (h : WorkerMove s k calcTime t) :
    (t.mem = s.mem ∧ t.writes = s.writes) ∨ ∃ job line cell, s.workers k = .work job line cell ∧
      line ≤ job.endingLine ∧ cell < job.inputWidth ∧ t = s.writeCell k job line cell := by
  cases h with
  | cell job line cell hl hc hpc => exact .inr ⟨job, line, cell, hpc, hl, hc, rfl⟩
  | _ => exact .inl ⟨rfl, rfl⟩

namespace Cells

theorem mainMove (hs : Cells p board s) (ha : Accounts p s) (hp : p.Valid) (h : MainMove p s t) :
    Cells p board t := by
  obtain ⟨hmem, hwrites, hcounted, hserial⟩ := h.frame
  have hw := h.workers
  have hwritten : ∀ a i j, (a, i, j) ∈ t.writes → a < t.serial ∧ p.HasLine (a % p.threadNum) i ∧
      j < p.inputWidth := by
    intro a i j hmem'
    obtain ⟨h1, h2⟩ := hs.written a i j (hwrites ▸ hmem')
    exact ⟨Nat.lt_of_lt_of_le h1 hserial, h2⟩
  have hshown : (∀ i < p.inputHeight, ∀ j < p.inputWidth, s.mem (parity (p.base t.main)) i j =
      generation p.inputHeight p.inputWidth board (p.base t.main) i j) ∧
      (∀ a i j, (a, i, j) ∈ s.writes → p.base t.main * p.threadNum ≤ a →
        s.mem (parity (p.base t.main + 1)) i j =
          generation p.inputHeight p.inputWidth board (p.base t.main + 1) i j) := by
    rcases h.base ha with hbase | ⟨⟨gen, hpc⟩, hbase⟩
    · rw [hbase]
      exact ⟨hs.shown, hs.fresh⟩
    · have hser : s.serial = p.base s.main * p.threadNum + p.threadNum := by
        rw [ha.serial, hpc]
        rfl
      have hall : ∀ a < s.serial, a ∈ s.counted := fun a => ha.mem_counted (by rw [hpc]; trivial)
      refine ⟨fun i hi j hj => ?_, fun a i j hmem' hle => ?_⟩
      · rw [hbase]
        exact hs.complete hp (fun a hlt => hall a (hser ▸ hlt)) hi hj
      · have hlt := (hs.written a i j hmem').1
        rw [hbase, Nat.succ_mul] at hle
        omega
  exact {
    shown := hmem ▸ hshown.1
    written := hwritten
    fresh := fun a i j hmem' hle => hmem ▸ hshown.2 a i j (hwrites ▸ hmem') hle
    counted := fun a hc i j => hwrites ▸ hs.counted a (hcounted ▸ hc) i j
    within := hw ▸ hs.within
    progress := fun k job hk i j => hw ▸ hwrites ▸ hs.progress k job (hw ▸ hk) i j }

/-- A worker has written what its place in the loops says, after a step that writes nothing too. -/
theorem wrote_of_move {k calcTime : ℕ} (ha : Accounts p s) (h : WorkerMove s k calcTime t)
    (hsame : t.writes = s.writes) {job : Job} (hk : (t.workers k).heldJob = some job) {i j : ℕ}
    (hi : p.HasLine (job.serial % p.threadNum) i) (hj : j < p.inputWidth) (hw : (t.workers k).Wrote i j) :
    (s.workers k).heldJob = some job ∧ (s.workers k).Wrote i j := by
  cases h with
  | begin job' hfin hpc =>
    simp only [setWorker_workers, if_pos, WorkerPc.heldJob, Option.some.injEq, WorkerPc.Wrote] at hk hw
    subst hk
    have hjob := ha.heldJob k job' (by rw [hpc]; rfl)
    have hstart : job'.startingLine ≤ i := by
      rw [hjob]
      exact hi.1
    omega
  | cell job' line cell hl hc hpc => exact absurd hsame (List.cons_ne_self _ _)
  | line job' line cell hl hc hpc =>
    simp only [setWorker_workers, if_pos, WorkerPc.heldJob, Option.some.injEq, WorkerPc.Wrote] at hk hw
    subst hk
    have hjob := ha.heldJob k job' (by rw [hpc]; rfl)
    have hwidth : job'.inputWidth = p.inputWidth := by
      rw [hjob]
      rfl
    rw [hpc]
    refine ⟨rfl, ?_⟩
    simp only [WorkerPc.Wrote]
    omega
  | written job' line cell hl hpc =>
    simp only [setWorker_workers, if_pos, WorkerPc.heldJob, Option.some.injEq] at hk
    subst hk
    have hjob := ha.heldJob k job' (by rw [hpc]; rfl)
    have hend : i ≤ job'.endingLine := by
      rw [hjob]
      exact hi.2
    rw [hpc]
    refine ⟨rfl, ?_⟩
    simp only [WorkerPc.Wrote]
    omega
  | lock job' hfree hpc =>
    simp only [setWorker_workers, if_pos, WorkerPc.heldJob, Option.some.injEq] at hk
    exact hpc ▸ ⟨congrArg some hk, trivial⟩
  | load job' hpc =>
    simp only [setWorker_workers, if_pos, WorkerPc.heldJob, Option.some.injEq] at hk
    exact hpc ▸ ⟨congrArg some hk, trivial⟩
  | _ => simp [WorkerPc.heldJob, WorkerPc.Wrote] at hk hw

/-- A step of a worker that writes no cell. -/
theorem quietMove {k calcTime : ℕ} (hs : Cells p board s) (ha : Accounts p s)
    (h : WorkerMove s k calcTime t) (hmem : t.mem = s.mem) (hwrites : t.writes = s.writes) :
    Cells p board t := by
  obtain ⟨hmain, hserial, -⟩ := h.frame
  have hcounted : ∀ a ∈ t.counted, a ∈ s.counted ∨
      ∃ job loaded, s.workers k = .store job loaded ∧ job.serial = a := by
    intro a hmem
    cases h with
    | store job loaded hpc =>
      rcases List.mem_append.mp hmem with hmem | hmem
      · exact .inl hmem
      · exact .inr ⟨job, loaded, hpc, (List.mem_singleton.mp hmem).symm⟩
    | _ => exact .inl hmem
  have hwithin : ∀ job line cell, t.workers k = .work job line cell → job.startingLine ≤ line := by
    intro job line cell hw
    cases h with
    | begin job' =>
      simp only [setWorker_workers, if_pos, WorkerPc.work.injEq] at hw
      obtain ⟨rfl, rfl, -⟩ := hw
      exact Nat.le_refl _
    | line job' line' cell' hl hc hpc =>
      simp only [setWorker_workers, if_pos, WorkerPc.work.injEq] at hw
      obtain ⟨rfl, rfl, -⟩ := hw
      exact Nat.le_succ_of_le (hs.within k job' line' cell' hpc)
    | cell => exact absurd hwrites (List.cons_ne_self _ _)
    | _ => simp at hw
  refine ⟨?_, ?_, ?_, fun a hc i j hi hj => ?_, fun l job line cell hl => ?_, fun l job hl i j hi hj hw => ?_⟩
  · rw [hmain, hmem]
    exact hs.shown
  · rw [hwrites, hserial]
    exact hs.written
  · rw [hmain, hmem, hwrites]
    exact hs.fresh
  · rw [hwrites]
    rcases hcounted a hc with hc | ⟨job, loaded, hpc, rfl⟩
    · exact hs.counted a hc i j hi hj
    · exact hs.progress k job (by rw [hpc]; rfl) i j hi hj (by rw [hpc]; trivial)
  · rcases eq_or_ne l k with rfl | hne
    · exact hwithin job line cell hl
    · exact hs.within l job line cell (h.others hne ▸ hl)
  · rw [hwrites]
    rcases eq_or_ne l k with rfl | hne
    · obtain ⟨hl', hw'⟩ := wrote_of_move ha h hwrites hl hi hj hw
      exact hs.progress l job hl' i j hi hj hw'
    · exact hs.progress l job (h.others hne ▸ hl) i j hi hj (h.others hne ▸ hw)

/-- A job in a worker's hands is one of the generation that is counted. -/
theorem matrices_of_held (ha : Accounts p s) {k : ℕ} {job : Job} (hk : k < p.threadNum)
    (hjob : (s.workers k).heldJob = some job) :
    job.currentMatrix = parity (p.base s.main) ∧ job.nextMatrix = parity (p.base s.main + 1) := by
  have hheld : s.held k = some job.serial := by
    unfold Game.held
    rw [hjob]
    rfl
  obtain ⟨-, hlow, hhigh, -⟩ := ha.held_bounds hk hheld
  have hle := ha.serial_le
  have hdiv : job.serial / p.threadNum = p.base s.main :=
    Nat.div_eq_of_lt_le hlow (by rw [Nat.succ_mul]; omega)
  rw [ha.heldJob k job hjob]
  refine ⟨by simp only [GameParams.job, hdiv, parity], ?_⟩
  simp only [GameParams.job, hdiv, parity, decide_eq_decide]
  omega

theorem cellMove (hs : Cells p board s) (ha : Accounts p s) (hp : p.Valid) {k : ℕ}
    (hk : k < p.threadNum) {job : Job} {line cell : ℕ} (hpc : s.workers k = .work job line cell)
    (hl : line ≤ job.endingLine) (hc : cell < job.inputWidth) :
    Cells p board (s.writeCell k job line cell) := by
  have hheld : (s.workers k).heldJob = some job := by rw [hpc]; rfl
  have hjob := ha.heldJob k job hheld
  obtain ⟨hcurr, hnext⟩ := matrices_of_held ha hk hheld
  have hwidth : job.inputWidth = p.inputWidth := by rw [hjob]; rfl
  have hheight : job.inputHeight = p.inputHeight := by rw [hjob]; rfl
  have hline : p.HasLine (job.serial % p.threadNum) line := by
    have hstart := hs.within k job line cell hpc
    rw [hjob] at hstart hl
    exact ⟨hstart, hl⟩
  have hcell : cell < p.inputWidth := hwidth ▸ hc
  have hlt := hp.line_lt (Nat.mod_lt _ hp.threadNum_pos) hline
  have hne : parity (p.base s.main) ≠ parity (p.base s.main + 1) := by
    rw [parity_succ]
    exact fun h => by simp at h
  have hmemShown : (s.writeCell k job line cell).mem (parity (p.base s.main)) =
      s.mem (parity (p.base s.main)) :=
    Function.update_of_ne (hnext ▸ hne) _ _
  have hmemNext : (s.writeCell k job line cell).mem (parity (p.base s.main + 1)) =
      (s.mem (parity (p.base s.main + 1))).set line cell
        (generation p.inputHeight p.inputWidth board (p.base s.main + 1) line cell) := by
    have hval : nextCell line cell job.inputWidth job.inputHeight (s.mem job.currentMatrix) =
        generation p.inputHeight p.inputWidth board (p.base s.main + 1) line cell := by
      rw [hwidth, hheight, hcurr, nextCell_eq hlt hcell]
      exact successor_congr hs.shown hlt hcell
    rw [← hval, ← hnext]
    exact Function.update_self _ _ _
  have hserial : job.serial < s.serial := by
    refine (ha.held_bounds hk ?_).2.2.1
    unfold Game.held
    rw [hheld]
    rfl
  refine ⟨?_, fun a i j h => ?_, fun a i j h hle => ?_, fun a hc' i j hi hj => ?_, fun l job' line' cell' h => ?_,
    fun l job' hl' i j hi hj hw => ?_⟩
  · intro i hi j hj
    exact (congrFun (congrFun hmemShown i) j).trans (hs.shown i hi j hj)
  · rcases List.mem_cons.mp h with h | h
    · obtain ⟨rfl, rfl, rfl⟩ : a = job.serial ∧ i = line ∧ j = cell := by simpa using h
      exact ⟨hserial, hline, hcell⟩
    · exact hs.written a i j h
  · refine (congrFun (congrFun hmemNext i) j).trans ?_
    by_cases hat : i = line ∧ j = cell
    · obtain ⟨rfl, rfl⟩ := hat
      exact BoolMat.set_same _ _ _ _
    · rw [BoolMat.set_of_ne hat]
      refine hs.fresh a i j ?_ hle
      rcases List.mem_cons.mp h with h | h
      · exact absurd (by simpa using h : a = job.serial ∧ i = line ∧ j = cell).2 hat
      · exact h
  · exact List.mem_cons_of_mem _ (hs.counted a hc' i j hi hj)
  · rw [writeCell_workers] at h
    split_ifs at h with heq
    · obtain ⟨rfl, rfl, -⟩ := WorkerPc.work.inj h
      exact hs.within k job line cell hpc
    · exact hs.within l job' line' cell' h
  · rw [writeCell_workers] at hl' hw
    split_ifs at hl' hw with heq
    · obtain rfl := Option.some.inj hl'
      by_cases hat : i = line ∧ j = cell
      · obtain ⟨rfl, rfl⟩ := hat
        exact List.mem_cons_self
      · refine List.mem_cons_of_mem _ (hs.progress k job hheld i j hi hj ?_)
        rw [hpc]
        simp only [WorkerPc.Wrote] at hw ⊢
        omega
    · exact List.mem_cons_of_mem _ (hs.progress l job' hl' i j hi hj hw)

theorem workerMove {k calcTime : ℕ} (hs : Cells p board s) (ha : Accounts p s) (hp : p.Valid)
    (hk : k < p.threadNum) (h : WorkerMove s k calcTime t) : Cells p board t := by
  rcases h.writes with ⟨hmem, hwrites⟩ | ⟨job, line, cell, hpc, hl, hc, rfl⟩
  · exact hs.quietMove ha h hmem hwrites
  · exact hs.cellMove ha hp hk hpc hl hc

end Cells

end OperationSystems.Life
