import OperationSystems.Life.Cells

/-!
# The parallel game and the sequential one

Every run keeps the four invariants together. Main therefore leaves each
busy-wait with the next generation complete and no job outstanding, and ends
with as many generations as it was asked for; the records of the tiles stand in
the order of the generations.
-/

namespace OperationSystems.Life

variable {p : GameParams} {board : BoolMat} {s t : Game}

/-- The history of tiles lags behind the counted jobs by the record that is being appended. -/
structure History (s : Game) : Prop where
  pending : ∀ k job, s.workers k = .append job →
    s.counted = s.tileHist.map TileRecord.job ++ [job.serial]
  settled : (∀ k job, s.workers k ≠ .append job) → s.counted = s.tileHist.map TileRecord.job

theorem history_init (p : GameParams) (board : BoolMat) : History (p.init board) where
  pending k job h := by cases h
  settled _ := rfl

theorem History.mainMove (hs : History s) (h : MainMove p s t) : History t := by
  have hw := h.workers
  have hcounted := h.frame.2.2.1
  have hhist : t.tileHist = s.tileHist := by
    cases h <;> rfl
  refine ⟨fun k job hk => ?_, fun hno => ?_⟩
  · rw [hcounted, hhist]
    exact hs.pending k job (hw ▸ hk)
  · rw [hcounted, hhist]
    exact hs.settled fun k job hk => hno k job (hw ▸ hk)

/-- A step of a worker counts its job, records it or does neither. -/
theorem WorkerMove.recordChange {k calcTime : ℕ} (h : WorkerMove s k calcTime t) :
    (t.counted = s.counted ∧ t.tileHist = s.tileHist ∧
      (∀ job, s.workers k ≠ .append job) ∧ ∀ job, t.workers k ≠ .append job) ∨
    (∃ job, t.counted = s.counted ++ [job.serial] ∧ t.tileHist = s.tileHist ∧
      (s.workers k).Inside ∧ (∀ job, s.workers k ≠ .append job) ∧ t.workers k = .append job) ∨
    (∃ job, s.workers k = .append job ∧ t.counted = s.counted ∧
      t.tileHist = s.tileHist ++ [⟨calcTime, k, job.serial⟩] ∧ ∀ job, t.workers k ≠ .append job) := by
  cases h with
  | store job loaded hpc =>
    exact .inr (.inl ⟨job, rfl, rfl, by simp [hpc, WorkerPc.Inside], by simp [hpc], by simp⟩)
  | append job hpc => exact .inr (.inr ⟨job, hpc, rfl, rfl, by simp⟩)
  | _ =>
    rename_i hpc
    exact .inl ⟨rfl, rfl, by simp [hpc], by simp⟩

theorem History.workerMove {k calcTime : ℕ} (hs : History s) (hx : Exclusion s)
    (h : WorkerMove s k calcTime t) : History t := by
  have hothers : ∀ l job, (s.workers k).Inside → s.workers l = .append job → l = k := by
    intro l job hin hl
    have hlo := (hx.worker l).mp (by rw [hl]; trivial)
    rw [(hx.worker k).mp hin] at hlo
    exact (Owner.worker.inj (Option.some.inj hlo)).symm
  rcases h.recordChange with ⟨hcounted, hhist, hbefore, hafter⟩ |
    ⟨job, hcounted, hhist, hin, hbefore, hafter⟩ | ⟨job, hbefore, hcounted, hhist, hafter⟩
  · refine ⟨fun l job hl => ?_, fun hno => ?_⟩
    · have hne : l ≠ k := fun heq => hafter job (heq ▸ hl)
      rw [hcounted, hhist]
      exact hs.pending l job (h.others hne ▸ hl)
    · rw [hcounted, hhist]
      refine hs.settled fun l job hl => ?_
      rcases eq_or_ne l k with rfl | hne
      · exact hbefore job hl
      · exact hno l job ((h.others hne).trans hl)
  · have hold := hs.settled fun l job' hl => by
      obtain rfl := hothers l job' hin hl
      exact hbefore job' hl
    refine ⟨fun l job' hl => ?_, fun hno => absurd hafter (hno k job)⟩
    rcases eq_or_ne l k with rfl | hne
    · obtain rfl := WorkerPc.append.inj (hafter.symm.trans hl)
      rw [hcounted, hhist, hold]
    · exact absurd (hothers l job' hin (h.others hne ▸ hl)) hne
  · have hin : (s.workers k).Inside := by rw [hbefore]; trivial
    have hnew : t.counted = t.tileHist.map TileRecord.job := by
      rw [hcounted, hhist, hs.pending k job hbefore, List.map_append]
      rfl
    refine ⟨fun l job' hl => ?_, fun _ => hnew⟩
    rcases eq_or_ne l k with rfl | hne
    · exact absurd hl (hafter job')
    · exact absurd (hothers l job' hin (h.others hne ▸ hl)) hne

structure Inv (p : GameParams) (board : BoolMat) (s : Game) : Prop where
  shutdown : Shutdown p s
  exclusion : Exclusion s
  accounts : Accounts p s
  cells : Cells p board s
  history : History s

theorem inv_init (hp : p.Valid) (board : BoolMat) : Inv p board (p.init board) :=
  ⟨shutdown_init p board, exclusion_init p board, accounts_init hp board, cells_init hp board,
    history_init p board⟩

/-- Nothing is in flight when main clears the counter. -/
theorem Accounts.no_store (hs : Accounts p s) (hshut : Shutdown p s) {gen : ℕ} (hm : s.main = .reset gen)
    (k : ℕ) (job : Job) (loaded : ℕ) : s.workers k ≠ .store job loaded := by
  intro hk
  have hlt : k < p.threadNum := by
    by_contra hge
    rw [hshut.outside k (Nat.le_of_not_lt hge)] at hk
    cases hk
  have hmem : job.serial ∈ Custody.holders p.threadNum s.held :=
    Custody.mem_holders.mpr ⟨k, hlt, by simp [Game.held, hk, WorkerPc.heldJob]⟩
  rw [(hs.idle (by rw [hm]; trivial)).1] at hmem
  simp at hmem

theorem Inv.step (hs : Inv p board s) (hp : p.Valid) {e : Turn} (h : Step p s e t) : Inv p board t := by
  rcases step_cases h with h | ⟨k, hk, calcTime, h⟩
  · exact ⟨hs.shutdown.mainMove h,
      hs.exclusion.mainMove h fun _ hm => hs.accounts.no_store hs.shutdown hm,
      hs.accounts.mainMove hp h, hs.cells.mainMove hs.accounts hp h, hs.history.mainMove h⟩
  · exact ⟨hs.shutdown.workerMove hk h, hs.exclusion.workerMove h,
      hs.accounts.workerMove hs.exclusion hk hs.shutdown.flag.mp h,
      hs.cells.workerMove hs.accounts hp hk h, hs.history.workerMove hs.exclusion h⟩

theorem inv_run (hp : p.Valid) {es : List Turn} (h : Transition.Run (Step p) (p.init board) es s) :
    Inv p board s :=
  h.invariant (inv_init hp board) fun _ _ _ hs => hs.step hp

namespace Inv

/-- Past a busy-wait the queue holds no job and no worker does. -/
theorem handsEmpty (hs : Inv p board s) (hset : GameParams.Settled s.main) :
    (∀ k, (s.workers k).heldJob = none) ∧ ∀ job, some job ∉ s.pcq := by
  obtain ⟨hheld, hq⟩ := hs.accounts.idle hset
  refine ⟨fun k => ?_, fun job hjob => ?_⟩
  · by_contra hne
    obtain ⟨job, hjob⟩ := Option.ne_none_iff_exists'.mp hne
    rcases Nat.lt_or_ge k p.threadNum with hlt | hge
    · have hmem : job.serial ∈ Custody.holders p.threadNum s.held :=
        Custody.mem_holders.mpr ⟨k, hlt, by simp [Game.held, hjob]⟩
      rw [hheld] at hmem
      simp at hmem
    · rw [hs.shutdown.outside k hge] at hjob
      cases hjob
  · have hmem : job.serial ∈ s.queued := List.mem_filterMap.mpr ⟨some job, hjob, rfl⟩
    rw [hq] at hmem
    simp at hmem

/-- No cell is written by two jobs of one generation. -/
theorem writer_unique (hs : Inv p board s) (hp : p.Valid) {a b i j : ℕ} (ha : (a, i, j) ∈ s.writes)
    (hb : (b, i, j) ∈ s.writes) (hgen : a / p.threadNum = b / p.threadNum) : a = b := by
  have hn := hp.threadNum_pos
  have hmod := hp.hasLine_unique (Nat.mod_lt a hn) (Nat.mod_lt b hn) (hs.cells.written a i j ha).2.1
    (hs.cells.written b i j hb).2.1
  rw [← Nat.div_add_mod a p.threadNum, ← Nat.div_add_mod b p.threadNum, hgen, hmod]

/-- The jobs counted at the places of a generation are those of the generation. -/
theorem counted_slice (hs : Inv p board s) (hp : p.Valid) {gen : ℕ}
    (hgen : gen * p.threadNum + p.threadNum ≤ s.counted.length) :
    ((s.counted.drop (gen * p.threadNum)).take p.threadNum).Perm
      (List.range' (gen * p.threadNum) p.threadNum) := by
  have hn := hp.threadNum_pos
  have hnodup : ((s.counted.drop (gen * p.threadNum)).take p.threadNum).Nodup :=
    ((List.take_sublist _ _).trans (List.drop_sublist _ _)).nodup (List.nodup_append.mp hs.accounts.nodup).1
  have hlen : ((s.counted.drop (gen * p.threadNum)).take p.threadNum).length = p.threadNum := by
    rw [List.length_take, List.length_drop]
    omega
  have hsub : (s.counted.drop (gen * p.threadNum)).take p.threadNum ⊆
      List.range' (gen * p.threadNum) p.threadNum := by
    intro a ha
    obtain ⟨i, hi⟩ := List.mem_iff_getElem?.mp ha
    rw [List.getElem?_take] at hi
    split_ifs at hi with hlt
    rw [List.getElem?_drop] at hi
    have hdiv := hs.accounts.grouped _ a hi
    have hplace : (gen * p.threadNum + i) / p.threadNum = gen := by
      rw [Nat.add_comm, Nat.add_mul_div_right _ _ hn, Nat.div_eq_of_lt hlt, Nat.zero_add]
    have hmod := Nat.div_add_mod a p.threadNum
    have hmodlt := Nat.mod_lt a hn
    rw [hdiv, hplace, Nat.mul_comm] at hmod
    exact List.mem_range'_1.mpr ⟨by omega, by omega⟩
  refine (List.subperm_of_subset hnodup hsub).perm_of_length_le ?_
  rw [hlen, List.length_range']

end Inv

/-- Main is behind its last generation. -/
def MainPc.Over : MainPc → Prop
  | .finish | .pushNull _ | .join _ | .done => True
  | _ => False

/-- The parallel game against the rule: `reset` is where main is when it has passed a busy-wait. -/
structure Faithful (p : GameParams) (board : BoolMat) (s : Game) : Prop where
  successor : ∀ gen, s.main = .reset gen → ∀ i < p.inputHeight, ∀ j < p.inputWidth,
    s.mem s.nextMatrix i j = successor p.inputHeight p.inputWidth (s.mem s.currMatrix) i j
  writer : ∀ a b i j, (a, i, j) ∈ s.writes → (b, i, j) ∈ s.writes →
    a / p.threadNum = b / p.threadNum → a = b
  handsEmpty : ∀ gen, s.main = .reset gen ∨ s.main = .swap gen →
    (∀ k, (s.workers k).heldJob = none) ∧ ∀ job, some job ∉ s.pcq
  counter : s.counted.length = p.base s.main * p.threadNum + s.finishedThreadCounter
  result : s.main.Over → ∀ i < p.inputHeight, ∀ j < p.inputWidth,
    s.mem s.currMatrix i j = generation p.inputHeight p.inputWidth board p.nGen i j

theorem game_faithful (hp : p.Valid) {es : List Turn} (h : Transition.Run (Step p) (p.init board) es s) :
    Faithful p board s := by
  have hs := inv_run hp h
  have hacc := hs.accounts
  refine ⟨fun gen hm i hi j hj => ?_, fun a b i j ha hb => hs.writer_unique hp ha hb, fun gen hm => ?_,
    hacc.counter, fun hover i hi j hj => ?_⟩
  · have hbase : p.base s.main = gen := by rw [hm]; rfl
    have hcurr : s.currMatrix = parity gen := by
      rw [hacc.currMatrix, hm]
      rfl
    have hnext : s.nextMatrix = parity (gen + 1) := by
      rw [hacc.nextMatrix, hm]
      refine decide_eq_decide.mpr ?_
      simp only [GameParams.shown]
      omega
    have hser : s.serial = p.base s.main * p.threadNum + p.threadNum := by
      rw [hacc.serial, hm]
      rfl
    have hnew := hs.cells.complete hp (fun a ha => hacc.mem_counted (by rw [hm]; trivial) (hser ▸ ha)) hi hj
    have hshown := hs.cells.shown
    rw [hbase] at hnew hshown
    rw [hcurr, hnext, hnew]
    exact (successor_congr hshown hi hj).symm
  · refine hs.handsEmpty ?_
    rcases hm with hm | hm <;> rw [hm] <;> trivial
  · have hbase : p.base s.main = p.nGen ∧ p.shown s.main = p.nGen := by
      cases hm : s.main <;> simp_all [MainPc.Over, GameParams.base, GameParams.shown]
    have hshown := hs.cells.shown i hi j hj
    rw [hbase.1] at hshown
    rw [hacc.currMatrix, hbase.2]
    exact hshown

def sampleParams : GameParams := ⟨1, 5, 2, 1⟩

theorem sampleParams_valid : sampleParams.Valid := ⟨by decide, by decide⟩

/-- Two workers and one generation. Main leaves the busy-wait while worker 0 still has to record its tile. -/
def sampleTurns : List Turn :=
  [(2, .main), (2, .worker 0 0), (2, .worker 1 0), (3, .worker 0 0), (8, .worker 1 4), (3, .worker 0 0),
    (3, .main), (2, .worker 0 9), (7, .main), (4, .worker 0 0), (4, .worker 1 0), (3, .main)].flatMap
    fun e => List.replicate e.1 e.2

theorem sample_run : ∃ s, Transition.Run (Step sampleParams)
    (sampleParams.init fun _ _ => true) sampleTurns s ∧ s.main = .done := by
  have hmain : (Transition.Run.exec (next sampleParams) (sampleParams.init fun _ _ => true)
      sampleTurns).map Game.main = some .done := by
    decide +kernel
  obtain ⟨s, hs, hm⟩ := Option.map_eq_some_iff.mp hmain
  exact ⟨s, Transition.Run.of_exec (fun _ _ _ => id) hs, hm⟩

theorem game_faithful_sample : ∃ s, Transition.Run (Step sampleParams)
    (sampleParams.init fun _ _ => true) sampleTurns s ∧
    s.main = .done ∧ Faithful sampleParams (fun _ _ => true) s := by
  obtain ⟨s, hrun, hm⟩ := sample_run
  exact ⟨s, hrun, hm, game_faithful sampleParams_valid hrun⟩

/-- What the workers leave behind them. -/
structure Recorded (p : GameParams) (s : Game) : Prop where
  noFault : ∀ k, s.workers k ≠ .fault
  length : s.main = .done → s.tileHist.length = p.threadNum * p.nGen
  grouped : s.main = .done → ∀ gen < p.nGen,
    (((s.tileHist.drop (gen * p.threadNum)).take p.threadNum).map TileRecord.job).Perm
      (List.range' (gen * p.threadNum) p.threadNum)
  exited : s.main = .done → ∀ k < p.threadNum, s.workers k = .exited

theorem tile_history (hp : p.Valid) {es : List Turn} (h : Transition.Run (Step p) (p.init board) es s) :
    Recorded p s := by
  have hs := inv_run hp h
  have hexited : s.main = .done → ∀ k < p.threadNum, s.workers k = .exited := by
    intro hm k hk
    exact hs.shutdown.joined k (by rw [hm]; exact hk)
  have hcounted : s.main = .done → s.counted = s.tileHist.map TileRecord.job := by
    intro hm
    refine hs.history.settled fun k job hk => ?_
    rcases Nat.lt_or_ge k p.threadNum with hlt | hge
    · rw [hexited hm k hlt] at hk
      cases hk
    · rw [hs.shutdown.outside k hge] at hk
      cases hk
  have hlen : s.main = .done → s.counted.length = p.nGen * p.threadNum := by
    intro hm
    have hset : GameParams.Settled s.main := by rw [hm]; trivial
    have hall := hs.accounts.length
    rw [hs.accounts.tokens_settled hset, hs.accounts.serial, hm] at hall
    exact hall
  refine ⟨hs.shutdown.noFault, fun hm => ?_, fun hm gen hgen => ?_, hexited⟩
  · rw [Nat.mul_comm, ← hlen hm, hcounted hm, List.length_map]
  · rw [List.map_take, List.map_drop, ← hcounted hm]
    refine hs.counted_slice hp ?_
    rw [hlen hm, ← Nat.succ_mul]
    exact Nat.mul_le_mul_right _ hgen

theorem tile_history_sample : ∃ s, Transition.Run (Step sampleParams)
    (sampleParams.init fun _ _ => true) sampleTurns s ∧ s.main = .done ∧ Recorded sampleParams s := by
  obtain ⟨s, hrun, hm⟩ := sample_run
  exact ⟨s, hrun, hm, tile_history sampleParams_valid hrun⟩

end OperationSystems.Life
