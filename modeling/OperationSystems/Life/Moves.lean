import OperationSystems.Lib.Custody
import OperationSystems.Life.Partition

/-!
# What one step does

Each move of main and of a worker is one case with its guard, so an invariant
is checked move by move. A job is then followed from the queue to the worker
that holds it and from there to those counted.
-/

namespace OperationSystems.Life

variable {p : GameParams} {s t : Game}

inductive MainMove (p : GameParams) (s : Game) : Game → Prop where
  | pushJob (gen i lineCounter : ℕ) (hi : 1 < i) (hpc : s.main = .push gen i lineCounter) :
      MainMove p s { s.push (some (s.newJob p lineCounter (lineCounter + p.divider - 1))) with
        serial := s.serial + 1, main := .push gen (i - 1) (lineCounter + p.divider) }
  | pushLast (gen i lineCounter : ℕ) (hi : i ≤ 1) (hpc : s.main = .push gen i lineCounter) :
      MainMove p s { s.push (some (s.newJob p lineCounter (p.inputHeight - 1))) with
        serial := s.serial + 1, main := .wait gen }
  | spin (gen : ℕ) (hn : s.finishedThreadCounter ≠ p.threadNum) (hpc : s.main = .wait gen) :
      MainMove p s s
  | pass (gen : ℕ) (hn : s.finishedThreadCounter = p.threadNum) (hpc : s.main = .wait gen) :
      MainMove p s { s with main := .reset gen }
  | reset (gen : ℕ) (hpc : s.main = .reset gen) :
      MainMove p s { s with finishedThreadCounter := 0, main := .swap gen }
  | swap (gen : ℕ) (hpc : s.main = .swap gen) :
      MainMove p s { s with currMatrix := s.nextMatrix, nextMatrix := s.currMatrix, main := .lock gen }
  | lock (gen : ℕ) (hfree : s.globalLock = none) (hpc : s.main = .lock gen) :
      MainMove p s { s with globalLock := some .main, main := .unlock gen }
  | unlock (gen : ℕ) (hpc : s.main = .unlock gen) :
      MainMove p s { s with globalLock := none, main := p.enter (gen + 1) }
  | finish (hpc : s.main = .finish) : MainMove p s { s with finished := true, main := .pushNull 0 }
  | pushNull (i : ℕ) (hpc : s.main = .pushNull i) :
      MainMove p s { s.push none with main := .pushNull (i + 1) }
  | startJoin (i : ℕ) (hpc : s.main = .pushNull i) : MainMove p s { s with main := .join 0 }
  | join (i : ℕ) (hi : i < p.threadNum) (hexit : s.workers i = .exited) (hpc : s.main = .join i) :
      MainMove p s { s with main := .join (i + 1) }
  | done (i : ℕ) (hi : p.threadNum ≤ i) (hpc : s.main = .join i) : MainMove p s { s with main := .done }

theorem mainStep_cases (h : s.mainStep p = some t) : MainMove p s t := by
  unfold Game.mainStep at h
  split at h
  · rename_i gen i lineCounter hpc
    split_ifs at h with hi
    · exact Option.some.inj h ▸ .pushJob gen i lineCounter hi hpc
    · exact Option.some.inj h ▸ .pushLast gen i lineCounter (Nat.le_of_not_lt hi) hpc
  · rename_i gen hpc
    split_ifs at h with hn
    · exact Option.some.inj h ▸ .spin gen hn hpc
    · exact Option.some.inj h ▸ .pass gen (not_not.mp hn) hpc
  · exact Option.some.inj h ▸ .reset _ ‹_›
  · exact Option.some.inj h ▸ .swap _ ‹_›
  · rename_i gen hpc
    split_ifs at h with hfree
    exact Option.some.inj h ▸ .lock gen hfree hpc
  · exact Option.some.inj h ▸ .unlock _ ‹_›
  · exact Option.some.inj h ▸ .finish ‹_›
  · rename_i i hpc
    split_ifs at h
    · exact Option.some.inj h ▸ .pushNull i hpc
    · exact Option.some.inj h ▸ .startJoin i hpc
  · rename_i i hpc
    split_ifs at h with hi hexit
    · exact Option.some.inj h ▸ .join i hi hexit hpc
    · exact Option.some.inj h ▸ .done i (Nat.le_of_not_lt hi) hpc
  · cases h

inductive WorkerMove (s : Game) (k calcTime : ℕ) : Game → Prop where
  | pop (item : Option Job) (items : List (Option Job))
      (hq : s.pcq = item :: items) (hpc : s.workers k = .pop) :
      WorkerMove s k calcTime { s.setWorker k (.check item) with pcq := items }
  | leave (job : Option Job) (hfin : s.finished = true) (hpc : s.workers k = .check job) :
      WorkerMove s k calcTime (s.setWorker k .lastLock)
  | null (hfin : s.finished ≠ true) (hpc : s.workers k = .check none) :
      WorkerMove s k calcTime (s.setWorker k .fault)
  | begin (job : Job) (hfin : s.finished ≠ true) (hpc : s.workers k = .check (some job)) :
      WorkerMove s k calcTime (s.setWorker k (.work job job.startingLine 0))
  | cell (job : Job) (line cell : ℕ)
      (hl : line ≤ job.endingLine) (hc : cell < job.inputWidth) (hpc : s.workers k = .work job line cell) :
      WorkerMove s k calcTime (s.writeCell k job line cell)
  | line (job : Job) (line cell : ℕ)
      (hl : line ≤ job.endingLine) (hc : job.inputWidth ≤ cell) (hpc : s.workers k = .work job line cell) :
      WorkerMove s k calcTime (s.setWorker k (.work job (line + 1) 0))
  | written (job : Job) (line cell : ℕ)
      (hl : job.endingLine < line) (hpc : s.workers k = .work job line cell) : WorkerMove s k calcTime (s.setWorker k (.lock job))
  | lock (job : Job) (hfree : s.globalLock = none) (hpc : s.workers k = .lock job) :
      WorkerMove s k calcTime { s.setWorker k (.load job) with globalLock := some (.worker k) }
  | load (job : Job) (hpc : s.workers k = .load job) :
      WorkerMove s k calcTime (s.setWorker k (.store job s.finishedThreadCounter))
  | store (job : Job) (loaded : ℕ) (hpc : s.workers k = .store job loaded) :
      WorkerMove s k calcTime { s.setWorker k (.append job) with
        finishedThreadCounter := loaded + 1, counted := s.counted ++ [job.serial] }
  | append (job : Job) (hpc : s.workers k = .append job) :
      WorkerMove s k calcTime { s.setWorker k .unlock with
        tileHist := s.tileHist ++ [⟨calcTime, k, job.serial⟩] }
  | unlock (hpc : s.workers k = .unlock) :
      WorkerMove s k calcTime { s.setWorker k .pop with globalLock := none }
  | lastLock (hfree : s.globalLock = none) (hpc : s.workers k = .lastLock) :
      WorkerMove s k calcTime { s.setWorker k .lastUnlock with globalLock := some (.worker k) }
  | lastUnlock (hpc : s.workers k = .lastUnlock) :
      WorkerMove s k calcTime { s.setWorker k .exited with globalLock := none }

theorem workerStep_cases {k calcTime : ℕ} (h : s.workerStep k calcTime = some t) :
    WorkerMove s k calcTime t := by
  unfold Game.workerStep at h
  split at h
  · rename_i hpc
    split at h
    · cases h
    · exact Option.some.inj h ▸ .pop _ _ ‹_› hpc
  · rename_i job hpc
    split_ifs at h with hfin
    · exact Option.some.inj h ▸ .leave job hfin hpc
    · split at h
      · exact Option.some.inj h ▸ .null hfin hpc
      · exact Option.some.inj h ▸ .begin _ hfin hpc
  · rename_i job line cell hpc
    split_ifs at h with hl hc
    · exact Option.some.inj h ▸ .cell job line cell hl hc hpc
    · exact Option.some.inj h ▸ .line job line cell hl (Nat.le_of_not_lt hc) hpc
    · exact Option.some.inj h ▸ .written job line cell (Nat.lt_of_not_le hl) hpc
  · rename_i job hpc
    split_ifs at h with hfree
    exact Option.some.inj h ▸ .lock job hfree hpc
  · exact Option.some.inj h ▸ .load _ ‹_›
  · exact Option.some.inj h ▸ .store _ _ ‹_›
  · exact Option.some.inj h ▸ .append _ ‹_›
  · exact Option.some.inj h ▸ .unlock ‹_›
  · rename_i hpc
    split_ifs at h with hfree
    exact Option.some.inj h ▸ .lastLock hfree hpc
  · exact Option.some.inj h ▸ .lastUnlock ‹_›
  · cases h
  · cases h

theorem step_cases {e : Turn} (h : Step p s e t) :
    MainMove p s t ∨ ∃ k < p.threadNum, ∃ calcTime, WorkerMove s k calcTime t := by
  cases e with
  | main => exact .inl (mainStep_cases h)
  | worker k calcTime =>
    simp only [Step, next] at h
    split_ifs at h with hk
    exact .inr ⟨k, hk, calcTime, workerStep_cases h⟩

end OperationSystems.Life
