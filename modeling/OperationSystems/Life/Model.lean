import OperationSystems.Lib.Run
import OperationSystems.Life.Grid

/-!
# The game: one main thread, its workers and the queue between them

Main pushes the jobs of a generation, waits for the counter of finished jobs,
clears it and swaps the two matrices; a worker takes a job, writes its cells
one by one and counts it under the global lock. Every step is one access to
what the threads share: an operation of the queue, a cell, one of the load and
the store of an increment, one side of the lock. The queue is the queue of
pointers, in which `none` is the null pointer.

A job carries its place in the order of allocation, and the state remembers
which jobs have been counted and which cells each of them has written. The
program reads none of the three.

The lines of a job and of the loop of `_step` are an `int` in the source, and the
number of threads and the counter of finished jobs a `uint`. None of them exceeds
the height of the board, so they stay in their ranges if it is below 2 ^ 31.
-/

namespace OperationSystems.Life

/-- The two matrices are `false` and `true`. -/
structure Job where
  serial : ℕ
  currentMatrix : Bool
  nextMatrix : Bool
  startingLine : ℕ
  endingLine : ℕ
  inputWidth : ℕ
  inputHeight : ℕ
deriving DecidableEq

structure TileRecord where
  tileComputeTime : ℕ
  threadId : ℕ
  job : ℕ
deriving DecidableEq

/-- The parameters of the game and the size of the board that its file holds. -/
structure GameParams where
  nGen : ℕ
  nThread : ℕ
  inputHeight : ℕ
  inputWidth : ℕ

def GameParams.threadNum (p : GameParams) : ℕ :=
  if p.inputHeight ≤ p.nThread then p.inputHeight else p.nThread

def GameParams.divider (p : GameParams) : ℕ :=
  if p.inputHeight / p.threadNum = 0 then 1 else p.inputHeight / p.threadNum

/-- Where main is. In `push` the loop of `_step` stands at `i` and `line_counter`. -/
inductive MainPc where
  | push (gen i lineCounter : ℕ)
  | wait (gen : ℕ)
  | reset (gen : ℕ)
  | swap (gen : ℕ)
  | lock (gen : ℕ)
  | unlock (gen : ℕ)
  | finish
  | pushNull (i : ℕ)
  | join (i : ℕ)
  | done
deriving DecidableEq

/-- Where a worker is: waiting in `pop`, holding what it popped before it has
read `finished`, writing the next cell, and so on. `fault` is the use of a null
pointer. -/
inductive WorkerPc where
  | pop
  | check (job : Option Job)
  | work (job : Job) (line cell : ℕ)
  | lock (job : Job)
  | load (job : Job)
  | store (job : Job) (loaded : ℕ)
  | append (job : Job)
  | unlock
  | lastLock
  | lastUnlock
  | exited
  | fault
deriving DecidableEq

inductive Owner where
  | main
  | worker (k : ℕ)
deriving DecidableEq

structure Game where
  mem : Bool → BoolMat
  currMatrix : Bool
  nextMatrix : Bool
  pcq : List (Option Job)
  finishedThreadCounter : ℕ
  tileHist : List TileRecord
  finished : Bool
  globalLock : Option Owner
  main : MainPc
  workers : ℕ → WorkerPc
  serial : ℕ
  counted : List ℕ
  writes : List (ℕ × ℕ × ℕ)

/-- The loop over the generations enters `_step` or ends. -/
def GameParams.enter (p : GameParams) (gen : ℕ) : MainPc :=
  if gen < p.nGen then .push gen p.threadNum 0 else .finish

/-- The state in which `_init_game` leaves the game: both matrices hold the board. -/
def GameParams.init (p : GameParams) (board : BoolMat) : Game where
  mem _ := board
  currMatrix := false
  nextMatrix := true
  pcq := []
  finishedThreadCounter := 0
  tileHist := []
  finished := false
  globalLock := none
  main := p.enter 0
  workers _ := .pop
  serial := 0
  counted := []
  writes := []

namespace Game

def newJob (p : GameParams) (s : Game) (startingLine endingLine : ℕ) : Job where
  serial := s.serial
  currentMatrix := s.currMatrix
  nextMatrix := s.nextMatrix
  startingLine := startingLine
  endingLine := endingLine
  inputWidth := p.inputWidth
  inputHeight := p.inputHeight

def push (s : Game) (item : Option Job) : Game := { s with pcq := s.pcq ++ [item] }

def setWorker (s : Game) (k : ℕ) (pc : WorkerPc) : Game :=
  { s with workers := Function.update s.workers k pc }

/-- A step of main, unless it is blocked. -/
def mainStep (p : GameParams) (s : Game) : Option Game :=
  match s.main with
  | .push gen i lineCounter =>
    if 1 < i then
      some { s.push (some (s.newJob p lineCounter (lineCounter + p.divider - 1))) with
        serial := s.serial + 1, main := .push gen (i - 1) (lineCounter + p.divider) }
    else
      some { s.push (some (s.newJob p lineCounter (p.inputHeight - 1))) with
        serial := s.serial + 1, main := .wait gen }
  | .wait gen =>
    if s.finishedThreadCounter ≠ p.threadNum then some s
    else some { s with main := .reset gen }
  | .reset gen => some { s with finishedThreadCounter := 0, main := .swap gen }
  | .swap gen => some { s with
      currMatrix := s.nextMatrix, nextMatrix := s.currMatrix, main := .lock gen }
  | .lock gen =>
    if s.globalLock = none then some { s with globalLock := some .main, main := .unlock gen } else none
  | .unlock gen => some { s with globalLock := none, main := p.enter (gen + 1) }
  | .finish => some { s with finished := true, main := .pushNull 0 }
  | .pushNull i =>
    if i ≤ p.threadNum then some { s.push none with main := .pushNull (i + 1) }
    else some { s with main := .join 0 }
  | .join i =>
    if i < p.threadNum then
      if s.workers i = .exited then some { s with main := .join (i + 1) } else none
    else some { s with main := .done }
  | .done => none

/-- The write of one cell, and the turn of the loop after it. -/
def writeCell (s : Game) (k : ℕ) (job : Job) (line cell : ℕ) : Game :=
  { s.setWorker k (.work job line (cell + 1)) with
    mem := Function.update s.mem job.nextMatrix ((s.mem job.nextMatrix).set line cell
      (nextCell line cell job.inputWidth job.inputHeight (s.mem job.currentMatrix)))
    writes := (job.serial, line, cell) :: s.writes }

/-- A step of worker `k`, unless it is blocked; `calcTime` is what its clock shows. -/
def workerStep (s : Game) (k calcTime : ℕ) : Option Game :=
  match s.workers k with
  | .pop =>
    match s.pcq with
    | [] => none
    | item :: items => some { s.setWorker k (.check item) with pcq := items }
  | .check job =>
    if s.finished = true then some (s.setWorker k .lastLock)
    else match job with
      | none => some (s.setWorker k .fault)
      | some job => some (s.setWorker k (.work job job.startingLine 0))
  | .work job line cell =>
    if line ≤ job.endingLine then
      if cell < job.inputWidth then some (s.writeCell k job line cell)
      else some (s.setWorker k (.work job (line + 1) 0))
    else some (s.setWorker k (.lock job))
  | .lock job =>
    if s.globalLock = none then
      some { s.setWorker k (.load job) with globalLock := some (.worker k) }
    else none
  | .load job => some (s.setWorker k (.store job s.finishedThreadCounter))
  | .store job loaded => some { s.setWorker k (.append job) with
      finishedThreadCounter := loaded + 1, counted := s.counted ++ [job.serial] }
  | .append job => some { s.setWorker k .unlock with
      tileHist := s.tileHist ++ [⟨calcTime, k, job.serial⟩] }
  | .unlock => some { s.setWorker k .pop with globalLock := none }
  | .lastLock =>
    if s.globalLock = none then
      some { s.setWorker k .lastUnlock with globalLock := some (.worker k) }
    else none
  | .lastUnlock => some { s.setWorker k .exited with globalLock := none }
  | .exited => none
  | .fault => none

end Game

/-- Who takes the next step. -/
inductive Turn where
  | main
  | worker (k calcTime : ℕ)

def next (p : GameParams) (s : Game) : Turn → Option Game
  | .main => s.mainStep p
  | .worker k calcTime => if k < p.threadNum then s.workerStep k calcTime else none

def Step (p : GameParams) (s : Game) (e : Turn) (t : Game) : Prop := next p s e = some t

end OperationSystems.Life
