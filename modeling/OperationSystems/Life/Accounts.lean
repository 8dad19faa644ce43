import OperationSystems.Life.Shutdown

/-!
# Where the jobs are

Every job that main has made waits in the queue, is held by one worker or has
been counted. The counter is the number of jobs counted since main last cleared
it, so main passes the busy-wait with nothing in the queue and nothing held.
-/

namespace OperationSystems.Life

variable {p : GameParams} {s t : Game}

def WorkerPc.heldJob : WorkerPc → Option Job
  | .check job => job
  | .work job _ _ => some job
  | .lock job => some job
  | .load job => some job
  | .store job _ => some job
  | _ => none

namespace Game

def held (s : Game) (k : ℕ) : Option ℕ := (s.workers k).heldJob.map Job.serial

def queued (s : Game) : List ℕ := s.pcq.filterMap (Option.map Job.serial)

/-- The jobs of all places. -/
def tokens (p : GameParams) (s : Game) : List ℕ :=
  Custody.all p.threadNum s.counted s.held s.queued

end Game

namespace GameParams

/-- The generation whose jobs the counter counts. -/
def base (p : GameParams) : MainPc → ℕ
  | .push gen _ _ | .wait gen | .reset gen => gen
  | .swap gen | .lock gen | .unlock gen => gen + 1
  | .finish | .pushNull _ | .join _ | .done => p.nGen

/-- The generation that `curr_matrix` holds. -/
def shown (p : GameParams) : MainPc → ℕ
  | .push gen _ _ | .wait gen | .reset gen | .swap gen => gen
  | .lock gen | .unlock gen => gen + 1
  | .finish | .pushNull _ | .join _ | .done => p.nGen

/-- How many jobs main has made. -/
def issued (p : GameParams) : MainPc → ℕ
  | .push gen i _ => gen * p.threadNum + (p.threadNum - i)
  | .wait gen | .reset gen | .swap gen | .lock gen | .unlock gen => gen * p.threadNum + p.threadNum
  | .finish | .pushNull _ | .join _ | .done => p.nGen * p.threadNum

def MainOk (p : GameParams) : MainPc → Prop
  | .push gen i lineCounter => gen < p.nGen ∧ (1 ≤ i ∧ i ≤ p.threadNum) ∧
      lineCounter = p.startingLine (p.threadNum - i)
  | .wait gen | .reset gen | .swap gen | .lock gen | .unlock gen => gen < p.nGen
  | .finish | .pushNull _ | .join _ | .done => True

/-- Main is past the busy-wait of its generation, or past all of them. -/
def Settled : MainPc → Prop
  | .push _ _ _ | .wait _ => False
  | _ => True

end GameParams

structure Accounts (p : GameParams) (s : Game) : Prop where
  main : p.MainOk s.main
  serial : s.serial = p.issued s.main
  tokens : (s.tokens p).Perm (List.range s.serial)
  queuedJob : ∀ job, some job ∈ s.pcq → job = p.job job.serial
  heldJob : ∀ k job, (s.workers k).heldJob = some job → job = p.job job.serial
  earlier : ∀ a < p.base s.main * p.threadNum, a ∈ s.counted
  counter : s.counted.length = p.base s.main * p.threadNum + s.finishedThreadCounter
  passed : ∀ gen, s.main = .reset gen → s.finishedThreadCounter = p.threadNum
  grouped : ∀ i a, s.counted[i]? = some a → a / p.threadNum = i / p.threadNum
  currMatrix : s.currMatrix = decide (p.shown s.main % 2 = 1)
  nextMatrix : s.nextMatrix = decide (p.shown s.main % 2 = 0)

theorem enter_spec (hp : p.Valid) {gen : ℕ} (h : gen ≤ p.nGen) :
    p.base (p.enter gen) = gen ∧ p.shown (p.enter gen) = gen ∧
      p.issued (p.enter gen) = gen * p.threadNum ∧ p.MainOk (p.enter gen) := by
  have hn := hp.threadNum_pos
  unfold GameParams.enter
  split_ifs with hlt
  · refine ⟨rfl, rfl, ?_, hlt, ⟨hn, Nat.le_refl _⟩, ?_⟩
    · simp [GameParams.issued]
    · simp [GameParams.startingLine]
  · obtain rfl : gen = p.nGen := by omega
    exact ⟨rfl, rfl, rfl, trivial⟩

theorem accounts_init (hp : p.Valid) (board : BoolMat) : Accounts p (p.init board) := by
  obtain ⟨hbase, hshown, hissued, hok⟩ := enter_spec hp (Nat.zero_le p.nGen)
  have hmain : (p.init board).main = p.enter 0 := rfl
  have hheld : Custody.holders p.threadNum (p.init board).held = [] := by
    refine List.filterMap_eq_nil_iff.mpr fun k _ => rfl
  exact {
    main := hok
    serial := by rw [hmain, hissued]; simp [GameParams.init]
    tokens := by
      unfold Game.tokens Custody.all
      rw [hheld]
      exact .refl _
    queuedJob := fun job h => by simp [GameParams.init] at h
    heldJob := fun k job h => by cases h
    earlier := fun a h => by rw [hmain, hbase] at h; simp at h
    counter := by rw [hmain, hbase]; simp [GameParams.init]
    passed := fun gen h => by
      rw [hmain] at h
      unfold GameParams.enter at h
      split_ifs at h
    grouped := fun i a h => by simp [GameParams.init] at h
    currMatrix := by rw [hmain, hshown]; rfl
    nextMatrix := by rw [hmain, hshown]; rfl }

namespace Accounts

theorem nodup (hs : Accounts p s) : (s.tokens p).Nodup :=
  hs.tokens.nodup_iff.mpr List.nodup_range

theorem length (hs : Accounts p s) : (s.tokens p).length = s.serial := by
  rw [hs.tokens.length_eq, List.length_range]

theorem serial_le (hs : Accounts p s) :
    s.serial ≤ p.base s.main * p.threadNum + p.threadNum := by
  rw [hs.serial]
  cases s.main <;> simp only [GameParams.issued, GameParams.base, Nat.succ_mul] <;> omega

/-- Past the busy-wait every job has been counted. -/
theorem counted_all (hs : Accounts p s) (h : GameParams.Settled s.main) : s.serial ≤ s.counted.length := by
  have hcounter := hs.counter
  rw [hs.serial]
  cases hm : s.main with
  | push => simp [hm, GameParams.Settled] at h
  | wait => simp [hm, GameParams.Settled] at h
  | reset gen =>
    rw [hm, hs.passed gen hm] at hcounter
    exact hcounter.ge
  | _ =>
    rw [hm] at hcounter
    simp only [GameParams.base, GameParams.issued, Nat.succ_mul] at hcounter ⊢
    omega

theorem idle (hs : Accounts p s) (h : GameParams.Settled s.main) :
    Custody.holders p.threadNum s.held = [] ∧ s.queued = [] :=
  Custody.all_done hs.length (hs.counted_all h)

theorem tokens_settled (hs : Accounts p s) (h : GameParams.Settled s.main) : s.tokens p = s.counted := by
  obtain ⟨hheld, hq⟩ := hs.idle h
  unfold Game.tokens Custody.all
  rw [hheld, hq]
  simp

theorem mem_counted (hs : Accounts p s) (h : GameParams.Settled s.main) {a : ℕ} (ha : a < s.serial) :
    a ∈ s.counted :=
  hs.tokens_settled h ▸ hs.tokens.mem_iff.mpr (List.mem_range.mpr ha)

/-- The job that main makes next. -/
theorem newJob_eq (hs : Accounts p s) (hp : p.Valid) {gen i lineCounter : ℕ}
    (hm : s.main = .push gen i lineCounter) {endingLine : ℕ}
    (hend : endingLine = p.endingLine (p.threadNum - i)) :
    s.newJob p lineCounter endingLine = p.job s.serial := by
  obtain ⟨-, ⟨hi, hin⟩, hline⟩ : _ ∧ _ ∧ _ := hm ▸ hs.main
  have hn := hp.threadNum_pos
  have hserial : s.serial = gen * p.threadNum + (p.threadNum - i) := by
    rw [hs.serial, hm]
    rfl
  have hdiv : s.serial / p.threadNum = gen := by
    rw [hserial, Nat.add_comm, Nat.add_mul_div_right _ _ hn, Nat.div_eq_of_lt (by omega), Nat.zero_add]
  have hmod : s.serial % p.threadNum = p.threadNum - i := by
    rw [hserial, Nat.add_comm, Nat.add_mul_mod_self_right, Nat.mod_eq_of_lt (by omega)]
  have hcurr : s.currMatrix = decide (gen % 2 = 1) := by rw [hs.currMatrix, hm]; rfl
  have hnext : s.nextMatrix = decide (gen % 2 = 0) := by rw [hs.nextMatrix, hm]; rfl
  simp only [Game.newJob, GameParams.job, hdiv, hmod, hcurr, hnext, hline, hend]

/-- Pushing a job: the places of the others stay. -/
theorem tokens_push {job : Job} {main : MainPc} {serial : ℕ}
    (h : (s.tokens p).Perm (List.range s.serial)) (hjob : job.serial = s.serial) :
    ({ s.push (some job) with serial := serial, main := main }.tokens p).Perm
      (List.range (s.serial + 1)) := by
  have hq : { s.push (some job) with serial := serial, main := main }.queued = s.queued ++ [s.serial] := by
    simp [Game.queued, Game.push, hjob]
  have ht := Custody.all_push p.threadNum s.counted s.queued s.held s.serial
  rw [List.range_succ]
  unfold Game.tokens at h ⊢
  rw [hq]
  exact ht ▸ h.append_right [s.serial]

/-- A step of main that makes no job. -/
theorem advance (hs : Accounts p s) (hw : t.workers = s.workers) (hcounted : t.counted = s.counted)
    (hqueued : t.queued = s.queued) (hpcq : ∀ job, some job ∈ t.pcq → some job ∈ s.pcq)
    (hserial : t.serial = s.serial) (hok : p.MainOk t.main) (hissued : p.issued t.main = p.issued s.main)
    (hbase : p.base t.main = p.base s.main ∨ GameParams.Settled s.main)
    (hcounter : t.counted.length = p.base t.main * p.threadNum + t.finishedThreadCounter)
    (hpassed : ∀ gen, t.main = .reset gen → t.finishedThreadCounter = p.threadNum)
    (hcurr : t.currMatrix = decide (p.shown t.main % 2 = 1))
    (hnext : t.nextMatrix = decide (p.shown t.main % 2 = 0)) : Accounts p t where
  main := hok
  serial := hserial.trans (hs.serial.trans hissued.symm)
  tokens := by
    have hheld : t.held = s.held := by
      unfold Game.held
      rw [hw]
    unfold Game.tokens
    rw [hcounted, hheld, hqueued, hserial]
    exact hs.tokens
  queuedJob job hjob := hs.queuedJob job (hpcq job hjob)
  heldJob k job hjob := hs.heldJob k job (hw ▸ hjob)
  earlier a ha := by
    rw [hcounted]
    rcases hbase with hbase | hset
    · exact hs.earlier a (hbase ▸ ha)
    · -- Everything has been counted, and the new generation starts behind it.
      have hlen := hs.length
      rw [hs.tokens_settled hset, ← hcounted, hcounter] at hlen
      exact hs.mem_counted hset (by omega)
  counter := hcounter
  passed := hpassed
  grouped := hcounted ▸ hs.grouped
  currMatrix := hcurr
  nextMatrix := hnext

/-- A step of main that makes job `serial`. -/
theorem issue (hs : Accounts p s) {gen i lineCounter endingLine : ℕ} {main : MainPc}
    (hpc : s.main = .push gen i lineCounter)
    (hjob : s.newJob p lineCounter endingLine = p.job s.serial)
    (hok : p.MainOk main) (hissued : p.issued main = p.issued s.main + 1)
    (hbase : p.base main = gen) (hshown : p.shown main = gen) (hreset : ∀ gen, main ≠ .reset gen) :
    Accounts p { s.push (some (s.newJob p lineCounter endingLine)) with
      serial := s.serial + 1, main := main } where
  main := hok
  serial := by rw [hissued, ← hs.serial]
  tokens := tokens_push hs.tokens rfl
  queuedJob job hmem := by
    rcases List.mem_append.mp hmem with hmem | hmem
    · exact hs.queuedJob job hmem
    · obtain rfl := Option.some.inj (List.mem_singleton.mp hmem)
      exact hjob
  heldJob := hs.heldJob
  earlier a ha := hs.earlier a (by rw [hpc]; exact hbase ▸ ha)
  counter := by
    have hcounter := hs.counter
    rw [hpc] at hcounter
    rw [hbase]
    exact hcounter
  passed gen h := absurd h (hreset gen)
  grouped := hs.grouped
  currMatrix := by
    have hcurr := hs.currMatrix
    rw [hpc] at hcurr
    rw [hshown]
    exact hcurr
  nextMatrix := by
    have hnext := hs.nextMatrix
    rw [hpc] at hnext
    rw [hshown]
    exact hnext

theorem mainMove (hs : Accounts p s) (hp : p.Valid) (h : MainMove p s t) : Accounts p t := by
  have hw := h.workers
  have hok := hs.main
  have hcounter := hs.counter
  have hcurr := hs.currMatrix
  have hnext := hs.nextMatrix
  cases h with
  | pushJob gen i lineCounter hi hpc =>
    obtain ⟨hgen, ⟨hi1, hin⟩, hline⟩ : _ ∧ _ ∧ _ := hpc ▸ hok
    have hend : lineCounter + p.divider - 1 = p.endingLine (p.threadNum - i) := by
      unfold GameParams.endingLine
      rw [if_neg (by omega), hline]
      rfl
    have hnextline : lineCounter + p.divider = p.startingLine (p.threadNum - (i - 1)) := by
      have hsub : p.threadNum - (i - 1) = p.threadNum - i + 1 := by omega
      rw [hline, hsub]
      unfold GameParams.startingLine
      rw [Nat.succ_mul]
    refine hs.issue hpc (hs.newJob_eq hp hpc hend) ⟨hgen, ⟨by omega, by omega⟩, hnextline⟩ ?_ rfl rfl (by simp)
    rw [hpc]
    simp only [GameParams.issued]
    omega
  | pushLast gen i lineCounter hi hpc =>
    obtain ⟨hgen, ⟨hi1, hin⟩, hline⟩ : _ ∧ _ ∧ _ := hpc ▸ hok
    have hend : p.inputHeight - 1 = p.endingLine (p.threadNum - i) := by
      unfold GameParams.endingLine
      rw [if_pos (by omega)]
    refine hs.issue hpc (hs.newJob_eq hp hpc hend) hgen ?_ rfl rfl (by simp)
    rw [hpc]
    simp only [GameParams.issued]
    omega
  | spin => exact hs
  | pass gen hn hpc =>
    rw [hpc] at hok hcounter hcurr hnext
    exact hs.advance rfl rfl rfl (fun _ => id) rfl hok (by rw [hpc]; rfl) (.inl (by rw [hpc]; rfl))
      hcounter (fun _ _ => hn) hcurr hnext
  | reset gen hpc =>
    have hpass := hs.passed gen hpc
    have hset : GameParams.Settled s.main := by rw [hpc]; trivial
    rw [hpc] at hok hcounter hcurr hnext
    refine hs.advance rfl rfl rfl (fun _ => id) rfl hok (by rw [hpc]; rfl) (.inr hset) ?_ (by simp) hcurr hnext
    rw [hcounter, hpass]
    simp only [GameParams.base, Nat.succ_mul, Nat.add_zero]
  | swap gen hpc =>
    have hset : GameParams.Settled s.main := by rw [hpc]; trivial
    rw [hpc] at hok hcounter hcurr hnext
    refine hs.advance rfl rfl rfl (fun _ => id) rfl hok (by rw [hpc]; rfl) (.inl (by rw [hpc]; rfl))
      hcounter (by simp) (hnext.trans (decide_eq_decide.mpr ?_)) (hcurr.trans (decide_eq_decide.mpr ?_))
    · simp only [GameParams.shown]
      omega
    · simp only [GameParams.shown]
      omega
  | lock gen hfree hpc =>
    rw [hpc] at hok hcounter hcurr hnext
    exact hs.advance rfl rfl rfl (fun _ => id) rfl hok (by rw [hpc]; rfl) (.inl (by rw [hpc]; rfl))
      hcounter (by simp) hcurr hnext
  | unlock gen hpc =>
    rw [hpc] at hok hcounter hcurr hnext
    obtain ⟨hbase, hshown, hissued, hok'⟩ := enter_spec hp (show gen + 1 ≤ p.nGen from hok)
    refine hs.advance rfl rfl rfl (fun _ => id) rfl hok' ?_ (.inl ?_) ?_ ?_ ?_ ?_
    · rw [hissued, hpc, Nat.succ_mul]
      rfl
    · rw [hbase, hpc]
      rfl
    · rw [hbase]
      exact hcounter
    · intro gen' h
      simp only [GameParams.enter] at h
      split_ifs at h
    · rw [hshown]
      exact hcurr
    · rw [hshown]
      exact hnext
  | pushNull i hpc =>
    rw [hpc] at hcounter hcurr hnext
    refine hs.advance rfl rfl ?_ ?_ rfl trivial (by rw [hpc]; rfl) (.inl (by rw [hpc]; rfl))
      hcounter (by simp) hcurr hnext
    · simp [Game.queued, Game.push]
    · intro job hmem
      simpa [Game.push] using hmem
  | _ =>
    rename_i hpc
    rw [hpc] at hcounter hcurr hnext
    exact hs.advance rfl rfl rfl (fun _ => id) rfl trivial (by rw [hpc]; rfl) (.inl (by rw [hpc]; rfl))
      hcounter (by simp) hcurr hnext

end Accounts

/-- What a step of a worker does with the jobs: nothing, the first item of the
queue into its hands, or the job in its hands to those counted. -/
theorem WorkerMove.custody {k calcTime : ℕ} (h : WorkerMove s k calcTime t)
    (hleave : ∀ job, s.workers k = .check (some job) → s.finished ≠ true) :
    (t.counted = s.counted ∧ t.pcq = s.pcq ∧ t.finishedThreadCounter = s.finishedThreadCounter ∧
      (t.workers k).heldJob = (s.workers k).heldJob) ∨
    (∃ item, t.counted = s.counted ∧ s.pcq = item :: t.pcq ∧
      t.finishedThreadCounter = s.finishedThreadCounter ∧
      (s.workers k).heldJob = none ∧ (t.workers k).heldJob = item) ∨
    (∃ job loaded, s.workers k = .store job loaded ∧ t.counted = s.counted ++ [job.serial] ∧
      t.pcq = s.pcq ∧ t.finishedThreadCounter = loaded + 1 ∧ (t.workers k).heldJob = none) := by
  cases h with
  | pop item items hq hpc => exact .inr (.inl ⟨item, rfl, hq, rfl, by simp [hpc, WorkerPc.heldJob],
      by simp [WorkerPc.heldJob]⟩)
  | leave job hfin hpc =>
    cases job with
    | none => exact .inl ⟨rfl, rfl, rfl, by simp [hpc, WorkerPc.heldJob]⟩
    | some job => exact absurd hfin (hleave job hpc)
  | store job loaded hpc =>
    exact .inr (.inr ⟨job, loaded, hpc, rfl, rfl, rfl, by simp [WorkerPc.heldJob]⟩)
  | _ =>
    rename_i hpc
    exact .inl ⟨rfl, rfl, rfl, by simp [hpc, WorkerPc.heldJob]⟩

/-- The parts of a step of a worker that main and the queue's other end do not see. -/
theorem WorkerMove.frame {k calcTime : ℕ} (h : WorkerMove s k calcTime t) :
    t.main = s.main ∧ t.serial = s.serial ∧ t.currMatrix = s.currMatrix ∧ t.nextMatrix = s.nextMatrix := by
  cases h <;> exact ⟨rfl, rfl, rfl, rfl⟩

namespace Accounts

/-- A worker that finds the flag set does not hold a job. -/
theorem no_leave (hs : Accounts p s) (hflag : s.finished = true → s.main.Closing) {k : ℕ}
    (hk : k < p.threadNum) (job : Job) (hpc : s.workers k = .check (some job)) : s.finished ≠ true := by
  intro hfin
  have hset : GameParams.Settled s.main := by
    have hclose := hflag hfin
    cases hm : s.main <;> simp_all [MainPc.Closing, GameParams.Settled]
  have hmem : job.serial ∈ Custody.holders p.threadNum s.held :=
    Custody.mem_holders.mpr ⟨k, hk, by simp [Game.held, hpc, WorkerPc.heldJob]⟩
  rw [(hs.idle hset).1] at hmem
  simp at hmem

/-- The token that leaves a worker's hands belongs to the generation that is counted. -/
theorem held_bounds (hs : Accounts p s) {k a : ℕ} (hk : k < p.threadNum) (ha : s.held k = some a) :
    a ∉ s.counted ∧ p.base s.main * p.threadNum ≤ a ∧ a < s.serial ∧ s.counted.length < s.serial := by
  have hmem : a ∈ Custody.holders p.threadNum s.held := Custody.mem_holders.mpr ⟨k, hk, ha⟩
  have htoken : a ∈ s.tokens p := List.mem_append_right _ (List.mem_append_left _ hmem)
  have hnot : a ∉ s.counted := fun hc =>
    (List.nodup_append.mp hs.nodup).2.2 a hc a (List.mem_append_left _ hmem) rfl
  refine ⟨hnot, Nat.le_of_not_lt fun hlt => hnot (hs.earlier a hlt), ?_, ?_⟩
  · exact List.mem_range.mp (hs.tokens.mem_iff.mp htoken)
  · have hpos := List.length_pos_of_mem hmem
    rw [← hs.length]
    simp only [Game.tokens, Custody.all, List.length_append]
    omega

/-- The job that is counted belongs to the generation of its place among those counted. -/
theorem grouped_append (hs : Accounts p s) {k a : ℕ} (hk : k < p.threadNum)
    (ha : s.held k = some a) {i b : ℕ} (hi : (s.counted ++ [a])[i]? = some b) :
    b / p.threadNum = i / p.threadNum := by
  obtain ⟨-, hlow, hhigh, hlen⟩ := hs.held_bounds hk ha
  have hle := hs.serial_le
  have hcount := hs.counter
  rw [List.getElem?_append] at hi
  split_ifs at hi with hlt
  · exact hs.grouped i b hi
  · obtain ⟨rfl, rfl⟩ : i = s.counted.length ∧ a = b := by
      rw [List.getElem?_singleton] at hi
      split_ifs at hi with hzero
      exact ⟨by omega, Option.some.inj hi⟩
    have hdiv : ∀ x, p.base s.main * p.threadNum ≤ x →
        x < p.base s.main * p.threadNum + p.threadNum → x / p.threadNum = p.base s.main :=
      fun x h1 h2 => Nat.div_eq_of_lt_le h1 (by rw [Nat.succ_mul]; exact h2)
    rw [hdiv a hlow (by omega), hdiv s.counted.length (by omega) (by omega)]

variable {k calcTime : ℕ}

theorem held_others (h : WorkerMove s k calcTime t) (l : ℕ) (hl : l ≠ k) : t.held l = s.held l := by
  unfold Game.held
  rw [h.others hl]

theorem held_same (h : WorkerMove s k calcTime t) (hheld : (t.workers k).heldJob = (s.workers k).heldJob) :
    t.held = s.held := by
  funext l
  rcases eq_or_ne l k with rfl | hne
  · unfold Game.held
    rw [hheld]
  · exact held_others h l hne

/-- The first item of the queue goes into the hands of the worker. -/
theorem tokens_take (h : WorkerMove s k calcTime t) (hk : k < p.threadNum) {item : Option Job}
    (hcounted : t.counted = s.counted) (hpcq : s.pcq = item :: t.pcq)
    (hfree : (s.workers k).heldJob = none) (htake : (t.workers k).heldJob = item) :
    (t.tokens p).Perm (s.tokens p) := by
  unfold Game.tokens Game.queued
  rw [hcounted, hpcq]
  cases item with
  | none => rw [held_same h (htake.trans hfree.symm), List.filterMap_cons_none rfl]
  | some job =>
    have hcons : (some job :: t.pcq).filterMap (Option.map Job.serial) =
        job.serial :: t.pcq.filterMap (Option.map Job.serial) := rfl
    rw [hcons]
    refine Custody.all_take hk ?_ ?_ (held_others h)
    · unfold Game.held
      rw [hfree]
      rfl
    · unfold Game.held
      rw [htake]
      rfl

/-- A step of a worker that counts the jobs `more`. -/
theorem ofWorker (hs : Accounts p s) (h : WorkerMove s k calcTime t)
    (htokens : (t.tokens p).Perm (s.tokens p)) (hqueued : ∀ job, some job ∈ t.pcq → some job ∈ s.pcq)
    (hheld : ∀ job, (t.workers k).heldJob = some job → job = p.job job.serial) {more : List ℕ}
    (hcounted : t.counted = s.counted ++ more)
    (hcounter : t.finishedThreadCounter = s.finishedThreadCounter + more.length)
    (hpassed : ∀ gen, s.main = .reset gen → more = [])
    (hgrouped : ∀ i a, t.counted[i]? = some a → a / p.threadNum = i / p.threadNum) : Accounts p t := by
  obtain ⟨hmain, hserial, hcurr, hnext⟩ := h.frame
  refine ⟨hmain ▸ hs.main, hserial.trans (hs.serial.trans (congrArg p.issued hmain.symm)), ?_,
    fun job hjob => hs.queuedJob job (hqueued job hjob), fun l job hl => ?_, fun a ha => ?_, ?_,
    fun gen hgen => ?_, hgrouped, hcurr.trans (hmain ▸ hs.currMatrix), hnext.trans (hmain ▸ hs.nextMatrix)⟩
  · rw [hserial]
    exact htokens.trans hs.tokens
  · rcases eq_or_ne l k with rfl | hne
    · exact hheld job hl
    · exact hs.heldJob l job (h.others hne ▸ hl)
  · rw [hcounted]
    exact List.mem_append_left _ (hs.earlier a (hmain ▸ ha))
  · rw [hmain, hcounted, List.length_append, hcounter, hs.counter, Nat.add_assoc]
  · rw [hmain] at hgen
    rw [hcounter, hpassed gen hgen]
    exact hs.passed gen hgen

theorem workerMove (hs : Accounts p s) (hx : Exclusion s) (hk : k < p.threadNum)
    (hflag : s.finished = true → s.main.Closing) (h : WorkerMove s k calcTime t) : Accounts p t := by
  rcases h.custody (hs.no_leave hflag hk) with ⟨hcounted, hpcq, hcounter, hheld⟩ |
    ⟨item, hcounted, hpcq, hcounter, hfree, htake⟩ | ⟨job, loaded, hpc, hcounted, hpcq, hcounter, hfree⟩
  · refine hs.ofWorker h ?_ (fun job => hpcq ▸ id) (fun job hl => hs.heldJob k job (hheld ▸ hl))
      (hcounted.trans (List.append_nil _).symm) hcounter (fun _ _ => rfl) (hcounted ▸ hs.grouped)
    unfold Game.tokens Game.queued
    rw [hcounted, hpcq, held_same h hheld]
  · have hqueued : ∀ job, some job ∈ t.pcq → some job ∈ s.pcq := fun job hjob => by
      rw [hpcq]
      exact List.mem_cons_of_mem _ hjob
    refine hs.ofWorker h (tokens_take h hk hcounted hpcq hfree htake) hqueued (fun job hl => ?_)
      (hcounted.trans (List.append_nil _).symm) hcounter (fun _ _ => rfl) (hcounted ▸ hs.grouped)
    refine hs.queuedJob job ?_
    rw [hpcq, ← htake, hl]
    exact List.mem_cons_self
  · have hheld : s.held k = some job.serial := by
      unfold Game.held
      rw [hpc]
      rfl
    have hlen := (hs.held_bounds hk hheld).2.2.2
    have hloaded := hx.loaded k job loaded hpc
    refine hs.ofWorker h ?_ (fun job => hpcq ▸ id) (fun job' hl => ?_) hcounted
      (hcounter.trans (congrArg (· + 1) hloaded)) (fun gen hgen => ?_)
      (hcounted ▸ fun i b hi => hs.grouped_append hk hheld hi)
    · unfold Game.tokens Game.queued
      rw [hcounted, hpcq]
      refine Custody.all_finish hk hheld ?_ (held_others h)
      unfold Game.held
      rw [hfree]
      rfl
    · rw [hfree] at hl
      cases hl
    · -- Main does not clear the counter while a job is held.
      have hset : GameParams.Settled s.main := by
        rw [hgen]
        trivial
      exact absurd (hs.counted_all hset) (Nat.not_le_of_lt hlen)

end Accounts

end OperationSystems.Life
