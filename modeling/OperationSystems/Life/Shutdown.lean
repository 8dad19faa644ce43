import OperationSystems.Life.Moves

/-!
# The flag, the null pointers and the lock

Null pointers are pushed behind the flag, so a worker that pops one finds the
flag set and leaves its loop. The global lock has one owner, and a load is still
the value of the counter when it is stored.
-/

namespace OperationSystems.Life

variable {p : GameParams} {s t : Game}

@[simp] theorem setWorker_workers (s : Game) (k l : ℕ) (pc : WorkerPc) :
    (s.setWorker k pc).workers l = if l = k then pc else s.workers l := by
  simp [Game.setWorker, Function.update_apply]

@[simp] theorem writeCell_workers (s : Game) (k l : ℕ) (job : Job) (line cell : ℕ) :
    (s.writeCell k job line cell).workers l =
      if l = k then .work job line (cell + 1) else s.workers l :=
  setWorker_workers s k l _

/-- Main has set the flag. -/
def MainPc.Closing : MainPc → Prop
  | .pushNull _ | .join _ | .done => True
  | _ => False

/-- The workers below this number have been joined. -/
def MainPc.joined (p : GameParams) : MainPc → ℕ
  | .join i => min i p.threadNum
  | .done => p.threadNum
  | _ => 0

def WorkerPc.Left (pc : WorkerPc) : Prop := pc = .lastLock ∨ pc = .lastUnlock ∨ pc = .exited

structure Shutdown (p : GameParams) (s : Game) : Prop where
  flag : s.finished = true ↔ s.main.Closing
  null : none ∈ s.pcq → s.finished = true
  check : ∀ k, s.workers k = .check none → s.finished = true
  noFault : ∀ k, s.workers k ≠ .fault
  left : ∀ k, (s.workers k).Left → s.finished = true
  outside : ∀ k, p.threadNum ≤ k → s.workers k = .pop
  joined : ∀ k < s.main.joined p, s.workers k = .exited

theorem enter_closing (p : GameParams) (gen : ℕ) : ¬ (p.enter gen).Closing := by
  unfold GameParams.enter
  split_ifs <;> exact not_false

theorem enter_joined (p : GameParams) (gen : ℕ) : (p.enter gen).joined p = 0 := by
  unfold GameParams.enter
  split_ifs <;> rfl

theorem shutdown_init (p : GameParams) (board : BoolMat) : Shutdown p (p.init board) where
  flag := by simpa [GameParams.init] using enter_closing p 0
  null := by simp [GameParams.init]
  check k h := by cases h
  noFault k h := by cases h
  left k h := by rcases h with h | h | h <;> cases h
  outside k _ := rfl
  joined k hk := by
    rw [show (p.init board).main.joined p = 0 from enter_joined p 0] at hk
    exact absurd hk (Nat.not_lt_zero k)

/-- A step of main leaves the workers alone. -/
theorem MainMove.workers (h : MainMove p s t) : t.workers = s.workers := by
  cases h <;> rfl

theorem Shutdown.mainMove (hs : Shutdown p s) (h : MainMove p s t) : Shutdown p t := by
  have hw := h.workers
  have hflag : t.finished = true ↔ t.main.Closing := by
    have hf := hs.flag
    cases h with
    | spin => exact hf
    | unlock gen hpc =>
      rw [hpc] at hf
      exact hf.trans (iff_of_false not_false (enter_closing p (gen + 1)))
    | finish => exact iff_of_true rfl trivial
    | _ =>
      rename_i hpc
      rw [hpc] at hf
      exact hf
  have hkeep : s.finished = true → t.finished = true := by
    cases h with
    | finish => exact fun _ => rfl
    | _ => exact id
  have hnull : none ∈ t.pcq → none ∈ s.pcq ∨ t.finished = true := by
    cases h with
    | pushJob | pushLast =>
      intro hmem
      left
      simpa [Game.push] using hmem
    | pushNull i hpc =>
      intro _
      right
      exact hs.flag.mpr (hpc ▸ trivial)
    | _ => exact Or.inl
  have hjoined : ∀ k < t.main.joined p, k < s.main.joined p ∨ s.workers k = .exited := by
    intro k hk
    cases h with
    | pushJob | pushLast | pass | reset | swap | lock | finish | pushNull =>
      exact absurd hk (Nat.not_lt_zero k)
    | spin => exact .inl hk
    | unlock gen => exact absurd (enter_joined p (gen + 1) ▸ hk) (Nat.not_lt_zero k)
    | startJoin => exact absurd hk (by simp [MainPc.joined])
    | join i hi hexit hpc =>
      rcases Nat.lt_or_ge k i with hlt | hge
      · left
        rw [hpc]
        exact Nat.lt_min.mpr ⟨hlt, Nat.lt_trans hlt hi⟩
      · right
        obtain rfl : k = i := Nat.le_antisymm (Nat.le_of_lt_succ (Nat.lt_min.mp hk).1) hge
        exact hexit
    | done i hi hpc =>
      left
      rw [hpc]
      exact Nat.lt_min.mpr ⟨Nat.lt_of_lt_of_le hk hi, hk⟩
  exact {
    flag := hflag
    null := fun h => (hnull h).elim (fun h => hkeep (hs.null h)) id
    check := fun k hk => hkeep (hs.check k (hw ▸ hk))
    noFault := fun k hk => hs.noFault k (hw ▸ hk)
    left := fun k hk => hkeep (hs.left k (hw ▸ hk))
    outside := fun k hk => hw ▸ hs.outside k hk
    joined := fun k hk => hw ▸ (hjoined k hk).elim (hs.joined k) id }

/-- A step of a worker leaves main and the flag alone. -/
theorem WorkerMove.main {k calcTime : ℕ} (h : WorkerMove s k calcTime t) :
    t.main = s.main ∧ t.finished = s.finished := by
  cases h <;> exact ⟨rfl, rfl⟩

/-- A step of a worker leaves the other workers alone. -/
theorem WorkerMove.others {k calcTime : ℕ} (h : WorkerMove s k calcTime t) {l : ℕ} (hl : l ≠ k) :
    t.workers l = s.workers l := by
  cases h <;> exact Function.update_of_ne hl _ _

theorem Shutdown.workerMove {k calcTime : ℕ} (hs : Shutdown p s) (hk : k < p.threadNum)
    (h : WorkerMove s k calcTime t) : Shutdown p t := by
  obtain ⟨hmain, hsame⟩ := h.main
  have hnull : none ∈ t.pcq → none ∈ s.pcq := by
    cases h with
    | pop item items hq =>
      intro hmem
      rw [hq]
      exact List.mem_cons_of_mem item hmem
    | _ => exact id
  have hown : (t.workers k = .check none → s.finished = true) ∧ t.workers k ≠ .fault ∧
      ((t.workers k).Left → s.finished = true) := by
    cases h with
    | pop item items hq =>
      refine ⟨fun hc => hs.null ?_, by simp, by simp [WorkerPc.Left]⟩
      simp only [setWorker_workers, if_pos, WorkerPc.check.injEq] at hc
      simp [hq, hc]
    | leave job hfin => exact ⟨by simp, by simp, fun _ => hfin⟩
    | null hfin hpc => exact absurd (hs.check k hpc) hfin
    | lastLock hfree hpc => exact ⟨by simp, by simp, fun _ => hs.left k (.inl hpc)⟩
    | lastUnlock hpc => exact ⟨by simp, by simp, fun _ => hs.left k (.inr (.inl hpc))⟩
    | _ => simp [WorkerPc.Left]
  have hexit : s.workers k ≠ .exited := by
    intro hexit
    cases h <;> simp_all only [reduceCtorEq]
  refine ⟨hsame ▸ hmain ▸ hs.flag, fun h => hsame ▸ hs.null (hnull h), fun l hl => ?_, fun l => ?_,
    fun l hl => ?_, fun l hl => ?_, fun l hl => ?_⟩
  · rcases eq_or_ne l k with rfl | hne
    · exact hsame ▸ hown.1 hl
    · exact hsame ▸ hs.check l (h.others hne ▸ hl)
  · rcases eq_or_ne l k with rfl | hne
    · exact hown.2.1
    · exact h.others hne ▸ hs.noFault l
  · rcases eq_or_ne l k with rfl | hne
    · exact hsame ▸ hown.2.2 hl
    · exact hsame ▸ hs.left l (h.others hne ▸ hl)
  · exact h.others (Nat.ne_of_gt (Nat.lt_of_lt_of_le hk hl)) ▸ hs.outside l hl
  · have hold := hs.joined l (hmain ▸ hl)
    exact (h.others fun hlk => hexit (hlk ▸ hold)) ▸ hold

/-- Who has taken the global lock and not yet given it back. -/
def WorkerPc.Inside : WorkerPc → Prop
  | .load _ | .store _ _ | .append _ | .unlock | .lastUnlock => True
  | _ => False

structure Exclusion (s : Game) : Prop where
  worker : ∀ k, (s.workers k).Inside ↔ s.globalLock = some (.worker k)
  main : (∃ gen, s.main = .unlock gen) ↔ s.globalLock = some .main
  loaded : ∀ k job loaded, s.workers k = .store job loaded → loaded = s.finishedThreadCounter

theorem exclusion_init (p : GameParams) (board : BoolMat) : Exclusion (p.init board) where
  worker k := iff_of_false not_false (fun h => by cases h)
  main := by
    refine iff_of_false ?_ (fun h => by cases h)
    rintro ⟨gen, hgen⟩
    simp only [GameParams.init, GameParams.enter] at hgen
    split_ifs at hgen
  loaded k job loaded h := by cases h

theorem enter_ne_unlock (p : GameParams) (gen gen' : ℕ) : p.enter gen ≠ .unlock gen' := by
  unfold GameParams.enter
  split_ifs <;> simp

/-- The counter is cleared when no worker is about to store to it. -/
theorem Exclusion.mainMove (hs : Exclusion s) (h : MainMove p s t)
    (hidle : ∀ gen, s.main = .reset gen → ∀ k job loaded, s.workers k ≠ .store job loaded) :
    Exclusion t := by
  have hw := h.workers
  have hcounter : ∀ k job loaded, t.workers k = .store job loaded →
      t.finishedThreadCounter = s.finishedThreadCounter := by
    intro k job loaded hst
    cases h with
    | reset gen hpc => exact absurd hst (hidle gen hpc k job loaded)
    | _ => rfl
  have hlock : ∀ k, t.globalLock = some (.worker k) ↔ s.globalLock = some (.worker k) := by
    intro k
    cases h with
    | lock gen hfree => simp [hfree]
    | unlock gen hpc => simp [hs.main.mp ⟨gen, hpc⟩]
    | _ => exact Iff.rfl
  have hmain : (∃ gen, t.main = .unlock gen) ↔ t.globalLock = some .main := by
    have hm := hs.main
    cases h with
    | spin => exact hm
    | lock gen => exact iff_of_true ⟨gen, rfl⟩ rfl
    | unlock gen => exact iff_of_false (fun ⟨gen', h'⟩ => enter_ne_unlock p (gen + 1) gen' h') (by simp)
    | _ =>
      rename_i hpc
      simp only [hpc, reduceCtorEq, exists_const, false_iff] at hm
      exact iff_of_false (by simp) hm
  exact {
    worker := fun k => hw ▸ (hs.worker k).trans (hlock k).symm
    main := hmain
    loaded := fun k job loaded hst => (hs.loaded k job loaded (hw ▸ hst)).trans
      (hcounter k job loaded hst).symm }

/-- A worker stays on its side of the lock, takes it or gives it back. -/
theorem WorkerMove.lockChange {k calcTime : ℕ} (h : WorkerMove s k calcTime t) :
    (t.globalLock = s.globalLock ∧ ((t.workers k).Inside ↔ (s.workers k).Inside)) ∨
    (s.globalLock = none ∧ t.globalLock = some (.worker k) ∧ (t.workers k).Inside) ∨
    ((s.workers k).Inside ∧ t.globalLock = none ∧ ¬ (t.workers k).Inside) := by
  cases h with
  | lock job hfree => exact .inr (.inl ⟨hfree, rfl, by simp [WorkerPc.Inside]⟩)
  | lastLock hfree => exact .inr (.inl ⟨hfree, rfl, by simp [WorkerPc.Inside]⟩)
  | unlock hpc => exact .inr (.inr ⟨by simp [hpc, WorkerPc.Inside], rfl, by simp [WorkerPc.Inside]⟩)
  | lastUnlock hpc => exact .inr (.inr ⟨by simp [hpc, WorkerPc.Inside], rfl, by simp [WorkerPc.Inside]⟩)
  | _ =>
    rename_i hpc
    exact .inl ⟨rfl, by simp [hpc, WorkerPc.Inside]⟩

/-- Only a store writes to the counter. -/
theorem WorkerMove.counterChange {k calcTime : ℕ} (h : WorkerMove s k calcTime t) :
    t.finishedThreadCounter = s.finishedThreadCounter ∨ (s.workers k).Inside := by
  cases h with
  | store job loaded hpc => exact .inr (by simp [hpc, WorkerPc.Inside])
  | _ => exact .inl rfl

theorem WorkerMove.loaded {k calcTime : ℕ} (h : WorkerMove s k calcTime t) {job : Job} {loaded : ℕ}
    (hst : t.workers k = .store job loaded) : loaded = t.finishedThreadCounter := by
  cases h with
  | load job =>
    simp only [setWorker_workers, if_pos, WorkerPc.store.injEq] at hst
    exact hst.2.symm
  | _ => simp at hst

theorem Exclusion.workerMove {k calcTime : ℕ} (hs : Exclusion s) (h : WorkerMove s k calcTime t) :
    Exclusion t := by
  have hlock : ((t.workers k).Inside ↔ t.globalLock = some (.worker k)) ∧
      (∀ l, l ≠ k → (t.globalLock = some (.worker l) ↔ s.globalLock = some (.worker l))) ∧
      (t.globalLock = some .main ↔ s.globalLock = some .main) := by
    rcases h.lockChange with ⟨hsame, hin⟩ | ⟨hfree, htake, hin⟩ | ⟨hin, hfree, hout⟩
    · rw [hsame, hin]
      exact ⟨hs.worker k, fun _ _ => Iff.rfl, Iff.rfl⟩
    · rw [hfree, htake]
      exact ⟨iff_of_true hin rfl, fun l hl => by simp [hl.symm], by simp⟩
    · rw [hfree, (hs.worker k).mp hin]
      exact ⟨iff_of_false hout (by simp), fun l hl => by simp [hl.symm], by simp⟩
  obtain ⟨hown, hothers, hmain⟩ := hlock
  have hinside : ∀ l, l ≠ k → ((t.workers l).Inside ↔ t.globalLock = some (.worker l)) := fun l hl =>
    h.others hl ▸ (hs.worker l).trans (hothers l hl).symm
  refine ⟨fun l => ?_, h.main.1 ▸ hs.main.trans hmain.symm, fun l job loaded hl => ?_⟩
  · rcases eq_or_ne l k with rfl | hne
    · exact hown
    · exact hinside l hne
  · rcases eq_or_ne l k with rfl | hne
    · exact h.loaded hl
    · have hold : s.workers l = .store job loaded := h.others hne ▸ hl
      rcases h.counterChange with hc | hin
      · rw [hc]
        exact hs.loaded l job loaded hold
      · have hlo : s.globalLock = some (.worker l) := (hs.worker l).mp (by simp [hold, WorkerPc.Inside])
        rw [(hs.worker k).mp hin] at hlo
        exact absurd (Owner.worker.inj (Option.some.inj hlo)).symm hne

end OperationSystems.Life
