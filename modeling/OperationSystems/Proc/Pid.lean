import Mathlib

/-!
# The choice of a process id

`get_pid` of `fork.c` for a caller without `CLONE_PID`. It scans the tasks with
the candidate `last_pid` and starts over when one of them uses it. `next_safe`
is the smallest used id above the candidate, so that the ids below it can be
handed out without a scan. `PID_MAX` is the number whose mask the code tests.
-/

namespace OperationSystems.Proc

/-- The fields of `task_struct` that hold process ids. -/
structure Ids where
  pid : ℕ
  pgrp : ℕ
  tgid : ℕ
  session : ℕ
deriving DecidableEq

def pidMax : ℕ := 0x8000

/-- `last_pid & 0xffff8000`. -/
def overflows (lastPid : ℕ) : Prop := lastPid &&& 0xffff8000 ≠ 0

instance (lastPid : ℕ) : Decidable (overflows lastPid) := inferInstanceAs (Decidable (_ ≠ _))

namespace Ids

def Uses (t : Ids) (n : ℕ) : Prop := t.pid = n ∨ t.pgrp = n ∨ t.tgid = n ∨ t.session = n

instance (t : Ids) (n : ℕ) : Decidable (t.Uses n) := inferInstanceAs (Decidable (_ ∨ _))

/-- `next_safe` after one of its four updates. -/
def lower (lastPid id nextSafe : ℕ) : ℕ := if lastPid < id ∧ id < nextSafe then id else nextSafe

def lowerAll (t : Ids) (lastPid nextSafe : ℕ) : ℕ :=
  lower lastPid t.session (lower lastPid t.tgid (lower lastPid t.pgrp (lower lastPid t.pid nextSafe)))

end Ids

/-- The loop over the tasks: whether one of them uses `last_pid`, and `next_safe`. -/
def scanTasks (lastPid : ℕ) : List Ids → ℕ → Bool × ℕ
  | [], nextSafe => (false, nextSafe)
  | t :: ts, nextSafe =>
    if t.Uses lastPid then (true, nextSafe) else scanTasks lastPid ts (t.lowerAll lastPid nextSafe)

/-- `last_pid` and `next_safe` after a candidate that is in use. -/
def advance (lastPid nextSafe : ℕ) : ℕ × ℕ :=
  let lastPid := lastPid + 1
  if nextSafe ≤ lastPid then (if overflows lastPid then 300 else lastPid, pidMax)
  else (lastPid, nextSafe)

/-- From the label `repeat` on: the result with `last_pid` and `next_safe`. -/
def repeatScan (tasks : List Ids) (beginpid : ℕ) : ℕ → ℕ → ℕ → Option (ℕ × ℕ × ℕ)
  | 0, _, _ => none
  | fuel + 1, lastPid, nextSafe =>
    let scan := scanTasks lastPid tasks nextSafe
    if scan.1 then
      let next := advance lastPid scan.2
      if next.1 = beginpid then some (0, next) else repeatScan tasks beginpid fuel next.1 next.2
    else some (lastPid, lastPid, scan.2)

def getPid (tasks : List Ids) (lastPid nextSafe : ℕ) : Option (ℕ × ℕ × ℕ) :=
  let beginpid := lastPid
  let lastPid := lastPid + 1
  if overflows lastPid then repeatScan tasks beginpid pidMax 300 pidMax
  else if nextSafe ≤ lastPid then repeatScan tasks beginpid pidMax lastPid pidMax
  else some (lastPid, lastPid, nextSafe)

theorem overflows_iff {n : ℕ} (h : n ≤ pidMax) : overflows n ↔ n = pidMax := by
  constructor
  · intro ho
    by_contra hne
    have hlt : n < 2 ^ 15 := lt_of_le_of_ne h hne
    refine ho (Nat.eq_of_testBit_eq fun i => ?_)
    rw [Nat.testBit_and, Nat.zero_testBit, show (0xffff8000 : ℕ) = 2 ^ 15 * 0x1ffff by norm_num,
      Nat.testBit_two_pow_mul]
    by_cases hi : 15 ≤ i
    · rw [Nat.testBit_lt_two_pow (hlt.trans_le (Nat.pow_le_pow_right (by norm_num) hi)), Bool.false_and]
    · simp [hi]
  · rintro rfl
    decide

/-- No task uses an id strictly between the two. -/
def Window (tasks : List Ids) (lastPid nextSafe : ℕ) : Prop :=
  ∀ t ∈ tasks, ∀ n, t.Uses n → lastPid < n → nextSafe ≤ n

theorem lower_le (lastPid id nextSafe : ℕ) : Ids.lower lastPid id nextSafe ≤ nextSafe := by
  rw [Ids.lower]
  split <;> omega

theorem lower_le_id {lastPid id : ℕ} (h : lastPid < id) (nextSafe : ℕ) :
    Ids.lower lastPid id nextSafe ≤ id := by
  rw [Ids.lower]
  split <;> omega

theorem lt_lower {lastPid nextSafe : ℕ} (h : lastPid < nextSafe) (id : ℕ) :
    lastPid < Ids.lower lastPid id nextSafe := by
  rw [Ids.lower]
  split <;> omega

theorem lowerAll_le (t : Ids) (lastPid nextSafe : ℕ) : t.lowerAll lastPid nextSafe ≤ nextSafe :=
  (lower_le ..).trans ((lower_le ..).trans ((lower_le ..).trans (lower_le ..)))

theorem lt_lowerAll {lastPid nextSafe : ℕ} (h : lastPid < nextSafe) (t : Ids) :
    lastPid < t.lowerAll lastPid nextSafe :=
  lt_lower (lt_lower (lt_lower (lt_lower h _) _) _) _

theorem lowerAll_le_id {t : Ids} {n lastPid : ℕ} (ht : t.Uses n) (h : lastPid < n) (nextSafe : ℕ) :
    t.lowerAll lastPid nextSafe ≤ n := by
  rcases ht with rfl | rfl | rfl | rfl
  · exact (lower_le ..).trans ((lower_le ..).trans ((lower_le ..).trans (lower_le_id h _)))
  · exact (lower_le ..).trans ((lower_le ..).trans (lower_le_id h _))
  · exact (lower_le ..).trans (lower_le_id h _)
  · exact lower_le_id h _

variable {tasks : List Ids} {lastPid nextSafe safe : ℕ}

theorem scanTasks_le (tasks : List Ids) (lastPid nextSafe : ℕ) :
    (scanTasks lastPid tasks nextSafe).2 ≤ nextSafe := by
  induction tasks generalizing nextSafe with
  | nil => exact le_rfl
  | cons t ts ih =>
    rw [scanTasks]
    split
    · exact le_rfl
    · exact (ih _).trans (lowerAll_le ..)

theorem lt_scanTasks (tasks : List Ids) (h : lastPid < nextSafe) :
    lastPid < (scanTasks lastPid tasks nextSafe).2 := by
  induction tasks generalizing nextSafe with
  | nil => exact h
  | cons t ts ih =>
    rw [scanTasks]
    split
    · exact h
    · exact ih (lt_lowerAll h t)

theorem scanTasks_hit : (scanTasks lastPid tasks nextSafe).1 = true ↔ ∃ t ∈ tasks, t.Uses lastPid := by
  induction tasks generalizing nextSafe with
  | nil => simp [scanTasks]
  | cons t ts ih =>
    by_cases h : t.Uses lastPid
    · simp [scanTasks, h]
    · simp [scanTasks, h, ih]

theorem scanTasks_window (h : (scanTasks lastPid tasks nextSafe).1 = false) :
    Window tasks lastPid (scanTasks lastPid tasks nextSafe).2 := by
  induction tasks generalizing nextSafe with
  | nil =>
    intro t ht
    cases ht
  | cons t ts ih =>
    by_cases hu : t.Uses lastPid
    · simp [scanTasks, hu] at h
    · simp only [scanTasks, hu, if_false] at h ⊢
      intro u hm n hn hlt
      rcases List.mem_cons.mp hm with rfl | hm
      · exact (scanTasks_le ..).trans (lowerAll_le_id hn hlt _)
      · exact ih h u hm n hn hlt

/-- The number of candidates that come after `n`, when the search began at `beginpid`. -/
def remaining (beginpid n : ℕ) : ℕ :=
  if beginpid < n then (pidMax - n) + (beginpid - 300) else beginpid - n

theorem advance_spec {beginpid : ℕ} (hb : 300 ≤ beginpid) (hbm : beginpid < pidMax)
    (hn : 300 ≤ lastPid) (hm : lastPid < pidMax) (hne : lastPid ≠ beginpid) (hs : nextSafe ≤ pidMax)
    (hls : lastPid < nextSafe) :
    300 ≤ (advance lastPid nextSafe).1 ∧ (advance lastPid nextSafe).1 < (advance lastPid nextSafe).2 ∧
      (advance lastPid nextSafe).2 ≤ pidMax ∧
      remaining beginpid (advance lastPid nextSafe).1 + 1 = remaining beginpid lastPid := by
  have ho := overflows_iff (n := lastPid + 1) hm
  have hpm : pidMax = 0x8000 := rfl
  by_cases h1 : nextSafe ≤ lastPid + 1
  · by_cases h2 : overflows (lastPid + 1)
    · simp only [advance, h1, h2, if_true]
      have h3 := ho.mp h2
      refine ⟨by omega, by omega, by omega, ?_⟩
      unfold remaining
      split <;> split <;> omega
    · simp only [advance, h1, h2, if_true, if_false]
      have h3 := mt ho.mpr h2
      refine ⟨by omega, by omega, by omega, ?_⟩
      unfold remaining
      split <;> split <;> omega
  · simp only [advance, h1, if_false]
    refine ⟨by omega, by omega, by omega, ?_⟩
    unfold remaining
    split <;> split <;> omega

/-- The id is `last_pid`, no task uses it, and `next_safe` is right again. -/
structure Chosen (tasks : List Ids) (beginpid : ℕ) (r : ℕ × ℕ × ℕ) : Prop where
  last : r.2.1 = r.1
  pos : 0 < r.1
  lt : r.1 < r.2.2
  safe : r.2.2 ≤ pidMax
  unused : ∀ t ∈ tasks, ¬ t.Uses r.1
  window : Window tasks r.2.1 r.2.2
  low : r.1 < 300 → r.1 = beginpid + 1
  ne : r.1 ≠ beginpid

/-- The label `nomorepids`: all ids of the search are in use, the first one was not looked at. -/
structure Exhausted (tasks : List Ids) (beginpid : ℕ) (r : ℕ × ℕ × ℕ) : Prop where
  pid : r.1 = 0
  last : r.2.1 = beginpid
  low : 300 ≤ beginpid
  lt : beginpid < r.2.2
  safe : r.2.2 ≤ pidMax
  used : ∀ n, 300 ≤ n → n < pidMax → n ≠ beginpid → ∃ t ∈ tasks, t.Uses n
  wrapped : beginpid = 300 → r.2.2 = pidMax

theorem chosen_of_scan {beginpid : ℕ} (hpos : 0 < lastPid) (hls : lastPid < nextSafe)
    (hs : nextSafe ≤ pidMax) (hlow : lastPid < 300 → lastPid = beginpid + 1) (hne : lastPid ≠ beginpid)
    (h : (scanTasks lastPid tasks nextSafe).1 = false) :
    Chosen tasks beginpid (lastPid, lastPid, (scanTasks lastPid tasks nextSafe).2) where
  last := rfl
  pos := hpos
  lt := lt_scanTasks tasks hls
  safe := (scanTasks_le ..).trans hs
  unused := by
    intro t ht hu
    rw [scanTasks_hit.mpr ⟨t, ht, hu⟩] at h
    cases h
  window := scanTasks_window h
  low := hlow
  ne := hne

theorem repeatScan_spec {beginpid fuel : ℕ} (hb : 300 ≤ beginpid) (hbm : beginpid < pidMax)
    (hn : 300 ≤ lastPid) (hne : lastPid ≠ beginpid) (hs : nextSafe ≤ pidMax) (hls : lastPid < nextSafe)
    (hf : remaining beginpid lastPid ≤ fuel)
    (hu : ∀ n, 300 ≤ n → n < pidMax → remaining beginpid lastPid < remaining beginpid n →
      ∃ t ∈ tasks, t.Uses n) :
    ∃ r, repeatScan tasks beginpid fuel lastPid nextSafe = some r ∧
      (Chosen tasks beginpid r ∨ Exhausted tasks beginpid r) := by
  have hpm : pidMax = 0x8000 := rfl
  induction fuel generalizing lastPid nextSafe with
  | zero =>
    unfold remaining at hf
    split at hf <;> omega
  | succ fuel ih =>
    have hscan := lt_scanTasks tasks hls
    have hle := (scanTasks_le tasks lastPid nextSafe).trans hs
    cases hhit : (scanTasks lastPid tasks nextSafe).1 with
    | false =>
      refine ⟨_, by simp only [repeatScan, hhit]; rfl, .inl ?_⟩
      exact chosen_of_scan (by omega) hls hs (by omega) hne hhit
    | true =>
      obtain ⟨h300, hlt, hsafe, hrem⟩ := advance_spec hb hbm hn (by omega) hne hle hscan
      -- the candidate that was just refused joins the ids known to be in use
      have hused : ∀ n, 300 ≤ n → n < pidMax →
          remaining beginpid (advance lastPid (scanTasks lastPid tasks nextSafe).2).1 < remaining beginpid n →
          ∃ t ∈ tasks, t.Uses n := by
        intro n h1 h2 h3
        by_cases he : n = lastPid
        · exact he ▸ scanTasks_hit.mp hhit
        · refine hu n h1 h2 ?_
          have hinj : remaining beginpid n ≠ remaining beginpid lastPid := by
            unfold remaining
            split <;> split <;> omega
          omega
      simp only [repeatScan, hhit, if_true]
      by_cases hend : (advance lastPid (scanTasks lastPid tasks nextSafe).2).1 = beginpid
      · rw [if_pos hend]
        refine ⟨_, rfl, .inr ⟨rfl, hend, hb, hend ▸ hlt, hsafe, ?_, ?_⟩⟩
        · intro n h1 h2 h3
          refine hused n h1 h2 ?_
          rw [hend]
          unfold remaining
          split <;> split <;> omega
        · intro h3
          rw [h3, advance] at hend
          rw [advance]
          split
          · rfl
          · rename_i h4
            rw [if_neg h4] at hend
            simp only at hend
            omega
      · rw [if_neg hend]
        exact ih h300 hend hsafe hlt (by omega) hused

/-- What the calls that scan have in common. -/
theorem repeatScan_first (hb : lastPid < pidMax) {first : ℕ}
    (hlow : lastPid < 300 → ∀ t ∈ tasks, ∀ n, t.Uses n → n ≤ lastPid)
    (hf : lastPid + 1 = pidMax ∧ first = 300 ∨ lastPid + 1 ≠ pidMax ∧ first = lastPid + 1) :
    ∃ r, repeatScan tasks lastPid pidMax first pidMax = some r ∧
      (Chosen tasks lastPid r ∨ Exhausted tasks lastPid r) := by
  have hpm : pidMax = 0x8000 := rfl
  by_cases h300 : lastPid < 300
  · have hfirst : first = lastPid + 1 := by omega
    have hfree : (scanTasks first tasks pidMax).1 = false := by
      by_contra hc
      obtain ⟨t, ht, hu⟩ := scanTasks_hit.mp ((Bool.not_eq_false _).mp hc)
      have := hlow h300 t ht first hu
      omega
    have hone : repeatScan tasks lastPid pidMax first pidMax =
        some (first, first, (scanTasks first tasks pidMax).2) := by
      rw [show pidMax = 0x7fff + 1 from rfl, repeatScan]
      simp only [show (0x7fff : ℕ) + 1 = pidMax from rfl, hfree]
      rfl
    exact ⟨_, hone, .inl (chosen_of_scan (by omega) (by omega) le_rfl (fun _ => hfirst) (by omega) hfree)⟩
  · refine repeatScan_spec (by omega) hb (by omega) (by omega) le_rfl (by omega) ?_ ?_
    · unfold remaining
      split <;> omega
    · intro n h1 h2 h3
      unfold remaining at h3
      split at h3 <;> split at h3 <;> omega

/-- What holds of every result. -/
structure Searched (beginpid : ℕ) (r : ℕ × ℕ × ℕ) : Prop where
  pid : r.1 = 0 ∨ r.1 = r.2.1
  pos : 0 < r.2.1
  max : r.2.1 < pidMax
  safe : r.2.2 ≤ pidMax
  low : r.2.1 < 300 → r.2.1 = beginpid + 1

theorem Chosen.searched {beginpid : ℕ} {r : ℕ × ℕ × ℕ} (h : Chosen tasks beginpid r) :
    Searched beginpid r where
  pid := .inr h.last.symm
  pos := h.last ▸ h.pos
  max := h.last ▸ h.lt.trans_le h.safe
  safe := h.safe
  low := h.last ▸ h.low

theorem Exhausted.searched {beginpid : ℕ} {r : ℕ × ℕ × ℕ} (h : Exhausted tasks beginpid r) :
    Searched beginpid r where
  pid := .inl h.pid
  pos := by have := h.last; have := h.low; omega
  max := h.last ▸ h.lt.trans_le h.safe
  safe := h.safe
  low := by have := h.last; have := h.low; omega

/-- The search ends, and when `next_safe` was right it finds an id that no task uses, if any. -/
theorem getPid_spec (hb : lastPid < pidMax) (hs : nextSafe ≤ pidMax)
    (hlow : lastPid < 300 → ∀ t ∈ tasks, ∀ n, t.Uses n → n ≤ lastPid) :
    ∃ r, getPid tasks lastPid nextSafe = some r ∧ Searched lastPid r ∧
      (Window tasks lastPid nextSafe ∨ r.1 = 0 → Chosen tasks lastPid r ∨ Exhausted tasks lastPid r) := by
  have ho := overflows_iff (n := lastPid + 1) hb
  have hscan : ∀ r, Chosen tasks lastPid r ∨ Exhausted tasks lastPid r → Searched lastPid r :=
    fun r h => h.elim Chosen.searched Exhausted.searched
  rw [getPid]
  by_cases h1 : overflows (lastPid + 1)
  · obtain ⟨r, hr, hspec⟩ := repeatScan_first hb hlow (.inl ⟨ho.mp h1, rfl⟩)
    exact ⟨r, by simpa only [h1, if_true] using hr, hscan r hspec, fun _ => hspec⟩
  · simp only [h1, if_false]
    by_cases h2 : nextSafe ≤ lastPid + 1
    · obtain ⟨r, hr, hspec⟩ := repeatScan_first hb hlow (.inr ⟨mt ho.mpr h1, rfl⟩)
      exact ⟨r, by simpa only [h2, if_true] using hr, hscan r hspec, fun _ => hspec⟩
    · simp only [h2, if_false]
      refine ⟨_, rfl, ⟨.inr rfl, Nat.succ_pos _, (not_le.mp h2).trans_le hs, hs, fun _ => rfl⟩,
        fun hw => .inl ⟨rfl, Nat.succ_pos _, not_le.mp h2, hs, ?_, ?_, fun _ => rfl, Nat.succ_ne_self _⟩⟩
      · intro t ht hu
        have := hw.resolve_right (Nat.succ_ne_zero _) t ht _ hu (by omega)
        omega
      · intro t ht n hu hlt
        exact hw.resolve_right (Nat.succ_ne_zero _) t ht n hu (by simp only at hlt; omega)

/-- A search that began below 300 does not come back to where it began. -/
theorem repeatScan_ne_zero {beginpid fuel : ℕ} (hb : beginpid < 300) (hl : beginpid < lastPid) {r : ℕ × ℕ × ℕ}
    (h : repeatScan tasks beginpid fuel lastPid nextSafe = some r) : r.1 ≠ 0 := by
  induction fuel generalizing lastPid nextSafe with
  | zero => cases h
  | succ fuel ih =>
    simp only [repeatScan] at h
    split at h
    · have hnext : beginpid < (advance lastPid (scanTasks lastPid tasks nextSafe).2).1 := by
        simp only [advance]
        split_ifs <;> simp only <;> omega
      rw [if_neg hnext.ne'] at h
      exact ih hnext h
    · obtain rfl := Option.some.inj h
      exact Nat.ne_of_gt (Nat.zero_lt_of_lt hl)

/-- `get_pid` fails only when it began at 300 or above. -/
theorem low_of_getPid (hb : lastPid < pidMax) {l n : ℕ} (h : getPid tasks lastPid nextSafe = some (0, l, n)) :
    300 ≤ lastPid := by
  by_contra hlt
  have ho : ¬ overflows (lastPid + 1) := fun ho => by
    have := (overflows_iff (n := lastPid + 1) hb).mp ho
    have hpm : pidMax = 0x8000 := rfl
    omega
  rw [getPid, if_neg ho] at h
  split at h
  · exact repeatScan_ne_zero (by omega) (Nat.lt_succ_self _) h rfl
  · exact Nat.succ_ne_zero _ (congrArg Prod.fst (Option.some.inj h))

end OperationSystems.Proc
