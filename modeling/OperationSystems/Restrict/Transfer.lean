import OperationSystems.Restrict.Query

/-!
# The indices of `sys_get_process_log`

A copy loop reads `log_list` at one index and writes `to_usr` at another one.
The call is the transfer along the list of these accesses, which depends on the
count of the log and the size only.
-/

namespace OperationSystems.Restrict

/-- The index of `log_list` that is read and the one of `to_usr` that is written. -/
structure Access where
  read : ℤ
  write : ℤ
deriving DecidableEq

/-- The read finds a record of the ring, and the write is in a buffer of `size` entries. -/
structure Access.Inside (L size : ℤ) (a : Access) : Prop where
  ring : 0 ≤ a.read ∧ a.read < restListSize
  record : a.read < L
  room : 0 ≤ a.write ∧ a.write < size

namespace Kernel
variable {k : Kernel} {goOn : ℤ → Bool} {fuel n : ℕ} {i j count : ℤ}

/-- The accesses of a copy loop. -/
def loopAccesses (goOn : ℤ → Bool) : ℕ → ℤ → ℤ → ℤ → List Access
  | 0, _, _, _ => []
  | fuel + 1, i, j, count =>
    if goOn count then ⟨i, j⟩ :: loopAccesses goOn fuel (i + 1) (j + 1) (count + 1) else []

/-- The copies that a list of accesses makes. -/
def transfer (k : Kernel) (log : Option ℕ) :
    List Access → (ℤ → Option ForbiddenActivityInfo) → Result (ℤ → Option ForbiddenActivityInfo)
  | [], toUsr => .ok toUsr
  | a :: as, toUsr => do
    let e ← k.logEntry log a.read
    transfer k log as (Function.update toUsr a.write (some e))

/-- The variables of a copy loop after `n` turns. -/
def LogCopy.ended (c : LogCopy) (n : ℕ) (toUsr : ℤ → Option ForbiddenActivityInfo) : LogCopy where
  i := c.i + n
  j := c.j + n
  count := c.count + n
  toUsr := toUsr

theorem copyLoop_transfer (k : Kernel) (log : Option ℕ) (goOn : ℤ → Bool) (fuel : ℕ) (c : LogCopy) :
    k.copyLoop log goOn fuel c =
      (k.transfer log (loopAccesses goOn fuel c.i c.j c.count) c.toUsr).map
        (LogCopy.ended c (loopAccesses goOn fuel c.i c.j c.count).length) := by
  induction fuel generalizing c with
  | zero => simp [copyLoop, loopAccesses, transfer, LogCopy.ended, Except.map]
  | succ fuel ih =>
    rw [copyLoop, loopAccesses]
    split_ifs with hgo
    · rw [transfer]
      cases k.logEntry log c.i with
      | error e => rfl
      | ok e =>
        simp only [bind, Except.bind, ih, List.length_cons]
        refine congrArg (Except.map · _) (funext fun toUsr => ?_)
        simp only [LogCopy.ended, LogCopy.mk.injEq, and_true]
        push_cast
        exact ⟨by omega, by omega, by omega⟩
    · simp [transfer, LogCopy.ended, Except.map]

theorem transfer_append (k : Kernel) (log : Option ℕ) (as bs : List Access)
    (toUsr : ℤ → Option ForbiddenActivityInfo) :
    k.transfer log (as ++ bs) toUsr = k.transfer log as toUsr >>= k.transfer log bs := by
  induction as generalizing toUsr with
  | nil => rfl
  | cons a as ih =>
    simp only [List.cons_append, transfer]
    cases k.logEntry log a.read with
    | error e => rfl
    | ok e => exact ih _

/-- The accesses of the two loops of `sys_get_process_log`. -/
def logAccesses (L size : ℤ) : List Access :=
  let first := loopAccesses (fun _ => true) (endOfLog L - firstIndex L size).toNat
    (firstIndex L size) 0 0
  let count : ℤ := first.length
  first ++
    if count < size then loopAccesses (fun count => decide (count ≤ size)) L.toNat 0 count count
    else []

/-- The call copies along the accesses. -/
theorem sysGetProcessLog_transfer {t : ℕ} {pid size : ℤ} (hpid : 0 ≤ pid)
    (ht : k.findTaskByPid pid = some t) (hsize : 0 ≤ size ∧ size ≤ (k.tasks t).logListSize) :
    k.sysGetProcessLog pid size true =
      (k.transfer (k.tasks t).logList (logAccesses (k.tasks t).logListSize size) fun _ => none).map
        fun toUsr => (0, fun j => if 0 ≤ j ∧ j < size then toUsr j else none) := by
  rw [sysGetProcessLog_eq hpid ht hsize, logAccesses]
  simp only [copyLoop_transfer]
  set first := loopAccesses (fun _ => true)
    (endOfLog (k.tasks t).logListSize - firstIndex (k.tasks t).logListSize size).toNat
    (firstIndex (k.tasks t).logListSize size) 0 0
  rw [transfer_append]
  cases k.transfer (k.tasks t).logList first fun _ => none with
  | error e => rfl
  | ok toUsr =>
    simp only [Except.map, bind, Except.bind, LogCopy.ended, Int.zero_add]
    split_ifs with hshort
    · cases k.transfer (k.tasks t).logList
          (loopAccesses (fun count => decide (count ≤ size)) (k.tasks t).logListSize.toNat 0
            first.length first.length) toUsr <;> rfl
    · rfl

/-- A loop that makes `n` turns. -/
theorem loopAccesses_eq (hgo : ∀ m : ℕ, m < n → goOn (count + m) = true) (hn : n ≤ fuel)
    (hend : n = fuel ∨ goOn (count + n) = false) :
    loopAccesses goOn fuel i j count = (List.range n).map fun m : ℕ => ⟨i + m, j + m⟩ := by
  induction n generalizing fuel i j count with
  | zero =>
    cases fuel with
    | zero => rfl
    | succ fuel =>
      have hstop : goOn count = false := by simpa using hend
      simp [loopAccesses, hstop]
  | succ n ih =>
    obtain ⟨fuel, rfl⟩ := Nat.exists_eq_add_one_of_ne_zero (Nat.ne_zero_of_lt hn)
    have hnext : ∀ m : ℕ, count + 1 + m = count + (m + 1 : ℕ) := fun m => by push_cast; ring
    have hfirst : goOn count = true := by simpa using hgo 0 (Nat.succ_pos n)
    have htail := @ih fuel (i + 1) (j + 1) (count + 1)
      (fun m hm => (hnext m).symm ▸ hgo (m + 1) (by omega)) (by omega)
      (hend.imp (fun h => by omega) fun h => (hnext n).symm ▸ h)
    rw [loopAccesses, if_pos hfirst, htail, List.range_succ_eq_map, List.map_cons, List.map_map]
    refine congrArg₂ List.cons (by simp) (List.map_congr_left fun m _ => ?_)
    simp only [Function.comp, Access.mk.injEq]
    push_cast
    exact ⟨by ring, by ring⟩

/-- The turns of the first loop. -/
def turns (L size : ℕ) : ℕ := if L < 100 then size else size - L % 100

theorem mem_logAccesses {L size : ℕ} (h : size ≤ L) {a : Access} :
    a ∈ logAccesses L size ↔
      (∃ m < turns L size, a = ⟨firstIndex L size + m, m⟩) ∨
        turns L size < size ∧ ∃ m < min L (size + 1 - turns L size), a = ⟨m, turns L size + m⟩ := by
  have hturns : (endOfLog L - firstIndex L size).toNat = turns L size := by
    rw [firstIndex_natCast]
    simp only [endOfLog, restListSize, turns]
    split_ifs <;> omega
  have hfirst := @loopAccesses_eq (fun _ => true) (turns L size) (turns L size)
    (firstIndex L size) 0 0 (fun _ _ => rfl) le_rfl (Or.inl rfl)
  have hsecond := @loopAccesses_eq (fun count => decide (count ≤ size)) L
    (min L (size + 1 - turns L size)) 0 (turns L size) (turns L size)
    (fun m hm => decide_eq_true (by omega)) (min_le_left _ _)
    (by
      rcases min_cases L (size + 1 - turns L size) with ⟨he, -⟩ | ⟨he, -⟩
      · exact Or.inl he
      · exact Or.inr (decide_eq_false (by omega)))
  rw [logAccesses, hturns, hfirst, List.length_map, List.length_range, Int.toNat_natCast, hsecond,
    List.mem_append]
  simp only [Int.zero_add, List.mem_map, List.mem_range, Nat.cast_lt]
  refine or_congr (exists_congr fun m => and_congr_right fun _ => eq_comm) ?_
  split_ifs with hlt
  · simp only [List.mem_map, List.mem_range, hlt, true_and]
    exact exists_congr fun m => and_congr_right fun _ => eq_comm
  · simp [hlt]

/-- The second loop writes one entry too many, and the first one starts in front of the ring if
more was asked for than it holds. -/
theorem logAccesses_inside {L size : ℕ} (h : size ≤ L) :
    (∀ a ∈ logAccesses L size, a.Inside L size) ↔
      L < 100 ∨ size = 0 ∨ L % 100 = 0 ∧ size ≤ 100 := by
  have hmod := Nat.mod_lt L (by decide : 0 < 100)
  constructor
  · intro hin
    by_contra hbad
    obtain ⟨hL, hsize, hend⟩ : 100 ≤ L ∧ 0 < size ∧ (L % 100 = 0 → 100 < size) := by omega
    have hturns : turns L size = size - L % 100 := if_neg (by omega)
    by_cases hfar : 100 + L % 100 < size
    · have hfirst := (hin _ ((mem_logAccesses h).mpr (Or.inl ⟨0, by omega, rfl⟩))).ring.1
      rw [firstIndex_natCast, if_neg (by omega)] at hfirst
      simp only at hfirst
      omega
    · have hlast := (hin _ ((mem_logAccesses h).mpr
        (Or.inr ⟨by omega, size - turns L size, by omega, rfl⟩))).room.2
      simp only at hlast
      omega
  · intro hgood a ha
    have hturns : turns L size = size := by
      unfold turns
      split_ifs <;> omega
    rw [mem_logAccesses h, hturns, or_iff_left fun hlt => lt_irrefl _ hlt.1] at ha
    obtain ⟨m, hm, rfl⟩ := ha
    obtain ⟨hlow, hrec, hring⟩ : 0 ≤ firstIndex L size ∧ firstIndex L size + size ≤ L ∧
        firstIndex L size + size ≤ 100 := by
      rw [firstIndex_natCast]
      split_ifs <;> omega
    refine ⟨⟨?_, ?_⟩, ?_, ?_, ?_⟩ <;> simp only [restListSize] <;> omega

/-- `sys_get_process_log` stays inside the ring and its buffer if and only if there is no buffer, the
ring has not wrapped, nothing is asked for, or the ring has just wrapped and holds all of it. -/
theorem process_log_inside {t : ℕ} {pid : ℤ} (hpid : 0 ≤ pid) (ht : k.findTaskByPid pid = some t)
    {L size : ℕ} (hL : (k.tasks t).logListSize = L) (hsize : size ≤ L) (ok : Bool) :
    k.sysGetProcessLog pid size ok =
        (if ok then
          (k.transfer (k.tasks t).logList (logAccesses L size) fun _ => none).map
            fun toUsr => (0, fun j : ℤ => if 0 ≤ j ∧ j < size then toUsr j else none)
        else .ok (-enomem, fun _ => none)) ∧
      ((ok = true → ∀ a ∈ logAccesses L size, a.Inside L size) ↔
        ok = false ∨ L < 100 ∨ size = 0 ∨ L % 100 = 0 ∧ size ≤ 100) := by
  cases ok with
  | false =>
    have hguard : ¬ ((size : ℤ) > (k.tasks t).logListSize ∨ (size : ℤ) < 0) := by omega
    refine ⟨?_, iff_of_true (fun h => by cases h) (Or.inl rfl)⟩
    simp [sysGetProcessLog, not_lt.mpr hpid, ht, hguard]
  | true =>
    have hcopy := @sysGetProcessLog_transfer _ _ _ size hpid ht (by omega)
    rw [hL] at hcopy
    refine ⟨hcopy, ?_⟩
    simp only [true_imp_iff, logAccesses_inside hsize, Bool.true_eq_false, false_or]

end Kernel

namespace Logged
open Transition

theorem ready_found {k : Kernel} {n : ℕ} (h : Ready k n) :
    k.findTaskByPid 1 = some 0 ∧ (k.tasks 0).logListSize = n :=
  ⟨h.hash, by rw [h.task]⟩

theorem process_log_inside_sample : ∃ s, Run Step sampleStart (sampleCalls 200) s ∧
    ∀ a ∈ Kernel.logAccesses 200 60, a.Inside 200 60 := by
  obtain ⟨s, hrun, hr, -⟩ := denials_run 200 (by omega)
  obtain ⟨hfind, hL⟩ := ready_found hr
  have h := (@Kernel.process_log_inside s.kernel 0 1 (by decide) hfind 200 60 hL (by decide) true).2
  exact ⟨s, hrun, h.mpr (Or.inr (Or.inr (Or.inr (by decide)))) rfl⟩

/-- After 101 forbidden calls the last one is asked for, and two entries are written into a buffer
for one. -/
theorem process_log_outside : ∃ s, Run Step sampleStart (sampleCalls 101) s ∧
    s.kernel.findTaskByPid 1 = some 0 ∧ (s.kernel.tasks 0).logListSize = 101 ∧
    ∃ a ∈ Kernel.logAccesses 101 1, a.write = 1 ∧ ¬ a.Inside 101 1 := by
  obtain ⟨s, hrun, hr, -⟩ := denials_run 101 (by omega)
  obtain ⟨hfind, hL⟩ := ready_found hr
  refine ⟨s, hrun, hfind, hL, ⟨1, 1⟩, by decide, rfl, fun hin => ?_⟩
  have hroom := hin.room.2
  simp at hroom

end Logged

end OperationSystems.Restrict
