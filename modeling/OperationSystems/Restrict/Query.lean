import OperationSystems.Restrict.Log

/-!
# Reading the log

The two copy loops of `sys_get_process_log` read a consecutive part of the
buffer each. Together they read the slot `readSlot` for each entry of the
answer, which is compared with the slot that the entry was recorded in.
-/

namespace OperationSystems.Restrict
open Transition RingLog

namespace Kernel
variable {k : Kernel} {c : ℕ}

/-- A log buffer that can be read. -/
structure Readable (k : Kernel) (c : ℕ) : Prop where
  frees : (k.buffers c).frees = 0
  bytes : restListSize * sizeofFai ≤ (k.buffers c).bytes

theorem Readable.logEntry (hc : k.Readable c) {i : ℤ} (h0 : 0 ≤ i) (h1 : i < 100) :
    k.logEntry (some c) i = .ok ((k.buffers c).entries i.toNat) := by
  have hb : 0 ≤ i ∧ (i + 1) * sizeofFai ≤ (k.buffers c).bytes := by
    have hroom := hc.bytes
    simp only [restListSize, sizeofFai] at hroom ⊢
    omega
  simp only [Kernel.logEntry, deref_some hc.frees, bind, Except.bind, if_pos hb, pure, Except.pure]

/-- A copy loop that makes `n` turns. -/
def LogCopy.after (l : LogCopy) (n : ℕ) (entries : ℕ → ForbiddenActivityInfo) : LogCopy where
  i := l.i + n
  j := l.j + n
  count := l.count + n
  toUsr := fun x =>
    if l.j ≤ x ∧ x < l.j + n then some (entries (l.i + (x - l.j)).toNat) else l.toUsr x

theorem LogCopy.after_zero (l : LogCopy) (entries : ℕ → ForbiddenActivityInfo) :
    LogCopy.after l 0 entries = l := by
  have hx : ∀ x, ¬ (l.j ≤ x ∧ x < l.j) := fun x => by omega
  simp [LogCopy.after, hx]

/-- The first of `n + 1` turns. -/
theorem LogCopy.after_succ (l : LogCopy) (n : ℕ) (entries : ℕ → ForbiddenActivityInfo) :
    LogCopy.after
      { i := l.i + 1, j := l.j + 1, count := l.count + 1
        toUsr := Function.update l.toUsr l.j (some (entries l.i.toNat)) } n entries =
      LogCopy.after l (n + 1) entries := by
  simp only [LogCopy.after, LogCopy.mk.injEq]
  refine ⟨by omega, by omega, by omega, ?_⟩
  funext x
  rcases lt_trichotomy x l.j with hx | rfl | hx
  · rw [if_neg (by omega), if_neg (by omega), Function.update_of_ne (by omega)]
  · rw [if_neg (by omega), if_pos (by omega), Function.update_self]
    simp
  · rw [Function.update_of_ne (by omega)]
    have hi : l.i + 1 + (x - (l.j + 1)) = l.i + (x - l.j) := by omega
    have hb : (l.j + 1 ≤ x ∧ x < l.j + 1 + n) ↔ (l.j ≤ x ∧ x < l.j + (n + 1 : ℕ)) := by omega
    simp only [hi, hb]

theorem copyLoop_spec (hc : k.Readable c) {goOn : ℤ → Bool} {n fuel : ℕ} {l : LogCopy}
    (hi : ∀ m : ℕ, m < n → 0 ≤ l.i + m ∧ l.i + m < 100 ∧ goOn (l.count + m) = true)
    (hn : n ≤ fuel) (hend : n = fuel ∨ goOn (l.count + n) = false) :
    k.copyLoop (some c) goOn fuel l = .ok (LogCopy.after l n (k.buffers c).entries) := by
  induction n generalizing l fuel with
  | zero =>
    rw [LogCopy.after_zero]
    cases fuel with
    | zero => rfl
    | succ fuel =>
      have hstop : goOn l.count = false := by simpa using hend
      simp [copyLoop, hstop]
  | succ n ih =>
    obtain ⟨fuel, rfl⟩ : ∃ f, fuel = f + 1 := ⟨fuel - 1, by omega⟩
    obtain ⟨h0, h1, hgo⟩ := hi 0 (Nat.succ_pos n)
    simp only [Int.natCast_zero, Int.add_zero] at h0 h1 hgo
    simp only [copyLoop, hgo, if_true, hc.logEntry h0 h1, bind, Except.bind]
    rw [← LogCopy.after_succ]
    refine ih (fun m hm => ?_) (by omega) ?_
    · obtain ⟨h0', h1', hgo'⟩ := hi (m + 1) (by omega)
      push_cast at h0' h1' hgo'
      refine ⟨by dsimp only; omega, by dsimp only; omega, ?_⟩
      rw [show l.count + 1 + (m : ℤ) = l.count + (m + 1) by omega]
      exact hgo'
    · refine hend.imp (fun h => by omega) fun h => ?_
      push_cast at h
      rw [show l.count + 1 + (n : ℤ) = l.count + (n + 1) by omega]
      exact h

/-- How many entries the first copy loop reads. -/
def firstPart (L size : ℕ) : ℕ := if L < 100 then size else size - L % 100

/-- The slot that is read for entry `j` of the answer. -/
def readSlot (L size j : ℕ) : ℕ :=
  if firstPart L size ≤ j then j - firstPart L size
  else if L < 100 then L - size + j else 100 + L % 100 - size + j

theorem firstPart_le (L size : ℕ) : firstPart L size ≤ size := by
  unfold firstPart
  split_ifs <;> omega

/-- The answer, by index. -/
def answer (size : ℕ) (entry : ℕ → Option ForbiddenActivityInfo) (j : ℤ) :
    Option ForbiddenActivityInfo :=
  if 0 ≤ j ∧ j < size then entry j.toNat else none

/-- Where the first copy loop starts and ends. -/
def firstIndex (L size : ℤ) : ℤ :=
  if L < 100 then L - size else restListSize - (size - L.tmod 100)

def endOfLog (L : ℤ) : ℤ := if L < 100 then L else restListSize

theorem firstIndex_natCast (L size : ℕ) :
    firstIndex L size = if L < 100 then (L : ℤ) - size else 100 - (size - (L % 100 : ℕ)) := by
  have hm : (L : ℤ).tmod 100 = (L % 100 : ℕ) := (Int.ofNat_tmod L 100).symm
  simp only [firstIndex, hm, restListSize]
  split_ifs <;> omega

section Loops
variable {L size : ℕ}

theorem firstLoop (hc : k.Readable c) (hL : size ≤ L) (h100 : size ≤ 100) :
    k.copyLoop (some c) (fun _ => true) (endOfLog L - firstIndex L size).toNat
        { i := firstIndex L size, j := 0, count := 0, toUsr := fun _ => none } =
      .ok (LogCopy.after { i := firstIndex L size, j := 0, count := 0, toUsr := fun _ => none }
        (firstPart L size) (k.buffers c).entries) := by
  have hmod := Nat.mod_lt L (by decide : 0 < 100)
  have hturns : (endOfLog L - firstIndex L size).toNat = firstPart L size := by
    rw [firstIndex_natCast]
    simp only [endOfLog, restListSize, firstPart]
    split_ifs <;> omega
  rw [hturns]
  refine copyLoop_spec hc (fun m hm => ?_) le_rfl (Or.inl rfl)
  dsimp only
  rw [firstIndex_natCast]
  unfold firstPart at hm
  split_ifs at hm ⊢ <;> exact ⟨by omega, by omega, rfl⟩

/-- The second loop stops one entry late; that entry lies behind the answer. -/
theorem secondLoop (hc : k.Readable c) (hL : size ≤ L) (h100 : size ≤ 100)
    (hshort : firstPart L size < size) {l : LogCopy} (hi : l.i = 0)
    (hcount : l.count = firstPart L size) :
    k.copyLoop (some c) (fun count => decide (count ≤ size)) (L : ℤ).toNat l =
      .ok (LogCopy.after l (size + 1 - firstPart L size) (k.buffers c).entries) := by
  have hmod := Nat.mod_lt L (by decide : 0 < 100)
  unfold firstPart at hshort hcount ⊢
  split_ifs at hshort hcount ⊢ with h
  · omega
  refine copyLoop_spec hc (fun m hm => ?_) (by omega) (Or.inr ?_)
  · rw [hi, hcount]
    exact ⟨by omega, by omega, decide_eq_true (by omega)⟩
  · rw [hcount]
    exact decide_eq_false (by omega)

theorem readSlot_first (hL : size ≤ L) (h100 : size ≤ 100) {x : ℕ} (hx : x < firstPart L size) :
    (firstIndex L size + x).toNat = readSlot L size x := by
  rw [readSlot, if_neg (not_le.mpr hx), firstIndex_natCast]
  split_ifs <;> omega

/-- What is copied to the user. -/
def handOver (size : ℤ) (l : LogCopy) : ℤ × (ℤ → Option ForbiddenActivityInfo) :=
  (0, fun j => if 0 ≤ j ∧ j < size then l.toUsr j else none)

theorem sysGetProcessLog_eq {t : ℕ} {pid size : ℤ} (hpid : 0 ≤ pid)
    (ht : k.findTaskByPid pid = some t) (hsize : 0 ≤ size ∧ size ≤ (k.tasks t).logListSize) :
    k.sysGetProcessLog pid size true =
      k.copyLoop (k.tasks t).logList (fun _ => true)
        (endOfLog (k.tasks t).logListSize - firstIndex (k.tasks t).logListSize size).toNat
        { i := firstIndex (k.tasks t).logListSize size, j := 0, count := 0
          toUsr := fun _ => none } >>= fun l =>
      if l.count < size then
        k.copyLoop (k.tasks t).logList (fun count => decide (count ≤ size))
          (k.tasks t).logListSize.toNat { l with i := 0 } >>= fun l => pure (handOver size l)
      else pure (handOver size l) := by
  have hguard : ¬ (size > (k.tasks t).logListSize ∨ size < 0) := by omega
  simp only [sysGetProcessLog, if_neg (not_lt.mpr hpid), ht, if_neg hguard, Bool.true_eq_false,
    if_false]
  rfl

theorem sysGetProcessLog_reads {t : ℕ} {pid : ℤ} (hpid : 0 ≤ pid)
    (ht : k.findTaskByPid pid = some t) (hlog : (k.tasks t).logList = some c)
    (hsize : (k.tasks t).logListSize = L) (hc : k.Readable c) (hL : size ≤ L) (h100 : size ≤ 100) :
    k.sysGetProcessLog pid size true =
      .ok (0, answer size fun j => some ((k.buffers c).entries (readSlot L size j))) := by
  have hle := firstPart_le L size
  rw [sysGetProcessLog_eq hpid ht (by omega), hlog, hsize, firstLoop hc hL h100]
  change (if ((0 : ℤ) + firstPart L size : ℤ) < size then _ else _) = _
  by_cases hshort : firstPart L size < size
  · rw [if_pos (by omega), secondLoop hc hL h100 hshort rfl (Int.zero_add _)]
    refine congrArg Except.ok (congrArg (Prod.mk 0) (funext fun j => ?_))
    by_cases hj : 0 ≤ j ∧ j < size
    · obtain ⟨x, rfl⟩ : ∃ x : ℕ, j = x := ⟨j.toNat, by omega⟩
      simp only [answer, if_pos hj, LogCopy.after, Int.zero_add, Int.sub_zero, Int.toNat_natCast]
      by_cases hx : x < firstPart L size
      · rw [if_neg (by omega), if_pos (by omega), readSlot_first hL h100 hx]
      · have hslot : readSlot L size x = x - firstPart L size := if_pos (not_lt.mp hx)
        rw [if_pos (by omega), hslot, Int.toNat_sub]
    · simp only [answer, if_neg hj]
  · rw [if_neg (by omega)]
    refine congrArg Except.ok (congrArg (Prod.mk 0) (funext fun j => ?_))
    by_cases hj : 0 ≤ j ∧ j < size
    · obtain ⟨x, rfl⟩ : ∃ x : ℕ, j = x := ⟨j.toNat, by omega⟩
      have hx : x < firstPart L size := by omega
      simp only [answer, if_pos hj, LogCopy.after, Int.zero_add, Int.sub_zero, Int.toNat_natCast,
        readSlot_first hL h100 hx]
      rw [if_pos (by omega)]
    · simp only [answer, if_neg hj]

/-- If the ring has not wrapped, or its start is among the calls asked for, each entry is read
from its slot. -/
theorem readSlot_eq {j : ℕ} (hL : size ≤ L) (h100 : size ≤ 100) (hj : j < size)
    (h : L < 100 ∨ L % 100 ≤ size) : (L - size + j) % 100 = readSlot L size j := by
  unfold readSlot firstPart
  split_ifs <;> omega

theorem readSlot_wrapped {j : ℕ} (hj : j < size) (h : ¬ (L < 100 ∨ L % 100 ≤ size)) :
    (L - L % 100 + j) % 100 = readSlot L size j := by
  unfold readSlot firstPart
  split_ifs <;> omega

theorem answer_inj {f g : ℕ → Option ForbiddenActivityInfo} :
    answer size f = answer size g ↔ ∀ j < size, f j = g j := by
  constructor
  · intro h j hj
    have hfg := congrFun h j
    have hj' : 0 ≤ (j : ℤ) ∧ (j : ℤ) < size := by omega
    simpa only [answer, if_pos hj', Int.toNat_natCast] using hfg
  · intro h
    funext j
    unfold answer
    split_ifs with hj
    · exact h j.toNat (by omega)
    · rfl

end Loops

end Kernel

/-- The last `size` records of a history, the oldest first. -/
def recent (log : List ForbiddenActivityInfo) (size : ℕ) : ℤ → Option ForbiddenActivityInfo :=
  Kernel.answer size fun j => log[log.length - size + j]?

/-- The records since the ring last wrapped are as good as the ones that were asked for. -/
def ReadsRecent (log : List ForbiddenActivityInfo) (size : ℕ) : Prop :=
  log.length < 100 ∨ log.length % 100 ≤ size ∨
    ∀ j < size, log[log.length - log.length % 100 + j]? = log[log.length - size + j]?

theorem answer_entries {log : List ForbiddenActivityInfo} {slots : ℕ → ForbiddenActivityInfo}
    {size : ℕ} (h : Holds restListSize slots log) (hL : size ≤ log.length) (h100 : size ≤ 100) :
    (Kernel.answer size fun j => some (slots (Kernel.readSlot log.length size j))) =
      recent log size ↔ ReadsRecent log size := by
  unfold recent
  rw [Kernel.answer_inj]
  by_cases hgood : log.length < 100 ∨ log.length % 100 ≤ size
  · refine iff_of_true (fun j hj => ?_) (hgood.imp_right Or.inl)
    exact (h.get (by omega) (by simp only [restListSize]; omega)
      (Kernel.readSlot_eq hL h100 hj hgood)).symm
  · have hread : ∀ j < size, log[log.length - log.length % 100 + j]? =
        some (slots (Kernel.readSlot log.length size j)) := by
      intro j hj
      exact h.get (by omega) (by simp only [restListSize]; omega)
        (Kernel.readSlot_wrapped hj hgood)
    unfold ReadsRecent
    rw [← or_assoc, or_iff_right hgood]
    refine forall₂_congr fun j hj => ?_
    rw [hread j hj]

namespace Logged
variable {s₀ s : Logged} {es : List Event}

theorem faithful_run (hB : s₀.kernel.Boot) (hD : ∀ t, s₀.denials t = []) (h : Run Step s₀ es s) :
    s.Faithful := by
  refine h.invariant (P := Faithful) ⟨hB.sound, fun t ha => ?_⟩ fun _ _ _ => faithful_step
  have hn := hB.logList t ha
  refine ⟨fun _ => ⟨Int.le_of_eq (hB.restrictionsListSize t ha), hD t⟩, fun c hc => ?_,
    fun _ => by simp [hD t, hB.logListSize t ha], fun _ c hc => ?_⟩ <;>
  · rw [hn] at hc
    cases hc

theorem Faithful.getProcessLog {t size : ℕ} (hf : s.Faithful) (ha : s.kernel.Alive t)
    (hlen : (s.denials t).length < 2 ^ 31) (hsize : size ≤ min (s.denials t).length 100) (ok : Bool) :
    s.kernel.sysGetProcessLog (s.kernel.tasks t).pid size ok =
        .ok (0, recent (s.denials t) size) ↔
      ok = true ∧ ReadsRecent (s.denials t) size := by
  have hshow := hf.shows t ha
  have hL := hshow.size hlen
  obtain ⟨hle, h100⟩ := le_min_iff.mp hsize
  have hpid : (0 : ℤ) ≤ (s.kernel.tasks t).pid := Int.natCast_nonneg _
  have ht : s.kernel.findTaskByPid (s.kernel.tasks t).pid = some t := ha
  cases ok with
  | false =>
    have hguard : ¬ ((size : ℤ) > (s.denials t).length ∨ (size : ℤ) < 0) := by omega
    have he : s.kernel.sysGetProcessLog (s.kernel.tasks t).pid size false =
        .ok (-enomem, fun _ => none) := by
      simp only [Kernel.sysGetProcessLog, if_neg (not_lt.mpr hpid), ht, hL, if_neg hguard, if_true]
    rw [he]
    simp [enomem]
  | true =>
    simp only [true_and]
    cases hlog : (s.kernel.tasks t).logList with
    | none =>
      have hD := (hshow.unlogged hlog).2
      have h0 : (s.kernel.tasks t).logListSize = 0 := by simp [hL, hD]
      obtain rfl : size = 0 := by simpa [hD] using hle
      rw [Kernel.sysGetProcessLog_eq hpid ht (by omega), hlog, h0]
      refine iff_of_true (congrArg Except.ok (congrArg (Prod.mk 0) (funext fun j => ?_)))
        (Or.inl (by simp [hD]))
      exact (if_neg (by omega)).trans (if_neg (by omega)).symm
    | some c =>
      have hc : s.kernel.Readable c :=
        ⟨(hf.sound.usable ha).unfreed .logList c hlog, hshow.bytes c hlog⟩
      rw [Kernel.sysGetProcessLog_reads hpid ht hlog hL hc hle h100, Except.ok.injEq, Prod.mk.injEq]
      simp only [true_and]
      exact answer_entries (hshow.entries hlen c hlog) hle h100

/-- The answer shows the last calls if and only if there is memory for it and the calls after
the last wrap of the ring are as good as the last ones. -/
theorem process_log_recent (hB : s₀.kernel.Boot) (hD : ∀ t, s₀.denials t = [])
    (h : Run Step s₀ es s) {t size : ℕ} (ha : s.kernel.Alive t)
    (hlen : (s.denials t).length < 2 ^ 31) (hsize : size ≤ min (s.denials t).length 100) (ok : Bool) :
    s.kernel.sysGetProcessLog (s.kernel.tasks t).pid size ok =
        .ok (0, recent (s.denials t) size) ↔
      ok = true ∧ ReadsRecent (s.denials t) size :=
  (faithful_run hB hD h).getProcessLog ha hlen hsize ok

section Sample

def sampleStart : Logged := ⟨Kernel.sampleBoot, fun _ => []⟩

/-- Task 0 has the list `[(20, 2)]`, level 1 and a log of `n` calls. -/
structure Ready (k : Kernel) (n : ℕ) : Prop where
  hash : k.pidHash 1 = some 0
  task : k.tasks 0 = ⟨1, 1, some 0, 1, some 1, n⟩
  list : (k.buffers 0).frees = 0 ∧ (k.buffers 0).bytes = 8 ∧ (k.buffers 0).restrictions 0 = ⟨20, 2⟩
  log : (k.buffers 1).frees = 0 ∧ (k.buffers 1).bytes = restListSize * sizeofFai

def sampleEntry (time : ℕ) : ForbiddenActivityInfo := ⟨20, 2, 1, time⟩

theorem ready_call {k : Kernel} {n : ℕ} (h : Ready k n) (time : ℕ) :
    k.syscallCheck 20 0 time = .ok (-1, k.recordDenial 0 1 (sampleEntry time)) ∧
      k.denial 20 0 time = some (sampleEntry time) := by
  have hlist : k.restriction (some 0) 0 = .ok ⟨20, 2⟩ := by
    simp [Kernel.restriction, Kernel.deref, h.list, sizeofScr, bind, Except.bind, pure, Except.pure]
  have hslot : (n : ℤ).tmod 100 = (n % 100 : ℕ) := (Int.ofNat_tmod n 100).symm
  have hlog : ∀ v, k.setLogEntry (some 1) ((n : ℤ).tmod 100) v = .ok (k.setBuffer 1
      { k.buffers 1 with
        entries := Function.update (k.buffers 1).entries ((n : ℤ).tmod 100).toNat v }) := by
    intro v
    have hb : 0 ≤ (n : ℤ).tmod 100 ∧ ((n : ℤ).tmod 100 + 1) * sizeofFai ≤ (k.buffers 1).bytes := by
      rw [h.log.2, hslot]
      simp only [restListSize, sizeofFai]
      omega
    simp only [Kernel.setLogEntry, Kernel.deref_some h.log.1, bind, Except.bind, if_pos hb, pure,
      Except.pure, Option.getD_some]
  refine ⟨?_, ?_⟩
  · simp [Kernel.syscallCheck, Kernel.checkLoop, h.task, hlist, hlog, Kernel.recordDenial, bind,
      Except.bind, pure, Except.pure, sampleEntry]
  · simp [Kernel.denial, Kernel.installed, h.task, Kernel.verdict, h.list.2.2, sampleEntry]

theorem ready_syscall {k : Kernel} {n : ℕ} (h : Ready k n) (hn : n + 1 < 2 ^ 31) (time : ℕ) :
    Ready (k.recordDenial 0 1 (sampleEntry time)) (n + 1) := by
  have hwrap : wrapInt ((n : ℤ) + 1) = (n + 1 : ℕ) := by
    rw [wrapInt, Int.bmod_eq_of_le (by omega) (by omega)]
    simp
  refine ⟨h.hash, ?_, ?_, ?_⟩
  · simp [Kernel.recordDenial, Kernel.setTask, Kernel.setBuffer, h.task, hwrap]
  · simpa [Kernel.recordDenial, Kernel.setTask, Kernel.setBuffer] using h.list
  · simpa [Kernel.recordDenial, Kernel.setTask, Kernel.setBuffer] using h.log

/-- A list is installed, and `n` calls are forbidden, at the times from 0 on. -/
def sampleCalls (n : ℕ) : List Event :=
  .scRestrict 1 1 Kernel.sampleList 1 true true ::
    (List.range n).map fun i : ℕ => .syscall 20 0 i

theorem sampleCalls_succ (n : ℕ) : sampleCalls (n + 1) = sampleCalls n ++ [.syscall 20 0 n] := by
  rw [sampleCalls, List.range_succ, List.map_append]
  rfl

theorem denials_run (n : ℕ) (hn : n < 2 ^ 31) : ∃ s, Run Step sampleStart (sampleCalls n) s ∧
    Ready s.kernel n ∧ s.denials 0 = (List.range n).map sampleEntry := by
  induction n with
  | zero =>
    refine ⟨⟨Kernel.sampleInstalled, fun _ => []⟩, Run.single ⟨rfl, ⟨0, rfl⟩, rfl⟩, ?_, rfl⟩
    exact ⟨rfl, rfl, ⟨rfl, rfl, rfl⟩, rfl, rfl⟩
  | succ n ih =>
    obtain ⟨s, hrun, hr, hD⟩ := ih (by omega)
    obtain ⟨hcheck, hden⟩ := ready_call hr n
    have hr' := ready_syscall hr hn n
    refine ⟨⟨s.kernel.recordDenial 0 1 (sampleEntry n), s.record (.syscall 20 0 n)⟩, ?_, hr', ?_⟩
    · have halive : s.kernel.Alive 0 := by simp [Kernel.Alive, hr.task, hr.hash]
      rw [sampleCalls_succ]
      exact hrun.snoc ⟨trivial, ⟨-1, (if_pos halive).trans hcheck⟩, rfl⟩
    · simp [record, hden, hD, List.range_succ]

theorem process_log_recent_sample : ∃ s, Run Step sampleStart (sampleCalls 3) s ∧
    s.kernel.sysGetProcessLog (s.kernel.tasks 0).pid 2 true =
      .ok (0, recent ((List.range 3).map sampleEntry) 2) := by
  obtain ⟨s, hrun, hr, hD⟩ := denials_run 3 (by omega)
  have halive : s.kernel.Alive 0 := by simp [Kernel.Alive, hr.task, hr.hash]
  have h := @process_log_recent _ _ _ Kernel.sampleBoot_boot (fun _ => rfl) hrun _ 2 halive
    (by simp [hD]) (by simp [hD]) true
  rw [hD] at h
  exact ⟨s, hrun, h.mpr ⟨rfl, Or.inl (by decide)⟩⟩

/-- After 102 forbidden calls the last one is asked for, and the one before it is read. -/
theorem process_log_stale : ∃ s, Run Step sampleStart (sampleCalls 102) s ∧
    sampleStart.kernel.Boot ∧ s.kernel.Alive 0 ∧ (s.denials 0).length = 102 ∧
    s.kernel.sysGetProcessLog (s.kernel.tasks 0).pid 1 true ≠
      .ok (0, recent (s.denials 0) 1) := by
  obtain ⟨s, hrun, hr, hD⟩ := denials_run 102 (by omega)
  have halive : s.kernel.Alive 0 := by simp [Kernel.Alive, hr.task, hr.hash]
  have hlen : (s.denials 0).length = 102 := by simp [hD]
  refine ⟨s, hrun, Kernel.sampleBoot_boot, halive, hlen, ?_⟩
  have hf := faithful_run Kernel.sampleBoot_boot (fun _ => rfl) hrun
  intro hlog
  obtain ⟨-, hread⟩ := (@Faithful.getProcessLog _ _ 1 hf halive (by omega) (by omega) true).mp hlog
  unfold ReadsRecent at hread
  rw [hlen] at hread
  have h0 := (hread.resolve_left (by decide)).resolve_left (by decide) 0 Nat.one_pos
  simp [hD, sampleEntry] at h0

end Sample

end Logged

end OperationSystems.Restrict
