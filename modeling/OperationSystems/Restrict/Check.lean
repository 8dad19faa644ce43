import OperationSystems.Restrict.Model

/-!
# What `syscall_check` does

The first restriction with the number of the call decides. A call that it
forbids is recorded at the next place of the log of the task, if the task has a
log, and nothing else changes.
-/

namespace OperationSystems.Restrict

namespace Kernel
variable {k k' : Kernel} {num jiffies r : ℤ} {curr : ℕ}

/-- The restrictions that `syscall_check` reads. -/
def installed (k : Kernel) (curr : ℕ) : List SysCallRestriction :=
  match (k.tasks curr).restrictionsList with
  | none => []
  | some b => (List.range (k.tasks curr).restrictionsListSize.toNat).map (k.buffers b).restrictions

/-- The verdict of the first matching restriction in a list. -/
def verdict (num jiffies level : ℤ) (rs : List SysCallRestriction) : Option ForbiddenActivityInfo :=
  match rs.find? (fun r => r.syscallNum = num) with
  | none => none
  | some r =>
    if r.restrictionThreshold ≤ level then none
    else some
      { syscallNum := num
        syscallRestrictionThreshold := r.restrictionThreshold
        procRestrictionLevel := level
        time := jiffies }

/-- The record of a call that the list of `curr` forbids. -/
def denial (k : Kernel) (num : ℤ) (curr : ℕ) (jiffies : ℤ) : Option ForbiddenActivityInfo :=
  verdict num jiffies (k.tasks curr).procRestrictionLevel (k.installed curr)

/-- The log of `curr` in buffer `c` with one more entry. -/
def recordDenial (k : Kernel) (curr c : ℕ) (v : ForbiddenActivityInfo) : Kernel :=
  (k.setBuffer c { k.buffers c with
    entries := Function.update (k.buffers c).entries
      ((k.tasks curr).logListSize.tmod 100).toNat v }).setTask curr
    { k.tasks curr with logListSize := wrapInt ((k.tasks curr).logListSize + 1) }

theorem deref_ok {p : Option ℕ} {v : Buffer} (h : k.deref p = .ok v) :
    ∃ b, p = some b ∧ (k.buffers b).frees = 0 ∧ v = k.buffers b := by
  cases p with
  | none => simp [deref] at h
  | some b =>
    simp only [deref] at h
    split_ifs at h with hf
    exact ⟨b, rfl, hf, (Except.ok.inj h).symm⟩

theorem deref_some {b : ℕ} (h : (k.buffers b).frees = 0) : k.deref (some b) = .ok (k.buffers b) :=
  if_pos h

theorem restriction_ok {p : Option ℕ} {i : ℕ} {v : SysCallRestriction}
    (h : k.restriction p i = .ok v) : ∃ b, p = some b ∧ v = (k.buffers b).restrictions i := by
  simp only [restriction, bind, Except.bind] at h
  split at h
  · simp at h
  · rename_i w hw
    obtain ⟨b, hp, -, rfl⟩ := deref_ok hw
    split_ifs at h with hb
    exact ⟨b, hp, (Except.ok.inj h).symm⟩

theorem setLogEntry_ok {p : Option ℕ} {i : ℤ} {v : ForbiddenActivityInfo}
    (h : k.setLogEntry p i v = .ok k') :
    ∃ c, p = some c ∧ (k.buffers c).frees = 0 ∧
      k' = k.setBuffer c { k.buffers c with
        entries := Function.update (k.buffers c).entries i.toNat v } := by
  simp only [setLogEntry, bind, Except.bind] at h
  split at h
  · simp at h
  · rename_i w hw
    obtain ⟨c, rfl, hf, rfl⟩ := deref_ok hw
    split_ifs at h with hb
    exact ⟨c, rfl, hf, (Except.ok.inj h).symm⟩

/-- A call that is let through, or is forbidden but not logged, changes nothing. -/
structure Passed (k : Kernel) (curr : ℕ) (d : Option ForbiddenActivityInfo) (r : ℤ) (k' : Kernel) :
    Prop where
  code : r = 0
  same : k' = k
  reason : d = none ∨ (k.tasks curr).logList = none

structure Denied (k : Kernel) (curr : ℕ) (d : Option ForbiddenActivityInfo) (r : ℤ) (k' : Kernel) :
    Prop where
  code : r = -1
  log : ∃ c v, d = some v ∧ (k.tasks curr).logList = some c ∧ (k.buffers c).frees = 0 ∧
    k' = k.recordDenial curr c v

theorem verdict_cons (num jiffies level : ℤ) (s : SysCallRestriction) (rs : List SysCallRestriction) :
    verdict num jiffies level (s :: rs) =
      if s.syscallNum = num then
        if s.restrictionThreshold ≤ level then none
        else some
          { syscallNum := num
            syscallRestrictionThreshold := s.restrictionThreshold
            procRestrictionLevel := level
            time := jiffies }
      else verdict num jiffies level rs := by
  by_cases hs : s.syscallNum = num <;> simp [verdict, hs]

theorem checkLoop_ok {b : ℕ} (hb : (k.tasks curr).restrictionsList = some b) {fuel i : ℕ}
    (h : k.checkLoop num curr jiffies fuel i = .ok (r, k')) :
    let d := verdict num jiffies (k.tasks curr).procRestrictionLevel
      ((List.range' i fuel).map (k.buffers b).restrictions)
    k.Passed curr d r k' ∨ k.Denied curr d r k' := by
  induction fuel generalizing i with
  | zero =>
    simp only [checkLoop, Except.ok.injEq, Prod.mk.injEq] at h
    exact Or.inl ⟨h.1.symm, h.2.symm, Or.inl rfl⟩
  | succ fuel ih =>
    simp only [checkLoop, bind, Except.bind] at h
    split at h
    · simp at h
    rename_i s hs
    obtain ⟨b', hb', rfl⟩ := restriction_ok hs
    rw [hb, Option.some.injEq] at hb'
    subst hb'
    intro d
    by_cases hnum : ((k.buffers b).restrictions i).syscallNum = num
    · rw [if_pos hnum] at h
      by_cases hthr : ((k.buffers b).restrictions i).restrictionThreshold ≤
          (k.tasks curr).procRestrictionLevel
      · rw [if_pos hthr] at h
        have hd : d = none := by simp [d, List.range'_succ, verdict_cons, hnum, hthr]
        obtain ⟨rfl, rfl⟩ := Prod.mk.inj (Except.ok.inj h)
        exact Or.inl ⟨rfl, rfl, Or.inl hd⟩
      · rw [if_neg hthr] at h
        by_cases hlog : (k.tasks curr).logList = none
        · rw [if_neg (not_not.mpr hlog)] at h
          rcases ih h with hp | ⟨-, c, v, -, hc, -⟩
          · exact Or.inl ⟨hp.code, hp.same, Or.inr hlog⟩
          · simp [hlog] at hc
        · rw [if_pos hlog] at h
          split at h
          · simp at h
          rename_i k₁ hk₁
          obtain ⟨c, hc, hf, rfl⟩ := setLogEntry_ok hk₁
          obtain ⟨rfl, rfl⟩ := Prod.mk.inj (Except.ok.inj h)
          refine Or.inr ⟨rfl, c, _, ?_, hc, hf, rfl⟩
          simp [d, List.range'_succ, verdict_cons, hnum, hthr]
    · rw [if_neg hnum] at h
      have hd : d = verdict num jiffies (k.tasks curr).procRestrictionLevel
          ((List.range' (i + 1) fuel).map (k.buffers b).restrictions) := by
        simp [d, List.range'_succ, verdict_cons, hnum]
      rw [hd]
      exact ih h

theorem syscallCheck_ok (h : k.syscallCheck num curr jiffies = .ok (r, k')) :
    k.Passed curr (k.denial num curr jiffies) r k' ∨
      k.Denied curr (k.denial num curr jiffies) r k' := by
  unfold syscallCheck at h
  split_ifs at h with hsize
  · have hn : (k.tasks curr).restrictionsListSize.toNat = 0 := by omega
    simp only [Except.ok.injEq, Prod.mk.injEq] at h
    refine Or.inl ⟨h.1.symm, h.2.symm, Or.inl ?_⟩
    unfold denial installed
    cases (k.tasks curr).restrictionsList <;> simp [hn, verdict]
  · cases hb : (k.tasks curr).restrictionsList with
    | none =>
      obtain ⟨n, hn⟩ : ∃ n, (k.tasks curr).restrictionsListSize.toNat = n + 1 :=
        ⟨(k.tasks curr).restrictionsListSize.toNat - 1, by omega⟩
      simp [hn, checkLoop, restriction, hb, deref, bind, Except.bind] at h
    | some b =>
      have hd := checkLoop_ok hb h
      simpa only [denial, installed, hb, List.range_eq_range'] using hd

/-- The pointers of a task are `NULL` or usable, and there is a list if there is a size. -/
structure Usable (k : Kernel) (curr : ℕ) : Prop where
  unfreed : ∀ s b, (k.tasks curr).pointer s = some b → (k.buffers b).frees = 0
  size : (k.tasks curr).restrictionsList = none → (k.tasks curr).restrictionsListSize ≤ 0

theorem restriction_error {p : Option ℕ} {b i : ℕ} {f : Fault} (hp : p = some b)
    (hb : (k.buffers b).frees = 0) (h : k.restriction p i = .error f) : f = .outOfBounds i := by
  simp only [restriction, hp, deref_some hb, bind, Except.bind, pure, Except.pure] at h
  split_ifs at h
  exact (Except.error.inj h).symm

theorem setLogEntry_error {p : Option ℕ} {c : ℕ} {i : ℤ} {v : ForbiddenActivityInfo} {f : Fault}
    (hp : p = some c) (hc : (k.buffers c).frees = 0) (h : k.setLogEntry p i v = .error f) :
    f = .outOfBounds i := by
  simp only [setLogEntry, hp, deref_some hc, bind, Except.bind, pure, Except.pure] at h
  split_ifs at h
  exact (Except.error.inj h).symm

theorem checkLoop_error (hk : k.Usable curr) {b : ℕ} (hb : (k.tasks curr).restrictionsList = some b)
    {fuel i : ℕ} {f : Fault} (h : k.checkLoop num curr jiffies fuel i = .error f) :
    ∃ j, f = .outOfBounds j := by
  induction fuel generalizing i with
  | zero => simp [checkLoop] at h
  | succ fuel ih =>
    simp only [checkLoop, bind, Except.bind] at h
    split at h
    · rename_i hr
      obtain rfl := Except.error.inj h
      exact ⟨i, restriction_error hb (hk.unfreed .restrictionsList b hb) hr⟩
    · split_ifs at h with hnum hthr hlog
      · simp [pure, Except.pure] at h
      · obtain ⟨c, hc⟩ := Option.ne_none_iff_exists'.mp hlog
        split at h
        · rename_i hs
          obtain rfl := Except.error.inj h
          exact ⟨_, setLogEntry_error hc (hk.unfreed .logList c hc) hs⟩
        · simp [pure, Except.pure] at h
      · exact ih h
      · exact ih h

/-- With usable pointers `syscall_check` dereferences neither `NULL` nor a freed list. -/
theorem syscallCheck_error (hk : k.Usable curr) {f : Fault}
    (h : k.syscallCheck num curr jiffies = .error f) : ∃ j, f = .outOfBounds j := by
  unfold syscallCheck at h
  split_ifs at h with hsize
  cases hb : (k.tasks curr).restrictionsList with
  | none => exact absurd (hk.size hb) (by omega)
  | some b => exact checkLoop_error hk hb h

end Kernel

end OperationSystems.Restrict
