import OperationSystems.Restrict.Policy

/-!
# The policy that the kernel enforces

Every task has a policy: its level, the list that was last installed for it and
the calls forbidden so far. Each system call changes the policy of its target,
and in every run the kernel decides and records by the policies, as long as the
signed count of the log has room for one more call.
-/

namespace OperationSystems.Restrict
open Transition RingLog

/-- A kernel beside the policies of its tasks. -/
structure Policed where
  kernel : Kernel
  policy : ℕ → Policy

namespace Policed
variable {s s' : Policed} {e : Event} {t : ℕ}

/-- What each system call does to the policies. -/
def amend (s : Policed) : Event → ℕ → Policy
  | .scRestrict pid level user listSize _ _ =>
    match s.kernel.restrictTarget pid level listSize with
    | none => s.policy
    | some curr => Function.update s.policy curr
        { s.policy curr with level := level, list := (List.range listSize.toNat).map user }
  | .setProcRestriction pid level =>
    match s.kernel.restrictTarget pid level 0 with
    | none => s.policy
    | some curr => Function.update s.policy curr { s.policy curr with level := level }
  | .syscall num curr jiffies => Function.update s.policy curr { s.policy curr with
      log := (s.policy curr).log ++
        (Kernel.verdict num jiffies (s.policy curr).level (s.policy curr).list).toList }
  | .fork _ (some _) => Function.update s.policy s.kernel.nextTask ⟨0, [], []⟩
  | _ => s.policy

def Step (s : Policed) (e : Event) (s' : Policed) : Prop :=
  s.kernel.FullKmalloc e ∧ s.kernel.Step e s'.kernel ∧ s'.policy = s.amend e

def logged (s : Policed) : Logged := ⟨s.kernel, fun t => (s.policy t).log⟩

structure Tracks (s : Policed) : Prop where
  faithful : s.logged.Faithful
  follows : ∀ t, s.kernel.Alive t → s.kernel.Follows t (s.policy t)
  short : ∀ t, (s.policy t).log.length < 2 ^ 31

theorem Tracks.sound (hs : s.Tracks) : s.kernel.Sound := hs.faithful.sound

theorem Tracks.shows (hs : s.Tracks) (ha : s.kernel.Alive t) :
    s.kernel.Shows (s.kernel.tasks t) (s.policy t).log := hs.faithful.shows t ha

theorem Tracks.denial (hs : s.Tracks) (ha : s.kernel.Alive t) (num jiffies : ℤ) :
    s.kernel.denial num t jiffies =
      Kernel.verdict num jiffies (s.policy t).level (s.policy t).list := by
  unfold Kernel.denial
  rw [(hs.follows t ha).level, (hs.follows t ha).list]

theorem record_amend (hs : s.Tracks)
    (ha : ∀ num curr jiffies, e = .syscall num curr jiffies → s.kernel.Alive curr) :
    (fun t => (s.amend e t).log) = s.logged.record e := by
  funext t
  cases e with
  | scRestrict pid level user listSize ok okLog =>
    simp only [amend, Logged.record, logged]
    cases s.kernel.restrictTarget pid level listSize with
    | none => rfl
    | some curr =>
      by_cases ht : t = curr
      · simp only [ht, Function.update_self]
      · simp only [Function.update_of_ne ht]
  | setProcRestriction pid level =>
    simp only [amend, Logged.record, logged]
    cases s.kernel.restrictTarget pid level 0 with
    | none => rfl
    | some curr =>
      by_cases ht : t = curr
      · simp only [ht, Function.update_self]
      · simp only [Function.update_of_ne ht]
  | syscall num curr jiffies =>
    have hd := hs.denial (ha num curr jiffies rfl) num jiffies
    simp only [amend, Logged.record, logged, hd]
    by_cases ht : t = curr
    · rw [ht, Function.update_self, Function.update_self]
    · rw [Function.update_of_ne ht, Function.update_of_ne ht]
  | fork current newPid =>
    cases newPid with
    | none => rfl
    | some pid =>
      simp only [amend, Logged.record, logged]
      by_cases ht : t = s.kernel.nextTask
      · rw [ht, Function.update_self, Function.update_self]
      · rw [Function.update_of_ne ht, Function.update_of_ne ht]
  | getProcessLog | release => rfl

/-- The task of a system call is a live one. -/
theorem alive_of_step {k' : Kernel} (h : s.kernel.Step e k') :
    ∀ num curr jiffies, e = .syscall num curr jiffies → s.kernel.Alive curr := by
  rintro num curr jiffies rfl
  cases h.move with
  | syscall num curr jiffies r ha hk => exact ha

theorem Tracks.faithful_step (hs : s.Tracks) (h : s.Step e s') : s'.logged.Faithful := by
  obtain ⟨hfull, hk, hp⟩ := h
  have hlog : s'.logged.denials = s.logged.record e := by
    rw [← record_amend hs (alive_of_step hk)]
    unfold logged
    rw [hp]
  cases hk.move with
  | scRestrict pid level user listSize ok okLog hr =>
    cases hc : s.kernel.restrictTarget pid level listSize with
    | some curr => exact Logged.faithful_step hs.faithful ⟨hfull.succeeds hc, hk, hlog⟩
    | none =>
      obtain ⟨err, -, heq⟩ := Kernel.sysScRestrict_none hc
      have hkernel : s'.kernel = s.kernel := by rw [hr, heq]
      have hsame : s'.logged = s.logged := by
        unfold logged
        rw [hkernel, hp]
        simp only [amend, hc]
      rw [hsame]
      exact hs.faithful
  | setProcRestriction | syscall | getProcessLog | fork | release =>
    refine Logged.faithful_step hs.faithful ⟨?_, hk, hlog⟩
    exact trivial

theorem Tracks.follows_scRestrict (hs : s.Tracks) {pid level listSize : ℤ}
    {user : ℕ → SysCallRestriction} {ok okLog : Bool}
    (hfull : s.kernel.FullKmalloc (.scRestrict pid level user listSize ok okLog))
    (ha : (s.kernel.sysScRestrict pid level user listSize ok okLog).2.Alive t) :
    (s.kernel.sysScRestrict pid level user listSize ok okLog).2.Follows t
      (s.amend (.scRestrict pid level user listSize ok okLog) t) := by
  cases hc : s.kernel.restrictTarget pid level listSize with
  | none =>
    obtain ⟨err, -, heq⟩ := Kernel.sysScRestrict_none hc
    rw [heq] at ha ⊢
    simp only [amend, hc]
    exact hs.follows t ha
  | some curr =>
    obtain ⟨⟨rfl, rfl⟩, hsize⟩ := hfull curr hc
    rw [Kernel.sysScRestrict_some hc] at ha ⊢
    simp only [amend, hc]
    by_cases ht : t = curr
    · rw [ht, Function.update_self]
      exact Kernel.follows_target hsize _
    · have hold := Kernel.alive_replaceList ha
      rw [Function.update_of_ne ht]
      exact Kernel.follows_other hs.sound hold ht (hs.follows t hold)

theorem Tracks.follows_setProcRestriction (hs : s.Tracks) {pid level : ℤ}
    (ha : (s.kernel.sysSetProcRestriction pid level).2.Alive t) :
    (s.kernel.sysSetProcRestriction pid level).2.Follows t (s.amend (.setProcRestriction pid level) t) := by
  rw [Kernel.sysSetProcRestriction_eq] at ha ⊢
  cases hc : s.kernel.restrictTarget pid level 0 with
  | none =>
    simp only [amend, hc] at ha ⊢
    exact hs.follows t ha
  | some curr =>
    simp only [amend, hc] at ha ⊢
    by_cases ht : t = curr
    · subst ht
      have h := hs.follows t (Kernel.alive_restrictTarget hs.sound.owned hc)
      rw [Function.update_self]
      refine ⟨by simp, ?_, fun b hb => ?_⟩
      · rw [← h.list]
        simp only [Kernel.installed, Kernel.tasks_setTask_self]
        rfl
      · rw [Kernel.tasks_setTask_self] at hb ⊢
        exact h.room b hb
    · have hsame : (s.kernel.setTask curr
          { s.kernel.tasks curr with procRestrictionLevel := level }).tasks t = s.kernel.tasks t := by
        simp [Kernel.setTask, ht]
      rw [Function.update_of_ne ht]
      rw [Kernel.Alive, hsame] at ha
      exact (hs.follows t ha).frame hsame fun _ _ => ⟨rfl, rfl⟩

theorem Tracks.follows_syscall (hs : s.Tracks) {num jiffies r : ℤ} {curr : ℕ} {k' : Kernel}
    (hc : s.kernel.syscallCheck num curr jiffies = .ok (r, k')) (ha : k'.Alive t) :
    k'.Follows t (s.amend (.syscall num curr jiffies) t) := by
  have hsame : ∀ P, s.kernel.Follows t (s.policy t) → P.level = (s.policy t).level →
      P.list = (s.policy t).list → s.kernel.Follows t P := fun P h hl hL =>
    ⟨h.level.trans hl.symm, h.list.trans hL.symm, h.room⟩
  have hpolicy : (s.amend (.syscall num curr jiffies) t).level = (s.policy t).level ∧
      (s.amend (.syscall num curr jiffies) t).list = (s.policy t).list := by
    simp only [amend]
    by_cases ht : t = curr
    · simp only [ht, Function.update_self, and_self]
    · simp only [Function.update_of_ne ht, and_self]
  rcases Kernel.syscallCheck_ok hc with hp | ⟨-, c, v, -, -, -, rfl⟩
  · rw [hp.same] at ha ⊢
    exact hsame _ (hs.follows t ha) hpolicy.1 hpolicy.2
  · have hold := Kernel.alive_recordDenial.mp ha
    have h := hsame _ (hs.follows t hold) hpolicy.1 hpolicy.2
    have hlists := fun b => Kernel.setBuffer_lists s.kernel c b (v := { s.kernel.buffers c with
      entries := Function.update (s.kernel.buffers c).entries
        ((s.kernel.tasks curr).logListSize.tmod 100).toNat v }) rfl rfl
    by_cases ht : t = curr
    · subst ht
      refine ⟨?_, ?_, fun b hb => ?_⟩
      · simpa [Kernel.recordDenial] using h.level
      · rw [← h.list]
        simp only [Kernel.installed, Kernel.recordDenial, Kernel.tasks_setTask_self]
        cases (s.kernel.tasks t).restrictionsList with
        | none => rfl
        | some b => exact congrArg (List.map · _) (hlists b).2
      · simp only [Kernel.recordDenial, Kernel.tasks_setTask_self] at hb ⊢
        exact (h.room b hb).trans (hlists b).1.ge
    · refine h.frame ?_ fun b _ => hlists b
      simp [Kernel.recordDenial, Kernel.setTask, Kernel.setBuffer, ht]

theorem Tracks.follows_fork (hs : s.Tracks) {current : ℕ} {newPid : Option ℕ}
    (ha : (s.kernel.doFork current newPid).Alive t) :
    (s.kernel.doFork current newPid).Follows t (s.amend (.fork current newPid) t) := by
  have hbuf : (s.kernel.doFork current newPid).buffers = s.kernel.buffers := by
    cases newPid <;> rfl
  rcases Kernel.alive_doFork hs.sound.owned ha with ⟨ht, hold, hsame⟩ | ⟨⟨pid, rfl⟩, rfl, -⟩
  · have hpolicy : s.amend (.fork current newPid) t = s.policy t := by
      cases newPid with
      | none => rfl
      | some pid => exact Function.update_of_ne ht _ _
    rw [hpolicy]
    exact (hs.follows t hold).frame hsame fun b _ => by rw [hbuf]; exact ⟨rfl, rfl⟩
  · have hpolicy : s.amend (.fork current (some pid)) s.kernel.nextTask = ⟨0, [], []⟩ :=
      Function.update_self _ _ _
    rw [hpolicy]
    refine ⟨?_, ?_, fun b hb => ?_⟩ <;> simp_all [Kernel.doFork, Kernel.setTask, Kernel.installed]

theorem Tracks.follows_release (hs : s.Tracks) {curr : ℕ} (ha : (s.kernel.releaseTask curr).Alive t) :
    (s.kernel.releaseTask curr).Follows t (s.policy t) := by
  obtain ⟨hold, hsame⟩ := Kernel.alive_releaseTask hs.sound.owned ha
  refine (hs.follows t hold).frame hsame fun b _ => ?_
  obtain ⟨h1, h2⟩ := Kernel.kfree_lists s.kernel (s.kernel.tasks curr).logList b
  obtain ⟨h3, h4⟩ := Kernel.kfree_lists (s.kernel.kfree (s.kernel.tasks curr).logList)
    ((s.kernel.kfree (s.kernel.tasks curr).logList).tasks curr).restrictionsList b
  exact ⟨h3.trans h1, h4.trans h2⟩

/-- The count of a log stays below the largest `int`. -/
theorem Tracks.short_step (hs : s.Tracks) {k' : Kernel} (hk : s.kernel.Step e k') (hfit : s.kernel.CountFits e)
    (t : ℕ) : (s.amend e t).log.length < 2 ^ 31 := by
  have hrecord := congrFun (record_amend hs (alive_of_step hk)) t
  have hold := hs.short t
  rw [hrecord]
  cases e with
  | syscall num curr jiffies =>
    by_cases ht : t = curr
    · subst ht
      have ha := alive_of_step hk num t jiffies rfl
      have hsize : (s.kernel.tasks t).logListSize = (s.policy t).log.length := (hs.shows ha).size hold
      cases hd : s.kernel.denial num t jiffies with
      | none => simpa [Logged.record, logged, hd] using hold
      | some v =>
        have hne := hfit (by rw [hd]; simp)
        rw [hsize] at hne
        simp only [Logged.record, logged, hd, Function.update_self, Option.toList_some, List.length_append,
          List.length_singleton]
        omega
    · simpa [Logged.record, logged, ht] using hold
  | fork current newPid =>
    cases newPid with
    | none => exact hold
    | some pid =>
      by_cases ht : t = s.kernel.nextTask
      · simp [Logged.record, logged, ht]
      · simpa [Logged.record, logged, ht] using hold
  | scRestrict | setProcRestriction | getProcessLog | release => exact hold

theorem Tracks.step (hs : s.Tracks) (h : s.Step e s') (hfit : s.kernel.CountFits e) : s'.Tracks := by
  have hfaithful := hs.faithful_step h
  obtain ⟨hfull, hk, hp⟩ := h
  refine ⟨hfaithful, fun t ha => ?_, fun t => hp ▸ hs.short_step hk hfit t⟩
  rw [hp]
  cases hk.move with
  | scRestrict pid level user listSize ok okLog hr =>
    rw [hr] at ha ⊢
    exact hs.follows_scRestrict hfull ha
  | setProcRestriction pid level hr =>
    rw [hr] at ha ⊢
    exact hs.follows_setProcRestriction ha
  | syscall num curr jiffies r hc hr => exact hs.follows_syscall hr ha
  | getProcessLog pid size ok hr =>
    rw [hr] at ha ⊢
    exact hs.follows t ha
  | fork current newPid hc hfree hr =>
    rw [hr] at ha ⊢
    exact hs.follows_fork ha
  | release t' hc hr =>
    rw [hr] at ha ⊢
    exact hs.follows_release ha

/-- What `syscall_check` has to do for a task with a policy. -/
structure Enforces (k : Kernel) (P : Policy) (curr : ℕ) (num jiffies : ℤ) : Prop where
  code : (∃ k', k.syscallCheck num curr jiffies = .ok (-1, k')) ↔
    ∃ r, P.list.find? (fun r => r.syscallNum = num) = some r ∧ P.level < r.restrictionThreshold
  denied : ∀ r, P.list.find? (fun r => r.syscallNum = num) = some r → P.level < r.restrictionThreshold →
    ∃ k', k.syscallCheck num curr jiffies = .ok (-1, k') ∧
      k.Appends curr ⟨num, r.restrictionThreshold, P.level, jiffies⟩ k'
  permitted : (¬ ∃ r, P.list.find? (fun r => r.syscallNum = num) = some r ∧
    P.level < r.restrictionThreshold) → k.syscallCheck num curr jiffies = .ok (0, k)

theorem verdict_eq_some {P : Policy} {num jiffies : ℤ} {v : ForbiddenActivityInfo} :
    Kernel.verdict num jiffies P.level P.list = some v ↔
      ∃ r, P.list.find? (fun r => r.syscallNum = num) = some r ∧ P.level < r.restrictionThreshold ∧
        v = ⟨num, r.restrictionThreshold, P.level, jiffies⟩ := by
  unfold Kernel.verdict
  cases P.list.find? (fun r => r.syscallNum = num) with
  | none => simp
  | some r =>
    by_cases hthr : r.restrictionThreshold ≤ P.level
    · simp [hthr]
    · simp [hthr, not_le.mp hthr, eq_comm]

/-- A record is appended unless the count of the log wraps. -/
theorem appends_iff {k : Kernel} {curr c n : ℕ} {v : ForbiddenActivityInfo}
    (hlog : (k.tasks curr).logList = some c) (hn : (k.tasks curr).logListSize = n) (hlt : n < 2 ^ 31) :
    k.Appends curr v (k.recordDenial curr c v) ↔ n ≠ 2 ^ 31 - 1 := by
  have hslot : ((k.tasks curr).logListSize.tmod 100).toNat = n % restListSize := by
    rw [hn]
    exact congrArg Int.toNat (Int.ofNat_tmod n 100).symm
  constructor
  · rintro ⟨c', n', hc', hn', heq⟩ rfl
    have hcount := congrArg (fun k : Kernel => (k.tasks curr).logListSize) heq
    simp only [Kernel.recordDenial, Kernel.tasks_setTask_self] at hcount
    rw [← hn', hn] at hcount
    exact absurd hcount (by decide)
  · intro hne
    refine ⟨c, n, hlog, hn, ?_⟩
    unfold Kernel.recordDenial
    rw [hslot, hn, wrapInt, Int.bmod_eq_of_le (by omega) (by omega)]

/-- The kernel follows the policy exactly as long as the count of the log has room. -/
theorem Tracks.enforces_iff (hs : s.Tracks) {curr : ℕ} (ha : s.kernel.Alive curr) (num jiffies : ℤ) :
    Enforces s.kernel (s.policy curr) curr num jiffies ↔ s.kernel.CountFits (.syscall num curr jiffies) := by
  have hshow := hs.shows ha
  have hshort := hs.short curr
  have hsize : (s.kernel.tasks curr).logListSize = (s.policy curr).log.length := hshow.size hshort
  have hdenial := hs.denial ha num jiffies
  obtain ⟨⟨r, k'⟩, hr⟩ := @Kernel.syscallCheck_total _ _ num jiffies _ hs.sound ha
    (hs.follows curr ha) _ hshow (by omega)
  rcases Kernel.syscallCheck_ok hr with hpass | ⟨rfl, c, v, hv, hlog, -, rfl⟩
  · obtain ⟨rfl, rfl⟩ : r = 0 ∧ k' = s.kernel := ⟨hpass.code, hpass.same⟩
    have hnone : s.kernel.denial num curr jiffies = none := by
      rcases hpass.reason with hd | hd
      · exact hd
      · exact Kernel.denial_eq_none (hshow.unlogged hd).1
    have hno : ¬ ∃ r, (s.policy curr).list.find? (fun r => r.syscallNum = num) = some r ∧
        (s.policy curr).level < r.restrictionThreshold := by
      rintro ⟨r, hfind, hthr⟩
      have hsome := (@verdict_eq_some _ _ jiffies _).mpr ⟨r, hfind, hthr, rfl⟩
      rw [← hdenial, hnone] at hsome
      cases hsome
    refine iff_of_true ⟨iff_of_false ?_ hno, fun r hfind hthr => absurd ⟨r, hfind, hthr⟩ hno, fun _ => hr⟩
      fun h => absurd hnone h
    rintro ⟨k', hk'⟩
    rw [hr] at hk'
    exact absurd (Prod.mk.inj (Except.ok.inj hk')).1 (by decide)
  · have hsome : s.kernel.denial num curr jiffies ≠ none := by rw [hv]; simp
    obtain ⟨e, hfind, hthr, rfl⟩ := verdict_eq_some.mp (hdenial.symm.trans hv)
    have happend := appends_iff (v := ⟨num, e.restrictionThreshold, (s.policy curr).level, jiffies⟩) hlog hsize
      hshort
    have hfits : s.kernel.CountFits (.syscall num curr jiffies) ↔ (s.policy curr).log.length ≠ 2 ^ 31 - 1 := by
      simp only [Kernel.CountFits, hsome, ne_eq, not_false_eq_true, true_implies, hsize]
      omega
    rw [hfits, ← happend]
    constructor
    · intro h
      obtain ⟨k', hk', hap⟩ := h.denied e hfind hthr
      rw [hr] at hk'
      obtain rfl := (Prod.mk.inj (Except.ok.inj hk')).2
      exact hap
    · intro hap
      refine ⟨iff_of_true ⟨_, hr⟩ ⟨e, hfind, hthr⟩, fun e' hfind' _ => ?_, fun h => absurd ⟨e, hfind, hthr⟩ h⟩
      obtain rfl := Option.some.inj (hfind.symm.trans hfind')
      exact ⟨_, hr, hap⟩

/-- Before the first call every live task has its level, no list and no log. -/
structure Start (s : Policed) : Prop where
  boot : s.kernel.Boot
  level : ∀ t, s.kernel.Alive t → (s.kernel.tasks t).procRestrictionLevel = (s.policy t).level
  list : ∀ t, (s.policy t).list = []
  log : ∀ t, (s.policy t).log = []

theorem Start.tracks (h : s.Start) : s.Tracks := by
  refine ⟨Logged.faithful_run h.boot h.log .nil, fun t ha => ?_, fun t => ?_⟩
  · have hnone := h.boot.restrictionsList t ha
    refine ⟨h.level t ha, ?_, fun b hb => ?_⟩
    · rw [h.list t]
      simp [Kernel.installed, hnone]
    · rw [hnone] at hb
      cases hb
  · simp [h.log t]

/-- Steps in which no record is one too many for the count of its log. -/
def FittingStep (s : Policed) (e : Event) (s' : Policed) : Prop := s.Step e s' ∧ s.kernel.CountFits e

theorem tracks_run {s₀ : Policed} {es : List Event} (h0 : s₀.Start) (h : Run FittingStep s₀ es s) : s.Tracks :=
  h.invariant h0.tracks fun _ _ _ hs he => hs.step he.1 he.2

/-- The kernel against the policies. -/
structure Governed (s : Policed) : Prop where
  level : ∀ t, s.kernel.Alive t → (s.kernel.tasks t).procRestrictionLevel = (s.policy t).level
  list : ∀ t, s.kernel.Alive t → s.kernel.installed t = (s.policy t).list
  count : ∀ t, s.kernel.Alive t → (s.kernel.tasks t).logListSize = (s.policy t).log.length
  log : ∀ t c, s.kernel.Alive t → (s.kernel.tasks t).logList = some c →
    Holds restListSize (s.kernel.buffers c).entries (s.policy t).log
  enforces : ∀ curr, s.kernel.Alive curr → ∀ num jiffies,
    Enforces s.kernel (s.policy curr) curr num jiffies ↔ s.kernel.CountFits (.syscall num curr jiffies)
  keepsLog : ∀ e s', s.Step e s' → (∀ num curr jiffies, e ≠ .syscall num curr jiffies) →
    (∀ current newPid, e ≠ .fork current newPid) → ∀ t, s'.kernel.Alive t →
      (s'.kernel.tasks t).logListSize = (s.policy t).log.length ∧
      ∀ c, (s'.kernel.tasks t).logList = some c →
        Holds restListSize (s'.kernel.buffers c).entries (s.policy t).log
  child : ∀ current pid s', s.Step (.fork current (some pid)) s' →
    s'.kernel.tasks s.kernel.nextTask = ⟨pid, 0, none, 0, none, 0⟩ ∧
      (∀ t, t ≠ s.kernel.nextTask → s'.kernel.tasks t = s.kernel.tasks t) ∧
      s'.kernel.buffers = s.kernel.buffers

theorem policy_enforced {s₀ : Policed} {es : List Event} (h0 : s₀.Start) (h : Run FittingStep s₀ es s) :
    s.Governed := by
  have hs := tracks_run h0 h
  refine ⟨fun t ha => (hs.follows t ha).level, fun t ha => (hs.follows t ha).list,
    fun t ha => (hs.shows ha).size (hs.short t), fun t c ha hc => (hs.shows ha).entries (hs.short t) c hc,
    fun curr ha => hs.enforces_iff ha, fun e s' hstep hcall hfork t ha => ?_, fun current pid s' hstep => ?_⟩
  · have hfit : s.kernel.CountFits e := by
      cases e with
      | syscall num curr jiffies => exact absurd rfl (hcall num curr jiffies)
      | scRestrict | setProcRestriction | getProcessLog | fork | release => trivial
    have hs' := hs.step hstep hfit
    have hsame : (s'.policy t).log = (s.policy t).log := by
      have hrecord := congrFun (record_amend hs (alive_of_step hstep.2.1)) t
      rw [hstep.2.2]
      refine hrecord.trans ?_
      cases e with
      | syscall num curr jiffies => exact absurd rfl (hcall num curr jiffies)
      | fork current newPid => exact absurd rfl (hfork current newPid)
      | scRestrict | setProcRestriction | getProcessLog | release => rfl
    rw [← hsame]
    exact ⟨(hs'.shows ha).size (hs'.short t), fun c hc => (hs'.shows ha).entries (hs'.short t) c hc⟩
  obtain ⟨-, ⟨r, hr⟩, -⟩ := hstep
  simp only [Kernel.step] at hr
  split_ifs at hr
  have hk := (Prod.mk.inj (Except.ok.inj hr)).2
  rw [← hk]
  refine ⟨by simp [Kernel.doFork, Kernel.setTask], fun t ht => ?_, rfl⟩
  simp [Kernel.doFork, Kernel.setTask, ht]

section Sample

def sampleGoverned : Policed := ⟨Kernel.sampleBoot, fun t => ⟨(Kernel.sampleBoot.tasks t).procRestrictionLevel, [], []⟩⟩

theorem sampleGoverned_start : sampleGoverned.Start :=
  ⟨Kernel.sampleBoot_boot, fun _ _ => rfl, fun _ => rfl, fun _ => rfl⟩

/-- A list is installed and `n` calls are forbidden. -/
theorem forbidden_run (n : ℕ) (hn : n < 2 ^ 31) : ∃ s, Run FittingStep sampleGoverned (Logged.sampleCalls n) s ∧
    Logged.Ready s.kernel n := by
  induction n with
  | zero =>
    refine ⟨⟨Kernel.sampleInstalled, _⟩, Run.single ⟨⟨?_, ⟨0, rfl⟩, rfl⟩, trivial⟩, ?_⟩
    · intro curr hc
      exact ⟨⟨rfl, rfl⟩, by decide⟩
    · exact ⟨rfl, rfl, ⟨rfl, rfl, rfl⟩, rfl, rfl⟩
  | succ n ih =>
    obtain ⟨s, hrun, hr⟩ := ih (by omega)
    obtain ⟨hcheck, -⟩ := Logged.ready_call hr n
    have hr' := Logged.ready_syscall hr hn n
    refine ⟨⟨s.kernel.recordDenial 0 1 (Logged.sampleEntry n), s.amend (.syscall 20 0 n)⟩, ?_, hr'⟩
    have halive : s.kernel.Alive 0 := by simp [Kernel.Alive, hr.task, hr.hash]
    rw [Logged.sampleCalls_succ]
    refine hrun.snoc ⟨⟨trivial, ⟨-1, (if_pos halive).trans hcheck⟩, rfl⟩, fun _ => ?_⟩
    rw [hr.task]
    show (n : ℤ) ≠ 2 ^ 31 - 1
    omega

theorem policy_enforced_sample : ∃ s, Run FittingStep sampleGoverned (Logged.sampleCalls 3) s ∧ s.Governed := by
  obtain ⟨s, hrun, -⟩ := forbidden_run 3 (by omega)
  exact ⟨s, hrun, policy_enforced sampleGoverned_start hrun⟩

/-- With the count at its least value the slot of the next record is negative. -/
theorem sample_overrun {k : Kernel} (htask : k.tasks 0 = ⟨1, 1, some 0, 1, some 1, -2 ^ 31⟩)
    (hlist : (k.buffers 0).frees = 0 ∧ (k.buffers 0).bytes = 8 ∧ (k.buffers 0).restrictions 0 = ⟨20, 2⟩)
    (hlog : (k.buffers 1).frees = 0) : k.syscallCheck 20 0 0 = .error (.outOfBounds (-48)) := by
  have hread : k.restriction (some 0) 0 = .ok ⟨20, 2⟩ := by
    simp [Kernel.restriction, Kernel.deref, hlist, sizeofScr, bind, Except.bind, pure, Except.pure]
  have hwrite : ∀ v, k.setLogEntry (some 1) (-48) v = .error (.outOfBounds (-48)) := by
    intro v
    simp [Kernel.setLogEntry, Kernel.deref_some hlog, bind, Except.bind]
  simp [Kernel.syscallCheck, Kernel.checkLoop, htask, hread, hwrite, bind, Except.bind]

/-- After 2 ^ 31 - 1 forbidden calls the next one makes the count negative, and the one after it is
recorded in front of the log. -/
theorem policy_not_enforced : ∃ s, Run FittingStep sampleGoverned (Logged.sampleCalls (2 ^ 31 - 1)) s ∧
    s.kernel.Alive 0 ∧ ¬ Enforces s.kernel (s.policy 0) 0 20 0 ∧
    ∃ k', s.kernel.syscallCheck 20 0 0 = .ok (-1, k') ∧ (k'.tasks 0).logListSize = -2 ^ 31 ∧
      k'.syscallCheck 20 0 0 = .error (.outOfBounds (-48)) := by
  obtain ⟨s, hrun, hr⟩ := forbidden_run (2 ^ 31 - 1) (by omega)
  have hs := tracks_run sampleGoverned_start hrun
  have halive : s.kernel.Alive 0 := by simp [Kernel.Alive, hr.task, hr.hash]
  have hdenial : s.kernel.denial 20 0 0 = some (Logged.sampleEntry 0) := (Logged.ready_call hr 0).2
  have hcount : (s.kernel.tasks 0).logListSize = 2 ^ 31 - 1 := by rw [hr.task]; rfl
  have hno : ¬ Enforces s.kernel (s.policy 0) 0 20 0 := by
    rw [hs.enforces_iff halive]
    intro hfits
    exact hfits (hdenial ▸ (by simp)) hcount
  obtain ⟨⟨r, k'⟩, hcall⟩ := @Kernel.syscallCheck_total _ _ 20 0 _ hs.sound halive
    (hs.follows 0 halive) _ (hs.shows halive) (by rw [hcount]; decide)
  rcases Kernel.syscallCheck_ok hcall with hpass | ⟨rfl, c, v, -, hlog, -, rfl⟩
  · rcases hpass.reason with hd | hd
    · rw [hdenial] at hd
      cases hd
    · rw [hr.task] at hd
      cases hd
  · obtain rfl : 1 = c := by
      rw [hr.task] at hlog
      exact Option.some.inj hlog
    refine ⟨s, hrun, halive, hno, _, hcall, ?_, sample_overrun ?_ ?_ ?_⟩
    · simp only [Kernel.recordDenial, Kernel.tasks_setTask_self, hcount]
      decide
    · simp only [Kernel.recordDenial, Kernel.tasks_setTask_self, hr.task]
      decide
    · simpa [Kernel.recordDenial, Kernel.setTask, Kernel.setBuffer] using hr.list
    · simpa [Kernel.recordDenial, Kernel.setTask, Kernel.setBuffer] using hr.log.1

end Sample

end Policed

end OperationSystems.Restrict
