import OperationSystems.Restrict.Replace
import OperationSystems.Lib.Run

/-!
# Ownership of the restriction and log buffers

As long as no allocation of a log fails, the pointers of the live tasks account
for every buffer: an unreleased one has one pointer to it, all others were freed
once. Each event keeps this, and the first log that cannot be allocated breaks it.
-/

namespace OperationSystems.Restrict
open Ownership Transition

namespace Kernel
variable {k : Kernel} {curr t : ℕ} {v : Task}

section Events
variable {k' : Kernel} {pid level listSize num jiffies r : ℤ} {user : ℕ → SysCallRestriction}
  {ok okLog : Bool}

/-- The task that a call of `sys_sc_restrict` gets to after its checks. -/
def restrictTarget (k : Kernel) (pid level listSize : ℤ) : Option ℕ :=
  if pid < 0 ∨ level < 0 ∨ level > 2 ∨ listSize < 0 then none else k.findTaskByPid pid

theorem sysScRestrict_none (h : k.restrictTarget pid level listSize = none) :
    ∃ e, e ≠ 0 ∧ k.sysScRestrict pid level user listSize ok okLog = (e, k) := by
  simp only [restrictTarget, ite_eq_left_iff] at h
  unfold sysScRestrict
  cases hcurr : k.findTaskByPid pid with
  | none =>
    refine ⟨-esrch, by decide, ?_⟩
    split_ifs <;> rfl
  | some curr =>
    dsimp only
    split_ifs with hpid hlevel hsize
    · exact ⟨-esrch, by decide, rfl⟩
    · exact ⟨-einval, by decide, rfl⟩
    · exact ⟨-einval, by decide, rfl⟩
    · rw [h (by tauto)] at hcurr
      cases hcurr

theorem sysScRestrict_some (h : k.restrictTarget pid level listSize = some curr) :
    k.sysScRestrict pid level user listSize ok okLog =
      k.replaceList curr level user listSize ok okLog := by
  simp only [restrictTarget] at h
  split_ifs at h with hc
  simp only [not_or] at hc
  simp only [sysScRestrict, if_neg hc.1, h, if_neg (not_or.mpr ⟨hc.2.1, hc.2.2.1⟩),
    if_neg hc.2.2.2]

theorem alive_restrictTarget (ho : k.Owned) (h : k.restrictTarget pid level listSize = some curr) :
    k.Alive curr := by
  simp only [restrictTarget] at h
  split_ifs at h
  have hp := (ho.hashed _ _ h).1
  rw [Alive, hp]
  exact h

/-- The logs that an event asks for are allocated. -/
def LogKmallocOk (k : Kernel) : Event → Prop
  | .scRestrict pid level _ listSize ok okLog =>
    ∀ curr ∈ k.restrictTarget pid level listSize, k.LogAllocated curr ok okLog
  | _ => True

instance (k : Kernel) (curr : ℕ) (ok okLog : Bool) : Decidable (k.LogAllocated curr ok okLog) :=
  inferInstanceAs (Decidable (_ → _ → _))

instance (k : Kernel) (e : Event) : Decidable (k.LogKmallocOk e) :=
  match e with
  | .scRestrict pid level _ listSize ok okLog => inferInstanceAs (Decidable
      (∀ curr ∈ k.restrictTarget pid level listSize, k.LogAllocated curr ok okLog))
  | .setProcRestriction .. | .syscall .. | .getProcessLog .. | .fork .. | .release .. =>
    .isTrue trivial

theorem owned_same (ho : k.Owned) (hs : SameTasks k k') (hl : k'.ledger = k.ledger)
    (hv : v.pid = (k.tasks curr).pid) (hp : v.pointer = (k.tasks curr).pointer)
    (ha : k.Alive curr) : (k'.setTask curr v).Owned := by
  refine owned_setTask ho hs hv ha ?_
  rw [hl]
  refine ho.holds.congr fun o b => ?_
  obtain ⟨t, s⟩ := o
  by_cases ht : t = curr
  · subst ht
    simp [Repointed, Points, ha, hp]
  · simp [Repointed, ht]

theorem owned_sysScRestrict (ho : k.Owned)
    (he : k.LogKmallocOk (.scRestrict pid level user listSize ok okLog)) :
    (k.sysScRestrict pid level user listSize ok okLog).2.Owned := by
  cases hc : k.restrictTarget pid level listSize with
  | none =>
    obtain ⟨_, -, heq⟩ := sysScRestrict_none hc
    rw [heq]
    exact ho
  | some curr =>
    rw [sysScRestrict_some hc]
    exact owned_replaceList ho (alive_restrictTarget ho hc) (he curr hc)

theorem owned_sysSetProcRestriction (ho : k.Owned) :
    (k.sysSetProcRestriction pid level).2.Owned := by
  unfold sysSetProcRestriction
  cases hcurr : k.findTaskByPid pid with
  | none => split_ifs <;> exact ho
  | some curr =>
    have ha : k.Alive curr := by
      rw [Alive, (ho.hashed _ _ hcurr).1]
      exact hcurr
    dsimp only
    split_ifs
    · exact ho
    · exact ho
    · exact owned_same ho ⟨rfl, rfl, rfl⟩ rfl rfl (by funext s; cases s <;> rfl) ha

theorem owned_syscallCheck (ho : k.Owned) (ha : k.Alive curr)
    (h : k.syscallCheck num curr jiffies = .ok (r, k')) : k'.Owned := by
  rcases syscallCheck_ok h with hp | ⟨-, c, v, -, -, -, rfl⟩
  · rw [hp.same]
    exact ho
  · exact owned_same ho ⟨rfl, rfl, rfl⟩ (ledger_setBuffer_same k c rfl rfl) rfl
      (by funext s; cases s <;> rfl) ha

theorem owned_doFork {newPid : Option ℕ} (ho : k.Owned)
    (hfree : ∀ pid ∈ newPid, k.pidHash pid = none) : (k.doFork curr newPid).Owned := by
  cases newPid with
  | none => exact ho
  | some pid =>
    have hpid : k.pidHash pid = none := hfree pid rfl
    have hnew : ∀ p, k.pidHash p ≠ some k.nextTask := by
      intro p hp
      exact absurd (ho.hashed p _ hp).2 (lt_irrefl _)
    refine ⟨?_, ho.holds.congr ?_⟩
    · intro p t hp
      by_cases hpp : p = pid
      · subst hpp
        simp only [doFork, Function.update_self, Option.some.injEq] at hp
        subst hp
        simp [doFork, setTask]
      · simp only [doFork, Function.update_of_ne hpp] at hp
        have ht : t ≠ k.nextTask := by
          rintro rfl
          exact hnew p hp
        obtain ⟨h1, h2⟩ := ho.hashed p t hp
        exact ⟨by simpa [doFork, setTask, ht] using h1, Nat.lt_succ_of_lt h2⟩
    · rintro ⟨t, s⟩ b
      by_cases ht : t = k.nextTask
      · subst ht
        have hn : ¬ k.Points (k.nextTask, s) b := fun hp => hnew _ hp.1
        simp only [hn, iff_false]
        cases s <;> simp [Points, doFork, setTask, Task.pointer]
      · by_cases hp : (k.tasks t).pid = pid
        · have hne : k.nextTask ≠ t := Ne.symm ht
          simp [Points, Alive, doFork, setTask, ht, hp, hpid, hne]
        · simp [Points, Alive, doFork, setTask, ht, hp]

/-- A task after a fork was there before, or it is the child. -/
theorem alive_doFork {newPid : Option ℕ} (ho : k.Owned) (ha : (k.doFork curr newPid).Alive t) :
    (t ≠ k.nextTask ∧ k.Alive t ∧ (k.doFork curr newPid).tasks t = k.tasks t) ∨
      (∃ pid, newPid = some pid) ∧ t = k.nextTask ∧
        ((k.doFork curr newPid).tasks t).restrictionsListSize = 0 ∧
        ((k.doFork curr newPid).tasks t).logList = none ∧
        ((k.doFork curr newPid).tasks t).logListSize = 0 := by
  cases newPid with
  | none => exact Or.inl ⟨Nat.ne_of_lt (ho.hashed _ t ha).2, ha, rfl⟩
  | some pid =>
    by_cases ht : t = k.nextTask
    · subst ht
      right
      simp [doFork, setTask]
    · have hsame : (k.doFork curr (some pid)).tasks t = k.tasks t := by simp [doFork, setTask, ht]
      refine Or.inl ⟨ht, ?_, hsame⟩
      rw [Alive, hsame] at ha
      by_cases hp : (k.tasks t).pid = pid
      · simp [doFork, hp, Ne.symm ht] at ha
      · simpa [Alive, doFork, hp] using ha

theorem alive_releaseTask (ho : k.Owned) (ha : (k.releaseTask curr).Alive t) :
    k.Alive t ∧ (k.releaseTask curr).tasks t = k.tasks t := by
  have hs := (sameTasks_kfree k (k.tasks curr).logList).trans
    (sameTasks_kfree (k.kfree (k.tasks curr).logList) (k.tasks curr).restrictionsList)
  by_cases ht : t = curr
  · subst ht
    simp only [Alive, releaseTask, setTask, Function.update_self, (sameTasks_kfree k _).tasks,
      hs.tasks, hs.pidHash, Function.update_apply] at ha
    split_ifs at ha with h0
    exact absurd (ho.hashed 0 t ha).1.symm h0
  · have hsame : (k.releaseTask curr).tasks t = k.tasks t := by
      simp [releaseTask, setTask, ht, (sameTasks_kfree _ _).tasks]
    refine ⟨?_, hsame⟩
    rw [Alive, hsame] at ha
    simp only [releaseTask, hs.pidHash, (sameTasks_kfree k _).tasks, Function.update_apply] at ha
    split_ifs at ha with h0
    exact ha

theorem owned_releaseTask (ho : k.Owned) (ha : k.Alive t) : (k.releaseTask t).Owned := by
  have hs := (sameTasks_kfree k (k.tasks t).logList).trans
    (sameTasks_kfree (k.kfree (k.tasks t).logList) (k.tasks t).restrictionsList)
  have hother : ∀ p t', k.pidHash p = some t' → p ≠ (k.tasks t).pid → t' ≠ t := by
    rintro p t' hp hne rfl
    exact hne (ho.hashed p t' hp).1.symm
  have hlog := holds_kfree ho.holds (o := (t, .logList)) (p := (k.tasks t).logList) fun b => by
    simp [Points, ha, Task.pointer]
  have hlist := holds_kfree hlog (o := (t, .restrictionsList)) (p := (k.tasks t).restrictionsList)
    fun b => by simp [Points, ha, Task.pointer]
  have hk : k.releaseTask t =
      { ((k.kfree (k.tasks t).logList).kfree (k.tasks t).restrictionsList).setTask t
          { k.tasks t with pid := 0 } with
        pidHash := Function.update k.pidHash (k.tasks t).pid none } := by
    simp only [releaseTask, hs.tasks, hs.pidHash, (sameTasks_kfree k _).tasks]
  rw [hk]
  refine ⟨?_, hlist.congr ?_⟩
  · intro p t' hp
    by_cases hpp : p = (k.tasks t).pid
    · simp [hpp] at hp
    · simp only [Function.update_of_ne hpp] at hp
      have ht := hother p t' hp hpp
      obtain ⟨h1, h2⟩ := ho.hashed p t' hp
      exact ⟨by simpa [setTask, ht, hs.tasks] using h1, by simpa [setTask, hs.nextTask] using h2⟩
  · rintro ⟨t', s⟩ b
    by_cases ht : t' = t
    · subst ht
      have hdead : Function.update k.pidHash (k.tasks t').pid none 0 ≠ some t' := by
        by_cases h0 : 0 = (k.tasks t').pid
        · simp [← h0]
        · rw [Function.update_of_ne h0]
          exact fun h => hother 0 t' h h0 rfl
      cases s <;> simp [Points, Alive, setTask, hdead]
    · by_cases hp : (k.tasks t').pid = (k.tasks t).pid
      · have hdead : ¬ k.Alive t' := by
          rw [Alive, hp]
          exact fun h => ht (Option.some.inj (ha.symm.trans h)).symm
        rw [Alive, hp] at hdead
        simp [Points, Alive, setTask, ht, hp, hs.tasks, hdead]
      · simp [Points, Alive, setTask, ht, hp, hs.tasks]

theorem owned_step {e : Event} (ho : k.Owned) (he : k.LogKmallocOk e) (h : k.Step e k') :
    k'.Owned := by
  cases h.move with
  | scRestrict pid level user listSize ok okLog hk => exact hk ▸ owned_sysScRestrict ho he
  | setProcRestriction pid level hk => exact hk ▸ owned_sysSetProcRestriction ho
  | syscall num curr jiffies r ha hk => exact owned_syscallCheck ho ha hk
  | getProcessLog pid size ok hk => exact hk ▸ ho
  | fork current newPid ha hfree hk => exact hk ▸ owned_doFork ho hfree
  | release t ha hk => exact hk ▸ owned_releaseTask ho ha

theorem Boot.owned (h : k.Boot) : k.Owned := by
  refine ⟨h.hashed, ?_, ?_⟩
  · rintro ⟨t, s⟩ b ⟨ha, hb⟩
    cases s with
    | restrictionsList => simp [Task.pointer, h.restrictionsList t ha] at hb
    | logList => simp [Task.pointer, h.logList t ha] at hb
  · intro b hb
    simp [ledger, h.nextBuffer] at hb

theorem owned_run {k₀ : Kernel} {es : List Event} (hB : k₀.Boot)
    (h : Run (fun k e k' => k.LogKmallocOk e ∧ k.Step e k') k₀ es k) : k.Owned :=
  h.invariant (P := Owned) hB.owned fun _ _ _ ho he => owned_step ho he.1 he.2

end Events

/-- What the owners of the buffers are promised. -/
structure BuffersSafe (k : Kernel) : Prop where
  freed_at_most_once : ∀ b < k.nextBuffer, (k.buffers b).frees ≤ 1
  freed_on_release : ∀ b < k.nextBuffer, ¬ k.Alive (k.buffers b).owner.1 → (k.buffers b).frees = 1
  pointers : ∀ t s b, k.Alive t → (k.tasks t).pointer s = some b →
    b < k.nextBuffer ∧ (k.buffers b).frees = 0 ∧
      ∀ t' s', k.Alive t' → (k.tasks t').pointer s' = some b → t' = t ∧ s' = s

theorem Owned.buffersSafe (ho : k.Owned) : k.BuffersSafe := by
  refine ⟨fun b hb => ho.holds.released_le_one hb, ?_, ?_⟩
  · intro b hb hdead
    refine ho.holds.released_once hb fun o hp => ?_
    have howner : (k.buffers b).owner = o := (ho.holds.held o b hp).2.1
    rw [howner] at hdead
    exact hdead hp.1
  · intro t s b ha hb
    have hp : k.Points (t, s) b := ⟨ha, hb⟩
    refine ⟨(ho.holds.held _ b hp).1, (ho.holds.held _ b hp).2.2, ?_⟩
    intro t' s' ha' hb'
    exact Prod.mk.inj (ho.holds.holder_unique (s := (t', s')) ⟨ha', hb'⟩ hp)

theorem not_buffersSafe (ho : k.Owned) {k' : Kernel} {e : Event} (h : k.Step e k')
    (he : ¬ k.LogKmallocOk e) : ¬ k'.BuffersSafe := by
  cases h.move with
  | scRestrict pid level user listSize ok okLog hk =>
    simp only [LogKmallocOk, not_forall] at he
    obtain ⟨curr, hc, he⟩ := he
    rw [sysScRestrict_some hc] at hk
    obtain ⟨ha, hb, hf⟩ := replaceList_dangling (alive_restrictTarget ho hc) he
    rw [← hk] at ha hb hf
    exact fun hs => hf (hs.pointers curr .restrictionsList _ ha hb).2.1
  | setProcRestriction | syscall | getProcessLog | fork | release => exact absurd trivial he

/-- Every run in which no log fails to be allocated keeps the buffers safe, and the first
failure breaks that. -/
theorem buffers_safe {k₀ : Kernel} {es : List Event} (hB : k₀.Boot)
    (h : Run (fun k e k' => k.LogKmallocOk e ∧ k.Step e k') k₀ es k) :
    k.BuffersSafe ∧ ∀ e k', k.Step e k' → (k'.BuffersSafe ↔ k.LogKmallocOk e) := by
  have ho := owned_run hB h
  refine ⟨ho.buffersSafe, fun e k' hs => ⟨fun hk' => ?_, fun he => (owned_step ho he hs).buffersSafe⟩⟩
  by_contra he
  exact not_buffersSafe ho hs he hk'

section Sample

def sampleTask : Task where
  pid := 1
  procRestrictionLevel := 0
  restrictionsList := none
  restrictionsListSize := 0
  logList := none
  logListSize := 0

/-- One live task, with pid 1. -/
def sampleBoot : Kernel where
  tasks := fun _ => sampleTask
  pidHash := fun p => if p = 1 then some 0 else none
  nextTask := 1
  buffers := fun _ =>
    { bytes := 0
      restrictions := fun _ => ⟨0, 0⟩
      entries := fun _ => ⟨0, 0, 0, 0⟩
      owner := (0, .restrictionsList)
      frees := 0 }
  nextBuffer := 0

theorem sampleBoot_boot : sampleBoot.Boot := by
  refine ⟨?_, fun _ _ => rfl, fun _ _ => rfl, fun _ _ => rfl, fun _ _ => rfl, rfl⟩
  intro p t h
  by_cases hp : p = 1
  · subst hp
    obtain rfl : 0 = t := by simpa [sampleBoot] using h
    exact ⟨rfl, Nat.one_pos⟩
  · simp [sampleBoot, hp] at h

def sampleList (i : ℕ) : SysCallRestriction := ⟨20 + i, 2⟩

def sampleEvents : List Event :=
  [.scRestrict 1 1 sampleList 3 true true, .syscall 21 0 7, .fork 0 (some 2),
    .scRestrict 2 0 sampleList 2 true true, .scRestrict 2 0 sampleList 5 true true, .release 1]

theorem buffers_safe_sample : ∃ k,
    Run (fun k e k' => k.LogKmallocOk e ∧ k.Step e k') sampleBoot sampleEvents k ∧
      k.BuffersSafe ∧ ∀ e k', k.Step e k' → (k'.BuffersSafe ↔ k.LogKmallocOk e) := by
  have hexec : (Run.exec (nextIf LogKmallocOk) sampleBoot sampleEvents).isSome := by decide
  obtain ⟨k, hk⟩ := Option.isSome_iff_exists.mp hexec
  have hrun := Run.of_exec (fun _ _ _ => step_of_nextIf) hk
  exact ⟨k, hrun, buffers_safe sampleBoot_boot hrun⟩

/-- The log cannot be allocated, and a second call frees the first list again. -/
def sampleLogFails : List Event :=
  [.scRestrict 1 1 sampleList 1 true false, .scRestrict 1 1 sampleList 1 true true]

theorem buffers_freed_twice : sampleBoot.Boot ∧ ∃ k, Run Step sampleBoot sampleLogFails k ∧
    0 < k.nextBuffer ∧ (k.buffers 0).frees = 2 ∧ ¬ k.BuffersSafe := by
  have hexec : (Run.exec next sampleBoot sampleLogFails).map
      (fun k => (decide (0 < k.nextBuffer), (k.buffers 0).frees)) = some (true, 2) := by decide
  obtain ⟨k, hk, hf⟩ := Option.map_eq_some_iff.mp hexec
  obtain ⟨hn, hf⟩ := Prod.mk.inj hf
  have hn : 0 < k.nextBuffer := of_decide_eq_true hn
  refine ⟨sampleBoot_boot, k, Run.of_exec (fun _ _ _ => step_of_next) hk, hn, hf, fun hs => ?_⟩
  have h1 := hs.freed_at_most_once 0 hn
  omega

end Sample

end Kernel

end OperationSystems.Restrict
