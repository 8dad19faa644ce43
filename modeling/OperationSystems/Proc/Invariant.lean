import Mathlib
import OperationSystems.Proc.Links

/-!
# Well-formed process tables

Every parent is a task that is not dead, the lists of children and the hash
chains are right, the thread groups are rings, and the parent that a dead task
has now was told of its death. The calls other than `exit_notify` and `wait4`.
-/

namespace OperationSystems.Proc

open Function (update)
open HeadedList Transition Rings

variable {s s' : Table} {p cur : Ptr}

namespace Table

def Live (s : Table) (p : Ptr) : Prop := (p = initTask ∨ p ∈ s.tasks) ∧ s.state p ≠ .zombie

structure Wf (s : Table) : Prop where
  nodup : s.tasks.Nodup
  root : initTask ∉ s.tasks
  reaper : childReaper ∈ s.tasks
  reaper_pid : s.pid childReaper = 1
  reaper_runs : s.exiting childReaper = false
  root_runs : s.exiting initTask = false
  zombie : ∀ p, s.state p = .zombie → s.exiting p = true
  families : ∃ q, s.Families q
  parents : ∀ p ∈ s.tasks, s.Live (s.pptr p) ∧ s.Live (s.opptr p)
  hashed : ∃ h, s.Hashed s.tasks h
  threads : Linked s.nextThread s.prevThread {p | p ∈ s.tasks}
  notified : ∀ p ∈ s.tasks, s.state p = .zombie → s.notified p = some (s.pptr p)
  count : s.nrThreads = s.tasks.length

/-- The table without the fields that the links do not depend on. -/
def links (s : Table) : Table :=
  { s with
    pgrp := fun _ => 0
    tgid := fun _ => 0
    session := fun _ => 0
    leader := fun _ => false
    didExec := fun _ => false
    state := fun _ => .running
    exiting := fun _ => false
    ptraced := fun _ => false
    exitSignal := fun _ => 0
    exitCode := fun _ => 0
    parentExecId := fun _ => 0
    selfExecId := fun _ => 0
    lastPid := 0
    nextSafe := 0
    hangups := [] }

theorem eq_of_links {β : Type*} (f : Table → β) (hf : ∀ s, f s.links = f s) (h : s'.links = s.links) :
    f s' = f s := by
  rw [← hf s', h, hf s]

/-- The call changes no number of a task that stays. -/
def KeepsIds (s s' : Table) : Prop :=
  (∀ a ∈ s'.tasks, a ∈ s.tasks ∧ s'.ids a = s.ids a ∧ s'.leader a = s.leader a) ∧
    s'.lastPid = s.lastPid ∧ s'.nextSafe = s.nextSafe ∧ s'.maxThreads = s.maxThreads

theorem KeepsIds.refl (s : Table) : s.KeepsIds s := ⟨fun _ ha => ⟨ha, rfl, rfl⟩, rfl, rfl, rfl⟩

namespace Wf

theorem live_of_runs (hw : s.Wf) (hr : s.exiting p = false) : s.state p ≠ .zombie := by
  intro hz
  rw [hw.zombie p hz] at hr
  cases hr

theorem live_cur (hw : s.Wf) (hr : s.Runs cur) : s.Live cur := ⟨.inr hr.1, hw.live_of_runs hr.2⟩

theorem live_reaper (hw : s.Wf) : s.Live childReaper := ⟨.inr hw.reaper, hw.live_of_runs hw.reaper_runs⟩

theorem of_links (hw : s.Wf) (h : s'.links = s.links) (hz : ∀ p, s'.state p = .zombie ↔ s.state p = .zombie)
    (he : ∀ p, s.exiting p = true → s'.exiting p = true)
    (hr : ∀ p, p = initTask ∨ p = childReaper → s'.exiting p = s.exiting p) : s'.Wf := by
  have ht : s'.tasks = s.tasks := eq_of_links Table.tasks (fun _ => rfl) h
  have hpid : s'.pid = s.pid := eq_of_links Table.pid (fun _ => rfl) h
  have hpp : s'.pptr = s.pptr := eq_of_links Table.pptr (fun _ => rfl) h
  have hop : s'.opptr = s.opptr := eq_of_links Table.opptr (fun _ => rfl) h
  have hnt : s'.nextThread = s.nextThread := eq_of_links Table.nextThread (fun _ => rfl) h
  have hpt : s'.prevThread = s.prevThread := eq_of_links Table.prevThread (fun _ => rfl) h
  have hno : s'.notified = s.notified := eq_of_links Table.notified (fun _ => rfl) h
  have hlive : ∀ p, s.Live p → s'.Live p := fun p hl => ⟨ht ▸ hl.1, mt (hz p).mp hl.2⟩
  obtain ⟨q, hq⟩ := hw.families
  obtain ⟨b, hb⟩ := hw.hashed
  refine ⟨ht ▸ hw.nodup, ht ▸ hw.root, ht ▸ hw.reaper, hpid ▸ hw.reaper_pid, ?_, ?_, ?_, ⟨q, ?_⟩, ?_, ⟨b, ?_⟩,
    ?_, ?_, ?_⟩
  · exact (hr _ (.inr rfl)).trans hw.reaper_runs
  · exact (hr _ (.inl rfl)).trans hw.root_runs
  · exact fun p hp => he p (hw.zombie p ((hz p).mp hp))
  · exact hq.congr (fun a => by rw [ht]) (eq_of_links Table.cptr (fun _ => rfl) h) (eq_of_links Table.osptr (fun _ => rfl) h)
      (eq_of_links Table.ysptr (fun _ => rfl) h) hpp
  · rw [ht, hpp, hop]
    exact fun p hp => ⟨hlive _ (hw.parents p hp).1, hlive _ (hw.parents p hp).2⟩
  · exact hb.congr (fun a => by rw [ht]) (eq_of_links Table.pidhash (fun _ => rfl) h) (eq_of_links Table.pidhashNext (fun _ => rfl) h)
      (eq_of_links Table.pidhashPprev (fun _ => rfl) h) (fun a _ => by rw [hpid])
  · rw [ht, hnt, hpt]
    exact hw.threads
  · rw [ht, hno, hpp]
    exact fun p hp hzp => hw.notified p hp ((hz p).mp hzp)
  · rw [ht, show s'.nrThreads = s.nrThreads from eq_of_links Table.nrThreads (fun _ => rfl) h]
    exact hw.count

/-- Only dead tasks are no parents, so a new `task_struct` has no children. -/
theorem no_children {q : Ptr → List Ptr} (hw : s.Wf) (hq : s.Families q) (hp : ¬ s.Live p) : q p = [] := by
  refine List.eq_nil_iff_forall_not_mem.mpr fun a ha => hp ?_
  obtain ⟨hat, rfl⟩ := (hq.mem p a).mp ha
  exact (hw.parents a hat).1

section fork
variable {flags : CloneFlags} {n : ℕ}

theorem threads_linkChild (hw : s.Wf) (hc : cur ∈ s.tasks) (hp : p ∉ s.tasks) :
    Linked (s.linkChild cur p flags n).nextThread (s.linkChild cur p flags n).prevThread
      (insert p {a | a ∈ s.tasks}) := by
  have hcp : cur ≠ p := ne_of_mem_of_not_mem hc hp
  have hne : ∀ x ∈ {a | a ∈ s.tasks}, x ≠ p := fun x hx => ne_of_mem_of_not_mem hx hp
  have hnext := hne _ (hw.threads.next_mem cur hc)
  rw [linkChild]
  cases hf : flags.thread with
  | false =>
    refine hw.threads.single hp ?_ ?_ ?_ ?_
    · simp [copyProcess, setLinks, hashPid]
    · simp [copyProcess, setLinks, hashPid]
    · intro x hx
      simp [copyProcess, setLinks, hashPid, hne x hx]
    · intro x hx
      simp [copyProcess, setLinks, hashPid, hne x hx]
  | true =>
    refine hw.threads.add hp hc ?_ ?_ ?_ ?_ ?_ ?_
    · simp [copyProcess, setLinks, hashPid, listAdd]
    · simp [copyProcess, setLinks, hashPid, listAdd, hcp, hcp.symm]
    · simp [copyProcess, setLinks, hashPid, listAdd]
    · simp [copyProcess, setLinks, hashPid, listAdd, hcp, hnext]
    · intro x hx hxc
      simp [copyProcess, setLinks, hashPid, listAdd, hne x hx, hxc]
    · intro x hx hxn
      simp [copyProcess, setLinks, hashPid, listAdd, hne x hx, hcp, hxn]

theorem families_linkChild {q : Ptr → List Ptr} (hw : s.Wf) (hq : s.Families q) (hi : p ≠ initTask)
    (hp : p ∉ s.tasks) : ∃ q', (s.linkChild cur p flags n).Families q' := by
  have hnone : s.cptr p = none := by
    rw [hq.read_head, hw.no_children hq (fun hl => hl.1.elim hi hp), List.head?_nil]
  have hc : update s.cptr p none = s.cptr := by rw [← hnone, Function.update_eq_self]
  have hcopy : (s.copyProcess cur p flags n).Families q := by
    refine hq.outside hp (fun _ => Iff.rfl) hc (fun _ _ => rfl) (fun _ _ => rfl) ?_
    intro a ha
    simp [copyProcess, ha]
  have hset := hcopy.setLinks hp
  refine ⟨_, hset.congr (fun a => ?_) ?_ ?_ ?_ ?_⟩ <;>
    rw [linkChild] <;> cases flags.thread <;> first | exact Iff.rfl | rfl

theorem hashed_linkChild {h : ℕ → List Ptr} (hh : s.Hashed s.tasks h) (hp : p ∉ s.tasks) :
    ∃ h', (s.linkChild cur p flags n).Hashed (s.linkChild cur p flags n).tasks h' := by
  have hcopy : (s.copyProcess cur p flags n).Hashed s.tasks h := by
    refine hh.congr (fun _ => Iff.rfl) rfl rfl rfl ?_
    intro a ha
    simp [copyProcess, ne_of_mem_of_not_mem ha hp]
  have hmem : ∀ a, a ∈ s.tasks ++ [p] ↔ a ∈ s.tasks ∨ a = p := by simp
  have hpush := hcopy.hashPid hp hmem
  refine ⟨_, hpush.congr (fun a => ?_) ?_ ?_ ?_ fun a _ => ?_⟩ <;>
    rw [linkChild] <;> cases flags.thread <;> first | exact Iff.rfl | rfl

theorem linkChild (hw : s.Wf) (hr : s.Runs cur) (hi : p ≠ initTask) (hp : p ∉ s.tasks) :
    (s.linkChild cur p flags n).Wf := by
  obtain ⟨q, hq⟩ := hw.families
  obtain ⟨h, hh⟩ := hw.hashed
  have ht : (s.linkChild cur p flags n).tasks = s.tasks ++ [p] := by
    rw [Table.linkChild]
    cases flags.thread <;> rfl
  have hst : (s.linkChild cur p flags n).state = update s.state p .running := by
    rw [Table.linkChild]
    cases flags.thread <;> rfl
  have hex : (s.linkChild cur p flags n).exiting = update s.exiting p (s.exiting cur) := by
    rw [Table.linkChild]
    cases flags.thread <;> rfl
  have hpid : (s.linkChild cur p flags n).pid = update s.pid p n := by
    rw [Table.linkChild]
    cases flags.thread <;> rfl
  have hop : (s.linkChild cur p flags n).opptr =
      update s.opptr p (if flags.parent then s.opptr cur else cur) := by
    rw [Table.linkChild]
    cases flags.thread <;> rfl
  have hpp : (s.linkChild cur p flags n).pptr =
      update s.pptr p (if flags.parent || (s.ptraced cur && flags.ptrace) then s.pptr cur else cur) := by
    rw [Table.linkChild]
    cases flags.thread <;> rfl
  have hno : (s.linkChild cur p flags n).notified = update s.notified p none := by
    rw [Table.linkChild]
    cases flags.thread <;> rfl
  have hnr : (s.linkChild cur p flags n).nrThreads = s.nrThreads + 1 := by
    rw [Table.linkChild]
    cases flags.thread <;> rfl
  have hne : ∀ a ∈ s.tasks, a ≠ p := fun a ha => ne_of_mem_of_not_mem ha hp
  have hlive : ∀ k, s.Live k → (s.linkChild cur p flags n).Live k := by
    rintro k ⟨hk, hz⟩
    have hkp : k ≠ p := by
      rintro rfl
      exact hk.elim hi hp
    refine ⟨?_, ?_⟩
    · rw [ht, List.mem_append]
      exact hk.imp_right .inl
    · rwa [hst, Function.update_of_ne hkp]
  have hcur := hw.live_cur hr
  have hpar := hw.parents cur hr.1
  refine ⟨?_, ?_, ?_, ?_, ?_, ?_, ?_, hw.families_linkChild hq hi hp, ?_, hashed_linkChild hh hp, ?_, ?_, ?_⟩
  · rw [ht]
    exact List.nodup_append.mpr ⟨hw.nodup, List.nodup_singleton p, fun a ha b hb => by
      rw [List.mem_singleton.mp hb]
      exact hne a ha⟩
  · rw [ht, List.mem_append, List.mem_singleton]
    exact fun hm => hm.elim hw.root fun he => hi he.symm
  · rw [ht, List.mem_append]
    exact .inl hw.reaper
  · rw [hpid, Function.update_of_ne (hne _ hw.reaper), hw.reaper_pid]
  · rw [hex, Function.update_of_ne (hne _ hw.reaper), hw.reaper_runs]
  · rw [hex, Function.update_of_ne hi.symm, hw.root_runs]
  · intro a ha
    rw [hst] at ha
    rw [hex]
    by_cases hap : a = p
    · simp [hap] at ha
    · rw [Function.update_of_ne hap] at ha ⊢
      exact hw.zombie a ha
  · intro a ha
    rw [ht, List.mem_append, List.mem_singleton] at ha
    rw [hpp, hop]
    rcases ha with ha | rfl
    · rw [Function.update_of_ne (hne a ha), Function.update_of_ne (hne a ha)]
      exact ⟨hlive _ (hw.parents a ha).1, hlive _ (hw.parents a ha).2⟩
    · rw [Function.update_self, Function.update_self]
      refine ⟨?_, ?_⟩
      · split
        · exact hlive _ hpar.1
        · exact hlive _ hcur
      · split
        · exact hlive _ hpar.2
        · exact hlive _ hcur
  · have hset : {a | a ∈ (s.linkChild cur p flags n).tasks} = insert p {a | a ∈ s.tasks} := by
      ext a
      simp [ht, or_comm]
    rw [hset]
    exact hw.threads_linkChild hr.1 hp
  · intro a ha hz
    rw [ht, List.mem_append, List.mem_singleton] at ha
    rw [hst] at hz
    rw [hno, hpp]
    rcases ha with ha | rfl
    · rw [Function.update_of_ne (hne a ha)] at hz ⊢
      rw [Function.update_of_ne (hne a ha)]
      exact hw.notified a ha hz
    · simp at hz
  · rw [hnr, ht, List.length_append, hw.count, List.length_singleton]

end fork

end Wf

end Table

theorem Table.Wf.boot (maxThreads : ℕ) : (boot maxThreads).Wf := by
  have hlive : (Proc.boot maxThreads).Live initTask := ⟨.inl rfl, by simp [Proc.boot]⟩
  refine ⟨by simp [Proc.boot], by simp [Proc.boot, initTask, childReaper], by simp [Proc.boot],
    by simp [Proc.boot], rfl, rfl, by simp [Proc.boot],
    ⟨fun k => if k = initTask then [childReaper] else [], ?_, ?_⟩, fun p _ => ⟨hlive, hlive⟩,
    ⟨fun b => if b = pidHashfn 1 then [childReaper] else [], ?_, ?_⟩, ?_, by simp [Proc.boot], rfl⟩
  · intro k
    by_cases hk : k = initTask
    · subst hk
      simp [Segment, HeadedList.Path, cell, familyRead, familyBack, Proc.boot]
    · simp [Segment, HeadedList.Path, cell, familyRead, Proc.boot, hk]
  · intro k a
    by_cases hk : k = initTask
    · simp [Proc.boot, hk]
    · simp [Proc.boot, hk, Ne.symm hk]
  · intro b
    by_cases hb : b = pidHashfn 1
    · subst hb
      simp [Segment, HeadedList.Path, cell, hashRead, Proc.boot]
    · simp [Segment, HeadedList.Path, cell, hashRead, Proc.boot, hb]
  · intro b a
    by_cases hb : b = pidHashfn 1
    · subst hb
      simp only [Proc.boot, if_true, List.mem_singleton]
      constructor
      · rintro rfl
        exact ⟨rfl, rfl⟩
      · exact And.left
    · simp only [Proc.boot, hb, if_false, List.mem_singleton, List.not_mem_nil, false_iff]
      rintro ⟨rfl, he⟩
      exact hb he.symm
  · exact ⟨fun _ hx => hx, fun _ hx => hx, fun _ _ => rfl, fun _ _ => rfl⟩

end OperationSystems.Proc
