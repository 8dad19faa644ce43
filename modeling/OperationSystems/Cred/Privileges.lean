import OperationSystems.Cred.Guarantees

/-!
# Privileges along a run

What a process gives up it does not get back. The capabilities follow the user
ids in every state of a run, none are left without a root id unless the process
has asked to keep them, the file system id is zero only beside a root id, and a
process whose effective ids have changed is not dumped unless it asks for that.
-/

namespace OperationSystems.Cred

open Transition

variable {P : Policy} {alloc : Bool} {c : Call} {t : Task} {w : World} {s s' : System} {es : List Event} {p : ℕ}
  {u : UInt32}

theorem capabilities_follow (h : Run (System.Step P) s es s') (hf : P.noSetuidFixup = false) :
    ∀ q ∈ descendants p es, q ∈ s'.tasks.live →
      (∀ i, P.capFsMask.getLsbD i = false → (s.tasks.value p).Follows i → (s'.tasks.value q).Follows i) ∧
      (∀ i, (s.tasks.value p).Within i → (s'.tasks.value q).Within i) ∧
      ∀ i, (s'.tasks.value q).capPermitted.getLsbD i = true → (s.tasks.value p).capPermitted.getLsbD i = true :=
  fun q hq hl =>
    ⟨fun _ hi hs => descendants_run h hs (fun _ _ _ _ ht he => he.follows hf hi ht) q hq hl,
      fun _ hs => descendants_run h hs (fun _ _ _ _ ht he => he.within hf ht) q hq hl,
      fun i => descendants_run
        (I := fun t => t.capPermitted.getLsbD i = true → (s.tasks.value p).capPermitted.getLsbD i = true) h id
        (fun _ _ _ _ ht he hi => ht (he.permitted i hi)) q hq hl⟩

/-- Root becomes the user 500 for a while, and a child of it for good. -/
def sampleSwitches : List Event :=
  [.call 1 true (.setreuid noId 500), .fork 1 3 none, .call 1 true (.setreuid noId 0), .call 3 true (.setuid 500)]

theorem capabilities_follow_sample : ∃ s, Run (System.Step samplePolicy) sampleSystem sampleSwitches s ∧
    (s.tasks.value 1).Follows 21 ∧ (s.tasks.value 1).capEffective.getLsbD 21 = true ∧ (s.tasks.value 3).Follows 21 ∧
    (s.tasks.value 3).capEffective.getLsbD 21 = false := by
  have hexec : (Run.exec (System.attempt samplePolicy) sampleSystem sampleSwitches).map (fun s =>
      (decide (1 ∈ s.tasks.live ∧ 3 ∈ s.tasks.live), (s.tasks.value 1).capEffective.getLsbD 21,
        (s.tasks.value 3).capEffective.getLsbD 21)) = some (true, true, false) := by
    decide +kernel
  obtain ⟨s, hrun, hread⟩ := run_of_attempt hexec
  simp only [Prod.mk.injEq, decide_eq_true_eq] at hread
  obtain ⟨⟨hl1, hl3⟩, hc1, hc3⟩ := hread
  have hstart : (sampleSystem.tasks.value 1).Follows 21 := by decide +kernel
  have hfollows := @capabilities_follow samplePolicy sampleSystem s sampleSwitches 1 hrun rfl
  exact ⟨s, hrun, (hfollows 1 (by decide) hl1).1 21 (by decide) hstart, hc1,
    (hfollows 3 (by decide) hl3).1 21 (by decide) hstart, hc3⟩

theorem eq_zero_of_lacks (h : ∀ i, t.Lacks i) : t.capEffective = 0 ∧ t.capPermitted = 0 :=
  ⟨BitVec.eq_of_getLsbD_eq fun i _ => (h i).1.trans BitVec.getLsbD_zero.symm,
    BitVec.eq_of_getLsbD_eq fun i _ => (h i).2.trans BitVec.getLsbD_zero.symm⟩

theorem lacks_of_eq_zero (he : t.capEffective = 0) (hp : t.capPermitted = 0) (i : ℕ) : t.Lacks i := by
  simp [Task.Lacks, he, hp]

/-- What `setuid` leaves of a task with the capability, if it succeeds. -/
theorem setuid_drops (hcap : w.task.capable P.capSetuid = true) (hr : (sysSetuid P alloc u w).1 = 0) :
    ∃ dumpable, (sysSetuid P alloc u w).2.task = fixup P w.task (w.task.rename u u u dumpable) := by
  unfold sysSetuid at hr ⊢
  dsimp only at hr ⊢
  rw [if_pos hcap] at hr ⊢
  by_cases hu : u = w.task.uid
  · have hno : ¬ u ≠ w.task.uid := not_not.mpr hu
    simp only [if_neg hno]
    refine ⟨if w.task.euid ≠ u then false else w.task.dumpable, ?_⟩
    simp [World.setTask, Task.rename, ← hu]
  · rw [if_pos hu] at hr ⊢
    cases alloc with
    | false => simp [setUser, eagain] at hr
    | true =>
      refine ⟨if w.task.euid ≠ u then false else w.task.dumpable, ?_⟩
      simp [setUser, World.setTask, Task.rename, hu]

/-- `setuid` away from root is final: whoever comes from the task has no other id and no
capability, whatever it calls. -/
theorem setuid_final (hf : P.noSetuidFixup = false) (hcap : (s.tasks.value p).capable P.capSetuid = true)
    (hroot : (s.tasks.value p).HasUid 0) (hkeep : (s.tasks.value p).keepCapabilities = false) (hu : u ≠ 0)
    (hr : (s.call P p alloc (.setuid u)).1 = 0) (h : Run (System.Step P) (s.call P p alloc (.setuid u)).2 es s') :
    ∀ q ∈ descendants p es, q ∈ s'.tasks.live →
      (∀ id, (s'.tasks.value q).HasUid id → id = u) ∧ (s'.tasks.value q).fsuid = u ∧
        (s'.tasks.value q).capEffective = 0 ∧ (s'.tasks.value q).capPermitted = 0 := by
  set t := (s.call P p alloc (.setuid u)).2.tasks.value p with ht
  obtain ⟨dumpable, hdrop⟩ := setuid_drops (w := s.current p) hcap hr
  have hval : t = fixup P (s.tasks.value p) ((s.tasks.value p).rename u u u dumpable) :=
    (Population.change_value_self ..).trans hdrop
  have hdrops : Drops (s.tasks.value p).uid (s.tasks.value p).euid (s.tasks.value p).suid
      ((s.tasks.value p).rename u u u dumpable) :=
    ⟨Task.hasUid_iff.mp hroot, ⟨hu, hu, hu⟩, hkeep⟩
  obtain ⟨hperm, heff⟩ := rename_caps hf (s.tasks.value p) u u u dumpable
  rw [if_pos hdrops] at hperm
  rw [if_neg fun hn => hu hn.2, if_pos (.inl hdrops)] at heff
  rw [← hval] at hperm heff
  have hlacks := lacks_of_eq_zero heff hperm
  have hids : t.Confined P (· = u) u := by
    refine ⟨fun id hid => ?_, .inl ?_, (hlacks _).1, fun h0 => absurd h0.symm hu⟩
    · rw [hval] at hid
      simp only [Task.HasUid, fixup_uid, fixup_euid, fixup_suid] at hid
      rcases hid with hid | hid | hid <;> exact hid
    · rw [hval, fixup_fsuid]
      rfl
  intro q hq hl
  have hconf := descendants_run (I := Task.Confined P (· = u) u) h hids (fun _ _ _ _ hs he => he.confined hs) q hq hl
  have hnone : ∀ i, (s'.tasks.value q).Lacks i := fun i =>
    descendants_run (I := fun t => t.Lacks i) h (hlacks i) (fun _ _ _ _ hs he => he.lacks hs) q hq hl
  exact ⟨hconf.ids, hconf.fsuid.elim id id, eq_zero_of_lacks hnone⟩

/-- Root becomes the user 500, and a child tries to take that back. -/
theorem setuid_final_sample : ∃ s, Run (System.Step samplePolicy) (sampleSystem.call samplePolicy 1 true (.setuid 500)).2
    [.release 2, .fork 1 3 none, .call 3 true (.setuid 0), .call 3 true (.setreuid 0 0)] s ∧
    (s.tasks.value 3).capPermitted = 0 ∧ ∀ id, (s.tasks.value 3).HasUid id → id = 500 := by
  have hexec : (Run.exec (System.attempt samplePolicy) (sampleSystem.call samplePolicy 1 true (.setuid 500)).2
      [.release 2, .fork 1 3 none, .call 3 true (.setuid 0), .call 3 true (.setreuid 0 0)]).map
      (fun s => decide (3 ∈ s.tasks.live)) = some true := by
    decide +kernel
  obtain ⟨s, hrun, hl⟩ := run_of_attempt hexec
  obtain ⟨hids, -, -, hperm⟩ := setuid_final (s := sampleSystem) (p := 1) (u := 500) (P := samplePolicy) rfl
    (by decide +kernel) (.inl rfl) rfl (by decide) rfl hrun 3 (by decide) (of_decide_eq_true hl)
  exact ⟨s, hrun, hperm, hids⟩

/-- Without a root id there are no capabilities, as long as nobody asks to keep them. -/
theorem root_only (h : Run (System.Step P) s es s') (hf : P.noSetuidFixup = false)
    (hk : ¬ Makes p es (.setKeepcaps 1)) (hs : (s.tasks.value p).RootOnly) (hw : ∀ i, (s.tasks.value p).Within i) :
    ∀ q ∈ descendants p es, q ∈ s'.tasks.live → ¬ (s'.tasks.value q).HasUid 0 →
      (s'.tasks.value q).capEffective = 0 ∧ (s'.tasks.value q).capPermitted = 0 := by
  intro q hq hl hno
  have hroot := descendants_run (I := Task.RootOnly) h hs
    (fun c _ _ hm ht he => he.rootOnly hf (fun hc => hk (hc ▸ hm)) ht) q hq hl
  have hperm := hroot.none hno
  refine eq_zero_of_lacks fun i => ⟨Bool.eq_false_iff.mpr fun hi => ?_, by simp [hperm]⟩
  have hin := ((capabilities_follow h hf) q hq hl).2.1 i (hw i) hi
  simp [hperm] at hin

theorem not_makes (h : ∀ e ∈ es, ∀ p alloc, e ≠ .call p alloc c) : ¬ Makes p es c := by
  intro hm
  obtain ⟨p, hp⟩ := Population.Makes.mem hm
  obtain ⟨e, he, hl⟩ := List.mem_map.mp hp
  cases e with
  | call q alloc c' =>
    obtain ⟨-, rfl⟩ := Population.Label.change.inj hl
    exact h _ he q alloc rfl
  | fork => cases hl
  | release => cases hl

theorem root_only_sample : ∃ s, Run (System.Step samplePolicy) sampleSystem sampleEvents s ∧
    (s.tasks.value 3).capEffective = 0 ∧ (s.tasks.value 3).capPermitted = 0 := by
  have hexec : (Run.exec (System.attempt samplePolicy) sampleSystem sampleEvents).map
      (fun s => decide (3 ∈ s.tasks.live ∧ ¬ (s.tasks.value 3).HasUid 0)) = some true := by
    decide +kernel
  obtain ⟨s, hrun, hread⟩ := run_of_attempt hexec
  obtain ⟨hl, hno⟩ := of_decide_eq_true hread
  have hk : ¬ Makes 1 sampleEvents (.setKeepcaps 1) := not_makes (by simp [sampleEvents])
  have hperm : (sampleSystem.tasks.value 1).capEffective = (sampleSystem.tasks.value 1).capPermitted := rfl
  exact ⟨s, hrun, root_only hrun rfl hk ⟨rfl, fun hn => absurd (.inl rfl) hn⟩ (fun i hi => hperm ▸ hi) 3
    (by decide) hl hno⟩

/-- The file system id is zero only beside a root id. -/
theorem fsuid_shadows (h : Run (System.Step P) s es s') (hf : P.noSetuidFixup = false)
    (hs : (s.tasks.value p).Shadows) (hcap : (s.tasks.value p).Follows P.capSetuid) :
    ∀ q ∈ descendants p es, q ∈ s'.tasks.live → (s'.tasks.value q).fsuid = 0 → (s'.tasks.value q).HasUid 0 :=
  fun q hq hl => (descendants_run (I := fun t => t.Shadows ∧ t.Follows P.capSetuid) h ⟨hs, hcap⟩
    (fun _ _ _ _ ht he => ⟨he.shadows (fun _ hc => .inr (.inl (ht.2.mp hc).1.symm)) ht.1,
      he.follows hf P.setuid_not_fs ht.2⟩) q hq hl).1

theorem fsuid_shadows_sample : ∃ s, Run (System.Step samplePolicy) sampleSystem
    [.call 1 true (.setreuid noId 500), .call 1 true (.setfsuid 0)] s ∧
    (s.tasks.value 1).euid = 500 ∧ (s.tasks.value 1).fsuid = 0 ∧ (s.tasks.value 1).HasUid 0 := by
  have hexec : (Run.exec (System.attempt samplePolicy) sampleSystem
      [.call 1 true (.setreuid noId 500), .call 1 true (.setfsuid 0)]).map
      (fun s => (decide (1 ∈ s.tasks.live), (s.tasks.value 1).euid, (s.tasks.value 1).fsuid)) =
        some (true, 500, 0) := by
    decide +kernel
  obtain ⟨s, hrun, hread⟩ := run_of_attempt hexec
  simp only [Prod.mk.injEq, decide_eq_true_eq] at hread
  obtain ⟨hl, he, hfs⟩ := hread
  have hid := fsuid_shadows (p := 1) hrun rfl (fun _ => .inl rfl) (by decide +kernel) 1 (by decide) hl hfs
  exact ⟨s, hrun, he, hfs, hid⟩

/-- A task whose effective ids are not those that it started with is not dumped, unless it or one
that it comes from has asked for that. -/
theorem dumped_ids (h : Run (System.Step P) s es s') (hk : ¬ Makes p es (.setDumpable 1)) :
    ∀ q ∈ descendants p es, q ∈ s'.tasks.live → (s'.tasks.value q).dumpable = true →
      (s'.tasks.value q).euid = (s.tasks.value p).euid ∧ (s'.tasks.value q).egid = (s.tasks.value p).egid :=
  descendants_run (I := Task.Dumps (s.tasks.value p).euid (s.tasks.value p).egid) h (fun _ => ⟨rfl, rfl⟩)
    fun _ _ _ hm ht he => he.dumps (fun hc => hk (hc ▸ hm)) ht

/-- Of a task and its child, the one that becomes the user 500 is not dumped any more. -/
theorem dumped_ids_sample : ∃ s, Run (System.Step samplePolicy) sampleSystem
    [.fork 1 3 none, .call 1 true (.setreuid noId 500)] s ∧ (s.tasks.value 1).dumpable = false ∧
    (s.tasks.value 3).dumpable = true ∧ (s.tasks.value 3).euid = 0 ∧ (s.tasks.value 3).egid = 0 := by
  have hexec : (Run.exec (System.attempt samplePolicy) sampleSystem
      [.fork 1 3 none, .call 1 true (.setreuid noId 500)]).map
      (fun s => (decide (3 ∈ s.tasks.live), (s.tasks.value 1).dumpable, (s.tasks.value 3).dumpable)) =
        some (true, false, true) := by
    decide +kernel
  obtain ⟨s, hrun, hread⟩ := run_of_attempt hexec
  simp only [Prod.mk.injEq, decide_eq_true_eq] at hread
  obtain ⟨hl, h1, h3⟩ := hread
  exact ⟨s, hrun, h1, h3, dumped_ids (p := 1) hrun (not_makes (by simp)) 3 (by decide) hl h3⟩

end OperationSystems.Cred
