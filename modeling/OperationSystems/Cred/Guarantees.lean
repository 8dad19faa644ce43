import OperationSystems.Cred.Users

/-!
# What a process can become

Over every run of calls, forks and releases, by any tasks in any order: which
ids and capabilities a task and those that come from it can have, and how many
tasks a user can have. New programs are not loaded in these runs.
-/

namespace OperationSystems.Cred

open Transition

variable {P : Policy} {alloc : Bool} {c : Call} {t : Task} {w : World} {s s' : System} {es : List Event} {p : ℕ}
  {u v : UInt32} {i L : ℕ}

theorem users_counted (h : Run (System.Step P) s es s') (hc : s.Counted)
    (ho : ∀ p ∈ s.tasks.live, (s.tasks.value p).Owned) (u : UInt32) :
    s'.processes u = s'.tasks.tally Task.uid u := by
  have howned := live_run h ho fun _ _ _ hs he => he.owned hs
  rw [counted_run h hc u, Population.tally_congr howned]

/-- A task of root's becomes one of the user 500, whose limit does not let it fork then. -/
def sampleEvents : List Event :=
  [.fork 1 3 none, .call 3 true (.setuid 500), .fork 3 4 none, .release 2]

theorem users_counted_sample : ∃ s, Run (System.Step samplePolicy) sampleSystem sampleEvents s ∧
    s.processes 500 = s.tasks.tally Task.uid 500 ∧ s.processes 500 = 1 := by
  have hexec : (Run.exec (System.attempt samplePolicy) sampleSystem sampleEvents).map
      (fun s => s.processes 500) = some 1 := by
    decide +kernel
  obtain ⟨s, hrun, hone⟩ := run_of_attempt hexec
  exact ⟨s, hrun, users_counted hrun sampleSystem_counted sampleSystem_owned 500, hone⟩

/-- A step in which no task of another user comes to the user `u`. -/
def System.StepApart (P : Policy) (u : UInt32) (s : System) (e : Event) (s' : System) : Prop :=
  System.Step P s e s' ∧ ∀ p ∈ s.tasks.live, (s.tasks.value p).user ≠ u → (s'.tasks.value p).user ≠ u

/-- The tasks of `u` may not have more processes than `L`, and have no way around that. -/
def System.Bounded (P : Policy) (u : UInt32) (L : ℕ) (s : System) : Prop :=
  ∀ p ∈ s.tasks.live, (s.tasks.value p).user = u →
    (s.tasks.value p).Limited P P.rlimitNproc L ∧ (s.tasks.value p).Lacks P.capSysAdmin

theorem stepApart_move {e : Event} (h : System.StepApart P u s e s') :
    Population.Move (fun c t t' => Effect P c t t' ∧ (t.user ≠ u → t'.user ≠ u)) s.tasks e.label s'.tasks := by
  obtain ⟨⟨ha, rfl⟩, hapart⟩ := h
  cases e with
  | call p alloc c =>
    refine .change ha ⟨call_effect P alloc c (s.current p), fun hne => ?_⟩
    simpa [System.next, System.call] using hapart p ha hne
  | fork p q fails =>
    simp only [System.next, System.fork]
    split
    · exact .fail ha.2
    split
    · exact .fail ha.2
    · exact .copy ha.1 ha.2
  | release q => exact .drop

theorem bounded_step {e : Event} (h : System.StepApart P u s e s') (hs : s.Bounded P u L) : s'.Bounded P u L := by
  intro q hq hu
  have hm := stepApart_move h
  refine hm.heirs (D := s.tasks.live) (I := fun t => t.user = u → t.Limited P P.rlimitNproc L ∧ t.Lacks P.capSysAdmin)
    (fun q _ hq => hs q hq) (fun p c t t' _ _ hi hR hu' => ?_) q (hm.live_subset (Finset.Subset.refl _) hq) hq hu
  obtain ⟨hlim, hadmin⟩ := hi (not_imp_not.mp hR.2 hu')
  exact ⟨hR.1.limited hlim, hR.1.lacks hadmin⟩

theorem tally_step {e : Event} (h : System.StepApart P u s e s') (hs : s.Bounded P u L) (hc : s.Counted) :
    s'.tasks.tally Task.user u ≤ max (s.tasks.tally Task.user u) L := by
  obtain ⟨⟨ha, rfl⟩, hapart⟩ := h
  cases e with
  | call p alloc c =>
    have htally := s.tasks.tally_change Task.user u ((s.current p).call P alloc c).2.task ha
    have hstay := hapart p ha
    simp only [System.next, System.call, Population.change_value_self] at hstay ⊢
    split_ifs at htally with hp hv hv
    · omega
    · omega
    · exact absurd hv (hstay hp)
    · omega
  | fork p q fails =>
    have htally := s.tasks.tally_copy (p := p) Task.user u ha.2
    simp only [System.next, System.fork]
    split
    · exact le_max_left _ _
    rename_i hpass
    split
    · exact le_max_left _ _
    · by_cases hu : (s.tasks.value p).user = u
      · obtain ⟨hlim, hadmin⟩ := hs p ha.1 hu
        have hlt : s.processes (s.tasks.value p).user < ((s.tasks.value p).rlim P.rlimitNproc).cur :=
          lt_of_not_ge fun hge => hpass ⟨hge, hadmin.1, hlim.lacks.1⟩
        rw [hc, hu] at hlt
        rw [if_pos hu] at htally
        have hcur := hlim.cur
        simp only
        omega
      · rw [if_neg hu] at htally
        simp only
        omega
  | release q =>
    have htally := s.tasks.tally_drop Task.user u ha
    simp only [System.next, System.release]
    omega

/-- A user whose tasks have the limit `L` and no capability to pass it does not get more tasks
than that, or than there were, unless tasks of other users come to it. -/
theorem user_limited (h : Run (System.StepApart P u) s es s') (hc : s.Counted)
    (ho : ∀ p ∈ s.tasks.live, (s.tasks.value p).Owned) (hb : s.Bounded P u L) :
    s'.tasks.tally Task.uid u ≤ max (s.tasks.tally Task.uid u) L := by
  have hinv : s'.Counted ∧ s'.Bounded P u L ∧ s'.tasks.tally Task.user u ≤ max (s.tasks.tally Task.user u) L := by
    refine h.invariant (P := fun s' => s'.Counted ∧ s'.Bounded P u L ∧
      s'.tasks.tally Task.user u ≤ max (s.tasks.tally Task.user u) L) ⟨hc, hb, le_max_left _ _⟩ ?_
    rintro s₁ e s₂ ⟨hc, hb, hle⟩ hst
    have hstep := tally_step hst hb hc
    exact ⟨counted_step hst.1 hc, bounded_step hst hb, by omega⟩
  have hplain : Run (System.Step P) s es s' := by
    simpa using h.map (f := id) (g := id) fun _ _ _ hst => And.left hst
  have howned := live_run hplain ho fun _ _ _ hs he => he.owned hs
  rw [← Population.tally_congr howned, ← Population.tally_congr ho]
  exact hinv.2.2

theorem sampleSystem_bounded : sampleSystem.Bounded samplePolicy 500 2 := by
  intro p _ hp
  have h2 : p = 2 := by
    by_contra hne
    simp [sampleSystem, hne, rootTask] at hp
  subst h2
  exact ⟨⟨le_rfl, le_rfl, rfl, rfl⟩, rfl, rfl⟩

/-- The second fork is refused, also for the child. -/
theorem user_limited_sample : ∃ s, Run (System.StepApart samplePolicy 500) sampleSystem
    [.fork 2 3 none, .fork 3 4 none, .call 1 true (.setreuid noId 500)] s ∧ s.tasks.tally Task.uid 500 ≤ 2 := by
  have hexec : (Run.exec (fun s e => (System.attempt samplePolicy s e).filter fun s' =>
      decide (∀ p ∈ s.tasks.live, (s.tasks.value p).user ≠ 500 → (s'.tasks.value p).user ≠ 500)) sampleSystem
      [.fork 2 3 none, .fork 3 4 none, .call 1 true (.setreuid noId 500)]).isSome = true := by
    decide +kernel
  obtain ⟨s, hs⟩ := Option.isSome_iff_exists.mp hexec
  have hrun : Run (System.StepApart samplePolicy 500) sampleSystem _ s := Run.of_exec (fun s e s' h => by
    obtain ⟨hs, hapart⟩ := Option.filter_eq_some_iff.mp h
    exact ⟨step_of_attempt hs, of_decide_eq_true hapart⟩) hs
  have hle := user_limited hrun sampleSystem_counted sampleSystem_owned sampleSystem_bounded
  exact ⟨s, hrun, hle.trans (by decide +kernel)⟩

theorem ids_confined (h : Run (System.Step P) s es s') (hp : (s.tasks.value p).capable P.capSetuid = false)
    (hroot : (s.tasks.value p).HasUid 0 → (s.tasks.value p).capPermitted.getLsbD P.capSetuid = false) :
    ∀ q ∈ descendants p es, q ∈ s'.tasks.live →
      (∀ id, (s'.tasks.value q).HasUid id → (s.tasks.value p).HasUid id) ∧
      ((s.tasks.value p).HasUid (s'.tasks.value q).fsuid ∨ (s'.tasks.value q).fsuid = (s.tasks.value p).fsuid) ∧
      ((s.tasks.value p).Lacks P.capSetgid →
        (∀ id, (s'.tasks.value q).HasGid id → (s.tasks.value p).HasGid id) ∧
        ((s.tasks.value p).HasGid (s'.tasks.value q).fsgid ∨
          (s'.tasks.value q).fsgid = (s.tasks.value p).fsgid)) := by
  intro q hq hl
  have huids := descendants_run (I := Task.Confined P (s.tasks.value p).HasUid (s.tasks.value p).fsuid) h
    ⟨fun _ => id, .inr rfl, hp, hroot⟩ (fun _ _ _ _ hs he => he.confined hs) q hq hl
  refine ⟨huids.ids, huids.fsuid, fun hlacks => ?_⟩
  have hgids := descendants_run (I := Task.ConfinedGids P (s.tasks.value p).HasGid (s.tasks.value p).fsgid) h
    ⟨fun _ => id, .inr rfl, hlacks⟩ (fun _ _ _ _ hs he => he.confinedGids hs) q hq hl
  exact ⟨hgids.ids, hgids.fsgid⟩

/-- The user 500 tries to become root, and so does a child. -/
theorem ids_confined_sample : ∃ s, Run (System.Step samplePolicy) sampleSystem
    [.call 2 true (.setuid 0), .fork 2 3 none, .call 3 true (.setresuid 0 500 0)] s ∧
    ∀ id, (s.tasks.value 3).HasUid id → userTask.HasUid id := by
  have hexec : (Run.exec (System.attempt samplePolicy) sampleSystem
      [.call 2 true (.setuid 0), .fork 2 3 none, .call 3 true (.setresuid 0 500 0)]).map
      (fun s => decide (3 ∈ s.tasks.live)) = some true := by
    decide +kernel
  obtain ⟨s, hrun, hl⟩ := run_of_attempt hexec
  have hroot : ¬ (sampleSystem.tasks.value 2).HasUid 0 := by decide +kernel
  exact ⟨s, hrun, (ids_confined (p := 2) hrun rfl (fun h => absurd h hroot) 3 (by decide)
    (of_decide_eq_true hl)).1⟩

theorem setuid_euid (hu : t.capable P.capSetuid = true ∨ u = t.uid ∨ u = t.suid) (processes : UInt32 → ℤ) :
    (sysSetuid P true u ⟨t, processes⟩).2.task.euid = u := by
  unfold sysSetuid
  dsimp only
  by_cases hcap : t.capable P.capSetuid = true
  · rw [if_pos hcap]
    split
    · rename_i hnone
      split at hnone <;> simp [setUser] at hnone
    · simp [World.setTask]
  · have hno : ¬ (u ≠ t.uid ∧ u ≠ t.suid) := fun h => (hu.resolve_left hcap).elim h.1 h.2
    rw [if_neg hcap, if_neg hno]
    simp [World.setTask]

/-- With the effective user id zero, permitted capabilities stay. -/
theorem Effect.permitted_of_root {t' : Task} (h : Effect P c t t') (h0 : t'.euid = 0) :
    t'.capPermitted = t.capPermitted := by
  cases h with
  | uids ruid euid suid dumpable granted cleared =>
    rw [fixup_euid] at h0
    rw [fixup]
    split
    · rfl
    · rw [capEmulateSetxuid_eq]
      exact if_neg fun hd => hd.2.1.2.1 h0
  | fsuid fsuid dumpable granted cleared =>
    rw [fsFixup_eq]
  | _ => rfl

/-- A task may set its effective user id to one of its user ids. -/
theorem becomes (hl : p ∈ s.tasks.live) (hu : (s.tasks.value p).capable P.capSetuid = true ∨ (s.tasks.value p).HasUid u) :
    ∃ es s', Run (System.Step P) s es s' ∧ descendants p es = {p} ∧ p ∈ s'.tasks.live ∧
      (s'.tasks.value p).euid = u ∧ ∃ c, Effect P c (s.tasks.value p) (s'.tasks.value p) := by
  by_cases he : u = (s.tasks.value p).euid
  · exact ⟨[], s, .nil, rfl, hl, he.symm, .setuid u, .same⟩
  · have hset : (s.tasks.value p).capable P.capSetuid = true ∨ u = (s.tasks.value p).uid ∨
        u = (s.tasks.value p).suid := hu.imp_right fun hid => by
      rcases hid with hid | hid | hid
      · exact .inl hid
      · exact absurd hid he
      · exact .inr hid
    have hv : (s.next P (.call p true (.setuid u))).tasks.value p = (sysSetuid P true u (s.current p)).2.task :=
      Population.change_value_self ..
    refine ⟨[.call p true (.setuid u)], _, .single ⟨hl, rfl⟩, rfl, hl, ?_, .setuid u, ?_⟩
    · rw [hv]
      exact setuid_euid hset s.processes
    · rw [hv]
      exact call_effect P true (.setuid u) (s.current p)

/-- Which effective user ids a task and those that come from it can get. -/
theorem euid_reachable (hf : P.noSetuidFixup = false) (hl : p ∈ s.tasks.live)
    (hs : (s.tasks.value p).Follows P.capSetuid) :
    (∃ es s', Run (System.Step P) s es s' ∧
      ∃ q ∈ descendants p es, q ∈ s'.tasks.live ∧ (s'.tasks.value q).euid = u) ↔
    (s.tasks.value p).HasUid u ∨
      (s.tasks.value p).HasUid 0 ∧ (s.tasks.value p).capPermitted.getLsbD P.capSetuid = true := by
  constructor
  · rintro ⟨es, s', hrun, q, hq, hql, rfl⟩
    by_contra hno
    push Not at hno
    have hcap : (s.tasks.value p).capable P.capSetuid = false :=
      Bool.eq_false_iff.mpr fun hcap => hno.2 (.inr (.inl (hs.mp hcap).1.symm)) (hs.mp hcap).2
    have hperm : (s.tasks.value p).HasUid 0 → (s.tasks.value p).capPermitted.getLsbD P.capSetuid = false :=
      fun h0 => Bool.eq_false_iff.mpr (hno.2 h0)
    have hids := descendants_run (I := Task.Confined P (s.tasks.value p).HasUid (s.tasks.value p).fsuid) hrun
      ⟨fun _ => id, .inr rfl, hcap, hperm⟩ (fun _ _ _ _ hs he => he.confined hs) q hq hql
    exact hno.1 (hids.ids _ (.inr (.inl rfl)))
  · rintro (hu | ⟨h0, hperm⟩)
    · obtain ⟨es, s', hrun, hp, hpl, he, -⟩ := becomes hl (.inr hu)
      exact ⟨es, s', hrun, p, hp ▸ Finset.mem_singleton_self p, hpl, he⟩
    · -- first root, with the capability, then the id that is wanted
      obtain ⟨es, s₁, hrun, hp, hpl, he, c, heffect⟩ := becomes (P := P) hl (.inr h0)
      have hcap : (s₁.tasks.value p).capable P.capSetuid = true := by
        refine (heffect.follows hf P.setuid_not_fs hs).mpr ⟨he, ?_⟩
        rw [heffect.permitted_of_root he]
        exact hperm
      obtain ⟨es', s₂, hrun', hp', hpl', he', -⟩ := becomes (u := u) hpl (.inl hcap)
      refine ⟨es ++ es', s₂, hrun.append hrun', p, ?_, hpl', he'⟩
      have hboth : descendants p (es ++ es') = {p} := by
        rw [descendants, List.map_append, List.foldl_append, ← descendants, hp]
        exact hp'
      exact hboth ▸ Finset.mem_singleton_self p

theorem euid_reachable_sample :
    (∃ es s, Run (System.Step samplePolicy) sampleSystem es s ∧
      ∃ q ∈ descendants 1 es, q ∈ s.tasks.live ∧ (s.tasks.value q).euid = 500) ∧
    ¬ ∃ es s, Run (System.Step samplePolicy) sampleSystem es s ∧
      ∃ q ∈ descendants 2 es, q ∈ s.tasks.live ∧ (s.tasks.value q).euid = 0 := by
  have hroot : (sampleSystem.tasks.value 1).Follows samplePolicy.capSetuid := by decide +kernel
  have huser : (sampleSystem.tasks.value 2).Follows samplePolicy.capSetuid := by decide +kernel
  refine ⟨(euid_reachable rfl (by decide) hroot).mpr (.inr (by decide +kernel)), fun hr => ?_⟩
  have hcases := (euid_reachable rfl (by decide) huser).mp hr
  revert hcases
  decide +kernel

end OperationSystems.Cred
