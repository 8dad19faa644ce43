import OperationSystems.Cred.Ids

/-!
# Processes of a user

The count of a user is the number of the tasks that refer to it, and these are
the tasks with its real user id. A step of the system moves the population of
the tasks, so what the effects keep is kept along descent.
-/

namespace OperationSystems.Cred

open Transition

variable {P : Policy} {alloc : Bool} {c : Call} {t t' : Task} {w v v' : World} {r : UInt32} {d : Bool}
  {s s' : System} {e : Event} {es : List Event} {p : ℕ}

/-- The counts follow the `user` of the task. -/
def Recounted (w v : World) : Prop := ∀ u,
  v.processes u + (if w.task.user = u then 1 else 0) = w.processes u + if v.task.user = u then 1 else 0

theorem Recounted.refl (w : World) : Recounted w w := fun _ => rfl

theorem Recounted.setTask (h : Recounted w v) (hu : t.user = v.task.user) : Recounted w (v.setTask t) := fun u => by
  rw [World.setTask, hu]
  exact h u

theorem setUser_recounted (h : setUser alloc r d w = some v) : Recounted w v := by
  rw [setUser] at h
  split at h
  · cases h
  · obtain rfl := Option.some.inj h
    intro u
    by_cases hr : r = u
    · by_cases hw : w.task.user = u
      · simp [hr, hw]
      · simp [hr, hw, Ne.symm hw]
    · by_cases hw : w.task.user = u
      · simp [hr, Ne.symm hr, hw]
      · simp [hr, Ne.symm hr, hw, Ne.symm hw]

theorem setUser_recounted_ite {called : Prop} [Decidable called]
    (h : (if called then setUser alloc r d w else some w) = some v) : Recounted w v := by
  split at h
  · exact setUser_recounted h
  · obtain rfl := Option.some.inj h
    exact .refl w

@[simp] theorem fixup_user (t t' : Task) : (fixup P t t').user = t'.user := by
  obtain ⟨permitted, effective, h⟩ := @fixup_frame P t t'
  rw [h]

@[simp] theorem fsFixup_user (r : UInt32) (t : Task) : (fsFixup P r t).user = t.user := by rw [fsFixup_eq]

theorem call_recounted (P : Policy) (alloc : Bool) (c : Call) (w : World) : Recounted w (w.call P alloc c).2 := by
  have hsame : ∀ {t}, t.user = w.task.user → Recounted w (w.setTask t) := (Recounted.refl w).setTask
  cases c with
  | setregid rgid egid =>
    simp only [World.call, sysSetregid]
    split
    · exact .refl w
    split
    · exact .refl w
    · exact hsame rfl
  | setgid gid =>
    simp only [World.call, sysSetgid]
    split
    · exact hsame rfl
    split
    · exact hsame rfl
    · exact .refl w
  | setresgid rgid egid sgid =>
    simp only [World.call, sysSetresgid]
    split
    · exact .refl w
    · exact hsame rfl
  | setfsgid gid =>
    simp only [World.call, sysSetfsgid]
    split
    · exact hsame rfl
    · exact .refl w
  | setreuid ruid euid =>
    simp only [World.call, sysSetreuid]
    split
    · exact .refl w
    split
    · exact .refl w
    split
    · exact .refl w
    · rename_i v hv
      exact (setUser_recounted_ite hv).setTask (fixup_user ..)
  | setuid uid =>
    simp only [World.call, sysSetuid]
    split
    · split
      · exact .refl w
      · rename_i v hv
        exact (setUser_recounted_ite hv).setTask (fixup_user ..)
    split
    · exact .refl w
    · exact hsame (fixup_user ..)
  | setresuid ruid euid suid =>
    simp only [World.call, sysSetresuid]
    split
    · exact .refl w
    split
    · exact .refl w
    · rename_i v hv
      exact (setUser_recounted_ite hv).setTask (fixup_user ..)
  | setfsuid uid =>
    simp only [World.call, sysSetfsuid]
    refine hsame ((fsFixup_user ..).trans ?_)
    split <;> rfl
  | setKeepcaps arg2 =>
    simp only [World.call, prctlKeepcaps]
    split
    · exact .refl w
    · exact hsame rfl
  | setDumpable arg2 =>
    simp only [World.call, prctlDumpable]
    split
    · exact .refl w
    · exact hsame rfl
  | setrlimit resource rlim =>
    simp only [World.call, sysSetrlimit]
    split
    · exact .refl w
    split
    · exact .refl w
    split
    · exact .refl w
    split
    · exact .refl w
    · exact hsame rfl

/-- A task refers to the user of its real user id. -/
def Task.Owned (t : Task) : Prop := t.user = t.uid

theorem Effect.owned (h : Effect P c t t') (hs : t.Owned) : t'.Owned := by
  cases h with
  | uids ruid euid suid dumpable granted cleared =>
    rw [Task.Owned, fixup_user, fixup_uid]
    simp only [Task.rename]
    split
    · exact hs.trans (Eq.symm ‹_›)
    · rfl
  | fsuid fsuid dumpable granted cleared =>
    rw [fsFixup_eq]
    exact hs
  | _ => exact hs

/-- A step of the system as one of the population. -/
theorem step_move (h : System.Step P s e s') : Population.Move (Effect P) s.tasks e.label s'.tasks := by
  obtain ⟨ha, rfl⟩ := h
  cases e with
  | call p alloc c => exact .change ha (call_effect P alloc c (s.current p))
  | fork p q fails =>
    simp only [System.next, System.fork]
    split
    · exact .fail ha.2
    split
    · exact .fail ha.2
    · exact .copy ha.1 ha.2
  | release q => exact .drop

theorem run_move (h : Run (System.Step P) s es s') :
    Run (Population.Move (Effect P)) s.tasks (es.map Event.label) s'.tasks :=
  h.map fun _ _ _ hs => step_move hs

/-- What the effects of the calls by `p` and its descendants keep. -/
theorem descendants_run {I : Task → Prop} (h : Run (System.Step P) s es s') (hs : I (s.tasks.value p))
    (hI : ∀ c t t', Makes p es c → I t → Effect P c t t' → I t') :
    ∀ q ∈ descendants p es, q ∈ s'.tasks.live → I (s'.tasks.value q) := by
  refine Population.heirs_run (run_move h) (fun q hq _ => ?_) fun c t t' hm => hI c t t' hm
  rw [Finset.mem_singleton.mp hq]
  exact hs

/-- What all effects keep. -/
theorem live_run {I : Task → Prop} (h : Run (System.Step P) s es s') (hs : ∀ p ∈ s.tasks.live, I (s.tasks.value p))
    (hI : ∀ c t t', I t → Effect P c t t' → I t') : ∀ q ∈ s'.tasks.live, I (s'.tasks.value q) := fun q hq =>
  Population.heirs_run (run_move h) (fun p hp _ => hs p hp) (fun c t t' _ => hI c t t') q
    (Population.live_subset_run (run_move h) (Finset.Subset.refl _) hq) hq

/-- The count of every user is right. -/
def System.Counted (s : System) : Prop := ∀ u, s.processes u = s.tasks.tally Task.user u

theorem counted_step (h : System.Step P s e s') (hs : s.Counted) : s'.Counted := by
  obtain ⟨ha, rfl⟩ := h
  intro u
  cases e with
  | call p alloc c =>
    have htally := s.tasks.tally_change Task.user u ((s.current p).call P alloc c).2.task ha
    have hcount := call_recounted P alloc c (s.current p) u
    have hold := hs u
    simp only [System.next, System.call]
    generalize ((s.current p).call P alloc c).2 = v at htally hcount ⊢
    change v.processes u + (if (s.tasks.value p).user = u then 1 else 0) = s.processes u + _ at hcount
    by_cases hp : (s.tasks.value p).user = u
    · rw [if_pos hp] at htally hcount
      split_ifs at htally hcount <;> omega
    · rw [if_neg hp] at htally hcount
      split_ifs at htally hcount <;> omega
  | fork p q fails =>
    have htally := s.tasks.tally_copy (p := p) Task.user u ha.2
    have hold := hs u
    simp only [System.next, System.fork]
    split
    · exact hold
    split
    · by_cases hu : u = (s.tasks.value p).user
      · subst hu
        simpa using hold
      · simpa [hu] using hold
    · by_cases hu : u = (s.tasks.value p).user
      · subst hu
        rw [if_pos rfl] at htally
        simp only [Function.update_self]
        omega
      · rw [if_neg (Ne.symm hu)] at htally
        simp only [Function.update_of_ne hu]
        omega
  | release q =>
    have htally := s.tasks.tally_drop Task.user u ha
    have hold := hs u
    simp only [System.next, System.release]
    by_cases hu : u = (s.tasks.value q).user
    · subst hu
      rw [if_pos rfl] at htally
      simp only [Function.update_self]
      omega
    · rw [if_neg (Ne.symm hu)] at htally
      simp only [Function.update_of_ne hu]
      omega

theorem counted_run (h : Run (System.Step P) s es s') (hs : s.Counted) : s'.Counted :=
  h.invariant hs fun _ _ _ hc hst => counted_step hst hc

/-- A step as far as it is allowed. -/
def System.attempt (P : Policy) (s : System) (e : Event) : Option System :=
  if s.Allowed e then some (s.next P e) else none

theorem step_of_attempt (h : s.attempt P e = some s') : System.Step P s e s' := by
  unfold System.attempt at h
  split_ifs at h with ha
  exact ⟨ha, (Option.some.inj h).symm⟩

/-- The run of a list of events whose final state shows `b`. -/
theorem run_of_attempt {β : Type*} {f : System → β} {b : β} (h : (Run.exec (System.attempt P) s es).map f = some b) :
    ∃ s', Run (System.Step P) s es s' ∧ f s' = b := by
  obtain ⟨s', hs, hb⟩ := Option.map_eq_some_iff.mp h
  exact ⟨s', Run.of_exec (fun _ _ _ => step_of_attempt) hs, hb⟩

def samplePolicy : Policy where
  capSetgid := 6
  capSetuid := 7
  capSysAdmin := 21
  capSysResource := 24
  capFsMask := 0x1f
  noSetuidFixup := false
  rlimNlimits := 11
  rlimitNproc := 6
  rlimitNofile := 7
  nrOpen := 1024 * 1024
  setuid_not_fs := by decide

def rootTask : Task where
  uid := 0
  euid := 0
  suid := 0
  fsuid := 0
  gid := 0
  egid := 0
  sgid := 0
  fsgid := 0
  capEffective := ~~~ 0
  capPermitted := ~~~ 0
  keepCapabilities := false
  dumpable := true
  user := 0
  rlim _ := ⟨2, 2⟩

def userTask : Task :=
  { rootTask with
    uid := 500, euid := 500, suid := 500, fsuid := 500, gid := 100, egid := 100, sgid := 100, fsgid := 100
    capEffective := 0, capPermitted := 0, user := 500 }

/-- Task 1 is root's, and task 2 is one of the user 500. -/
def sampleSystem : System where
  tasks := ⟨{1, 2}, fun p => if p = 2 then userTask else rootTask⟩
  processes u := if u = 0 ∨ u = 500 then 1 else 0

theorem sampleSystem_counted : sampleSystem.Counted := by
  intro u
  have hlive : sampleSystem.tasks.live = {1, 2} := rfl
  have hroot : (sampleSystem.tasks.value 1).user = 0 := rfl
  have huser : (sampleSystem.tasks.value 2).user = 500 := rfl
  rw [Population.tally, hlive, Finset.filter_insert, Finset.filter_singleton, hroot, huser]
  by_cases h0 : u = 0
  · subst h0
    rfl
  · by_cases h5 : u = 500
    · subst h5
      rfl
    · simp [sampleSystem, h0, h5, Ne.symm h0, Ne.symm h5]

theorem sampleSystem_owned : ∀ p ∈ sampleSystem.tasks.live, (sampleSystem.tasks.value p).Owned := by
  intro p _
  by_cases hp : p = 2
  · simp [sampleSystem, hp, userTask, Task.Owned]
  · simp [sampleSystem, hp, rootTask, Task.Owned]

end OperationSystems.Cred
