import OperationSystems.Cred.Model

/-!
# What a call can do

Every call has one of a few effects on the task, and each effect says under
which ids or capabilities it comes about. What holds of the effects holds of the
calls. The counts of the users follow the `user` of the task.
-/

namespace OperationSystems.Cred

variable {P : Policy} {alloc : Bool} {c : Call} {t t' : Task} {w v : World} {r : UInt32} {d : Bool}

/-- The id is the real, the effective or the saved user id of the task. -/
def Task.HasUid (t : Task) (id : UInt32) : Prop := id = t.uid ∨ id = t.euid ∨ id = t.suid

instance (t : Task) (id : UInt32) : Decidable (t.HasUid id) := inferInstanceAs (Decidable (_ ∨ _))

def Task.HasGid (t : Task) (id : UInt32) : Prop := id = t.gid ∨ id = t.egid ∨ id = t.sgid

instance (t : Task) (id : UInt32) : Decidable (t.HasGid id) := inferInstanceAs (Decidable (_ ∨ _))

/-- New user ids, before the capabilities follow them. -/
def Task.rename (t : Task) (ruid euid suid : UInt32) (dumpable : Bool) : Task :=
  { t with
    uid := ruid
    euid := euid
    suid := suid
    fsuid := euid
    dumpable := dumpable
    user := if ruid = t.uid then t.user else ruid }

inductive Effect (P : Policy) (c : Call) (t : Task) : Task → Prop where
  | same : Effect P c t t
  | uids (ruid euid suid : UInt32) (dumpable : Bool)
      (granted : t.capable P.capSetuid = true ∨ t.HasUid ruid ∧ t.HasUid euid ∧ t.HasUid suid)
      (cleared : dumpable = true → t.dumpable = true ∧ euid = t.euid) :
      Effect P c t (fixup P t (t.rename ruid euid suid dumpable))
  | fsuid (fsuid : UInt32) (dumpable : Bool)
      (granted : fsuid = t.fsuid ∨ c = .setfsuid fsuid ∧ (t.capable P.capSetuid = true ∨ t.HasUid fsuid))
      (cleared : dumpable = true → t.dumpable = true) :
      Effect P c t (fsFixup P t.fsuid { t with fsuid := fsuid, dumpable := dumpable })
  | gids (gid egid sgid fsgid : UInt32) (dumpable : Bool)
      (granted : t.capable P.capSetgid = true ∨ t.HasGid gid ∧ t.HasGid egid ∧ t.HasGid sgid ∧
        (t.HasGid fsgid ∨ fsgid = t.fsgid))
      (cleared : dumpable = true → t.dumpable = true ∧ egid = t.egid) :
      Effect P c t { t with gid := gid, egid := egid, sgid := sgid, fsgid := fsgid, dumpable := dumpable }
  | keepcaps (arg2 : ℕ) (made : c = .setKeepcaps arg2) : Effect P c t { t with keepCapabilities := arg2 = 1 }
  | dumpable (arg2 : ℕ) (made : c = .setDumpable arg2) : Effect P c t { t with dumpable := arg2 = 1 }
  | rlimit (resource : ℕ) (new : Rlimit)
      (granted : t.capable P.capSysResource = true ∨
        new.cur ≤ (t.rlim resource).max ∧ new.max ≤ (t.rlim resource).max) :
      Effect P c t { t with rlim := Function.update t.rlim resource new }

theorem Task.hasUid_iff {id : UInt32} : t.HasUid id ↔ t.uid = id ∨ t.euid = id ∨ t.suid = id := by
  simp only [Task.HasUid, eq_comm]

theorem Task.hasGid_iff {id : UInt32} : t.HasGid id ↔ t.gid = id ∨ t.egid = id ∨ t.sgid = id := by
  simp only [Task.HasGid, eq_comm]

/-- `dumpable` is cleared where the condition holds. -/
theorem cleared_ite {changes : Prop} [Decidable changes] (h : (if changes then false else d) = true) :
    d = true ∧ ¬ changes := by
  split at h
  · cases h
  · exact ⟨h, ‹_›⟩

theorem sysSetregid_effect (rgid egid : UInt32) (w : World) :
    Effect P c w.task (sysSetregid P rgid egid w).2.task := by
  unfold sysSetregid
  dsimp only
  by_cases hr : rgid ≠ noId ∧ ¬ (w.task.gid = rgid ∨ w.task.egid = rgid ∨ w.task.capable P.capSetgid = true)
  · rw [if_pos hr]
    exact .same
  rw [if_neg hr]
  by_cases he : egid ≠ noId ∧ ¬ (w.task.gid = egid ∨ w.task.egid = egid ∨ w.task.sgid = egid ∨
      w.task.capable P.capSetgid = true)
  · rw [if_pos he]
    exact .same
  rw [if_neg he]
  refine .gids _ _ _ _ _ ?_ fun h => ⟨(cleared_ite h).1, not_not.mp (cleared_ite h).2⟩
  by_cases hcap : w.task.capable P.capSetgid = true
  · exact .inl hcap
  · right
    grind [Task.hasGid_iff]

theorem sysSetgid_effect (gid : UInt32) (w : World) : Effect P c w.task (sysSetgid P gid w).2.task := by
  unfold sysSetgid
  dsimp only
  by_cases hcap : w.task.capable P.capSetgid = true
  · rw [if_pos hcap]
    exact .gids _ _ _ _ _ (.inl hcap) fun h => ⟨(cleared_ite h).1, (not_not.mp (cleared_ite h).2).symm⟩
  rw [if_neg hcap]
  by_cases hg : gid = w.task.gid ∨ gid = w.task.sgid
  · rw [if_pos hg]
    refine .gids _ _ _ _ _ (.inr ?_) fun h => ⟨(cleared_ite h).1, (not_not.mp (cleared_ite h).2).symm⟩
    grind [Task.HasGid]
  · rw [if_neg hg]
    exact .same

theorem sysSetresgid_effect (rgid egid sgid : UInt32) (w : World) :
    Effect P c w.task (sysSetresgid P rgid egid sgid w).2.task := by
  unfold sysSetresgid
  dsimp only
  split
  · exact .same
  · refine .gids _ _ _ _ _ ?_ fun h => ⟨(cleared_ite h).1, ?_⟩
    · grind [Task.HasGid]
    · have := (cleared_ite h).2
      grind

theorem sysSetfsgid_effect (gid : UInt32) (w : World) : Effect P c w.task (sysSetfsgid P gid w).2.task := by
  unfold sysSetfsgid
  dsimp only
  split
  · exact .gids _ _ _ _ _ (by grind [Task.HasGid]) fun h => ⟨(cleared_ite h).1, rfl⟩
  · exact .same

/-- What `set_user` changes, where it is called if the real user id is new. -/
theorem setUser_spec {called : Prop} [Decidable called] (hc : called ↔ r ≠ w.task.uid)
    (h : (if called then setUser alloc r d w else some w) = some v) :
    ∃ dumpable, v.task = { w.task with
      uid := r, dumpable := dumpable, user := if r = w.task.uid then w.task.user else r } ∧
      (dumpable = true → w.task.dumpable = true) := by
  by_cases hr : called
  · rw [if_pos hr, setUser] at h
    split at h
    · cases h
    · obtain rfl := Option.some.inj h
      refine ⟨if d = true then false else w.task.dumpable, ?_, fun hd => (cleared_ite hd).1⟩
      rw [if_neg (hc.mp hr)]
  · rw [if_neg hr] at h
    obtain rfl := Option.some.inj h
    obtain rfl : r = w.task.uid := by
      by_contra hne
      exact hr (hc.mpr hne)
    exact ⟨w.task.dumpable, by simp, id⟩

/-- The end of the calls that set user ids. -/
theorem uids_effect {called : Prop} [Decidable called] {e u : UInt32} {d' : Bool}
    (hc : called ↔ r ≠ w.task.uid) (hv : (if called then setUser alloc r d w else some w) = some v)
    (hgranted : w.task.capable P.capSetuid = true ∨ w.task.HasUid r ∧ w.task.HasUid e ∧ w.task.HasUid u)
    (hd : d' = true → v.task.dumpable = true ∧ e = w.task.euid) :
    Effect P c w.task (fixup P w.task { v.task with dumpable := d', fsuid := e, euid := e, suid := u }) := by
  obtain ⟨dumpable, hvt, hdump⟩ := setUser_spec hc hv
  have hvd : v.task.dumpable = dumpable := congrArg Task.dumpable hvt
  have heffect : Effect P c w.task (fixup P w.task (w.task.rename r e u d')) :=
    .uids r e u d' hgranted fun h => ⟨hdump (hvd.symm.trans (hd h).1), (hd h).2⟩
  rw [hvt]
  exact heffect

theorem sysSetreuid_effect (alloc : Bool) (ruid euid : UInt32) (w : World) :
    Effect P c w.task (sysSetreuid P alloc ruid euid w).2.task := by
  unfold sysSetreuid
  dsimp only
  by_cases hr : ruid ≠ noId ∧ w.task.uid ≠ ruid ∧ w.task.euid ≠ ruid ∧ w.task.capable P.capSetuid = false
  · rw [if_pos hr]
    exact .same
  rw [if_neg hr]
  by_cases he : euid ≠ noId ∧ w.task.uid ≠ euid ∧ w.task.euid ≠ euid ∧ w.task.suid ≠ euid ∧
      w.task.capable P.capSetuid = false
  · rw [if_pos he]
    exact .same
  rw [if_neg he]
  split
  · exact .same
  · rename_i v hv
    refine uids_effect Iff.rfl hv ?_ fun h => ⟨(cleared_ite h).1, not_not.mp (cleared_ite h).2⟩
    grind [Task.hasUid_iff]

theorem sysSetuid_effect (alloc : Bool) (uid : UInt32) (w : World) :
    Effect P c w.task (sysSetuid P alloc uid w).2.task := by
  unfold sysSetuid
  dsimp only
  by_cases hcap : w.task.capable P.capSetuid = true
  · rw [if_pos hcap]
    split
    · exact .same
    · rename_i v hv
      exact uids_effect Iff.rfl hv (.inl hcap) fun h => ⟨(cleared_ite h).1, (not_not.mp (cleared_ite h).2).symm⟩
  rw [if_neg hcap]
  by_cases hu : uid ≠ w.task.uid ∧ uid ≠ w.task.suid
  · rw [if_pos hu]
    exact .same
  · rw [if_neg hu]
    have hsame : (if False then setUser alloc w.task.uid true w else some w) = some w := rfl
    refine uids_effect (by simp) hsame (.inr ⟨.inl rfl, ?_, .inr (.inr rfl)⟩) fun h =>
      ⟨(cleared_ite h).1, (not_not.mp (cleared_ite h).2).symm⟩
    grind [Task.HasUid]

theorem sysSetresuid_effect (alloc : Bool) (ruid euid suid : UInt32) (w : World) :
    Effect P c w.task (sysSetresuid P alloc ruid euid suid w).2.task := by
  unfold sysSetresuid
  dsimp only
  split
  · exact .same
  split
  · exact .same
  · rename_i v hv
    have hr : (ruid ≠ noId ∧ ruid ≠ w.task.uid) ↔ (if ruid ≠ noId then ruid else w.task.uid) ≠ w.task.uid := by
      grind
    have hv' : (if ruid ≠ noId ∧ ruid ≠ w.task.uid then
        setUser alloc (if ruid ≠ noId then ruid else w.task.uid) (euid ≠ w.task.euid) w else some w) = some v := by
      rw [← hv]
      by_cases hn : ruid ≠ noId
      · rw [if_pos hn]
      · simp [hn]
    obtain ⟨dumpable, hvt, -⟩ := setUser_spec hr hv'
    have hve : v.task.euid = w.task.euid := by rw [hvt]
    have hvs : v.task.suid = w.task.suid := by rw [hvt]
    refine uids_effect hr hv' ?_ fun h => ⟨(cleared_ite h).1, ?_⟩
    · grind [Task.HasUid]
    · have := (cleared_ite h).2
      grind

theorem sysSetfsuid_effect (uid : UInt32) (w : World) : Effect P (.setfsuid uid) w.task (sysSetfsuid P uid w).2.task := by
  unfold sysSetfsuid
  dsimp only
  by_cases hg : uid = w.task.uid ∨ uid = w.task.euid ∨ uid = w.task.suid ∨ uid = w.task.fsuid ∨
      w.task.capable P.capSetuid = true
  · simp only [if_pos hg]
    exact .fsuid uid _ (by grind [Task.HasUid]) fun h => (cleared_ite h).1
  · simp only [if_neg hg]
    exact .fsuid w.task.fsuid w.task.dumpable (.inl rfl) id

theorem prctlKeepcaps_effect (arg2 : ℕ) (w : World) :
    Effect P (.setKeepcaps arg2) w.task (prctlKeepcaps arg2 w).2.task := by
  unfold prctlKeepcaps
  split
  · exact .same
  · exact .keepcaps arg2 rfl

theorem prctlDumpable_effect (arg2 : ℕ) (w : World) :
    Effect P (.setDumpable arg2) w.task (prctlDumpable arg2 w).2.task := by
  unfold prctlDumpable
  split
  · exact .same
  · exact .dumpable arg2 rfl

theorem sysSetrlimit_effect (resource : ℕ) (rlim : Option Rlimit) (w : World) :
    Effect P c w.task (sysSetrlimit P resource rlim w).2.task := by
  unfold sysSetrlimit
  split
  · exact .same
  split
  · exact .same
  · dsimp only
    split
    · exact .same
    split
    · exact .same
    · refine .rlimit resource _ ?_
      grind

/-- A call has one of the effects. -/
theorem call_effect (P : Policy) (alloc : Bool) (c : Call) (w : World) :
    Effect P c w.task (w.call P alloc c).2.task := by
  cases c with
  | setregid rgid egid => exact sysSetregid_effect rgid egid w
  | setgid gid => exact sysSetgid_effect gid w
  | setresgid rgid egid sgid => exact sysSetresgid_effect rgid egid sgid w
  | setfsgid gid => exact sysSetfsgid_effect gid w
  | setreuid ruid euid => exact sysSetreuid_effect alloc ruid euid w
  | setuid uid => exact sysSetuid_effect alloc uid w
  | setresuid ruid euid suid => exact sysSetresuid_effect alloc ruid euid suid w
  | setfsuid uid => exact sysSetfsuid_effect uid w
  | setKeepcaps arg2 => exact prctlKeepcaps_effect arg2 w
  | setDumpable arg2 => exact prctlDumpable_effect arg2 w
  | setrlimit resource rlim => exact sysSetrlimit_effect resource rlim w

end OperationSystems.Cred
