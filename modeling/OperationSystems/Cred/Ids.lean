import OperationSystems.Cred.Capabilities

/-!
# Ids without privileges

A task without the capability moves among the ids that it has. It gets the
capability back only with a root id.
-/

namespace OperationSystems.Cred

open Transition

variable {P : Policy} {c : Call} {t t' : Task} {s s' : System} {e : Event} {es : List Event} {p : ℕ}
  {U G : UInt32 → Prop} {f g : UInt32} {L : ℕ}

@[simp] theorem fsFixup_hasUid (fsuid id : UInt32) (t : Task) : (fsFixup P fsuid t).HasUid id ↔ t.HasUid id := by
  rw [fsFixup_eq]
  exact Iff.rfl

/-- The user ids are in `U`, and `fsuid` may also be the old `f`. -/
structure Task.Confined (P : Policy) (U : UInt32 → Prop) (f : UInt32) (t : Task) : Prop where
  ids : ∀ id, t.HasUid id → U id
  fsuid : U t.fsuid ∨ t.fsuid = f
  weak : t.capable P.capSetuid = false
  never : U 0 → t.capPermitted.getLsbD P.capSetuid = false

theorem Effect.confined (h : Effect P c t t') (hs : t.Confined P U f) : t'.Confined P U f := by
  have hids : (∀ id, t'.HasUid id → U id) ∧ (U t'.fsuid ∨ t'.fsuid = f) := by
    cases h with
    | uids ruid euid suid dumpable granted cleared =>
      obtain ⟨hr, he, hu⟩ := granted.resolve_left (Bool.eq_false_iff.mp hs.weak)
      refine ⟨fun id hid => ?_, .inl ?_⟩
      · simp only [Task.HasUid, fixup_uid, fixup_euid, fixup_suid] at hid
        rcases hid with rfl | rfl | rfl
        · exact hs.ids _ hr
        · exact hs.ids _ he
        · exact hs.ids _ hu
      · rw [fixup_fsuid]
        exact hs.ids _ he
    | fsuid fsuid dumpable granted cleared =>
      rw [fsFixup_eq]
      refine ⟨hs.ids, ?_⟩
      rcases granted with rfl | ⟨-, hcap | hid⟩
      · exact hs.fsuid
      · exact absurd hcap (Bool.eq_false_iff.mp hs.weak)
      · exact .inl (hs.ids _ hid)
    | _ => exact ⟨hs.ids, hs.fsuid⟩
  have hnever : U 0 → t'.capPermitted.getLsbD P.capSetuid = false := fun h0 =>
    Bool.eq_false_iff.mpr fun hi => Bool.eq_false_iff.mp (hs.never h0) (h.permitted _ hi)
  refine ⟨hids.1, hids.2, Bool.eq_false_iff.mpr fun hcap => ?_, hnever⟩
  rcases h.effective P.capSetuid hcap with he | ⟨hp, hfs | ⟨h0, -⟩⟩
  · exact Bool.eq_false_iff.mp hs.weak he
  · exact Bool.eq_false_iff.mp P.setuid_not_fs hfs
  · exact Bool.eq_false_iff.mp (hs.never (hids.1 0 (.inr (.inl h0.symm)))) hp

/-- The same for the group ids, where the capability is neither effective nor permitted. -/
structure Task.ConfinedGids (P : Policy) (G : UInt32 → Prop) (g : UInt32) (t : Task) : Prop where
  ids : ∀ id, t.HasGid id → G id
  fsgid : G t.fsgid ∨ t.fsgid = g
  lacks : t.Lacks P.capSetgid

theorem Effect.confinedGids (h : Effect P c t t') (hs : t.ConfinedGids P G g) : t'.ConfinedGids P G g := by
  have hlacks := h.lacks hs.lacks
  cases h with
  | uids ruid euid suid dumpable granted cleared =>
    obtain ⟨permitted, effective, hframe⟩ := @fixup_frame P t (t.rename ruid euid suid dumpable)
    rw [hframe] at hlacks ⊢
    exact ⟨hs.ids, hs.fsgid, hlacks⟩
  | fsuid fsuid dumpable granted cleared =>
    rw [fsFixup_eq] at hlacks ⊢
    exact ⟨hs.ids, hs.fsgid, hlacks⟩
  | gids gid egid sgid fsgid dumpable granted cleared =>
    obtain ⟨hr, he, hu, hfs⟩ := granted.resolve_left (Bool.eq_false_iff.mp hs.lacks.1)
    refine ⟨fun id hid => ?_, ?_, hlacks⟩
    · rcases hid with rfl | rfl | rfl
      · exact hs.ids _ hr
      · exact hs.ids _ he
      · exact hs.ids _ hu
    · rcases hfs with hfs | rfl
      · exact .inl (hs.ids _ hfs)
      · exact hs.fsgid
  | _ => exact ⟨hs.ids, hs.fsgid, hlacks⟩

/-- Effective ids have not changed while the task may be dumped. -/
def Task.Dumps (e g : UInt32) (t : Task) : Prop := t.dumpable = true → t.euid = e ∧ t.egid = g

theorem Effect.dumps (h : Effect P c t t') (hc : c ≠ .setDumpable 1) (hs : t.Dumps f g) : t'.Dumps f g := by
  cases h with
  | uids ruid euid suid dumpable granted cleared =>
    obtain ⟨permitted, effective, hframe⟩ := @fixup_frame P t (t.rename ruid euid suid dumpable)
    rw [hframe]
    intro hd
    obtain ⟨hold, rfl⟩ := cleared hd
    exact hs hold
  | fsuid fsuid dumpable granted cleared =>
    rw [fsFixup_eq]
    exact fun hd => hs (cleared hd)
  | gids gid egid sgid fsgid dumpable granted cleared =>
    intro hd
    obtain ⟨hold, rfl⟩ := cleared hd
    exact hs hold
  | dumpable arg2 made =>
    intro hd
    have hone : arg2 = 1 := of_decide_eq_true hd
    exact absurd (hone ▸ made) hc
  | _ => exact hs

/-- `fsuid` is zero only beside a root id. -/
def Task.Shadows (t : Task) : Prop := t.fsuid = 0 → t.HasUid 0

theorem Effect.shadows (h : Effect P c t t')
    (hc : c = .setfsuid 0 → t.capable P.capSetuid = true → t.HasUid 0) (hs : t.Shadows) : t'.Shadows := by
  cases h with
  | uids ruid euid suid dumpable granted cleared =>
    intro h0
    rw [fixup_fsuid] at h0
    have he : euid = 0 := h0
    simp only [Task.HasUid, fixup_uid, fixup_euid, fixup_suid]
    exact .inr (.inl he.symm)
  | fsuid fsuid dumpable granted cleared =>
    intro h0
    rw [fsFixup_hasUid]
    rw [fsFixup_eq] at h0
    obtain rfl : fsuid = 0 := h0
    rcases granted with he | ⟨hmade, hcap | hid⟩
    · exact hs he.symm
    · exact hc hmade hcap
    · exact hid
  | _ => exact hs

/-- A limit that no capability can raise. -/
structure Task.Limited (P : Policy) (resource L : ℕ) (t : Task) : Prop where
  cur : (t.rlim resource).cur ≤ L
  max : (t.rlim resource).max ≤ L
  lacks : t.Lacks P.capSysResource

theorem Effect.limited {resource : ℕ} (h : Effect P c t t') (hs : t.Limited P resource L) :
    t'.Limited P resource L := by
  have hlacks := h.lacks hs.lacks
  cases h with
  | uids ruid euid suid dumpable granted cleared =>
    obtain ⟨permitted, effective, hframe⟩ := @fixup_frame P t (t.rename ruid euid suid dumpable)
    rw [hframe] at hlacks ⊢
    exact ⟨hs.cur, hs.max, hlacks⟩
  | fsuid fsuid dumpable granted cleared =>
    rw [fsFixup_eq] at hlacks ⊢
    exact ⟨hs.cur, hs.max, hlacks⟩
  | rlimit r new granted =>
    obtain ⟨hcur, hmax⟩ := granted.resolve_left (Bool.eq_false_iff.mp hs.lacks.1)
    by_cases hr : resource = r
    · subst hr
      refine ⟨?_, ?_, hlacks⟩
      · simpa using hcur.trans hs.max
      · simpa using hmax.trans hs.max
    · refine ⟨?_, ?_, hlacks⟩
      · simpa [hr] using hs.cur
      · simpa [hr] using hs.max
  | _ => exact ⟨hs.cur, hs.max, hlacks⟩

end OperationSystems.Cred
