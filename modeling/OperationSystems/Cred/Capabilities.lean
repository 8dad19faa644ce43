import OperationSystems.Cred.Effect

/-!
# Capabilities follow the user ids

Outside the file system part, the effective capabilities are the permitted ones
while the effective user id is zero, and none else. The permitted ones are lost
as a whole or kept.
-/

namespace OperationSystems.Cred

open Transition

variable {P : Policy} {c : Call} {t t' : Task} {s s' : System} {e : Event} {es : List Event} {p : ℕ}

/-- From a root id to none, and the capabilities are not kept. -/
def Drops (ruid euid suid : UInt32) (t : Task) : Prop :=
  (ruid = 0 ∨ euid = 0 ∨ suid = 0) ∧ (t.uid ≠ 0 ∧ t.euid ≠ 0 ∧ t.suid ≠ 0) ∧ t.keepCapabilities = false

instance (ruid euid suid : UInt32) (t : Task) : Decidable (Drops ruid euid suid t) :=
  inferInstanceAs (Decidable (_ ∧ _))

theorem capEmulateSetxuid_eq (ruid euid suid : UInt32) (t : Task) :
    capEmulateSetxuid ruid euid suid t =
      { t with
        capPermitted := if Drops ruid euid suid t then 0 else t.capPermitted
        capEffective :=
          if euid ≠ 0 ∧ t.euid = 0 then t.capPermitted
          else if Drops ruid euid suid t ∨ euid = 0 ∧ t.euid ≠ 0 then 0 else t.capEffective } := by
  unfold capEmulateSetxuid
  by_cases hd : Drops ruid euid suid t
  · have he : t.euid ≠ 0 := hd.2.1.2.1
    have hcond : (ruid = 0 ∨ euid = 0 ∨ suid = 0) ∧ (t.uid ≠ 0 ∧ t.euid ≠ 0 ∧ t.suid ≠ 0) ∧
      t.keepCapabilities = false := hd
    simp [hd, he, hcond]
  · have hcond : ¬ ((ruid = 0 ∨ euid = 0 ∨ suid = 0) ∧ (t.uid ≠ 0 ∧ t.euid ≠ 0 ∧ t.suid ≠ 0) ∧
      t.keepCapabilities = false) := hd
    simp only [if_neg hcond, hd, false_or]
    by_cases h0 : euid = 0 ∧ t.euid ≠ 0
    · simp [h0]
    · simp only [if_neg h0]
      split <;> rfl

theorem fsFixup_eq (fsuid : UInt32) (t : Task) :
    fsFixup P fsuid t =
      { t with
        capEffective :=
          if P.noSetuidFixup = true then t.capEffective
          else if fsuid = 0 ∧ t.fsuid ≠ 0 then t.capEffective &&& ~~~ P.capFsMask
          else if fsuid ≠ 0 ∧ t.fsuid = 0 then t.capEffective ||| (t.capPermitted &&& P.capFsMask)
          else t.capEffective } := by
  unfold fsFixup
  dsimp only
  split_ifs <;> simp_all

theorem rename_caps (hf : P.noSetuidFixup = false) (t : Task) (ruid euid suid : UInt32) (dumpable : Bool) :
    (fixup P t (t.rename ruid euid suid dumpable)).capPermitted =
        (if Drops t.uid t.euid t.suid (t.rename ruid euid suid dumpable) then 0 else t.capPermitted) ∧
      (fixup P t (t.rename ruid euid suid dumpable)).capEffective =
        if t.euid ≠ 0 ∧ euid = 0 then t.capPermitted
        else if Drops t.uid t.euid t.suid (t.rename ruid euid suid dumpable) ∨ t.euid = 0 ∧ euid ≠ 0 then 0
        else t.capEffective := by
  rw [fixup, if_neg (by simp [hf]), capEmulateSetxuid_eq]
  exact ⟨rfl, rfl⟩

/-- What `fixup` does not change. -/
theorem fixup_frame (t t' : Task) : ∃ permitted effective,
    fixup P t t' = { t' with capPermitted := permitted, capEffective := effective } := by
  rw [fixup]
  split
  · exact ⟨_, _, rfl⟩
  · exact ⟨_, _, capEmulateSetxuid_eq ..⟩

@[simp] theorem fixup_uid (t t' : Task) : (fixup P t t').uid = t'.uid := by
  obtain ⟨permitted, effective, h⟩ := @fixup_frame P t t'
  rw [h]

@[simp] theorem fixup_euid (t t' : Task) : (fixup P t t').euid = t'.euid := by
  obtain ⟨permitted, effective, h⟩ := @fixup_frame P t t'
  rw [h]

@[simp] theorem fixup_suid (t t' : Task) : (fixup P t t').suid = t'.suid := by
  obtain ⟨permitted, effective, h⟩ := @fixup_frame P t t'
  rw [h]

@[simp] theorem fixup_fsuid (t t' : Task) : (fixup P t t').fsuid = t'.fsuid := by
  obtain ⟨permitted, effective, h⟩ := @fixup_frame P t t'
  rw [h]

theorem getLsbD_ite_zero {b : Prop} [Decidable b] {x : Caps} {i : ℕ} (h : (if b then 0 else x).getLsbD i = true) :
    ¬ b ∧ x.getLsbD i = true := by
  split at h
  · simp at h
  · exact ⟨‹_›, h⟩

/-- Permitted capabilities do not grow. -/
theorem Effect.permitted (h : Effect P c t t') (i : ℕ) (hi : t'.capPermitted.getLsbD i = true) :
    t.capPermitted.getLsbD i = true := by
  cases h with
  | uids ruid euid suid dumpable granted cleared =>
    rw [fixup] at hi
    split at hi
    · exact hi
    · rw [capEmulateSetxuid_eq] at hi
      exact (getLsbD_ite_zero hi).2
  | fsuid fsuid dumpable granted cleared =>
    rw [fsFixup_eq] at hi
    exact hi
  | _ => exact hi

/-- A capability is effective exactly if it is permitted and the effective user id is zero. -/
def Task.Follows (i : ℕ) (t : Task) : Prop :=
  t.capEffective.getLsbD i = true ↔ t.euid = 0 ∧ t.capPermitted.getLsbD i = true

instance (i : ℕ) (t : Task) : Decidable (t.Follows i) := inferInstanceAs (Decidable (_ ↔ _))

theorem Effect.follows {i : ℕ} (h : Effect P c t t') (hf : P.noSetuidFixup = false)
    (hi : P.capFsMask.getLsbD i = false) (hs : t.Follows i) : t'.Follows i := by
  cases h with
  | uids ruid euid suid dumpable granted cleared =>
    obtain ⟨hperm, heff⟩ := rename_caps hf t ruid euid suid dumpable
    have hnodrop : euid = 0 → ¬ Drops t.uid t.euid t.suid (t.rename ruid euid suid dumpable) :=
      fun h0 hd => hd.2.1.2.1 h0
    rw [Task.Follows, hperm, heff, fixup_euid]
    by_cases hraise : t.euid ≠ 0 ∧ euid = 0
    · rw [if_pos hraise, if_neg (hnodrop hraise.2)]
      exact ⟨fun he => ⟨hraise.2, he⟩, And.right⟩
    rw [if_neg hraise]
    by_cases hzero : Drops t.uid t.euid t.suid (t.rename ruid euid suid dumpable) ∨ t.euid = 0 ∧ euid ≠ 0
    · have hne : euid ≠ 0 := hzero.elim (fun hd h0 => hnodrop h0 hd) And.right
      rw [if_pos hzero]
      exact ⟨fun he => by simp at he, fun he => absurd he.1 hne⟩
    · rw [if_neg hzero, if_neg fun hd => hzero (.inl hd)]
      have he : t.euid = 0 ↔ euid = 0 :=
        ⟨fun h0 => by_contra fun hne => hzero (.inr ⟨h0, hne⟩), fun h0 => by_contra fun hne => hraise ⟨hne, h0⟩⟩
      exact hs.trans (and_congr_left' he)
  | fsuid fsuid dumpable granted cleared =>
    rw [fsFixup_eq]
    simp only [hf, Bool.false_eq_true, if_false]
    refine Iff.trans ?_ hs
    dsimp only
    split_ifs
    · have hlt : t.capEffective.getLsbD i = true → i < 32 := BitVec.lt_of_getLsbD
      simp only [BitVec.getLsbD_and, BitVec.getLsbD_not, hi, Bool.not_false, Bool.and_true, Bool.and_eq_true,
        decide_eq_true_eq]
      exact ⟨And.left, fun h => ⟨h, hlt h⟩⟩
    · simp [BitVec.getLsbD_or, BitVec.getLsbD_and, hi]
    · rfl
  | _ => exact hs

/-- An effective capability is permitted. -/
def Task.Within (i : ℕ) (t : Task) : Prop := t.capEffective.getLsbD i = true → t.capPermitted.getLsbD i = true

theorem Effect.within {i : ℕ} (h : Effect P c t t') (hf : P.noSetuidFixup = false) (hs : t.Within i) : t'.Within i := by
  cases h with
  | uids ruid euid suid dumpable granted cleared =>
    obtain ⟨hperm, heff⟩ := rename_caps hf t ruid euid suid dumpable
    intro he
    rw [heff] at he
    rw [hperm]
    by_cases hraise : t.euid ≠ 0 ∧ euid = 0
    · rw [if_pos hraise] at he
      rwa [if_neg fun hd : Drops .. => hd.2.1.2.1 hraise.2]
    · rw [if_neg hraise] at he
      obtain ⟨hzero, he⟩ := getLsbD_ite_zero he
      rw [if_neg fun hd => hzero (.inl hd)]
      exact hs he
  | fsuid fsuid dumpable granted cleared =>
    rw [fsFixup_eq]
    simp only [hf, Bool.false_eq_true, if_false]
    intro he
    dsimp only at he ⊢
    split_ifs at he
    · rw [BitVec.getLsbD_and] at he
      exact hs (Bool.and_elim_left he)
    · rw [BitVec.getLsbD_or, BitVec.getLsbD_and] at he
      rcases (Bool.or_eq_true _ _).mp he with he | he
      · exact hs he
      · exact Bool.and_elim_left he
    · exact hs he
  | _ => exact hs

/-- Where an effective capability comes from. Outside the file system part a new one needs a
change of the effective user id to zero. -/
theorem Effect.effective (h : Effect P c t t') (i : ℕ) (hi : t'.capEffective.getLsbD i = true) :
    t.capEffective.getLsbD i = true ∨ t.capPermitted.getLsbD i = true ∧
      (P.capFsMask.getLsbD i = true ∨ t'.euid = 0 ∧ t.euid ≠ 0) := by
  cases h with
  | uids ruid euid suid dumpable granted cleared =>
    by_cases hf : P.noSetuidFixup = true
    · rw [fixup, if_pos hf] at hi
      exact .inl hi
    · rw [(rename_caps (by simpa using hf) t ruid euid suid dumpable).2] at hi
      split at hi
      · refine .inr ⟨hi, .inr ⟨?_, And.left ‹_›⟩⟩
        rw [fixup_euid]
        exact And.right ‹_›
      · exact .inl (getLsbD_ite_zero hi).2
  | fsuid fsuid dumpable granted cleared =>
    rw [fsFixup_eq] at hi
    dsimp only at hi
    split_ifs at hi
    · exact .inl hi
    · rw [BitVec.getLsbD_and] at hi
      exact .inl (Bool.and_elim_left hi)
    · rw [BitVec.getLsbD_or, BitVec.getLsbD_and] at hi
      rcases (Bool.or_eq_true _ _).mp hi with hi | hi
      · exact .inl hi
      · exact .inr ⟨Bool.and_elim_left hi, .inl (Bool.and_elim_right hi)⟩
    · exact .inl hi
  | _ => exact .inl hi

/-- Neither effective nor permitted. -/
def Task.Lacks (t : Task) (i : ℕ) : Prop := t.capEffective.getLsbD i = false ∧ t.capPermitted.getLsbD i = false

theorem Effect.lacks (h : Effect P c t t') {i : ℕ} (hl : t.Lacks i) : t'.Lacks i := by
  refine ⟨Bool.eq_false_iff.mpr fun hi => ?_, Bool.eq_false_iff.mpr fun hi => ?_⟩
  · rcases h.effective i hi with he | ⟨hp, -⟩
    · exact Bool.eq_false_iff.mp hl.1 he
    · exact Bool.eq_false_iff.mp hl.2 hp
  · exact Bool.eq_false_iff.mp hl.2 (h.permitted i hi)

/-- Without a root id there are no capabilities, and they will not be kept. -/
structure Task.RootOnly (t : Task) : Prop where
  lost : t.keepCapabilities = false
  none : ¬ t.HasUid 0 → t.capPermitted = 0

theorem Effect.rootOnly (h : Effect P c t t') (hf : P.noSetuidFixup = false)
    (hc : c ≠ .setKeepcaps 1) (hs : t.RootOnly) : t'.RootOnly := by
  cases h with
  | uids ruid euid suid dumpable granted cleared =>
    obtain ⟨permitted, effective, hframe⟩ := @fixup_frame P t (t.rename ruid euid suid dumpable)
    refine ⟨?_, fun hno => ?_⟩
    · rw [hframe]
      exact hs.lost
    · rw [(rename_caps hf t ruid euid suid dumpable).1]
      split
      · rfl
      · rename_i hnd
        refine hs.none fun hroot => hnd ⟨hroot.imp Eq.symm (Or.imp Eq.symm Eq.symm), ?_, hs.lost⟩
        simp only [Task.HasUid, fixup_uid, fixup_euid, fixup_suid, not_or] at hno
        exact ⟨Ne.symm hno.1, Ne.symm hno.2.1, Ne.symm hno.2.2⟩
  | fsuid fsuid dumpable granted cleared =>
    rw [fsFixup_eq]
    exact ⟨hs.lost, hs.none⟩
  | keepcaps arg2 made =>
    refine ⟨?_, hs.none⟩
    have hne : arg2 ≠ 1 := fun he => hc (he ▸ made)
    simpa using hne
  | _ => exact ⟨hs.lost, hs.none⟩

end OperationSystems.Cred
