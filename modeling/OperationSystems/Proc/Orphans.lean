import Mathlib
import OperationSystems.Proc.Exit

/-!
# Orphaned process groups

A member ties its group to the session if its parent is in the session, but in
another group. When a task dies, a group that loses its last tie and has
stopped members is sent `SIGHUP` and `SIGCONT`: the dead task was the tie
itself, or the parent of the members that were.
-/

namespace OperationSystems.Proc

open Function (update)
open HeadedList Transition Rings

variable {s t : Table} {p cur : Ptr} {q : Ptr → List Ptr} {fuel g : ℕ}

namespace Table

/-- The task connects the group `g` with the rest of its session. -/
def Ties (s : Table) (g : ℕ) (p : Ptr) : Prop :=
  s.pgrp p = g ∧ s.state p ≠ .zombie ∧ s.pid (s.pptr p) ≠ 1 ∧ s.pgrp (s.pptr p) ≠ g ∧
    s.session (s.pptr p) = s.session p

instance (s : Table) (g : ℕ) (p : Ptr) : Decidable (s.Ties g p) := inferInstanceAs (Decidable (_ ∧ _))

theorem willBecomeOrphaned_iff {o : Option Ptr} :
    s.willBecomeOrphanedPgrp g o = true ↔ ∀ p ∈ s.tasks, some p ≠ o → ¬ s.Ties g p := by
  rw [willBecomeOrphanedPgrp, List.all_eq_true]
  refine forall₂_congr fun p _ => ?_
  simp only [Ties, Bool.or_eq_true, decide_eq_true_eq, Bool.not_eq_true', decide_eq_false_iff_not]
  tauto

theorem isOrphaned_iff : s.isOrphanedPgrp g = true ↔ ∀ p ∈ s.tasks, ¬ s.Ties g p := by
  rw [isOrphanedPgrp, willBecomeOrphaned_iff]
  simp

theorem hasStopped_iff : s.hasStoppedJobs g = true ↔ ∃ p ∈ s.tasks, s.pgrp p = g ∧ s.state p = .stopped := by
  simp [hasStoppedJobs]

/-- A tie depends on the numbers, on the state of the task and on its parent. -/
theorem Ties.congr (hi : t.ids = s.ids) (hs : t.state p = s.state p) (hp : t.pptr p = s.pptr p) :
    t.Ties g p ↔ s.Ties g p := by
  have hpid : t.pid = s.pid := funext fun a => congrArg Ids.pid (congrFun hi a)
  have hpgrp : t.pgrp = s.pgrp := funext fun a => congrArg Ids.pgrp (congrFun hi a)
  have hses : t.session = s.session := funext fun a => congrArg Ids.session (congrFun hi a)
  rw [Ties, Ties, hpid, hpgrp, hses, hs, hp]

theorem warnChild_hangups (cur p : Ptr) (s : Table) :
    ∃ l, (s.warnChild cur p).hangups = s.hangups ++ l ∧
      (s.pgrp p ≠ s.pgrp cur → s.session p = s.session cur → s.isOrphanedPgrp (s.pgrp p) = true →
        s.hasStoppedJobs (s.pgrp p) = true → s.pgrp p ∈ l) := by
  rw [warnChild]
  split_ifs with hc
  · exact ⟨[s.pgrp p], rfl, fun _ _ _ _ => List.mem_singleton_self _⟩
  · exact ⟨[], (List.append_nil _).symm, fun h1 h2 h3 h4 => absurd ⟨h1, h2, h3, h4⟩ hc⟩

theorem warnOwn_hangups (cur : Ptr) (s : Table) :
    ∃ l, (s.warnOwn cur).hangups = s.hangups ++ l ∧
      (s.pgrp (s.pptr cur) ≠ s.pgrp cur → s.session (s.pptr cur) = s.session cur →
        s.willBecomeOrphanedPgrp (s.pgrp cur) (some cur) = true → s.hasStoppedJobs (s.pgrp cur) = true →
        s.pgrp cur ∈ l) := by
  rw [warnOwn]
  split_ifs with hc
  · exact ⟨[s.pgrp cur], rfl, fun _ _ _ _ => List.mem_singleton_self _⟩
  · exact ⟨[], (List.append_nil _).symm, fun h1 h2 h3 h4 => absurd ⟨h1, h2, h3, h4⟩ hc⟩

theorem reparentFirst_hangups (cur p : Ptr) (s : Table) :
    ∃ l, (s.reparentFirst cur p).hangups = s.hangups ++ l ∧
      (s.pgrp p ≠ s.pgrp cur → s.session p = s.session cur →
        (s.reparentFirst cur p).isOrphanedPgrp (s.pgrp p) = true → s.hasStoppedJobs (s.pgrp p) = true →
        s.pgrp p ∈ l) := by
  obtain ⟨g, hg⟩ := reparentFirst_eq cur p s
  have ho : (s.reparentFirst cur p).isOrphanedPgrp (s.pgrp p) = (s.moveFirst cur p).isOrphanedPgrp (s.pgrp p) := by
    rw [hg]
    rfl
  rw [ho, reparentFirst]
  split_ifs
  · exact warnChild_hangups cur p ((s.moveFirst cur p).doNotifyParent p)
  · exact warnChild_hangups cur p (s.moveFirst cur p)

theorem reparentChildren_hangups (h : s.reparentChildren cur fuel = some t) :
    ∃ l, t.hangups = s.hangups ++ l := by
  induction fuel generalizing s with
  | zero => cases h
  | succ fuel ih =>
    rw [reparentChildren] at h
    cases hc : s.cptr cur with
    | none =>
      rw [hc] at h
      obtain rfl := Option.some.inj h
      exact ⟨[], (List.append_nil _).symm⟩
    | some p =>
      rw [hc] at h
      obtain ⟨l, hl⟩ := ih h
      obtain ⟨k, hk, -⟩ := reparentFirst_hangups cur p s
      exact ⟨k ++ l, by rw [hl, hk, List.append_assoc]⟩

/-- The last child that tied a group to its session is moved when no other tie is left. -/
theorem reparentChildren_signals (hm : s.Moving cur q) (hne : ∀ p ∈ q cur, s.opptr p ≠ cur)
    (hf : (q cur).length < fuel) (h : s.reparentChildren cur fuel = some t) (hg : g ≠ s.pgrp cur)
    (hex : ∃ p ∈ q cur, s.pgrp p = g ∧ s.session p = s.session cur)
    (horphan : ∀ p ∈ s.tasks, ¬ t.Ties g p) (hstop : s.hasStoppedJobs g = true) :
    ∃ l, t.hangups = s.hangups ++ l ∧ g ∈ l := by
  induction fuel generalizing s q with
  | zero => omega
  | succ fuel ih =>
    obtain ⟨w, hw, hwg, hws⟩ := hex
    have hread : s.cptr cur = (q cur).head? := (hm.holds cur).read_eq
    cases hc : s.cptr cur with
    | none =>
      rw [List.head?_eq_none_iff.mp (hread.symm.trans hc)] at hw
      cases hw
    | some p =>
      have hpq : p ∈ q cur := List.mem_of_head? (hread.symm.trans hc)
      obtain ⟨l, hq, hmove⟩ := hm.reparentFirst hc (hne p hpq)
      have hself : update (update q cur l) (s.opptr p) (p :: q (s.opptr p)) cur = l := by
        rw [Function.update_of_ne (hne p hpq).symm, Function.update_self]
      rw [reparentChildren, hc] at h
      obtain ⟨k, hk, hsig⟩ := reparentFirst_hangups cur p s
      have hun : (s.reparentFirst cur p).unlinked = s.unlinked := by
        obtain ⟨g, hg⟩ := reparentFirst_eq cur p s
        rw [hg]
        rfl
      have hids : (s.reparentFirst cur p).ids = s.ids := eq_of_unlinked Table.ids (fun _ => rfl) hun
      have hpg : (s.reparentFirst cur p).pgrp = s.pgrp := eq_of_unlinked Table.pgrp (fun _ => rfl) hun
      have hse : (s.reparentFirst cur p).session = s.session := eq_of_unlinked Table.session (fun _ => rfl) hun
      have hst : (s.reparentFirst cur p).state = s.state := eq_of_unlinked Table.state (fun _ => rfl) hun
      have hta : (s.reparentFirst cur p).tasks = s.tasks := eq_of_unlinked Table.tasks (fun _ => rfl) hun
      have hop : (s.reparentFirst cur p).opptr = s.opptr := eq_of_unlinked Table.opptr (fun _ => rfl) hun
      have hne' : ∀ a ∈ update (update q cur l) (s.opptr p) (p :: q (s.opptr p)) cur,
          (s.reparentFirst cur p).opptr a ≠ cur := by
        rw [hself, hop]
        exact fun a ha => hne a (hq ▸ List.mem_cons_of_mem p ha)
      have hf' : (update (update q cur l) (s.opptr p) (p :: q (s.opptr p)) cur).length < fuel := by
        rw [hself]
        simpa [hq] using hf
      by_cases hrest : ∃ a ∈ l, s.pgrp a = g ∧ s.session a = s.session cur
      · -- another child of the group is still to come
        have hstop' : (s.reparentFirst cur p).hasStoppedJobs g = true := by
          rw [hasStoppedJobs, hta, hpg, hst]
          exact hstop
        obtain ⟨j, hj, hgj⟩ := ih hmove hne' hf' h (hpg ▸ hg) (by rw [hself, hpg, hse]; exact hrest)
          (hta ▸ horphan) hstop'
        exact ⟨k ++ j, by rw [hj, hk, List.append_assoc], List.mem_append_right k hgj⟩
      · -- `p` is the last one, and what ties the group now ties it at the end
        have hwp : w = p := by
          rw [hq] at hw
          exact (List.mem_cons.mp hw).resolve_right fun hwl => hrest ⟨w, hwl, hwg, hws⟩
        obtain ⟨t', q', hrun, -, htun, hpp, -⟩ := reparentChildren_spec hmove hne' hf'
        obtain rfl := Option.some.inj (hrun.symm.trans h)
        obtain ⟨j, hj⟩ := reparentChildren_hangups h
        have htids : t'.ids = (s.reparentFirst cur p).ids := eq_of_unlinked Table.ids (fun _ => rfl) htun
        have htst : t'.state = (s.reparentFirst cur p).state := eq_of_unlinked Table.state (fun _ => rfl) htun
        have horph : (s.reparentFirst cur p).isOrphanedPgrp g = true := by
          rw [isOrphaned_iff]
          intro a ha hties
          rw [hta] at ha
          by_cases hal : a ∈ l
          · have hpa : (s.reparentFirst cur p).pptr a = cur := by
              refine ((hmove.mem cur a).mp ?_).2
              rw [hself]
              exact hal
            obtain ⟨h1, -, -, -, h5⟩ := hties
            rw [hpa, hse] at h5
            exact hrest ⟨a, hal, hpg ▸ h1, h5.symm⟩
          · refine horphan a ha ((Ties.congr htids (congrFun htst a) ?_).mpr hties)
            rw [hpp a, hself, if_neg hal]
        have hgk : g ∈ k := by
          subst hwp
          rw [← hwg] at horph hstop hg ⊢
          exact hsig hg hws horph hstop
        exact ⟨k ++ j, by rw [hj, hk, List.append_assoc], List.mem_append_left j hgk⟩

theorem mourn_hangups (cur : Ptr) (capKill : Bool) (s : Table) :
    (s.mourn cur capKill).hangups = (s.warnOwn cur).hangups := by
  rw [mourn]
  split_ifs <;> rfl

/-- The groups that the death of a task orphans are sent the signals. -/
theorem Wf.exitNotify_signals (hw : s.Wf) (hc : cur ∈ s.tasks) (he : s.exiting cur = true) {capKill : Bool}
    (h : s.exitNotify cur capKill = some t) (hbefore : s.isOrphanedPgrp g = false)
    (hafter : t.isOrphanedPgrp g = true) (hstop : t.hasStoppedJobs g = true) :
    ∃ l, t.hangups = s.hangups ++ l ∧ g ∈ l := by
  obtain ⟨q, hq⟩ := hw.families
  obtain ⟨e, i, o, hu, hop⟩ := forgetOriginalParent_spec hw hc he
  obtain ⟨e', k, hv⟩ := mourn_eq cur capKill { s with exitSignal := e, selfExecId := i, opptr := o }
  have hvh := mourn_hangups cur capKill { s with exitSignal := e, selfExecId := i, opptr := o }
  obtain ⟨l, hl, hown⟩ := warnOwn_hangups cur { s with exitSignal := e, selfExecId := i, opptr := o }
  rw [hv, hl] at hvh
  rw [Table.exitNotify, hu, Option.bind_some, hv] at h
  -- the state at the beginning of the loop
  have hfam : Families { s with
      exitSignal := e'
      selfExecId := i
      opptr := o
      hangups := k
      state := update s.state cur .zombie
      notified := update s.notified cur (some (s.pptr cur)) } q :=
    hq.congr (fun _ => Iff.rfl) rfl rfl rfl rfl
  have hlen : (q cur).length < s.tasks.length + 1 := by
    refine Nat.lt_succ_of_le (List.subperm_of_subset (hq.holds.nodup cur) ?_).length_le
    exact fun b hb => ((hq.mem cur b).mp hb).1
  have hmoving := hfam.moving cur
  have hne : ∀ p ∈ q cur, o p ≠ cur := fun p hp => hop.ne p ((hq.mem cur p).mp hp).1
  obtain ⟨t', q', hrun, -, hun, hpptr, -⟩ := reparentChildren_spec hmoving hne hlen
  obtain rfl := Option.some.inj (hrun.symm.trans h)
  have htt : t'.tasks = s.tasks := (eq_of_unlinked Table.tasks (fun _ => rfl) hun :)
  have hti : t'.ids = s.ids := (eq_of_unlinked Table.ids (fun _ => rfl) hun :)
  have htg : t'.pgrp = s.pgrp := (eq_of_unlinked Table.pgrp (fun _ => rfl) hun :)
  have hts : t'.state = update s.state cur .zombie := (eq_of_unlinked Table.state (fun _ => rfl) hun :)
  rw [isOrphaned_iff, htt] at hafter
  obtain ⟨w, hw', hties⟩ : ∃ w ∈ s.tasks, s.Ties g w := by
    by_contra hno
    refine Bool.false_ne_true (hbefore.symm.trans (isOrphaned_iff.mpr fun p hp ht => hno ⟨p, hp, ht⟩))
  obtain ⟨x, hx, hxg, hxs⟩ := hasStopped_iff.mp hstop
  rw [htt] at hx
  rw [htg] at hxg
  rw [hts] at hxs
  have hxcur : x ≠ cur := by
    rintro rfl
    simp at hxs
  rw [Function.update_of_ne hxcur] at hxs
  -- a tie whose parent stays is a tie in the end
  have hkept : ∀ p ∈ s.tasks, p ≠ cur → s.Ties g p → s.pptr p = cur := by
    intro p hp hpc htie
    by_contra hpar
    refine hafter p hp ((Ties.congr hti ?_ ?_).mpr htie)
    · rw [hts, Function.update_of_ne hpc]
    · rw [hpptr p]
      exact if_neg fun hm => hpar ((hq.mem cur p).mp hm).2
  by_cases hwc : w = cur
  · subst hwc
    obtain ⟨hg, -, -, hpg, hps⟩ := hties
    obtain ⟨j, hj⟩ := reparentChildren_hangups h
    refine ⟨l ++ j, ?_, List.mem_append_left j ?_⟩
    · rw [hj, ← List.append_assoc]
      exact congrArg (· ++ j) hvh
    · rw [← hg] at hpg ⊢
      refine hown hpg hps ?_ (hasStopped_iff.mpr ⟨x, hx, hxg.trans hg.symm, hxs⟩)
      rw [willBecomeOrphaned_iff]
      intro p hp hpw htie
      have hpw' : p ≠ w := fun he => hpw (congrArg some he)
      have hpar := hkept p hp hpw' (hg ▸ (Ties.congr rfl rfl rfl).mp htie)
      exact htie.2.2.2.1 (congrArg s.pgrp hpar)
  · have hwp := hkept w hw' hwc hties
    obtain ⟨hwg, -, -, hpg, hps⟩ := hties
    rw [hwp] at hpg hps
    obtain ⟨j, hj, hgj⟩ := reparentChildren_signals hmoving hne hlen h hpg.symm
      ⟨w, (hq.mem cur w).mpr ⟨hw', hwp⟩, hwg, hps.symm⟩ hafter
      (hasStopped_iff.mpr ⟨x, hx, hxg, (Function.update_of_ne hxcur _ _).trans hxs⟩)
    refine ⟨l ++ j, ?_, List.mem_append_right l hgj⟩
    rw [hj, ← List.append_assoc]
    exact congrArg (· ++ j) hvh

end Table

end OperationSystems.Proc
