import Mathlib
import OperationSystems.Proc.Invariant

/-!
# The death of a task

`forget_original_parent` gives the children of a dying task another real parent
that does not die, so the loop of `exit_notify` moves each child once and ends.
What remains is a well-formed table in which nothing points at the dead task.
-/

namespace OperationSystems.Proc

open Function (update)
open HeadedList Transition Rings

variable {s s' : Table} {p cur father : Ptr} {q : Ptr → List Ptr} {fuel : ℕ}

namespace Table

/-- The table without the fields that the loop of `exit_notify` writes to. -/
def unlinked (s : Table) : Table :=
  { s with
    cptr := fun _ => none
    ysptr := fun _ => none
    osptr := fun _ => none
    pptr := fun _ => initTask
    ptraced := fun _ => false
    notified := fun _ => none
    hangups := [] }

theorem eq_of_unlinked {β : Type*} (f : Table → β) (hf : ∀ s, f s.unlinked = f s)
    (h : s'.unlinked = s.unlinked) : f s' = f s := by
  rw [← hf s', h, hf s]

theorem warnChild_eq (cur p : Ptr) (s : Table) : ∃ l, s.warnChild cur p = { s with hangups := l } := by
  rw [warnChild]
  split_ifs <;> exact ⟨_, rfl⟩

theorem warnOwn_eq (cur : Ptr) (s : Table) : ∃ l, s.warnOwn cur = { s with hangups := l } := by
  rw [warnOwn]
  split_ifs <;> exact ⟨_, rfl⟩

theorem reparentFirst_eq (cur p : Ptr) (s : Table) :
    ∃ l, s.reparentFirst cur p = { s.moveFirst cur p with
      notified := if s.state p = .zombie then update s.notified p (some (s.opptr p)) else s.notified
      hangups := l } := by
  obtain ⟨l, hl⟩ := warnChild_eq cur p
    (if (s.moveFirst cur p).state p = .zombie then (s.moveFirst cur p).doNotifyParent p else s.moveFirst cur p)
  refine ⟨l, hl.trans ?_⟩
  by_cases hz : s.state p = .zombie
  · simp [moveFirst, doNotifyParent, hz]
  · simp [moveFirst, hz]

theorem Moving.reparentFirst (hm : s.Moving cur q) (hp : s.cptr cur = some p) (hne : s.opptr p ≠ cur) :
    ∃ t, q cur = p :: t ∧
      (s.reparentFirst cur p).Moving cur (update (update q cur t) (s.opptr p) (p :: q (s.opptr p))) := by
  obtain ⟨t, hq, hmove⟩ := hm.moveFirst hp hne
  obtain ⟨l, hl⟩ := reparentFirst_eq cur p s
  refine ⟨t, hq, ?_⟩
  rw [hl]
  exact ⟨hmove.holds, hmove.mem⟩

/-- The loop of `exit_notify` moves every child once. -/
theorem reparentChildren_spec (hm : s.Moving cur q) (hne : ∀ p ∈ q cur, s.opptr p ≠ cur)
    (hf : (q cur).length < fuel) :
    ∃ t q', s.reparentChildren cur fuel = some t ∧ t.Families q' ∧ t.unlinked = s.unlinked ∧
      (∀ a, t.pptr a = if a ∈ q cur then s.opptr a else s.pptr a) ∧
      ∀ a, s.state a = .zombie → t.notified a = if a ∈ q cur then some (s.opptr a) else s.notified a := by
  induction fuel generalizing s q with
  | zero => omega
  | succ fuel ih =>
    have hread : s.cptr cur = (q cur).head? := (hm.holds cur).read_eq
    cases hc : s.cptr cur with
    | none =>
      have hnil : q cur = [] := List.head?_eq_none_iff.mp (hread.symm.trans hc)
      exact ⟨s, q, by rw [reparentChildren, hc], hm.families hc, rfl, by simp [hnil], by simp [hnil]⟩
    | some p =>
      have hpq : p ∈ q cur := List.mem_of_head? (hread.symm.trans hc)
      obtain ⟨l, hq, hmove⟩ := hm.reparentFirst hc (hne p hpq)
      have hself : update (update q cur l) (s.opptr p) (p :: q (s.opptr p)) cur = l := by
        rw [Function.update_of_ne (hne p hpq).symm, Function.update_self]
      have hpl : p ∉ l := (List.nodup_cons.mp (hq ▸ hm.holds.nodup cur)).1
      obtain ⟨g, hg⟩ := reparentFirst_eq cur p s
      have hop : (s.reparentFirst cur p).opptr = s.opptr := by rw [hg]; rfl
      have hst : (s.reparentFirst cur p).state = s.state := by rw [hg]; rfl
      have hpp : (s.reparentFirst cur p).pptr = update s.pptr p (s.opptr p) := by rw [hg]; rfl
      have hno : (s.reparentFirst cur p).notified =
          if s.state p = .zombie then update s.notified p (some (s.opptr p)) else s.notified := by
        rw [hg]
      have hun : (s.reparentFirst cur p).unlinked = s.unlinked := by rw [hg]; rfl
      obtain ⟨t, q', hrun, hfam, hsame, hpptr, hnotified⟩ := ih hmove
        (by rw [hself, hop]; exact fun a ha => hne a (hq ▸ List.mem_cons_of_mem p ha))
        (by rw [hself]; simpa [hq] using hf)
      rw [hself] at hpptr hnotified
      refine ⟨t, q', by rw [reparentChildren, hc]; exact hrun, hfam, hsame.trans hun, ?_, ?_⟩
      · intro a
        rw [hpptr a, hop, hpp, hq]
        by_cases hap : a = p
        · simp [hap, hpl]
        · simp [hap]
      · intro a ha
        rw [hnotified a (hst ▸ ha), hop, hno, hq]
        by_cases hap : a = p
        · simp [hap, hpl, hap ▸ ha]
        · by_cases hal : a ∈ l
          · simp [hal]
          · simp only [hal, List.mem_cons, hap, or_self, if_false]
            split
            · rw [Function.update_of_ne hap]
            · rfl

/-- The new parent is a thread that is not exiting, unless there is none. -/
theorem findReaper_spec {S : Set Ptr} (ht : Linked s.nextThread s.prevThread S) {n : ℕ} {r : Ptr}
    (hr : r ∈ S) (hn : 0 < n) (hret : s.nextThread^[n] r = father) (hf : n ≤ fuel) :
    ∃ x ∈ S, s.findReaper father fuel r = some x ∧ (s.exiting x = false ∨ x = father) ∧
      ∃ k, s.nextThread^[k] r = x := by
  induction fuel generalizing n r with
  | zero => omega
  | succ fuel ih =>
    rw [findReaper]
    by_cases he : s.exiting (s.nextThread r) = false
    · exact ⟨_, ht.next_mem r hr, by simp [he], .inl he, 1, rfl⟩
    · by_cases hfa : s.nextThread r = father
      · exact ⟨_, ht.next_mem r hr, by simp [hfa], .inr hfa, 1, rfl⟩
      · obtain ⟨m, rfl⟩ : ∃ m, n = m + 1 := ⟨n - 1, by omega⟩
        rw [Function.iterate_succ_apply] at hret
        have hm : 0 < m := by
          rcases Nat.eq_zero_or_pos m with rfl | hm
          · exact absurd hret hfa
          · exact hm
        obtain ⟨x, hx, hrun, hspec, k, hk⟩ := ih (ht.next_mem r hr) hm hret (by omega)
        exact ⟨x, hx, by simpa [he, hfa] using hrun, hspec, k + 1, hk⟩

/-- The real parents after a death: nobody keeps `father`, and its own children get a
thread of its group that lives on, or `init`. -/
structure Adopts (s : Table) (father : Ptr) (o : Ptr → Ptr) : Prop where
  ne : ∀ a ∈ s.tasks, o a ≠ father
  live : ∀ a ∈ s.tasks, s.Live (o a)
  keep : ∀ a, s.opptr a ≠ father → o a = s.opptr a
  runs : ∀ a ∈ s.tasks, s.opptr a = father → s.Runs (o a)
  thread : ∀ a ∈ s.tasks, s.opptr a = father → o a = childReaper ∨ ∃ k, s.nextThread^[k] father = o a

theorem forgetOriginalParent_spec (hw : s.Wf) (hfa : father ∈ s.tasks) (he : s.exiting father = true) :
    ∃ e i o, s.forgetOriginalParent father = some { s with exitSignal := e, selfExecId := i, opptr := o } ∧
      s.Adopts father o := by
  obtain ⟨n, hn, hle, hret⟩ := hw.threads.return_le (fun _ hx => hx) hfa
  obtain ⟨r, hr, hrun, hlive, k, hk⟩ := findReaper_spec hw.threads hfa hn hret hle
  have hruns : ∀ a, s.Runs a → a ≠ father := by
    rintro a ⟨-, ha⟩ rfl
    rw [he] at ha
    cases ha
  have hreaper : s.Runs childReaper := ⟨hw.reaper, hw.reaper_runs⟩
  have hr' : s.Runs (if r = father then childReaper else r) := by
    split
    · exact hreaper
    · exact ⟨hr, hlive.resolve_right ‹_›⟩
  have hrt : (if r = father then childReaper else r) = childReaper ∨
      ∃ k, s.nextThread^[k] father = if r = father then childReaper else r := by
    split
    · exact .inl rfl
    · exact .inr ⟨k, hk⟩
  refine ⟨_, _, _, by rw [forgetOriginalParent, hrun], ?_⟩
  generalize (if r = father then childReaper else r) = x at hr' hrt
  have hhit : ∀ a ∈ s.tasks, s.opptr a = father →
      (if a ∈ s.tasks ∧ s.opptr a = father then if a = x then childReaper else x else s.opptr a) =
        if a = x then childReaper else x :=
    fun a ha hop => if_pos ⟨ha, hop⟩
  have hx : ∀ a, s.Runs (if a = x then childReaper else x) := by
    intro a
    split
    · exact hreaper
    · exact hr'
  have hmiss : ∀ a, s.opptr a ≠ father →
      (if a ∈ s.tasks ∧ s.opptr a = father then if a = x then childReaper else x else s.opptr a) =
        s.opptr a :=
    fun a hop => if_neg fun h => hop h.2
  refine ⟨?_, ?_, hmiss, ?_, ?_⟩
  · intro a ha
    by_cases hop : s.opptr a = father
    · rw [hhit a ha hop]
      exact hruns _ (hx a)
    · rw [hmiss a hop]
      exact hop
  · intro a ha
    by_cases hop : s.opptr a = father
    · rw [hhit a ha hop]
      exact hw.live_cur (hx a)
    · rw [hmiss a hop]
      exact (hw.parents a ha).2
  · intro a ha hop
    rw [hhit a ha hop]
    exact hx a
  · intro a ha hop
    rw [hhit a ha hop]
    split
    · exact .inl rfl
    · exact hrt

theorem mourn_eq (cur : Ptr) (capKill : Bool) (s : Table) :
    ∃ e h, s.mourn cur capKill = { s with
      exitSignal := e
      hangups := h
      state := update s.state cur .zombie
      notified := update s.notified cur (some (s.pptr cur)) } := by
  obtain ⟨l, hl⟩ := warnOwn_eq cur s
  rw [mourn, hl]
  split_ifs <;> exact ⟨_, _, rfl⟩

/-- The table `t` after the death of `cur`: its children are with their real parents, and
those that are dead were announced again. -/
structure Departs (s : Table) (cur : Ptr) (t : Table) : Prop where
  families : ∃ q, t.Families q
  rest : ∃ e i, t.unlinked =
    unlinked { s with
      exitSignal := e
      selfExecId := i
      opptr := t.opptr
      state := update s.state cur .zombie }
  adopts : s.Adopts cur t.opptr
  pptr : ∀ a ∈ s.tasks, t.pptr a = if s.pptr a = cur then t.opptr a else s.pptr a
  told : ∀ a ∈ s.tasks, t.state a = .zombie →
    t.notified a = if s.pptr a = cur then some (t.opptr a)
      else if a = cur then some (s.pptr a) else s.notified a

theorem exitNotify_departs (hw : s.Wf) (hc : cur ∈ s.tasks) (he : s.exiting cur = true) (capKill : Bool) :
    ∃ t, s.exitNotify cur capKill = some t ∧ s.Departs cur t := by
  obtain ⟨q, hq⟩ := hw.families
  obtain ⟨e, i, o, hu, hop⟩ := forgetOriginalParent_spec hw hc he
  obtain ⟨e', g, hv⟩ := mourn_eq cur capKill { s with exitSignal := e, selfExecId := i, opptr := o }
  have hfam : Families { s with
      exitSignal := e'
      selfExecId := i
      opptr := o
      hangups := g
      state := update s.state cur .zombie
      notified := update s.notified cur (some (s.pptr cur)) } q :=
    hq.congr (fun _ => Iff.rfl) rfl rfl rfl rfl
  have hlen : (q cur).length < s.tasks.length + 1 := by
    refine Nat.lt_succ_of_le (List.subperm_of_subset (hq.holds.nodup cur) ?_).length_le
    exact fun b hb => ((hq.mem cur b).mp hb).1
  obtain ⟨t, q', hrun, hfam, hun, hpptr, hnotified⟩ := reparentChildren_spec (hfam.moving cur)
    (fun p hp => hop.ne p ((hq.mem cur p).mp hp).1) hlen
  have hto : t.opptr = o := (eq_of_unlinked Table.opptr (fun _ => rfl) hun :)
  have hts : t.state = update s.state cur .zombie := (eq_of_unlinked Table.state (fun _ => rfl) hun :)
  have hmem : ∀ a ∈ s.tasks, a ∈ q cur ↔ s.pptr a = cur := fun a ha => (hq.mem cur a).trans (and_iff_right ha)
  refine ⟨t, by rw [Table.exitNotify, hu, Option.bind_some, hv]; exact hrun, ⟨q', hfam⟩, ⟨e', i, ?_⟩, ?_,
    fun a ha => ?_, fun a ha haz => ?_⟩
  · rw [hto]
    exact hun
  · rw [hto]
    exact hop
  · rw [hpptr a, hto]
    simp only [hmem a ha]
  · rw [hnotified a (hts ▸ haz), hto]
    simp only [hmem a ha, Function.update_apply]
    by_cases hac : a = cur
    · simp [hac]
    · simp [hac]

theorem Wf.exitNotify (hw : s.Wf) (hc : cur ∈ s.tasks) (he : s.exiting cur = true) (capKill : Bool) :
    ∃ t, s.exitNotify cur capKill = some t ∧ t.Wf ∧ s.KeepsIds t := by
  obtain ⟨t, hrun, ⟨q', hfam⟩, ⟨e', i, hun⟩, hop, hpptr, htold⟩ := exitNotify_departs hw hc he capKill
  obtain ⟨h, hh⟩ := hw.hashed
  have htt : t.tasks = s.tasks := (eq_of_unlinked Table.tasks (fun _ => rfl) hun :)
  have hts : t.state = update s.state cur .zombie := (eq_of_unlinked Table.state (fun _ => rfl) hun :)
  have htx : t.exiting = s.exiting := (eq_of_unlinked Table.exiting (fun _ => rfl) hun :)
  have hpid : t.pid = s.pid := (eq_of_unlinked Table.pid (fun _ => rfl) hun :)
  have hids : t.ids = s.ids := (eq_of_unlinked Table.ids (fun _ => rfl) hun :)
  have hleader : t.leader = s.leader := (eq_of_unlinked Table.leader (fun _ => rfl) hun :)
  have hkeep : s.KeepsIds t :=
    ⟨fun a ha => ⟨htt ▸ ha, congrFun hids a, congrFun hleader a⟩,
      (eq_of_unlinked Table.lastPid (fun _ => rfl) hun :),
      (eq_of_unlinked Table.nextSafe (fun _ => rfl) hun :),
      (eq_of_unlinked Table.maxThreads (fun _ => rfl) hun :)⟩
  have hlive : ∀ k, s.Live k → k ≠ cur → t.Live k := by
    rintro k ⟨hk, hkz⟩ hne
    exact ⟨htt ▸ hk, by rwa [hts, Function.update_of_ne hne]⟩
  refine ⟨t, hrun, ?_, hkeep⟩
  refine ⟨htt ▸ hw.nodup, htt ▸ hw.root, htt ▸ hw.reaper, hpid ▸ hw.reaper_pid, htx ▸ hw.reaper_runs,
    htx ▸ hw.root_runs, ?_, ⟨q', hfam⟩, ?_, ⟨h, ?_⟩, ?_, ?_, ?_⟩
  · intro a ha
    rw [hts] at ha
    rw [htx]
    by_cases hac : a = cur
    · exact hac ▸ he
    · exact hw.zombie a (by rwa [Function.update_of_ne hac] at ha)
  · intro a ha
    rw [htt] at ha
    rw [hpptr a ha]
    refine ⟨?_, hlive _ (hop.live a ha) (hop.ne a ha)⟩
    split
    · exact hlive _ (hop.live a ha) (hop.ne a ha)
    · rename_i hnot
      exact hlive _ (hw.parents a ha).1 hnot
  · refine hh.congr (fun a => by rw [htt]) ?_ ?_ ?_ (fun a _ => by rw [hpid])
    · exact (eq_of_unlinked Table.pidhash (fun _ => rfl) hun :)
    · exact (eq_of_unlinked Table.pidhashNext (fun _ => rfl) hun :)
    · exact (eq_of_unlinked Table.pidhashPprev (fun _ => rfl) hun :)
  · rw [htt, show t.nextThread = s.nextThread from (eq_of_unlinked Table.nextThread (fun _ => rfl) hun :),
      show t.prevThread = s.prevThread from (eq_of_unlinked Table.prevThread (fun _ => rfl) hun :)]
    exact hw.threads
  · intro a ha haz
    rw [htt] at ha
    rw [htold a ha haz, hpptr a ha]
    split
    · rfl
    · by_cases hac : a = cur
      · simp [hac]
      · rw [hts, Function.update_of_ne hac] at haz
        rw [if_neg hac]
        exact hw.notified a ha haz
  · rw [htt, show t.nrThreads = s.nrThreads from (eq_of_unlinked Table.nrThreads (fun _ => rfl) hun :)]
    exact hw.count

end Table

end OperationSystems.Proc
