import Mathlib
import OperationSystems.Proc.Wait
import OperationSystems.Proc.Exit

/-!
# Runs of the process table

Every call keeps the table well formed, and none of its loops goes on without
end, once `get_pid` is known to find its way: the ids in use are below
`PID_MAX`, and below `last_pid` until the numbers have wrapped around.
-/

namespace OperationSystems.Proc

open Function (update)
open HeadedList Transition Rings

variable {s s' : Table} {p cur : Ptr} {e : Event} {maxThreads : ℕ} {es : List Event}

namespace Table

/-- What the search for a process id relies on. -/
structure Numbered (s : Table) : Prop where
  last : 0 < s.lastPid
  max : s.lastPid < pidMax
  safe : s.nextSafe ≤ pidMax
  low : s.lastPid < 300 → ∀ p ∈ s.tasks, ∀ n, (s.ids p).Uses n → n ≤ s.lastPid
  pos : ∀ p ∈ s.tasks, 0 < s.pid p

theorem Numbered.search (hn : s.Numbered) :
    ∃ r, getPid (s.tasks.map s.ids) s.lastPid s.nextSafe = some r ∧ Searched s.lastPid r ∧
      (Window (s.tasks.map s.ids) s.lastPid s.nextSafe ∨ r.1 = 0 →
        Chosen (s.tasks.map s.ids) s.lastPid r ∨ Exhausted (s.tasks.map s.ids) s.lastPid r) := by
  refine getPid_spec hn.max hn.safe fun h t ht n hu => ?_
  obtain ⟨a, ha, rfl⟩ := List.mem_map.mp ht
  exact hn.low h a ha n hu

/-- `get_pid` with the numbers that it leaves. -/
def Searches (s : Table) (pid lastPid nextSafe : ℕ) : Prop :=
  getPid (s.tasks.map s.ids) s.lastPid s.nextSafe = some (pid, lastPid, nextSafe)

/-- The outcomes of `do_fork`. -/
theorem doFork_cases (hn : s.Numbered) (hc : cur ∈ s.tasks) (p : Ptr) (flags : CloneFlags) (input : ForkInput) :
    ∃ r t, s.doFork cur p flags input = some (r, t) ∧
      (s.forkRefusal cur flags input = some r ∧ t = s ∨
        s.forkRefusal cur flags input = none ∧ ∃ pid lastPid nextSafe, s.Searches pid lastPid nextSafe ∧
          ((pid = 0 ∧ r = -Sched.eagain ∨ pid ≠ 0 ∧ input.copied = false ∧ r = -enomem) ∧
              t = { s with lastPid := lastPid, nextSafe := nextSafe } ∨
            pid ≠ 0 ∧ input.copied = true ∧ r = pid ∧
              t = { s with lastPid := lastPid, nextSafe := nextSafe }.linkChild cur p flags pid)) := by
  obtain ⟨⟨pid, lastPid, nextSafe⟩, hg, -⟩ := hn.search
  have hne : s.pid cur ≠ 0 := (hn.pos cur hc).ne'
  rw [doFork]
  cases hr : s.forkRefusal cur flags input with
  | some r => exact ⟨r, s, rfl, .inl ⟨rfl, rfl⟩⟩
  | none =>
    have hflag : flags.pid = false := by
      by_contra hp
      have hp' : flags.pid = true := by simpa using hp
      by_cases hns : flags.newns = true ∧ flags.fs = true
      · simp [forkRefusal, hns] at hr
      · simp [forkRefusal, hns, hp', hne] at hr
    simp only [hflag, Bool.false_eq_true, if_false, hg]
    by_cases h0 : pid = 0
    · exact ⟨-Sched.eagain, { s with lastPid := lastPid, nextSafe := nextSafe }, by simp [h0, hne],
        .inr ⟨trivial, _, _, _, hg, .inl ⟨.inl ⟨h0, rfl⟩, rfl⟩⟩⟩
    · cases hcopied : input.copied with
      | false =>
        exact ⟨-enomem, { s with lastPid := lastPid, nextSafe := nextSafe }, by simp [h0],
          .inr ⟨trivial, _, _, _, hg, .inl ⟨.inr ⟨h0, rfl, rfl⟩, rfl⟩⟩⟩
      | true =>
        exact ⟨pid, { s with lastPid := lastPid, nextSafe := nextSafe }.linkChild cur p flags pid, by simp [h0],
          .inr ⟨trivial, _, _, _, hg, .inr ⟨h0, rfl, rfl, rfl⟩⟩⟩

/-- A successful `setpgid`. -/
structure JoinsGroup (s : Table) (cur p : Ptr) (g : ℕ) : Prop where
  mem : p ∈ s.tasks
  session : s.session p = s.session cur
  leader : s.leader p = false
  group : g = s.pid p ∨ ∃ t ∈ s.tasks, s.pgrp t = g ∧ s.session t = s.session cur

/-- The call is a `do_fork` that gets as far as `get_pid`. -/
def Searching (s : Table) : Event → Prop
  | .fork cur _ flags input => s.forkRefusal cur flags input = none
  | _ => False

/-- What one call does to the numbers. -/
inductive Renumber (s : Table) (e : Event) : Table → Prop where
  | keep (s' : Table) (h : s.KeepsIds s') : Renumber s e s'
  | search (pid lastPid nextSafe : ℕ) (h : s.Searches pid lastPid nextSafe) (hs : s.Searching e) :
      Renumber s e { s with lastPid := lastPid, nextSafe := nextSafe }
  | born (cur p : Ptr) (flags : CloneFlags) (pid lastPid nextSafe : ℕ) (h : s.Searches pid lastPid nextSafe)
      (hs : s.Searching e) (hr : s.Runs cur) (hp : p ∉ s.tasks) (h0 : pid ≠ 0) :
      Renumber s e ({ s with lastPid := lastPid, nextSafe := nextSafe }.linkChild cur p flags pid)
  | group (cur p : Ptr) (g : ℕ) (h : s.JoinsGroup cur p g) : Renumber s e { s with pgrp := update s.pgrp p g }
  | session (cur : Ptr) (hc : cur ∈ s.tasks) (h : ∀ t ∈ s.tasks, s.pgrp t ≠ s.pid cur) :
      Renumber s e (s.sysSetsid cur).2
  | daemon (cur : Ptr) (hc : cur ∈ s.tasks) (h : ∀ t ∈ s.tasks, s.pgrp t ≠ s.pid cur) :
      Renumber s e (s.daemonize cur)

theorem Numbered.of_uses (hn : s.Numbered) (hl : s'.lastPid = s.lastPid) (hs : s'.nextSafe = s.nextSafe)
    (hp : ∀ a ∈ s'.tasks, 0 < s'.pid a)
    (hu : ∀ a ∈ s'.tasks, ∀ n, (s'.ids a).Uses n → n ≤ s.lastPid ∨ ∃ b ∈ s.tasks, (s.ids b).Uses n) :
    s'.Numbered := by
  refine ⟨hl ▸ hn.last, hl ▸ hn.max, hs ▸ hn.safe, fun h300 a ha n hna => ?_, hp⟩
  rw [hl] at h300 ⊢
  rcases hu a ha n hna with hle | ⟨b, hb, hub⟩
  · exact hle
  · exact hn.low h300 b hb n hub

theorem ids_linkChild (cur p : Ptr) (flags : CloneFlags) (n : ℕ) (s : Table) :
    (s.linkChild cur p flags n).ids =
      update s.ids p ⟨n, s.pgrp cur, if flags.thread then s.tgid cur else n, s.session cur⟩ := by
  funext a
  rw [linkChild]
  by_cases ha : a = p
  · subst ha
    cases hf : flags.thread <;> simp [ids, hashPid, setLinks, copyProcess, listAdd, hf]
  · cases flags.thread <;> simp [ids, hashPid, setLinks, copyProcess, listAdd, ha]

theorem leader_linkChild (cur p : Ptr) (flags : CloneFlags) (n : ℕ) (s : Table) :
    (s.linkChild cur p flags n).leader = update s.leader p false := by
  rw [linkChild]
  cases flags.thread <;> rfl

theorem tasks_linkChild (cur p : Ptr) (flags : CloneFlags) (n : ℕ) (s : Table) :
    (s.linkChild cur p flags n).tasks = s.tasks ++ [p] := by
  rw [linkChild]
  cases flags.thread <;> rfl

theorem last_linkChild (cur p : Ptr) (flags : CloneFlags) (n : ℕ) (s : Table) :
    (s.linkChild cur p flags n).lastPid = s.lastPid ∧ (s.linkChild cur p flags n).nextSafe = s.nextSafe := by
  rw [linkChild]
  cases flags.thread <;> exact ⟨rfl, rfl⟩

/-- The numbers after a search, for tasks that use old numbers and `last_pid`. -/
theorem Numbered.of_search (hn : s.Numbered) {pid lastPid nextSafe : ℕ} (h : s.Searches pid lastPid nextSafe)
    (hl : s'.lastPid = lastPid) (hs : s'.nextSafe = nextSafe) (hp : ∀ a ∈ s'.tasks, 0 < s'.pid a)
    (hu : ∀ a ∈ s'.tasks, ∀ n, (s'.ids a).Uses n → n ≤ lastPid ∨ ∃ b ∈ s.tasks, (s.ids b).Uses n) :
    s'.Numbered := by
  obtain ⟨r, hr, hsr, -⟩ := hn.search
  obtain rfl := Option.some.inj (hr.symm.trans h)
  refine ⟨hl ▸ hsr.pos, hl ▸ hsr.max, hs ▸ hsr.safe, fun h300 a ha n hna => ?_, hp⟩
  rw [hl] at h300 ⊢
  have hlow : lastPid = s.lastPid + 1 := hsr.low h300
  rcases hu a ha n hna with hle | ⟨b, hb, hub⟩
  · exact hle
  · have := hn.low (by omega) b hb n hub
    omega

theorem Renumber.same_max (h : s.Renumber e s') : s'.maxThreads = s.maxThreads := by
  cases h with
  | keep s' h => exact h.2.2.2
  | search pid lastPid nextSafe h hs => rfl
  | born cur p flags pid lastPid nextSafe h hs hr hp h0 =>
    rw [linkChild]
    cases flags.thread <;> rfl
  | group cur p g h => rfl
  | session cur hc h =>
    rw [sysSetsid]
    split <;> rfl
  | daemon cur hc h => rfl

theorem Renumber.numbered (hn : s.Numbered) (h : s.Renumber e s') : s'.Numbered := by
  have hbound : ∀ a ∈ s.tasks, ∀ n, (s.ids a).Uses n → ∃ b ∈ s.tasks, (s.ids b).Uses n :=
    fun a ha n hu => ⟨a, ha, hu⟩
  cases h with
  | keep s' h =>
    refine hn.of_uses h.2.1 h.2.2.1 (fun a ha => ?_) fun a ha n hu => ?_
    · obtain ⟨ha, hids, -⟩ := h.1 a ha
      have hpid : s'.pid a = s.pid a := congrArg Ids.pid hids
      rw [hpid]
      exact hn.pos a ha
    · obtain ⟨ha, hids, -⟩ := h.1 a ha
      exact .inr (hbound a ha n (hids ▸ hu))
  | search pid lastPid nextSafe h hs =>
    exact hn.of_search h rfl rfl hn.pos fun a ha n hu => .inr (hbound a ha n hu)
  | born cur p flags pid lastPid nextSafe h hs hr hp h0 =>
    obtain ⟨hl, hs⟩ := last_linkChild cur p flags pid { s with lastPid := lastPid, nextSafe := nextSafe }
    have hids := ids_linkChild cur p flags pid { s with lastPid := lastPid, nextSafe := nextSafe }
    refine hn.of_search h hl hs (fun a ha => ?_) fun a ha n hu => ?_
    · rw [tasks_linkChild, List.mem_append, List.mem_singleton] at ha
      refine lt_of_lt_of_eq ?_ (congrArg Ids.pid (congrFun hids a)).symm
      rcases ha with ha | rfl
      · rw [Function.update_of_ne (ne_of_mem_of_not_mem ha hp)]
        exact hn.pos a ha
      · rw [Function.update_self]
        exact Nat.pos_of_ne_zero h0
    rw [tasks_linkChild, List.mem_append, List.mem_singleton] at ha
    rw [ids_linkChild] at hu
    rcases ha with ha | rfl
    · rw [Function.update_of_ne (ne_of_mem_of_not_mem ha hp)] at hu
      exact .inr ⟨a, ha, hu⟩
    · rw [Function.update_self] at hu
      have hpid : pid ≤ lastPid := by
        obtain ⟨r, hr', hsr, -⟩ := hn.search
        obtain rfl := Option.some.inj (hr'.symm.trans h)
        rcases hsr.pid with h0 | h0
        · exact (show pid = 0 from h0) ▸ Nat.zero_le _
        · exact le_of_eq h0
      rcases hu with rfl | rfl | rfl | rfl
      · exact .inl hpid
      · exact .inr ⟨cur, hr.1, .inr (.inl rfl)⟩
      · cases flags.thread
        · exact .inl hpid
        · exact .inr ⟨cur, hr.1, .inr (.inr (.inl rfl))⟩
      · exact .inr ⟨cur, hr.1, .inr (.inr (.inr rfl))⟩
  | group cur p g h =>
    refine hn.of_uses rfl rfl hn.pos fun a ha n hu => ?_
    have hg : ∃ b ∈ s.tasks, (s.ids b).Uses g := by
      rcases h.group with rfl | ⟨t, ht, rfl, -⟩
      · exact ⟨p, h.mem, .inl rfl⟩
      · exact ⟨t, ht, .inr (.inl rfl)⟩
    by_cases hap : a = p
    · subst hap
      rcases hu with hu | hu | hu | hu
      · exact .inr (hbound a ha n (.inl hu))
      · exact .inr (by simpa [ids, ← hu] using hg)
      · exact .inr (hbound a ha n (.inr (.inr (.inl hu))))
      · exact .inr (hbound a ha n (.inr (.inr (.inr hu))))
    · exact .inr (hbound a ha n (by simpa [Ids.Uses, ids, hap] using hu))
  | session cur hc h =>
    have hfail : ¬ ∃ t ∈ s.tasks, s.pgrp t = s.pid cur := by simpa using h
    rw [sysSetsid, if_neg hfail]
    refine hn.of_uses rfl rfl hn.pos fun a ha n hu => ?_
    by_cases hac : a = cur
    · subst hac
      rcases hu with hu | hu | hu | hu
      · exact .inr (hbound a ha n (.inl hu))
      · exact .inr (hbound a ha n (.inl (by simpa [ids] using hu)))
      · exact .inr (hbound a ha n (.inr (.inr (.inl hu))))
      · exact .inr (hbound a ha n (.inl (by simpa [ids] using hu)))
    · exact .inr (hbound a ha n (by simpa [Ids.Uses, ids, hac] using hu))
  | daemon cur hc h =>
    refine hn.of_uses rfl rfl hn.pos fun a ha n hu => ?_
    by_cases hac : a = cur
    · subst hac
      rcases hu with hu | hu | hu | hu
      · exact .inr (hbound a ha n (.inl hu))
      · exact .inl ((show n = 1 by simpa [ids, daemonize] using hu.symm) ▸ hn.last)
      · exact .inr (hbound a ha n (.inr (.inr (.inl hu))))
      · exact .inl ((show n = 1 by simpa [ids, daemonize] using hu.symm) ▸ hn.last)
    · exact .inr (hbound a ha n (by simpa [Ids.Uses, ids, daemonize, hac] using hu))

theorem Wf.reparentToInit (hw : s.Wf) (hr : s.Runs cur) : (s.reparentToInit cur).Wf := by
  have hmoved := hw.relink (b := s.notified cur) hr.1 hw.live_reaper hw.live_reaper
    fun hz => absurd hz (hw.live_of_runs hr.2)
  have hop : (s.relink cur childReaper).opptr = s.opptr := by rw [relink_eq]
  have hno : (s.relink cur childReaper).notified = s.notified := by rw [relink_eq]
  rw [Table.reparentToInit]
  generalize s.relink cur childReaper = t at hmoved hop hno ⊢
  rw [Function.update_eq_self, ← hop, ← hno] at hmoved
  exact hmoved.of_links rfl (fun _ => Iff.rfl) (fun _ h => h) fun _ _ => rfl

theorem keepsIds_reparentToInit (hc : cur ∈ s.tasks) : s.KeepsIds (s.reparentToInit cur) :=
  keepsIds_relink hc childReaper

/-- The outcomes of `setpgid`. -/
theorem sysSetpgid_cases (hw : s.Wf) (cur : Ptr) (pid pgid : ℤ) :
    ∃ r t, s.sysSetpgid cur pid pgid = some (r, t) ∧
      (t = s ∨ ∃ p g, s.JoinsGroup cur p g ∧ t = { s with pgrp := update s.pgrp p g }) := by
  obtain ⟨h, hh⟩ := hw.hashed
  rw [sysSetpgid]
  generalize (if pid = 0 then (s.pid cur : ℤ) else pid) = pid'
  simp only
  generalize hg : (if pgid = 0 then pid' else pgid) = g
  by_cases hneg : g < 0
  · exact ⟨-Sched.einval, s, by rw [if_pos hneg], .inl rfl⟩
  · rw [if_neg hneg]
    obtain ⟨r, hr, hsome, -⟩ := hh.find_spec pid'
    rw [hr, Option.map_some]
    cases r with
    | none => exact ⟨_, _, rfl, .inl rfl⟩
    | some p =>
      obtain ⟨hp, hpid⟩ := hsome p rfl
      simp only
      split_ifs with h1 h2 h3 h4 h5
      · exact ⟨_, _, rfl, .inl rfl⟩
      · exact ⟨_, _, rfl, .inl rfl⟩
      · exact ⟨_, _, rfl, .inl rfl⟩
      · exact ⟨_, _, rfl, .inl rfl⟩
      · exact ⟨_, _, rfl, .inl rfl⟩
      · refine ⟨_, _, rfl, .inr ⟨p, g.toNat, ⟨hp, ?_, by simpa using h4, ?_⟩, rfl⟩⟩
        · by_cases hchild : s.pptr p = cur ∨ s.opptr p = cur
          · by_contra hne
            exact h1 ⟨hchild, hne⟩
          · by_contra hne
            refine h3 ⟨hchild, ?_⟩
            rintro rfl
            exact hne rfl
        · by_cases hgp : g = pid'
          · left
            omega
          · right
            by_contra hno
            refine h5 ⟨hgp, fun t ht hc => hno ⟨t, ht, ?_, hc.2⟩⟩
            omega

/-- A call that may be made ends, keeps the table well formed and renumbers as said. -/
theorem step_spec (hw : s.Wf) (hn : s.Numbered) (he : e.Enabled s) :
    ∃ t, s.step e = some t ∧ t.Wf ∧ s.Renumber e t := by
  have hsame : ∀ t : Table, t.links = s.links → t.state = s.state → t.exiting = s.exiting → t.Wf :=
    fun t hl hst hex => hw.of_links hl (fun x => by rw [hst]) (fun x hx => by rw [hex, hx])
      fun x _ => by rw [hex]
  cases e with
  | fork cur p flags input =>
    obtain ⟨hr, hi, hp⟩ := he
    obtain ⟨r, t, ht, hcases⟩ := doFork_cases hn hr.1 p flags input
    refine ⟨t, by rw [step, ht]; rfl, ?_⟩
    rcases hcases with ⟨-, rfl⟩ | ⟨hpass, pid, lastPid, nextSafe, hs, ⟨-, rfl⟩ | ⟨h0, -, -, rfl⟩⟩
    · exact ⟨hw, .keep _ (.refl _)⟩
    · exact ⟨hsame _ rfl rfl rfl, .search pid lastPid nextSafe hs hpass⟩
    · have hw' : ({ s with lastPid := lastPid, nextSafe := nextSafe } : Table).Wf := hsame _ rfl rfl rfl
      exact ⟨hw'.linkChild hr hi hp, .born cur p flags pid lastPid nextSafe hs hpass hr hp h0⟩
  | startExit cur =>
    obtain ⟨hr, h1⟩ := he
    refine ⟨_, rfl, hw.of_links rfl (fun _ => Iff.rfl) (fun x hx => ?_) fun x hx => ?_, .keep _ (.refl s)⟩
    · by_cases hxc : x = cur
      · simp [hxc]
      · simpa [hxc] using hx
    · have hxc : x ≠ cur := by
        rintro rfl
        rcases hx with rfl | rfl
        · exact hw.root hr.1
        · exact h1 hw.reaper_pid
      simp [hxc]
  | exitNotify cur capKill =>
    obtain ⟨t, ht, htw, hkeep⟩ := hw.exitNotify he.1 he.2.1 capKill
    exact ⟨t, ht, htw, .keep t hkeep⟩
  | wait4 cur a signal fault =>
    cases hu : a.unknown with
    | true => exact ⟨s, by rw [step, sysWait4_unknown hu]; rfl, hw, .keep s (.refl s)⟩
    | false =>
      obtain ⟨r, t, ht, htw, hkeep, -⟩ := waitPass_spec hw he a signal fault
      exact ⟨t, by rw [step, sysWait4_known hu, ht]; rfl, htw, .keep t hkeep⟩
  | reparentToInit cur => exact ⟨_, rfl, hw.reparentToInit he.1, .keep _ (keepsIds_reparentToInit he.1.1)⟩
  | setpgid cur pid pgid =>
    obtain ⟨r, t, ht, hcases⟩ := sysSetpgid_cases hw cur pid pgid
    refine ⟨t, by rw [step, ht]; rfl, ?_⟩
    rcases hcases with rfl | ⟨p, g, hj, rfl⟩
    · exact ⟨hw, .keep _ (.refl _)⟩
    · exact ⟨hsame _ rfl rfl rfl, .group cur p g hj⟩
  | setsid cur =>
    refine ⟨_, rfl, ?_⟩
    by_cases h : ∃ t ∈ s.tasks, s.pgrp t = s.pid cur
    · rw [sysSetsid, if_pos h]
      exact ⟨hw, .keep s (.refl s)⟩
    · refine ⟨?_, .session cur he.1 (by simpa using h)⟩
      rw [sysSetsid, if_neg h]
      exact hsame _ rfl rfl rfl
  | daemonize cur => exact ⟨_, rfl, hsame _ rfl rfl rfl, .daemon cur he.1.1 he.2⟩
  | exec cur => exact ⟨_, rfl, hsame _ rfl rfl rfl, .keep _ (.refl s)⟩
  | changeState p state exitCode =>
    obtain ⟨hp, hz, hst⟩ := he
    refine ⟨_, rfl, hw.of_links rfl (fun x => ?_) (fun _ hx => hx) fun _ _ => rfl, .keep _ (.refl s)⟩
    by_cases hx : x = p
    · simp [hx, hz, hst]
    · simp [hx]
  | setPtraced p ptraced => exact ⟨_, rfl, hsame _ rfl rfl rfl, .keep _ (.refl s)⟩

theorem Numbered.boot (maxThreads : ℕ) : (boot maxThreads).Numbered := by
  refine ⟨Nat.one_pos, show 1 < pidMax by decide, le_rfl, fun _ p hp n hu => ?_, fun p hp => ?_⟩
  rotate_left
  · obtain rfl := List.mem_singleton.mp hp
    exact Nat.one_pos
  obtain rfl := List.mem_singleton.mp hp
  have hn : (Proc.boot maxThreads).ids childReaper = ⟨1, 0, 1, 0⟩ := rfl
  rw [hn] at hu
  rcases hu with rfl | rfl | rfl | rfl <;> simp [Proc.boot]

end Table

/-- The table is well formed in every state of a run. -/
theorem run_wf (h : Run Step (boot maxThreads) es s) :
    s.Wf ∧ s.Numbered ∧ s.maxThreads = maxThreads := by
  refine h.invariant (P := fun s => s.Wf ∧ s.Numbered ∧ s.maxThreads = maxThreads)
    ⟨.boot _, .boot _, rfl⟩ ?_
  rintro t e u ⟨hw, hn, hm⟩ ⟨he, hstep⟩
  obtain ⟨v, hv, hvw, hren⟩ := Table.step_spec hw hn he
  obtain rfl := Option.some.inj (hv.symm.trans hstep)
  exact ⟨hvw, hren.numbered hn, hren.same_max.trans hm⟩

end OperationSystems.Proc
