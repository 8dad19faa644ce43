import Mathlib
import OperationSystems.Proc.Groups
import OperationSystems.Proc.Orphans

/-!
# What the process table guarantees

These hold after every run of calls since the boot. With at most 8117 threads
the process ids never run out. Beyond that `get_pid` can fail, and then it
leaves a `next_safe` behind that lets later calls hand out ids in use.
-/

namespace OperationSystems.Proc

open Function (update)
open HeadedList Transition Rings

variable {s : Table} {p cur : Ptr} {maxThreads g : ℕ} {es : List Event} {flags : CloneFlags}
  {input : ForkInput} {capKill : Bool}

/-- A step that fails unless the call may be made. -/
def Table.next (s : Table) (e : Event) : Option Table := if e.Enabled s then s.step e else none

theorem run_of_exec {t : Table} (h : Run.exec Table.next s es = some t) : Run Step s es t := by
  refine Run.of_exec (fun u e v huv => ?_) h
  rw [Table.next] at huv
  split at huv
  · exact ⟨‹_›, huv⟩
  · cases huv

/-- A run to a state with a property that can be computed. -/
theorem exists_run (s : Table) (es : List Event) (P : Table → Bool) (h : (Run.exec Table.next s es).any P = true) :
    ∃ t, Run Step s es t ∧ P t = true := by
  cases ht : Run.exec Table.next s es with
  | none => simp [ht] at h
  | some t => exact ⟨t, run_of_exec ht, by simpa [ht] using h⟩

theorem forkRefusal_cases {r : ℤ} (h : s.forkRefusal cur flags input = some r) :
    r = -Sched.einval ∧ flags.newns = true ∧ flags.fs = true ∨ r = -Sched.eperm ∧ flags.pid = true ∨
      r = -enomem ∧ input.allocated = false ∨
      r = -Sched.eagain ∧ (input.overLimit = true ∨ s.maxThreads ≤ s.nrThreads) := by
  rw [Table.forkRefusal] at h
  split_ifs at h with h1 h2 h3 h4 h5 <;> obtain rfl := Option.some.inj h
  · exact .inl ⟨rfl, h1⟩
  · exact .inr (.inl ⟨rfl, h2.1⟩)
  · exact .inr (.inr (.inl ⟨rfl, h3⟩))
  · exact .inr (.inr (.inr ⟨rfl, .inl h4⟩))
  · exact .inr (.inr (.inr ⟨rfl, .inr h5⟩))

theorem forkRefusal_none (hpos : 0 < s.pid cur) (h : s.forkRefusal cur flags input = none) :
    ¬ (flags.newns = true ∧ flags.fs = true) ∧ flags.pid = false ∧ input.allocated = true ∧
      input.overLimit = false ∧ s.nrThreads < s.maxThreads := by
  rw [Table.forkRefusal] at h
  split_ifs at h with h1 h2 h3 h4 h5
  have hpid : flags.pid = false := by
    by_contra hp
    exact h2 ⟨by simpa using hp, hpos.ne'⟩
  exact ⟨h1, hpid, by simpa using h3, by simpa using h4, not_le.mp h5⟩

/-- Each refusal of `fork` has its reason, and where there is none the child has a number that
no task uses in any way. -/
theorem fork_number_unused (hm : maxThreads ≤ 8117) (h : Run Step (boot maxThreads) es s)
    (he : (Event.fork cur p flags input).Enabled s) :
    ∃ r t, s.doFork cur p flags input = some (r, t) ∧
      (t = s ∧ (r = -Sched.einval ∧ flags.newns = true ∧ flags.fs = true ∨ r = -Sched.eperm ∧ flags.pid = true ∨
          r = -enomem ∧ input.allocated = false ∨
          r = -Sched.eagain ∧ (input.overLimit = true ∨ maxThreads ≤ s.tasks.length)) ∨
        ¬ (flags.newns = true ∧ flags.fs = true) ∧ flags.pid = false ∧ input.allocated = true ∧
          input.overLimit = false ∧ s.tasks.length < maxThreads ∧
          (r = -enomem ∧ input.copied = false ∧ t.tasks = s.tasks ∨
            input.copied = true ∧ ∃ n : ℕ, r = n ∧ 0 < n ∧ n < pidMax ∧ (∀ a ∈ s.tasks, ¬ (s.ids a).Uses n) ∧
              t.tasks = s.tasks ++ [p] ∧ t.pid p = n)) := by
  obtain ⟨hw, hn, hmax⟩ := run_wf h
  have hg := run_grouped (run_spare_of_le hm h)
  have hpos := hn.pos cur he.1.1
  obtain ⟨r, t, ht, hcases⟩ := Table.doFork_cases hn he.1.1 p flags input
  refine ⟨r, t, ht, ?_⟩
  rw [← hmax, ← hw.count]
  rcases hcases with ⟨hr, rfl⟩ | ⟨hpass, pid, lastPid, nextSafe, hs, hfound⟩
  · exact .inl ⟨rfl, forkRefusal_cases hr⟩
  · obtain ⟨hns, hflag, halloc, hlim, hlt⟩ := forkRefusal_none hpos hpass
    refine .inr ⟨hns, hflag, halloc, hlim, hlt, ?_⟩
    have hne : pid ≠ 0 := by
      rintro rfl
      exact not_starves (e := .fork cur p flags input) hw hn hg (hmax ▸ hm) ⟨hpass, _, _, hs⟩
    rcases hfound with ⟨⟨h0, -⟩ | ⟨-, hcopied, rfl⟩, rfl⟩ | ⟨-, hcopied, rfl, rfl⟩
    · exact absurd h0 hne
    · exact .inl ⟨rfl, hcopied, rfl⟩
    · obtain ⟨hpos', hunused, hlast, -⟩ := hg.chosen hn hs hne
      obtain ⟨r, hr, hsr, -⟩ := hn.search
      obtain rfl := Option.some.inj (hr.symm.trans hs)
      refine .inr ⟨hcopied, pid, rfl, hpos', hlast ▸ hsr.max, hunused, Table.tasks_linkChild .., ?_⟩
      have hids := Table.ids_linkChild cur p flags pid { s with lastPid := lastPid, nextSafe := nextSafe }
      exact congrArg Ids.pid ((congrFun hids p).trans (Function.update_self ..))

/-- The flags of `fork`. -/
def plain : CloneFlags := ⟨false, false, false, false, false, false, sigchld⟩

/-- `init` starts a job in a session of its own, the job stops, and its parent dies. -/
def family : List Event :=
  [.fork 1 5 plain ⟨true, false, true⟩, .setsid 5, .fork 5 7 plain ⟨true, false, true⟩, .setpgid 5 3 0,
    .changeState 7 .stopped 3, .startExit 5]

theorem fork_number_unused_family :
    ∃ s r t, Run Step (boot 16) family s ∧
      s.doFork 7 9 { plain with thread := true } ⟨true, false, true⟩ = some (r, t) ∧ r = 4 := by
  obtain ⟨s, hs, hP⟩ := exists_run (boot 16) family
    (fun s => decide ((Event.fork 7 9 { plain with thread := true } ⟨true, false, true⟩).Enabled s ∧
      (s.doFork 7 9 { plain with thread := true } ⟨true, false, true⟩).any (fun x => decide (x.1 = 4)) = true))
    (by decide +kernel)
  obtain ⟨he, h4⟩ := of_decide_eq_true hP
  obtain ⟨r, t, ht, hcases⟩ := fork_number_unused (by norm_num) hs he
  rw [ht] at h4
  exact ⟨s, r, t, hs, ht, by simpa using h4⟩

section exhaustion
variable {tasks : List Ids} {lastPid nextSafe l n : ℕ}

/-- After `get_pid` has failed, a second call for the same tasks fails again when `next_safe`
is just above `last_pid`, and else it returns an id in use. -/
theorem getPid_after_failure (hb : lastPid < pidMax) (hs : nextSafe ≤ pidMax)
    (h : getPid tasks lastPid nextSafe = some (0, l, n)) :
    l = lastPid ∧ ∃ m u v, getPid tasks l n = some (m, u, v) ∧
      ((m = 0 ↔ n ≤ l + 1) ∧ (m ≠ 0 → ∃ t ∈ tasks, t.Uses m)) := by
  have h300 := low_of_getPid hb h
  have hlow : lastPid < 300 → ∀ t ∈ tasks, ∀ n, t.Uses n → n ≤ lastPid := fun hlt => absurd h300 (not_le.mpr hlt)
  obtain ⟨r, hr, -, hspec⟩ := getPid_spec hb hs hlow
  obtain rfl := Option.some.inj (hr.symm.trans h)
  rcases hspec (.inr rfl) with hc | hx
  · exact absurd hc.pos (lt_irrefl 0)
  · have hpm : pidMax = 0x8000 := rfl
    have hlast : l = lastPid := hx.last
    have hlt : lastPid < n := hx.lt
    have hsafe : n ≤ pidMax := hx.safe
    subst hlast
    refine ⟨rfl, ?_⟩
    by_cases hn : n ≤ l + 1
    · -- the window is empty, so the search is as good as the first one
      have hwin : Window tasks l n := fun t _ m _ hlm => by omega
      obtain ⟨⟨m, u, v⟩, hr', -, hspec'⟩ := getPid_spec hb hsafe hlow
      refine ⟨m, u, v, hr', ?_⟩
      rcases hspec' (.inl hwin) with hc | hx'
      · obtain ⟨t, ht, hu⟩ := hx.used m (by have := hc.low; have := hc.ne; simp only at *; omega)
          (hc.lt.trans_le hc.safe) hc.ne
        exact absurd hu (hc.unused t ht)
      · exact ⟨iff_of_true hx'.pid hn, fun hm => absurd hx'.pid hm⟩
    · have ho : ¬ overflows (l + 1) := fun ho => by
        have := (overflows_iff (n := l + 1) (by omega)).mp ho
        omega
      refine ⟨l + 1, l + 1, n, by rw [getPid, if_neg ho, if_neg hn], iff_of_false (Nat.succ_ne_zero l) hn, ?_⟩
      exact fun _ => hx.used (l + 1) (by omega) (by omega) (Nat.succ_ne_self l)

theorem getPid_after_failure_all :
    ∃ n m u v, getPid ((List.range pidMax).map fun i => ⟨i, i, i, i⟩) 300 301 = some (0, 300, n) ∧
      getPid ((List.range pidMax).map fun i => ⟨i, i, i, i⟩) 300 n = some (m, u, v) ∧ m ≠ 0 ∧
      ∃ t ∈ (List.range pidMax).map fun i => (⟨i, i, i, i⟩ : Ids), t.Uses m := by
  have hb : 300 < pidMax := by decide
  have hs : 301 ≤ pidMax := by decide
  have hw : Window ((List.range pidMax).map fun i => ⟨i, i, i, i⟩) 300 301 := fun _ _ _ _ h => h
  obtain ⟨⟨pid, l, n⟩, hr, -, hspec⟩ := getPid_spec hb hs (fun h => absurd h (by norm_num))
  have hx := (hspec (.inl hw)).resolve_left fun hc => hc.unused ⟨pid, pid, pid, pid⟩
    (List.mem_map.mpr ⟨pid, List.mem_range.mpr (hc.lt.trans_le hc.safe), rfl⟩) (.inl rfl)
  have hpid : pid = 0 := hx.pid
  have hl : l = 300 := hx.last
  have hn : n = pidMax := hx.wrapped rfl
  subst hpid hl hn
  obtain ⟨-, m, u, v, hm, hiff, hused⟩ := getPid_after_failure hb hs hr
  have hne : m ≠ 0 := fun h0 => absurd (hiff.mp h0) (by decide)
  exact ⟨pidMax, m, u, v, hr, hm, hne, hused hne⟩

end exhaustion

/-- `find_task_by_pid` is exact. -/
theorem findTaskByPid_exact (h : Run SpareStep (boot maxThreads) es s) (pid : ℤ) :
    ∃ r, s.findTaskByPid pid = some r ∧ ∀ p, r = some p ↔ p ∈ s.tasks ∧ (s.pid p : ℤ) = pid := by
  obtain ⟨b, hb⟩ := (run_wf (run_of_spare h)).1.hashed
  have hg := run_grouped h
  obtain ⟨r, hr, hsome, hnone⟩ := hb.find_spec pid
  refine ⟨r, hr, fun p => ⟨hsome p, ?_⟩⟩
  rintro ⟨hp, hpid⟩
  cases r with
  | none => exact absurd hpid (hnone rfl p hp)
  | some a =>
    obtain ⟨ha, hapid⟩ := hsome a rfl
    have hap : s.pid a = s.pid p := by omega
    rw [hg.distinct a ha p hp hap]

theorem findTaskByPid_exact_family :
    ∃ s, Run SpareStep (boot 16) family s ∧ s.tasks.length = 3 ∧
      ∃ r, s.findTaskByPid 3 = some r ∧ ∀ p, r = some p ↔ p ∈ s.tasks ∧ (s.pid p : ℤ) = 3 := by
  obtain ⟨s, hs, hP⟩ := exists_run (boot 16) family (fun s => decide (s.tasks.length = 3))
    (by decide +kernel)
  have hspare := run_spare_of_le (by norm_num) hs
  exact ⟨s, hspare, of_decide_eq_true hP, findTaskByPid_exact hspare 3⟩

/-- The children of a task, each once, from `p_cptr` along `p_osptr`, with `p_ysptr` and
`p_pptr` as the way back. -/
theorem children_listed (h : Run Step (boot maxThreads) es s) (k : Ptr) :
    ∃ l : List Ptr, l.Nodup ∧ (∀ a, a ∈ l ↔ a ∈ s.tasks ∧ s.pptr a = k) ∧
      Segment s.familyRead s.familyBack (.inl k) l := by
  obtain ⟨q, hq⟩ := (run_wf h).1.families
  exact ⟨q k, hq.holds.nodup k, hq.mem k, hq.holds k⟩

theorem children_listed_family :
    ∃ s, Run Step (boot 16) family s ∧ s.cptr 5 = some 7 ∧ ∃ l : List Ptr, l.Nodup ∧
      (∀ a, a ∈ l ↔ a ∈ s.tasks ∧ s.pptr a = 5) ∧ Segment s.familyRead s.familyBack (.inl 5) l := by
  obtain ⟨s, hs, hP⟩ := exists_run (boot 16) family (fun s => decide (s.cptr 5 = some 7))
    (by decide +kernel)
  exact ⟨s, hs, of_decide_eq_true hP, children_listed hs 5⟩

/-- No link leads to a `task_struct` that was given back, or to a parent that is dead. -/
theorem links_alive (h : Run Step (boot maxThreads) es s) :
    (∀ p ∈ s.tasks, s.Live (s.pptr p) ∧ s.Live (s.opptr p) ∧ s.nextThread p ∈ s.tasks ∧
      s.prevThread p ∈ s.tasks ∧ (∀ a, s.osptr p = some a → a ∈ s.tasks) ∧
      (∀ a, s.ysptr p = some a → a ∈ s.tasks) ∧ (∀ a, s.pidhashNext p = some a → a ∈ s.tasks) ∧
      ∀ a, s.pidhashPprev p = .inr a → a ∈ s.tasks) ∧
      (∀ b a, s.pidhash b = some a → a ∈ s.tasks) ∧
      ∀ k a, s.cptr k = some a → a ∈ s.tasks := by
  obtain ⟨hw, -, -⟩ := run_wf h
  obtain ⟨q, hq⟩ := hw.families
  obtain ⟨b, hb⟩ := hw.hashed
  refine ⟨fun p hp => ?_, fun i a ha => ?_, fun k a ha => ?_⟩
  · have hpq : p ∈ q (s.pptr p) := (hq.mem _ p).mpr ⟨hp, rfl⟩
    have hpb : p ∈ b (pidHashfn (s.pid p)) := (hb.mem _ p).mpr ⟨hp, rfl⟩
    obtain ⟨hpp, hop⟩ := hw.parents p hp
    refine ⟨hpp, hop, hw.threads.next_mem p hp, hw.threads.prev_mem p hp, ?_, ?_, ?_, ?_⟩
    · exact fun a ha => ((hq.mem _ a).mp (hq.holds.next_mem hpq ha)).1
    · intro a ha
      have hback : s.familyBack p = .inr a := by
        rw [Table.familyBack_eq, ha]
        rfl
      have hmem := (hq.holds.back_mem hpq).1
      rw [hback, List.mem_cons, List.mem_map] at hmem
      obtain ⟨c, hc, he⟩ := hmem.resolve_left Sum.inr_ne_inl
      exact ((hq.mem _ a).mp (Sum.inr.inj he ▸ hc)).1
    · exact fun a ha => ((hb.mem _ a).mp (hb.holds.next_mem hpb ha)).1
    · intro a ha
      have hmem := (hb.holds.back_mem hpb).1
      rw [ha, List.mem_cons, List.mem_map] at hmem
      obtain ⟨c, hc, he⟩ := hmem.resolve_left Sum.inr_ne_inl
      exact ((hb.mem _ a).mp (Sum.inr.inj he ▸ hc)).1
  · have hread := (hb.holds i).read_eq
    exact ((hb.mem i a).mp (List.mem_of_head? (hread.symm.trans ha))).1
  · exact ((hq.mem k a).mp (List.mem_of_head? ((hq.read_head k).symm.trans ha))).1

theorem links_alive_family :
    ∃ s, Run Step (boot 16) family s ∧ s.exiting 5 = true ∧
      (∀ p ∈ s.tasks, s.Live (s.pptr p) ∧ s.Live (s.opptr p) ∧ s.nextThread p ∈ s.tasks ∧
        s.prevThread p ∈ s.tasks ∧ (∀ a, s.osptr p = some a → a ∈ s.tasks) ∧
        (∀ a, s.ysptr p = some a → a ∈ s.tasks) ∧ (∀ a, s.pidhashNext p = some a → a ∈ s.tasks) ∧
        ∀ a, s.pidhashPprev p = .inr a → a ∈ s.tasks) ∧
        (∀ b a, s.pidhash b = some a → a ∈ s.tasks) ∧ ∀ k a, s.cptr k = some a → a ∈ s.tasks := by
  obtain ⟨s, hs, hP⟩ := exists_run (boot 16) family (fun s => s.exiting 5)
    (by decide +kernel)
  exact ⟨s, hs, hP, links_alive hs⟩

/-- A call that may be made ends: no list goes in a circle, no search for a process id goes on
for ever, and `release_task` never meets its `BUG`. -/
theorem calls_end (h : Run Step (boot maxThreads) es s) {e : Event} (he : e.Enabled s) :
    ∃ t, s.step e = some t := by
  obtain ⟨hw, hn, -⟩ := run_wf h
  obtain ⟨t, ht, -⟩ := Table.step_spec hw hn he
  exact ⟨t, ht⟩

theorem calls_end_family :
    ∃ s t, Run Step (boot 16) family s ∧ s.step (.exitNotify 5 false) = some t ∧ t.pptr 7 = childReaper := by
  obtain ⟨s, hs, hP⟩ := exists_run (boot 16) family
    (fun s => decide ((Event.exitNotify 5 false).Enabled s ∧
      (s.step (.exitNotify 5 false)).any (fun t => decide (t.pptr 7 = childReaper)) = true)) (by decide +kernel)
  obtain ⟨he, h7⟩ := of_decide_eq_true hP
  obtain ⟨t, ht⟩ := calls_end hs he
  rw [ht] at h7
  exact ⟨s, t, hs, ht, by simpa using h7⟩

/-- A dead task has no children, its parent lives and was told, and as soon as that parent
waits for it, the task is released or goes back to its real parent, which is told, unless the
results cannot be written. -/
theorem zombie_awaited (h : Run SpareStep (boot maxThreads) es s) (hp : p ∈ s.tasks)
    (hz : s.state p = .zombie) :
    (∀ a ∈ s.tasks, s.pptr a ≠ p ∧ s.opptr a ≠ p) ∧ s.Live (s.pptr p) ∧ s.notified p = some (s.pptr p) ∧
      (s.Runs (s.pptr p) → ∀ a : WaitArgs, a.pid = s.pid p → a.wall = true → a.unknown = false → ∀ signal fault,
        ∃ t, s.sysWait4 (s.pptr p) a signal fault = some (some (fault.elim (s.pid p : ℤ) Neg.neg), t) ∧
          (fault ≠ none ∧ t.tasks = s.tasks ∨ fault = none ∧
            (s.opptr p = s.pptr p ∧ t.tasks = s.tasks.erase p ∧ t.nrThreads + 1 = s.nrThreads ∨
              s.opptr p ≠ s.pptr p ∧ p ∈ t.tasks ∧ t.pptr p = s.opptr p ∧
                t.notified p = some (s.opptr p)))) := by
  obtain ⟨hw, -, -⟩ := run_wf (run_of_spare h)
  have hg := run_grouped h
  refine ⟨fun a ha => ⟨?_, ?_⟩, (hw.parents p hp).1, hw.notified p hp hz, fun hr a hpid hall hknown signal fault => ?_⟩
  · rintro rfl
    exact (hw.parents a ha).1.2 hz
  · rintro rfl
    exact (hw.parents a ha).2.2 hz
  · have hpos : 0 < a.pid := by
      have := hg.pos p hp
      omega
    have hel : ∀ b, s.Eligible a (s.pptr p) b ↔ s.pid b = s.pid p := by
      intro b
      rw [Table.Eligible, if_pos hpos, hpid, Nat.cast_inj]
      exact and_iff_left (.inr hall)
    have hin : s.InScope a (s.pptr p) p := ⟨hp, .inl rfl⟩
    obtain ⟨r, t, ht, -, -, hcases⟩ := Table.waitPass_spec hw hr a signal fault
    rw [Table.sysWait4_known hknown]
    rcases hcases with ⟨b, hb, heb, -, rfl, htakes⟩ | ⟨hnone, -⟩
    · have hbp : b = p := hg.distinct b hb.1 p hp ((hel b).mp heb)
      subst hbp
      refine ⟨t, ht, ?_⟩
      by_cases hf : fault = none
      · subst hf
        exact .inr ⟨rfl, htakes.zombie hw hr hp hz⟩
      · exact .inl ⟨hf, htakes.others (.inl hf)⟩
    · exact absurd (.inr hz) (hnone p hin ((hel p).mpr rfl))

theorem zombie_awaited_family :
    ∃ s, Run SpareStep (boot 16) (family ++ [.exitNotify 5 false]) s ∧ ∃ t,
      s.sysWait4 1 ⟨2, false, false, false, false, false, true⟩ false none = some (some 2, t) ∧
        (s.opptr 5 = 1 ∧ t.tasks = s.tasks.erase 5 ∧ t.nrThreads + 1 = s.nrThreads ∨
          s.opptr 5 ≠ 1 ∧ 5 ∈ t.tasks ∧ t.pptr 5 = s.opptr 5 ∧ t.notified 5 = some (s.opptr 5)) := by
  obtain ⟨s, hs, hP⟩ := exists_run (boot 16) (family ++ [.exitNotify 5 false])
    (fun s => decide (5 ∈ s.tasks ∧ s.state 5 = .zombie ∧ s.pptr 5 = 1 ∧ s.Runs 1 ∧ s.pid 5 = 2))
    (by decide +kernel)
  obtain ⟨hp, hz, h1, hr, h2⟩ := of_decide_eq_true hP
  have hspare := run_spare_of_le (by norm_num) hs
  obtain ⟨-, -, -, hwait⟩ := zombie_awaited hspare hp hz
  rw [h1, h2] at hwait
  obtain ⟨t, ht, ⟨hne, -⟩ | ⟨-, hcases⟩⟩ := hwait hr ⟨2, false, false, false, false, false, true⟩ rfl rfl rfl false none
  · exact absurd rfl hne
  · exact ⟨s, hspare, t, ht, hcases⟩

/-- One pass of `wait4` in any reachable state. Options that do not exist are refused. It ends
with a child in scope that passes the tests and is ready, if there is one; the child is released
when it is dead, nobody else traces it and the results can be written. Else the call fails only if
no child passes the tests, sleeps only if one does, and changes nothing but the state of the
caller. -/
theorem wait4_pass (h : Run Step (boot maxThreads) es s) (hr : s.Runs cur) (a : WaitArgs) (signal : Bool)
    (fault : Option ℤ) :
    ∃ r t, s.sysWait4 cur a signal fault = some (r, t) ∧
      (a.unknown = true ∧ r = some (-Sched.einval) ∧ t = s ∨
        a.unknown = false ∧
        ((∃ p, s.InScope a cur p ∧ s.Eligible a cur p ∧ s.Ready a p ∧
            r = some (fault.elim (s.pid p : ℤ) Neg.neg) ∧
            ((fault ≠ none ∨ s.state p ≠ .zombie) ∧ t.tasks = s.tasks ∨
              fault = none ∧ s.state p = .zombie ∧
                (s.opptr p = s.pptr p ∧ t.tasks = s.tasks.erase p ∧ t.nrThreads + 1 = s.nrThreads ∨
                  s.opptr p ≠ s.pptr p ∧ p ∈ t.tasks ∧ t.pptr p = s.opptr p ∧
                    t.notified p = some (s.opptr p)))) ∨
          (∀ p, s.InScope a cur p → s.Eligible a cur p → ¬ s.Ready a p) ∧
            (∃ st, t = { s with state := update s.state cur st }) ∧
            ((¬ ∃ p, s.InScope a cur p ∧ s.Eligible a cur p) ∧ r = some (-echild) ∨
              (∃ p, s.InScope a cur p ∧ s.Eligible a cur p) ∧
                r = if a.wnohang then some 0 else if signal then some (-erestartsys) else none))) := by
  obtain ⟨hw, -, -⟩ := run_wf h
  cases hu : a.unknown with
  | true => exact ⟨_, s, Table.sysWait4_unknown hu .., .inl ⟨rfl, rfl, rfl⟩⟩
  | false =>
    obtain ⟨r, t, ht, -, -, hcases⟩ := Table.waitPass_spec hw hr a signal fault
    refine ⟨r, t, (Table.sysWait4_known hu ..).trans ht, .inr ⟨rfl, ?_⟩⟩
    rcases hcases with ⟨p, hin, he, hrd, hres, htakes⟩ | hnone
    · refine .inl ⟨p, hin, he, hrd, hres, ?_⟩
      by_cases hz : fault ≠ none ∨ s.state p ≠ .zombie
      · exact .inl ⟨hz, htakes.others hz⟩
      · rw [not_or, not_not, not_not] at hz
        obtain ⟨rfl, hz⟩ := hz
        exact .inr ⟨rfl, hz, htakes.zombie hw hr hin.1 hz⟩
    · exact .inr hnone

theorem wait4_pass_family :
    ∃ s, Run Step (boot 16) family s ∧ (∀ p, s.InScope ⟨-1, false, false, false, false, false, true⟩ 1 p → ¬ s.Ready
      ⟨-1, false, false, false, false, false, true⟩ p) ∧ ∃ t,
      s.sysWait4 1 ⟨-1, false, false, false, false, false, true⟩ false none = some (none, t) := by
  obtain ⟨s, hs, hP⟩ := exists_run (boot 16) family
    (fun s => decide (s.Runs 1 ∧ (∀ p ∈ s.tasks, ¬ s.Ready ⟨-1, false, false, false, false, false, true⟩ p) ∧
      5 ∈ s.tasks ∧ s.pptr 5 = 1)) (by decide +kernel)
  obtain ⟨hr, hready, h5, h1⟩ := of_decide_eq_true hP
  obtain ⟨r, t, ht, hcases⟩ := wait4_pass hs hr ⟨-1, false, false, false, false, false, true⟩ false none
  have hel : ∀ p, s.Eligible ⟨-1, false, false, false, false, false, true⟩ 1 p := fun p => ⟨by simp, .inr rfl⟩
  refine ⟨s, hs, fun p hp => hready p hp.1, t, ?_⟩
  rcases hcases with ⟨hu, -⟩ | ⟨-, ⟨p, hin, -, hrd, -⟩ | ⟨-, -, ⟨hno, -⟩ | ⟨-, rfl⟩⟩⟩
  · cases hu
  · exact absurd hrd (hready p hin.1)
  · exact absurd ⟨5, ⟨h5, .inl h1⟩, hel 5⟩ hno
  · exact ht

/-- When a task dies, each child goes to its real parent. The real parent of its own children is
from then on a thread of its group that is not exiting, or `init`; nobody has the dead task as
a parent, and a new parent is told about a child that is dead already. -/
theorem exit_adopts (h : Run Step (boot maxThreads) es s) (hc : cur ∈ s.tasks) (he : s.exiting cur = true) :
    ∃ t, s.exitNotify cur capKill = some t ∧ t.tasks = s.tasks ∧ t.state = update s.state cur .zombie ∧
      ∀ a ∈ s.tasks, t.pptr a ≠ cur ∧ t.opptr a ≠ cur ∧
        t.pptr a = (if s.pptr a = cur then t.opptr a else s.pptr a) ∧
        (s.opptr a ≠ cur → t.opptr a = s.opptr a) ∧
        (s.opptr a = cur → s.Runs (t.opptr a) ∧
          (t.opptr a = childReaper ∨ ∃ k, s.nextThread^[k] cur = t.opptr a)) ∧
        (s.pptr a = cur → t.state a = .zombie → t.notified a = some (t.opptr a)) := by
  obtain ⟨hw, -, -⟩ := run_wf h
  obtain ⟨t, ht, hd⟩ := Table.exitNotify_departs hw hc he capKill
  obtain ⟨e, i, hun⟩ := hd.rest
  refine ⟨t, ht, (Table.eq_of_unlinked Table.tasks (fun _ => rfl) hun :),
    (Table.eq_of_unlinked Table.state (fun _ => rfl) hun :), fun a ha => ⟨?_, hd.adopts.ne a ha, hd.pptr a ha,
      hd.adopts.keep a, fun hop => ⟨hd.adopts.runs a ha hop, hd.adopts.thread a ha hop⟩, fun hpp hz => ?_⟩⟩
  · rw [hd.pptr a ha]
    split
    · exact hd.adopts.ne a ha
    · assumption
  · rw [hd.told a ha hz, if_pos hpp]

theorem exit_adopts_family :
    ∃ s t, Run Step (boot 16) family s ∧ s.opptr 7 = 5 ∧ s.exitNotify 5 true = some t ∧ t.opptr 7 ≠ 5 ∧
      s.Runs (t.opptr 7) := by
  obtain ⟨s, hs, hP⟩ := exists_run (boot 16) family
    (fun s => decide (5 ∈ s.tasks ∧ s.exiting 5 = true ∧ 7 ∈ s.tasks ∧ s.opptr 7 = 5)) (by decide +kernel)
  obtain ⟨h5, he, h7, hop⟩ := of_decide_eq_true hP
  obtain ⟨t, ht, -, -, hall⟩ := exit_adopts hs h5 he
  obtain ⟨-, hne, -, -, hruns, -⟩ := hall 7 h7
  exact ⟨s, t, hs, hop, ht, hne, (hruns hop).1⟩

/-- A process group that is tied to its session before a death, is not afterwards, and has a
stopped member, is sent `SIGHUP` and `SIGCONT` by `exit_notify`. -/
theorem exit_hangs_up (h : Run Step (boot maxThreads) es s) (hc : cur ∈ s.tasks) (he : s.exiting cur = true)
    (hbefore : ∃ p ∈ s.tasks, s.Ties g p) :
    ∃ t, s.exitNotify cur capKill = some t ∧
      ((∀ p ∈ t.tasks, ¬ t.Ties g p) → (∃ p ∈ t.tasks, t.pgrp p = g ∧ t.state p = .stopped) →
        ∃ l, t.hangups = s.hangups ++ l ∧ g ∈ l) := by
  obtain ⟨hw, -, -⟩ := run_wf h
  obtain ⟨t, ht, -⟩ := Table.exitNotify_departs hw hc he capKill
  have htied : s.isOrphanedPgrp g = false := by
    rw [Bool.eq_false_iff, Ne, Table.isOrphaned_iff]
    obtain ⟨p, hp, htie⟩ := hbefore
    exact fun hno => hno p hp htie
  exact ⟨t, ht, fun hafter hstop =>
    hw.exitNotify_signals hc he ht htied (Table.isOrphaned_iff.mpr hafter) (Table.hasStopped_iff.mpr hstop)⟩

theorem exit_hangs_up_family :
    ∃ s t l, Run Step (boot 16) family s ∧ s.exitNotify 5 false = some t ∧ t.hangups = s.hangups ++ l ∧
      3 ∈ l := by
  obtain ⟨s, hs, hP⟩ := exists_run (boot 16) family
    (fun s => decide (5 ∈ s.tasks ∧ s.exiting 5 = true ∧ (∃ p ∈ s.tasks, s.Ties 3 p) ∧
      (s.exitNotify 5 false).all (fun t => decide ((∀ p ∈ t.tasks, ¬ t.Ties 3 p) ∧
        ∃ p ∈ t.tasks, t.pgrp p = 3 ∧ t.state p = .stopped)) = true)) (by decide +kernel)
  obtain ⟨h5, he, hbefore, hall⟩ := of_decide_eq_true hP
  obtain ⟨t, ht, hsent⟩ := @exit_hangs_up s 5 16 3 family false hs h5 he hbefore
  rw [ht] at hall
  obtain ⟨hafter, hstop⟩ : (∀ p ∈ t.tasks, ¬ t.Ties 3 p) ∧ ∃ p ∈ t.tasks, t.pgrp p = 3 ∧ t.state p = .stopped := by
    simpa using hall
  obtain ⟨l, hl, h3⟩ := hsent hafter hstop
  exact ⟨s, t, l, hs, ht, hl, h3⟩

/-- A process group lies in one session, apart from group 1, and a session has at most one
leader, which has its number and is in the group of that number. -/
theorem group_in_session (h : Run SpareStep (boot maxThreads) es s) :
    (∀ p ∈ s.tasks, ∀ q ∈ s.tasks, s.pgrp p = s.pgrp q → s.pgrp p ≠ 1 → s.session p = s.session q) ∧
      (∀ p ∈ s.tasks, s.leader p = true → s.session p = s.pid p ∧ s.pgrp p = s.pid p) ∧
      ∀ p ∈ s.tasks, ∀ q ∈ s.tasks, s.leader p = true → s.leader q = true → s.session p = s.session q →
        p = q := by
  have hg := run_grouped h
  refine ⟨hg.inSession, fun p hp hl => (hg.leads p hp hl).symm, fun p hp q hq hlp hlq hpq => ?_⟩
  refine hg.distinct p hp q hq ?_
  rw [← (hg.leads p hp hlp).2, hpq, (hg.leads q hq hlq).2]

theorem group_in_session_family :
    ∃ s, Run SpareStep (boot 16) family s ∧ s.leader 5 = true ∧
      ((∀ p ∈ s.tasks, ∀ q ∈ s.tasks, s.pgrp p = s.pgrp q → s.pgrp p ≠ 1 → s.session p = s.session q) ∧
        (∀ p ∈ s.tasks, s.leader p = true → s.session p = s.pid p ∧ s.pgrp p = s.pid p) ∧
        ∀ p ∈ s.tasks, ∀ q ∈ s.tasks, s.leader p = true → s.leader q = true → s.session p = s.session q →
          p = q) := by
  obtain ⟨s, hs, hP⟩ := exists_run (boot 16) family (fun s => s.leader 5) (by decide +kernel)
  have hspare := run_spare_of_le (by norm_num) hs
  exact ⟨s, hspare, hP, group_in_session hspare⟩

/-- `setsid` fails exactly when there is a group with the number of the caller. Else the caller
is alone in a new session and a new group. -/
theorem setsid_alone (h : Run SpareStep (boot maxThreads) es s) (hc : cur ∈ s.tasks) :
    (s.sysSetsid cur = (-Sched.eperm, s) ↔ ∃ q ∈ s.tasks, s.pgrp q = s.pid cur) ∧
      ((¬ ∃ q ∈ s.tasks, s.pgrp q = s.pid cur) → ∃ t, s.sysSetsid cur = ((s.pid cur : ℤ), t) ∧
        t.leader cur = true ∧ t.pid = s.pid ∧ t.tasks = s.tasks ∧
        (s.pid cur ≠ 1 → ∀ q ∈ t.tasks, (t.session q = t.session cur ∨ t.pgrp q = t.pgrp cur) ↔ q = cur)) := by
  have hg := run_grouped h
  by_cases hgrp : ∃ q ∈ s.tasks, s.pgrp q = s.pid cur
  · exact ⟨iff_of_true (by rw [Table.sysSetsid, if_pos hgrp]) hgrp, fun hno => absurd hgrp hno⟩
  · rw [Table.sysSetsid, if_neg hgrp]
    refine ⟨iff_of_false (fun he => ?_) hgrp, fun _ => ?_⟩
    · have hpos := hg.pos cur hc
      have hr : (s.pid cur : ℤ) = -Sched.eperm := congrArg Prod.fst he
      rw [Sched.eperm] at hr
      omega
    refine ⟨_, rfl, Function.update_self .., rfl, rfl, fun h1 q hq => ⟨?_, ?_⟩⟩
    · intro hsame
      by_contra hne
      simp only [Function.update_self, Function.update_of_ne hne] at hsame
      rcases hsame with hsame | hsame
      · -- a session of that number would have the caller as its leader
        have hlead := hg.opened cur hc q hq hsame h1
        exact hgrp ⟨cur, hc, (hg.leads cur hc hlead).1⟩
      · exact hgrp ⟨q, hq, hsame⟩
    · rintro rfl
      exact .inl rfl

theorem setsid_alone_family :
    ∃ s t, Run SpareStep (boot 16) (family.take 1) s ∧ s.session 5 = s.session 1 ∧ s.sysSetsid 5 = (2, t) ∧
      ∀ q ∈ t.tasks, (t.session q = t.session 5 ∨ t.pgrp q = t.pgrp 5) ↔ q = 5 := by
  obtain ⟨s, hs, hP⟩ := exists_run (boot 16) (family.take 1)
    (fun s => decide (5 ∈ s.tasks ∧ s.pid 5 = 2 ∧ s.session 5 = s.session 1 ∧
      ∀ q ∈ s.tasks, s.pgrp q ≠ s.pid 5)) (by decide +kernel)
  obtain ⟨h5, h2, h1, hno⟩ := of_decide_eq_true hP
  have hspare := run_spare_of_le (by norm_num) hs
  obtain ⟨t, ht, -, -, -, hall⟩ := (setsid_alone hspare h5).2 fun ⟨q, hq, hg⟩ => hno q hq hg
  exact ⟨s, t, hspare, h1, by rw [ht, h2]; rfl, hall (by omega)⟩

end OperationSystems.Proc
