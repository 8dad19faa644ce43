import Mathlib
import OperationSystems.Proc.Invariant

/-!
# New parents and the end of a task

`REMOVE_LINKS` with `SET_LINKS` give a task another parent, and `release_task`
takes a dead task out of all lists. Both keep the table well formed. The scan
of `sys_wait4` ends, with the first child in its order that is ready.
-/

namespace OperationSystems.Proc

open Function (update)
open HeadedList Transition Rings

variable {s : Table} {p cur k o : Ptr} {a : WaitArgs}

namespace Table

theorem removeLinks_tasks (p : Ptr) (s : Table) : (s.removeLinks p).tasks = s.tasks.erase p := by
  rw [removeLinks]
  split <;> rfl

/-- `REMOVE_LINKS` writes to four fields. -/
theorem removeLinks_eq (p : Ptr) (s : Table) :
    s.removeLinks p = { s with
      tasks := s.tasks.erase p
      cptr := (s.removeLinks p).cptr
      osptr := (s.removeLinks p).osptr
      ysptr := (s.removeLinks p).ysptr } := by
  rw [removeLinks]
  split <;> rfl

theorem relink_eq (p k : Ptr) (s : Table) :
    s.relink p k = { s with
      tasks := s.tasks.erase p ++ [p]
      pptr := update s.pptr p k
      cptr := (s.relink p k).cptr
      osptr := (s.relink p k).osptr
      ysptr := (s.relink p k).ysptr } := by
  rw [relink, setLinks, removeLinks_eq]

theorem Families.relink {q : Ptr → List Ptr} (hf : s.Families q) (hn : s.tasks.Nodup) (hp : p ∈ s.tasks)
    (k : Ptr) : ∃ q', (s.relink p k).Families q' := by
  have hrem := hf.removeLinks hn hp
  have hnot : p ∉ (s.removeLinks p).tasks := by
    rw [removeLinks_tasks, hn.mem_erase_iff]
    exact fun h => h.1 rfl
  have hout : ({ s.removeLinks p with pptr := update (s.removeLinks p).pptr p k } : Table).Families _ :=
    hrem.outside hnot (fun _ => Iff.rfl) rfl (fun _ _ => rfl) (fun _ _ => rfl)
      fun a ha => Function.update_of_ne ha _ _
  exact ⟨_, hout.setLinks hnot⟩

theorem mem_relink (hp : p ∈ s.tasks) (a : Ptr) : a ∈ (s.relink p k).tasks ↔ a ∈ s.tasks := by
  rw [relink_eq]
  simp only [List.mem_append, List.mem_singleton]
  constructor
  · rintro (ha | rfl)
    · exact List.mem_of_mem_erase ha
    · exact hp
  · intro ha
    by_cases hap : a = p
    · exact .inr hap
    · exact .inl ((List.mem_erase_of_ne hap).mpr ha)

/-- The task gets the parents `k` and `o`; a dead one has told `k`. -/
theorem Wf.relink (hw : s.Wf) (hp : p ∈ s.tasks) (hk : s.Live k) (ho : s.Live o) {b : Option Ptr}
    (hb : s.state p = .zombie → b = some k) :
    ({ s.relink p k with
      opptr := update s.opptr p o
      notified := update s.notified p b } : Table).Wf := by
  obtain ⟨q, hq⟩ := hw.families
  obtain ⟨h, hh⟩ := hw.hashed
  obtain ⟨q', hq'⟩ := hq.relink hw.nodup hp k
  have hmem := @mem_relink s p k hp
  have hnd : (s.relink p k).tasks.Nodup := by
    rw [relink_eq, List.nodup_append]
    refine ⟨hw.nodup.erase p, List.nodup_singleton p, fun a ha b hb => ?_⟩
    rw [List.mem_singleton.mp hb]
    exact fun he => (hw.nodup.mem_erase_iff.mp ha).1 he
  have hlen : (s.relink p k).tasks.length = s.tasks.length := by
    rw [relink_eq, List.length_append, List.length_singleton, List.length_erase_of_mem hp]
    exact Nat.sub_add_cancel (List.length_pos_of_mem hp)
  have hst : (s.relink p k).state = s.state := by rw [relink_eq]
  have hpp : (s.relink p k).pptr = update s.pptr p k := by rw [relink_eq]
  have hlive : ∀ j, s.Live j → (s.relink p k).Live j := by
    rintro j ⟨hj, hz⟩
    exact ⟨hj.imp_right (hmem j).mpr, by rwa [hst]⟩
  have hlive' : ∀ j, s.Live j → ({ s.relink p k with
      opptr := update s.opptr p o
      notified := update s.notified p b } : Table).Live j := hlive
  refine ⟨hnd, mt (hmem _).mp hw.root, (hmem _).mpr hw.reaper, ?_, ?_, ?_, ?_, ⟨q', ?_⟩, ?_, ⟨h, ?_⟩, ?_, ?_, ?_⟩
  · rw [relink_eq]
    exact hw.reaper_pid
  · rw [relink_eq]
    exact hw.reaper_runs
  · rw [relink_eq]
    exact hw.root_runs
  · rw [relink_eq]
    exact hw.zombie
  · exact hq'.congr (fun _ => Iff.rfl) rfl rfl rfl rfl
  · intro j hj
    have hpar := hw.parents j ((hmem j).mp hj)
    simp only [hpp]
    by_cases hjp : j = p
    · rw [hjp, Function.update_self, Function.update_self]
      exact ⟨hlive' k hk, hlive' o ho⟩
    · rw [Function.update_of_ne hjp, Function.update_of_ne hjp]
      exact ⟨hlive' _ hpar.1, hlive' _ hpar.2⟩
  · refine hh.congr hmem ?_ ?_ ?_ fun _ _ => ?_ <;> rw [relink_eq]
  · have hset : {j | j ∈ (s.relink p k).tasks} = {j | j ∈ s.tasks} := by
      ext j
      exact hmem j
    simp only [hset]
    rw [relink_eq]
    exact hw.threads
  · intro j hj hz
    simp only [hst] at hz
    simp only [hpp]
    by_cases hjp : j = p
    · subst hjp
      rw [Function.update_self, Function.update_self, hb hz]
    · rw [Function.update_of_ne hjp, Function.update_of_ne hjp]
      exact hw.notified j ((hmem j).mp hj) hz
  · simp only [hlen]
    rw [relink_eq]
    exact hw.count

theorem unhashPid_eq (p : Ptr) (s : Table) :
    s.unhashPid p = { s with
      pidhash := (s.unhashPid p).pidhash
      pidhashNext := (s.unhashPid p).pidhashNext
      pidhashPprev := (s.unhashPid p).pidhashPprev } := by
  rw [unhashPid]
  split <;> rfl

/-- What `release_task` leaves of the table. -/
def released (p : Ptr) (s : Table) : Table :=
  { s.unhashProcess p with pid := update (s.unhashProcess p).pid p 0 }

theorem released_eq (p : Ptr) (s : Table) :
    s.released p = { s with
      tasks := s.tasks.erase p
      pid := update s.pid p 0
      cptr := (s.released p).cptr
      osptr := (s.released p).osptr
      ysptr := (s.released p).ysptr
      nextThread := update s.nextThread (s.prevThread p) (s.nextThread p)
      prevThread := update s.prevThread (s.nextThread p) (s.prevThread p)
      pidhash := (s.released p).pidhash
      pidhashNext := (s.released p).pidhashNext
      pidhashPprev := (s.released p).pidhashPprev
      nrThreads := s.nrThreads - 1 } := by
  rw [released, unhashProcess, listDel, removeLinks_eq, unhashPid_eq]

theorem Families.released {q : Ptr → List Ptr} (hf : s.Families q) (hn : s.tasks.Nodup) (hp : p ∈ s.tasks) :
    ∃ q', (s.released p).Families q' := by
  have hu : (unhashPid p { s with nrThreads := s.nrThreads - 1 }).Families q := by
    refine hf.congr (fun a => ?_) ?_ ?_ ?_ ?_ <;> rw [unhashPid_eq]
  have hnd : (unhashPid p { s with nrThreads := s.nrThreads - 1 }).tasks.Nodup := by
    rw [unhashPid_eq]
    exact hn
  have hpu : p ∈ (unhashPid p { s with nrThreads := s.nrThreads - 1 }).tasks := by
    rw [unhashPid_eq]
    exact hp
  exact ⟨_, (hu.removeLinks hnd hpu).congr (fun _ => Iff.rfl) rfl rfl rfl rfl⟩

theorem Hashed.released {h : ℕ → List Ptr} (hh : s.Hashed s.tasks h) (hn : s.tasks.Nodup) (hp : p ∈ s.tasks) :
    ∃ h', (s.released p).Hashed (s.tasks.erase p) h' := by
  have hu : ({ s with nrThreads := s.nrThreads - 1 } : Table).Hashed s.tasks h :=
    hh.congr (fun _ => Iff.rfl) rfl rfl rfl fun _ _ => rfl
  refine ⟨_, (hu.unhashPid hn hp).congr (fun _ => Iff.rfl) ?_ ?_ ?_ fun a ha => ?_⟩
  · rw [Table.released, unhashProcess, listDel, removeLinks_eq]
  · rw [Table.released, unhashProcess, listDel, removeLinks_eq]
  · rw [Table.released, unhashProcess, listDel, removeLinks_eq]
  · rw [released_eq, unhashPid_eq]
    exact Function.update_of_ne (hn.mem_erase_iff.mp ha).1 _ _

/-- A dead task has no children, so nothing points at it after `release_task`. -/
theorem Wf.released (hw : s.Wf) (hp : p ∈ s.tasks) (hz : s.state p = .zombie) : (s.released p).Wf := by
  obtain ⟨q, hq⟩ := hw.families
  obtain ⟨h, hh⟩ := hw.hashed
  obtain ⟨q', hq'⟩ := hq.released hw.nodup hp
  obtain ⟨h', hh'⟩ := hh.released hw.nodup hp
  have hmem : ∀ a, a ∈ (s.released p).tasks ↔ a ≠ p ∧ a ∈ s.tasks := by
    intro a
    rw [released_eq]
    exact hw.nodup.mem_erase_iff
  have hrp : childReaper ≠ p := by
    rintro rfl
    exact hw.live_reaper.2 hz
  have hst : (s.released p).state = s.state := by rw [released_eq]
  have hlive : ∀ j, s.Live j → (s.released p).Live j := by
    rintro j ⟨hj, hzj⟩
    have hjp : j ≠ p := by
      rintro rfl
      exact hzj hz
    exact ⟨hj.imp_right fun hj => (hmem j).mpr ⟨hjp, hj⟩, by rwa [hst]⟩
  refine ⟨?_, ?_, (hmem _).mpr ⟨hrp, hw.reaper⟩, ?_, ?_, ?_, ?_, ⟨q', hq'⟩, ?_, ⟨h', ?_⟩, ?_, ?_, ?_⟩
  · rw [released_eq]
    exact hw.nodup.erase p
  · exact fun hm => hw.root ((hmem _).mp hm).2
  · rw [released_eq]
    exact (Function.update_of_ne hrp _ _).trans hw.reaper_pid
  · rw [released_eq]
    exact hw.reaper_runs
  · rw [released_eq]
    exact hw.root_runs
  · rw [released_eq]
    exact hw.zombie
  · intro j hj
    have hpar := hw.parents j ((hmem j).mp hj).2
    have hpp : (s.released p).pptr = s.pptr := by rw [released_eq]
    have hop : (s.released p).opptr = s.opptr := by rw [released_eq]
    rw [hpp, hop]
    exact ⟨hlive _ hpar.1, hlive _ hpar.2⟩
  · rw [show (s.released p).tasks = s.tasks.erase p by rw [released_eq]]
    exact hh'
  · have hset : {j | j ∈ (s.released p).tasks} = {j | j ∈ s.tasks} \ {p} := by
      ext j
      exact (hmem j).trans and_comm
    rw [hset]
    refine hw.threads.remove hp ?_ ?_ ?_ ?_ <;> rw [released_eq]
    · exact Function.update_self ..
    · exact Function.update_self ..
    · exact fun x _ hx _ => Function.update_of_ne hx _ _
    · exact fun x _ hx _ => Function.update_of_ne hx _ _
  · intro j hj hzj
    rw [hst] at hzj
    have hnotified := hw.notified j ((hmem j).mp hj).2 hzj
    rw [released_eq]
    exact hnotified
  · rw [released_eq]
    simp only [List.length_erase_of_mem hp, hw.count]

theorem keepsIds_relink (hp : p ∈ s.tasks) (k : Ptr) : s.KeepsIds (s.relink p k) := by
  refine ⟨fun a ha => ⟨(mem_relink hp a).mp ha, ?_, ?_⟩, ?_, ?_, ?_⟩
  · rw [relink_eq, ids, ids]
  all_goals rw [relink_eq]

theorem keepsIds_released (hw : s.Wf) (p : Ptr) : s.KeepsIds (s.released p) := by
  refine ⟨fun a ha => ?_, ?_, ?_, ?_⟩
  · rw [released_eq] at ha
    obtain ⟨hap, ha⟩ := hw.nodup.mem_erase_iff.mp ha
    refine ⟨ha, ?_, ?_⟩
    · rw [released_eq, ids, ids]
      simp [hap]
    · rw [released_eq]
  all_goals rw [released_eq]

/-- The children from `l` on: the one found is ready, and otherwise none of them is. -/
def Scanned (a : WaitArgs) (cur : Ptr) (s : Table) (C : Ptr → Prop) (flag : Bool) (r : Bool × Option Ptr) :
    Prop :=
  (∀ p, r.2 = some p → C p ∧ s.Eligible a cur p ∧ s.Ready a p ∧ r.1 = true) ∧
    (r.2 = none → (∀ p, C p → s.Eligible a cur p → ¬ s.Ready a p) ∧
      (r.1 = true ↔ flag = true ∨ ∃ p, C p ∧ s.Eligible a cur p))

theorem waitChildren_spec {back : Ptr → Ptr ⊕ Ptr} {c : Ptr ⊕ Ptr} {l : List Ptr} {fuel : ℕ}
    (hs : Segment s.familyRead back c l) (hf : l.length ≤ fuel) (flag : Bool) :
    ∃ r, s.waitChildren a cur fuel (s.familyRead c) flag = some r ∧ s.Scanned a cur (· ∈ l) flag r := by
  induction l generalizing c fuel flag with
  | nil =>
    rw [hs.read_eq]
    refine ⟨(flag, none), by cases fuel <;> rfl, by simp [Scanned]⟩
  | cons p t ih =>
    obtain ⟨n, rfl⟩ : ∃ n, fuel = n + 1 := ⟨fuel - 1, by simp at hf; omega⟩
    have ht : Segment s.familyRead back (.inr p) t := ⟨hs.1.2.2, hs.2⟩
    rw [hs.read_eq, List.head?_cons, waitChildren]
    by_cases he : s.Eligible a cur p
    · by_cases hr : s.Ready a p
      · simp only [he, hr, if_true]
        refine ⟨_, rfl, ?_, by simp⟩
        rintro b hb
        obtain rfl := Option.some.inj hb
        exact ⟨List.mem_cons_self, he, hr, rfl⟩
      · simp only [he, hr, if_true, if_false]
        obtain ⟨r, hrun, hsome, hnone⟩ := ih ht (by simpa using hf) true
        refine ⟨r, hrun, fun b hb => ?_, fun hn => ⟨?_, ?_⟩⟩
        · obtain ⟨hm, h2⟩ := hsome b hb
          exact ⟨List.mem_cons_of_mem p hm, h2⟩
        · intro b hb heb
          rcases List.mem_cons.mp hb with rfl | hb
          · exact hr
          · exact (hnone hn).1 b hb heb
        · rw [(hnone hn).2]
          exact ⟨fun _ => .inr ⟨p, List.mem_cons_self, he⟩, fun _ => .inl rfl⟩
    · simp only [he, if_false]
      obtain ⟨r, hrun, hsome, hnone⟩ := ih ht (by simpa using hf) flag
      refine ⟨r, hrun, fun b hb => ?_, fun hn => ⟨?_, ?_⟩⟩
      · obtain ⟨hm, h2⟩ := hsome b hb
        exact ⟨List.mem_cons_of_mem p hm, h2⟩
      · intro b hb heb
        rcases List.mem_cons.mp hb with rfl | hb
        · exact absurd heb he
        · exact (hnone hn).1 b hb heb
      · rw [(hnone hn).2]
        refine or_congr_right ⟨?_, ?_⟩
        · rintro ⟨b, hb, heb⟩
          exact ⟨b, List.mem_cons_of_mem p hb, heb⟩
        · rintro ⟨b, hb, heb⟩
          rcases List.mem_cons.mp hb with rfl | hb
          · exact absurd heb he
          · exact ⟨b, hb, heb⟩

/-- The threads whose children the call looks at. -/
def Scope (a : WaitArgs) (cur : Ptr) (s : Table) (t : Ptr) : Prop :=
  t = cur ∨ a.wnothread = false ∧ ∃ n, s.nextThread^[n] cur = t

/-- A child that is in scope. -/
def InScope (a : WaitArgs) (cur : Ptr) (s : Table) (p : Ptr) : Prop := p ∈ s.tasks ∧ s.Scope a cur (s.pptr p)

theorem waitChildren_task (hw : s.Wf) (t : Ptr) (flag : Bool) :
    ∃ r, s.waitChildren a cur s.tasks.length (s.cptr t) flag = some r ∧
      s.Scanned a cur (fun p => p ∈ s.tasks ∧ s.pptr p = t) flag r := by
  obtain ⟨q, hq⟩ := hw.families
  have hlen : (q t).length ≤ s.tasks.length := by
    refine (List.subperm_of_subset (hq.holds.nodup t) ?_).length_le
    exact fun b hb => ((hq.mem t b).mp hb).1
  obtain ⟨r, hr, hs⟩ := @waitChildren_spec s cur a _ _ _ _ (hq.holds t) hlen flag
  refine ⟨r, hr, ?_⟩
  simpa only [Scanned, hq.mem] using hs

/-- The scan from the `i`-th thread on, when the earlier ones had no ready child. -/
theorem waitThreads_from (hw : s.Wf) {m i fuel : ℕ} {flag : Bool} (hm : s.nextThread^[m] cur = cur)
    (hi : i < m) (hf : m ≤ i + fuel)
    (hbefore : ∀ j < i, ∀ p ∈ s.tasks, s.pptr p = s.nextThread^[j] cur → s.Eligible a cur p → ¬ s.Ready a p)
    (hflag : flag = true ↔ ∃ j < i, ∃ p ∈ s.tasks, s.pptr p = s.nextThread^[j] cur ∧ s.Eligible a cur p)
    (hfirst : a.wnothread = true → i = 0) :
    ∃ r, s.waitThreads a cur fuel (s.nextThread^[i] cur) flag = some r ∧
      s.Scanned a cur (s.InScope a cur) false r := by
  induction fuel generalizing i flag with
  | zero => omega
  | succ fuel ih =>
    obtain ⟨r, hr, hsome, hnone⟩ := @waitChildren_task s cur a hw (s.nextThread^[i] cur) flag
    have hscope : s.Scope a cur (s.nextThread^[i] cur) := by
      cases ha : a.wnothread with
      | false => exact .inr ⟨ha, i, rfl⟩
      | true =>
        rw [hfirst ha]
        exact .inl rfl
    obtain ⟨flag', o⟩ := r
    cases o with
    | some p =>
      obtain ⟨⟨hp, hpp⟩, he, hrd, hfl⟩ := hsome p rfl
      refine ⟨(flag', some p), by simp [waitThreads, hr], ?_, by simp⟩
      rintro b hb
      obtain rfl := Option.some.inj hb
      exact ⟨⟨hp, hpp ▸ hscope⟩, he, hrd, hfl⟩
    | none =>
      obtain ⟨hready, hseen⟩ := hnone rfl
      have hthis : ∀ j < i + 1, ∀ p ∈ s.tasks, s.pptr p = s.nextThread^[j] cur →
          s.Eligible a cur p → ¬ s.Ready a p := by
        intro j hj p hp hpp he
        rcases Nat.lt_succ_iff_lt_or_eq.mp hj with hj | rfl
        · exact hbefore j hj p hp hpp he
        · exact hready p ⟨hp, hpp⟩ he
      have hthisflag : flag' = true ↔
          ∃ j < i + 1, ∃ p ∈ s.tasks, s.pptr p = s.nextThread^[j] cur ∧ s.Eligible a cur p := by
        rw [show flag' = true ↔ flag = true ∨ ∃ p, (p ∈ s.tasks ∧ s.pptr p = s.nextThread^[i] cur) ∧
          s.Eligible a cur p from hseen, hflag]
        constructor
        · rintro (⟨j, hj, h⟩ | ⟨p, ⟨hp, hpp⟩, he⟩)
          · exact ⟨j, by omega, h⟩
          · exact ⟨i, by omega, p, hp, hpp, he⟩
        · rintro ⟨j, hj, p, hp, hpp, he⟩
          rcases Nat.lt_succ_iff_lt_or_eq.mp hj with hj | rfl
          · exact .inl ⟨j, hj, p, hp, hpp, he⟩
          · exact .inr ⟨p, ⟨hp, hpp⟩, he⟩
      have hsucc : s.nextThread (s.nextThread^[i] cur) = s.nextThread^[i + 1] cur :=
        (Function.iterate_succ_apply' ..).symm
      by_cases hend : a.wnothread = true ∨ s.nextThread (s.nextThread^[i] cur) = cur
      · -- every thread in scope is one of those already scanned
        have hall : ∀ t, s.Scope a cur t → ∃ j < i + 1, s.nextThread^[j] cur = t := by
          rintro t (rfl | ⟨hno, n, rfl⟩)
          · exact ⟨0, by omega, rfl⟩
          · have hper : Function.IsPeriodicPt s.nextThread (i + 1) cur := by
              rcases hend with hend | hend
              · rw [hno] at hend
                cases hend
              · exact hsucc.symm.trans hend
            exact ⟨n % (i + 1), Nat.mod_lt _ (Nat.succ_pos i), hper.iterate_mod_apply n⟩
        refine ⟨(flag', none), by simp [waitThreads, hr, hend], by simp, fun _ => ⟨?_, ?_⟩⟩
        · rintro p ⟨hp, hsc⟩ he
          obtain ⟨j, hj, hjp⟩ := hall _ hsc
          exact hthis j hj p hp hjp.symm he
        · rw [show ((flag', none) : Bool × Option Ptr).1 = flag' from rfl, hthisflag]
          constructor
          · rintro ⟨j, hj, p, hp, hpp, he⟩
            refine .inr ⟨p, ⟨hp, ?_⟩, he⟩
            rw [hpp]
            cases ha : a.wnothread with
            | false => exact .inr ⟨ha, j, rfl⟩
            | true =>
              have hi0 := hfirst ha
              rw [show j = 0 by omega]
              exact .inl rfl
          · rintro (h | ⟨p, ⟨hp, hsc⟩, he⟩)
            · cases h
            · obtain ⟨j, hj, hjp⟩ := hall _ hsc
              exact ⟨j, hj, p, hp, hjp.symm, he⟩
      · rw [not_or] at hend
        have hlt : i + 1 < m := by
          by_contra hge
          have him : i + 1 = m := by omega
          exact hend.2 (by rw [hsucc, him, hm])
        obtain ⟨r, hrun, hspec⟩ := ih hlt (by omega) hthis hthisflag fun ha => absurd ha hend.1
        refine ⟨r, ?_, hspec⟩
        rw [waitThreads, hr, hsucc]
        rw [hsucc] at hend
        simpa only [if_neg (not_or.mpr hend)] using hrun

theorem waitThreads_spec (hw : s.Wf) (hc : cur ∈ s.tasks) :
    ∃ r, s.waitThreads a cur s.tasks.length cur false = some r ∧
      s.Scanned a cur (s.InScope a cur) false r := by
  obtain ⟨m, hpos, hle, hm⟩ := hw.threads.return_le (fun _ hx => hx) hc
  exact waitThreads_from (i := 0) hw hm hpos (by omega) (by simp) (by simp) fun _ => rfl

/-- The three things that `wait4` does with a child. -/
theorem reap_cases (hw : s.Wf) (hr : s.Runs cur) (fault : Option ℤ) :
    ∃ t, s.reap cur p fault = some (fault.elim (s.pid p : ℤ) Neg.neg, t) ∧
      (t = s ∨
        (s.state p = .zombie ∧ s.opptr p ≠ s.pptr p ∧ t = (s.relink p (s.opptr p)).doNotifyParent p) ∨
        (s.state p = .zombie ∧ s.opptr p = s.pptr p ∧ t = s.released p) ∨
        (s.state p ≠ .zombie ∧ t = { s with exitCode := update s.exitCode p 0 })) := by
  cases fault with
  | some e => exact ⟨s, rfl, .inl rfl⟩
  | none =>
    rw [reap]
    by_cases hz : s.state p = .zombie
    · by_cases hpp : s.opptr p = s.pptr p
      · have hpc : p ≠ cur := by
          rintro rfl
          exact hw.live_of_runs hr.2 hz
        refine ⟨s.released p, ?_, .inr (.inr (.inl ⟨hz, hpp, rfl⟩))⟩
        simp [hz, hpp, releaseTask, hpc, released]
      · exact ⟨_, by simp only [hz, if_true, hpp, ne_eq, not_false_eq_true]; rfl, .inr (.inl ⟨hz, hpp, rfl⟩)⟩
    · exact ⟨_, by simp only [hz, if_false]; rfl, .inr (.inr (.inr ⟨hz, rfl⟩))⟩

theorem Wf.moved (hw : s.Wf) (hp : p ∈ s.tasks) : ((s.relink p (s.opptr p)).doNotifyParent p).Wf := by
  have hlive := (hw.parents p hp).2
  have hmoved := hw.relink (b := some (s.opptr p)) hp hlive hlive fun _ => rfl
  have hop : (s.relink p (s.opptr p)).opptr = s.opptr := by rw [relink_eq]
  have hpp : (s.relink p (s.opptr p)).pptr p = s.opptr p := by
    rw [relink_eq]
    exact Function.update_self ..
  have hno : (s.relink p (s.opptr p)).notified = s.notified := by rw [relink_eq]
  generalize s.relink p (s.opptr p) = t at hmoved hop hpp hno ⊢
  rw [doNotifyParent, hpp, hno]
  rw [Function.update_eq_self, ← hop] at hmoved
  exact hop ▸ hmoved

theorem Wf.reap (hw : s.Wf) (hr : s.Runs cur) (hp : p ∈ s.tasks) (fault : Option ℤ) :
    ∃ t, s.reap cur p fault = some (fault.elim (s.pid p : ℤ) Neg.neg, t) ∧ t.Wf ∧ t.state = s.state ∧
      s.KeepsIds t := by
  obtain ⟨t, ht, hcases⟩ := @reap_cases s p cur hw hr fault
  refine ⟨t, ht, ?_⟩
  rcases hcases with rfl | ⟨hz, -, rfl⟩ | ⟨hz, -, rfl⟩ | ⟨-, rfl⟩
  · exact ⟨hw, rfl, .refl _⟩
  · refine ⟨hw.moved hp, ?_, keepsIds_relink hp _⟩
    rw [doNotifyParent, relink_eq]
  · refine ⟨hw.released hp hz, ?_, keepsIds_released hw p⟩
    rw [released_eq]
  · exact ⟨hw.of_links rfl (fun _ => Iff.rfl) (fun _ h => h) (fun _ _ => rfl), rfl, .refl s⟩

/-- A task that is not dead may sleep and wake up. -/
theorem Wf.setState (hw : s.Wf) (hc : s.state cur ≠ .zombie) {st : Sched.TaskState} (hst : st ≠ .zombie) :
    ({ s with state := update s.state cur st } : Table).Wf := by
  refine hw.of_links rfl (fun x => ?_) (fun _ h => h) (fun _ _ => rfl)
  by_cases hx : x = cur
  · simp [hx, hc, hst]
  · simp [hx]

/-- What `wait4` leaves of the table when it ends with the child `p`. -/
def Takes (cur p : Ptr) (fault : Option ℤ) (s t : Table) : Prop :=
  ∃ u, s.reap cur p fault = some (fault.elim (s.pid p : ℤ) Neg.neg, u) ∧
    t = { u with state := update u.state cur .running }

theorem Takes.zombie {t : Table} (hw : s.Wf) (hr : s.Runs cur) (hp : p ∈ s.tasks) (h : s.Takes cur p none t)
    (hz : s.state p = .zombie) :
    s.opptr p = s.pptr p ∧ t.tasks = s.tasks.erase p ∧ t.nrThreads + 1 = s.nrThreads ∨
      s.opptr p ≠ s.pptr p ∧ p ∈ t.tasks ∧ t.pptr p = s.opptr p ∧ t.notified p = some (s.opptr p) := by
  obtain ⟨u, hu, rfl⟩ := h
  have hpc : p ≠ cur := by
    rintro rfl
    exact hw.live_of_runs hr.2 hz
  by_cases hpp : s.opptr p = s.pptr p
  · have hrel : u = s.released p := by
      simpa [Table.reap, hz, hpp, releaseTask, hpc, Table.released] using hu.symm
    have hpos := hw.count ▸ List.length_pos_of_mem hp
    refine .inl ⟨hpp, ?_⟩
    simp only [hrel]
    rw [released_eq]
    exact ⟨rfl, Nat.sub_add_cancel hpos⟩
  · have hmov : u = (s.relink p (s.opptr p)).doNotifyParent p := by
      simpa [Table.reap, hz, hpp] using hu.symm
    have hto : (s.relink p (s.opptr p)).pptr p = s.opptr p := by
      rw [relink_eq]
      exact Function.update_self ..
    refine .inr ⟨hpp, ?_⟩
    simp only [hmov, doNotifyParent, hto, Function.update_self, and_true]
    exact (mem_relink hp p).mpr hp

theorem Takes.others {t : Table} {fault : Option ℤ} (h : s.Takes cur p fault t)
    (hz : fault ≠ none ∨ s.state p ≠ .zombie) : t.tasks = s.tasks := by
  obtain ⟨u, hu, rfl⟩ := h
  cases fault with
  | some e =>
    obtain rfl : s = u := by simpa [Table.reap] using hu
    rfl
  | none =>
    have hz : s.state p ≠ .zombie := hz.resolve_left fun h => h rfl
    obtain rfl : { s with exitCode := update s.exitCode p 0 } = u := by simpa [Table.reap, hz] using hu
    rfl

/-- One pass of `wait4`: it takes a ready child if there is one, and it sleeps only while a
child that it waits for may still become ready. -/
theorem waitPass_spec (hw : s.Wf) (hr : s.Runs cur) (a : WaitArgs) (signal : Bool) (fault : Option ℤ) :
    ∃ r t, s.waitPass cur a signal fault = some (r, t) ∧ t.Wf ∧ s.KeepsIds t ∧
      ((∃ p, s.InScope a cur p ∧ s.Eligible a cur p ∧ s.Ready a p ∧
          r = some (fault.elim (s.pid p : ℤ) Neg.neg) ∧ s.Takes cur p fault t) ∨
        (∀ p, s.InScope a cur p → s.Eligible a cur p → ¬ s.Ready a p) ∧
          (∃ st, t = { s with state := update s.state cur st }) ∧
          ((¬ ∃ p, s.InScope a cur p ∧ s.Eligible a cur p) ∧ r = some (-echild) ∨
            (∃ p, s.InScope a cur p ∧ s.Eligible a cur p) ∧
              r = if a.wnohang then some 0 else if signal then some (-erestartsys) else none)) := by
  have hlive := hw.live_of_runs hr.2
  obtain ⟨⟨flag, o⟩, hscan, hsome, hnone⟩ := @waitThreads_spec s cur a hw hr.1
  cases o with
  | some p =>
    obtain ⟨hin, he, hrd, -⟩ := hsome p rfl
    obtain ⟨t, ht, htw, htc, hkeep⟩ := hw.reap hr hin.1 fault
    refine ⟨some (fault.elim (s.pid p : ℤ) Neg.neg), { t with state := update t.state cur .running },
      by simp [waitPass, hscan, ht], htw.setState (htc ▸ hlive) (by simp), hkeep,
      .inl ⟨p, hin, he, hrd, rfl, t, ht, rfl⟩⟩
  | none =>
    obtain ⟨hready, hflag⟩ := hnone rfl
    have hex : flag = true ↔ ∃ p, s.InScope a cur p ∧ s.Eligible a cur p := by
      simpa using hflag
    cases flag with
    | false =>
      refine ⟨some (-echild), { s with state := update s.state cur .running }, by simp [waitPass, hscan],
        hw.setState hlive (by simp), .refl s, .inr ⟨hready, ⟨_, rfl⟩, .inl ⟨?_, rfl⟩⟩⟩
      exact fun h => Bool.false_ne_true (hex.mpr h)
    | true =>
      have hwait := hex.mp rfl
      cases hno : a.wnohang with
      | true =>
        refine ⟨some 0, { s with state := update s.state cur .running }, by simp [waitPass, hscan, hno],
          hw.setState hlive (by simp), .refl s, .inr ⟨hready, ⟨_, rfl⟩, .inr ⟨hwait, by simp⟩⟩⟩
      | false =>
        cases signal with
        | true =>
          refine ⟨some (-erestartsys), { s with state := update s.state cur .running },
            by simp [waitPass, hscan, hno], hw.setState hlive (by simp), .refl s,
            .inr ⟨hready, ⟨_, rfl⟩, .inr ⟨hwait, by simp⟩⟩⟩
        | false =>
          refine ⟨none, { s with state := update s.state cur .interruptible },
            by simp [waitPass, hscan, hno], hw.setState hlive (by simp), .refl s,
            .inr ⟨hready, ⟨_, rfl⟩, .inr ⟨hwait, by simp⟩⟩⟩

theorem sysWait4_known {a : WaitArgs} (h : a.unknown = false) (signal : Bool) (fault : Option ℤ) :
    s.sysWait4 cur a signal fault = s.waitPass cur a signal fault := by
  rw [sysWait4, if_neg (by simp [h])]

theorem sysWait4_unknown {a : WaitArgs} (h : a.unknown = true) (signal : Bool) (fault : Option ℤ) :
    s.sysWait4 cur a signal fault = some (some (-Sched.einval), s) := by
  rw [sysWait4, if_pos h]

end Table

end OperationSystems.Proc
