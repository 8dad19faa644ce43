import Mathlib
import OperationSystems.Proc.Runs

/-!
# Process groups and sessions

As long as `get_pid` finds an id, no two tasks have one number, the tasks of a
process group are in one session, and a session has at most one leader, whose
number is that of the session. Group 1 is left out: `daemonize` puts kernel
threads there without a look at the session of `init`.
-/

namespace OperationSystems.Proc

open Function (update)
open Transition

variable {s s' : Table} {e : Event} {maxThreads : ℕ} {es : List Event}

namespace Table

/-- `do_fork` is about to find all numbers in use. -/
def Starves (s : Table) (e : Event) : Prop := s.Searching e ∧ ∃ l n, s.Searches 0 l n

structure Grouped (s : Table) : Prop where
  window : Window (s.tasks.map s.ids) s.lastPid s.nextSafe
  pos : ∀ p ∈ s.tasks, 0 < s.pid p
  distinct : ∀ p ∈ s.tasks, ∀ q ∈ s.tasks, s.pid p = s.pid q → p = q
  inSession : ∀ p ∈ s.tasks, ∀ q ∈ s.tasks, s.pgrp p = s.pgrp q → s.pgrp p ≠ 1 → s.session p = s.session q
  ofNumber : ∀ p ∈ s.tasks, ∀ q ∈ s.tasks, s.pgrp q = s.pid p → s.pid p ≠ 1 → s.session q = s.session p
  leads : ∀ p ∈ s.tasks, s.leader p = true → s.pgrp p = s.pid p ∧ s.session p = s.pid p
  opened : ∀ p ∈ s.tasks, ∀ q ∈ s.tasks, s.session q = s.pid p → s.pid p ≠ 1 → s.leader p = true

theorem window_iff {l n : ℕ} : Window (s.tasks.map s.ids) l n ↔
    ∀ a ∈ s.tasks, ∀ m, (s.ids a).Uses m → l < m → n ≤ m := by
  simp [Window]

theorem Grouped.of_keeps (hg : s.Grouped) (h : s.KeepsIds s') : s'.Grouped := by
  obtain ⟨hids, hl, hs, -⟩ := h
  have hpid : ∀ a ∈ s'.tasks, s'.pid a = s.pid a := fun a ha => congrArg Ids.pid (hids a ha).2.1
  have hpgrp : ∀ a ∈ s'.tasks, s'.pgrp a = s.pgrp a := fun a ha => congrArg Ids.pgrp (hids a ha).2.1
  have hses : ∀ a ∈ s'.tasks, s'.session a = s.session a := fun a ha => congrArg Ids.session (hids a ha).2.1
  refine ⟨?_, ?_, ?_, ?_, ?_, ?_, ?_⟩
  · rw [hl, hs, window_iff]
    intro a ha m hm
    rw [(hids a ha).2.1] at hm
    exact window_iff.mp hg.window a (hids a ha).1 m hm
  · intro p hp
    rw [hpid p hp]
    exact hg.pos p (hids p hp).1
  · intro p hp q hq
    rw [hpid p hp, hpid q hq]
    exact hg.distinct p (hids p hp).1 q (hids q hq).1
  · intro p hp q hq
    rw [hpgrp p hp, hpgrp q hq, hses p hp, hses q hq]
    exact hg.inSession p (hids p hp).1 q (hids q hq).1
  · intro p hp q hq
    rw [hpid p hp, hpgrp q hq, hses p hp, hses q hq]
    exact hg.ofNumber p (hids p hp).1 q (hids q hq).1
  · intro p hp
    rw [hpid p hp, hpgrp p hp, hses p hp, (hids p hp).2.2]
    exact hg.leads p (hids p hp).1
  · intro p hp q hq
    rw [hpid p hp, hses q hq, (hids p hp).2.2]
    exact hg.opened p (hids p hp).1 q (hids q hq).1

/-- What a search that succeeds finds. -/
theorem Grouped.chosen (hg : s.Grouped) (hn : s.Numbered) {pid lastPid nextSafe : ℕ}
    (h : s.Searches pid lastPid nextSafe) (h0 : pid ≠ 0) :
    0 < pid ∧ (∀ a ∈ s.tasks, ¬ (s.ids a).Uses pid) ∧ lastPid = pid ∧
      Window (s.tasks.map s.ids) lastPid nextSafe := by
  obtain ⟨r, hr, -, hspec⟩ := hn.search
  obtain rfl := Option.some.inj (hr.symm.trans h)
  rcases hspec (.inl hg.window) with hc | hx
  · refine ⟨hc.pos, fun a ha hu => ?_, hc.last, hc.window⟩
    exact hc.unused (s.ids a) (List.mem_map_of_mem ha) hu
  · exact absurd hx.pid h0

/-- A child with a number that no task uses, in the group and the session of its parent. -/
theorem Grouped.add (hg : s.Grouped) {cur p : Ptr} (hc : cur ∈ s.tasks) (hp : p ∉ s.tasks) {i : Ids}
    (ht : s'.tasks = s.tasks ++ [p]) (hi : s'.ids = update s.ids p i) (hl : s'.leader = update s.leader p false)
    (hgrp : i.pgrp = s.pgrp cur) (hses : i.session = s.session cur) (htg : i.tgid = i.pid ∨ i.tgid = s.tgid cur)
    (hpos : 0 < i.pid) (hu : ∀ a ∈ s.tasks, ¬ (s.ids a).Uses i.pid) (hlast : s'.lastPid = i.pid)
    (hw : Window (s.tasks.map s.ids) s'.lastPid s'.nextSafe) : s'.Grouped := by
  have hne : ∀ a ∈ s.tasks, a ≠ p := fun a ha => ne_of_mem_of_not_mem ha hp
  have hmem : ∀ a, a ∈ s'.tasks ↔ a ∈ s.tasks ∨ a = p := by
    intro a
    rw [ht, List.mem_append, List.mem_singleton]
  have hold : ∀ a ∈ s.tasks, s'.ids a = s.ids a ∧ s'.leader a = s.leader a := by
    intro a ha
    rw [hi, hl, Function.update_of_ne (hne a ha), Function.update_of_ne (hne a ha)]
    exact ⟨rfl, rfl⟩
  have hnew : s'.ids p = i ∧ s'.leader p = false := by
    rw [hi, hl, Function.update_self, Function.update_self]
    exact ⟨rfl, rfl⟩
  have hpid : ∀ a ∈ s.tasks, s'.pid a = s.pid a := fun a ha => congrArg Ids.pid (hold a ha).1
  have hpgrp : ∀ a ∈ s.tasks, s'.pgrp a = s.pgrp a := fun a ha => congrArg Ids.pgrp (hold a ha).1
  have hsess : ∀ a ∈ s.tasks, s'.session a = s.session a := fun a ha => congrArg Ids.session (hold a ha).1
  have hpidp : s'.pid p = i.pid := congrArg Ids.pid hnew.1
  have hpgrpp : s'.pgrp p = s.pgrp cur := (congrArg Ids.pgrp hnew.1).trans hgrp
  have hsessp : s'.session p = s.session cur := (congrArg Ids.session hnew.1).trans hses
  have hself : ∀ a ∈ s.tasks, s.pid a ≠ i.pid ∧ s.pgrp a ≠ i.pid ∧ s.session a ≠ i.pid := by
    intro a ha
    have h := hu a ha
    simp only [Ids.Uses, ids, not_or] at h
    exact ⟨h.1, h.2.1, h.2.2.2⟩
  refine ⟨?_, ?_, ?_, ?_, ?_, ?_, ?_⟩
  · rw [window_iff] at hw ⊢
    intro a ha m hm hlt
    rcases (hmem a).mp ha with ha | rfl
    · exact hw a ha m ((hold a ha).1 ▸ hm) hlt
    · rw [hnew.1] at hm
      rcases hm with hm | hm | hm | hm
      · omega
      · exact hw cur hc m (.inr (.inl (hgrp.symm.trans hm))) hlt
      · rcases htg with htg | htg
        · omega
        · exact hw cur hc m (.inr (.inr (.inl (htg.symm.trans hm)))) hlt
      · exact hw cur hc m (.inr (.inr (.inr (hses.symm.trans hm)))) hlt
  · intro a ha
    rcases (hmem a).mp ha with ha | rfl
    · exact hpid a ha ▸ hg.pos a ha
    · exact hpidp ▸ hpos
  · intro a ha b hb hab
    rcases (hmem a).mp ha with ha | rfl
    · rcases (hmem b).mp hb with hb | rfl
      · rw [hpid a ha, hpid b hb] at hab
        exact hg.distinct a ha b hb hab
      · rw [hpid a ha, hpidp] at hab
        exact absurd hab (hself a ha).1
    · rcases (hmem b).mp hb with hb | rfl
      · rw [hpid b hb, hpidp] at hab
        exact absurd hab.symm (hself b hb).1
      · rfl
  · intro a ha b hb
    -- the child stands for its parent
    obtain ⟨a', ha', hga, hsa⟩ : ∃ a' ∈ s.tasks, s'.pgrp a = s.pgrp a' ∧ s'.session a = s.session a' := by
      rcases (hmem a).mp ha with ha | rfl
      · exact ⟨a, ha, hpgrp a ha, hsess a ha⟩
      · exact ⟨cur, hc, hpgrpp, hsessp⟩
    obtain ⟨b', hb', hgb, hsb⟩ : ∃ b' ∈ s.tasks, s'.pgrp b = s.pgrp b' ∧ s'.session b = s.session b' := by
      rcases (hmem b).mp hb with hb | rfl
      · exact ⟨b, hb, hpgrp b hb, hsess b hb⟩
      · exact ⟨cur, hc, hpgrpp, hsessp⟩
    rw [hga, hgb, hsa, hsb]
    exact hg.inSession a' ha' b' hb'
  · intro a ha b hb
    obtain ⟨b', hb', hgb, hsb⟩ : ∃ b' ∈ s.tasks, s'.pgrp b = s.pgrp b' ∧ s'.session b = s.session b' := by
      rcases (hmem b).mp hb with hb | rfl
      · exact ⟨b, hb, hpgrp b hb, hsess b hb⟩
      · exact ⟨cur, hc, hpgrpp, hsessp⟩
    rw [hgb, hsb]
    rcases (hmem a).mp ha with ha | rfl
    · rw [hpid a ha, hsess a ha]
      exact hg.ofNumber a ha b' hb'
    · rw [hpidp]
      exact fun h => absurd h (hself b' hb').2.1
  · intro a ha hlead
    rcases (hmem a).mp ha with ha | rfl
    · rw [hpgrp a ha, hpid a ha, hsess a ha]
      exact hg.leads a ha ((hold a ha).2 ▸ hlead)
    · rw [hnew.2] at hlead
      cases hlead
  · intro a ha b hb
    obtain ⟨b', hb', hsb⟩ : ∃ b' ∈ s.tasks, s'.session b = s.session b' := by
      rcases (hmem b).mp hb with hb | rfl
      · exact ⟨b, hb, hsess b hb⟩
      · exact ⟨cur, hc, hsessp⟩
    rw [hsb]
    rcases (hmem a).mp ha with ha | rfl
    · rw [hpid a ha, (hold a ha).2]
      exact hg.opened a ha b' hb'
    · rw [hpidp]
      exact fun h => absurd h (hself b' hb').2.2

/-- The group `g`, the session `n` and the leadership `b` suit the task `p` among the others. -/
structure Suits (s : Table) (p : Ptr) (g n : ℕ) (b : Bool) : Prop where
  used : ∀ m, m = g ∨ m = n → m ≤ s.lastPid ∨ ∃ a ∈ s.tasks, (s.ids a).Uses m
  inSession : ∀ q ∈ s.tasks, q ≠ p → s.pgrp q = g → g ≠ 1 → s.session q = n
  ofOther : ∀ q ∈ s.tasks, q ≠ p → g = s.pid q → g ≠ 1 → n = s.session q
  ofSelf : ∀ q ∈ s.tasks, q ≠ p → s.pgrp q = s.pid p → s.pid p ≠ 1 → s.session q = n
  leads : b = true → g = s.pid p ∧ n = s.pid p
  opened : ∀ q ∈ s.tasks, q ≠ p → s.session q = s.pid p → s.pid p ≠ 1 → b = true
  self : n = s.pid p → s.pid p ≠ 1 → b = true
  other : ∀ q ∈ s.tasks, q ≠ p → n = s.pid q → s.pid q ≠ 1 → s.leader q = true

theorem Grouped.regroup (hg : s.Grouped) {p : Ptr} {g n : ℕ} {b : Bool} (hs : s.Suits p g n b)
    (hp : p ∈ s.tasks) :
    ({ s with
      pgrp := update s.pgrp p g
      session := update s.session p n
      leader := update s.leader p b } : Table).Grouped := by
  refine ⟨?_, hg.pos, hg.distinct, ?_, ?_, ?_, ?_⟩
  · have hw := window_iff.mp hg.window
    rw [window_iff]
    intro a ha m hm hlt
    have hused : (s.ids a).Uses m ∨ m = g ∨ m = n := by
      by_cases hap : a = p
      · subst hap
        simp only [Ids.Uses, ids, Function.update_self] at hm ⊢
        tauto
      · simp only [Ids.Uses, ids, Function.update_of_ne hap] at hm ⊢
        tauto
    rcases hused with hu | hu
    · exact hw a ha m hu hlt
    · rcases hs.used m hu with hle | ⟨c, hc, hu⟩
      · exact absurd hlt (not_lt.mpr hle)
      · exact hw c hc m hu hlt
  · intro a ha c hc
    by_cases hap : a = p
    · by_cases hcp : c = p
      · intros
        rw [hap, hcp]
      · simp only [hap, Function.update_self, Function.update_of_ne hcp]
        exact fun h h1 => (hs.inSession c hc hcp h.symm h1).symm
    · by_cases hcp : c = p
      · simp only [hcp, Function.update_self, Function.update_of_ne hap]
        exact fun h h1 => hs.inSession a ha hap h (h ▸ h1)
      · simp only [Function.update_of_ne hap, Function.update_of_ne hcp]
        exact hg.inSession a ha c hc
  · intro a ha c hc
    by_cases hap : a = p
    · by_cases hcp : c = p
      · intros
        rw [hap, hcp]
      · simp only [hap, Function.update_self, Function.update_of_ne hcp]
        exact hs.ofSelf c hc hcp
    · by_cases hcp : c = p
      · simp only [hcp, Function.update_self, Function.update_of_ne hap]
        exact fun h h1 => hs.ofOther a ha hap h (h ▸ h1)
      · simp only [Function.update_of_ne hap, Function.update_of_ne hcp]
        exact hg.ofNumber a ha c hc
  · intro a ha
    by_cases hap : a = p
    · simp only [hap, Function.update_self]
      exact hs.leads
    · simp only [Function.update_of_ne hap]
      exact hg.leads a ha
  · intro a ha c hc
    by_cases hap : a = p
    · by_cases hcp : c = p
      · simp only [hap, hcp, Function.update_self]
        exact hs.self
      · simp only [hap, Function.update_self, Function.update_of_ne hcp]
        exact hs.opened c hc hcp
    · by_cases hcp : c = p
      · simp only [hcp, Function.update_self, Function.update_of_ne hap]
        exact hs.other a ha hap
      · simp only [Function.update_of_ne hap, Function.update_of_ne hcp]
        exact hg.opened a ha c hc

theorem JoinsGroup.suits (hg : s.Grouped) {cur p : Ptr} {g : ℕ} (h : s.JoinsGroup cur p g) :
    s.Suits p g (s.session p) (s.leader p) where
  used := by
    rintro m (rfl | rfl)
    · rcases h.group with rfl | ⟨t, ht, rfl, -⟩
      · exact .inr ⟨p, h.mem, .inl rfl⟩
      · exact .inr ⟨t, ht, .inr (.inl rfl)⟩
    · exact .inr ⟨p, h.mem, .inr (.inr (.inr rfl))⟩
  inSession q hq _ hqg h1 := by
    rcases h.group with rfl | ⟨t, ht, rfl, hts⟩
    · exact hg.ofNumber p h.mem q hq hqg h1
    · rw [h.session, ← hts]
      exact hg.inSession q hq t ht hqg (hqg ▸ h1)
  ofOther q hq hqp hgq h1 := by
    rcases h.group with rfl | ⟨t, ht, rfl, hts⟩
    · exact absurd (hg.distinct q hq p h.mem hgq.symm) hqp
    · rw [h.session, ← hts]
      exact hg.ofNumber q hq t ht hgq (hgq ▸ h1)
  ofSelf q hq _ := hg.ofNumber p h.mem q hq
  leads hl := by
    rw [h.leader] at hl
    cases hl
  opened q hq _ := hg.opened p h.mem q hq
  self := hg.opened p h.mem p h.mem
  other q hq _ := hg.opened q hq p h.mem

theorem suits_session (hg : s.Grouped) {cur : Ptr} (hc : cur ∈ s.tasks)
    (h : ∀ t ∈ s.tasks, s.pgrp t ≠ s.pid cur) : s.Suits cur (s.pid cur) (s.pid cur) true where
  used := by
    rintro m (rfl | rfl) <;> exact .inr ⟨cur, hc, .inl rfl⟩
  inSession q hq _ hqg _ := absurd hqg (h q hq)
  ofOther q hq hqc hgq _ := absurd (hg.distinct q hq cur hc hgq.symm) hqc
  ofSelf q hq _ hqg _ := absurd hqg (h q hq)
  leads _ := ⟨rfl, rfl⟩
  opened _ _ _ _ _ := rfl
  self _ _ := rfl
  other q hq hqc hgq _ := absurd (hg.distinct q hq cur hc hgq.symm) hqc

theorem suits_daemon (hg : s.Grouped) (hn : s.Numbered) {cur : Ptr} (hc : cur ∈ s.tasks)
    (h : ∀ t ∈ s.tasks, s.pgrp t ≠ s.pid cur) : s.Suits cur 1 1 (s.leader cur) where
  used := by
    rintro m (rfl | rfl) <;> exact .inl hn.last
  inSession q hq _ _ h1 := absurd rfl h1
  ofOther q hq _ _ h1 := absurd rfl h1
  ofSelf q hq _ hqg _ := absurd hqg (h q hq)
  leads hl := absurd (hg.leads cur hc hl).1 (h cur hc)
  opened q hq _ := hg.opened cur hc q hq
  self h1 h2 := absurd h1.symm h2
  other q hq _ h1 h2 := absurd h1.symm h2

theorem Renumber.grouped (hn : s.Numbered) (hg : s.Grouped) (h : s.Renumber e s') (hx : ¬ s.Starves e) :
    s'.Grouped := by
  have hpid : ∀ pid l n, s.Searches pid l n → s.Searching e → pid ≠ 0 := by
    rintro pid l n hs he rfl
    exact hx ⟨he, l, n, hs⟩
  cases h with
  | keep s' h => exact hg.of_keeps h
  | search pid lastPid nextSafe h hs =>
    obtain ⟨-, -, -, hwin⟩ := hg.chosen hn h (hpid _ _ _ h hs)
    exact ⟨hwin, hg.pos, hg.distinct, hg.inSession, hg.ofNumber, hg.leads, hg.opened⟩
  | born cur p flags pid lastPid nextSafe h hs hr hp h0 =>
    obtain ⟨hpos, hu, hl, hwin⟩ := hg.chosen hn h (hpid _ _ _ h hs)
    obtain ⟨hl', hs'⟩ := last_linkChild cur p flags pid { s with lastPid := lastPid, nextSafe := nextSafe }
    refine hg.add hr.1 hp (tasks_linkChild ..) (ids_linkChild ..) (leader_linkChild ..) rfl rfl ?_ hpos hu
      (hl'.trans hl) ?_
    · cases flags.thread
      · exact .inl rfl
      · exact .inr rfl
    · rw [hl', hs']
      exact hwin
  | group cur p g h =>
    have hreg := hg.regroup (h.suits hg) h.mem
    rw [Function.update_eq_self, Function.update_eq_self] at hreg
    exact hreg
  | session cur hc h =>
    have hfail : ¬ ∃ t ∈ s.tasks, s.pgrp t = s.pid cur := by simpa using h
    rw [sysSetsid, if_neg hfail]
    exact hg.regroup (suits_session hg hc h) hc
  | daemon cur hc h =>
    have hreg := hg.regroup (suits_daemon hg hn hc h) hc
    rw [Function.update_eq_self] at hreg
    exact hreg

theorem Grouped.boot (maxThreads : ℕ) : (boot maxThreads).Grouped := by
  have hmem : ∀ a, a ∈ (Proc.boot maxThreads).tasks → a = childReaper := fun a ha => List.mem_singleton.mp ha
  refine ⟨?_, ?_, ?_, ?_, ?_, ?_, ?_⟩
  · rw [window_iff]
    intro a ha m hm hlt
    obtain rfl := hmem a ha
    have hids : (Proc.boot maxThreads).ids childReaper = ⟨1, 0, 1, 0⟩ := rfl
    have hl : (Proc.boot maxThreads).lastPid = 1 := rfl
    rw [hids] at hm
    simp only [Ids.Uses] at hm
    omega
  · intro p hp
    rw [hmem p hp]
    exact Nat.one_pos
  · intro p hp q hq _
    rw [hmem p hp, hmem q hq]
  · intro p hp q hq _ _
    rfl
  · intro p hp q hq _ _
    rfl
  · intro p hp hl
    cases hl
  · intro p hp q hq hs
    obtain rfl := hmem p hp
    exact absurd hs (by simp [Proc.boot])

end Table

/-- A step at which no `do_fork` finds all numbers in use. -/
def SpareStep (s : Table) (e : Event) (s' : Table) : Prop := Step s e s' ∧ ¬ s.Starves e

theorem run_of_spare (h : Run SpareStep (boot maxThreads) es s) : Run Step (boot maxThreads) es s := by
  induction h with
  | nil => exact .nil
  | snoc _ he ih => exact ih.snoc he.1

theorem run_grouped (h : Run SpareStep (boot maxThreads) es s) : s.Grouped := by
  have hrun : s.Grouped ∧ s.Wf ∧ s.Numbered := by
    refine h.invariant (P := fun s => s.Grouped ∧ s.Wf ∧ s.Numbered) ⟨.boot _, .boot _, .boot _⟩ ?_
    rintro t e u ⟨hg, hw, hn⟩ ⟨⟨he, hstep⟩, hx⟩
    obtain ⟨v, hv, hvw, hren⟩ := Table.step_spec hw hn he
    obtain rfl := Option.some.inj (hv.symm.trans hstep)
    exact ⟨hren.grouped hn hg hx, hvw, hren.numbered hn⟩
  exact hrun.1

/-- A table of `n` tasks uses at most `4 * n` numbers. -/
theorem card_used_le (s : Table) {S : Finset ℕ} (h : ∀ n ∈ S, ∃ p ∈ s.tasks, (s.ids p).Uses n) :
    S.card ≤ 4 * s.tasks.length := by
  have hsub : S ⊆ (s.tasks.flatMap fun p => [s.pid p, s.pgrp p, s.tgid p, s.session p]).toFinset := by
    intro n hn
    obtain ⟨p, hp, hu⟩ := h n hn
    rw [List.mem_toFinset, List.mem_flatMap]
    refine ⟨p, hp, ?_⟩
    rcases hu with rfl | rfl | rfl | rfl <;> simp [Table.ids]
  refine (Finset.card_le_card hsub).trans ((List.toFinset_card_le _).trans ?_)
  rw [List.length_flatMap]
  simp [mul_comm]

theorem not_starves (hw : s.Wf) (hn : s.Numbered) (hg : s.Grouped) (hm : s.maxThreads ≤ 8117) :
    ¬ s.Starves e := by
  rintro ⟨hs, l, n, hsearch⟩
  have hlt : s.nrThreads < s.maxThreads := by
    cases e with
    | fork cur p flags input =>
      by_contra hfull
      simp only [Table.Searching, Table.forkRefusal] at hs
      split_ifs at hs with h1 h2 h3 h4 h5
      exact hfull (not_le.mp h5)
    | _ => exact hs.elim
  obtain ⟨r, hr, -, hspec⟩ := hn.search
  obtain rfl := Option.some.inj (hr.symm.trans hsearch)
  rcases hspec (.inl hg.window) with hc | hx
  · exact absurd hc.pos (lt_irrefl 0)
  · have hcard := card_used_le s (S := (Finset.Ico 300 pidMax).erase s.lastPid) (fun m hm => by
      obtain ⟨hne, hm⟩ := Finset.mem_erase.mp hm
      obtain ⟨h300, hmax⟩ := Finset.mem_Ico.mp hm
      obtain ⟨t, ht, hu⟩ := hx.used m h300 hmax hne
      obtain ⟨p, hp, rfl⟩ := List.mem_map.mp ht
      exact ⟨p, hp, hu⟩)
    have hle := Finset.pred_card_le_card_erase (s := Finset.Ico 300 pidMax) (a := s.lastPid)
    rw [Nat.card_Ico] at hle
    have hcount := hw.count
    have hpm : pidMax = 0x8000 := rfl
    omega

/-- With at most 8117 threads the numbers never run out. -/
theorem run_spare_of_le (hm : maxThreads ≤ 8117) (h : Run Step (boot maxThreads) es s) :
    Run SpareStep (boot maxThreads) es s := by
  induction h with
  | nil => exact .nil
  | snoc hrun he ih =>
    obtain ⟨hw, hn, hmax⟩ := run_wf hrun
    exact ih.snoc ⟨he, not_starves hw hn (run_grouped ih) (hmax ▸ hm)⟩

end OperationSystems.Proc
