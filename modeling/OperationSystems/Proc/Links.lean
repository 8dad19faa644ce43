import Mathlib
import OperationSystems.Lib.Rings
import OperationSystems.Proc.Model

/-!
# The links between tasks

The children of a task form a list headed by its `p_cptr`, and the tasks of one
hash value a list headed by their bucket. What `SET_LINKS`, `REMOVE_LINKS`,
`hash_pid`, `unhash_pid` and the loop of `exit_notify` do to these lists.
-/

namespace OperationSystems.Proc

open Function (update)
open HeadedList Transition Rings

variable {s : Table} {p cur : Ptr} {q : Ptr → List Ptr} {h : ℕ → List Ptr} {T : List Ptr}

theorem store_apply {β : Type*} (f : Ptr → β) (o : Option Ptr) (v : β) (a : Ptr) :
    store f o v a = if o = some a then v else f a := by
  cases o with
  | none => rfl
  | some b =>
    by_cases hab : a = b
    · simp [store, hab]
    · simp [store, hab, Ne.symm hab]

namespace Table

def familyRead (s : Table) : Ptr ⊕ Ptr → Option Ptr
  | .inl k => s.cptr k
  | .inr a => s.osptr a

def familyBack (s : Table) (a : Ptr) : Ptr ⊕ Ptr :=
  match s.ysptr a with
  | some y => .inr y
  | none => .inl (s.pptr a)

/-- The children of every task, the youngest first. -/
structure Families (s : Table) (q : Ptr → List Ptr) : Prop where
  holds : Holds s.familyRead s.familyBack q
  mem : ∀ k a, a ∈ q k ↔ a ∈ s.tasks ∧ s.pptr a = k

/-- The tasks of `T` in their buckets. -/
structure Hashed (s : Table) (T : List Ptr) (h : ℕ → List Ptr) : Prop where
  holds : Holds s.hashRead s.pidhashPprev h
  mem : ∀ b a, a ∈ h b ↔ a ∈ T ∧ pidHashfn (s.pid a) = b

theorem familyRead_inl (s : Table) (k : Ptr) : s.familyRead (.inl k) = s.cptr k := rfl

theorem familyRead_inr (s : Table) (a : Ptr) : s.familyRead (.inr a) = s.osptr a := rfl

theorem familyBack_eq (s : Table) (a : Ptr) :
    s.familyBack a = (s.ysptr a).elim (.inl (s.pptr a)) .inr := by
  rw [familyBack]
  cases s.ysptr a <;> rfl

/-- A task whose younger sibling changes, and no other link to it. -/
theorem familyBack_congr {s' : Table} {a : Ptr} (hy : s'.ysptr a = s.ysptr a) (hp : s'.pptr a = s.pptr a) :
    s'.familyBack a = s.familyBack a := by
  rw [familyBack_eq, familyBack_eq, hy, hp]

namespace Families

theorem read_head (hf : s.Families q) (k : Ptr) : s.cptr k = (q k).head? := (hf.holds k).read_eq

theorem not_mem (hf : s.Families q) (hp : p ∉ s.tasks) (k : Ptr) : p ∉ q k :=
  fun hm => hp ((hf.mem k p).mp hm).1

theorem congr {s' : Table} (hf : s.Families q) (ht : ∀ a, a ∈ s'.tasks ↔ a ∈ s.tasks)
    (hc : s'.cptr = s.cptr) (ho : s'.osptr = s.osptr) (hy : s'.ysptr = s.ysptr) (hp : s'.pptr = s.pptr) :
    s'.Families q := by
  refine ⟨?_, ?_⟩
  · have hr : s'.familyRead = s.familyRead := by
      funext c
      cases c <;> simp only [familyRead, hc, ho]
    have hb : s'.familyBack = s.familyBack := by
      funext a
      rw [familyBack_eq, familyBack_eq, hy, hp]
    rw [hr, hb]
    exact hf.holds
  · intro k a
    rw [ht a, hp]
    exact hf.mem k a

/-- A `task_struct` outside the table may get any links to its parent and its siblings. -/
theorem outside {s' : Table} (hf : s.Families q) (hp : p ∉ s.tasks) (ht : ∀ a, a ∈ s'.tasks ↔ a ∈ s.tasks)
    (hc : s'.cptr = s.cptr) (ho : ∀ a, a ≠ p → s'.osptr a = s.osptr a)
    (hy : ∀ a, a ≠ p → s'.ysptr a = s.ysptr a) (hpp : ∀ a, a ≠ p → s'.pptr a = s.pptr a) :
    s'.Families q := by
  have hne : ∀ k, ∀ a ∈ q k, a ≠ p := fun k a ha he => hf.not_mem hp k (he ▸ ha)
  refine ⟨?_, ?_⟩
  · refine hf.holds.congr ?_ ?_
    · intro k c hm
      rcases List.mem_cons.mp hm with rfl | hm
      · exact congrFun hc k
      · obtain ⟨a, ha, rfl⟩ := List.mem_map.mp hm
        exact ho a (hne k a ha)
    · intro k a ha
      exact familyBack_congr (hy a (hne k a ha)) (hpp a (hne k a ha))
  · intro k a
    by_cases ha : a = p
    · subst ha
      simp [ht, hp, hf.not_mem hp k]
    · rw [ht, hpp a ha, hf.mem k a]

theorem setLinks (hf : s.Families q) (hp : p ∉ s.tasks) :
    (s.setLinks p).Families (update q (s.pptr p) (p :: q (s.pptr p))) := by
  have hhead : ∀ b, s.cptr (s.pptr p) = some b → b ≠ p := by
    rintro b hb rfl
    rw [hf.read_head] at hb
    exact hf.not_mem hp _ (List.mem_of_head? hb)
  refine ⟨?_, ?_⟩
  · refine hf.holds.push (fun j => hf.not_mem hp j) ?_ ?_ ?_ ?_ ?_ ?_
    · simp [familyRead, Table.setLinks]
    · simp [familyRead, Table.setLinks]
    · rintro (k | a) hk ha
      · have hk : k ≠ s.pptr p := fun he => hk (congrArg Sum.inl he)
        simp [familyRead, Table.setLinks, hk]
      · have ha : a ≠ p := fun he => ha (congrArg Sum.inr he)
        simp [familyRead, Table.setLinks, ha]
    · have hpy : (s.setLinks p).ysptr p = none := by
        simp only [Table.setLinks, store_apply, Function.update_self]
        rw [if_neg fun he => hhead p he rfl]
      rw [familyBack_eq, hpy]
      rfl
    · intro b hb
      rw [familyRead_inl] at hb
      have hby : (s.setLinks p).ysptr b = some p := by
        simp only [Table.setLinks, store_apply]
        rw [if_pos hb]
      rw [familyBack_eq, hby]
      rfl
    · intro b hbp hb
      rw [familyRead_inl] at hb
      refine familyBack_congr ?_ rfl
      simp only [Table.setLinks, store_apply]
      rw [if_neg hb, Function.update_of_ne hbp]
  · intro k a
    have hmem : a ∈ (s.setLinks p).tasks ↔ a ∈ s.tasks ∨ a = p := by simp [Table.setLinks]
    rw [hmem, show (s.setLinks p).pptr = s.pptr from rfl]
    by_cases hk : k = s.pptr p
    · subst hk
      rw [Function.update_self, List.mem_cons, hf.mem]
      by_cases ha : a = p
      · simp [ha]
      · simp [ha]
    · rw [Function.update_of_ne hk, hf.mem]
      by_cases ha : a = p
      · simp [ha, Ne.symm hk]
      · simp [ha]

theorem removeLinks (hf : s.Families q) (hn : s.tasks.Nodup) (hp : p ∈ s.tasks) :
    (s.removeLinks p).Families (update q (s.pptr p) ((q (s.pptr p)).erase p)) := by
  have hpq : p ∈ q (s.pptr p) := (hf.mem _ p).mpr ⟨hp, rfl⟩
  have hy : (s.removeLinks p).ysptr = store s.ysptr (s.osptr p) (s.ysptr p) := by
    rw [Table.removeLinks]
    split <;> rfl
  have hpp : (s.removeLinks p).pptr = s.pptr := by
    rw [Table.removeLinks]
    split <;> rfl
  have ht : (s.removeLinks p).tasks = s.tasks.erase p := by
    rw [Table.removeLinks]
    split <;> rfl
  have hyp : store s.ysptr (s.osptr p) (s.ysptr p) p = s.ysptr p := by
    rw [store_apply]
    split <;> rfl
  refine ⟨?_, ?_⟩
  · refine hf.holds.remove hpq ?_ ?_ ?_ ?_
    · rw [familyBack_eq, familyRead_inr, Table.removeLinks]
      simp only [hyp]
      cases s.ysptr p <;> simp [familyRead]
    · intro c hc hcp
      rw [familyBack_eq] at hc
      rw [Table.removeLinks]
      simp only [hyp]
      cases hyo : s.ysptr p with
      | none =>
        rw [hyo] at hc
        cases c with
        | inl k =>
          have hk : k ≠ s.pptr p := fun he => hc (congrArg Sum.inl he)
          simp [familyRead, hk]
        | inr a => rfl
      | some y =>
        rw [hyo] at hc
        cases c with
        | inl k => rfl
        | inr a =>
          have ha : a ≠ y := fun he => hc (congrArg Sum.inr he)
          simp [familyRead, ha]
    · intro b hb
      have hbk := ((hf.mem _ b).mp (hf.holds.next_mem hpq hb)).2
      rw [familyRead_inr] at hb
      rw [familyBack_eq, familyBack_eq, hy, hpp, store_apply, if_pos hb, hbk]
    · intro b _ hb
      rw [familyRead_inr] at hb
      refine familyBack_congr ?_ (congrFun hpp b)
      rw [hy, store_apply, if_neg hb]
  · intro k a
    rw [ht, hpp, hn.mem_erase_iff]
    by_cases hk : k = s.pptr p
    · subst hk
      rw [Function.update_self, (hf.holds.nodup _).mem_erase_iff, hf.mem]
      tauto
    · rw [Function.update_of_ne hk, hf.mem]
      constructor
      · rintro ⟨ha, rfl⟩
        exact ⟨⟨fun he => hk (he ▸ rfl), ha⟩, rfl⟩
      · rintro ⟨⟨-, ha⟩, he⟩
        exact ⟨ha, he⟩

end Families

namespace Hashed

theorem congr {s' : Table} {T' : List Ptr} (hh : s.Hashed T h) (ht : ∀ a, a ∈ T' ↔ a ∈ T)
    (hb : s'.pidhash = s.pidhash) (hn : s'.pidhashNext = s.pidhashNext)
    (hp : s'.pidhashPprev = s.pidhashPprev) (hpid : ∀ a ∈ T, s'.pid a = s.pid a) : s'.Hashed T' h := by
  refine ⟨?_, ?_⟩
  · have hr : s'.hashRead = s.hashRead := by
      funext c
      cases c <;> simp only [hashRead, hb, hn]
    rw [hr, hp]
    exact hh.holds
  · intro b a
    rw [hh.mem, ht a]
    constructor
    · rintro ⟨ha, he⟩
      exact ⟨ha, by rw [hpid a ha, he]⟩
    · rintro ⟨ha, he⟩
      exact ⟨ha, by rw [← hpid a ha, he]⟩

theorem hashPid {T' : List Ptr} (hh : s.Hashed T h) (hp : p ∉ T) (ht : ∀ a, a ∈ T' ↔ a ∈ T ∨ a = p) :
    (s.hashPid p).Hashed T' (update h (pidHashfn (s.pid p)) (p :: h (pidHashfn (s.pid p)))) := by
  have hnot : ∀ b, p ∉ h b := fun b hm => hp ((hh.mem b p).mp hm).1
  refine ⟨?_, ?_⟩
  · refine hh.holds.push hnot ?_ ?_ ?_ ?_ ?_ ?_
    · simp [hashRead, Table.hashPid]
    · simp [hashRead, Table.hashPid]
    · rintro (b | a) hb ha
      · have hb : b ≠ pidHashfn (s.pid p) := fun he => hb (congrArg Sum.inl he)
        simp [hashRead, Table.hashPid, hb]
      · have ha : a ≠ p := fun he => ha (congrArg Sum.inr he)
        simp [hashRead, Table.hashPid, ha]
    · simp [Table.hashPid]
    · intro b hb
      have hbp : b ≠ p := by
        rintro rfl
        exact hnot _ ((hh.holds _).mem_of_read hb)
      simp only [Table.hashPid, Function.update_of_ne hbp, store_apply]
      exact if_pos hb
    · intro b hbp hb
      simp only [Table.hashPid, Function.update_of_ne hbp, store_apply]
      exact if_neg hb
  · intro b a
    rw [show (s.hashPid p).pid = s.pid from rfl, ht a]
    by_cases hb : b = pidHashfn (s.pid p)
    · subst hb
      rw [Function.update_self, List.mem_cons, hh.mem]
      by_cases ha : a = p
      · simp [ha]
      · simp [ha]
    · rw [Function.update_of_ne hb, hh.mem]
      by_cases ha : a = p
      · simp [ha, Ne.symm hb]
      · simp [ha]

theorem unhashPid (hh : s.Hashed T h) (hn : T.Nodup) (hp : p ∈ T) :
    (s.unhashPid p).Hashed (T.erase p)
      (update h (pidHashfn (s.pid p)) ((h (pidHashfn (s.pid p))).erase p)) := by
  have hph : p ∈ h (pidHashfn (s.pid p)) := (hh.mem _ p).mpr ⟨hp, rfl⟩
  have hprev : (s.unhashPid p).pidhashPprev =
      store s.pidhashPprev (s.pidhashNext p) (s.pidhashPprev p) := by
    rw [Table.unhashPid]
    split <;> rfl
  have hself : store s.pidhashPprev (s.pidhashNext p) (s.pidhashPprev p) p = s.pidhashPprev p := by
    rw [store_apply]
    split <;> rfl
  have hpid : (s.unhashPid p).pid = s.pid := by
    rw [Table.unhashPid]
    split <;> rfl
  refine ⟨?_, ?_⟩
  · refine hh.holds.remove hph ?_ ?_ ?_ ?_
    · rw [Table.unhashPid]
      simp only [hself]
      cases s.pidhashPprev p <;> simp [hashRead]
    · intro c hc hcp
      rw [Table.unhashPid]
      simp only [hself]
      cases ho : s.pidhashPprev p with
      | inl b =>
        rw [ho] at hc
        cases c with
        | inl k =>
          have hk : k ≠ b := fun he => hc (congrArg Sum.inl he)
          simp [hashRead, hk]
        | inr a => rfl
      | inr y =>
        rw [ho] at hc
        cases c with
        | inl k => rfl
        | inr a =>
          have ha : a ≠ y := fun he => hc (congrArg Sum.inr he)
          simp [hashRead, ha]
    · intro b hb
      rw [hprev, store_apply]
      exact if_pos hb
    · intro b _ hb
      rw [hprev, store_apply]
      exact if_neg hb
  · intro b a
    rw [hpid, hn.mem_erase_iff]
    by_cases hb : b = pidHashfn (s.pid p)
    · subst hb
      rw [Function.update_self, (hh.holds.nodup _).mem_erase_iff, hh.mem]
      tauto
    · rw [Function.update_of_ne hb, hh.mem]
      constructor
      · rintro ⟨ha, he⟩
        exact ⟨⟨fun hap => hb (by rw [← he, hap]), ha⟩, he⟩
      · rintro ⟨⟨-, ha⟩, he⟩
        exact ⟨ha, he⟩

/-- The search along a chain ends, with the first task of that number in it. -/
theorem find_eq (hh : s.Hashed s.tasks h) (pid : ℤ) :
    s.findTaskByPid pid = some ((h (pidHashfn pid)).find? fun p => decide ((s.pid p : ℤ) = pid)) := by
  refine (hh.holds _).search_eq _ (Nat.lt_succ_of_le ?_)
  refine (List.subperm_of_subset (hh.holds.nodup _) ?_).length_le
  intro a ha
  exact ((hh.mem _ a).mp ha).1

theorem find_spec (hh : s.Hashed s.tasks h) (pid : ℤ) :
    ∃ r, s.findTaskByPid pid = some r ∧ (∀ p, r = some p → p ∈ s.tasks ∧ (s.pid p : ℤ) = pid) ∧
      (r = none → ∀ p ∈ s.tasks, (s.pid p : ℤ) ≠ pid) := by
  refine ⟨_, hh.find_eq pid, ?_, ?_⟩
  · intro p hp
    have hm := List.mem_of_find?_eq_some hp
    exact ⟨((hh.mem _ p).mp hm).1, by simpa using List.find?_some hp⟩
  · intro hnone p hp he
    have hm : p ∈ h (pidHashfn pid) := (hh.mem _ p).mpr ⟨hp, by rw [he]⟩
    simpa [he] using List.find?_eq_none.mp hnone p hm

end Hashed

/-- The back link during the loop of `exit_notify`, where that of the first child is stale. -/
def loopBack (cur : Ptr) (s : Table) (a : Ptr) : Ptr ⊕ Ptr :=
  if s.cptr cur = some a then .inl cur else s.familyBack a

structure Moving (cur : Ptr) (s : Table) (q : Ptr → List Ptr) : Prop where
  holds : Holds s.familyRead (s.loopBack cur) q
  mem : ∀ k a, a ∈ q k ↔ a ∈ s.tasks ∧ s.pptr a = k

theorem Families.moving (hf : s.Families q) (cur : Ptr) : s.Moving cur q := by
  refine ⟨hf.holds.congr (fun _ _ _ => rfl) ?_, hf.mem⟩
  intro k a _
  rw [loopBack]
  split
  · rename_i hc
    have hs := hf.holds cur
    cases hq : q cur with
    | nil =>
      rw [hf.read_head, hq] at hc
      cases hc
    | cons b t =>
      rw [hq] at hs
      rw [hf.read_head, hq] at hc
      obtain rfl := Option.some.inj hc
      exact hs.1.2.1.symm
  · rfl

theorem Moving.families (hm : s.Moving cur q) (hc : s.cptr cur = none) : s.Families q := by
  refine ⟨hm.holds.congr (fun _ _ _ => rfl) ?_, hm.mem⟩
  intro k a _
  rw [loopBack, hc, if_neg (by simp)]

theorem Moving.moveFirst (hm : s.Moving cur q) (hp : s.cptr cur = some p) (hne : s.opptr p ≠ cur) :
    ∃ t, q cur = p :: t ∧
      (s.moveFirst cur p).Moving cur (update (update q cur t) (s.opptr p) (p :: q (s.opptr p))) := by
  have hhead := (hm.holds cur).read_eq
  rw [familyRead_inl, hp] at hhead
  obtain ⟨t, hq⟩ := List.head?_eq_some_iff.mp hhead.symm
  refine ⟨t, hq, ?_⟩
  have hpq : p ∈ q cur := hq ▸ List.mem_cons_self
  have hnd := hm.holds.nodup cur
  rw [hq, List.nodup_cons] at hnd
  have hpcur : s.pptr p = cur := ((hm.mem cur p).mp hpq).2
  have hback : s.loopBack cur p = .inl cur := by rw [loopBack, if_pos hp]
  -- first the child leaves the list of `cur`
  have hold : Holds (update s.familyRead (.inl cur) (s.osptr p))
      (fun a => if s.osptr p = some a then .inl cur else s.loopBack cur a) (update q cur t) := by
    have ht : t = (q cur).erase p := by rw [hq, List.erase_cons_head]
    rw [ht]
    refine hm.holds.remove hpq ?_ ?_ ?_ ?_
    · rw [hback, Function.update_self, familyRead_inr]
    · intro c hc _
      rw [hback] at hc
      exact Function.update_of_ne hc _ _
    · intro b hb
      rw [familyRead_inr] at hb
      rw [if_pos hb, hback]
    · intro b _ hb
      rw [familyRead_inr] at hb
      exact if_neg hb
  have hnot : ∀ j, p ∉ update q cur t j := by
    intro j
    by_cases hj : j = cur
    · rw [hj, Function.update_self]
      exact hnd.1
    · rw [Function.update_of_ne hj]
      exact fun hm' => hj (hm.holds.head_unique hm' hpq)
  have hsp : s.osptr p ≠ some p := by
    intro he
    have hs := hm.holds cur
    rw [hq] at hs
    have hd : Segment s.familyRead (s.loopBack cur) (.inr p) t := ⟨hs.1.2.2, hs.2⟩
    exact hnd.1 (hd.mem_of_read he)
  have hcp : (update s.cptr cur (s.osptr p)) (s.opptr p) = s.cptr (s.opptr p) :=
    Function.update_of_ne hne _ _
  have hcur : (s.moveFirst cur p).cptr cur = s.osptr p := by
    simp [Table.moveFirst, hne.symm]
  have hread : ∀ b, s.cptr (s.opptr p) = some b → b ≠ p ∧ s.osptr p ≠ some b := by
    intro b hb
    have hbq : b ∈ q (s.opptr p) := (hm.holds _).mem_of_read hb
    have hbcur : b ∉ q cur := fun hbc => hne (hm.holds.head_unique hbq hbc)
    refine ⟨fun he => hbcur (he ▸ hpq), fun he => hbcur (hm.holds.next_mem hpq he)⟩
  refine ⟨?_, ?_⟩
  · have hupd : q (s.opptr p) = update q cur t (s.opptr p) := (Function.update_of_ne hne _ _).symm
    rw [hupd]
    refine hold.push hnot ?_ ?_ ?_ ?_ ?_ ?_
    · simp [familyRead, Table.moveFirst]
    · simp [familyRead, Table.moveFirst, hne]
    · rintro (k | a) hk ha
      · have hk : k ≠ s.opptr p := fun he => hk (congrArg Sum.inl he)
        by_cases hkc : k = cur
        · simp [familyRead, Table.moveFirst, hkc, hne.symm]
        · simp [familyRead, Table.moveFirst, hk, hkc]
      · have ha : a ≠ p := fun he => ha (congrArg Sum.inr he)
        simp [familyRead, Table.moveFirst, ha]
    · rw [loopBack, hcur, if_neg hsp, familyBack_eq]
      have hy : (s.moveFirst cur p).ysptr p = none := by
        simp only [Table.moveFirst, store_apply, hcp, Function.update_self]
        exact if_neg fun he => (hread p he).1 rfl
      rw [hy]
      simp [Table.moveFirst]
    · intro b hb
      rw [Function.update_of_ne (by simpa using hne), familyRead_inl] at hb
      obtain ⟨hbp, hbs⟩ := hread b hb
      rw [loopBack, hcur, if_neg hbs, familyBack_eq]
      have hy : (s.moveFirst cur p).ysptr b = some p := by
        simp only [Table.moveFirst, store_apply, hcp]
        exact if_pos hb
      rw [hy]
      rfl
    · intro b hbp hb
      rw [Function.update_of_ne (by simpa using hne), familyRead_inl] at hb
      rw [loopBack, hcur]
      split
      · rfl
      · have hb2 : s.cptr cur ≠ some b := by
          rw [hp]
          exact fun he => hbp (Option.some.inj he).symm
        rw [loopBack, if_neg hb2]
        refine familyBack_congr ?_ ?_
        · simp only [Table.moveFirst, store_apply, hcp]
          rw [if_neg hb, Function.update_of_ne hbp]
        · simp [Table.moveFirst, hbp]
  · intro k a
    rw [show (s.moveFirst cur p).tasks = s.tasks from rfl]
    by_cases ha : a = p
    · subst ha
      have hpar : (s.moveFirst cur a).pptr a = s.opptr a := by simp [Table.moveFirst]
      rw [hpar]
      by_cases hk : k = s.opptr a
      · simp [hk, ((hm.mem cur a).mp hpq).1]
      · simp [hk, Ne.symm hk, hnot k]
    · have hpar : (s.moveFirst cur p).pptr a = s.pptr a := by simp [Table.moveFirst, ha]
      rw [hpar, ← hm.mem]
      by_cases hk : k = s.opptr p
      · simp [hk, ha]
      · rw [Function.update_of_ne hk]
        by_cases hkc : k = cur
        · simp [hkc, hq, ha]
        · rw [Function.update_of_ne hkc]

end Table

end OperationSystems.Proc
