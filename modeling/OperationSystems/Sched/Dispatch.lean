import OperationSystems.Sched.Calls

/-!
# Dispatch

`schedule` takes the previous task off its queue unless it stays runnable,
exchanges the active and the expired array when the active one is empty, and
looks into the active array for a real-time task, then into the array of
`SCHED_SHORT`, then into the active array. The searches end at a queue that
holds a task.
-/

namespace OperationSystems.Sched
open Buckets PrioArray

namespace PrioArray
variable {a : PrioArray} {place : ℕ → Option ℤ} {p : ℕ} {i : ℤ}

theorem Represents.count_zero (h : a.Represents place) (hn : a.nrActive = 0) : place p = none := by
  by_contra hp
  obtain ⟨i, hi⟩ := Option.ne_none_iff_exists'.mp hp
  have hmem := h.range p i hi
  have hlen : (a.queue i).length ≤ total slots a.queue :=
    Finset.single_le_sum (f := fun k => (a.queue k).length) (fun _ _ => Nat.zero_le _) hmem
  have hpos : 0 < (a.queue i).length := List.length_pos_of_mem (h.queues.mem_iff.mpr hi)
  have hc := h.count
  omega

theorem Represents.count_eq_zero (h : a.Represents place) (hp : ∀ p, place p = none) :
    a.nrActive = 0 := by
  have hz : total slots a.queue = 0 := by
    refine Finset.sum_eq_zero fun i _ => ?_
    rw [List.length_eq_zero_iff, List.eq_nil_iff_forall_not_mem]
    exact fun q => h.queues.not_mem (hp q)
  rw [h.count, hz]
  rfl

/-- The search ends at the first queue that holds a task, and at 140 if there is none. -/
theorem Represents.findFirstBit (h : a.Represents place) :
    (∃ p l, a.queue (Runqueue.findFirstBit a.bitmap) = p :: l ∧
      place p = some (Runqueue.findFirstBit a.bitmap : ℤ) ∧ Runqueue.findFirstBit a.bitmap < 140 ∧
      ∀ q i, place q = some i → (Runqueue.findFirstBit a.bitmap : ℤ) ≤ i) ∨
    (Runqueue.findFirstBit a.bitmap = 140 ∧ ∀ p, place p = none) := by
  obtain ⟨hle, hbit, hlt⟩ := Runqueue.findFirstBit_spec h.delimiter
  set n := Runqueue.findFirstBit a.bitmap
  have hleast : ∀ q i, place q = some i → (n : ℤ) ≤ i := by
    intro q i hq
    have hi := h.range q i hq
    by_contra hni
    have hi0 : 0 ≤ i := (Finset.mem_Ico.mp hi).1
    obtain ⟨m, rfl⟩ := Int.eq_ofNat_of_zero_le hi0
    have hb := (h.bits _ hi).mpr (List.ne_nil_of_mem (h.queues.mem_iff.mpr hq))
    rw [hlt m (by omega)] at hb
    cases hb
  by_cases hn : n = 140
  · right
    refine ⟨hn, fun p => ?_⟩
    by_contra hp
    obtain ⟨i, hi⟩ := Option.ne_none_iff_exists'.mp hp
    have h1 := hleast p i hi
    have h2 := (Finset.mem_Ico.mp (h.range p i hi)).2
    simp only [maxPrio] at h2
    omega
  · left
    have hmem : (n : ℤ) ∈ slots := by
      simp only [slots, maxPrio, Finset.mem_Ico]
      omega
    obtain ⟨p, l, hq⟩ := List.exists_cons_of_ne_nil ((h.bits _ hmem).mp hbit)
    exact ⟨p, l, hq, h.queues.mem_iff.mp (by rw [hq]; exact List.mem_cons_self), by omega, hleast⟩

end PrioArray

namespace Runqueue
variable {rq : Runqueue} {p q : ℕ} {d : ℤ} {x : Option ℕ} {c : Clock} {jiffies : ℕ} {signal : Bool}

theorem nrActive_nonneg (h : rq.Inv x d) (A : Fin 3) : 0 ≤ (rq.arrays A).nrActive := by
  rw [(h.arrays A).count]
  exact Int.natCast_nonneg _

theorem running_eq (h : rq.Inv x 0) :
    rq.nrRunning = (rq.arrays rq.active).nrActive + (rq.arrays rq.expired).nrActive +
      (rq.arrays rq.shortPr).nrActive := by
  obtain ⟨h1, h2, h3⟩ := h.distinct
  have hsum : (Finset.univ : Finset (Fin 3)) = {rq.active, rq.expired, rq.shortPr} := by
    symm
    rw [← Finset.card_eq_iff_eq_univ, Finset.card_eq_three.mpr ⟨_, _, _, h1, h2, h3, rfl⟩]
    rfl
  rw [h.running, hsum, Finset.sum_insert (by simp [h1, h2]), Finset.sum_insert (by simp [h3]),
    Finset.sum_singleton]
  ring

/-- The `switch` of `schedule` leaves out at most the previous task. -/
theorem deactivatePrev_inv (h : rq.Ok) :
    ∃ d x, rq.deactivatePrev jiffies signal = some d ∧ d.Inv x 0 ∧
      (∀ p, x = some p → (d.tasks p).array = none ∧ (d.tasks p).Valid) ∧ d.idle = rq.idle := by
  set t : Task := { rq.tasks rq.curr with sleepTimestamp := jiffies } with ht
  set r := rq.setTask rq.curr t with hr
  have hok : r.Ok := ok_setAlike h ⟨rfl, rfl, rfl, rfl, rfl, rfl⟩
  have htr : r.tasks rq.curr = t := setTask_tasks_self _ _ _
  unfold deactivatePrev
  simp only [← ht, ← hr]
  split_ifs with hrun hsig
  · exact ⟨r, none, rfl, hok, (by simp), rfl⟩
  · exact ⟨_, none, rfl, ok_setState hok .running fun _ => rfl, (by simp), rfl⟩
  · have hne : rq.curr ≠ rq.idle := by
      intro he
      exact hrun ((congrArg (fun p => (r.tasks p).state) he).trans hok.idleRunning)
    obtain ⟨hh, ha⟩ := hok.curr hne
    obtain ⟨A, hA⟩ := Option.ne_none_iff_exists'.mp (ha (by simp))
    have hA' : (r.tasks rq.curr).array = some A := hA
    have hv := hok.valid rq.curr (by simp) (Or.inl hh)
    rw [hA']
    obtain ⟨n, arrays, he⟩ := deactivateTask_arrays r rq.curr A
    refine ⟨_, some rq.curr, rfl, hok.deactivateTask hA', fun p hp => ?_, (only_deactivateTask r _ A).idle⟩
    obtain rfl := Option.some.inj hp
    rw [he, setTask_tasks_self]
    exact ⟨rfl, hv.staticPrio, hv.other, hv.rt, hv.short⟩

theorem switchArrays_inv (h : rq.Inv x d) : rq.switchArrays.Inv x d := by
  unfold switchArrays
  split_ifs with hz
  · refine ⟨h.arrays, ⟨h.distinct.1.symm, h.distinct.2.2, h.distinct.2.1⟩, h.running, ?_, h.valid,
      h.known, h.idleUnhashed, h.idleRunning, h.curr⟩
    intro p A hx hA
    have hb := h.belongs p A hx hA
    refine ⟨hb.1, fun hrt => ?_⟩
    have hplace : rq.placed x rq.active p = none := (h.arrays rq.active).count_zero hz
    have hact := hb.2 hrt
    have hA' : (rq.tasks p).array = some rq.active := hA.trans (congrArg some hact)
    simp [placed, hx, hA'] at hplace
  · exact h

theorem switchArrays_same (rq : Runqueue) :
    rq.switchArrays.arrays = rq.arrays ∧ rq.switchArrays.tasks = rq.tasks ∧
      rq.switchArrays.shortPr = rq.shortPr ∧ rq.switchArrays.nrRunning = rq.nrRunning ∧
      rq.switchArrays.idle = rq.idle := by
  unfold switchArrays
  split_ifs <;> exact ⟨rfl, rfl, rfl, rfl, rfl⟩

/-- With nothing in the active array after the exchange, nothing is in the expired one. -/
theorem switchArrays_empty (hz : (rq.arrays rq.switchArrays.active).nrActive = 0) :
    (rq.arrays rq.active).nrActive = 0 ∧ (rq.arrays rq.expired).nrActive = 0 := by
  unfold switchArrays at hz
  split_ifs at hz with ha
  · exact ⟨ha, hz⟩
  · exact absurd hz ha

/-- A task is in some queue. -/
def Runnable (rq : Runqueue) (p : ℕ) : Prop := ∃ A i, p ∈ (rq.arrays A).queue i

theorem runnable_iff (h : rq.Inv x d) :
    rq.Runnable p ↔ x ≠ some p ∧ (rq.tasks p).array ≠ none := by
  constructor
  · rintro ⟨A, i, hm⟩
    have hp := (h.arrays A).queues.mem_iff.mp hm
    unfold placed at hp
    split_ifs at hp with ha
    exact ⟨ha.1, by simp [ha.2]⟩
  · rintro ⟨hx, ha⟩
    obtain ⟨A, hA⟩ := Option.ne_none_iff_exists'.mp ha
    exact ⟨A, _, (h.arrays A).queues.mem_iff.mpr (by simp [placed, hx, hA]; rfl)⟩

/-- What the dispatcher promises of the next task. -/
structure Dispatched (rq : Runqueue) (next : ℕ) : Prop where
  rt : (∃ p, rq.Runnable p ∧ (rq.tasks p).Rt) →
    ∃ m l, IsLeast {i | ∃ p, rq.Runnable p ∧ (rq.tasks p).Rt ∧ (rq.tasks p).prio = i} m ∧
      (rq.arrays rq.active).queue m = next :: l
  short : (¬ ∃ p, rq.Runnable p ∧ (rq.tasks p).Rt) →
    (∃ p, rq.Runnable p ∧ (rq.tasks p).policy = .short) →
    ∃ m l, IsLeast {i | ∃ p, rq.Runnable p ∧ (rq.tasks p).policy = .short ∧
      (rq.tasks p).shortPrio = i} m ∧ (rq.arrays rq.shortPr).queue m = next :: l
  other : (¬ ∃ p, rq.Runnable p ∧ (rq.tasks p).Rt) →
    (¬ ∃ p, rq.Runnable p ∧ (rq.tasks p).policy = .short) →
    ∃ m l, IsLeast {i | (rq.arrays rq.active).queue i ≠ []} m ∧
      (rq.arrays rq.active).queue m = next :: l

theorem placed_of_rt (h : rq.Inv x d) (hp : rq.Runnable p) (hrt : (rq.tasks p).Rt) :
    rq.placed x rq.active p = some (rq.tasks p).prio := by
  obtain ⟨hx, ha⟩ := (runnable_iff h).mp hp
  obtain ⟨A, hA⟩ := Option.ne_none_iff_exists'.mp ha
  obtain rfl := (h.belongs p A hx hA).2 hrt
  simp [placed, hx, hA, Task.queuePrio, hrt.1]

theorem placed_of_short (h : rq.Inv x d) (hp : rq.Runnable p) (hs : (rq.tasks p).policy = .short) :
    rq.placed x rq.shortPr p = some (rq.tasks p).shortPrio := by
  obtain ⟨hx, ha⟩ := (runnable_iff h).mp hp
  obtain ⟨A, hA⟩ := Option.ne_none_iff_exists'.mp ha
  obtain rfl := (h.belongs p A hx hA).1.mp hs
  simp [placed, hx, hA, Task.queuePrio, hs]

/-- What is placed in the active array below 100 is real-time. -/
theorem rt_of_placed {i : ℤ} (h : rq.Inv x d) (hp : rq.placed x rq.active p = some i)
    (hi : i < maxRtPrio) : (rq.tasks p).Rt ∧ (rq.tasks p).prio = i := by
  unfold placed at hp
  split_ifs at hp with ha
  have hs : (rq.tasks p).policy ≠ .short := fun hs =>
    h.distinct.2.1 ((h.belongs p _ ha.1 ha.2).1.mp hs)
  have hprio : (rq.tasks p).prio = i := by simpa [Task.queuePrio, hs] using hp
  exact ⟨⟨hs, hprio ▸ hi⟩, hprio⟩

theorem short_of_placed {i : ℤ} (h : rq.Inv x d) (hp : rq.placed x rq.shortPr p = some i) :
    (rq.tasks p).policy = .short ∧ (rq.tasks p).shortPrio = i := by
  unfold placed at hp
  split_ifs at hp with ha
  have hs : (rq.tasks p).policy = .short := (h.belongs p _ ha.1 ha.2).1.mpr rfl
  exact ⟨hs, by simpa [Task.queuePrio, hs] using hp⟩

theorem runnable_of_head {A : Fin 3} {i : ℤ} {l : List ℕ} (hq : (rq.arrays A).queue i = p :: l) :
    rq.Runnable p := ⟨A, i, by simp [hq]⟩

theorem dispatched_rt (h : rq.Inv x d) {n : ℕ} {l : List ℕ} (hn : (n : ℤ) < maxRtPrio)
    (hq : (rq.arrays rq.active).queue n = p :: l) (hp : rq.placed x rq.active p = some (n : ℤ))
    (hleast : ∀ q i, rq.placed x rq.active q = some i → (n : ℤ) ≤ i) : rq.Dispatched p := by
  obtain ⟨hrt, hprio⟩ := rt_of_placed h hp hn
  have hex : ∃ p, rq.Runnable p ∧ (rq.tasks p).Rt := ⟨p, runnable_of_head hq, hrt⟩
  refine ⟨fun _ => ⟨n, l, ⟨⟨p, runnable_of_head hq, hrt, hprio⟩, ?_⟩, hq⟩,
    fun hno => absurd hex hno, fun hno => absurd hex hno⟩
  rintro i ⟨q, hrun, hqrt, rfl⟩
  exact hleast q _ (placed_of_rt h hrun hqrt)

theorem dispatched_short (h : rq.Inv x d) {n : ℕ} {l : List ℕ}
    (hno : ¬ ∃ p, rq.Runnable p ∧ (rq.tasks p).Rt)
    (hq : (rq.arrays rq.shortPr).queue n = p :: l) (hp : rq.placed x rq.shortPr p = some (n : ℤ))
    (hleast : ∀ q i, rq.placed x rq.shortPr q = some i → (n : ℤ) ≤ i) : rq.Dispatched p := by
  obtain ⟨hs, hprio⟩ := short_of_placed h hp
  have hex : ∃ p, rq.Runnable p ∧ (rq.tasks p).policy = .short := ⟨p, runnable_of_head hq, hs⟩
  refine ⟨fun hrt => absurd hrt hno,
    fun _ _ => ⟨n, l, ⟨⟨p, runnable_of_head hq, hs, hprio⟩, ?_⟩, hq⟩,
    fun _ hns => absurd hex hns⟩
  rintro i ⟨q, hrun, hqs, rfl⟩
  exact hleast q _ (placed_of_short h hrun hqs)

theorem dispatched_other (h : rq.Inv x d) {n : ℕ} {l : List ℕ}
    (hno : ¬ ∃ p, rq.Runnable p ∧ (rq.tasks p).Rt)
    (hns : ¬ ∃ p, rq.Runnable p ∧ (rq.tasks p).policy = .short)
    (hq : (rq.arrays rq.active).queue n = p :: l)
    (hleast : ∀ q i, rq.placed x rq.active q = some i → (n : ℤ) ≤ i) : rq.Dispatched p := by
  refine ⟨fun hrt => absurd hrt hno, fun _ hs => absurd hs hns,
    fun _ _ => ⟨n, l, ⟨?_, fun i hi => ?_⟩, hq⟩⟩
  · change (rq.arrays rq.active).queue n ≠ []
    simp [hq]
  · obtain ⟨q, hqi⟩ := (h.arrays rq.active).queues.ne_nil_iff.mp hi
    exact hleast q i hqi

theorem pickNext_spec (h : rq.Inv x 0) (hpos : rq.nrRunning ≠ 0) :
    ∃ next A i, rq.pickNext = some (next, rq.switchArrays) ∧ rq.placed x A next = some i ∧
      rq.switchArrays.Dispatched next := by
  have hs := switchArrays_inv h
  obtain ⟨harr, htasks, hsp, -, -⟩ := switchArrays_same rq
  have hplaced : ∀ A p, rq.switchArrays.placed x A p = rq.placed x A p := by
    intro A p
    simp only [placed, htasks]
  unfold pickNext
  rw [if_neg hpos]
  set s := rq.switchArrays with hsdef
  dsimp only
  set n := findFirstBit (s.arrays s.active).bitmap with hn
  set m := findFirstBit (s.arrays s.shortPr).bitmap with hm
  have hfa := (hs.arrays s.active).findFirstBit
  have hfs := (hs.arrays s.shortPr).findFirstBit
  rw [← hn] at hfa
  rw [← hm] at hfs
  by_cases hlow : maxRtPrio ≤ (n : ℤ)
  · have hno : ¬ ∃ p, s.Runnable p ∧ (s.tasks p).Rt := by
      rintro ⟨p, hrun, hrt⟩
      have hp := placed_of_rt hs hrun hrt
      have hlt := hrt.2
      rcases hfa with ⟨-, -, -, -, -, hleast⟩ | ⟨-, hnone⟩
      · have hle := hleast p _ hp
        omega
      · rw [hnone] at hp
        cases hp
    rw [if_pos hlow]
    rcases hfs with ⟨p, l, hq, hp, hlt, hleast⟩ | ⟨hm140, hnone⟩
    · rw [if_pos (by simp only [maxPrio]; omega)]
      refine ⟨p, s.shortPr, m, ?_, (hplaced _ _).symm.trans hp, dispatched_short hs hno hq hp hleast⟩
      simp [listEntry, hlt, hq]
    · have hns : ¬ ∃ p, s.Runnable p ∧ (s.tasks p).policy = .short := by
        rintro ⟨p, hrun, hps⟩
        have hp := placed_of_short hs hrun hps
        rw [hnone] at hp
        cases hp
      have hactive : (s.arrays s.active).nrActive ≠ 0 := by
        intro hz
        rw [harr] at hz
        obtain ⟨ha, he⟩ := switchArrays_empty hz
        have hshort := (hs.arrays s.shortPr).count_eq_zero hnone
        rw [harr, hsp] at hshort
        have hrun := running_eq h
        omega
      rw [if_neg (by simp only [maxPrio]; omega)]
      rcases hfa with ⟨p, l, hq, hp, hlt, hleast⟩ | ⟨-, hnone⟩
      · refine ⟨p, s.active, n, ?_, (hplaced _ _).symm.trans hp, dispatched_other hs hno hns hq hleast⟩
        simp [listEntry, hlt, hq]
      · exact absurd ((hs.arrays s.active).count_eq_zero hnone) hactive
  · rw [if_neg hlow]
    rcases hfa with ⟨p, l, hq, hp, hlt, hleast⟩ | ⟨hn140, -⟩
    · refine ⟨p, s.active, n, ?_, (hplaced _ _).symm.trans hp,
        dispatched_rt hs (by omega) hq hp hleast⟩
      simp [listEntry, hlt, hq]
    · simp only [maxRtPrio] at hlow
      omega

theorem Inv.setCurr (h : rq.Inv x d) {next : ℕ}
    (hn : next ≠ rq.idle → rq.hashed next = true ∧ (x ≠ some next → (rq.tasks next).array ≠ none)) :
    Inv x d { rq with curr := next } :=
  ⟨h.arrays, h.distinct, h.running, h.belongs, h.valid, h.known, h.idleUnhashed, h.idleRunning, hn⟩

theorem Inv.settleAll (h : rq.Inv x d)
    (hx : ∀ p, x = some p → (rq.tasks p).array = none ∧ (rq.tasks p).Valid)
    (hc : ∀ p, x = some p → rq.curr = p → p = rq.idle) : rq.Inv none d := by
  cases x with
  | none => exact h
  | some p => exact h.settle (hx p rfl).1 (fun _ => (hx p rfl).2) (hc p rfl)

/-- The next task becomes the current one. -/
theorem ok_switchTo (h : rq.Inv x 0)
    (hx : ∀ p, x = some p → (rq.tasks p).array = none ∧ (rq.tasks p).Valid) {next : ℕ}
    (hn : next ≠ rq.idle → ∃ A i, rq.placed x A next = some i) (prev : ℕ) :
    Ok { rq.setTask prev { rq.tasks prev with needResched := false } with curr := next } := by
  have hq : next ≠ rq.idle → x ≠ some next ∧ (rq.tasks next).array ≠ none := by
    intro hi
    obtain ⟨A, i, hp⟩ := hn hi
    unfold placed at hp
    split_ifs at hp with ha
    exact ⟨ha.1, by simp [ha.2]⟩
  have hcurr := h.setCurr fun hi =>
    ⟨(h.known next (hq hi).1 (hq hi).2).resolve_right hi, fun _ => (hq hi).2⟩
  have hok := hcurr.settleAll hx fun p hp hnp => by
    obtain rfl : next = p := hnp
    by_contra hi
    exact (hq hi).1 hp
  exact ok_setAlike (p := prev) hok ⟨rfl, rfl, rfl, rfl, rfl, rfl⟩

theorem schedule_spec (h : rq.Ok) (jiffies : ℕ) (signal : Bool) :
    ∃ d r, rq.deactivatePrev jiffies signal = some d ∧ rq.schedule jiffies signal = some r ∧ r.Ok ∧
      (d.nrRunning = 0 → r.curr = d.idle) ∧
      (d.nrRunning ≠ 0 → d.pickNext = some (r.curr, d.switchArrays) ∧
        d.switchArrays.Dispatched r.curr) := by
  obtain ⟨d, x, hd, hinv, hx, -⟩ := deactivatePrev_inv h
  by_cases hz : d.nrRunning = 0
  · have hpick : d.pickNext = some (d.idle, { d with expiredTimestamp := 0 }) := by
      simp [pickNext, hz]
    have hinv' : Inv x 0 { d with expiredTimestamp := 0 } :=
      ⟨hinv.arrays, hinv.distinct, hinv.running, hinv.belongs, hinv.valid, hinv.known,
        hinv.idleUnhashed, hinv.idleRunning, hinv.curr⟩
    have hok := ok_switchTo hinv' hx (fun hi => absurd rfl hi) rq.curr
    exact ⟨d, _, hd, by simp only [schedule, hd, hpick, Option.bind_some, Option.map_some], hok,
      fun _ => rfl, fun hn => absurd hz hn⟩
  · obtain ⟨next, A, i, hpick, hplace, hdis⟩ := pickNext_spec hinv hz
    obtain ⟨-, htasks, -, -, -⟩ := switchArrays_same d
    have hok := ok_switchTo (switchArrays_inv hinv)
      (fun p hp => by
        rw [htasks]
        exact hx p hp)
      (fun _ => ⟨A, i, by simpa only [placed, htasks] using hplace⟩) rq.curr
    exact ⟨d, _, hd, by simp only [schedule, hd, hpick, Option.bind_some, Option.map_some], hok,
      fun hz' => absurd hz' hz, fun _ => ⟨hpick, hdis⟩⟩

end Runqueue

end OperationSystems.Sched
