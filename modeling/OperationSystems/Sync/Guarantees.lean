import OperationSystems.Sync.Counting

/-!
# The semaphore counts and loses no wakeup

This holds of the object that the default constructor builds. The constructor
with a value leaves the mutex and the condition of its object as they were.
-/

namespace OperationSystems.Sync

open OperationSystems.Transition

variable {κ : Type*} [DecidableEq κ] {s t : Semaphore κ} {k : κ} {pc pc' : Pc}

namespace Inv

/-- A step of the thread that owns the mutex, which wakes nobody. -/
theorem ownerStep (hs : Inv s) (hpc : s.threads k = pc) (hin : pc.Inside)
    (hready : t.lockReady = s.lockReady ∧ t.conditionReady = s.conditionReady)
    (hthreads : t.threads = (s.setThread k pc').threads)
    (howner : t.owner = s.owner ∧ pc'.Inside ∨ t.owner = none ∧ ¬ pc'.Inside)
    (hvalue : s.semValue = s.ups - s.downs + pc.pending → t.semValue = t.ups - t.downs + pc'.pending)
    (hnonneg : 0 ≤ t.semValue) (hbounded : t.semValue ≤ intMax)
    (hpositive : pc' = .decrease → 0 < t.semValue) (hwait : pc' = .wait → t.semValue ≤ 0)
    (hstay : pc' ≠ .wait → t.semValue + pc.answers ≤ s.semValue + pc'.answers) : Inv t := by
  have hothers : ∀ l, l ≠ k → t.threads l = s.threads l := fun l hl =>
    hthreads ▸ setThread_others s pc' hl
  obtain rfl : t.threads k = pc' := hthreads ▸ setThread_same s k pc'
  subst hpc
  have hown := (hs.owner k).mp hin
  have hholder := holder_owner hown
  have hwoken : (s.threads k).woken = 0 := by
    cases h : s.threads k <;> rw [h] at hin <;> first | rfl | exact hin.elim
  refine hs.move (.inl hown) hready (fun l hl hin => hothers l hl ▸ hin) ?_
    (hvalue (hholder ▸ hs.value)) hnonneg hbounded hpositive fun hanswers => ?_
  · exact howner.imp (fun h => ⟨h.1.trans hown, h.2⟩) id
  · refine hs.covers_of_move hothers (fun hw => ?_) fun hw => ?_
    · rw [hanswers, hw]
      exact hwait hw
    · rw [hanswers, hholder, hwoken, add_zero]
      exact hstay hw

/-- A thread takes the mutex. -/
theorem acquire (hs : Inv s) (h : s.acquire k pc = some t) (hin : pc.Inside) (hpending : pc.pending = 0)
    (hdecrease : pc ≠ .decrease) (hwoken : (s.threads k).woken ≤ pc.answers) : Inv t := by
  unfold Semaphore.acquire at h
  split at h
  · rename_i hfree
    obtain rfl := Option.some.inj h
    have hvalue := hs.value
    have hsame := setThread_same s k pc
    rw [holder_free hfree] at hvalue
    refine hs.move (.inr hfree) ⟨rfl, rfl⟩ (fun l hl hin => ?_) (.inl ⟨rfl, by simpa using hin⟩) ?_
      hs.nonneg hs.bounded (fun h => absurd (hsame.symm.trans h) hdecrease) fun hanswers => ?_
    · simpa only [setThread_others s pc hl] using hin
    · rw [setThread_same, hpending]
      exact hvalue
    · refine hs.covers_of_move (fun l hl => setThread_others s pc hl) (fun hw => ?_) fun _ => ?_
      · rw [hsame.symm.trans hw] at hin
        exact hin.elim
      · rw [hanswers, hsame, holder_free hfree]
        exact add_le_add (by simp [Semaphore.setThread, Pc.answers]) hwoken
  · cases h

theorem threadStep (hs : Inv s) (h : s.threadStep k = some t)
    (hfit : s.threads k = .increase → s.semValue ≠ intMax) : Inv t := by
  have hnonneg := hs.nonneg
  have hbounded := hs.bounded
  unfold Semaphore.threadStep at h
  split at h
  · cases h
  · rename_i hpc
    exact hs.acquire h trivial rfl (by simp) (by rw [hpc]; exact le_rfl)
  · rename_i hpc
    obtain rfl := Option.some.inj h
    have hne := hfit hpc
    have hint : toInt (s.semValue + 1) = s.semValue + 1 := toInt_eq (by omega) (by omega)
    refine hs.ownerStep hpc trivial ⟨rfl, rfl⟩ rfl (.inl ⟨rfl, trivial⟩) (fun hvalue => ?_) ?_ ?_
      (by simp) (by simp) fun _ => ?_
    all_goals simp only [hint, Pc.pending, Pc.answers, Semaphore.setThread] at *
    all_goals omega
  · cases h
  · rename_i hpc
    obtain rfl := Option.some.inj h
    refine hs.ownerStep hpc trivial ⟨rfl, rfl⟩ rfl (.inr ⟨rfl, not_false⟩) (fun hvalue => ?_) hnonneg
      hbounded (by simp) (by simp) fun _ => le_rfl
    simp only [Pc.pending, Semaphore.setThread] at hvalue ⊢
    push_cast
    omega
  · rename_i hpc
    exact hs.acquire h trivial rfl (by simp) (by rw [hpc]; exact zero_le_one)
  · rename_i hpc
    split at h
    · rename_i hzero
      obtain rfl := Option.some.inj h
      exact hs.ownerStep hpc trivial ⟨rfl, rfl⟩ rfl (.inr ⟨rfl, not_false⟩) id hnonneg hbounded
        (by simp) (fun _ => hzero.le) (by simp)
    · rename_i hzero
      obtain rfl := Option.some.inj h
      exact hs.ownerStep hpc trivial ⟨rfl, rfl⟩ rfl (.inl ⟨rfl, trivial⟩) id hnonneg hbounded
        (fun _ => lt_of_le_of_ne hnonneg (Ne.symm hzero)) (by simp) fun _ => le_rfl
  · cases h
  · rename_i hpc
    exact hs.acquire h trivial rfl (by simp) (by rw [hpc]; exact le_rfl)
  · rename_i hpc
    obtain rfl := Option.some.inj h
    have hpos : 0 < s.semValue := hs.positive ((holder_owner ((hs.owner k).mp (hpc ▸ trivial))).trans hpc)
    have hint : toInt (s.semValue - 1) = s.semValue - 1 := toInt_eq (by omega) (by omega)
    refine hs.ownerStep hpc trivial ⟨rfl, rfl⟩ rfl (.inl ⟨rfl, trivial⟩) (fun hvalue => ?_) ?_ ?_
      (by simp) (by simp) fun _ => ?_
    all_goals simp only [hint, Pc.pending, Pc.answers, Semaphore.setThread] at *
    all_goals omega
  · rename_i hpc
    obtain rfl := Option.some.inj h
    refine hs.ownerStep hpc trivial ⟨rfl, rfl⟩ rfl (.inr ⟨rfl, not_false⟩) (fun hvalue => ?_) hnonneg
      hbounded (by simp) (by simp) fun _ => le_rfl
    simp only [Pc.pending, Semaphore.setThread] at hvalue ⊢
    push_cast
    omega

/-- What a signal does to the threads: the unit that the owner has added is covered by a woken thread. -/
theorem signalled (hs : Inv s) (hpc : s.threads k = .signal)
    (hout : ∀ l, l ≠ k → t.threads l = s.threads l ∨ t.threads l = .relock) (ht : t.threads k = .upUnlock)
    (hrest : t = { s with threads := t.threads })
    (hwoken : (∃ l, t.threads l = .wait) → ∃ w, w ≠ k ∧ s.threads w = .wait ∧ t.threads w = .relock) :
    Inv t := by
  have hown := (hs.owner k).mp (hpc ▸ trivial)
  have hvalue := hs.value
  have hready : t.lockReady = s.lockReady ∧ t.conditionReady = s.conditionReady := by
    rw [hrest]
    exact ⟨rfl, rfl⟩
  have hsem : t.semValue = s.semValue := by rw [hrest]
  rw [holder_owner hown, hpc] at hvalue
  refine hs.move (.inl hown) hready (fun l hl hin => ?_) (.inl ⟨?_, ht ▸ trivial⟩) ?_ (hsem ▸ hs.nonneg)
    (hsem ▸ hs.bounded) (by simp [ht]) fun hanswers h => ?_
  · rcases hout l hl with hl | hl
    · exact hl ▸ hin
    · rw [hl] at hin
      exact hin.elim
  · rw [hrest]
    exact hown
  · rw [ht, hrest]
    exact hvalue
  · obtain ⟨w, hwk, hw, hw'⟩ := hwoken h
    obtain ⟨W, hW, hle⟩ := hs.covered ⟨w, hw⟩
    have hmem : w ∉ W := fun hmem => by
      have hrelock := hW w hmem
      rw [hw] at hrelock
      cases hrelock
    rw [holder_owner hown, hpc] at hle
    refine ⟨insert w W, fun l hl => ?_, ?_⟩
    · rcases Finset.mem_insert.mp hl with rfl | hl
      · exact hw'
      · have hrelock := hW l hl
        have hlk : l ≠ k := by
          rintro rfl
          rw [hpc] at hrelock
          cases hrelock
        exact (hout l hlk).elim (fun h => h.trans hrelock) id
    · rw [hanswers, ht, hsem, Finset.card_insert_of_notMem hmem]
      simp only [Pc.answers] at hle ⊢
      push_cast
      omega

theorem signalStep [Fintype κ] (hs : Inv s) {woken : Option κ} (h : s.signalStep k woken = some t) : Inv t := by
  unfold Semaphore.signalStep at h
  split at h
  · rename_i w hpc
    split at h
    · rename_i hw
      obtain rfl := Option.some.inj h
      have hwk : w ≠ k := by
        rintro rfl
        rw [hpc] at hw
        cases hw
      have hw' : ((s.setThread w .relock).setThread k .upUnlock).threads w = .relock := by
        rw [setThread_others _ _ hwk, setThread_same]
      refine hs.signalled hpc (fun l hl => ?_) (setThread_same _ k .upUnlock) rfl fun _ => ⟨w, hwk, hw, hw'⟩
      by_cases hlw : l = w
      · exact .inr (hlw ▸ hw')
      · left
        rw [setThread_others _ _ hl, setThread_others _ _ hlw]
    · cases h
  · rename_i hpc
    split at h
    · rename_i hnone
      obtain rfl := Option.some.inj h
      refine hs.signalled hpc (fun l hl => .inl (setThread_others s .upUnlock hl)) (setThread_same s k .upUnlock)
        rfl fun hwait => ?_
      obtain ⟨l, hl⟩ := hwait
      by_cases hlk : l = k
      · rw [hlk, setThread_same] at hl
        cases hl
      · rw [setThread_others s _ hlk] at hl
        exact absurd hl (hnone l)
    · cases h
  · cases h

/-- A thread moves outside the mutex. -/
theorem outsideStep (hs : Inv s) (hpc : s.threads k = pc) (hout : ¬ pc.Inside) (hrelock : pc ≠ .relock)
    (hout' : ¬ pc'.Inside) (hwait : pc' ≠ .wait) : Inv (s.setThread k pc') := by
  subst hpc
  have hsame := setThread_same s k pc'
  have hothers : ∀ l, l ≠ k → (s.setThread k pc').threads l = s.threads l := fun l hl =>
    setThread_others s pc' hl
  have hholder : (s.setThread k pc').holder = s.holder := by
    cases howner : s.owner with
    | none => rw [holder_free howner, holder_free (s := s.setThread k pc') howner]
    | some l =>
      rw [holder_owner howner, holder_owner (s := s.setThread k pc') howner]
      exact hothers l fun hl => hout ((hs.owner k).mpr (hl ▸ howner))
  have hwoken : (s.threads k).woken = 0 := by
    cases h : s.threads k <;> first | rfl | exact absurd h hrelock
  refine ⟨hs.ready_congr ⟨rfl, rfl⟩, fun l => ?_, ?_, hs.nonneg, hs.bounded, ?_, ?_⟩
  · by_cases hl : l = k
    · rw [hl, hsame]
      exact iff_of_false hout' fun h => hout ((hs.owner k).mpr h)
    · rw [hothers l hl]
      exact hs.owner l
  · rw [hholder]
    exact hs.value
  · rw [hholder]
    exact hs.positive
  · refine hs.covers_of_move hothers (fun h => absurd (hsame.symm.trans h) hwait) fun _ => ?_
    rw [hholder, hwoken, add_zero]
    exact le_rfl

variable [Fintype κ]

theorem step (hs : Inv s) {e : Event κ} (h : Step s e t) (hfit : ¬ Overflows s e) : Inv t := by
  unfold Step next at h
  split at h
  · split at h
    · rename_i hpc
      exact Option.some.inj h ▸ hs.outsideStep hpc not_false (by simp) not_false (by simp)
    · cases h
  · split at h
    · rename_i hpc
      exact Option.some.inj h ▸ hs.outsideStep hpc not_false (by simp) not_false (by simp)
    · cases h
  · exact hs.threadStep h fun hpc hmax => hfit ⟨hpc, hmax⟩
  · exact hs.signalStep h
  · split at h
    · rename_i hpc
      exact Option.some.inj h ▸ hs.outsideStep hpc not_false (by simp) not_false (by simp)
    · cases h

end Inv

inductive Constructor where
  | default
  | value (val : UInt32)

namespace Constructor

/-- The object that the constructor leaves in memory that held `junk`. -/
def build (junk : ℤ) : Constructor → Semaphore κ
  | .default => (Semaphore.raw junk).construct
  | .value val => (Semaphore.raw junk).constructVal val

def initial : Constructor → ℤ
  | .default => 0
  | .value val => val.toNat

end Constructor

variable [Fintype κ]

/-- What callers may rely on, where `v` is the initial value. -/
structure Counting (v : ℤ) (s : Semaphore κ) : Prop where
  initialised : ∀ e t, Step s e t → ∀ m ∈ uses s e, s.Ready m
  nonneg : 0 ≤ s.semValue
  balanced : s.owner = none → s.semValue = v + s.ups - s.downs
  noLostWakeup : ¬ (0 < s.semValue ∧ s.owner = none ∧ (∃ k, s.threads k = .wait) ∧ ∀ k, s.threads k ≠ .relock)

/-- A step that does not increment past the largest `int`. -/
def FitStep (s : Semaphore κ) (e : Event κ) (t : Semaphore κ) : Prop := Step s e t ∧ ¬ Overflows s e

theorem Inv.counting (hs : Inv s) : Counting 0 s := by
  refine ⟨fun _ _ _ m _ => hs.ready m, hs.nonneg, fun hfree => ?_, fun h => ?_⟩
  · have hvalue := hs.value
    simp only [holder_free hfree, Pc.pending] at hvalue
    omega
  · obtain ⟨hpos, hfree, hwait, hnone⟩ := h
    obtain ⟨W, hW, hle⟩ := hs.covered hwait
    have hempty : W = ∅ := Finset.eq_empty_of_forall_notMem fun k hk => hnone k (hW k hk)
    simp only [holder_free hfree, hempty, Pc.answers, Finset.card_empty] at hle
    omega

theorem inv_run {junk : ℤ} {es : List (Event κ)} (h : Run FitStep (Constructor.default.build junk) es s) :
    Inv s :=
  h.invariant (inv_construct junk) fun _ _ _ hs he => hs.step he.1 he.2

/-- The increment of the largest `int` makes the value negative. -/
theorem overflow_negative {e : Event κ} (h : Step s e t) (hover : Overflows s e) : t.semValue < 0 := by
  cases e with
  | thread k =>
    obtain ⟨hpc, hmax⟩ := hover
    simp only [Step, next, Semaphore.threadStep, hpc, Option.some.injEq] at h
    rw [← h, hmax]
    exact (by decide : toInt (intMax + 1) < 0)
  | _ => exact hover.elim

/-- All states of a run keep the promise if and only if no step overflows. -/
theorem counting_run_iff {junk : ℤ} {es : List (Event κ)} :
    Run (fun s e t => Step s e t ∧ Counting 0 t) (Constructor.default.build junk) es t ↔
      Run FitStep (Constructor.default.build junk) es t := by
  refine ⟨fun h => ?_, fun h => ?_⟩
  · induction h with
    | nil => exact .nil
    | snoc _ he ih =>
      exact ih.snoc ⟨he.1, fun hover => absurd he.2.nonneg (overflow_negative he.1 hover).not_ge⟩
  · induction h with
    | nil => exact .nil
    | snoc hrun he ih => exact ih.snoc ⟨he.1, (inv_run (hrun.snoc he)).counting⟩

/-- The first `down()` of an object built with a value locks a mutex that nothing has initialised. -/
theorem value_not_counting (v junk : ℤ) (val : UInt32) (k : κ) :
    ¬ Counting v (((Constructor.value val).build junk : Semaphore κ).setThread k .downLock) := by
  intro h
  let s : Semaphore κ := ((Constructor.value val).build junk).setThread k .downLock
  have hlock : Step s (.thread k) { s.setThread k .test with owner := some k } := by
    simp only [Step, next, Semaphore.threadStep, s, setThread_same]
    rfl
  exact Bool.false_ne_true (h.initialised _ _ hlock .semLock (by simp [uses]))

/-- The semaphore keeps its promise, short of an overflow, if and only if it has no initial value. -/
theorem semaphore_counting_iff [Nonempty κ] (c : Constructor) (junk : ℤ) :
    (∀ es (t : Semaphore κ), Run FitStep (c.build junk) es t → Counting c.initial t) ↔ c = .default := by
  refine ⟨fun h => ?_, fun h es t hrun => ?_⟩
  · cases c with
    | default => rfl
    | value val =>
      have hcall := h [.down (Classical.arbitrary κ)] _ (Run.single ⟨rfl, not_false⟩)
      exact absurd hcall (value_not_counting _ junk val _)
  · subst h
    exact (inv_run hrun).counting

instance (s : Semaphore κ) (e : Event κ) : Decidable (Overflows s e) := by
  cases e <;> unfold Overflows <;> infer_instance

/-- One thread waits until another calls `up()`. -/
def sampleEvents : List (Event Bool) :=
  [(1, .down true), (2, .thread true), (1, .up false), (2, .thread false), (1, .signal false (some true)),
    (1, .thread false), (4, .thread true)].flatMap fun e => List.replicate e.1 e.2

theorem semaphore_counting_iff_sample : ∃ s : Semaphore Bool,
    Run FitStep (Constructor.default.build 7) sampleEvents s ∧ s.downs = 1 ∧ Counting 0 s := by
  have hdowns : (Run.exec (fun s e => if Overflows s e then none else next s e)
      (Constructor.default.build 7 : Semaphore Bool) sampleEvents).map Semaphore.downs = some 1 := by
    decide +kernel
  obtain ⟨s, hs, hret⟩ := Option.map_eq_some_iff.mp hdowns
  have hrun : Run FitStep (Constructor.default.build 7) sampleEvents s := by
    refine Run.of_exec (fun s e t h => ?_) hs
    split at h
    · cases h
    · exact ⟨h, ‹_›⟩
  exact ⟨s, hrun, hret, (semaphore_counting_iff .default 7).mpr rfl _ _ hrun⟩

theorem semaphore_not_counting : ¬ ∀ es (t : Semaphore Unit),
    Run Step ((Constructor.value 1).build 0) es t → Counting 1 t := by
  intro h
  exact value_not_counting 1 0 1 () (h [.down ()] _ (Run.single rfl))

end OperationSystems.Sync
