import OperationSystems.Restrict.Atomic
import OperationSystems.Lib.RingLog

/-!
# The log of forbidden calls

Every task has a history of the calls that its list forbade. In each state of a
run the log buffer of a task is a ring of 100 slots that holds the end of its
history. `sys_get_process_log` reads the slots of the last calls, except where
the ring has wrapped and fewer calls are asked for than lie behind its start:
there it reads from the start of the buffer.
-/

namespace OperationSystems.Restrict
open Transition RingLog

namespace Kernel
variable {k k' : Kernel} {curr t : ℕ} {pid level listSize r : ℤ} {user : ℕ → SysCallRestriction}
  {ok okLog : Bool}

section Frame

/-- The log entries in the buffers of `k` are still there. -/
structure SameLogs (k k' : Kernel) : Prop where
  next : k.nextBuffer ≤ k'.nextBuffer
  logs : ∀ b < k.nextBuffer, (k'.buffers b).bytes = (k.buffers b).bytes ∧
    (k'.buffers b).entries = (k.buffers b).entries

theorem SameLogs.refl (k : Kernel) : SameLogs k k := ⟨le_rfl, fun _ _ => ⟨rfl, rfl⟩⟩

theorem SameLogs.trans {k₁ k₂ k₃ : Kernel} (h : SameLogs k₁ k₂) (h' : SameLogs k₂ k₃) :
    SameLogs k₁ k₃ := by
  refine ⟨h.next.trans h'.next, fun b hb => ?_⟩
  obtain ⟨h1, h2⟩ := h.logs b hb
  obtain ⟨h1', h2'⟩ := h'.logs b (hb.trans_le h.next)
  exact ⟨h1'.trans h1, h2'.trans h2⟩

theorem setBuffer_logs (k : Kernel) (b c : ℕ) {v : Buffer} (hb : v.bytes = (k.buffers b).bytes)
    (he : v.entries = (k.buffers b).entries) :
    ((k.setBuffer b v).buffers c).bytes = (k.buffers c).bytes ∧
      ((k.setBuffer b v).buffers c).entries = (k.buffers c).entries := by
  by_cases hc : c = b
  · subst hc
    simp [setBuffer, hb, he]
  · simp [setBuffer, hc]

theorem copyFromUser_logs (k : Kernel) (p : Option ℕ) (user : ℕ → SysCallRestriction) (n c : ℕ) :
    ((k.copyFromUser p user n).buffers c).bytes = (k.buffers c).bytes ∧
      ((k.copyFromUser p user n).buffers c).entries = (k.buffers c).entries := by
  cases p with
  | none => exact ⟨rfl, rfl⟩
  | some b => exact setBuffer_logs k b c rfl rfl

theorem sameLogs_kfree (k : Kernel) (p : Option ℕ) : SameLogs k (k.kfree p) := by
  cases p with
  | none => exact .refl k
  | some b => exact ⟨le_rfl, fun c _ => setBuffer_logs k b c rfl rfl⟩

theorem sameLogs_kmalloc (k : Kernel) (o : ℕ × Slot) (n : ℕ) (ok : Bool) :
    SameLogs k (k.kmalloc o n ok).2 := by
  cases ok with
  | false => exact .refl k
  | true =>
    refine ⟨Nat.le_succ _, fun b hb => ?_⟩
    have hne : b ≠ k.nextBuffer := Nat.ne_of_lt hb
    simp [kmalloc, setBuffer, hne]

theorem sameLogs_allocLog (k : Kernel) (curr : ℕ) (listSize : ℤ) (okLog : Bool) :
    SameLogs k (k.allocLog curr listSize okLog).2 := by
  have hl : SameLogs k (k.allocList curr listSize true).2 :=
    (sameLogs_kfree k _).trans (sameLogs_kmalloc _ _ _ true)
  simp only [allocLog]
  split_ifs with h
  · exact hl.trans (sameLogs_kmalloc _ _ _ okLog)
  · exact hl

end Frame

def RestrictSucceeds (k : Kernel) : Event → Prop
  | .scRestrict pid level user listSize ok okLog =>
    (k.sysScRestrict pid level user listSize ok okLog).1 = 0
  | _ => True

theorem RestrictSucceeds.allocSafe
    (h : k.RestrictSucceeds (.scRestrict pid level user listSize ok okLog))
    (hc : k.restrictTarget pid level listSize = some curr) : ok = true ∧ k.AllocSafe curr ok okLog := by
  simp only [RestrictSucceeds, sysScRestrict_some hc] at h
  cases ok with
  | false => simp [replaceList_noList, enomem] at h
  | true =>
    refine ⟨rfl, by simp, fun _ hl => ?_⟩
    by_contra hok
    simp [replaceList_list, allocLog, hl, hok, kmalloc, enomem] at h

theorem RestrictSucceeds.kmallocSafe {e : Event} (h : k.RestrictSucceeds e) : k.KmallocSafe e := by
  cases e with
  | scRestrict => exact fun curr hc => (h.allocSafe hc).2
  | setProcRestriction | syscall | getProcessLog | fork | release => trivial

theorem denial_eq_none {num jiffies : ℤ} (h : (k.tasks curr).restrictionsListSize ≤ 0) :
    k.denial num curr jiffies = none := by
  have hn : (k.tasks curr).restrictionsListSize.toNat = 0 := by omega
  unfold denial installed
  cases (k.tasks curr).restrictionsList <;> simp [hn, verdict]

/-- A task whose log shows the end of its history. -/
structure Shows (k : Kernel) (t : Task) (log : List ForbiddenActivityInfo) : Prop where
  unlogged : t.logList = none → t.restrictionsListSize ≤ 0 ∧ log = []
  bytes : ∀ c, t.logList = some c → restListSize * sizeofFai ≤ (k.buffers c).bytes
  size : log.length < 2 ^ 31 → t.logListSize = log.length
  entries : log.length < 2 ^ 31 → ∀ c, t.logList = some c →
    Holds restListSize (k.buffers c).entries log

/-- A record at the place that `syscall_check` computes with the remainder of C. -/
theorem Shows.push {log : List ForbiddenActivityInfo} {c : ℕ} (h : k.Shows (k.tasks curr) log)
    (hc : (k.tasks curr).logList = some c) (v : ForbiddenActivityInfo) :
    Kernel.Shows
      (k.setBuffer c { k.buffers c with
        entries := Function.update (k.buffers c).entries
          ((k.tasks curr).logListSize.tmod 100).toNat v })
      { k.tasks curr with logListSize := wrapInt ((k.tasks curr).logListSize + 1) } (log ++ [v]) := by
  refine ⟨by simp [hc], fun c' hc' => ?_, fun hlt => ?_, fun hlt c' hc' => ?_⟩
  · obtain rfl : c = c' := by simpa [hc] using hc'
    simpa [setBuffer] using h.bytes c hc
  · rw [List.length_append, List.length_singleton] at hlt ⊢
    rw [h.size (by omega), wrapInt, Int.bmod_eq_of_le (by omega) (by omega)]
    simp
  · rw [List.length_append, List.length_singleton] at hlt
    obtain rfl : c = c' := by simpa [hc] using hc'
    have hslot : ((k.tasks curr).logListSize.tmod 100).toNat = log.length % restListSize := by
      rw [h.size (by omega)]
      exact congrArg Int.toNat (Int.ofNat_tmod log.length 100).symm
    rw [hslot]
    simpa [setBuffer] using (h.entries (by omega) c hc).push v

theorem Shows.frame {v : Task} {log : List ForbiddenActivityInfo} (h : k.Shows v log)
    (hc : ∀ c, v.logList = some c → (k'.buffers c).bytes = (k.buffers c).bytes ∧
      (k'.buffers c).entries = (k.buffers c).entries) : k'.Shows v log := by
  refine ⟨h.unlogged, fun c hv => ?_, h.size, fun hlt c hv => ?_⟩
  · rw [(hc c hv).1]
    exact h.bytes c hv
  · rw [(hc c hv).2]
    exact h.entries hlt c hv

theorem Shows.sameLogs {log : List ForbiddenActivityInfo} (h : k.Shows (k.tasks t) log)
    (ho : k.Owned) (ha : k.Alive t) (hs : SameLogs k k') : k'.Shows (k.tasks t) log :=
  h.frame fun c hv => hs.logs c (ho.holds.held (t, .logList) c ⟨ha, hv⟩).1

/-- After the task `curr` was rewritten, it is enough to look at `curr` and at the others. -/
theorem shows_setTask {k₁ : Kernel} {v : Task} {log : List ForbiddenActivityInfo}
    (hs : SameTasks k k₁) (hn : t = curr → k₁.Shows v log)
    (ho : t ≠ curr → k.Alive t → k₁.Shows (k.tasks t) log) (ha : (k₁.setTask curr v).Alive t) :
    (k₁.setTask curr v).Shows ((k₁.setTask curr v).tasks t) log := by
  by_cases ht : t = curr
  · subst ht
    rw [tasks_setTask_self]
    exact (hn rfl).frame fun _ _ => ⟨rfl, rfl⟩
  · have hsame : (k₁.setTask curr v).tasks t = k.tasks t := by simp [setTask, ht, hs.tasks]
    have ha : k.Alive t := by
      rw [Alive, hsame] at ha
      rw [Alive, ← hs.pidHash]
      exact ha
    rw [hsame]
    exact (ho ht ha).frame fun _ _ => ⟨rfl, rfl⟩

/-- The log of a task after a successful call is its old one or a new empty one. -/
theorem shows_allocLog {log : List ForbiddenActivityInfo} (hs : k.Sound) (ha : k.Alive curr)
    (h : k.Shows (k.tasks curr) log) (hok : k.LogAllocated curr true okLog) {v : Task}
    (hlist : v.logList = (k.allocLog curr listSize okLog).1)
    (hsize : v.logListSize = (k.tasks curr).logListSize) :
    (k.allocLog curr listSize okLog).2.Shows v log := by
  cases hl : (k.tasks curr).logList with
  | none =>
    obtain ⟨-, rfl⟩ := h.unlogged hl
    obtain rfl := hok rfl hl
    have h0 := (hs.sized curr ha).logList hl
    have hlist' : v.logList = some (k.allocList curr listSize true).2.nextBuffer := by
      simp [hlist, allocLog, hl, kmalloc]
    refine ⟨by simp [hlist'], fun c hc => ?_, fun _ => by simp [hsize, h0], fun _ c _ => Holds.nil _ _⟩
    obtain rfl : (k.allocList curr listSize true).2.nextBuffer = c := by simpa [hlist'] using hc
    simp [allocLog, hl, kmalloc, setBuffer]
  | some c =>
    have hsame := h.sameLogs hs.owned ha (sameLogs_allocLog k curr listSize okLog)
    have hlist' : v.logList = (k.tasks curr).logList := by simp [hlist, allocLog, hl]
    refine ⟨by simp [hlist', hl], ?_, ?_, ?_⟩
    · rw [hlist']
      exact hsame.bytes
    · rw [hsize]
      exact hsame.size
    · rw [hlist']
      exact hsame.entries

end Kernel

/-- A kernel and, for each task, the calls that its list forbade so far. -/
structure Logged where
  kernel : Kernel
  denials : ℕ → List ForbiddenActivityInfo

namespace Logged

/-- The histories after an event: a forbidden call is added to its task, a child starts anew. -/
def record (s : Logged) : Event → ℕ → List ForbiddenActivityInfo
  | .syscall num curr jiffies =>
    Function.update s.denials curr
      (s.denials curr ++ (s.kernel.denial num curr jiffies).toList)
  | .fork _ (some _) => Function.update s.denials s.kernel.nextTask []
  | _ => s.denials

/-- Steps in which no call of `sys_sc_restrict` fails. -/
def Step (s : Logged) (e : Event) (s' : Logged) : Prop :=
  s.kernel.RestrictSucceeds e ∧ s.kernel.Step e s'.kernel ∧ s'.denials = s.record e

structure Faithful (s : Logged) : Prop where
  sound : s.kernel.Sound
  shows : ∀ t, s.kernel.Alive t → s.kernel.Shows (s.kernel.tasks t) (s.denials t)

namespace Faithful
variable {s s' : Logged} {k' : Kernel} {curr t : ℕ} {pid level listSize num jiffies r : ℤ}
  {user : ℕ → SysCallRestriction} {ok okLog : Bool}

theorem sysScRestrict (hf : s.Faithful)
    (h : s.kernel.RestrictSucceeds (.scRestrict pid level user listSize ok okLog))
    (ha : (s.kernel.sysScRestrict pid level user listSize ok okLog).2.Alive t) :
    (s.kernel.sysScRestrict pid level user listSize ok okLog).2.Shows
      ((s.kernel.sysScRestrict pid level user listSize ok okLog).2.tasks t) (s.denials t) := by
  cases hc : s.kernel.restrictTarget pid level listSize with
  | none =>
    obtain ⟨e, -, heq⟩ := Kernel.sysScRestrict_none hc
    rw [heq] at ha ⊢
    exact hf.shows t ha
  | some curr =>
    have hcurr := Kernel.alive_restrictTarget hf.sound.owned hc
    obtain ⟨rfl, -, hok⟩ := h.allocSafe hc
    rw [Kernel.sysScRestrict_some hc, Kernel.replaceList_list,
      if_neg (Kernel.allocLog_ne_none hok)] at ha ⊢
    refine Kernel.shows_setTask ((Kernel.sameTasks_allocLog _ _ _ _).trans
      (Kernel.sameTasks_copyFromUser _ _ _ _)) ?_ ?_ ha
    · rintro rfl
      refine (Kernel.shows_allocLog hf.sound hcurr (hf.shows t hcurr) hok ?_ ?_).frame
        fun c _ => Kernel.copyFromUser_logs _ _ _ _ c <;> rfl
    · intro ht ha
      exact ((hf.shows t ha).sameLogs hf.sound.owned ha
        (Kernel.sameLogs_allocLog _ _ _ _)).frame fun c _ => Kernel.copyFromUser_logs _ _ _ _ c

theorem sysSetProcRestriction (hf : s.Faithful)
    (ha : (s.kernel.sysSetProcRestriction pid level).2.Alive t) :
    (s.kernel.sysSetProcRestriction pid level).2.Shows
      ((s.kernel.sysSetProcRestriction pid level).2.tasks t) (s.denials t) := by
  unfold Kernel.sysSetProcRestriction at ha ⊢
  cases hcurr : s.kernel.findTaskByPid pid with
  | none =>
    simp only [hcurr, ite_self] at ha ⊢
    exact hf.shows t ha
  | some curr =>
    have hc : s.kernel.Alive curr := by
      rw [Kernel.Alive, (hf.sound.owned.hashed _ _ hcurr).1]
      exact hcurr
    simp only [hcurr] at ha ⊢
    split_ifs at ha ⊢ with hpid hlevel
    · exact hf.shows t ha
    · exact hf.shows t ha
    · refine Kernel.shows_setTask ⟨rfl, rfl, rfl⟩ ?_ (fun _ => hf.shows t) ha
      rintro rfl
      have h := hf.shows t hc
      exact ⟨h.unlogged, h.bytes, h.size, h.entries⟩


theorem syscall (hf : s.Faithful) (hc : s.kernel.Alive curr)
    (h : s.kernel.syscallCheck num curr jiffies = .ok (r, k')) (ha : k'.Alive t) :
    k'.Shows (k'.tasks t) (s.record (.syscall num curr jiffies) t) := by
  have hshow := hf.shows curr hc
  rcases Kernel.syscallCheck_ok h with hp | ⟨-, c, v, hd, hlog, -, rfl⟩
  · have hrec : s.record (.syscall num curr jiffies) = s.denials := by
      have hnone : s.kernel.denial num curr jiffies = none := by
        rcases hp.reason with hd | hlog
        · exact hd
        · exact Kernel.denial_eq_none (hshow.unlogged hlog).1
      simp [record, hnone]
    rw [hp.same] at ha ⊢
    rw [hrec]
    exact hf.shows t ha
  · refine Kernel.shows_setTask ⟨rfl, rfl, rfl⟩ ?_ ?_ ha
    · rintro rfl
      have hrec : s.record (.syscall num t jiffies) t = s.denials t ++ [v] := by simp [record, hd]
      rw [hrec]
      exact hshow.push hlog v
    · intro ht ha
      have hrec : s.record (.syscall num curr jiffies) t = s.denials t := by simp [record, ht]
      rw [hrec]
      refine (hf.shows t ha).frame fun c' hc' => ?_
      -- the logs of two tasks are in different buffers
      have hne : c' ≠ c := by
        rintro rfl
        exact ht (Prod.mk.inj (hf.sound.owned.holds.holder_unique (s := (t, .logList))
          (t := (curr, .logList)) ⟨ha, hc'⟩ ⟨hc, hlog⟩)).1
      simp [Kernel.setBuffer, hne]

theorem fork {newPid : Option ℕ} (hf : s.Faithful) (ha : (s.kernel.doFork curr newPid).Alive t) :
    (s.kernel.doFork curr newPid).Shows ((s.kernel.doFork curr newPid).tasks t)
      (s.record (.fork curr newPid) t) := by
  rcases Kernel.alive_doFork hf.sound.owned ha with ⟨ht, hold, hsame⟩ | ⟨⟨pid, rfl⟩, rfl, h1, h2, h3⟩
  · have hrec : s.record (.fork curr newPid) t = s.denials t := by
      cases newPid <;> simp [record, ht]
    rw [hsame, hrec]
    refine (hf.shows t hold).frame fun c _ => ?_
    cases newPid <;> exact ⟨rfl, rfl⟩
  · have hrec : s.record (.fork curr (some pid)) s.kernel.nextTask = [] := by simp [record]
    rw [hrec]
    refine ⟨fun _ => ⟨Int.le_of_eq h1, rfl⟩, fun c hc => ?_, fun _ => by simp [h3], fun _ c _ => Holds.nil _ _⟩
    rw [h2] at hc
    cases hc

theorem release (hf : s.Faithful) (ha : (s.kernel.releaseTask curr).Alive t) :
    (s.kernel.releaseTask curr).Shows ((s.kernel.releaseTask curr).tasks t) (s.denials t) := by
  obtain ⟨hold, hsame⟩ := Kernel.alive_releaseTask hf.sound.owned ha
  rw [hsame]
  refine ((hf.shows t hold).sameLogs hf.sound.owned hold ((Kernel.sameLogs_kfree _ _).trans
    (Kernel.sameLogs_kfree _ _))).frame fun c _ => ⟨rfl, rfl⟩

end Faithful

theorem faithful_step {s s' : Logged} {e : Event} (hf : s.Faithful) (h : s.Step e s') :
    s'.Faithful := by
  obtain ⟨he, h, hd⟩ := h
  refine ⟨Kernel.sound_step hf.sound he.kmallocSafe h, fun t ha => ?_⟩
  rw [hd]
  cases h.move with
  | scRestrict pid level user listSize ok okLog hk =>
    rw [hk] at ha ⊢
    exact hf.sysScRestrict he ha
  | setProcRestriction pid level hk =>
    rw [hk] at ha ⊢
    exact hf.sysSetProcRestriction ha
  | syscall num curr jiffies r hc hk => exact hf.syscall hc hk ha
  | getProcessLog pid size ok hk =>
    rw [hk] at ha ⊢
    exact hf.shows t ha
  | fork current newPid hc hfree hk =>
    rw [hk] at ha ⊢
    exact hf.fork ha
  | release t' hc hk =>
    rw [hk] at ha ⊢
    exact hf.release ha

end Logged

end OperationSystems.Restrict
