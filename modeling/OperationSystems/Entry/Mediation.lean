import OperationSystems.Entry.Model
import OperationSystems.Restrict.Model

/-!
# What is dispatched was checked

The stack carries the number of the call past the check, so the direct path
dispatches the number that was checked. The traced path takes the number from
the saved frame again, after the tracer had the frame in its hands.
-/

namespace OperationSystems.Entry

/-- Every number that was dispatched had been checked and was not forbidden. -/
def Mediated (calls : List Call) : Prop :=
  ∀ n, .dispatched n ∈ calls → ∃ r, .checked n r ∈ calls ∧ r ≠ -1

namespace Cpu
variable {e : Environment} {m : Cpu}

/-- The task that the check is called for. -/
def current (m : Cpu) : Word := (m.esp - 40) &&& (-8192)

/-- The stack below the arguments of the check, with the frame of `SAVE_ALL` on top. -/
def frame (m : Cpu) (eax : Word) : List Word :=
  [m.ebx, m.ecx, m.edx, m.esi, m.edi, m.ebp, eax, m.ds, m.es, m.eax] ++ m.stack

/-- What is checked and dispatched from `system_call` on. -/
def pass (e : Environment) (m : Cpu) : List Call := ({ m with calls := [] }.systemCall e).calls

/-- What `syscall_check` answers to the number in `eax`. -/
def verdict (e : Environment) (m : Cpu) : Word := (e.syscallCheck m.eax m.current).eax

/-- Whether the test of `PT_TRACESYS` behind the check goes to `tracesys`. -/
def Traced (e : Environment) (m : Cpu) : Prop :=
  e.tskPtrace (e.arguments m.eax m.current).2 &&& 2 ≠ 0

instance : Decidable (Traced e m) :=
  inferInstanceAs (Decidable (e.tskPtrace (e.arguments m.eax m.current).2 &&& 2 ≠ 0))

/-- The saved number as the first `syscall_trace` leaves it. -/
def tracedNumber (e : Environment) (m : Cpu) : Word :=
  (e.syscallTrace (m.frame (-enosys))).2.getD ORIGEAX 0

/-- The call through the table behind a compare with `NR_syscalls`. -/
def dispatch (e : Environment) (n : Word) : List Call :=
  if e.nrSyscalls ≤ n then [] else [.dispatched n]

theorem mem_dispatch {n k : Word} :
    .dispatched n ∈ dispatch e k ↔ n = k ∧ ¬ e.nrSyscalls ≤ k := by
  unfold dispatch
  split_ifs with h
  · simp [h]
  · simp [h]

theorem checked_not_mem_dispatch {n r k : Word} : .checked n r ∉ dispatch e k := by
  unfold dispatch
  split_ifs <;> simp

theorem mediated_cons_dispatch {n r k : Word} (hr : r ≠ -1) :
    Mediated (.checked n r :: dispatch e k) ↔ e.nrSyscalls ≤ k ∨ k = n := by
  constructor
  · intro h
    by_cases hk : e.nrSyscalls ≤ k
    · exact .inl hk
    obtain ⟨r', hmem, -⟩ := h k (List.mem_cons_of_mem _ (mem_dispatch.2 ⟨rfl, hk⟩))
    rcases List.mem_cons.1 hmem with heq | hmem
    · cases heq
      exact .inr rfl
    · exact absurd hmem checked_not_mem_dispatch
  · intro h n' hmem
    rcases List.mem_cons.1 hmem with heq | hmem
    · cases heq
    obtain ⟨rfl, hk⟩ := mem_dispatch.1 hmem
    obtain rfl := h.resolve_left hk
    exact ⟨r, List.mem_cons_self .., hr⟩

theorem callSysCallTable_calls (h : ¬ e.nrSyscalls ≤ m.eax) :
    (m.callSysCallTable e).calls = m.calls ++ dispatch e m.eax := by
  rw [dispatch, if_neg h]
  rfl

theorem tracesys_calls :
    (m.tracesys e).calls =
      m.calls ++
        dispatch e ((e.syscallTrace (m.stack.set EAX (-enosys))).2.getD ORIGEAX 0) := by
  set n := (e.syscallTrace (m.stack.set EAX (-enosys))).2.getD ORIGEAX 0 with hn
  let m' := ((m.store EAX (-enosys)).callSyscallTrace e).setEax n
  have hm : m.tracesys e =
      if e.nrSyscalls ≤ m'.eax then m'.tracesysExit e
      else ((m'.callSysCallTable e).store EAX (m'.callSysCallTable e).eax).tracesysExit e := rfl
  rw [hm]
  by_cases h : e.nrSyscalls ≤ m'.eax
  · have hd : dispatch e n = [] := if_pos h
    rw [if_pos h, hd, List.append_nil]
    rfl
  · rw [if_neg h]
    exact callSysCallTable_calls h

theorem con_calls (num curr eax edx ecx : Word) (frame : List Word)
    (hs : m.stack = num :: curr :: eax :: edx :: ecx :: frame) :
    (m.con e).calls =
      m.calls ++
        if e.tskPtrace curr &&& 2 ≠ 0 then
          dispatch e ((e.syscallTrace (frame.set EAX (-enosys))).2.getD ORIGEAX 0)
        else dispatch e eax := by
  simp only [con, popl, setEax, setEbx, setEdx, setEcx, hs, List.headD_cons, List.tail_cons]
  split_ifs with htrace hnr
  · rw [tracesys_calls]
  · simp [badsys, store, dispatch, hnr]
  · simp [callSysCallTable, returned, store, dispatch, hnr]

/-- The machine when `syscall_check` returns. -/
theorem systemCall_eq :
    ∃ m' : Cpu, m'.eax = m.verdict e ∧ m'.calls = [.checked m.eax (m.verdict e)] ∧
      (∃ edx, m'.stack = (e.arguments m.eax m.current).1 :: (e.arguments m.eax m.current).2 ::
        m.eax :: edx :: m.ecx :: m.frame m.eax) ∧
      { m with calls := [] }.systemCall e =
        if m'.eax ≠ -1 then m'.con e else
          let m := m'.popl setEax
          let m := m.popl setEbx
          let m := m.popl setEax
          let m := m.popl setEdx
          let m := m.popl setEcx
          m.badsys := by
  have hesp : m.esp - 4#32 - 4#32 - 4#32 - 4#32 - 4#32 - 4#32 - 4#32 - 4#32 - 4#32 - 4#32 =
      m.esp - 40#32 := by bv_omega
  refine ⟨_, ?_, ?_, ⟨kernelDs, ?_⟩, rfl⟩
  all_goals
    simp [saveAll, pushl, setEdx, setEbx, getCurrent, callSyscallCheck, returned, store, load,
      verdict, current, frame, hesp]

theorem pass_eq :
    pass e m = .checked m.eax (m.verdict e) ::
      if m.verdict e = -1 then []
      else if m.Traced e then dispatch e (m.tracedNumber e)
      else dispatch e m.eax := by
  obtain ⟨m', heax, hcalls, ⟨edx, hstack⟩, hm'⟩ := systemCall_eq (e := e) (m := m)
  have hframe : (m.frame m.eax).set EAX (-enosys) = m.frame (-enosys) := rfl
  rw [pass, hm', heax]
  by_cases hv : m.verdict e = -1
  · simp [hv, popl, setEax, setEbx, setEdx, setEcx, badsys, store, hcalls]
  · rw [if_pos hv, if_neg hv, con_calls _ _ _ _ _ _ hstack, hcalls, hframe]
    rfl

/-- A pass is mediated if and only if it is not traced past the check, or the tracer leaves
a number that is not in the table or is the one that was checked. -/
theorem pass_mediated_iff :
    Mediated (pass e m) ↔
      m.verdict e = -1 ∨ ¬ m.Traced e ∨ e.nrSyscalls ≤ m.tracedNumber e ∨
        m.tracedNumber e = m.eax := by
  rw [pass_eq]
  by_cases hv : m.verdict e = -1
  · rw [if_pos hv]
    refine iff_of_true ?_ (.inl hv)
    intro n hn
    simp at hn
  rw [if_neg hv]
  by_cases ht : m.Traced e
  · rw [if_pos ht, mediated_cons_dispatch hv]
    simp only [hv, ht, not_true_eq_false, false_or]
  · rw [if_neg ht, mediated_cons_dispatch hv]
    exact iff_of_true (.inr rfl) (.inr (.inl ht))

/-! ## A tracer that asks for another call -/

/-- The check of `restrict.c` for the task that each address belongs to. -/
def restrictCheck (k : Restrict.Kernel) (task : Word → ℕ) (jiffies : ℤ) (num curr : Word) :
    Returned :=
  match k.syscallCheck num.toInt (task curr) jiffies with
  | .ok (r, _) => { eax := BitVec.ofInt 32 r, ecx := 0, edx := 0 }
  | .error _ => { eax := 0, ecx := 0, edx := 0 }

/-- One task at level 0 that may not call number 2. -/
def restricted : Restrict.Kernel where
  tasks _ :=
    { pid := 1, procRestrictionLevel := 0, restrictionsList := some 0, restrictionsListSize := 1
      logList := some 1, logListSize := 0 }
  pidHash pid := if pid = 1 then some 0 else none
  nextTask := 1
  buffers b :=
    { bytes := if b = 0 then 8 else 1600
      restrictions := fun _ => { syscallNum := 2, restrictionThreshold := 2 }
      entries := fun _ =>
        { syscallNum := 0, syscallRestrictionThreshold := 0, procRestrictionLevel := 0, time := 0 }
      owner := (0, if b = 0 then .restrictionsList else .logList)
      frees := 0 }
  nextBuffer := 2

/-- The task is traced, and its tracer writes 2 over the saved number. -/
def traced : Environment where
  syscallCheck := restrictCheck restricted (fun _ => 0) 0
  arguments num curr := (num, curr)
  tskPtrace _ := 3
  syscallTrace frame := ({ eax := 0, ecx := 0, edx := 0 }, frame.set ORIGEAX 2)
  sysCall _ frame := ({ eax := 1, ecx := 0, edx := 0 }, frame)
  nrSyscalls := 256

/-- A call of number 20, `getpid`. -/
def getpid : Cpu where
  eax := 20
  ebx := 0
  ecx := 0
  edx := 0
  esi := 0
  edi := 0
  ebp := 0
  esp := 0xc1001fec
  ds := 0x2b
  es := 0x2b
  stack := [0x08048000, 0x23, 0x202, 0xbffff000, 0x2b]
  calls := []

theorem pass_not_mediated :
    pass traced getpid = [.checked 20 0, .dispatched 2] ∧
      (traced.syscallCheck 2 getpid.current).eax = -1 ∧ ¬ Mediated (pass traced getpid) := by
  have hpass : pass traced getpid = [.checked 20 0, .dispatched 2] := by decide
  refine ⟨hpass, by decide, ?_⟩
  rw [hpass]
  intro h
  obtain ⟨r, hr, -⟩ := h 2 (by decide)
  simp at hr

end Cpu

end OperationSystems.Entry
