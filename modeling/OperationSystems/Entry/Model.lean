import Mathlib

/-!
# The entry of system calls

The path from `system_call` to the call through `sys_call_table` and back to
`ret_from_sys_call`, instruction by instruction. A label is a function that goes
on from it, and a compare with the jump behind it is one test. The C functions
that are called return arbitrary values in the registers that belong to the
callee and may overwrite their own arguments; the frame that `SAVE_ALL` builds
can be rewritten while the task is stopped in `syscall_trace`. The machine
remembers what was checked and what was dispatched.
-/

namespace OperationSystems.Entry

abbrev Word := BitVec 32

inductive Call where
  | checked (num result : Word)
  | dispatched (num : Word)
deriving DecidableEq

/-- The registers and the kernel stack, its top first. -/
structure Cpu where
  eax : Word
  ebx : Word
  ecx : Word
  edx : Word
  esi : Word
  edi : Word
  ebp : Word
  esp : Word
  ds : Word
  es : Word
  stack : List Word
  calls : List Call

/-- What a C function leaves in the registers that it need not preserve. -/
structure Returned where
  eax : Word
  ecx : Word
  edx : Word

/-- The kernel around the entry: what `syscall_check` returns for its arguments and leaves in their
place on the stack, the byte that a test of `tsk_ptrace` reads, how the saved frame looks after a
stop in `syscall_trace` or after a system call, and the size of the table. -/
structure Environment where
  syscallCheck : Word → Word → Returned
  arguments : Word → Word → Word × Word
  tskPtrace : Word → BitVec 8
  syscallTrace : List Word → Returned × List Word
  sysCall : Word → List Word → Returned × List Word
  nrSyscalls : Word

def kernelDs : Word := 0x18
def enosys : Word := 38

/-- Word offsets into the saved frame. -/
def EAX : ℕ := 6
def ORIGEAX : ℕ := 9

namespace Cpu

def setEax (m : Cpu) (w : Word) : Cpu := { m with eax := w }
def setEbx (m : Cpu) (w : Word) : Cpu := { m with ebx := w }
def setEcx (m : Cpu) (w : Word) : Cpu := { m with ecx := w }
def setEdx (m : Cpu) (w : Word) : Cpu := { m with edx := w }

def pushl (m : Cpu) (w : Word) : Cpu := { m with stack := w :: m.stack, esp := m.esp - 4 }

def popl (m : Cpu) (set : Cpu → Word → Cpu) : Cpu :=
  { set m (m.stack.headD 0) with stack := m.stack.tail, esp := m.esp + 4 }

/-- A word of the stack, counted from the top. -/
def load (m : Cpu) (i : ℕ) : Word := m.stack.getD i 0

def store (m : Cpu) (i : ℕ) (w : Word) : Cpu := { m with stack := m.stack.set i w }

def returned (m : Cpu) (r : Returned) : Cpu := { m with eax := r.eax, ecx := r.ecx, edx := r.edx }

def saveAll (m : Cpu) : Cpu :=
  let m := m.pushl m.es
  let m := m.pushl m.ds
  let m := m.pushl m.eax
  let m := m.pushl m.ebp
  let m := m.pushl m.edi
  let m := m.pushl m.esi
  let m := m.pushl m.edx
  let m := m.pushl m.ecx
  let m := m.pushl m.ebx
  let m := m.setEdx kernelDs
  { m with ds := m.edx, es := m.edx }

/-- `GET_CURRENT(%ebx)`: the task at the bottom of the kernel stack. -/
def getCurrent (m : Cpu) : Cpu := m.setEbx (m.esp &&& (-8192))

/-- `call syscall_check`, with its two arguments on the top of the stack. -/
def callSyscallCheck (e : Environment) (m : Cpu) : Cpu :=
  let num := m.load 0
  let curr := m.load 1
  let r := e.syscallCheck num curr
  let m := (m.store 0 (e.arguments num curr).1).store 1 (e.arguments num curr).2
  { m.returned r with calls := m.calls ++ [.checked num r.eax] }

def callSyscallTrace (e : Environment) (m : Cpu) : Cpu :=
  let (r, frame) := e.syscallTrace m.stack
  { m.returned r with stack := frame }

/-- `call *sys_call_table(,%eax,4)`. -/
def callSysCallTable (e : Environment) (m : Cpu) : Cpu :=
  let (r, frame) := e.sysCall m.eax m.stack
  { m.returned r with stack := frame, calls := m.calls ++ [.dispatched m.eax] }

def badsys (m : Cpu) : Cpu := m.store EAX (-enosys)

def tracesysExit (e : Environment) (m : Cpu) : Cpu := m.callSyscallTrace e

def tracesys (e : Environment) (m : Cpu) : Cpu :=
  let m := m.store EAX (-enosys)
  let m := m.callSyscallTrace e
  let m := m.setEax (m.load ORIGEAX)
  if e.nrSyscalls ≤ m.eax then m.tracesysExit e
  else
    let m := m.callSysCallTable e
    let m := m.store EAX m.eax
    m.tracesysExit e

/-- The label `con`. -/
def con (e : Environment) (m : Cpu) : Cpu :=
  let m := m.popl setEax
  let m := m.popl setEbx
  let m := m.popl setEax
  let m := m.popl setEdx
  let m := m.popl setEcx
  if e.tskPtrace m.ebx &&& 2 ≠ 0 then m.tracesys e
  else if e.nrSyscalls ≤ m.eax then m.badsys
  else
    let m := m.callSysCallTable e
    m.store EAX m.eax

/-- One pass, up to `ret_from_sys_call`. -/
def systemCall (e : Environment) (m : Cpu) : Cpu :=
  let m := m.pushl m.eax
  let m := m.saveAll
  let m := m.getCurrent
  let m := m.pushl m.ecx
  let m := m.pushl m.edx
  let m := m.pushl m.eax
  let m := m.pushl m.ebx
  let m := m.pushl m.eax
  let m := m.callSyscallCheck e
  if m.eax ≠ -1 then m.con e
  else
    let m := m.popl setEax
    let m := m.popl setEbx
    let m := m.popl setEax
    let m := m.popl setEdx
    let m := m.popl setEcx
    m.badsys

end Cpu

end OperationSystems.Entry
