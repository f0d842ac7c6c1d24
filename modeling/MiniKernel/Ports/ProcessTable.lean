import MiniKernel.Ports.Kmalloc

/-!
# Processes

The process table of `process.c` and the system calls of `syscall.c` that
change it.  Control blocks and saved register frames are found by their
addresses, as the pointers of the source find them: `processes 0` is whatever
memory at address `0` holds, which `sys_wait` does read.  The memory of user
stacks is not part of this model.  `sys_wait` stores an exit code wherever its
caller says; `Kernel.store` is that store on everything the model has, at the
addresses that the linker gave it.

The kernel runs on one processor with interrupts off, so a system call or a
timer tick is one step, taken by `current_process`.  A step ends by resuming
a process; `halted` is the end of the PANIC branches, which stop the machine.
`none` is a loop that does not end or that leaves the list.
-/

namespace MiniKernel.Ports.ProcessTable

open MiniKernel.Verified.ByteMemory
open MiniKernel.Verified.Links
open MiniKernel.Ports.Kmalloc (addresses)

/-- `process_state_t`, an `int` in memory. -/
inductive ProcessState
  | ready
  | running
  | blocked
  | terminated
  | zombie
  /-- A value behind the enumerators: `5` is `other 0`. -/
  | other (value : Nat)
  deriving Repr, DecidableEq

def ProcessState.toWord : ProcessState → Nat
  | ready => 0
  | running => 1
  | blocked => 2
  | terminated => 3
  | zombie => 4
  | other value => value + 5

def ProcessState.ofWord : Nat → ProcessState
  | 0 => ready
  | 1 => running
  | 2 => blocked
  | 3 => terminated
  | 4 => zombie
  | value + 5 => other value

/-- `process_t`, without `page_directory`, which nothing reads. -/
structure Process where
  pid : Nat
  kernelStack : Nat
  kernelStackTo : Nat
  regs : Nat
  state : ProcessState
  exitCode : Nat
  entry : Nat
  wake : Nat
  next : Nat
  parent : Nat
  userStack : Nat
  deriving Repr, DecidableEq

/-- `registers_t`. -/
structure Registers where
  gs : Nat
  fs : Nat
  es : Nat
  ds : Nat
  edi : Nat
  esi : Nat
  ebp : Nat
  esp : Nat
  ebx : Nat
  edx : Nat
  ecx : Nat
  eax : Nat
  eip : Nat
  cs : Nat
  eflags : Nat
  userEsp : Nat
  userSs : Nat
  deriving Repr, DecidableEq

/-- `sizeof(process_t)`. -/
def sizeofProcess : Nat := 48

/-- The control block at `p` after a store of `l` bytes at `a`. -/
def Process.store (p a l w : Nat) (b : Process) : Process where
  pid := overwrite a l w p 4 b.pid
  kernelStack := overwrite a l w (p + 8) 4 b.kernelStack
  kernelStackTo := overwrite a l w (p + 12) 4 b.kernelStackTo
  regs := overwrite a l w (p + 16) 4 b.regs
  state := .ofWord (overwrite a l w (p + 20) 4 b.state.toWord)
  exitCode := overwrite a l w (p + 24) 4 b.exitCode
  entry := overwrite a l w (p + 28) 4 b.entry
  wake := overwrite a l w (p + 32) 4 b.wake
  next := overwrite a l w (p + 36) 4 b.next
  parent := overwrite a l w (p + 40) 4 b.parent
  userStack := overwrite a l w (p + 44) 4 b.userStack

/-- The register frame at `r` after a store of `l` bytes at `a`. -/
def Registers.store (r a l w : Nat) (f : Registers) : Registers where
  gs := overwrite a l w r 4 f.gs
  fs := overwrite a l w (r + 4) 4 f.fs
  es := overwrite a l w (r + 8) 4 f.es
  ds := overwrite a l w (r + 12) 4 f.ds
  edi := overwrite a l w (r + 16) 4 f.edi
  esi := overwrite a l w (r + 20) 4 f.esi
  ebp := overwrite a l w (r + 24) 4 f.ebp
  esp := overwrite a l w (r + 28) 4 f.esp
  ebx := overwrite a l w (r + 32) 4 f.ebx
  edx := overwrite a l w (r + 36) 4 f.edx
  ecx := overwrite a l w (r + 40) 4 f.ecx
  eax := overwrite a l w (r + 44) 4 f.eax
  eip := overwrite a l w (r + 48) 4 f.eip
  cs := overwrite a l w (r + 52) 4 f.cs
  eflags := overwrite a l w (r + 56) 4 f.eflags
  userEsp := overwrite a l w (r + 60) 4 f.userEsp
  userSs := overwrite a l w (r + 64) 4 f.userSs

/-- The control block in the bytes at `p`. -/
def processAt (m : Mem) (p : Nat) : Process where
  pid := load m p 4
  kernelStack := load m (p + 8) 4
  kernelStackTo := load m (p + 12) 4
  regs := load m (p + 16) 4
  state := .ofWord (load m (p + 20) 4)
  exitCode := load m (p + 24) 4
  entry := load m (p + 28) 4
  wake := load m (p + 32) 4
  next := load m (p + 36) 4
  parent := load m (p + 40) 4
  userStack := load m (p + 44) 4

/-- The frame in the bytes at `r`. -/
def registersAt (m : Mem) (r : Nat) : Registers where
  gs := load m r 4
  fs := load m (r + 4) 4
  es := load m (r + 8) 4
  ds := load m (r + 12) 4
  edi := load m (r + 16) 4
  esi := load m (r + 20) 4
  ebp := load m (r + 24) 4
  esp := load m (r + 28) 4
  ebx := load m (r + 32) 4
  edx := load m (r + 36) 4
  ecx := load m (r + 40) 4
  eax := load m (r + 44) 4
  eip := load m (r + 48) 4
  cs := load m (r + 52) 4
  eflags := load m (r + 56) 4
  userEsp := load m (r + 60) 4
  userSs := load m (r + 64) 4

@[simp] theorem ProcessState.toWord_ofWord (w : Nat) : (ofWord w).toWord = w := by
  match w with
  | 0 => rfl
  | 1 => rfl
  | 2 => rfl
  | 3 => rfl
  | 4 => rfl
  | _ + 5 => rfl

/-- **A store by address** does to a block what it does to its bytes. -/
theorem processAt_store (m : Mem) (p a l w : Nat) :
    processAt (store m a w l) p = (processAt m p).store p a l w := by
  simp only [processAt, Process.store, load_store_overwrite, ProcessState.toWord_ofWord]

theorem registersAt_store (m : Mem) (r a l w : Nat) :
    registersAt (store m a w l) r = (registersAt m r).store r a l w := by
  simp only [registersAt, Registers.store, load_store_overwrite]

/-- The globals of `process.c`, `ticks`, `tss.esp0`, and the memory that
control blocks and register frames live in. -/
structure Kernel where
  processes : Nat → Process
  frames : Nat → Registers
  processList : Nat
  currentProcess : Nat
  processNumber : Nat
  ticks : Nat
  esp0 : Nat
  /-- Where the linker put `process_entry`. -/
  processEntry : Nat
  halted : Bool

def kernelCs : Nat := 0x08
def kernelDs : Nat := 0x10
def userCs : Nat := 0x1B
def userDs : Nat := 0x23

def processKernel : Nat := 0
def processUser : Nat := 1

def kernelStackSize : Nat := 4096 * 4

/-- `sizeof(registers_t)`. -/
def sizeofRegisters : Nat := 17 * 4

/-! Where `kernel.elf` has the globals, and `_kernel_end`. -/

def ticksAt : Nat := 0x218C8
def processNumberAt : Nat := 0x16480
def processListAt : Nat := 0x25024
def currentProcessAt : Nat := 0x25028
def esp0At : Nat := 0x25044
def kernelEnd : Nat := 0x26000

/-- A 32-bit pattern read as an `int`. -/
def asInt (w : Nat) : Int := if w < 2 ^ 31 then (w : Int) else (w : Int) - 2 ^ 32

/-- `(uint32_t)-1`. -/
def minusOne : Nat := 2 ^ 32 - 1

namespace Kernel

/-- An assignment to fields of the control block at `p`. -/
def modify (k : Kernel) (p : Nat) (f : Process → Process) : Kernel :=
  { k with processes := fun q => if q = p then f (k.processes q) else k.processes q }

/-- An assignment to fields of the register frame at `r`. -/
def modifyFrame (k : Kernel) (r : Nat) (f : Registers → Registers) : Kernel :=
  { k with frames := fun q => if q = r then f (k.frames q) else k.frames q }

/-- A store of the `l` bytes of `w` at `a`. -/
def store (k : Kernel) (a l w : Nat) : Kernel :=
  { k with
    processes := fun p => (k.processes p).store p a l w
    frames := fun r => (k.frames r).store r a l w
    processList := overwrite a l w processListAt 4 k.processList
    currentProcess := overwrite a l w currentProcessAt 4 k.currentProcess
    processNumber := overwrite a l w processNumberAt 2 k.processNumber
    ticks := overwrite a l w ticksAt 4 k.ticks
    esp0 := overwrite a l w esp0At 4 k.esp0 }

/-- `p->next`. -/
def next (k : Kernel) (p : Nat) : Nat := (k.processes p).next

/-- `p->state`. -/
def state (k : Kernel) (p : Nat) : ProcessState := (k.processes p).state

/-- `add_process`. -/
def addProcess (k : Kernel) (pro : Nat) : Option Kernel :=
  let k := k.modify pro fun p => { p with next := 0 }
  if k.processList = 0 then some { k with processList := pro, currentProcess := pro }
  else
    (seek k.next (fun p => k.next p == 0) 0 addresses k.processList).map fun last =>
      k.modify last fun p => { p with next := pro }

/-- The frame `create_process` prepares on the new kernel stack. -/
def initialFrame (k : Kernel) (entry mode kernelStack userStack : Nat) : Registers :=
  let zero : Registers :=
    { gs := 0, fs := 0, es := 0, ds := 0, edi := 0, esi := 0, ebp := 0, esp := 0, ebx := 0,
      edx := 0, ecx := 0, eax := 0, eip := 0, cs := 0, eflags := 0, userEsp := 0,
      userSs := 0 }
  if mode = processKernel then
    { zero with
      gs := kernelDs, fs := kernelDs, es := kernelDs, ds := kernelDs
      eip := k.processEntry, cs := kernelCs, eflags := 0x202
      esp := (kernelStack + kernelStackSize) % 2 ^ 32 }
  else
    { zero with
      gs := userDs, fs := userDs, es := userDs, ds := userDs
      eip := entry, cs := userCs, eflags := 0x202
      esp := (kernelStack + kernelStackSize) % 2 ^ 32
      userEsp := (userStack + 4096) % 2 ^ 32, userSs := userDs }

/-- `create_process`, given what `kmalloc`, `allocate_pages_contig` and
`allocate_page` return; `exit_code` keeps what the memory held before. -/
def createProcess (k : Kernel) (entry mode pro kernelStack userPage : Nat) :
    Option (Nat × Kernel) :=
  if pro = 0 then some (0, k)
  else if kernelStack = 0 then some (0, k)
  else if mode = processUser ∧ userPage = 0 then some (0, k)
  else
    let userStack := if mode = processUser then userPage else 0
    let regs := (kernelStack + kernelStackSize - sizeofRegisters) % 2 ^ 32
    let k := k.modify pro fun p =>
      { p with
        userStack := if mode = processUser then userStack else p.userStack
        regs := regs
        kernelStack := kernelStack
        kernelStackTo := (kernelStack + kernelStackSize) % 2 ^ 32
        pid := k.processNumber
        state := .ready
        wake := 0
        next := 0
        entry := entry }
    let k := { k with processNumber := (k.processNumber + 1) % 2 ^ 16 }
    let k := k.modifyFrame regs fun _ => k.initialFrame entry mode kernelStack userStack
    let k := k.modify pro fun p => { p with parent := k.currentProcess }
    (k.addProcess pro).map fun k => (pro, k)

/-- `save_context`. -/
def saveContext (k : Kernel) (regs : Nat) : Kernel :=
  if k.currentProcess = 0 ∨ (k.processes k.currentProcess).regs = 0 then k
  else
    let r := k.frames regs
    k.modifyFrame (k.processes k.currentProcess).regs fun saved =>
      if r.cs &&& 3 = 3 then r
      else { r with userEsp := saved.userEsp, userSs := saved.userSs }

/-- `context_switch`, up to `restore_esp`. -/
def contextSwitch (k : Kernel) (regs next : Nat) : Kernel :=
  let k := k.saveContext regs
  { k with currentProcess := next, esp0 := (k.processes next).kernelStackTo }

/-- `schedule`: first behind the current process, then from the head of the
list up to it. -/
def schedule (k : Kernel) : Option Nat :=
  (seek k.next (fun p => k.state p == .ready) 0 addresses (k.next k.currentProcess)).bind
    fun next =>
      if next ≠ 0 then some next
      else seek k.next (fun p => k.state p == .ready) k.currentProcess addresses k.processList

/-- One turn of `wake_processes`. -/
def wakeOne (k : Kernel) (p : Nat) : Kernel :=
  if k.state p = .blocked ∧ asInt (k.processes p).wake ≤ asInt k.ticks then
    k.modify p fun b => { b with state := .ready }
  else k

/-- `wake_processes`. -/
def wakeProcesses (k : Kernel) : Option Kernel :=
  walk Kernel.next wakeOne addresses k.processList k

/-- `exit_process`, up to `restore_esp`. -/
def exitProcess (k : Kernel) : Option Kernel :=
  let dead := k.currentProcess
  let k := k.modify dead fun p => { p with state := .zombie }
  let parent := (k.processes dead).parent
  let k := if parent ≠ 0 then k.modify parent fun p => { p with state := .ready } else k
  k.schedule.map fun next =>
    if next = 0 ∨ next = dead then { k with halted := true }
    else { k with currentProcess := next }

/-- `sys_exit`. -/
def sysExit (k : Kernel) (status : Nat) : Option Kernel :=
  (k.modify k.currentProcess fun p => { p with exitCode := status }).exitProcess

/-- `sys_yield`. -/
def sysYield (k : Kernel) (regs : Nat) : Option Kernel :=
  let old := k.currentProcess
  k.wakeProcesses.bind fun k =>
    k.schedule.map fun next =>
      if next ≠ 0 ∧ next ≠ old then k.contextSwitch regs next else k

/-- `sys_sleep`. -/
def sysSleep (k : Kernel) (regs time : Nat) : Option Kernel :=
  let k := k.modify k.currentProcess fun p =>
    { p with wake := (k.ticks + time) % 2 ^ 32, state := .blocked }
  k.schedule.map fun next =>
    if next ≠ 0 ∧ next ≠ k.currentProcess then k.contextSwitch regs next else k

/-- The test of `sys_wait`: a zombie whose parent has the caller's pid. -/
def zombieOfCaller (k : Kernel) (p : Nat) : Bool :=
  (k.processes (k.processes p).parent).pid == (k.processes k.currentProcess).pid &&
    k.state p == .zombie

/-- `sys_wait`: the control block whose pid it returns, after the store of its
exit code at `status`, or `0` when it blocks. -/
def sysWait (k : Kernel) (status regs : Nat) : Option (Nat × Kernel) :=
  (seek k.next k.zombieOfCaller 0 addresses k.processList).bind fun found =>
    if found ≠ 0 then some (found, k.store status 4 (k.processes found).exitCode)
    else
      let k := k.modify k.currentProcess fun p => { p with state := .blocked }
      let k := k.modifyFrame regs fun r => { r with eax := minusOne }
      k.schedule.map fun next =>
        if next = 0 ∨ next = k.currentProcess then (0, { k with halted := true })
        else (0, k.contextSwitch regs next)

/-- `is_valid_process_ptr`. -/
def isValidProcessPtr (k : Kernel) (pro : Nat) : Option Bool :=
  (seek k.next (fun p => p == pro) 0 addresses k.processList).map fun p => p != 0

/-- `sys_create_process`. -/
def sysCreateProcess (k : Kernel) (entry mode pro kernelStack userPage : Nat) :
    Option (Nat × Kernel) :=
  (k.createProcess entry mode pro kernelStack userPage).bind fun r =>
    (r.2.isValidProcessPtr r.1).map fun valid => (if valid then r.1 else 0, r.2)

/-- The child's frame: the parent's, with `eax`, `user_esp` and `ebp` moved to
the child's stack. -/
def forkFrame (k : Kernel) (parent child regs : Nat) : Registers :=
  let r := k.frames regs
  let parentTop := ((k.processes parent).userStack + 4096) % 2 ^ 32
  let childTop := ((k.processes child).userStack + 4096) % 2 ^ 32
  let delta := (childTop + (2 ^ 32 - parentTop)) % 2 ^ 32
  let used := (parentTop + (2 ^ 32 - r.userEsp)) % 2 ^ 32
  { r with
    eax := 0
    userEsp := (childTop + (2 ^ 32 - used)) % 2 ^ 32
    ebp := (r.ebp + delta) % 2 ^ 32 }

/-- `sys_fork`, without the copy of the user stack. -/
def sysFork (k : Kernel) (regs pro kernelStack userPage : Nat) : Option (Nat × Kernel) :=
  let parent := k.currentProcess
  (k.createProcess 0 processUser pro kernelStack userPage).map fun (child, k) =>
    if child = 0 then (minusOne, k.modifyFrame regs fun r => { r with eax := minusOne })
    else
      let frame := k.forkFrame parent child regs
      let k := k.modifyFrame (k.processes child).regs fun _ => frame
      let k := k.modifyFrame regs fun r => { r with eax := (k.processes child).pid }
      ((k.processes child).pid,
        k.modify child fun p => { p with parent := parent, state := .ready })

/-- `irq0_handler`. -/
def irq0Handler (k : Kernel) (regs : Nat) : Option Kernel :=
  let k := { k with ticks := (k.ticks + 1) % 2 ^ 32 }
  if k.currentProcess = 0 ∨ k.processList = 0 then some k
  else k.wakeProcesses.bind fun k => k.sysYield regs

end Kernel

end MiniKernel.Ports.ProcessTable
