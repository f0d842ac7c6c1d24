import MiniKernel.Ports.ProcessSwitch
import MiniKernel.Verified.WordStack

/-!
# Trap frames

The process table keeps register frames in a table of their own.  Here they
are what they are in the machine, words on kernel stacks.  A trap pushes a
frame: the processor pushes up to five words, `syscall_handler` and `irq0` the
rest, and the stack pointer is then the `registers_t *` the handlers get.
`save_context` copies that frame into the slot at the top of the process's
kernel stack, and `restore_esp` pops the slot of the process that runs next,
just as the entry stubs pop the trap frame when nobody else runs.

Addresses are virtual.  A kernel stack is backed by frames of its own.
-/

namespace MiniKernel.Ports.TrapFrames

open MiniKernel.Verified.ByteMemory
open MiniKernel.Verified.WordStack
open MiniKernel.Ports.Kmalloc (addresses)
open MiniKernel.Verified.Links
open MiniKernel.Ports.ProcessTable
open MiniKernel.Ports.ProcessSteps
open MiniKernel.Ports.ProcessSwitch

/-- The registers of the processor while a process runs. -/
structure Cpu where
  gs : Nat
  fs : Nat
  es : Nat
  ds : Nat
  edi : Nat
  esi : Nat
  ebp : Nat
  ebx : Nat
  edx : Nat
  ecx : Nat
  eax : Nat
  eip : Nat
  cs : Nat
  eflags : Nat
  esp : Nat
  ss : Nat
  deriving Repr, DecidableEq

/-- The process runs at ring 3. -/
def Cpu.UserMode (c : Cpu) : Prop := c.cs &&& 3 = 3

instance (c : Cpu) : Decidable c.UserMode := by
  unfold Cpu.UserMode
  infer_instance

/-- The words of a frame from `gs` to `eflags`; `pusha` pushes `sp` as `esp`. -/
def Cpu.frame (c : Cpu) (sp : Nat) : List Nat :=
  [c.gs, c.fs, c.es, c.ds, c.edi, c.esi, c.ebp, sp, c.ebx, c.edx, c.ecx, c.eax, c.eip, c.cs,
    c.eflags]

/-- A frame from ring 3 has two more words. -/
def Cpu.userFrame (c : Cpu) (sp : Nat) : List Nat := c.frame sp ++ [c.esp, c.ss]

/-- Every register is a 32-bit word. -/
def Cpu.Wide (c : Cpu) : Prop := ∀ w ∈ c.userFrame 0, w < 2 ^ 32

instance (c : Cpu) : Decidable c.Wide := by
  unfold Cpu.Wide
  infer_instance

/-- The frame is in memory, as far as the process's ring has it pushed. -/
def FrameAt (m : Mem) (regs : Nat) (c : Cpu) : Prop := ∃ sp, Laid m regs (c.userFrame sp)

/-- A trap up to the call of the handler: what the processor pushes, on the
stack `tss.esp0` names when it comes from ring 3, and then `pusha` and the
segment registers. -/
def trapEntry (m : Mem) (esp0 : Nat) (c : Cpu) : Mem × Nat :=
  let s := if c.UserMode then pushAll m esp0 [c.ss, c.esp] else (m, c.esp)
  let s := pushAll s.1 s.2 [c.eflags, c.cs, c.eip]
  let s := pushAll s.1 s.2 [c.eax, c.ecx, c.edx, c.ebx, s.2, c.ebp, c.esi, c.edi]
  pushAll s.1 s.2 [c.ds, c.es, c.fs, c.gs]

/-- `pop gs; pop fs; pop es; pop ds; popa; iretd` with the stack pointer at
`regs`: `popa` skips `esp`, and `iretd` pops the last two words only on the
way to ring 3. -/
def resume (m : Mem) (regs : Nat) : Cpu :=
  let cs := word m (regs + 52)
  { gs := word m regs
    fs := word m (regs + 4)
    es := word m (regs + 8)
    ds := word m (regs + 12)
    edi := word m (regs + 16)
    esi := word m (regs + 20)
    ebp := word m (regs + 24)
    ebx := word m (regs + 32)
    edx := word m (regs + 36)
    ecx := word m (regs + 40)
    eax := word m (regs + 44)
    eip := word m (regs + 48)
    cs := cs
    eflags := word m (regs + 56)
    esp := if cs &&& 3 = 3 then word m (regs + 60) else regs + 60
    ss := if cs &&& 3 = 3 then word m (regs + 64) else kernelDs }

/-- The copy in `save_context`: the fields from `gs` to `eflags`, and
`user_esp` and `user_ss` when the frame comes from ring 3. -/
def saveFrame (m : Mem) (regs saved : Nat) : Mem :=
  let m := copyWords regs saved ((List.range 15).map fun j => 4 * j) m
  if word m (regs + 52) &&& 3 = 3 then copyWords regs saved [60, 64] m else m

/-! ## Frames -/

variable {m m' : Mem} {c : Cpu} {regs saved sp : Nat}

@[simp] theorem Cpu.userFrame_length (c : Cpu) (sp : Nat) : (c.userFrame sp).length = 17 := rfl

/-- **What is popped is what was pushed.** -/
theorem resume_frameAt (h : FrameAt m regs c) (hUser : c.UserMode) : resume m regs = c := by
  obtain ⟨sp, hLaid⟩ := h
  simp only [Cpu.userFrame, Cpu.frame, List.cons_append, List.nil_append, Laid, Nat.add_assoc,
    Nat.reduceAdd] at hLaid
  obtain ⟨hgs, hfs, hes, hds, hedi, hesi, hebp, -, hebx, hedx, hecx, heax, heip, hcs, heflags,
    hesp, hss, -⟩ := hLaid
  have hRing : c.cs &&& 3 = 3 := hUser
  unfold resume
  simp only [hgs, hfs, hes, hds, hedi, hesi, hebp, hebx, hedx, hecx, heax, heip, hcs, heflags,
    hesp, hss, hRing, if_true]

theorem FrameAt.eax (h : FrameAt m regs c) : word m (regs + 44) = c.eax := by
  obtain ⟨sp, hLaid⟩ := h
  simp only [Cpu.userFrame, Cpu.frame, List.cons_append, List.nil_append, Laid, Nat.add_assoc,
    Nat.reduceAdd] at hLaid
  exact hLaid.2.2.2.2.2.2.2.2.2.2.2.1

theorem FrameAt.frame (h : FrameAt m regs c)
    (hSame : ∀ x, regs ≤ x → x < regs + 68 → m' x = m x) : FrameAt m' regs c := by
  obtain ⟨sp, hLaid⟩ := h
  exact ⟨sp, hLaid.frame fun x hLow hHigh => hSame x hLow (by simpa using hHigh)⟩

/-- Storing `eax` into a frame. -/
theorem FrameAt.setEax (h : FrameAt m regs c) {v : Nat} (hv : v < 2 ^ 32) :
    FrameAt (setWord m (regs + 44) v) regs { c with eax := v } := by
  obtain ⟨sp, hLaid⟩ := h
  have hOther : ∀ o, o + 4 ≤ 44 ∨ 48 ≤ o →
      word (setWord m (regs + 44) v) (regs + o) = word m (regs + o) := by
    intro o ho
    exact word_congr fun x hLow hHigh => setWord_apart (by omega)
  have hSelf : word (setWord m (regs + 44) v) (regs + 44) = v := word_setWord hv
  have hFirst : word (setWord m (regs + 44) v) regs = word m regs := hOther 0 (by omega)
  refine ⟨sp, ?_⟩
  simp only [Cpu.userFrame, Cpu.frame, List.cons_append, List.nil_append, Laid, Nat.add_assoc,
    Nat.reduceAdd] at hLaid ⊢
  simp only [hFirst, hSelf, hOther 4 (by omega), hOther 8 (by omega), hOther 12 (by omega),
    hOther 16 (by omega), hOther 20 (by omega), hOther 24 (by omega), hOther 28 (by omega),
    hOther 32 (by omega), hOther 36 (by omega), hOther 40 (by omega), hOther 48 (by omega),
    hOther 52 (by omega), hOther 56 (by omega), hOther 60 (by omega), hOther 64 (by omega),
    hLaid, and_self]

theorem Cpu.Wide.words (h : c.Wide) (hsp : sp < 2 ^ 32) : ∀ w ∈ c.userFrame sp, w < 2 ^ 32 := by
  intro w hw
  simp only [Cpu.Wide, Cpu.userFrame, Cpu.frame, List.cons_append, List.nil_append,
    List.mem_cons, List.not_mem_nil, or_false, forall_eq_or_imp, forall_eq] at h hw
  rcases hw with rfl | rfl | rfl | rfl | rfl | rfl | rfl | rfl | rfl | rfl | rfl | rfl | rfl |
    rfl | rfl | rfl | rfl <;> tauto

/-- **A trap from ring 3** lays the frame out below `tss.esp0`. -/
theorem trapEntry_user {esp0 : Nat} (m : Mem) (hUser : c.UserMode) (hWide : c.Wide)
    (hRoom : 68 ≤ esp0) (hRange : esp0 < 2 ^ 32) :
    (trapEntry m esp0 c).2 = esp0 - 68 ∧ FrameAt (trapEntry m esp0 c).1 (esp0 - 68) c ∧
      ∀ x, x < esp0 - 68 ∨ esp0 ≤ x → (trapEntry m esp0 c).1 x = m x := by
  have hPushes : trapEntry m esp0 c = pushAll m esp0 (c.userFrame (esp0 - 20)).reverse := by
    unfold trapEntry
    simp only [if_pos hUser, ← pushAll_append]
    have hsp : (pushAll m esp0 ([c.ss, c.esp] ++ [c.eflags, c.cs, c.eip])).2 = esp0 - 20 := by
      rw [pushAll_sp]
      rfl
    rw [hsp]
    rfl
  have hLength : (c.userFrame (esp0 - 20)).reverse.length = 17 := by simp
  rw [hPushes]
  refine ⟨?_, ⟨esp0 - 20, ?_⟩, fun x hx => ?_⟩
  · rw [pushAll_sp, hLength]
  · have hLaid := laid_pushAll (c.userFrame (esp0 - 20)).reverse m esp0 (by rw [hLength]; omega)
      fun w hw => hWide.words (by omega) w (List.mem_reverse.mp hw)
    rw [hLength, List.reverse_reverse] at hLaid
    exact hLaid
  · exact pushAll_apart _ _ _ (by rw [hLength]; omega) (by rw [hLength]; omega)

/-- From ring 0 the processor pushes on the stack the process uses. -/
theorem trapEntry_pushes (m : Mem) (esp0 : Nat) (hKernel : ¬c.UserMode) :
    trapEntry m esp0 c = pushAll m c.esp (c.frame (c.esp - 12)).reverse := by
  unfold trapEntry
  simp only [if_neg hKernel, ← pushAll_append]
  have hsp : (pushAll m c.esp [c.eflags, c.cs, c.eip]).2 = c.esp - 12 := by
    rw [pushAll_sp]
    rfl
  rw [hsp]
  rfl

/-- A trap from ring 0 pushes on the stack the process uses. -/
theorem trapEntry_kernel (m : Mem) (esp0 : Nat) (hKernel : ¬c.UserMode) (hRoom : 60 ≤ c.esp) :
    (trapEntry m esp0 c).2 = c.esp - 60 ∧
      ∀ x, x < c.esp - 60 ∨ c.esp ≤ x → (trapEntry m esp0 c).1 x = m x := by
  have hLength : (c.frame (c.esp - 12)).reverse.length = 15 := rfl
  rw [trapEntry_pushes m esp0 hKernel]
  refine ⟨?_, fun x hx => ?_⟩
  · rw [pushAll_sp, hLength]
  · exact pushAll_apart _ _ _ (by rw [hLength]; omega) (by rw [hLength]; omega)

theorem copyWords_append (src dst : Nat) (os os' : List Nat) (m : Mem) :
    copyWords src dst (os ++ os') m = copyWords src dst os' (copyWords src dst os m) :=
  List.foldl_append

/-- Nothing but the slot is written. -/
theorem saveFrame_apart {x : Nat} (m : Mem) (regs : Nat) (h : x < saved ∨ saved + 68 ≤ x) :
    saveFrame m regs saved x = m x := by
  have hCopy : ∀ (os : List Nat) (m : Mem), (∀ o ∈ os, o + 4 ≤ 68) →
      copyWords regs saved os m x = m x := by
    intro os m hos
    refine copyWords_apart m fun o ho => ?_
    have hEnd := hos o ho
    omega
  unfold saveFrame
  split
  · rw [hCopy [60, 64] _ (by decide), hCopy _ _ (by decide)]
  · exact hCopy _ _ (by decide)

/-- **`save_context` keeps a frame from ring 3 whole**, whether it was pushed
on the slot itself or elsewhere. -/
theorem saveFrame_user (h : FrameAt m regs c) (hUser : c.UserMode)
    (hApart : regs = saved ∨ regs + 68 ≤ saved ∨ saved + 68 ≤ regs) :
    FrameAt (saveFrame m regs saved) saved c := by
  obtain ⟨sp, hLaid⟩ := h
  have hCs : word (copyWords regs saved ((List.range 15).map fun j => 4 * j) m) (regs + 52) =
      c.cs := by
    have hSource : word m (regs + 52) = c.cs := by
      have hWords := hLaid
      simp only [Cpu.userFrame, Cpu.frame, List.cons_append, List.nil_append, Laid,
        Nat.add_assoc, Nat.reduceAdd] at hWords
      exact hWords.2.2.2.2.2.2.2.2.2.2.2.2.2.1
    rw [← hSource]
    refine word_congr fun x hLow hHigh => ?_
    rw [copyWords_apply m (by omega) 15 (Nat.le_refl 15)]
    split
    · next hIn =>
        congr 1
        omega
    · rfl
  have hRing : c.cs &&& 3 = 3 := hUser
  refine ⟨sp, ?_⟩
  unfold saveFrame
  simp only [hCs, hRing, if_true, ← copyWords_append]
  exact laid_copyWords (n := 17) m (by omega) hLaid rfl

/-! ## The machine -/

/-- The kernel, whose table of frames is not used here, and memory. -/
structure Machine where
  kernel : Kernel
  mem : Mem

namespace Machine

/-- `save_context`. -/
def saveContext (s : Machine) (regs : Nat) : Machine :=
  let k := s.kernel
  if k.currentProcess = 0 ∨ (k.processes k.currentProcess).regs = 0 then s
  else { s with mem := saveFrame s.mem regs (k.processes k.currentProcess).regs }

/-- `context_switch`, up to `restore_esp`. -/
def contextSwitch (s : Machine) (regs next : Nat) : Machine :=
  let s := s.saveContext regs
  { s with
    kernel :=
      { s.kernel with
        currentProcess := next
        esp0 := (s.kernel.processes next).kernelStackTo } }

/-- `sys_yield`. -/
def sysYield (s : Machine) (regs : Nat) : Option Machine :=
  let old := s.kernel.currentProcess
  s.kernel.wakeProcesses.bind fun k =>
    let s := { s with kernel := k }
    k.schedule.map fun next =>
      if next ≠ 0 ∧ next ≠ old then s.contextSwitch regs next else s

/-- `sys_sleep`. -/
def sysSleep (s : Machine) (regs time : Nat) : Option Machine :=
  let k := s.kernel.modify s.kernel.currentProcess fun p =>
    { p with wake := (s.kernel.ticks + time) % 2 ^ 32, state := .blocked }
  let s := { s with kernel := k }
  k.schedule.map fun next =>
    if next ≠ 0 ∧ next ≠ k.currentProcess then s.contextSwitch regs next else s

/-- `sys_wait`: the pid it returns, `none` when it does not return. -/
def sysWait (s : Machine) (status regs : Nat) : Option (Option Nat × Machine) :=
  let k := s.kernel
  (seek k.next k.zombieOfCaller 0 addresses k.processList).bind fun found =>
    if found ≠ 0 then
      let code := (k.processes found).exitCode
      let k := k.store status 4 code
      some (some (k.processes found).pid, { kernel := k, mem := setWord s.mem status code })
    else
      let k := k.modify k.currentProcess fun p => { p with state := .blocked }
      let s : Machine := { kernel := k, mem := setWord s.mem (regs + 44) minusOne }
      k.schedule.map fun next =>
        if next = 0 ∨ next = k.currentProcess then
          (none, { s with kernel := { k with halted := true } })
        else (none, s.contextSwitch regs next)

def sysYieldNumber : Nat := 1
def sysSleepNumber : Nat := 6
def sysWaitNumber : Nat := 13

/-- `syscall_dispatch`, for the calls that give up the processor. -/
def syscallDispatch (s : Machine) (regs : Nat) : Option Machine :=
  let eax := word s.mem (regs + 44)
  let ebx := word s.mem (regs + 32)
  if eax = sysYieldNumber then s.sysYield regs
  else if eax = sysSleepNumber then s.sysSleep regs ebx
  else if eax = sysWaitNumber then
    (s.sysWait ebx regs).map fun r =>
      match r.1 with
      | some pid => { r.2 with mem := setWord r.2.mem (regs + 44) pid }
      | none => r.2
  else none

/-- `irq0_handler`. -/
def irq0Handler (s : Machine) (regs : Nat) : Option Machine :=
  let k := { s.kernel with ticks := (s.kernel.ticks + 1) % 2 ^ 32 }
  let s := { s with kernel := k }
  if k.currentProcess = 0 ∨ k.processList = 0 then some s
  else k.wakeProcesses.bind fun k => { s with kernel := k }.sysYield regs

/-! ## Who runs next -/

variable {s s' : Machine} {created : List Nat}

theorem contextSwitch_eq (hRunning : s.kernel.currentProcess ≠ 0)
    (hSlot : (s.kernel.processes s.kernel.currentProcess).regs ≠ 0) (regs next : Nat) :
    s.contextSwitch regs next =
      { kernel :=
          { s.kernel with
            currentProcess := next
            esp0 := (s.kernel.processes next).kernelStackTo }
        mem := saveFrame s.mem regs (s.kernel.processes s.kernel.currentProcess).regs } := by
  unfold contextSwitch saveContext
  simp only [hRunning, hSlot, or_self, if_false]

theorem sysYield_eq (hT : Table s.kernel created) (hRunning : s.kernel.currentProcess ≠ 0)
    (regs : Nat) :
    s.sysYield regs = some
      ((heir created (woken created s.kernel)).elim { s with kernel := woken created s.kernel }
        (Machine.contextSwitch { s with kernel := woken created s.kernel } regs)) := by
  unfold sysYield
  simp only [wakeProcesses_eq hT, Option.bind_some]
  exact schedule_match_or_stay ((woken_turn hT).table hT) hRunning _ _

/-- The kernel with the caller blocked. -/
def blocked (k : Kernel) (wake : Process → Nat) : Kernel :=
  k.modify k.currentProcess fun p => { p with wake := wake p, state := .blocked }

theorem blocked_table {k : Kernel} (hT : Table k created) (wake : Process → Nat) :
    Table (blocked k wake) created := (Turn.caller created k .blocked wake).table hT

theorem sysSleep_eq (hT : Table s.kernel created) (hRunning : s.kernel.currentProcess ≠ 0)
    (regs time : Nat) :
    s.sysSleep regs time = some
      ((heir created (blocked s.kernel fun _ => (s.kernel.ticks + time) % 2 ^ 32)).elim
        { s with kernel := blocked s.kernel fun _ => (s.kernel.ticks + time) % 2 ^ 32 }
        (Machine.contextSwitch
          { s with kernel := blocked s.kernel fun _ => (s.kernel.ticks + time) % 2 ^ 32 } regs)) :=
  schedule_match_or_stay (blocked_table hT _) hRunning _ _

/-- A wait that finds no zombie. -/
theorem sysWait_eq (hT : Table s.kernel created) (hRunning : s.kernel.currentProcess ≠ 0)
    (hNone : created.find? s.kernel.zombieOfCaller = none) (status regs : Nat) :
    s.sysWait status regs = some (none,
      (heir created (blocked s.kernel Process.wake)).elim
        { kernel := { blocked s.kernel Process.wake with halted := true }
          mem := setWord s.mem (regs + 44) minusOne }
        (Machine.contextSwitch
          { kernel := blocked s.kernel Process.wake
            mem := setWord s.mem (regs + 44) minusOne } regs)) := by
  have hSeek : seek s.kernel.next s.kernel.zombieOfCaller 0 addresses s.kernel.processList =
      some 0 := by
    have hFind := hT.linked.seek_eq (p := s.kernel.zombieOfCaller) hT.short
    rwa [hNone] at hFind
  unfold sysWait
  simp only [hSeek, Option.bind_some, ne_eq, not_true_eq_false, if_false]
  refine (schedule_match (blocked_table hT Process.wake) hRunning _ _).trans ?_
  cases hHeir : heir created (blocked s.kernel Process.wake) with
  | none => rfl
  | some next => rfl

/-- What a call does before control passes on: the caller's state and wake
time, the clock, and the states of sleepers. -/
structure Prepared (created : List Nat) (k k' : Kernel) : Prop where
  table : Table k' created
  current : k'.currentProcess = k.currentProcess
  trap : k'.esp0 = k.esp0
  halted : k'.halted = k.halted
  kernelStack : ∀ p, (k'.processes p).kernelStack = (k.processes p).kernelStack
  kernelStackTo : ∀ p, (k'.processes p).kernelStackTo = (k.processes p).kernelStackTo
  regs : ∀ p, (k'.processes p).regs = (k.processes p).regs
  living : ∀ p, k.state p ≠ .zombie → k'.state p ≠ .zombie

theorem prepared_woken {k : Kernel} (hT : Table k created) :
    Prepared created k (woken created k) := by
  have hField : ∀ {α : Type} (field : Process → α),
      (∀ b, field { b with state := .ready } = field b) → ∀ p,
      field ((woken created k).processes p) = field (k.processes p) := by
    intro α field h p
    simp only [woken]
    split
    · exact wokenBlock_field field h _
    · rfl
  exact
    { table := (woken_turn hT).table hT
      current := rfl
      trap := rfl
      halted := rfl
      kernelStack := hField Process.kernelStack fun _ => rfl
      kernelStackTo := hField Process.kernelStackTo fun _ => rfl
      regs := hField Process.regs fun _ => rfl
      living := by
        intro p hp
        simp only [Kernel.state, woken] at hp ⊢
        split
        · unfold wokenBlock
          split
          · simp
          · exact hp
        · exact hp }

theorem prepared_blocked {k : Kernel} (hT : Table k created) (wake : Process → Nat) :
    Prepared created k (blocked k wake) where
  table := blocked_table hT wake
  current := rfl
  trap := rfl
  halted := rfl
  kernelStack := modify_field Process.kernelStack fun _ => rfl
  kernelStackTo := modify_field Process.kernelStackTo fun _ => rfl
  regs := modify_field Process.regs fun _ => rfl
  living := by
    intro p hp
    unfold Kernel.state blocked
    by_cases hCaller : p = k.currentProcess
    · rw [hCaller, modify_processes_self]
      simp
    · rw [modify_processes_ne _ hCaller]
      exact hp

/-- How a call ends: the caller goes on, the machine stops, or a switch. -/
inductive Passed (created : List Nat) (s : Machine) (regs : Nat) : Machine → Prop
  | stayed (halted : Bool) (h : heir created s.kernel = none) :
      Passed created s regs { s with kernel := { s.kernel with halted := halted } }
  | switched (next : Nat) (h : heir created s.kernel = some next) :
      Passed created s regs (s.contextSwitch regs next)

theorem passed_of_stay {regs : Nat}
    (h : s' = (heir created s.kernel).elim s (s.contextSwitch regs)) :
    Passed created s regs s' := by
  cases hHeir : heir created s.kernel with
  | none =>
      rw [hHeir] at h
      exact h ▸ Passed.stayed s.kernel.halted hHeir
  | some next =>
      rw [hHeir] at h
      exact h ▸ Passed.switched next hHeir

/-- What the handlers do, with `eax` stored by a wait that blocks. -/
structure Handled (created : List Nat) (s : Machine) (regs : Nat) (waits : Bool) (s₁ : Machine) :
    Prop where
  prepared : Prepared created s.kernel s₁.kernel
  mem : s₁.mem = if waits then setWord s.mem (regs + 44) minusOne else s.mem

theorem yield_handled {regs : Nat} (hT : Table s.kernel created)
    (hRunning : s.kernel.currentProcess ≠ 0) (h : s.sysYield regs = some s') :
    ∃ s₁, Handled created s regs false s₁ ∧ Passed created s₁ regs s' := by
  rw [sysYield_eq hT hRunning, Option.some.injEq] at h
  refine ⟨{ s with kernel := woken created s.kernel }, ?_, passed_of_stay h.symm⟩
  exact ⟨prepared_woken hT, rfl⟩

theorem sleep_handled {regs time : Nat} (hT : Table s.kernel created)
    (hRunning : s.kernel.currentProcess ≠ 0) (h : s.sysSleep regs time = some s') :
    ∃ s₁, Handled created s regs false s₁ ∧ Passed created s₁ regs s' := by
  rw [sysSleep_eq hT hRunning, Option.some.injEq] at h
  refine ⟨{ s with kernel := blocked s.kernel fun _ => (s.kernel.ticks + time) % 2 ^ 32 }, ?_,
    passed_of_stay h.symm⟩
  exact ⟨prepared_blocked hT fun _ => (s.kernel.ticks + time) % 2 ^ 32, rfl⟩

/-- Without zombies a wait blocks. -/
theorem wait_handled {status regs : Nat} {result : Option Nat} (hT : Table s.kernel created)
    (hRunning : s.kernel.currentProcess ≠ 0)
    (hLiving : ∀ p ∈ created, s.kernel.state p ≠ .zombie)
    (h : s.sysWait status regs = some (result, s')) :
    result = none ∧ ∃ s₁, Handled created s regs true s₁ ∧ Passed created s₁ regs s' := by
  have hNone : created.find? s.kernel.zombieOfCaller = none := by
    rw [List.find?_eq_none]
    intro p hp hZombie
    simp only [Kernel.zombieOfCaller, Bool.and_eq_true, beq_iff_eq] at hZombie
    exact hLiving p hp hZombie.2
  rw [sysWait_eq hT hRunning hNone, Option.some.injEq, Prod.mk.injEq] at h
  obtain ⟨hResult, hEnd⟩ := h
  refine ⟨hResult.symm,
    { kernel := blocked s.kernel Process.wake, mem := setWord s.mem (regs + 44) minusOne },
    ⟨prepared_blocked hT _, rfl⟩, ?_⟩
  cases hHeir : heir created (blocked s.kernel Process.wake) with
  | none =>
      rw [hHeir] at hEnd
      exact hEnd ▸ Passed.stayed true hHeir
  | some next =>
      rw [hHeir] at hEnd
      exact hEnd ▸ Passed.switched next hHeir

theorem irq0_handled {regs : Nat} (hT : Table s.kernel created)
    (hRunning : s.kernel.currentProcess ≠ 0) (h : s.irq0Handler regs = some s') :
    ∃ s₁, Handled created s regs false s₁ ∧ Passed created s₁ regs s' := by
  have hTick : Table { s.kernel with ticks := (s.kernel.ticks + 1) % 2 ^ 32 } created :=
    { hT with }
  have hList : s.kernel.processList ≠ 0 := by
    intro h0
    have hCaller := hT.caller hRunning
    rw [hT.linked.unique (h0 ▸ (linked_nil.mpr rfl : Linked s.kernel.next 0 []))] at hCaller
    simp at hCaller
  unfold irq0Handler at h
  simp only [hRunning, hList, or_self, if_false, wakeProcesses_eq hTick, Option.bind_some] at h
  have hWoken := prepared_woken hTick
  obtain ⟨s₁, hHandled, hPassed⟩ := yield_handled (s :=
    { kernel := woken created { s.kernel with ticks := (s.kernel.ticks + 1) % 2 ^ 32 }
      mem := s.mem }) hWoken.table hRunning h
  have hBefore := hHandled.prepared
  refine ⟨s₁, ⟨?_, hHandled.mem⟩, hPassed⟩
  exact
    { table := hBefore.table
      current := hBefore.current
      trap := hBefore.trap
      halted := hBefore.halted
      kernelStack := fun p => (hBefore.kernelStack p).trans (hWoken.kernelStack p)
      kernelStackTo := fun p => (hBefore.kernelStackTo p).trans (hWoken.kernelStackTo p)
      regs := fun p => (hBefore.regs p).trans (hWoken.regs p)
      living := fun p hp => hBefore.living p (hWoken.living p hp) }

/-- **The dispatcher**, for a yield, a sleep or a wait. -/
theorem dispatch_handled {regs : Nat} (hT : Table s.kernel created)
    (hRunning : s.kernel.currentProcess ≠ 0)
    (hLiving : ∀ p ∈ created, s.kernel.state p ≠ .zombie)
    (h : s.syscallDispatch regs = some s') :
    ∃ s₁, Handled created s regs (decide (word s.mem (regs + 44) = sysWaitNumber)) s₁ ∧
      Passed created s₁ regs s' := by
  unfold syscallDispatch at h
  simp only at h
  by_cases hYield : word s.mem (regs + 44) = sysYieldNumber
  · rw [if_pos hYield] at h
    rw [hYield]
    exact yield_handled hT hRunning h
  · rw [if_neg hYield] at h
    by_cases hSleep : word s.mem (regs + 44) = sysSleepNumber
    · rw [if_pos hSleep] at h
      rw [hSleep]
      exact sleep_handled hT hRunning h
    · rw [if_neg hSleep] at h
      by_cases hWait : word s.mem (regs + 44) = sysWaitNumber
      · rw [if_pos hWait] at h
        obtain ⟨⟨result, s₂⟩, hCall, hEnd⟩ := Option.map_eq_some_iff.mp h
        obtain ⟨rfl, s₁, hHandled, hPassed⟩ := wait_handled hT hRunning hLiving hCall
        rw [hWait]
        exact ⟨s₁, hHandled, hEnd ▸ hPassed⟩
      · rw [if_neg hWait] at h
        simp at h

/-! ## The process table's calls -/

/-- The two kernels differ in the table of frames only. -/
def SameButFrames (k k' : Kernel) : Prop := k' = { k with frames := k'.frames }

theorem contextSwitch_agrees (s : Machine) (k : Kernel) (regs next : Nat)
    (h : SameButFrames s.kernel k) :
    SameButFrames (s.contextSwitch regs next).kernel (k.contextSwitch regs next) := by
  have hKernel : (s.saveContext regs).kernel = s.kernel := by
    unfold saveContext
    simp only
    split <;> rfl
  obtain ⟨frames, hFrames⟩ : ∃ frames, k.saveContext regs = { k with frames := frames } := by
    unfold Kernel.saveContext
    split
    · exact ⟨_, rfl⟩
    · exact ⟨_, rfl⟩
  unfold contextSwitch Kernel.contextSwitch
  simp only [hKernel, hFrames]
  rw [h]
  rfl

theorem heir_agrees {k k' : Kernel} (h : SameButFrames k k') : heir created k' = heir created k := by
  rw [h]
  rfl

/-- **The machine's calls are the process table's**, up to the frames. -/
theorem calls_agree (hT : Table s.kernel created) (hRunning : s.kernel.currentProcess ≠ 0)
    (regs : Nat) :
    (∃ s' k', s.sysYield regs = some s' ∧ s.kernel.sysYield regs = some k' ∧
      SameButFrames s'.kernel k') ∧
    (∀ time, ∃ s' k', s.sysSleep regs time = some s' ∧ s.kernel.sysSleep regs time = some k' ∧
      SameButFrames s'.kernel k') ∧
    (∀ status, created.find? s.kernel.zombieOfCaller = none →
      ∃ s' k', s.sysWait status regs = some (none, s') ∧
        s.kernel.sysWait status regs = some (0, k') ∧ SameButFrames s'.kernel k') := by
  refine ⟨⟨_, _, sysYield_eq hT hRunning regs, ProcessSwitch.sysYield_eq hT hRunning regs, ?_⟩,
    fun time => ⟨_, _, sysSleep_eq hT hRunning regs time,
      ProcessSwitch.sysSleep_eq hT hRunning regs time, ?_⟩, fun status hNone => ?_⟩
  · cases heir created (woken created s.kernel) with
    | none => rfl
    | some next => exact contextSwitch_agrees { s with kernel := _ } _ regs next rfl
  · change SameButFrames _ ((heir created (blocked s.kernel _)).elim _ _)
    cases heir created (blocked s.kernel fun _ => (s.kernel.ticks + time) % 2 ^ 32) with
    | none => rfl
    | some next => exact contextSwitch_agrees { s with kernel := _ } _ regs next rfl
  · have hWait := ProcessSwitch.sysWait_eq hT hRunning status regs
    have hHeir : heir created (prepared created s.kernel (.wait status regs)) =
        heir created (blocked s.kernel Process.wake) := heir_agrees rfl
    rw [hNone] at hWait
    simp only [hHeir] at hWait
    refine ⟨_, (heir created (blocked s.kernel Process.wake)).elim
      { prepared created s.kernel (.wait status regs) with halted := true }
      ((prepared created s.kernel (.wait status regs)).contextSwitch regs),
      sysWait_eq hT hRunning hNone status regs, ?_, ?_⟩
    · rw [hWait]
      cases heir created (blocked s.kernel Process.wake) with
      | none => rfl
      | some next => rfl
    · cases heir created (blocked s.kernel Process.wake) with
      | none => rfl
      | some next => exact contextSwitch_agrees { kernel := _, mem := _ } _ regs next rfl

end Machine

end MiniKernel.Ports.TrapFrames
