import MiniKernel.Ports.ElfFrame
import MiniKernel.Ports.SystemCalls

/-!
# Loading a program beside others

All processes share one set of page tables, and `create_elf_process` and
`sys_exec` load every program through it, its stack always at the page below
`USER_STACK_TOP`.  A state keeps, for every process, the page of its stack and
the pages of the segments loaded for it; a child of `sys_fork` runs on the
segments of its parent and on a stack page of its own.

A load that meets `Spares` maps none of the pages of the other processes that
have not exited and none of those the kernel works in, and writes to none of
their frames.  The bytes `sys_fork` copies to the child's stack, like everything
user programs write, are stores, and go to memory that is not the kernel's.
-/

namespace MiniKernel.Ports.ProgramLoads

open MiniKernel.Verified.ByteMemory
open MiniKernel.Verified.PageWords
open MiniKernel.Verified.Trace
open MiniKernel.Ports.Pmm
open MiniKernel.Ports.Paging
open MiniKernel.Ports.PagingTables
open MiniKernel.Ports.PagingSparing (InPlace ownPages kernelPages handedOut workPages
  ownPages_subset kernelPages_subset boot_inPlace)
open MiniKernel.Ports.PagingKept
open MiniKernel.Ports.PagingIdentity hiding Event step
open MiniKernel.Ports.PagingCalls
open MiniKernel.Ports.Kmalloc (presentWrite)
open MiniKernel.Ports.PageLending
open MiniKernel.Ports.ProcessTable
open MiniKernel.Ports.ProcessRuns (Running)
open MiniKernel.Ports.SystemCalls
open MiniKernel.Ports.Elf
open MiniKernel.Ports.ElfLoading (view)
open MiniKernel.Ports.ElfFrame
open MiniKernel.Ports.ElfSegments (fileBytes onePage)
open MiniKernel.Ports.PmmOwnership (pcMap)

/-! ## Loads -/

/-- `create_elf_process`, once `create_process` has returned `p`. -/
def startElf (register file p : Nat) (s : System Vm) : Option (System Vm) :=
  if p = 0 then some s
  else
    (elfLoadFile pageWalk register file s.pages).bind fun l =>
      let regs := (s.kernel.processes p).regs
      let k := s.kernel.modifyFrame regs fun f => { f with eip := l.1 }
      let a := allocate 4096 l.2.pmm
      (mapPage pageWalk a.1 (userStackTop - 4096) (pagePresent ||| pageWrite ||| pageUser)
        { l.2 with pmm := a.2 }).map fun vm =>
          { s with
            kernel := k.modifyFrame regs fun f => { f with userEsp := userStackTop }
            pages := vm }

/-- `SYS_EXEC`: what `sys_exec` returns ends in `eax`. -/
def execElf (register file regs : Nat) (s : System Vm) : Option (Nat × System Vm) :=
  (sysExec pageWalk register file (s.kernel.frames regs) s.pages).map fun r =>
    (r.1, { s with
      kernel := s.kernel.modifyFrame regs fun _ => { r.2.1 with eax := r.1 }
      pages := r.2.2 })

/-- The pages that hold a byte of a segment. -/
def segmentHolds (s : Segment) : List Nat :=
  if s.memsz = 0 then []
  else
    (List.range' (pageOf s.vaddr) (pageOf (s.vaddr + s.memsz - 1) - pageOf s.vaddr + 1)).map
      (· % 2 ^ 20)

/-- The pages of the segments of a file, if it is one that is loaded. -/
def programPages (file : Nat) (vm : Vm) : List Nat :=
  match checkElfSupported pageWalk file vm with
  | some (.ok ()) =>
      if member (view vm) file eType = etExec then
        (segments (view vm) file).flatMap segmentHolds
      else []
  | _ => []

/-! ## Runs -/

/-- A process, the page of its stack and the pages of its segments. -/
structure Program where
  process : Nat
  stack : Nat
  segments : List Nat
  deriving Repr, DecidableEq

def Program.pages (p : Program) : List Nat := p.stack :: p.segments

structure State where
  system : System Vm
  programs : List Program

inductive Event
  /-- The kernel's own `create_process`. -/
  | spawn (entry mode : Nat)
  | createElf (register file : Nat)
  | fork (regs : Nat)
  | exec (register file regs : Nat)
  | call (c : Call)
  | store (a : Nat) (value : UInt8)
  deriving Repr, DecidableEq

/-- The program of a process, on the stack of its control block if nothing was
loaded for it. -/
def State.program (s : State) (p : Nat) : Program :=
  (s.programs.find? fun q => q.process = p).getD
    ⟨p, pageOf (s.system.kernel.processes p).userStack, []⟩

/-- The system with the program of a process, in place of what was there. -/
def State.enter (s : State) (system : System Vm) (p : Program) : State where
  system := system
  programs := p :: s.programs.filter fun q => q.process ≠ p.process

/-- A new process that `create_process` has made, or none. -/
def State.born (s : State) (system : System Vm) (mode p : Nat) : State :=
  if p = 0 ∨ mode ≠ processUser then { s with system := system }
  else s.enter system ⟨p, pageOf (system.kernel.processes p).userStack, []⟩

def step (s : State) : Event → Option State
  | .spawn entry mode =>
      if s.system.kernel.halted = false then
        (createProcess (paging pageWalk) entry mode s.system).map fun r => s.born r.2 mode r.1
      else none
  | .createElf register file =>
      if s.system.kernel.halted = false then
        (createProcess (paging pageWalk) 0 processUser s.system).bind fun r =>
          (startElf register file r.1 r.2).map fun system =>
            if r.1 = 0 then { s with system := system }
            else s.enter system
              ⟨r.1, pageOf (userStackTop - 4096), programPages file r.2.pages⟩
      else none
  | .fork regs =>
      if Running s.system.kernel then
        (sysFork (paging pageWalk) regs s.system).map fun r =>
          if r.2.1.Complete processUser then
            s.enter r.2.2 ⟨r.2.1.pro, pageOf r.2.1.userPage,
              (s.program s.system.kernel.currentProcess).segments⟩
          else { s with system := r.2.2 }
      else none
  | .exec register file regs =>
      if Running s.system.kernel then
        (execElf register file regs s.system).map fun r =>
          let old := s.program s.system.kernel.currentProcess
          let loaded := programPages file s.system.pages
          s.enter r.2
            (if r.1 = 0 then ⟨old.process, pageOf (userStackTop - 4096), loaded⟩
            else ⟨old.process, old.stack, old.segments ++ loaded⟩)
      else none
  | .call c => (c.run s.system.kernel).map fun k =>
      { s with system := { s.system with kernel := k } }
  | .store a value =>
      (pageWalk s.system.pages (a % 2 ^ 32)).map fun x =>
        let vm := { s.system.pages with mem := setByte s.system.pages.mem x value }
        { s with system := { s.system with pages := vm } }

/-- The processes that have not exited. -/
def State.living (s : State) : List Program :=
  s.programs.filter fun q => s.system.kernel.state q.process ≠ .zombie

/-- The programs that a load is not for. -/
def others (s : State) : Event → List Program
  | .createElf .. => s.living
  | .exec .. => s.living.filter fun q => q.process ≠ s.system.kernel.currentProcess
  | _ => []

/-- A load leaves the bytes that the others see in their pages. -/
def KeepsOthers (s : State) (e : Event) (s' : State) : Prop :=
  ∀ q ∈ others s e, ∀ v < 2 ^ 32, pageOf v ∈ q.pages →
    ∀ b ∈ byteAt s.system.pages v, b ∈ byteAt s'.system.pages v

/-- The pages of the others that are mapped. -/
def othersPages (s : State) (e : Event) : List Nat :=
  ((others s e).flatMap Program.pages).filter fun p => Present (entryWord s.system.pages p)

/-- With the kernel's own. -/
def sparedPages (layout : Layout) (s : State) (e : Event) : List Nat :=
  kernelPages layout [] ++ othersPages s e

/-- The pages handed out that no program has. -/
def kernelHeld (layout : Layout) (s : State) : List Nat :=
  (handedOut layout s.system.pages).filter fun p => p ∉ s.programs.flatMap Program.pages

/-! ## Conditions -/

/-- The page calls of `create_process`, with their flags. -/
def callEvent : PageCall → PagingIdentity.Event
  | .heapPage => .allocatePage presentWrite
  | .allocatePage => .allocatePage userFlags
  | .allocatePagesContig count => .allocatePagesContig count presentWrite
  | .freePage addr => .freePage addr

/-- `free_page` leaves the tables and the pages alone. -/
def FreeSpares (pages : List Nat) (addr : Nat) (vm : Vm) : Prop :=
  FreeOk addr vm ∧ pageOf addr ∉ pages

instance (pages : List Nat) (addr : Nat) (vm : Vm) : Decidable (FreeSpares pages addr vm) :=
  inferInstanceAs (Decidable (_ ∧ _))

/-- A page call that spares the pages. -/
def sparing (pages : List Nat) (vm : Vm) (c : PageCall) : Bool :=
  decide (Calls (MapSpares pages) (FreeSpares pages) vm (callEvent c))

/-- The page allocator as long as it spares the pages. -/
def careful (pages : List Nat) : PageAllocator Vm := (paging pageWalk).guard (sparing pages)

/-- No page of the others is backed by a page table. -/
def ApartFromTables (s : State) (e : Event) : Prop :=
  ∀ p ∈ othersPages s e, ¬InTable s.system.pages (frameOf (entryWord s.system.pages p))

/-- `startElf` spares the pages. -/
def StartSpares (pages : List Nat) (register file p : Nat) (vm : Vm) : Prop :=
  p ≠ 0 → FileSpares pages file vm ∧
    ∀ l ∈ elfLoadFile pageWalk register file vm,
      MapSpares pages (allocate 4096 l.2.pmm).1 (userStackTop - 4096) userFlags
        { l.2 with pmm := (allocate 4096 l.2.pmm).2 }

/-- A load spares the pages of the others and those the kernel works in, no step moves a
page table or writes to one, and programs do not write to the kernel's memory. -/
def Spares (layout : Layout) (s : State) (e : Event) : Prop :=
  match e with
  | .spawn entry mode =>
      (createProcess (careful (sparedPages layout s e)) entry mode s.system).isSome
  | .createElf register file =>
      ApartFromTables s e ∧
        (createProcess (careful (sparedPages layout s e)) 0 processUser s.system).isSome ∧
        ∀ r ∈ createProcess (paging pageWalk) 0 processUser s.system,
          StartSpares (workPages layout r.2.pages ++ othersPages s e) register file r.1 r.2.pages
  | .fork regs => (sysFork (careful (sparedPages layout s e)) regs s.system).isSome
  | .exec register file _ =>
      ApartFromTables s e ∧
        ExecSpares (workPages layout s.system.pages ++ othersPages s e) register file
          s.system.pages
  | .call _ => True
  | .store a _ => ∀ x ∈ pageWalk s.system.pages (a % 2 ^ 32), ¬InTable s.system.pages x ∧
      ¬Holds (kernelPages layout (kernelHeld layout s)) s.system.pages x

instance (s : State) (e : Event) : Decidable (ApartFromTables s e) :=
  inferInstanceAs (Decidable (∀ _ ∈ _, _))

instance (pages : List Nat) (register file p : Nat) (vm : Vm) :
    Decidable (StartSpares pages register file p vm) :=
  inferInstanceAs (Decidable (_ → _ ∧ ∀ l ∈ elfLoadFile pageWalk register file vm, _))

instance (layout : Layout) (s : State) (e : Event) : Decidable (Spares layout s e) := by
  unfold Spares
  cases e <;> infer_instance

/-! ## Page calls -/

variable {pages : List Nat} {vm vm' : Vm}

/-- `free_page` writes to tables only. -/
theorem freePage_bytes {addr x : Nat} (h : Identity vm) (hAddr : addr < 2 ^ 32)
    (hFree : freePage pageWalk addr vm = some vm') (hOut : ¬InTable vm x) :
    vm'.mem x = vm.mem x := by
  have hPte : getPte addr (pushFree addr vm) = getPte addr vm := rfl
  unfold freePage at hFree
  simp only [hPte, getPte_eq] at hFree
  by_cases hTable : HasTable vm (pageOf addr / 1024)
  · obtain ⟨hDirectory, -⟩ := page_lt hAddr
    have hNonzero := h.tables.nonzero _ hDirectory hTable
    rw [if_pos hTable, if_neg (by omega)] at hFree
    obtain ⟨word, -, hRest⟩ := Option.bind_eq_some_iff.mp hFree
    split at hRest
    · cases hRest
      rfl
    · obtain ⟨place, hWalk, rfl⟩ := Option.map_eq_some_iff.mp hRest
      cases hWalk.symm.trans (h.reach hDirectory hTable (fun d => sameTable_of_eq rfl) rfl
        (show pageOf addr % 1024 < 1024 by omega))
      have hMod := tableOf_mod vm (pageOf addr / 1024)
      have hApart : pageOf (tableOf vm (pageOf addr / 1024)) ≠ pageOf x :=
        fun hEq => hOut ⟨_, hDirectory, hTable, hEq⟩
      exact store_apply_apart (by unfold pageOf at *; omega)
  · rw [if_neg hTable, if_pos rfl] at hFree
    cases hFree
    rfl

theorem freePage_spares {addr : Nat} (h : Identity vm) (hAddr : addr < 2 ^ 32)
    (hOk : FreeSpares pages addr vm) (hFree : freePage pageWalk addr vm = some vm') :
    Spared pages vm vm' := by
  have hDirectory : vm'.pageDirectory = vm.pageDirectory := by
    obtain ⟨vm₁, hFree₁, hSame, -⟩ := freePage_spec pageWalk h.tables hAddr
      fun hTable vm₁ hSame hMem => h.reach (page_lt hAddr).1 hTable
        (fun d => sameTable_of_eq (by rw [hSame])) hMem (by omega)
    cases hFree₁.symm.trans hFree
    exact hSame
  exact
    { identity := freePage_identity h hAddr hOk.1 hFree
      words := fun p hp hRange => (freePage_edits h hAddr hFree p hRange).resolve_right
        fun hEq => hOk.2 (hEq.1 ▸ hp)
      tables := fun x _ hx => hx.of_same fun d => sameTable_of_eq (by rw [hDirectory])
      bytes := fun x _ hOut => freePage_bytes h hAddr hFree hOut }

/-- Page calls that spare the pages. -/
theorem spared_invariant (pages : List Nat) (vm : Vm) :
    CallInvariant (MapSpares pages) (FreeSpares pages) (Spared pages vm) where
  map h hVirtual hFlags hOk hMap :=
    h.trans (mapPage_spares h.identity hVirtual hFlags hOk hMap).spared
  free h hAddr hOk hFree := h.trans (freePage_spares h.identity hAddr hOk hFree)
  congr h hMem hDirectory := h.trans (Spared.update h.identity hMem hDirectory)

/-! ## Allocations -/

/-- **The allocations of `create_process`** spare the pages when each does. -/
theorem acquire_careful {mode : Nat} {s s' : System Vm} {p : Parts} (h : Identity s.pages)
    (hBounded : Bounded s.pages) (hRun : acquire (careful pages) mode s = some (p, s')) :
    Kept pages s.pages s'.pages := by
  have hI := spared_invariant pages s.pages
  have hAll : Spared pages s.pages s'.pages ∧ Bounded s'.pages := by
    refine acquire_keeps (J := fun vm => Spared pages s.pages vm ∧ Bounded vm)
      (R := fun v => v < 2 ^ 32) ?_ ?_ ?_ ?_ ⟨Spared.update h rfl rfl, hBounded⟩ hRun
    · intro vm vm' v hVm hCall
      obtain ⟨hOk, hCall⟩ := guard_some hCall
      exact hI.allocatePage hVm.2 (by decide) (of_decide_eq_true hOk) hVm.1 hCall
    · intro vm vm' v hVm hCall
      obtain ⟨hOk, hCall⟩ := guard_some hCall
      obtain ⟨hKept, hNext, hv⟩ :=
        hI.allocatePagesContig hVm.2 (by decide) (of_decide_eq_true hOk) hVm.1 hCall
      exact ⟨⟨hKept, hNext⟩, hv⟩
    · intro vm vm' v hVm hCall
      obtain ⟨hOk, hCall⟩ := guard_some hCall
      exact hI.allocatePage hVm.2 (by decide) (of_decide_eq_true hOk) hVm.1 hCall
    · intro vm vm' v hVm hv hCall
      obtain ⟨hOk, hCall⟩ := guard_some hCall
      exact hI.freePage hVm.2 hv (of_decide_eq_true hOk) hVm.1 hCall
  exact ⟨hAll.1, fun _ => hAll.2⟩

theorem createProcess_careful {entry mode : Nat} {s : System Vm} {r : Nat × System Vm}
    (h : Identity s.pages) (hBounded : Bounded s.pages)
    (hOk : (createProcess (careful pages) entry mode s).isSome)
    (hRun : createProcess (paging pageWalk) entry mode s = some r) :
    Kept pages s.pages r.2.pages := by
  obtain ⟨r', hCareful⟩ := Option.isSome_iff_exists.mp hOk
  cases (createProcess_extends (extends_guard _ _) hCareful).symm.trans hRun
  obtain ⟨⟨p, s₁⟩, hParts, hRest⟩ := Option.bind_eq_some_iff.mp hCareful
  obtain ⟨c, -, rfl⟩ := Option.map_eq_some_iff.mp hRest
  have hKept := acquire_careful h hBounded hParts
  exact hKept

theorem sysFork_careful {regs : Nat} {s : System Vm} {r : Nat × Parts × System Vm}
    (h : Identity s.pages) (hBounded : Bounded s.pages)
    (hOk : (sysFork (careful pages) regs s).isSome)
    (hRun : sysFork (paging pageWalk) regs s = some r) : Kept pages s.pages r.2.2.pages := by
  obtain ⟨r', hCareful⟩ := Option.isSome_iff_exists.mp hOk
  cases (sysFork_extends (extends_guard _ _) hCareful).symm.trans hRun
  obtain ⟨⟨p, s₁⟩, hParts, hRest⟩ := Option.bind_eq_some_iff.mp hCareful
  obtain ⟨c, -, rfl⟩ := Option.map_eq_some_iff.mp hRest
  have hKept := acquire_careful h hBounded hParts
  exact hKept

/-! ## Steps -/

theorem startElf_spares {register file p : Nat} {s s' : System Vm} (h : Identity s.pages)
    (hOk : StartSpares pages register file p s.pages)
    (hRun : startElf register file p s = some s') : Kept pages s.pages s'.pages := by
  unfold startElf at hRun
  split at hRun
  · cases hRun
    exact Kept.refl h
  · next hp =>
      obtain ⟨hFileOk, hStackOk⟩ := hOk hp
      obtain ⟨⟨entry, vm₁⟩, hFile, hRest⟩ := Option.bind_eq_some_iff.mp hRun
      obtain ⟨vm₂, hMap, rfl⟩ := Option.map_eq_some_iff.mp hRest
      have hLoaded := elfLoadFile_spares h hFileOk hFile
      have hTaken := @Kept.taken _ pages hLoaded.identity (allocate 4096 vm₁.pmm).2
      have hStack := mapPage_spares hTaken.identity (by decide) (by decide) (hStackOk _ hFile) hMap
      exact hLoaded.trans (hTaken.trans hStack)

theorem execElf_spares {register file regs result : Nat} {s s' : System Vm}
    (h : Identity s.pages) (hOk : ExecSpares pages register file s.pages)
    (hRun : execElf register file regs s = some (result, s')) : Kept pages s.pages s'.pages := by
  obtain ⟨⟨value, frame, vm⟩, hExec, hEq⟩ := Option.map_eq_some_iff.mp hRun
  cases hEq
  exact sysExec_spares h hOk hExec

/-- A byte outside the tables and the pages. -/
theorem store_kept {x : Nat} (value : UInt8) (h : Identity vm) (hOut : ¬InTable vm x)
    (hOff : ¬Holds pages vm x) : Kept pages vm { vm with mem := setByte vm.mem x value } := by
  have hTables : ∀ y, InTable vm y → setByte vm.mem x value y = vm.mem y := fun y hy =>
    setByte_ne _ fun hEq => hOut (hEq ▸ hy)
  refine ⟨?_, fun hBounded => hBounded.same ⟨rfl, rfl, rfl⟩⟩
  exact
    { identity := h.congr (fun d => sameTable_of_eq rfl) fun d _ _ =>
        entryWord_mem hTables (page_lt (tableOf_lt vm d)).2
      words := fun p _ hp => entryWord_mem hTables hp
      tables := fun _ _ hx => hx
      bytes := fun y hy _ => setByte_ne _ fun hEq => hOff (hEq ▸ hy) }

@[simp] theorem State.enter_system (s : State) (system : System Vm) (p : Program) :
    (s.enter system p).system = system := rfl

@[simp] theorem State.born_system (s : State) (system : System Vm) (mode p : Nat) :
    (s.born system mode p).system = system := by
  unfold State.born
  split <;> rfl

variable {layout : Layout}

/-- The tables are in the identity map, the virtual pages 32 bits wide, and the kernel's
own pages in place. -/
structure Ready (layout : Layout) (s : State) : Prop where
  identity : Identity s.system.pages
  bounded : Bounded s.system.pages
  inPlace : InPlace layout s.system.pages

/-- What a load spares. -/
theorem sparedPages_subset (s : State) (e : Event) (vm : Vm) :
    sparedPages layout s e ⊆ workPages layout vm ++ othersPages s e :=
  List.append_subset.mpr ⟨List.subset_append_of_subset_left _ (kernelPages_subset layout _),
    List.subset_append_right _ _⟩

/-- **One step** that meets the condition spares the pages of the others and the kernel's
own. -/
theorem step_keeps {s s' : State} {e : Event} (h : Ready layout s) (hOk : Spares layout s e)
    (hStep : step s e = some s') :
    Kept (sparedPages layout s e) s.system.pages s'.system.pages := by
  cases e with
  | spawn entry mode =>
      obtain ⟨-, hStep⟩ := Option.ite_none_right_eq_some.mp hStep
      obtain ⟨r, hRun, rfl⟩ := Option.map_eq_some_iff.mp hStep
      rw [State.born_system]
      exact createProcess_careful h.identity h.bounded hOk hRun
  | createElf register file =>
      obtain ⟨-, hStep⟩ := Option.ite_none_right_eq_some.mp hStep
      obtain ⟨r, hRun, hStep⟩ := Option.bind_eq_some_iff.mp hStep
      obtain ⟨system, hStart, rfl⟩ := Option.map_eq_some_iff.mp hStep
      obtain ⟨-, hCareful, hStartOk⟩ := hOk
      have hMade := createProcess_careful h.identity h.bounded hCareful hRun
      have hLoaded := (startElf_spares hMade.identity (hStartOk r hRun) hStart).mono
        (@sparedPages_subset layout s (.createElf register file) r.2.pages)
      have hSystem : (if r.1 = 0 then { s with system := system } else s.enter system
          ⟨r.1, pageOf (userStackTop - 4096), programPages file r.2.pages⟩).system = system := by
        split <;> rfl
      rw [hSystem]
      exact hMade.trans hLoaded
  | fork regs =>
      obtain ⟨-, hStep⟩ := Option.ite_none_right_eq_some.mp hStep
      obtain ⟨r, hRun, rfl⟩ := Option.map_eq_some_iff.mp hStep
      have hMade := sysFork_careful h.identity h.bounded hOk hRun
      split <;> exact hMade
  | exec register file regs =>
      obtain ⟨-, hStep⟩ := Option.ite_none_right_eq_some.mp hStep
      obtain ⟨⟨result, system⟩, hRun, rfl⟩ := Option.map_eq_some_iff.mp hStep
      exact (execElf_spares h.identity hOk.2 hRun).mono (sparedPages_subset s _ _)
  | call c =>
      obtain ⟨k, -, rfl⟩ := Option.map_eq_some_iff.mp hStep
      exact Kept.refl h.identity
  | store a value =>
      obtain ⟨x, hWalk, rfl⟩ := Option.map_eq_some_iff.mp hStep
      obtain ⟨hOut, hOff⟩ := hOk x hWalk
      refine (store_kept value h.identity hOut hOff).mono ?_
      exact List.append_subset.mpr ⟨kernelPages_subset layout _, List.nil_subset _⟩

theorem step_ready (s : State) (e : Event) (s' : State) (h : Ready layout s)
    (hOk : Spares layout s e) (hStep : step s e = some s') : Ready layout s' := by
  have hKept := step_keeps h hOk hStep
  have hOwn : ownPages layout ⊆ sparedPages layout s e :=
    List.subset_append_of_subset_left _ (ownPages_subset layout [])
  exact ⟨hKept.identity, hKept.bounded h.bounded, hKept.spared.inPlace hOwn h.inPlace⟩

/-- **One load** that meets the condition is not seen by the others. -/
theorem step_others {s s' : State} {e : Event} (h : Ready layout s) (hOk : Spares layout s e)
    (hStep : step s e = some s') : KeepsOthers s e s' := by
  intro q hq v hv hPage b hb
  have hApart : ApartFromTables s e := by
    cases e with
    | createElf register file => exact hOk.1
    | exec register file regs => exact hOk.1
    | _ => exact absurd hq List.not_mem_nil
  obtain ⟨x, hWalk, -⟩ := Option.map_eq_some_iff.mp hb
  have hPresent : Present (entryWord s.system.pages (pageOf v)) := by
    rw [pageWalk_eq] at hWalk
    exact (Option.ite_none_right_eq_some.mp hWalk).1
  have hIn : pageOf v ∈ othersPages s e :=
    List.mem_filter.mpr ⟨List.mem_flatMap.mpr ⟨q, hq, hPage⟩, decide_eq_true hPresent⟩
  exact byteAt_kept_mem (step_keeps h hOk hStep) hv (List.mem_append_right _ hIn)
    (hApart _ hIn) hb

/-- The linked image before the first process. -/
def start (layout : Layout) (kernel : Kernel) (heapMem : Mem) (pmm : Table) (mem : Mem)
    (freeVirtual : Nat → Nat) : State where
  system :=
    { kernel := kernel
      heap := { mem := heapMem, heapHead := 0, currentBlock := 0 }
      pages := boot layout pmm mem freeVirtual }
  programs := []

theorem start_ready (layout : Layout) (kernel : Kernel) (heapMem : Mem) (pmm : Table) (mem : Mem)
    (freeVirtual : Nat → Nat) :
    Ready layout (start layout kernel heapMem pmm mem freeVirtual) where
  identity := (boot_invariant layout pmm mem freeVirtual).1
  bounded := (boot_invariant layout pmm mem freeVirtual).2
  inPlace := boot_inPlace layout pmm mem freeVirtual

/-- **Loading a program leaves the other processes alone**: after every run whose
steps all meet the condition, a load that meets it changes no byte that a process
it is not for, and that has not exited, sees in its stack page and its segments. -/
theorem loads_unseen {layout : Layout} {kernel : Kernel} {heapMem mem : Mem} {pmm : Table}
    {freeVirtual : Nat → Nat} {events : List Event} {e : Event} {s s' : State}
    (hRun : exec step (start layout kernel heapMem pmm mem freeVirtual) events = some s)
    (hOk : Meets step (Spares layout) (start layout kernel heapMem pmm mem freeVirtual) events)
    (hStep : step s e = some s') (hLoad : Spares layout s e) : KeepsOthers s e s' := by
  have hReady := hOk.invariant step_ready (start_ready ..) hRun
  exact step_others hReady hLoad hStep

/-- A file whose only segment is at `0x30000`, where the second process will have
its stack. -/
def overStack : List UInt8 := fileBytes etExec 0x30000 [⟨84, 0x30000, 1, 1⟩] [0xAA]

/-- A PC with two files in the image and otherwise empty memory. -/
def pcStart : State :=
  start image ProcessRuns.blank.kernel (fun _ => 0) pcMap
    (fun x =>
      if x < 0x24000 then 0
      else if x < 0x25000 then (onePage etExec).getD (x - 0x24000) 0
      else overStack.getD (x - 0x25000) 0)
    fun _ => 0

/-- A user process, and its child. -/
def spawnAndFork : List Event := [.spawn 0x10B00 processUser, .fork 0x2AFBC]

theorem spawnAndFork_meets : Meets step (Spares image) pcStart spawnAndFork := by
  rw [pcStart, start, boot_eq]
  decide +kernel

theorem spawnAndFork_run : ∃ s, exec step pcStart spawnAndFork = some s ∧ Ready image s := by
  have hSome : (exec step pcStart spawnAndFork).isSome := by
    rw [pcStart, start, boot_eq]
    decide +kernel
  obtain ⟨s, hRun⟩ := Option.isSome_iff_exists.mp hSome
  exact ⟨s, hRun, spawnAndFork_meets.invariant step_ready (start_ready ..) hRun⟩

/-- The step of a `SYS_EXEC` that succeeds. -/
theorem step_exec {s : State} {file entry : Nat} (regs : Nat) {vm : Vm} (h : Identity vm)
    (hOn : Running s.system.kernel)
    (hFile : elfLoadFile pageWalk 0 file s.system.pages = some (entry, vm)) (hEntry : entry ≠ 0)
    (hSome : (allocate 4096 vm.pmm).1 ≠ 0)
    (hOk : MapSpares pages (allocate 4096 vm.pmm).1 (userStackTop - 4096) userFlags
      { vm with pmm := (allocate 4096 vm.pmm).2 }) :
    ∃ s', step s (.exec 0 file regs) = some s' ∧ Kept pages vm s'.system.pages := by
  obtain ⟨vm', hExec, hKept⟩ :=
    sysExec_some (s.system.kernel.frames regs) hFile hEntry h hSome hOk
  simp only [step, if_pos hOn, execElf, hExec, Option.map_some]
  exact ⟨_, rfl, hKept⟩

/-- The parent executes a program at `0x300000`; its child, on the stack page
`0x30`, does not notice. -/
theorem loads_unseen_fork :
    ∃ s s', exec step pcStart spawnAndFork = some s ∧
      step s (.exec 0 0x24000 0x2AFBC) = some s' ∧
      others s (.exec 0 0x24000 0x2AFBC) = [⟨0x26042, 0x30, []⟩] ∧
      KeepsOthers s (.exec 0 0x24000 0x2AFBC) s' := by
  have hState : ∀ s ∈ exec step pcStart spawnAndFork,
      Running s.system.kernel ∧ Spares image s (.exec 0 0x24000 0x2AFBC) ∧
        others s (.exec 0 0x24000 0x2AFBC) = [⟨0x26042, 0x30, []⟩] ∧
        (elfLoadFile pageWalk 0 0x24000 s.system.pages).map
          (fun r => (r.1, (allocate 4096 r.2.pmm).1)) = some (0x300000, 0x10C000) := by
    rw [pcStart, start, boot_eq]
    decide +kernel
  obtain ⟨s, hRun, hReady⟩ := spawnAndFork_run
  obtain ⟨hOn, hLoad, hOthers, hFile⟩ := hState s hRun
  obtain ⟨⟨entry, vm⟩, hFile, hEq⟩ := Option.map_eq_some_iff.mp hFile
  obtain ⟨hEntry, hFrame⟩ := Prod.mk.inj hEq
  simp only at hEntry hFrame
  subst hEntry
  have hLoaded := (elfLoadFile_spares hReady.identity hLoad.2.1 hFile).identity
  have hFound : (allocate 4096 vm.pmm).1 ≠ 0 := by
    rw [hFrame]
    decide
  obtain ⟨s', hStep, -⟩ := step_exec 0x2AFBC hLoaded hOn hFile (show 0x300000 ≠ 0 by decide)
    hFound (hLoad.2.2 _ hFile (show 0x300000 ≠ 0 by decide) hFound)
  exact ⟨s, s', hRun, hStep, hOthers, loads_unseen hRun spawnAndFork_meets hStep hLoad⟩

/-- The parent executes the other file, and the child finds a byte of it in its
stack page. -/
theorem stack_replaced :
    ∃ s s', exec step pcStart spawnAndFork = some s ∧
      step s (.exec 0 0x25000 0x2AFBC) = some s' ∧
      others s (.exec 0 0x25000 0x2AFBC) = [⟨0x26042, 0x30, []⟩] ∧
      byteAt s.system.pages 0x30000 = some 0 ∧ byteAt s'.system.pages 0x30000 = some 0xAA ∧
      ¬KeepsOthers s (.exec 0 0x25000 0x2AFBC) s' := by
  have hState : ∀ s ∈ exec step pcStart spawnAndFork,
      Running s.system.kernel ∧ FileSpares [] 0x25000 s.system.pages ∧
        others s (.exec 0 0x25000 0x2AFBC) = [⟨0x26042, 0x30, []⟩] ∧
        byteAt s.system.pages 0x30000 = some 0 ∧
        (elfLoadFile pageWalk 0 0x25000 s.system.pages).isSome ∧
        ∀ r ∈ elfLoadFile pageWalk 0 0x25000 s.system.pages,
          r.1 = 0x30000 ∧ (allocate 4096 r.2.pmm).1 = 0x10C000 ∧
            byteAt r.2 0x30000 = some 0xAA ∧
            ¬InTable r.2 (frameOf (entryWord r.2 (pageOf 0x30000))) ∧
            MapSpares [0x30] (allocate 4096 r.2.pmm).1 (userStackTop - 4096) userFlags
              { r.2 with pmm := (allocate 4096 r.2.pmm).2 } := by
    rw [pcStart, start, boot_eq]
    decide +kernel
  obtain ⟨s, hRun, hReady⟩ := spawnAndFork_run
  obtain ⟨hOn, hFileOk, hOthers, hBefore, hFile, hResult⟩ := hState s hRun
  obtain ⟨⟨entry, vm⟩, hFile⟩ := Option.isSome_iff_exists.mp hFile
  obtain ⟨hEntry, hFrame, hByte, hOut, hStackOk⟩ := hResult _ hFile
  simp only at hEntry hFrame hByte hOut hStackOk
  have hLoaded := (elfLoadFile_spares hReady.identity hFileOk hFile).identity
  obtain ⟨s', hStep, hKept⟩ := step_exec 0x2AFBC hLoaded hOn hFile (by rw [hEntry]; decide)
    (by rw [hFrame]; decide) hStackOk
  have hAfter : byteAt s'.system.pages 0x30000 = some 0xAA :=
    byteAt_kept_mem hKept (by decide) (by decide) hOut hByte
  refine ⟨s, s', hRun, hStep, hOthers, hBefore, hAfter, fun hKeeps => ?_⟩
  have hByte := hKeeps ⟨0x26042, 0x30, []⟩ (by rw [hOthers]; decide) 0x30000 (by decide)
    (by decide) 0 hBefore
  rw [hAfter] at hByte
  exact absurd hByte (by decide)

end MiniKernel.Ports.ProgramLoads
