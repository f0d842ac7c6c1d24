import MiniKernel.Ports.ProcessSteps
import MiniKernel.Verified.Trace

/-!
# Runs of the process table

A run starts before the first process exists and consists of creations,
forks, yields, sleeps, waits, exits and timer ticks in any order; each is
taken by whatever process is current.  The control block, the kernel stack
and the user page of a new process come with the event, and only a control
block that is in use already is ruled out.  The frame of a trap is what memory
holds at `regs`, which may be another address at every trap.

Two system calls write where their caller says: `sys_wait` stores an exit code,
and `sys_fork` copies the user stack up from `user_esp`, which this model leaves
out.  The results that need the table to stay in order are about the runs that
are `Sparing`: such writes spare the kernel's own memory.

`zombies_stay_dead` is the first result about all runs.  `exit_process` makes
the parent of the exiting process ready without looking at its state, so the
result is about the sparing runs in which no process exits after its parent; the
last theorem is a run in which one does, and one in which a wait stores the state
of a zombie.
-/

namespace MiniKernel.Ports.ProcessRuns

open MiniKernel.Verified.Extents
open MiniKernel.Verified.Trace
open MiniKernel.Ports.ProcessTable
open MiniKernel.Ports.ProcessSteps

/-- A process that executed `exit_process`, with the status it gave to
`sys_exit`; `none` when it returned from its entry function. -/
structure Exit where
  process : Nat
  status : Option Nat
  deriving Repr, DecidableEq

/-- A return of `sys_wait`: who called it, the control block it found, and the
pid and status it returned. -/
structure Report where
  caller : Nat
  child : Nat
  pid : Nat
  status : Nat
  deriving Repr, DecidableEq

/-- The kernel and the history of the run. -/
structure State where
  kernel : Kernel
  created : List Nat
  /-- The user stack pages that processes were given. -/
  userPages : List Nat
  exited : List Exit
  reports : List Report
  /-- The processes that exited since the last report to the given one. -/
  recent : Nat → List Nat

inductive Event
  | create (entry mode pro kernelStack userPage : Nat)
  | fork (regs pro kernelStack userPage : Nat)
  | yield (regs : Nat)
  | sleep (regs time : Nat)
  | wait (status regs : Nat)
  | exit (status : Nat)
  | finish
  | tick (regs : Nat)
  deriving Repr, DecidableEq

/-- A process is running and can call the kernel. -/
def Running (k : Kernel) : Prop := k.halted = false ∧ k.currentProcess ≠ 0

/-- The control block is not in use. -/
def Unused (s : State) (pro : Nat) : Prop := pro < 2 ^ 32 ∧ pro ∉ s.created

instance (k : Kernel) : Decidable (Running k) := by
  unfold Running
  infer_instance

instance (s : State) (pro : Nat) : Decidable (Unused s pro) := by
  unfold Unused
  infer_instance

/-- The current process has exited, and `k` is what that led to. -/
def State.depart (s : State) (k : Kernel) (status : Option Nat) : State :=
  { s with
    kernel := k
    exited := ⟨s.kernel.currentProcess, status⟩ :: s.exited
    recent := fun q => s.kernel.currentProcess :: s.recent q }

/-- The current process has been told about `child`, whose exit code is now at
`status`; the pid is read after that. -/
def State.report (s : State) (child status : Nat) : State :=
  let k := s.kernel.store status 4 (s.kernel.processes child).exitCode
  { s with
    kernel := k
    reports :=
      { caller := s.kernel.currentProcess
        child := child
        pid := (k.processes child).pid
        status := (s.kernel.processes child).exitCode } :: s.reports
    recent := fun q => if q = s.kernel.currentProcess then [] else s.recent q }

/-- One step.  Every system call but creation, which the boot code makes too,
needs a process that makes it. -/
def step (s : State) : Event → Option State
  | .create entry mode pro kernelStack userPage =>
      if s.kernel.halted = false ∧ Unused s pro then
        (s.kernel.sysCreateProcess entry mode pro kernelStack userPage).map fun r =>
          { s with
            kernel := r.2
            created := if r.1 = 0 then s.created else s.created ++ [pro]
            userPages :=
              if r.1 = 0 ∨ mode ≠ processUser then s.userPages else s.userPages ++ [userPage] }
      else none
  | .fork regs pro kernelStack userPage =>
      if Running s.kernel ∧ Unused s pro then
        (s.kernel.sysFork regs pro kernelStack userPage).map fun r =>
          { s with
            kernel := r.2
            created := if r.1 = minusOne then s.created else s.created ++ [pro]
            userPages :=
              if r.1 = minusOne then s.userPages else s.userPages ++ [userPage] }
      else none
  | .yield regs =>
      if Running s.kernel then
        (s.kernel.sysYield regs).map fun k => { s with kernel := k }
      else none
  | .sleep regs time =>
      if Running s.kernel then
        (s.kernel.sysSleep regs time).map fun k => { s with kernel := k }
      else none
  | .wait status regs =>
      if Running s.kernel then
        (s.kernel.sysWait status regs).map fun r =>
          if r.1 = 0 then { s with kernel := r.2 } else s.report r.1 status
      else none
  | .exit status =>
      if Running s.kernel then
        (s.kernel.sysExit status).map fun k => s.depart k (some status)
      else none
  | .finish =>
      if Running s.kernel then s.kernel.exitProcess.map fun k => s.depart k none else none
  | .tick regs =>
      if s.kernel.halted = false then
        (s.kernel.irq0Handler regs).map fun k => { s with kernel := k }
      else none

/-- The kernel before the first `create_process`, on any contents of memory. -/
def boot (processes : Nat → Process) (frames : Nat → Registers)
    (ticks esp0 processEntry : Nat) : State where
  kernel :=
    { processes := processes
      frames := frames
      processList := 0
      currentProcess := 0
      processNumber := 1
      ticks := ticks
      esp0 := esp0
      processEntry := processEntry
      halted := false }
  created := []
  userPages := []
  exited := []
  reports := []
  recent := fun _ => []

/-! ## What one step does -/

/-- The event makes the current process exit with this status. -/
def Event.Exits (status : Option Nat) : Event → Prop
  | .exit v => status = some v
  | .finish => status = none
  | _ => False

/-- The four ways a step can go. -/
inductive Effect (s : State) (e : Event) : State → Prop
  | creation (pro : Nat) (userPages : List Nat) (k : Kernel) (hNew : Unused s pro)
      (hNonzero : pro ≠ 0) (h : Creation s.created pro s.kernel k) :
      Effect s e { s with kernel := k, created := s.created ++ [pro], userPages := userPages }
  | turn (k : Kernel) (h : Turn s.created s.kernel k) : Effect s e { s with kernel := k }
  | report (child status regs : Nat) (he : e = .wait status regs)
      (hRunning : Running s.kernel)
      (h : s.created.find? s.kernel.zombieOfCaller = some child) :
      Effect s e (s.report child status)
  | departure (k : Kernel) (status : Option Nat) (he : e.Exits status)
      (hRunning : Running s.kernel) (h : Departure s.created s.kernel k)
      (hCode : ∀ v, status = some v →
        (k.processes s.kernel.currentProcess).exitCode = v) :
      Effect s e (s.depart k status)

/-- **Inversion of a step.** -/
theorem step_effect {s s' : State} {e : Event} (hT : Table s.kernel s.created)
    (hStep : step s e = some s') : s.kernel.halted = false ∧ Effect s e s' := by
  have hSame : ∀ frames, Turn s.created s.kernel { s.kernel with frames := frames } :=
    fun _ => { Turn.refl s.created s.kernel with }
  cases e with
  | create entry mode pro kernelStack userPage =>
      simp only [step] at hStep
      split at hStep
      · next hNew =>
          refine ⟨hNew.1, ?_⟩
          rcases sysCreateProcess_cases hT hNew.2.1 hNew.2.2 entry mode kernelStack userPage
            with hFail | ⟨hPro, k, hMade, hC⟩
          · rw [hFail, Option.map_some] at hStep
            cases hStep
            exact Effect.turn _ (Turn.refl _ _)
          · rw [hMade, Option.map_some] at hStep
            cases hStep
            simp only [if_neg hPro]
            exact Effect.creation pro _ k hNew.2 hPro hC
      · simp at hStep
  | fork regs pro kernelStack userPage =>
      simp only [step] at hStep
      split at hStep
      · next hNew =>
          refine ⟨hNew.1.1, ?_⟩
          rcases sysFork_cases hT hNew.2.1 hNew.2.2 regs kernelStack userPage
            with ⟨frames, hFail⟩ | ⟨hPro, k, hMade, hC⟩
          · rw [hFail, Option.map_some] at hStep
            cases hStep
            exact Effect.turn _ (hSame frames)
          · rw [hMade, Option.map_some] at hStep
            cases hStep
            have hPid : s.kernel.processNumber ≠ minusOne := by
              have := hT.number
              unfold minusOne
              omega
            simp only [if_neg hPid]
            exact Effect.creation pro _ k hNew.2 hPro hC
      · simp at hStep
  | yield regs =>
      simp only [step] at hStep
      split at hStep
      · next hRunning =>
          obtain ⟨k, hYield, hTurn⟩ := sysYield_turn hT hRunning.2 regs
          rw [hYield, Option.map_some] at hStep
          cases hStep
          exact ⟨hRunning.1, Effect.turn k hTurn⟩
      · simp at hStep
  | sleep regs time =>
      simp only [step] at hStep
      split at hStep
      · next hRunning =>
          obtain ⟨k, hSleep, hTurn⟩ := sysSleep_turn hT hRunning.2 regs time
          rw [hSleep, Option.map_some] at hStep
          cases hStep
          exact ⟨hRunning.1, Effect.turn k hTurn⟩
      · simp at hStep
  | wait status regs =>
      simp only [step] at hStep
      split at hStep
      · next hRunning =>
          rcases sysWait_cases hT hRunning.2 status regs with
            ⟨p, hFind, hp, hWait⟩ | ⟨-, k, hWait, hTurn⟩
          · rw [hWait, Option.map_some, if_neg hp] at hStep
            cases hStep
            exact ⟨hRunning.1, Effect.report p status regs rfl hRunning hFind⟩
          · rw [hWait, Option.map_some, if_pos rfl] at hStep
            cases hStep
            exact ⟨hRunning.1, Effect.turn k hTurn⟩
      · simp at hStep
  | exit status =>
      simp only [step] at hStep
      split at hStep
      · next hRunning =>
          obtain ⟨k, hExit, hDep, hCode⟩ := sysExit_spec hT hRunning.2 status
          rw [hExit, Option.map_some] at hStep
          cases hStep
          refine ⟨hRunning.1, Effect.departure k (some status) rfl hRunning hDep ?_⟩
          intro v hv
          rw [hCode]
          exact Option.some.inj hv
      · simp at hStep
  | finish =>
      simp only [step] at hStep
      split at hStep
      · next hRunning =>
          obtain ⟨k, hExit, hDep, -⟩ := exitProcess_spec hT hRunning.2
          rw [hExit, Option.map_some] at hStep
          cases hStep
          exact ⟨hRunning.1, Effect.departure k none rfl hRunning hDep (by simp)⟩
      · simp at hStep
  | tick regs =>
      simp only [step] at hStep
      split at hStep
      · next hOn =>
          obtain ⟨k, hTick, hTurn⟩ := irq0Handler_turn hT regs
          rw [hTick, Option.map_some] at hStep
          cases hStep
          exact ⟨hOn, Effect.turn k hTurn⟩
      · simp at hStep

/-! ## Writes of system calls -/

/-- The control block and the kernel stack of a new process are memory that nobody
has, as the allocators hand it out. -/
def Fresh (s : State) (pro kernelStack : Nat) : Prop :=
  Spare s.created s.kernel (blockExtent pro) ∧
    Spare s.created s.kernel (stackExtent kernelStack) ∧
    (blockExtent pro).Apart (stackExtent kernelStack)

instance (s : State) (pro kernelStack : Nat) : Decidable (Fresh s pro kernelStack) := by
  unfold Fresh
  infer_instance

/-- What `sys_fork` copies for the caller, from its `user_esp` up to the top of its
user page. -/
def stackUsed (k : Kernel) (regs : Nat) : Nat :=
  ((k.processes k.currentProcess).userStack + 4096 + (2 ^ 32 - (k.frames regs).userEsp)) % 2 ^ 32

/-- What a fork copies fits on the new stack page.  An empty stack at the end of the
address space is excluded, where the loop over the frame pointers starts anywhere. -/
def CopyFits (k : Kernel) (regs userPage : Nat) : Prop :=
  stackUsed k regs ≤ 4096 ∧ (stackUsed k regs = 0 → userPage + 4096 < 2 ^ 32)

instance (k : Kernel) (regs userPage : Nat) : Decidable (CopyFits k regs userPage) :=
  inferInstanceAs (Decidable (_ ∧ _))

/-- The addresses below this one are mapped to themselves until they are used. -/
def identityEnd : Nat := 0x400000

/-- The word at `a` is on the user stack of a process, or behind the identity map. -/
def InUserMemory (s : State) (a : Nat) : Prop :=
  (∃ page ∈ s.userPages, page ≤ a ∧ a + 4 ≤ page + 4096) ∨ identityEnd ≤ a

instance (s : State) (a : Nat) : Decidable (InUserMemory s a) := by
  unfold InUserMemory
  infer_instance

/-- A fork copies to a page that is none of the kernel's. -/
def CopiesBeside (s : State) : Event → Prop
  | .fork regs pro kernelStack userPage => Supplied processUser pro kernelStack userPage →
      Spare s.created s.kernel ⟨userPage, 4096⟩ ∧ CopyFits s.kernel regs userPage
  | _ => True

instance (s : State) : (e : Event) → Decidable (CopiesBeside s e)
  | .fork .. => inferInstanceAs (Decidable (_ → _))
  | .create .. | .yield _ | .sleep .. | .wait .. | .exit _ | .finish | .tick _ => .isTrue trivial

/-- The word that a wait stores is in user memory, and not in the kernel's own. -/
def StoresBeside (s : State) : Event → Prop
  | .wait status _ => s.created.find? s.kernel.zombieOfCaller ≠ none →
      Spare s.created s.kernel ⟨status, 4⟩ ∧ InUserMemory s status
  | _ => True

instance (s : State) : (e : Event) → Decidable (StoresBeside s e)
  | .wait .. => inferInstanceAs (Decidable (_ → _))
  | .create .. | .fork .. | .yield _ | .sleep .. | .exit _ | .finish | .tick _ => .isTrue trivial

/-- The event does not write into the kernel's own memory: a new process gets memory
that nobody has, what a fork copies fits on its page, and a wait stores elsewhere. -/
def Sparing (s : State) : Event → Prop
  | .create _ mode pro kernelStack userPage =>
      Supplied mode pro kernelStack userPage → Fresh s pro kernelStack
  | .fork regs pro kernelStack userPage =>
      (Supplied processUser pro kernelStack userPage → Fresh s pro kernelStack ∧
        (blockExtent pro).Apart ⟨userPage, 4096⟩ ∧
        (stackExtent kernelStack).Apart ⟨userPage, 4096⟩) ∧
      CopiesBeside s (.fork regs pro kernelStack userPage)
  | e => StoresBeside s e

instance (s : State) : (e : Event) → Decidable (Sparing s e)
  | .create .. => inferInstanceAs (Decidable (_ → _))
  | .fork .. => inferInstanceAs (Decidable (_ ∧ _))
  | .wait status regs => inferInstanceAs (Decidable (StoresBeside s (.wait status regs)))
  | .yield _ | .sleep .. | .exit _ | .finish | .tick _ => .isTrue trivial

theorem Sparing.storesBeside {s : State} {e : Event} (h : Sparing s e) : StoresBeside s e := by
  cases e with
  | wait => exact h
  | _ => trivial

/-- **A report of a wait that stores elsewhere** leaves what the kernel needs. -/
theorem StoresBeside.beside {s : State} {status regs child : Nat}
    (h : StoresBeside s (.wait status regs))
    (hFind : s.created.find? s.kernel.zombieOfCaller = some child) :
    Beside s.created s.kernel (s.report child status).kernel :=
  (h (by simp [hFind])).1.store (by decide) _

/-! ## Zombies -/

/-- Nobody exits after its parent: no exit finds a zombie to make ready. -/
def ParentAlive (s : State) : Event → Prop
  | .exit _ | .finish =>
      (s.kernel.processes s.kernel.currentProcess).parent = 0 ∨
        s.kernel.state (s.kernel.processes s.kernel.currentProcess).parent ≠ .zombie
  | _ => True

instance (s : State) : (e : Event) → Decidable (ParentAlive s e)
  | .exit _ | .finish => inferInstanceAs (Decidable (_ ∨ _))
  | .create .. | .fork .. | .yield _ | .sleep .. | .wait .. | .tick _ => .isTrue trivial

/-- Every process that has exited is a listed zombie and does not run. -/
structure Buried (s : State) : Prop where
  table : Table s.kernel s.created
  listed : ∀ x ∈ s.exited, x.process ∈ s.created
  zombie : ∀ x ∈ s.exited, s.kernel.state x.process = .zombie
  gone : ∀ x ∈ s.exited, s.kernel.currentProcess = x.process → s.kernel.halted = true

theorem boot_table (processes : Nat → Process) (frames : Nat → Registers)
    (ticks esp0 processEntry : Nat) :
    Table (boot processes frames ticks esp0 processEntry).kernel [] where
  linked := rfl
  range := by simp
  number := show 1 < 2 ^ 16 by decide
  current := Or.inr ⟨rfl, rfl⟩
  parent := by simp

theorem boot_buried (processes : Nat → Process) (frames : Nat → Registers)
    (ticks esp0 processEntry : Nat) :
    Buried (boot processes frames ticks esp0 processEntry) where
  table := boot_table processes frames ticks esp0 processEntry
  listed := by simp [boot]
  zombie := by simp [boot]
  gone := by simp [boot]

theorem ParentAlive.of_exits {s : State} {e : Event} {status : Option Nat}
    (h : ParentAlive s e) (he : e.Exits status) :
    (s.kernel.processes s.kernel.currentProcess).parent = 0 ∨
      s.kernel.state (s.kernel.processes s.kernel.currentProcess).parent ≠ .zombie := by
  cases e with
  | exit => exact h
  | finish => exact h
  | _ => exact he.elim

/-- The process is in its grave and stays there while others step. -/
theorem Buried.not_current {s : State} (h : Buried s) (hOn : s.kernel.halted = false)
    {x : Exit} (hx : x ∈ s.exited) : x.process ≠ s.kernel.currentProcess := by
  intro hEq
  have := h.gone x hx hEq.symm
  simp [hOn] at this

/-- **One step keeps the dead buried**, unless a process exits after its parent or a
wait stores into the table. -/
theorem step_buried (s : State) (e : Event) (s' : State) (h : Buried s)
    (hOk : ParentAlive s e ∧ Sparing s e) (hStep : step s e = some s') : Buried s' := by
  obtain ⟨hAlive, hSparing⟩ := hOk
  obtain ⟨hOn, hEffect⟩ := step_effect h.table hStep
  cases hEffect with
  | creation pro pages k hNew hNonzero hC =>
      have hOther : ∀ x ∈ s.exited, x.process ≠ pro :=
        fun x hx hEq => hNew.2 (hEq ▸ h.listed x hx)
      refine
        { table := hC.table
          listed := fun x hx => List.mem_append_left _ (h.listed x hx)
          zombie := ?_
          gone := ?_ }
      · intro x hx
        rw [Kernel.state, hC.other x.process (hOther x hx)]
        exact h.zombie x hx
      · intro x hx hEq
        rcases hC.current with hSame | ⟨-, hFirst⟩
        · exact absurd (hEq.symm.trans hSame) (h.not_current hOn hx)
        · exact absurd (hEq.symm.trans hFirst) (hOther x hx)
  | turn k hTurn =>
      have hZombie : ∀ x ∈ s.exited, k.state x.process = .zombie :=
        fun x hx => hTurn.zombie _ (h.not_current hOn hx) (h.zombie x hx)
      refine
        { table := hTurn.table h.table
          listed := h.listed
          zombie := hZombie
          gone := ?_ }
      intro x hx hEq
      rcases hTurn.current with hSame | ⟨-, hReady⟩
      · exact absurd (hEq.symm.trans hSame) (h.not_current hOn hx)
      · have hDead := hZombie x hx
        simp only at hEq
        rw [← hEq, hReady] at hDead
        simp at hDead
  | report child status regs he hRunning hFind =>
      subst he
      have hBeside := hSparing.storesBeside.beside hFind
      exact
        { table := hBeside.table h.table
          listed := h.listed
          zombie := fun x hx => (hBeside.state (h.listed x hx)).trans (h.zombie x hx)
          gone := fun x hx hEq =>
            hBeside.halted.trans (h.gone x hx (hBeside.current.symm.trans hEq)) }
  | departure k status he hRunning hDep hCode =>
      have hZombie : ∀ x ∈ (s.depart k status).exited, k.state x.process = .zombie := by
        intro x hx
        rcases List.mem_cons.mp hx with rfl | hx
        · exact hDep.dead
        · rw [hDep.state x.process (h.not_current hOn hx), if_neg, h.zombie x hx]
          rintro ⟨hNonzero, hParent⟩
          rcases hAlive.of_exits he with h0 | hNot
          · exact hNonzero (hParent.trans h0)
          · exact hNot (hParent ▸ h.zombie x hx)
      refine
        { table := hDep.table h.table
          listed := ?_
          zombie := hZombie
          gone := ?_ }
      · intro x hx
        rcases List.mem_cons.mp hx with rfl | hx
        · exact h.table.caller hRunning.2
        · exact h.listed x hx
      · intro x hx hEq
        rcases hDep.current with ⟨hHalted, -⟩ | ⟨-, hReady⟩
        · exact hHalted
        · have hDead := hZombie x hx
          have hCurrent : k.currentProcess = x.process := hEq
          rw [← hCurrent, hReady] at hDead
          simp at hDead

/-- **Exited processes stay dead** in a sparing run, as long as none exits after
its parent: they are zombies, `schedule` does not return them, and none of them is
current again unless the machine has stopped on it. -/
theorem zombies_stay_dead {processes : Nat → Process} {frames : Nat → Registers}
    {ticks esp0 processEntry : Nat} {events : List Event} {s : State}
    (hRun : exec step (boot processes frames ticks esp0 processEntry) events = some s)
    (hAlive : Meets step ParentAlive (boot processes frames ticks esp0 processEntry) events)
    (hSparing : Meets step Sparing (boot processes frames ticks esp0 processEntry) events) :
    ∀ x ∈ s.exited, s.kernel.state x.process = .zombie ∧
      s.kernel.schedule ≠ some x.process ∧
      (s.kernel.currentProcess = x.process → s.kernel.halted = true) := by
  have h := (hAlive.and hSparing).invariant step_buried
    (boot_buried processes frames ticks esp0 processEntry) hRun
  intro x hx
  refine ⟨h.zombie x hx, fun hNext => ?_, h.gone x hx⟩
  have hListed := h.listed x hx
  have hNonzero : x.process ≠ 0 := h.table.linked.ne_zero _ hListed
  have hRunning : s.kernel.currentProcess ≠ 0 := by
    rcases h.table.current with hIn | ⟨hNil, -⟩
    · exact h.table.linked.ne_zero _ hIn
    · simp [hNil] at hListed
  obtain ⟨next, hSchedule, hCase⟩ := schedule_spec h.table hRunning
  rw [hSchedule] at hNext
  cases hNext
  rcases hCase with h0 | ⟨-, hReady, -⟩
  · exact hNonzero h0
  · rw [h.zombie x hx] at hReady
    simp at hReady

/-- Memory full of zeros, as the runs on fixed inputs find it. -/
def blank : State :=
  boot
    (fun _ =>
      { pid := 0, kernelStack := 0, kernelStackTo := 0, regs := 0, state := .ready
        exitCode := 0, entry := 0, wake := 0, next := 0, parent := 0, userStack := 0 })
    (fun _ =>
      { gs := 0, fs := 0, es := 0, ds := 0, edi := 0, esi := 0, ebp := 0, esp := 0, ebx := 0,
        edx := 0, ecx := 0, eax := 0, eip := 0, cs := 0, eflags := 0, userEsp := 0,
        userSs := 0 })
    0 0 0x10A00

/-- A parent waits for its child, which exits first. -/
theorem zombies_stay_dead_child :
    ∃ s, exec step blank
        [.create 0x10B00 1 0x26009 0x27000 0x2B000, .fork 0x2AFBC 0x26042 0x2C000 0x30000,
          .wait 0x2BFF0 0x2AFBC, .exit 42, .tick 0x2AFBC] = some s ∧
      s.exited = [⟨0x26042, some 42⟩] ∧ s.kernel.currentProcess = 0x26009 ∧
      ∀ x ∈ s.exited, s.kernel.state x.process = .zombie ∧
        s.kernel.schedule ≠ some x.process ∧
        (s.kernel.currentProcess = x.process → s.kernel.halted = true) := by
  have hView : (exec step blank
      [.create 0x10B00 1 0x26009 0x27000 0x2B000, .fork 0x2AFBC 0x26042 0x2C000 0x30000,
        .wait 0x2BFF0 0x2AFBC, .exit 42, .tick 0x2AFBC]).map
        (fun s => (s.exited, s.kernel.currentProcess)) =
      some ([⟨0x26042, some 42⟩], 0x26009) := by decide +kernel
  obtain ⟨s, hRun, hs⟩ := Option.map_eq_some_iff.mp hView
  rw [Prod.mk.injEq] at hs
  exact ⟨s, hRun, hs.1, hs.2, zombies_stay_dead hRun (by decide +kernel) (by decide +kernel)⟩

/-- The parent exits, then its child: the parent is ready again and runs.  And a
parent that waits with `&child->state` for its zombie, whose exit code is `0`, makes
it ready. -/
theorem dead_parent_revived :
    (∃ s ∈ exec step blank
        [.create 0x10B00 1 0x26009 0x27000 0x2B000, .fork 0x2AFBC 0x26042 0x2C000 0x30000,
          .exit 7, .exit 42],
        ⟨0x26009, some 7⟩ ∈ s.exited ∧ s.kernel.state 0x26009 = .ready ∧
          s.kernel.currentProcess = 0x26009 ∧ s.kernel.halted = false) ∧
    ∃ s ∈ exec step blank
        [.create 0x10B00 1 0x26009 0x27000 0x2B000, .fork 0x2AFBC 0x26042 0x2C000 0x30000,
          .yield 0x2AFBC, .exit 0, .wait 0x26056 0x2AFBC, .yield 0x2AFBC],
        s.exited = [⟨0x26042, some 0⟩] ∧ s.kernel.currentProcess = 0x26042 ∧
          s.kernel.halted = false := by
  decide +kernel

end MiniKernel.Ports.ProcessRuns
