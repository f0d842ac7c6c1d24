import MiniKernel.Ports.ProcessSwitch
import MiniKernel.Ports.ElfFrame

/-!
# Timer ticks while the kernel boots

`kernel()` builds the process list with interrupts on, on the boot stack, and
leaves it with `restore_esp`.  `irq0_handler` takes whatever it interrupts for
`current_process`.  The code from `sti` up to `restore_esp` is here a list of
actions, one for each assignment, and a tick may come before any of them.  What
`kernel()` does besides (the screen, `switch_mode`, paging, `elf_load_file`) does
not touch the process table.

The run goes on until the processes that `kernel()` creates have run, so that it
can be said with which frame each of them starts.
-/

namespace MiniKernel.Ports.BootTicks

open MiniKernel.Verified.Extents
open MiniKernel.Verified.Links
open MiniKernel.Verified.Trace
open MiniKernel.Ports.Kmalloc (addresses)
open MiniKernel.Ports.ElfFrame (userStackTop)
open MiniKernel.Ports.ProcessTable
open MiniKernel.Ports.ProcessTable.Kernel
open MiniKernel.Ports.ProcessSteps
open MiniKernel.Ports.ProcessSwitch

/-! ## The code of `create_process`, assignment by assignment -/

/-- The kernel, and the local variable `current` of `add_process`. -/
structure Machine where
  kernel : Kernel
  current : Nat

inductive Action
  /-- An assignment to the control block. -/
  | block (pro : Nat) (f : Process → Process)
  /-- `pro->pid = process_number++`. -/
  | number (pro : Nat)
  /-- An assignment to the frame, which may use the address of `process_entry`. -/
  | frame (slot : Nat) (f : Nat → Registers → Registers)
  /-- `pro->parent = current_process`. -/
  | parent (pro : Nat)
  /-- `current = process_list`. -/
  | head
  /-- `process_list = pro`, if `current == NULL`. -/
  | first (pro : Nat)
  /-- `current_process = pro`, if `current == NULL`. -/
  | running (pro : Nat)
  /-- `while (current->next != NULL) current = current->next`, after that branch. -/
  | last
  /-- `current->next = pro`. -/
  | append (pro : Nat)

/-- The end of the list from `p` on. -/
def findLast (k : Kernel) (p : Nat) : Option Nat :=
  seek k.next (fun q => k.next q == 0) 0 addresses p

/-- `process_number++`. -/
def count (k : Kernel) : Kernel := { k with processNumber := (k.processNumber + 1) % 2 ^ 16 }

def Action.run : Action → Machine → Option Machine
  | .block pro f, m => some { m with kernel := m.kernel.modify pro f }
  | .number pro, m =>
      some { m with
        kernel := count (m.kernel.modify pro fun p => { p with pid := m.kernel.processNumber }) }
  | .frame slot f, m =>
      some { m with kernel := m.kernel.modifyFrame slot (f m.kernel.processEntry) }
  | .parent pro, m =>
      some { m with
        kernel := m.kernel.modify pro fun p => { p with parent := m.kernel.currentProcess } }
  | .head, m => some { m with current := m.kernel.processList }
  | .first pro, m =>
      some (if m.current = 0 then { m with kernel := { m.kernel with processList := pro } } else m)
  | .running pro, m =>
      some (if m.current = 0 then { m with kernel := { m.kernel with currentProcess := pro } }
        else m)
  | .last, m =>
      if m.current = 0 then some m
      else
        (findLast m.kernel m.current).map fun p => { m with current := p }
  | .append pro, m =>
      some (if m.current = 0 then m
        else { m with kernel := m.kernel.modify m.current fun p => { p with next := pro } })

/-- The actions without a tick between them. -/
def runAll (actions : List Action) (m : Machine) : Option Machine :=
  actions.foldlM (fun m a => a.run m) m

/-- A call of `create_process` in `kernel()`, with what `kmalloc` and the page
allocators return; `loaded` is the entry point that `create_elf_process` puts into
the frame afterwards. -/
structure Call where
  entry : Nat
  mode : Nat
  pro : Nat
  kernelStack : Nat
  userPage : Nat
  loaded : Option Nat

/-- The call gets what it asks for. -/
def Call.Made (c : Call) : Prop := Supplied c.mode c.pro c.kernelStack c.userPage

instance (c : Call) : Decidable c.Made := inferInstanceAs (Decidable (Supplied ..))

/-- Where the frame of the process is. -/
def Call.slot (c : Call) : Nat := (c.kernelStack + kernelStackSize - sizeofRegisters) % 2 ^ 32

def Call.kernelStackTo (c : Call) : Nat := (c.kernelStack + kernelStackSize) % 2 ^ 32

/-- The local variable `user_stack`. -/
def Call.userStack (c : Call) : Nat := if c.mode = processUser then c.userPage else 0

def zeroFrame : Registers where
  gs := 0
  fs := 0
  es := 0
  ds := 0
  edi := 0
  esi := 0
  ebp := 0
  esp := 0
  ebx := 0
  edx := 0
  ecx := 0
  eax := 0
  eip := 0
  cs := 0
  eflags := 0
  userEsp := 0
  userSs := 0

/-- `memset` and the assignments to the frame. -/
def Call.frameAssignments (c : Call) : List (Nat → Registers → Registers) :=
  (fun _ _ => zeroFrame) ::
    if c.mode = processKernel then
      [ fun _ r => { r with gs := kernelDs }
      , fun _ r => { r with fs := kernelDs }
      , fun _ r => { r with es := kernelDs }
      , fun _ r => { r with ds := kernelDs }
      , fun processEntry r => { r with eip := processEntry }
      , fun _ r => { r with cs := kernelCs }
      , fun _ r => { r with eflags := 0x202 }
      , fun _ r => { r with esp := c.kernelStackTo } ]
    else
      [ fun _ r => { r with gs := userDs }
      , fun _ r => { r with fs := userDs }
      , fun _ r => { r with es := userDs }
      , fun _ r => { r with ds := userDs }
      , fun _ r => { r with eip := c.entry }
      , fun _ r => { r with cs := userCs }
      , fun _ r => { r with eflags := 0x202 }
      , fun _ r => { r with esp := c.kernelStackTo }
      , fun _ r => { r with userEsp := (c.userStack + 4096) % 2 ^ 32 }
      , fun _ r => { r with userSs := userDs } ]

/-- The assignments to the control block before `process_number` is read. -/
def Call.firstAssignments (c : Call) : List (Process → Process) :=
  (if c.mode = processUser then [fun p => { p with userStack := c.userStack }] else []) ++
  [ fun p => { p with regs := c.slot }
  , fun p => { p with kernelStack := c.kernelStack }
  , fun p => { p with kernelStackTo := c.kernelStackTo } ]

/-- The assignments behind it. -/
def Call.nextAssignments (c : Call) : List (Process → Process) :=
  [ fun p => { p with state := .ready }
  , fun p => { p with wake := 0 }
  , fun p => { p with next := 0 }
  , fun p => { p with entry := c.entry } ]

/-- `create_process` up to `add_process`. -/
def Call.prepare (c : Call) : List Action :=
  c.firstAssignments.map (.block c.pro) ++ .number c.pro :: c.nextAssignments.map (.block c.pro) ++
    c.frameAssignments.map (.frame c.slot) ++ [.parent c.pro]

/-- `add_process`. -/
def link (pro : Nat) : List Action :=
  [.block pro fun p => { p with next := 0 }, .head, .first pro, .running pro, .last, .append pro]

/-- What `create_elf_process` does to the frame. -/
def Call.finish (c : Call) : List Action :=
  match c.loaded with
  | none => []
  | some entry =>
      [ .frame c.slot fun _ r => { r with eip := entry }
      , .frame c.slot fun _ r => { r with userEsp := userStackTop } ]

def Call.code (c : Call) : List Action :=
  if c.Made then c.prepare ++ (link c.pro ++ c.finish) else []

/-! ### It is `create_process` -/

theorem runAll_append (as bs : List Action) (m : Machine) :
    runAll (as ++ bs) m = (runAll as m).bind (runAll bs) := List.foldlM_append

theorem runAll_cons (a : Action) (as : List Action) (m : Machine) :
    runAll (a :: as) m = (a.run m).bind (runAll as) := rfl

theorem runAll_nil (m : Machine) : runAll [] m = some m := rfl

theorem modify_modify (k : Kernel) (p : Nat) (f g : Process → Process) :
    (k.modify p f).modify p g = k.modify p fun b => g (f b) := by
  unfold Kernel.modify
  congr 1
  funext q
  by_cases hq : q = p
  · simp only [if_pos hq]
  · simp only [if_neg hq]

theorem modifyFrame_modifyFrame (k : Kernel) (r : Nat) (f g : Registers → Registers) :
    (k.modifyFrame r f).modifyFrame r g = k.modifyFrame r fun b => g (f b) := by
  unfold Kernel.modifyFrame
  congr 1
  funext q
  by_cases hq : q = r
  · simp only [if_pos hq]
  · simp only [if_neg hq]

/-- Assignments to one control block come to one assignment. -/
theorem run_blocks (pro : Nat) (fs : List (Process → Process)) (m : Machine) :
    runAll (fs.map (.block pro)) m =
      some { m with kernel := m.kernel.modify pro fun p => fs.foldl (fun p f => f p) p } := by
  induction fs generalizing m with
  | nil =>
      have hSame : (m.kernel.modify pro fun p => p) = m.kernel := by
        unfold Kernel.modify
        simp only [ite_self]
      simp only [List.map_nil, List.foldl_nil, hSame]
      rfl
  | cons f fs ih =>
      rw [List.map_cons, runAll_cons, Action.run, Option.bind_some, ih]
      simp only [modify_modify, List.foldl_cons]

/-- So do assignments to one frame. -/
theorem run_frames (slot : Nat) (fs : List (Nat → Registers → Registers)) (m : Machine) :
    runAll (fs.map (.frame slot)) m =
      some
        { m with
          kernel := m.kernel.modifyFrame slot fun r =>
            fs.foldl (fun r f => f m.kernel.processEntry r) r } := by
  induction fs generalizing m with
  | nil =>
      have hSame : (m.kernel.modifyFrame slot fun r => r) = m.kernel := by
        unfold Kernel.modifyFrame
        simp only [ite_self]
      simp only [List.map_nil, List.foldl_nil, hSame]
      rfl
  | cons f fs ih =>
      have hEntry : (m.kernel.modifyFrame slot (f m.kernel.processEntry)).processEntry =
          m.kernel.processEntry := rfl
      rw [List.map_cons, runAll_cons, Action.run, Option.bind_some, ih]
      simp only [modifyFrame_modifyFrame, List.foldl_cons, hEntry]

/-- The kernel before `add_process`. -/
def Call.prepared (c : Call) (k : Kernel) : Kernel :=
  let k := k.modify c.pro fun p =>
    { p with
      userStack := if c.mode = processUser then c.userStack else p.userStack
      regs := c.slot
      kernelStack := c.kernelStack
      kernelStackTo := c.kernelStackTo
      pid := k.processNumber
      state := .ready
      wake := 0
      next := 0
      entry := c.entry }
  let k := count k
  let k := k.modifyFrame c.slot fun _ => k.initialFrame c.entry c.mode c.kernelStack c.userStack
  k.modify c.pro fun p => { p with parent := k.currentProcess }

theorem createProcess_prepared {c : Call} (h : c.Made) (k : Kernel) :
    k.createProcess c.entry c.mode c.pro c.kernelStack c.userPage =
      ((c.prepared k).addProcess c.pro).map fun k => (c.pro, k) := by
  unfold createProcess
  rw [if_neg h.1, if_neg h.2.1, if_neg h.2.2]
  rfl

theorem run_prepare (c : Call) (m : Machine) :
    runAll c.prepare m = some { m with kernel := c.prepared m.kernel } := by
  have hFrame (k : Kernel) (r : Registers) :
      c.frameAssignments.foldl (fun r f => f k.processEntry r) r =
        k.initialFrame c.entry c.mode c.kernelStack c.userStack := by
    unfold Call.frameAssignments initialFrame
    split
    · rfl
    · rfl
  have hBlock (p : Process) :
      c.firstAssignments.foldl (fun p f => f p) p =
        { p with
          userStack := if c.mode = processUser then c.userStack else p.userStack
          regs := c.slot
          kernelStack := c.kernelStack
          kernelStackTo := c.kernelStackTo } := by
    unfold Call.firstAssignments
    split
    · rfl
    · rfl
  unfold Call.prepare
  simp only [runAll_append, run_blocks, runAll_cons, Action.run, Option.bind_some, run_frames,
    hFrame, hBlock]
  have hCount (k : Kernel) (f : Process → Process) :
      (count k).modify c.pro f = count (k.modify c.pro f) := rfl
  simp only [hCount, modify_modify]
  rfl

theorem run_last (m : Machine) (h : m.current ≠ 0) :
    Action.last.run m = (findLast m.kernel m.current).map fun p => { m with current := p } :=
  if_neg h

/-- The end of a list that is not empty is a node. -/
theorem seek_last {next : Nat → Nat} {turns a last : Nat} (ha : a ≠ 0)
    (h : seek next (fun q => next q == 0) 0 turns a = some last) : last ≠ 0 := by
  induction turns generalizing a with
  | zero => cases h
  | succ turns ih =>
      rw [seek, if_neg ha] at h
      split at h
      · exact Option.some.inj h ▸ ha
      · next hNext => exact ih (by simpa using hNext) h

/-- `add_process`, up to what is left in the local variable. -/
theorem run_link {k k' : Kernel} {pro : Nat} (current : Nat) (h : k.addProcess pro = some k') :
    ∃ current', runAll (link pro) { kernel := k, current := current } =
      some { kernel := k', current := current' } := by
  unfold addProcess at h
  rw [link, runAll_cons, Action.run, Option.bind_some, runAll_cons, Action.run, Option.bind_some]
  generalize k.modify pro (fun p => { p with next := 0 }) = k₀ at *
  simp only
  by_cases hEmpty : k₀.processList = 0
  · rw [if_pos hEmpty] at h
    cases h
    refine ⟨0, ?_⟩
    rw [runAll_cons, Action.run, if_pos hEmpty, Option.bind_some, runAll_cons, Action.run,
      if_pos hEmpty, Option.bind_some, runAll_cons, Action.run, if_pos hEmpty, Option.bind_some,
      runAll_cons, Action.run, if_pos hEmpty, Option.bind_some, runAll_nil, hEmpty]
  · simp only [if_neg hEmpty] at h
    obtain ⟨last, hLast, rfl⟩ := Option.map_eq_some_iff.mp h
    have hSome : last ≠ 0 := seek_last hEmpty hLast
    have hLast : findLast k₀ k₀.processList = some last := hLast
    refine ⟨last, ?_⟩
    rw [runAll_cons, Action.run, if_neg hEmpty, Option.bind_some, runAll_cons, Action.run,
      if_neg hEmpty, Option.bind_some, runAll_cons, run_last _ hEmpty, hLast, Option.map_some,
      Option.bind_some, runAll_cons, Action.run, if_neg hSome, Option.bind_some, runAll_nil]

theorem createProcess_add {c : Call} {k k' : Kernel} (h : c.Made)
    (hCreate : k.createProcess c.entry c.mode c.pro c.kernelStack c.userPage =
      some (c.pro, k')) : (c.prepared k).addProcess c.pro = some k' := by
  rw [createProcess_prepared h] at hCreate
  obtain ⟨k₁, hAdd, hEq⟩ := Option.map_eq_some_iff.mp hCreate
  cases hEq
  exact hAdd

/-- **The actions are `create_process`**: without a tick between them they do the same. -/
theorem run_create {c : Call} {k k' : Kernel} (h : c.Made)
    (hCreate : k.createProcess c.entry c.mode c.pro c.kernelStack c.userPage = some (c.pro, k'))
    (current : Nat) : ∃ current', runAll (c.prepare ++ link c.pro)
      { kernel := k, current := current } = some { kernel := k', current := current' } := by
  rw [runAll_append, run_prepare, Option.bind_some]
  exact run_link current (createProcess_add h hCreate)

/-! ## What a tick finds -/

/-- At most one process is listed. -/
structure Idle (k : Kernel) (listed : List Nat) : Prop where
  linked : Linked k.next k.processList listed
  short : listed.length ≤ 1
  current : k.currentProcess = 0 ∨ listed = [k.currentProcess]
  ready : ∀ p ∈ listed, k.state p = .ready

/-- The kernel after a tick that changes nothing but the clock. -/
def ticked (k : Kernel) : Kernel := { k with ticks := (k.ticks + 1) % 2 ^ 32 }

/-- Waking processes of which none is blocked. -/
theorem wakeProcesses_ready {k : Kernel} {listed : List Nat}
    (hLinked : Linked k.next k.processList listed) (hShort : listed.length < addresses)
    (hReady : ∀ p ∈ listed, k.state p = .ready) : k.wakeProcesses = some k := by
  rw [wakeProcesses_linked hLinked hShort]
  congr 1
  have hSame : (fun p => if p ∈ listed then wokenBlock k.ticks (k.processes p)
      else k.processes p) = k.processes := by
    funext p
    split
    · next hp =>
        have hState : (k.processes p).state = .ready := hReady p hp
        unfold wokenBlock
        rw [if_neg]
        rintro ⟨hBlocked, -⟩
        rw [hState] at hBlocked
        cases hBlocked
    · rfl
  rw [hSame]

/-- **A tick with at most one process** only counts. -/
theorem Idle.tick {k : Kernel} {listed : List Nat} (h : Idle k listed) (regs : Nat) :
    k.irq0Handler regs = some (ticked k) := by
  have hShort : listed.length < addresses := Nat.lt_of_le_of_lt h.short (by decide)
  unfold irq0Handler
  simp only
  split
  · rfl
  · next hSome =>
      obtain ⟨hCurrent, -⟩ := not_or.mp hSome
      have hListed : listed = [k.currentProcess] := h.current.resolve_left hCurrent
      have hLinked : Linked (ticked k).next (ticked k).processList listed := h.linked
      have hReady : ∀ p ∈ listed, (ticked k).state p = .ready := h.ready
      have hWake : (ticked k).wakeProcesses = some (ticked k) :=
        wakeProcesses_ready hLinked hShort hReady
      have hSchedule : (ticked k).schedule = some 0 := by
        have hIn : (ticked k).currentProcess ∈ listed := by
          rw [hListed]
          exact List.mem_singleton.mpr rfl
        rw [schedule_around hLinked hShort hIn, heir, hListed]
        simp [around, ticked]
      change (ticked k).wakeProcesses.bind (fun k => k.sysYield regs) = some (ticked k)
      unfold sysYield
      rw [hWake, Option.bind_some, hWake, Option.bind_some, hSchedule, Option.map_some, if_neg]
      exact fun hNext => hNext.1 rfl

/-! ## The code between ticks -/

theorem Idle.congr {k k' : Kernel} {listed : List Nat} (h : Idle k listed)
    (hList : k'.processList = k.processList) (hCurrent : k'.currentProcess = k.currentProcess)
    (hBlocks : ∀ p ∈ listed, k'.processes p = k.processes p) : Idle k' listed where
  linked := by
    rw [hList]
    exact h.linked.congr fun p hp => congrArg Process.next (hBlocks p hp)
  short := h.short
  current := by
    rw [hCurrent]
    exact h.current
  ready p hp := by
    rw [Kernel.state, hBlocks p hp]
    exact h.ready p hp

/-- A tick finds at most one process before each of the actions. -/
def CalmAlong : List Action → Machine → Prop
  | [], _ => True
  | a :: as, m => (∃ listed, Idle m.kernel listed) ∧ ∀ m', a.run m = some m' → CalmAlong as m'

theorem calmAlong_append {as bs : List Action} {m : Machine} (h : CalmAlong as m)
    (h' : ∀ m', runAll as m = some m' → CalmAlong bs m') : CalmAlong (as ++ bs) m := by
  induction as generalizing m with
  | nil => exact h' m rfl
  | cons a as ih =>
      refine ⟨h.1, fun m₁ hRun => ih (h.2 m₁ hRun) fun m' hRest => h' m' ?_⟩
      rw [runAll_cons, hRun, Option.bind_some, hRest]

/-- The action assigns to the new control block, or to a frame. -/
def Action.Aside (pro : Nat) : Action → Prop
  | .block p _ | .number p | .parent p => p = pro
  | .frame .. => True
  | _ => False

theorem Action.Aside.idle {pro : Nat} {listed : List Nat} {a : Action} (ha : a.Aside pro)
    (hNew : pro ∉ listed) {m m' : Machine} (h : Idle m.kernel listed) (hRun : a.run m = some m') :
    Idle m'.kernel listed := by
  have hOther : ∀ q ∈ listed, q ≠ pro := fun q hq hEq => hNew (hEq ▸ hq)
  cases a with
  | block p f =>
      obtain rfl : p = pro := ha
      cases hRun
      exact h.congr rfl rfl fun q hq => if_neg (hOther q hq)
  | number p =>
      obtain rfl : p = pro := ha
      cases hRun
      exact h.congr rfl rfl fun q hq => if_neg (hOther q hq)
  | parent p =>
      obtain rfl : p = pro := ha
      cases hRun
      exact h.congr rfl rfl fun q hq => if_neg (hOther q hq)
  | frame slot f =>
      cases hRun
      exact h.congr rfl rfl fun _ _ => rfl
  | _ => exact ha.elim

theorem aside_calm {pro : Nat} {listed : List Nat} (hNew : pro ∉ listed) {as : List Action}
    (has : ∀ a ∈ as, a.Aside pro) {m : Machine} (h : Idle m.kernel listed) :
    CalmAlong as m ∧ ∀ m', runAll as m = some m' → Idle m'.kernel listed := by
  induction as generalizing m with
  | nil =>
      refine ⟨trivial, fun m' hRun => ?_⟩
      cases hRun
      exact h
  | cons a as ih =>
      have hFirst := has a (by simp)
      have hRest (m₁ : Machine) (hRun : a.run m = some m₁) :=
        ih (fun a ha => has a (by simp [ha])) (hFirst.idle hNew h hRun)
      refine ⟨⟨⟨listed, h⟩, fun m₁ hRun => (hRest m₁ hRun).1⟩, fun m' hRun => ?_⟩
      rw [runAll_cons] at hRun
      obtain ⟨m₁, hStep, hRun⟩ := Option.bind_eq_some_iff.mp hRun
      exact (hRest m₁ hStep).2 m' hRun

/-- The actions of `add_process`, up to the last one. -/
theorem link_calm {pro : Nat} {listed : List Nat} (hNew : pro ∉ listed) (hPro : pro ≠ 0)
    {m : Machine} (h : Idle m.kernel listed) (hReady : m.kernel.state pro = .ready) :
    CalmAlong (link pro) m := by
  have hStart : Idle (m.kernel.modify pro fun p => { p with next := 0 }) listed :=
    Action.Aside.idle (a := .block pro fun p => { p with next := 0 }) rfl hNew h rfl
  have hEnd : (m.kernel.modify pro fun p => { p with next := 0 }).next pro = 0 := by
    rw [Kernel.next, modify_processes_self]
  have hState : (m.kernel.modify pro fun p => { p with next := 0 }).state pro = .ready := by
    rw [Kernel.state, modify_processes_self]
    exact hReady
  refine ⟨⟨listed, h⟩, fun m₁ hRun => ?_⟩
  cases hRun
  generalize m.kernel.modify pro (fun p => { p with next := 0 }) = k₀ at *
  refine ⟨⟨listed, hStart⟩, fun m₁ hRun => ?_⟩
  cases hRun
  refine ⟨⟨listed, hStart⟩, fun m₁ hRun => ?_⟩
  cases hRun
  by_cases hEmpty : k₀.processList = 0
  · -- the list is empty, and `pro` becomes its head before it becomes the current process
    have hNil : listed = [] := hStart.linked.unique (hEmpty ▸ linked_nil.mpr rfl)
    have hNobody : k₀.currentProcess = 0 := by
      rcases hStart.current with h0 | hOne
      · exact h0
      · rw [hNil] at hOne
        cases hOne
    have hIdle (current : Nat) (hCurrent : current = 0 ∨ current = pro) :
        Idle { k₀ with processList := pro, currentProcess := current } [pro] :=
      { linked := ⟨rfl, hPro, hEnd⟩
        short := Nat.le_refl 1
        current := hCurrent.imp id fun hEq => by rw [hEq]
        ready := fun p hp => List.mem_singleton.mp hp ▸ hState }
    simp only [if_pos hEmpty]
    refine ⟨⟨[pro], hNobody ▸ hIdle k₀.currentProcess (Or.inl hNobody)⟩, fun m₁ hRun => ?_⟩
    cases hRun
    simp only [if_pos hEmpty]
    refine ⟨⟨[pro], hIdle pro (Or.inr rfl)⟩, fun m₁ hRun => ?_⟩
    rw [Action.run, if_pos hEmpty] at hRun
    cases hRun
    exact ⟨⟨[pro], hIdle pro (Or.inr rfl)⟩, fun _ _ => trivial⟩
  · simp only [if_neg hEmpty]
    refine ⟨⟨listed, hStart⟩, fun m₁ hRun => ?_⟩
    cases hRun
    simp only [if_neg hEmpty]
    refine ⟨⟨listed, hStart⟩, fun m₁ hRun => ?_⟩
    rw [run_last _ hEmpty] at hRun
    obtain ⟨last, -, rfl⟩ := Option.map_eq_some_iff.mp hRun
    exact ⟨⟨listed, hStart⟩, fun _ _ => trivial⟩

/-! ## Stages of the list -/

/-- What `create_elf_process` changes in the frame. -/
def Call.patch (c : Call) (r : Registers) : Registers :=
  match c.loaded with
  | none => r
  | some entry => { r with eip := entry, userEsp := userStackTop }

/-- The frame that `create_process` or `create_elf_process` sets up. -/
def Call.frame (c : Call) (k : Kernel) : Registers :=
  c.patch (k.initialFrame c.entry c.mode c.kernelStack c.userStack)

theorem Call.frame_congr (c : Call) {k k' : Kernel} (h : k'.processEntry = k.processEntry) :
    c.frame k' = c.frame k := by
  unfold Call.frame initialFrame
  rw [h]

/-- The processes of these calls are listed, and none of them has run. -/
structure Stage (k : Kernel) (calls : List Call) : Prop where
  table : Table k (calls.map Call.pro)
  ready : ∀ c ∈ calls, k.state c.pro = .ready
  slot : ∀ c ∈ calls, (k.processes c.pro).regs = c.slot
  frame : ∀ c ∈ calls, k.frames c.slot = c.frame k

theorem Stage.idle {k : Kernel} {calls : List Call} (h : Stage k calls)
    (hShort : calls.length ≤ 1) : Idle k (calls.map Call.pro) where
  linked := h.table.linked
  short := by rwa [List.length_map]
  current := by
    rcases h.table.current with hIn | ⟨-, h0⟩
    · obtain ⟨c, hc, hPro⟩ := List.mem_map.mp hIn
      match calls, hShort, hc with
      | [d], _, hc =>
          obtain rfl := List.mem_singleton.mp hc
          exact Or.inr (congrArg (fun p => [p]) hPro)
    · exact Or.inl h0
  ready p hp := by
    obtain ⟨c, hc, rfl⟩ := List.mem_map.mp hp
    exact h.ready c hc

theorem prepared_frames (c : Call) (k : Kernel) :
    (c.prepared k).frames = (k.modifyFrame c.slot fun _ =>
      k.initialFrame c.entry c.mode c.kernelStack c.userStack).frames := rfl

theorem addProcess_entry {k k' : Kernel} {pro : Nat} (h : k.addProcess pro = some k') :
    k'.processEntry = k.processEntry := by
  unfold addProcess at h
  simp only at h
  split at h
  · cases h
    rfl
  · obtain ⟨last, -, rfl⟩ := Option.map_eq_some_iff.mp h
    rfl

theorem run_finish (c : Call) (m : Machine) :
    runAll c.finish m = some { m with kernel := m.kernel.modifyFrame c.slot c.patch } := by
  unfold Call.finish Call.patch
  cases c.loaded with
  | none => exact run_frames c.slot [] m
  | some entry =>
      exact run_frames c.slot
        [fun _ r => { r with eip := entry }, fun _ r => { r with userEsp := userStackTop }] m

/-- What a call has done when `add_process` returns. -/
structure Call.Listed (c : Call) (created : List Nat) (k k' : Kernel) : Prop
    extends Creation created c.pro k k' where
  slot : (k'.processes c.pro).regs = c.slot
  processEntry : k'.processEntry = k.processEntry
  frames : k'.frames = (k.modifyFrame c.slot fun _ =>
    k.initialFrame c.entry c.mode c.kernelStack c.userStack).frames

theorem code_listed {m : Machine} {created : List Nat} {c : Call} (hT : Table m.kernel created)
    (hMade : c.Made) (hRange : c.pro < 2 ^ 32) (hNew : c.pro ∉ created) :
    ∃ k current, runAll (c.prepare ++ link c.pro) m = some { kernel := k, current := current } ∧
      c.Listed created m.kernel k := by
  obtain ⟨hNot, -⟩ | ⟨-, k, hCreate, hAdded⟩ :=
    createProcess_added hT.linked hT.short hNew c.entry c.mode c.kernelStack c.userPage
  · exact absurd hMade hNot
  have hCreation := hAdded.creation hT hRange hNew hMade.1
  obtain ⟨-, -, -, -, hRegs⟩ := createProcess_rest hMade.1 hCreate
  obtain ⟨current, hRun⟩ := run_create hMade hCreate m.current
  have hAdd := createProcess_add hMade hCreate
  refine ⟨k, current, hRun, { hCreation with slot := hRegs, processEntry := ?_, frames := ?_ }⟩
  · exact (addProcess_entry hAdd).trans rfl
  · rw [addProcess_frames hAdd, prepared_frames]

/-- **A call of `create_process`** takes the list to the next stage. -/
theorem stage_code {m : Machine} {calls : List Call} {c : Call} (h : Stage m.kernel calls)
    (hMade : c.Made) (hRange : c.pro < 2 ^ 32) (hNew : c.pro ∉ calls.map Call.pro)
    (hSlot : c.slot ∉ calls.map Call.slot) :
    ∃ m', runAll c.code m = some m' ∧ Stage m'.kernel (calls ++ [c]) := by
  obtain ⟨k, current, hRun, hListed⟩ := code_listed h.table hMade hRange hNew
  have hOld {d : Call} (hd : d ∈ calls) : d.pro ≠ c.pro ∧ d.slot ≠ c.slot :=
    ⟨fun hEq => hNew (hEq ▸ List.mem_map_of_mem hd),
      fun hEq => hSlot (hEq ▸ List.mem_map_of_mem hd)⟩
  refine ⟨{ kernel := k.modifyFrame c.slot c.patch, current := current }, ?_,
    { table := ?_, ready := ?_, slot := ?_, frame := ?_ }⟩
  · rw [Call.code, if_pos hMade, ← List.append_assoc, runAll_append, hRun, Option.bind_some,
      run_finish]
  · rw [List.map_append]
    exact { hListed.table with }
  · intro d hd
    rcases List.mem_append.mp hd with hd | hd
    · rw [Kernel.state, Kernel.modifyFrame, hListed.other d.pro (hOld hd).1]
      exact h.ready d hd
    · obtain rfl := List.mem_singleton.mp hd
      exact hListed.state
  · intro d hd
    rcases List.mem_append.mp hd with hd | hd
    · rw [Kernel.modifyFrame, hListed.other d.pro (hOld hd).1]
      exact h.slot d hd
    · obtain rfl := List.mem_singleton.mp hd
      exact hListed.slot
  · intro d hd
    have hSame : d.frame (k.modifyFrame c.slot c.patch) = d.frame m.kernel :=
      d.frame_congr hListed.processEntry
    rw [hSame]
    rcases List.mem_append.mp hd with hd | hd
    · rw [Kernel.modifyFrame]
      simp only [if_neg (hOld hd).2, hListed.frames, Kernel.modifyFrame]
      exact h.frame d hd
    · obtain rfl := List.mem_singleton.mp hd
      simp only [Kernel.modifyFrame, if_pos, hListed.frames, Call.frame]

/-- **Until the second process is listed** a tick finds at most one. -/
theorem code_calm {m : Machine} {calls : List Call} {c : Call} (h : Stage m.kernel calls)
    (hMade : c.Made) (hRange : c.pro < 2 ^ 32) (hNew : c.pro ∉ calls.map Call.pro)
    (hShort : calls.length ≤ 1) (hFirst : calls = [] ∨ c.loaded = none) :
    CalmAlong c.code m := by
  have hPrepare : ∀ a ∈ c.prepare, a.Aside c.pro := by
    intro a ha
    simp only [Call.prepare, List.mem_append, List.mem_map, List.mem_cons, List.not_mem_nil,
      or_false] at ha
    rcases ha with ((⟨f, -, rfl⟩ | rfl | ⟨f, -, rfl⟩) | ⟨f, -, rfl⟩) | rfl
    all_goals trivial
  obtain ⟨hCalm, hIdle⟩ := aside_calm hNew hPrepare (h.idle hShort)
  rw [Call.code, if_pos hMade, ← List.append_assoc]
  refine calmAlong_append (calmAlong_append hCalm fun m' hRun => ?_) fun m' hRun => ?_
  · refine link_calm hNew hMade.1 (hIdle m' hRun) ?_
    rw [run_prepare] at hRun
    cases hRun
    unfold Call.prepared count Kernel.modifyFrame Kernel.state
    simp only [modify_processes_self]
  · rcases hFirst with rfl | hNone
    · -- a loaded program gets its frame while its process is the only one
      obtain ⟨k, current, hRun', hListed⟩ := code_listed h.table hMade hRange hNew
      rw [hRun'] at hRun
      cases hRun
      have hAlone : Idle k [c.pro] :=
        { linked := hListed.table.linked
          short := Nat.le_refl 1
          current := by
            rcases hListed.table.current with hIn | ⟨hNil, -⟩
            · exact Or.inr (congrArg (fun p => [p]) (List.mem_singleton.mp hIn).symm)
            · cases hNil
          ready := fun p hp => List.mem_singleton.mp hp ▸ hListed.state }
      have hFinish : ∀ a ∈ c.finish, a.Aside 0 := by
        intro a ha
        unfold Call.finish at ha
        cases hLoaded : c.loaded with
        | none =>
            rw [hLoaded] at ha
            cases ha
        | some entry =>
            rw [hLoaded] at ha
            simp only [List.mem_cons, List.not_mem_nil, or_false] at ha
            rcases ha with rfl | rfl
            all_goals trivial
      have hZero : 0 ∉ [c.pro] := fun hIn => hMade.1 (List.mem_singleton.mp hIn).symm
      exact (aside_calm hZero hFinish hAlone).1
    · rw [Call.finish, hNone]
      trivial

/-! ## What the boot code calls -/

/-- The addresses that the allocators return to a call. -/
structure Parts where
  pro : Nat
  kernelStack : Nat
  userPage : Nat

/-- What `kernel()` does not compute itself: the answers of `switch_mode`, the
addresses of the entry functions, what `elf_load_file` returns, and the memory. -/
structure Plan where
  choice₁ : Nat
  choice₂ : Nat
  uptimeTask : Nat
  userMain : Nat
  loaded : Nat
  uptime : Parts
  elf : Parts
  main : Parts

namespace Plan

variable (b : Plan)

/-- The calls of `create_process` in `kernel()`, in their order. -/
def calls : List Call :=
  if b.choice₁ = 0 then
    [⟨b.uptimeTask, processKernel, b.uptime.pro, b.uptime.kernelStack, b.uptime.userPage, none⟩]
  else
    ⟨0, processUser, b.elf.pro, b.elf.kernelStack, b.elf.userPage, some b.loaded⟩ ::
      if b.choice₂ = 1 then
        [⟨b.userMain, processUser, b.main.pro, b.main.kernelStack, b.main.userPage, none⟩]
      else []

/-- `kernel()` ends in `restore_esp(current_process)`. -/
def Restores : Prop := b.choice₁ = 0 ∨ b.choice₂ = 1

instance : Decidable b.Restores := inferInstanceAs (Decidable (_ ∨ _))

def code : List Action := (b.calls.map Call.code).flatten

/-- The calls that create a process. -/
def created : List Call := b.calls.filter fun c => c.Made

/-- The allocators hand nothing out twice. -/
structure Sound : Prop where
  blocks : (b.created.map Call.pro).Nodup
  range : ∀ c ∈ b.created, c.pro < 2 ^ 32
  slots : (b.created.map Call.slot).Nodup

end Plan

/-- **A sequence of calls**, of which only the first to create a process may load a program. -/
theorem codes_run {rest done : List Call} {m : Machine} (h : Stage m.kernel done)
    (hBlocks : ((done ++ rest.filter fun c => c.Made).map Call.pro).Nodup)
    (hRange : ∀ c ∈ rest.filter fun c => c.Made, c.pro < 2 ^ 32)
    (hStacks : ((done ++ rest.filter fun c => c.Made).map Call.slot).Nodup)
    (hShort : (done ++ rest.filter fun c => c.Made).length ≤ 2)
    (hLoaded : ∀ c ∈ (done ++ rest.filter fun c => c.Made).tail, c.loaded = none) :
    CalmAlong (rest.map Call.code).flatten m ∧
      ∃ m', runAll (rest.map Call.code).flatten m = some m' ∧
        Stage m'.kernel (done ++ rest.filter fun c => c.Made) := by
  induction rest generalizing done m with
  | nil =>
      refine ⟨trivial, m, rfl, ?_⟩
      rwa [List.filter_nil, List.append_nil]
  | cons c rest ih =>
      rw [List.map_cons, List.flatten_cons]
      by_cases hMade : c.Made
      · have hFilter : (c :: rest).filter (fun c => c.Made) =
            c :: rest.filter fun c => c.Made := List.filter_cons_of_pos (decide_eq_true hMade)
        have hSplit (cs : List Call) : done ++ c :: cs = (done ++ [c]) ++ cs := by simp
        rw [hFilter] at hBlocks hRange hStacks hShort hLoaded ⊢
        have hNew : c.pro ∉ done.map Call.pro := by
          intro hIn
          rw [List.map_append, List.map_cons] at hBlocks
          exact (List.nodup_append.mp hBlocks).2.2 _ hIn _ List.mem_cons_self rfl
        have hSlot : c.slot ∉ done.map Call.slot := by
          intro hIn
          rw [List.map_append, List.map_cons] at hStacks
          exact (List.nodup_append.mp hStacks).2.2 _ hIn _ List.mem_cons_self rfl
        have hFirst : done = [] ∨ c.loaded = none := by
          cases done with
          | nil => exact Or.inl rfl
          | cons d done =>
              refine Or.inr (hLoaded c ?_)
              rw [List.cons_append, List.tail_cons]
              exact List.mem_append_right _ List.mem_cons_self
        have hAlone : done.length ≤ 1 := by
          rw [List.length_append, List.length_cons] at hShort
          omega
        have hc := hRange c List.mem_cons_self
        obtain ⟨m₁, hRun, hStage⟩ := stage_code h hMade hc hNew hSlot
        rw [hSplit] at hBlocks hStacks hShort hLoaded ⊢
        obtain ⟨hCalm, m', hRest, hStage'⟩ :=
          ih hStage hBlocks (fun d hd => hRange d (List.mem_cons_of_mem _ hd)) hStacks hShort
            hLoaded
        refine ⟨calmAlong_append (code_calm h hMade hc hNew hAlone hFirst) ?_, m', ?_, hStage'⟩
        · intro m₂ hRun₂
          rw [hRun] at hRun₂
          cases hRun₂
          exact hCalm
        · rw [runAll_append, hRun, Option.bind_some, hRest]
      · have hFilter : (c :: rest).filter (fun c => c.Made) = rest.filter fun c => c.Made :=
          List.filter_cons_of_neg (by simpa using hMade)
        rw [hFilter] at hBlocks hRange hStacks hShort hLoaded ⊢
        rw [Call.code, if_neg hMade, List.nil_append]
        exact ih h hBlocks hRange hStacks hShort hLoaded

theorem Plan.created_short (b : Plan) : b.created.length ≤ 2 := by
  refine Nat.le_trans (List.length_filter_le _ _) ?_
  unfold Plan.calls
  split
  · exact Nat.le_succ 1
  · split
    · exact Nat.le_refl 2
    · exact Nat.le_succ 1

theorem Plan.created_loaded (b : Plan) : ∀ c ∈ b.created.tail, c.loaded = none := by
  have hTail (d : Call) (cs : List Call) (hcs : ∀ c ∈ cs, c.loaded = none) :
      ∀ c ∈ ((d :: cs).filter fun c => c.Made).tail, c.loaded = none := by
    intro c hc
    rw [List.filter_cons] at hc
    split at hc
    · exact hcs c (List.mem_filter.mp hc).1
    · exact hcs c (List.mem_filter.mp (List.mem_of_mem_tail hc)).1
  unfold Plan.created Plan.calls
  split
  · exact hTail _ [] fun _ h => nomatch h
  · refine hTail _ _ fun c hc => ?_
    split at hc
    · rw [List.mem_singleton.mp hc]
    · cases hc

/-- **The boot code** lists the processes it creates, and before each action a tick
finds at most one. -/
theorem code_run {b : Plan} (hSound : b.Sound) {m : Machine} (h : Stage m.kernel []) :
    CalmAlong b.code m ∧ ∃ m', runAll b.code m = some m' ∧ Stage m'.kernel b.created :=
  codes_run h hSound.blocks hSound.range hSound.slots b.created_short b.created_loaded

/-! ## A tick does not disturb the rest of the code -/

/-- The kernels differ at most in the clock and in frames elsewhere. -/
def Same (slots : List Nat) (k k' : Kernel) : Prop :=
  ∃ ticks frames, k' = { k with ticks := ticks, frames := frames } ∧
    ∀ r ∈ slots, frames r = k.frames r

theorem Same.symm {slots : List Nat} {k k' : Kernel} (h : Same slots k k') :
    Same slots k' k := by
  obtain ⟨ticks, frames, rfl, hFrames⟩ := h
  exact ⟨k.ticks, k.frames, rfl, fun r hr => (hFrames r hr).symm⟩

/-- An action that looks at the local variable `current` first. -/
theorem same_ite {slots : List Nat} {c : Prop} [Decidable c] {x y x' y' m₁ : Machine}
    (hx : ∃ k, x' = { x with kernel := k } ∧ Same slots x.kernel k)
    (hy : ∃ k, y' = { y with kernel := k } ∧ Same slots y.kernel k)
    (hRun : some (if c then x else y) = some m₁) :
    ∃ k₁, some (if c then x' else y') = some { m₁ with kernel := k₁ } ∧
      Same slots m₁.kernel k₁ := by
  obtain rfl := Option.some.inj hRun
  by_cases hc : c
  · obtain ⟨k, rfl, hSame⟩ := hx
    simp only [if_pos hc]
    exact ⟨k, rfl, hSame⟩
  · obtain ⟨k, rfl, hSame⟩ := hy
    simp only [if_neg hc]
    exact ⟨k, rfl, hSame⟩

theorem Action.run_same {slots : List Nat} {a : Action} {m m₁ : Machine} {k : Kernel}
    (h : Same slots m.kernel k) (hRun : a.run m = some m₁) :
    ∃ k₁, a.run { m with kernel := k } = some { m₁ with kernel := k₁ } ∧
      Same slots m₁.kernel k₁ := by
  obtain ⟨ticks, frames, rfl, hFrames⟩ := h
  cases a with
  | block pro f =>
      cases hRun
      exact ⟨_, rfl, ticks, frames, rfl, hFrames⟩
  | number pro =>
      cases hRun
      exact ⟨_, rfl, ticks, frames, rfl, hFrames⟩
  | frame slot f =>
      cases hRun
      refine ⟨_, rfl, ticks, _, rfl, fun r hr => ?_⟩
      simp only [Kernel.modifyFrame, hFrames r hr]
  | parent pro =>
      cases hRun
      exact ⟨_, rfl, ticks, frames, rfl, hFrames⟩
  | head =>
      cases hRun
      exact ⟨_, rfl, ticks, frames, rfl, hFrames⟩
  | first pro =>
      refine same_ite ?_ ?_ hRun
      · exact ⟨_, rfl, ticks, frames, rfl, hFrames⟩
      · exact ⟨_, rfl, ticks, frames, rfl, hFrames⟩
  | running pro =>
      refine same_ite ?_ ?_ hRun
      · exact ⟨_, rfl, ticks, frames, rfl, hFrames⟩
      · exact ⟨_, rfl, ticks, frames, rfl, hFrames⟩
  | last =>
      unfold Action.run at hRun ⊢
      simp only at hRun ⊢
      split at hRun
      · next hZero =>
          cases hRun
          rw [if_pos hZero]
          exact ⟨_, rfl, ticks, frames, rfl, hFrames⟩
      · next hZero =>
          obtain ⟨p, hLast, rfl⟩ := Option.map_eq_some_iff.mp hRun
          have hLast' : findLast { m.kernel with ticks := ticks, frames := frames } m.current =
              some p := hLast
          rw [if_neg hZero, hLast', Option.map_some]
          exact ⟨_, rfl, ticks, frames, rfl, hFrames⟩
  | append pro =>
      refine same_ite ?_ ?_ hRun
      · exact ⟨_, rfl, ticks, frames, rfl, hFrames⟩
      · exact ⟨_, rfl, ticks, frames, rfl, hFrames⟩

theorem runAll_same {slots : List Nat} {as : List Action} {m m₁ : Machine} {k : Kernel}
    (h : Same slots m.kernel k) (hRun : runAll as m = some m₁) :
    ∃ k₁, runAll as { m with kernel := k } = some { m₁ with kernel := k₁ } ∧
      Same slots m₁.kernel k₁ := by
  induction as generalizing m k with
  | nil =>
      cases hRun
      exact ⟨k, rfl, h⟩
  | cons a as ih =>
      rw [runAll_cons] at hRun
      obtain ⟨m₂, hStep, hRest⟩ := Option.bind_eq_some_iff.mp hRun
      obtain ⟨k₂, hStep', hSame⟩ := Action.run_same h hStep
      obtain ⟨k₁, hRest', hSame'⟩ := ih hSame hRest
      refine ⟨k₁, ?_, hSame'⟩
      rw [runAll_cons, hStep', Option.bind_some, hRest']

theorem Idle.same {slots listed : List Nat} {k k' : Kernel} (h : Idle k listed)
    (hSame : Same slots k k') : Idle k' listed := by
  obtain ⟨ticks, frames, rfl, -⟩ := hSame
  exact { h with }

theorem CalmAlong.same {slots : List Nat} {as : List Action} {m : Machine} {k : Kernel}
    (h : CalmAlong as m) (hSame : Same slots m.kernel k) :
    CalmAlong as { m with kernel := k } := by
  induction as generalizing m k with
  | nil => trivial
  | cons a as ih =>
      obtain ⟨⟨listed, hIdle⟩, hRest⟩ := h
      refine ⟨⟨listed, hIdle.same hSame⟩, fun m' hStep => ?_⟩
      obtain ⟨k₁, hStep₁, hSame₁⟩ :=
        @Action.run_same slots a { m with kernel := k } m' m.kernel hSame.symm hStep
      have hCalm := ih (hRest _ hStep₁) hSame₁.symm
      exact hCalm

theorem Stage.same {calls : List Call} {k k' : Kernel} (h : Stage k calls)
    (hSame : Same (calls.map Call.slot) k k') : Stage k' calls := by
  obtain ⟨ticks, frames, rfl, hFrames⟩ := hSame
  refine { table := { h.table with }, ready := h.ready, slot := h.slot, frame := fun c hc => ?_ }
  exact (hFrames c.slot (List.mem_map_of_mem hc)).trans (h.frame c hc)

/-! ## The frames of processes that are not running -/

/-- The address of the frame that a trap leaves for the call. -/
def frameOf : ProcessRuns.Event → Option Nat
  | .fork regs .. | .yield regs | .sleep regs _ | .wait _ regs | .tick regs => some regs
  | .create .. | .exit _ | .finish => none

/-- The kernel stack of the process that the call creates. -/
def stackOf : ProcessRuns.Event → Option Nat
  | .create _ _ _ kernelStack _ | .fork _ _ kernelStack _ => some kernelStack
  | _ => none

/-- Where the call stores a word for its caller. -/
def storeOf : ProcessRuns.Event → Option Nat
  | .wait status _ => some status
  | _ => none

/-- Where `create_process` puts the frame. -/
def slotOf (kernelStack : Nat) : Nat := (kernelStack + kernelStackSize - sizeofRegisters) % 2 ^ 32

theorem createProcess_frames {k k' : Kernel} {entry mode pro kernelStack userPage p : Nat}
    (h : k.createProcess entry mode pro kernelStack userPage = some (p, k')) :
    k'.processEntry = k.processEntry ∧
      ∀ r, r ≠ slotOf kernelStack → k'.frames r = k.frames r := by
  unfold createProcess at h
  split at h
  · cases h
    exact ⟨rfl, fun _ _ => rfl⟩
  split at h
  · cases h
    exact ⟨rfl, fun _ _ => rfl⟩
  split at h
  · cases h
    exact ⟨rfl, fun _ _ => rfl⟩
  · obtain ⟨k₁, hAdd, hEq⟩ := Option.map_eq_some_iff.mp h
    cases hEq
    refine ⟨(addProcess_entry hAdd).trans rfl, fun r hr => ?_⟩
    rw [addProcess_frames hAdd]
    exact if_neg hr

theorem contextSwitch_frames (k : Kernel) (regs next : Nat) :
    (k.contextSwitch regs next).processEntry = k.processEntry ∧
      ∀ r, r ≠ (k.processes k.currentProcess).regs →
        (k.contextSwitch regs next).frames r = k.frames r := by
  unfold contextSwitch saveContext
  split
  · exact ⟨rfl, fun _ _ => rfl⟩
  · exact ⟨rfl, fun r hr => if_neg hr⟩

/-- What a step assigns before control passes on leaves every frame but the trap's alone. -/
theorem prepared_frames_of (created : List Nat) (k : Kernel) (e : ProcessRuns.Event) :
    (prepared created k e).processEntry = k.processEntry ∧
      ∀ r, r ∉ frameOf e → (prepared created k e).frames r = k.frames r := by
  have hDeparted (k : Kernel) :
      (departed k).processEntry = k.processEntry ∧ (departed k).frames = k.frames := by
    unfold departed
    split
    · exact ⟨rfl, rfl⟩
    · exact ⟨rfl, rfl⟩
  cases e with
  | wait status regs =>
      refine ⟨rfl, fun r hr => if_neg fun hEq => hr ?_⟩
      rw [hEq]
      rfl
  | exit status => exact ⟨(hDeparted _).1, fun r _ => congrFun (hDeparted _).2 r⟩
  | finish => exact ⟨(hDeparted _).1, fun r _ => congrFun (hDeparted _).2 r⟩
  | _ => exact ⟨rfl, fun _ _ => rfl⟩

/-- If the call reports a zombie, it does not store into the frame at `r`. -/
def FrameApart (created : List Nat) (k : Kernel) (e : ProcessRuns.Event) (r : Nat) : Prop :=
  ¬Passes created k e → ∀ a ∈ storeOf e, (⟨a, 4⟩ : Extent).Apart ⟨r, sizeofRegisters⟩

instance (created : List Nat) (k : Kernel) (e : ProcessRuns.Event) (r : Nat) :
    Decidable (FrameApart created k e r) := by
  unfold FrameApart
  infer_instance

/-- No frame changes but the trap's, a new process's, that of the caller, and what a
wait stores into. -/
def FramesKept (created : List Nat) (e : ProcessRuns.Event) (k k' : Kernel) : Prop :=
  k'.processEntry = k.processEntry ∧
    ∀ r, r ∉ frameOf e → (∀ stack ∈ stackOf e, r ≠ slotOf stack) →
      r ≠ (k.processes k.currentProcess).regs → FrameApart created k e r →
        k'.frames r = k.frames r

theorem prepared_kept (created : List Nat) (k : Kernel) (e : ProcessRuns.Event) :
    FramesKept created e k (prepared created k e) :=
  ⟨(prepared_frames_of created k e).1, fun r hr _ _ _ => (prepared_frames_of created k e).2 r hr⟩

theorem switch_kept (created : List Nat) (k : Kernel) (e : ProcessRuns.Event) (regs next : Nat) :
    FramesKept created e k ((prepared created k e).contextSwitch regs next) := by
  obtain ⟨hEntry, hFrames⟩ := contextSwitch_frames (prepared created k e) regs next
  refine ⟨hEntry.trans (prepared_frames_of created k e).1, fun r hr hStack hCurrent _ => ?_⟩
  rw [hFrames r, (prepared_frames_of created k e).2 r hr]
  rw [prepared_current, prepared_field Process.regs fun _ _ _ _ => rfl]
  exact hCurrent

theorem create_kept {created : List Nat} {k k' : Kernel} {entry mode pro kernelStack userPage p : Nat}
    (h : k.sysCreateProcess entry mode pro kernelStack userPage = some (p, k')) :
    FramesKept created (.create entry mode pro kernelStack userPage) k k' := by
  unfold sysCreateProcess at h
  obtain ⟨⟨q, k₁⟩, hCreate, hValid⟩ := Option.bind_eq_some_iff.mp h
  obtain ⟨valid, -, hEq⟩ := Option.map_eq_some_iff.mp hValid
  cases hEq
  obtain ⟨hEntry, hFrames⟩ := createProcess_frames hCreate
  exact ⟨hEntry, fun r _ hStack _ _ => hFrames r (hStack kernelStack rfl)⟩

theorem fork_kept {created : List Nat} {k k' : Kernel} {regs pro kernelStack userPage pid : Nat}
    (hT : Table k created) (hRange : pro < 2 ^ 32) (hNew : pro ∉ created)
    (h : k.sysFork regs pro kernelStack userPage = some (pid, k')) :
    FramesKept created (.fork regs pro kernelStack userPage) k k' := by
  unfold sysFork at h
  obtain ⟨⟨child, k₁⟩, hCreate, hFork⟩ := Option.map_eq_some_iff.mp h
  obtain ⟨hEntry, hFrames⟩ := createProcess_frames hCreate
  simp only at hFork
  split at hFork
  · cases hFork
    refine ⟨hEntry, fun r hr hStack _ _ => ?_⟩
    have hOther : r ≠ regs := fun hEq => hr (hEq ▸ rfl)
    exact (if_neg hOther).trans (hFrames r (hStack kernelStack rfl))
  · next hChild =>
      rcases createProcess_cases hT hRange hNew 0 processUser kernelStack userPage with
        hFail | ⟨hPro, k₂, hMade, -⟩
      · rw [hFail] at hCreate
        cases hCreate
        exact absurd rfl hChild
      · rw [hMade] at hCreate
        cases hCreate
        obtain ⟨-, -, -, -, hSlot⟩ := createProcess_rest hPro hMade
        cases hFork
        refine ⟨hEntry, fun r hr hStack _ _ => ?_⟩
        have hOther : r ≠ regs := fun hEq => hr (hEq ▸ rfl)
        have hOld := hFrames r (hStack kernelStack rfl)
        rw [← hOld]
        refine (if_neg hOther).trans (if_neg ?_)
        rw [hSlot]
        exact hStack kernelStack rfl

theorem outcome_kept {created created' : List Nat} {k k' : Kernel} {e : ProcessRuns.Event}
    (h : Outcome created k e created' k') (hPasses : Passes created k e) :
    FramesKept created e k k' := by
  cases h with
  | made pro kernelStack k' he hNew h =>
      cases e with
      | create => exact hPasses.elim
      | fork => exact hPasses.elim
      | _ => exact he.elim
  | quiet k' hBeside he => exact absurd hPasses he
  | resumed regs next => exact switch_kept ..
  | stayed => exact prepared_kept ..
  | left next => exact prepared_kept ..
  | stopped => exact prepared_kept ..

theorem step_kept {s s' : ProcessRuns.State} {e : ProcessRuns.Event}
    (hT : Table s.kernel s.created) (hStores : ProcessRuns.StoresBeside s e)
    (hStep : ProcessRuns.step s e = some s') :
    FramesKept s.created e s.kernel s'.kernel := by
  have hOutcome := (step_outcome hT hStores hStep).2
  cases e with
  | create entry mode pro kernelStack userPage =>
      simp only [ProcessRuns.step, Option.ite_none_right_eq_some, Option.map_eq_some_iff] at hStep
      obtain ⟨-, ⟨p, k'⟩, hCreate, rfl⟩ := hStep
      exact create_kept hCreate
  | fork regs pro kernelStack userPage =>
      simp only [ProcessRuns.step, Option.ite_none_right_eq_some, Option.map_eq_some_iff] at hStep
      obtain ⟨⟨-, hUnused⟩, ⟨pid, k'⟩, hFork, rfl⟩ := hStep
      exact fork_kept hT hUnused.1 hUnused.2 hFork
  | wait status regs =>
      by_cases hPasses : Passes s.created s.kernel (.wait status regs)
      · exact outcome_kept hOutcome hPasses
      · -- a wait that finds a zombie stores its exit code and returns at once
        obtain ⟨child, hFind⟩ := Option.ne_none_iff_exists'.mp hPasses
        simp only [ProcessRuns.step, Option.ite_none_right_eq_some, Option.map_eq_some_iff] at hStep
        obtain ⟨hRunning, ⟨p, k'⟩, hWait, rfl⟩ := hStep
        rw [sysWait_eq hT hRunning.2, hFind] at hWait
        cases hWait
        have hStored : FramesKept s.created (.wait status regs) s.kernel
            (s.kernel.store status 4 (s.kernel.processes child).exitCode) := by
          refine ⟨rfl, fun r _ _ _ hApart => Registers.store_apart _ ?_⟩
          exact (hApart hPasses status rfl).le (show 0 < 4 by decide) (show 0 < 68 by decide)
        split
        · exact hStored
        · exact hStored
  | _ => exact outcome_kept hOutcome trivial

/-- The processes after a step: the old ones keep their `regs`, and a new one has the
frame on the stack it was given. -/
theorem step_regs {s s' : ProcessRuns.State} {e : ProcessRuns.Event}
    (hT : Table s.kernel s.created) (hStores : ProcessRuns.StoresBeside s e)
    (hStep : ProcessRuns.step s e = some s') :
    (∀ p ∈ s.created, p ∈ s'.created ∧
      (s'.kernel.processes p).regs = (s.kernel.processes p).regs) ∧
    ∀ p ∈ s'.created, p ∉ s.created → ∃ stack ∈ stackOf e,
      (s'.kernel.processes p).regs = slotOf stack := by
  obtain ⟨-, hOutcome⟩ := step_outcome hT hStores hStep
  have hPrepared (p : Nat) : ((prepared s.created s.kernel e).processes p).regs =
      (s.kernel.processes p).regs := prepared_field Process.regs (fun _ _ _ _ => rfl) ..
  generalize hCreated : s'.created = created' at hOutcome ⊢
  generalize hKernel : s'.kernel = k' at hOutcome ⊢
  cases hOutcome with
  | made pro kernelStack k' he hNew h =>
      refine ⟨fun p hp => ⟨List.mem_append_left _ hp, ?_⟩, fun p hp hOld => ?_⟩
      · rw [h.other p fun hEq => hNew (hEq ▸ hp)]
      · rcases List.mem_append.mp hp with hp | hp
        · exact absurd hp hOld
        · obtain rfl := List.mem_singleton.mp hp
          refine ⟨kernelStack, ?_, h.slot⟩
          cases e with
          | create => exact congrArg some he.2
          | fork => exact congrArg some he.2
          | _ => exact he.elim
  | quiet k' hBeside =>
      exact ⟨fun p hp => ⟨hp, congrArg Process.regs (hBeside.block p hp)⟩,
        fun p hp hOld => absurd hp hOld⟩
  | resumed regs next =>
      refine ⟨fun p hp => ⟨hp, ?_⟩, fun p hp hOld => absurd hp hOld⟩
      obtain ⟨frames, esp0, hEq⟩ := contextSwitch_eq (prepared s.created s.kernel e) regs next
      rw [hEq]
      exact hPrepared p
  | stayed => exact ⟨fun p hp => ⟨hp, hPrepared p⟩, fun p hp hOld => absurd hp hOld⟩
  | left => exact ⟨fun p hp => ⟨hp, hPrepared p⟩, fun p hp hOld => absurd hp hOld⟩
  | stopped => exact ⟨fun p hp => ⟨hp, hPrepared p⟩, fun p hp hOld => absurd hp hOld⟩

/-! ## Runs -/

/-- The kernel, the boot code, and what has been started. -/
structure State where
  sys : ProcessRuns.State
  /-- The local variable of `add_process`, which stays on the boot stack. -/
  current : Nat
  /-- What is left of the boot code, while it has the processor. -/
  code : Option (List Action)
  /-- The process whose frame holds the context of the boot code, with what is left of it. -/
  saved : Option (Nat × List Action)
  /-- The processes that have run, with the frame that each started from. -/
  ran : List (Nat × Registers)

def State.hasRun (s : State) : List Nat := s.ran.map Prod.fst

/-- `restore_esp(current_process)`. -/
def State.enter (s : State) : State :=
  let k := s.sys.kernel
  let p := k.currentProcess
  { s with
    code := (s.saved.filter fun c => c.1 == p).map Prod.snd
    ran := if p ∈ s.hasRun then s.ran else (p, k.frames (k.processes p).regs) :: s.ran }

/-- A trap has led to `sys`: another process goes on when `current_process` has changed. -/
def State.take (s : State) (sys : ProcessRuns.State) : State :=
  let k := s.sys.kernel
  if sys.kernel.currentProcess = k.currentProcess then { s with sys := sys }
  else
    -- `save_context` has stored the context of what was interrupted
    let saved := match s.code with
      | some code =>
          if (k.processes k.currentProcess).regs = 0 then s.saved
          else some (k.currentProcess, code)
      | none => s.saved
    { s with sys := sys, saved := saved }.enter

/-- The frames of the processes that have not run. -/
def Plan.waiting (b : Plan) (s : State) : List Nat :=
  (b.created.filter fun c => c.pro ∉ s.hasRun).map Call.slot

inductive Event
  /-- The boot code goes on by one action or, behind the last one, to `restore_esp`. -/
  | code
  /-- The processor leaves `frame` at `regs`, and the kernel does `e`. -/
  | trap (regs : Nat) (frame : Registers) (e : ProcessRuns.Event)

/-- No stack is in use twice: neither the trap nor a new process gets the frame of a
process that has not run.  The word that a wait stores is not in such a frame either,
nor anywhere else in the kernel's memory. -/
def Plan.Apart (b : Plan) (s : State) (regs : Nat) (e : ProcessRuns.Event) : Prop :=
  regs ∉ b.waiting s ∧ (∀ r ∈ frameOf e, r = regs) ∧
    (∀ stack ∈ stackOf e, slotOf stack ∉ b.waiting s) ∧ ProcessRuns.StoresBeside s.sys e ∧
    ∀ r ∈ b.waiting s, FrameApart s.sys.created s.sys.kernel e r

instance (b : Plan) (s : State) (regs : Nat) (e : ProcessRuns.Event) :
    Decidable (b.Apart s regs e) := by
  unfold Plan.Apart
  infer_instance

/-- One step.  The boot code itself makes no system call, and what a fork of a process
copies is no frame of another. -/
def step (b : Plan) (s : State) : Event → Option State
  | .code =>
      match s.code with
      | some (a :: code) =>
          (a.run { kernel := s.sys.kernel, current := s.current }).map fun m =>
            { s with
              sys := { s.sys with kernel := m.kernel }
              current := m.current
              code := some code }
      | some [] =>
          if b.Restores ∧ s.sys.kernel.currentProcess ≠ 0 then some s.enter else none
      | none => none
  | .trap regs frame e =>
      let sys := { s.sys with kernel := s.sys.kernel.modifyFrame regs fun _ => frame }
      if (b.Apart s regs e ∧ ProcessRuns.CopiesBeside sys e) ∧ (s.code.isSome → e = .tick regs) then
        (ProcessRuns.step sys e).map s.take
      else none

/-- `kernel()` behind `sti`, on any contents of memory. -/
def start (b : Plan) (processes : Nat → Process) (frames : Nat → Registers)
    (ticks esp0 processEntry current : Nat) : State where
  sys :=
    { ProcessRuns.boot processes frames ticks esp0 processEntry with
      created := b.created.map Call.pro
      userPages := b.created.map Call.userStack }
  current := current
  code := some b.code
  saved := none
  ran := []

/-- A tick in the boot code finds fewer than two processes in the list. -/
def EventOk (s : State) : Event → Prop
  | .code => True
  | .trap .. =>
      s.code = none ∨ s.sys.kernel.processList = 0 ∨
        s.sys.kernel.next s.sys.kernel.processList = 0

instance (s : State) : (e : Event) → Decidable (EventOk s e)
  | .code => .isTrue trivial
  | .trap .. => inferInstanceAs (Decidable (_ ∨ _))

/-- The boot code's context is in no process, and the processes that have run started
from the frames that were set up for them. -/
def Own (b : Plan) (s : State) : Prop :=
  s.saved = none ∧
    ∀ p ∈ s.ran, ∀ c ∈ b.created, c.pro = p.1 → p.2 = c.frame s.sys.kernel

instance (b : Plan) (s : State) : Decidable (Own b s) := by
  unfold Own
  infer_instance

/-! ## The invariant -/

/-- In the boot code. -/
structure Booting (b : Plan) (s : State) (code : List Action) : Prop where
  nobody : s.ran = []
  created : s.sys.created = b.created.map Call.pro
  calm : CalmAlong code { kernel := s.sys.kernel, current := s.current }
  rest : ∃ m, runAll code { kernel := s.sys.kernel, current := s.current } = some m ∧
    Stage m.kernel b.created

/-- The processes that have not run are as they were set up. -/
structure Untouched (b : Plan) (s : State) : Prop where
  table : Table s.sys.kernel s.sys.created
  listed : ∀ c ∈ b.created, c.pro ∈ s.sys.created
  slot : ∀ c ∈ b.created, (s.sys.kernel.processes c.pro).regs = c.slot
  /-- A process that has not run shares its frame with no other. -/
  apart : ∀ c ∈ b.created, c.pro ∉ s.hasRun → ∀ p ∈ s.sys.created, p ≠ c.pro →
    (s.sys.kernel.processes p).regs ≠ c.slot
  frame : ∀ c ∈ b.created, c.pro ∉ s.hasRun → s.sys.kernel.frames c.slot = c.frame s.sys.kernel

/-- Behind the boot code. -/
structure After (b : Plan) (s : State) : Prop extends Untouched b s where
  caller : s.sys.kernel.currentProcess ∈ s.hasRun

structure Inv (b : Plan) (s : State) : Prop where
  own : Own b s
  booting : ∀ code, s.code = some code → Booting b s code
  after : s.code = none → After b s

theorem mem_waiting {b : Plan} {s : State} {c : Call} (hc : c ∈ b.created)
    (hNew : c.pro ∉ s.hasRun) : c.slot ∈ b.waiting s :=
  List.mem_map_of_mem (List.mem_filter.mpr ⟨hc, decide_eq_true hNew⟩)

theorem start_inv {b : Plan} (hSound : b.Sound) (processes : Nat → Process)
    (frames : Nat → Registers) (ticks esp0 processEntry current : Nat) :
    Inv b (start b processes frames ticks esp0 processEntry current) := by
  have hStage : Stage (ProcessRuns.boot processes frames ticks esp0 processEntry).kernel [] :=
    { table := ProcessRuns.boot_table ..
      ready := fun _ h => nomatch h
      slot := fun _ h => nomatch h
      frame := fun _ h => nomatch h }
  obtain ⟨hCalm, hRest⟩ := @code_run b hSound ⟨_, current⟩ hStage
  refine { own := ⟨rfl, fun _ h => nomatch h⟩, booting := fun code hCode => ?_, after := nofun }
  cases hCode
  exact ⟨rfl, rfl, hCalm, hRest⟩

/-- **The next process starts.**  If it has not run yet, it starts from its own frame. -/
theorem enter_inv {b : Plan} {s : State} (hOwn : Own b s) (h : Untouched b s) :
    Inv b s.enter := by
  have hCode : s.enter.code = none := by
    rw [State.enter, hOwn.1]
    rfl
  have hKeep : ∀ p, p ∉ s.enter.hasRun → p ∉ s.hasRun := by
    intro p hp hIn
    refine hp ?_
    unfold State.enter State.hasRun
    simp only
    split
    · exact hIn
    · exact List.mem_cons_of_mem _ hIn
  have hCaller : s.sys.kernel.currentProcess ∈ s.enter.hasRun := by
    unfold State.enter State.hasRun
    simp only
    split
    · next hIn => exact hIn
    · exact List.mem_cons_self
  refine
    { own := ⟨hOwn.1, fun p hp c hc hPro => ?_⟩
      booting := fun code hSome => by
        rw [hCode] at hSome
        cases hSome
      after := fun _ =>
        { table := h.table
          listed := h.listed
          slot := h.slot
          caller := hCaller
          apart := fun c hc hNew => h.apart c hc (hKeep c.pro hNew)
          frame := fun c hc hNew => h.frame c hc (hKeep c.pro hNew) } }
  · unfold State.enter at hp
    simp only at hp
    split at hp
    · exact hOwn.2 p hp c hc hPro
    · next hNew =>
        rcases List.mem_cons.mp hp with rfl | hp
        · have hPro : c.pro = s.sys.kernel.currentProcess := hPro
          rw [← hPro] at hNew ⊢
          simp only
          rw [h.slot c hc]
          exact h.frame c hc hNew
        · exact hOwn.2 p hp c hc hPro

/-- What the boot code leaves. -/
theorem Booting.done {b : Plan} {s : State} (hSound : b.Sound) (h : Booting b s []) :
    Untouched b s := by
  obtain ⟨m, hRun, hStage⟩ := h.rest
  cases hRun
  refine
    { table := h.created ▸ hStage.table
      listed := fun c hc => h.created ▸ List.mem_map_of_mem hc
      slot := hStage.slot
      apart := fun c hc _ p hp hOther hEq => ?_
      frame := fun c hc _ => hStage.frame c hc }
  rw [h.created] at hp
  obtain ⟨d, hd, rfl⟩ := List.mem_map.mp hp
  have hSlot : d.slot = c.slot := (hStage.slot d hd).symm.trans hEq
  have hSame : d = c := List.inj_on_of_nodup_map hSound.slots hd hc hSlot
  exact hOther (congrArg Call.pro hSame)

/-- **A tick in the boot code** that finds at most one process. -/
theorem Booting.tick {b : Plan} {s : State} {code : List Action} (h : Booting b s code)
    {regs : Nat} (hRegs : regs ∉ b.waiting s) (frame : Registers)
    (hOk : s.sys.kernel.processList = 0 ∨ s.sys.kernel.next s.sys.kernel.processList = 0) :
    let k := ticked (s.sys.kernel.modifyFrame regs fun _ => frame)
    (s.sys.kernel.modifyFrame regs fun _ => frame).irq0Handler regs = some k ∧
      Booting b { s with sys := { s.sys with kernel := k } } code := by
  have hSame : Same (b.created.map Call.slot) s.sys.kernel
      (ticked (s.sys.kernel.modifyFrame regs fun _ => frame)) := by
    refine ⟨_, _, rfl, fun r hr => if_neg fun hEq => hRegs ?_⟩
    obtain ⟨c, hc, hSlot⟩ := List.mem_map.mp hr
    rw [← hEq, ← hSlot]
    refine mem_waiting hc ?_
    rw [State.hasRun, h.nobody]
    exact List.not_mem_nil
  obtain ⟨listed, hIdle⟩ : ∃ listed, Idle s.sys.kernel listed := by
    cases code with
    | cons a code => exact h.calm.1
    | nil =>
        obtain ⟨m, hRun, hStage⟩ := h.rest
        cases hRun
        refine ⟨_, hStage.idle ?_⟩
        have hLinked := hStage.table.linked
        cases hCreated : b.created with
        | nil => exact Nat.zero_le 1
        | cons c rest =>
            rw [hCreated, List.map_cons] at hLinked
            obtain ⟨hHead, hc, hTail⟩ := hLinked
            have hEnd : s.sys.kernel.next c.pro = 0 := by
              rcases hOk with h0 | h0
              · exact absurd (hHead.symm.trans h0) hc
              · rwa [hHead] at h0
            have hNil : rest.map Call.pro = [] :=
              hTail.unique (hEnd ▸ linked_nil.mpr rfl)
            rw [List.map_eq_nil_iff.mp hNil]
            exact Nat.le_refl 1
  refine ⟨Idle.tick (k := s.sys.kernel.modifyFrame regs fun _ => frame) { hIdle with } regs, ?_⟩
  obtain ⟨m, hRun, hStage⟩ := h.rest
  obtain ⟨k₁, hRun₁, hSame₁⟩ := runAll_same hSame hRun
  exact
    { nobody := h.nobody
      created := h.created
      calm := h.calm.same hSame
      rest := ⟨_, hRun₁, hStage.same hSame₁⟩ }

theorem Own.congr {b : Plan} {s : State} {sys : ProcessRuns.State} (h : Own b s)
    (hEntry : sys.kernel.processEntry = s.sys.kernel.processEntry) :
    Own b { s with sys := sys } :=
  ⟨h.1, fun p hp c hc hPro => (h.2 p hp c hc hPro).trans (c.frame_congr hEntry).symm⟩

/-- **A call of a process** leaves the frames of those that have not run alone. -/
theorem After.call {b : Plan} {s : State} (h : After b s) {regs : Nat} {frame : Registers}
    {e : ProcessRuns.Event} {sys : ProcessRuns.State} (hApart : b.Apart s regs e)
    (hStep : ProcessRuns.step
      { s.sys with kernel := s.sys.kernel.modifyFrame regs fun _ => frame } e = some sys) :
    sys.kernel.processEntry = s.sys.kernel.processEntry ∧ Untouched b { s with sys := sys } := by
  obtain ⟨hRegs, hFrame, hStack, hStores, hSpares⟩ := hApart
  have hTable : Table (s.sys.kernel.modifyFrame regs fun _ => frame) s.sys.created :=
    { h.table with }
  have hStores' : ProcessRuns.StoresBeside
      { s.sys with kernel := s.sys.kernel.modifyFrame regs fun _ => frame } e := by
    cases e with
    | wait => exact hStores
    | _ => trivial
  obtain ⟨hEntry, hFrames⟩ := step_kept hTable hStores' hStep
  obtain ⟨hOld, hNew⟩ := step_regs hTable hStores' hStep
  refine ⟨hEntry,
    { table := (step_outcome hTable hStores' hStep).2.table hTable
      listed := fun c hc => (hOld c.pro (h.listed c hc)).1
      slot := fun c hc => ((hOld c.pro (h.listed c hc)).2).trans (h.slot c hc)
      apart := fun c hc hWaits p hp hOther => ?_
      frame := fun c hc hWaits => ?_ }⟩
  · by_cases hIn : p ∈ s.sys.created
    · have hSame := (hOld p hIn).2
      rw [hSame]
      exact h.apart c hc hWaits p hIn hOther
    · obtain ⟨stack, hGiven, hSlot⟩ := hNew p hp hIn
      rw [hSlot]
      exact fun hEq => hStack stack hGiven (hEq ▸ mem_waiting hc hWaits)
  · have hSlot : c.slot ∈ b.waiting s := mem_waiting hc hWaits
    have hPushed : c.slot ≠ regs := fun hEq => hRegs (hEq ▸ hSlot)
    have hCaller : s.sys.kernel.currentProcess ≠ c.pro := fun hEq => hWaits (hEq ▸ h.caller)
    have hListed : s.sys.kernel.currentProcess ∈ s.sys.created := by
      rcases h.table.current with hIn | ⟨hNil, -⟩
      · exact hIn
      · have hc := h.listed c hc
        rw [hNil] at hc
        cases hc
    have hKept : (s.sys.kernel.modifyFrame regs fun _ => frame).frames c.slot =
        s.sys.kernel.frames c.slot := by
      simp only [Kernel.modifyFrame, if_neg hPushed]
    have hSetUp : c.frame sys.kernel = c.frame s.sys.kernel := c.frame_congr hEntry
    rw [hSetUp, hFrames c.slot]
    · exact hKept.trans (h.frame c hc hWaits)
    · exact fun hIn => hPushed (hFrame c.slot hIn)
    · exact fun stack hGiven hEq => hStack stack hGiven (hEq ▸ hSlot)
    · exact (h.apart c hc hWaits _ hListed hCaller).symm
    · have hFrameApart := hSpares c.slot hSlot
      cases e with
      | wait => exact hFrameApart
      | _ =>
          intro _ _ hEq
          cases hEq

theorem take_same {s : State} {sys : ProcessRuns.State}
    (h : sys.kernel.currentProcess = s.sys.kernel.currentProcess) :
    s.take sys = { s with sys := sys } := if_pos h

theorem take_other {s : State} {sys : ProcessRuns.State} (hCode : s.code = none)
    (h : sys.kernel.currentProcess ≠ s.sys.kernel.currentProcess) :
    s.take sys = State.enter { s with sys := sys } := by
  unfold State.take
  simp only [if_neg h]
  rw [hCode]

/-- **One step** under the condition. -/
theorem step_inv {b : Plan} (hSound : b.Sound) (s : State) (e : Event) (s' : State)
    (h : Inv b s) (hOk : EventOk s e) (hStep : step b s e = some s') : Inv b s' := by
  have hOwn := h.own
  cases e with
  | code =>
      unfold step at hStep
      cases hCode : s.code with
      | none =>
          rw [hCode] at hStep
          cases hStep
      | some code =>
          have hBooting := h.booting code hCode
          rw [hCode] at hStep
          cases code with
          | nil =>
              simp only [Option.ite_none_right_eq_some, Option.some.injEq] at hStep
              obtain ⟨-, rfl⟩ := hStep
              exact enter_inv hOwn (hBooting.done hSound)
          | cons a code =>
              obtain ⟨m, hRun, rfl⟩ := Option.map_eq_some_iff.mp hStep
              obtain ⟨m', hRest, hStage⟩ := hBooting.rest
              rw [runAll_cons, hRun, Option.bind_some] at hRest
              refine { own := ⟨hOwn.1, fun p hp => ?_⟩, booting := ?_, after := nofun }
              · have hp : p ∈ s.ran := hp
                rw [hBooting.nobody] at hp
                cases hp
              · intro code' hCode'
                cases hCode'
                exact ⟨hBooting.nobody, hBooting.created, hBooting.calm.2 m hRun, m', hRest, hStage⟩
  | trap regs frame e =>
      simp only [step, Option.ite_none_right_eq_some, Option.map_eq_some_iff] at hStep
      obtain ⟨⟨⟨hApart, -⟩, hTick⟩, sys, hStep, rfl⟩ := hStep
      cases hCode : s.code with
      | some code =>
          obtain rfl := hTick (by rw [hCode]; rfl)
          have hFew := hOk.resolve_left (by rw [hCode]; exact Option.some_ne_none code)
          obtain ⟨hIrq, hBooting⟩ := (h.booting code hCode).tick hApart.1 frame hFew
          simp only [ProcessRuns.step, Option.ite_none_right_eq_some, hIrq, Option.map_some,
            Option.some.injEq] at hStep
          obtain ⟨-, rfl⟩ := hStep
          rw [take_same]
          · refine { own := Own.congr hOwn rfl, booting := fun code' hCode' => ?_, after := ?_ }
            · obtain rfl := Option.some.inj (hCode.symm.trans hCode')
              exact hBooting
            · intro hNone
              exact absurd (hCode.symm.trans hNone) (Option.some_ne_none code)
          · rfl
      | none =>
          have hAfter := h.after hCode
          obtain ⟨hEntry, hUntouched⟩ := hAfter.call hApart hStep
          have hOwn' := Own.congr hOwn hEntry
          by_cases hSame : sys.kernel.currentProcess = s.sys.kernel.currentProcess
          · rw [take_same hSame]
            refine { own := hOwn', booting := fun code' hCode' => ?_, after := fun _ => ?_ }
            · exact absurd (hCode'.symm.trans hCode) (Option.some_ne_none code')
            · refine { hUntouched with caller := ?_ }
              change sys.kernel.currentProcess ∈ s.hasRun
              rw [hSame]
              exact hAfter.caller
          · rw [take_other hCode hSame]
            exact enter_inv hOwn' hUntouched

/-- **The boot code's context stays out of the processes** in every run in which no tick
finds two processes in the list before `restore_esp`. -/
theorem processes_start_from_own_frames {b : Plan} (hSound : b.Sound)
    {processes : Nat → Process} {frames : Nat → Registers}
    {ticks esp0 processEntry current : Nat} {events : List Event} {s : State}
    (hRun : exec (step b) (start b processes frames ticks esp0 processEntry current) events =
      some s)
    (hMeets : Meets (step b) EventOk
      (start b processes frames ticks esp0 processEntry current) events) : Own b s := by
  have hInv : Inv b s :=
    hMeets.invariant (step_inv hSound) (start_inv hSound ..) hRun
  exact hInv.own

/-! ### The window -/

/-- `create_elf_process` and `create_process(user_main)`, each with what it asks for. -/
def twoProcesses : Plan where
  choice₁ := 1
  choice₂ := 1
  uptimeTask := 0x8000
  userMain := 0x9000
  loaded := 0x400000
  uptime := ⟨0, 0, 0⟩
  elf := ⟨0x101000, 0x110000, 0x120000⟩
  main := ⟨0x101040, 0x114000, 0x121000⟩

/-- Zeroed memory. -/
def atStart : State :=
  start twoProcesses
    (fun _ =>
      { pid := 0, kernelStack := 0, kernelStackTo := 0, regs := 0, state := .ready, exitCode := 0,
        entry := 0, wake := 0, next := 0, parent := 0, userStack := 0 })
    (fun _ => zeroFrame) 0 0 0x7000 0

/-- The frame of a tick in `kernel()`. -/
def bootFrame : Registers := { zeroFrame with eip := 0x10400, cs := kernelCs, eflags := 0x202 }

/-- The frame of a tick in a process. -/
def userFrame : Registers := { zeroFrame with eip := 0x9004, cs := userCs, eflags := 0x202 }

def bootTick : Event := .trap 0x90000 bootFrame (.tick 0x90000)

instance (b : Plan) : Decidable b.Sound :=
  decidable_of_iff ((b.created.map Call.pro).Nodup ∧ (∀ c ∈ b.created, c.pro < 2 ^ 32) ∧
    (b.created.map Call.slot).Nodup)
    ⟨fun h => ⟨h.1, h.2.1, h.2.2⟩, fun h => ⟨h.blocks, h.range, h.slots⟩⟩

/-- A tick while one process is listed, all of the boot code, and a tick in the first process. -/
theorem processes_start_from_own_frames_early :
    ∃ s, exec (step twoProcesses) atStart
        (List.replicate 40 .code ++ bootTick :: List.replicate 17 .code ++
          [.trap 0x113FBC userFrame (.tick 0x113FBC)]) = some s ∧
      s.hasRun = [0x101040, 0x101000] ∧ Own twoProcesses s := by
  have hRun : (exec (step twoProcesses) atStart
      (List.replicate 40 .code ++ bootTick :: List.replicate 17 .code ++
        [.trap 0x113FBC userFrame (.tick 0x113FBC)])).any
          (fun s => s.hasRun == [0x101040, 0x101000]) = true := by
    decide +kernel
  obtain ⟨s, hRun, hRan⟩ := (Option.any_eq_true _ _).mp hRun
  exact ⟨s, hRun, eq_of_beq hRan,
    processes_start_from_own_frames (by decide) hRun (by decide +kernel)⟩

/-- **The window.**  A tick behind the last action of the boot code starts the second
process and saves `kernel()` as the first one, which starts from there. -/
theorem boot_context_saved :
    twoProcesses.Sound ∧ ∃ s, exec (step twoProcesses) atStart
        (List.replicate 56 .code ++ [bootTick, .trap 0x117FBC userFrame (.tick 0x117FBC)]) =
          some s ∧
      (0x101000, { bootFrame with userEsp := userStackTop, userSs := userDs }) ∈ s.ran ∧
      ¬Own twoProcesses s := by
  have hRun : (exec (step twoProcesses) atStart
      (List.replicate 56 .code ++ [bootTick, .trap 0x117FBC userFrame (.tick 0x117FBC)])).any
        (fun s => decide
          ((0x101000, { bootFrame with userEsp := userStackTop, userSs := userDs }) ∈ s.ran ∧
            ¬Own twoProcesses s)) = true := by
    decide +kernel
  obtain ⟨s, hRun, hRan⟩ := (Option.any_eq_true _ _).mp hRun
  exact ⟨by decide, s, hRun, of_decide_eq_true hRan⟩

end MiniKernel.Ports.BootTicks
