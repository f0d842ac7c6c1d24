import MiniKernel.Ports.ProcessTable
import MiniKernel.Verified.Extents

/-!
# What a process step does

One lemma for each function of the process table.  The list is described by
`created`, the control blocks in the order they were added; nothing is ever
taken off it by a system call.

Everything but creation and exit is a `Turn`: the links, pids, parents and
exit codes stay, a zombie other than the caller stays one, and the process
that runs next is the caller or a ready one.  A wait that reports stores a word
where its caller says, which is a turn only if that memory is not the kernel's
(`Spare`).
-/

namespace MiniKernel.Ports.ProcessSteps

open MiniKernel.Verified.ByteMemory
open MiniKernel.Verified.Extents
open MiniKernel.Verified.Links
open MiniKernel.Ports.Kmalloc (addresses sizeofBlock)
open MiniKernel.Ports.ProcessTable
open MiniKernel.Ports.ProcessTable.Kernel

/-- The process list is `created`, and `current_process` is on it. -/
structure Table (k : Kernel) (created : List Nat) : Prop where
  linked : Linked k.next k.processList created
  range : ∀ p ∈ created, p < 2 ^ 32
  number : k.processNumber < 2 ^ 16
  current : k.currentProcess ∈ created ∨ created = [] ∧ k.currentProcess = 0
  parent : ∀ p ∈ created, (k.processes p).parent ≠ p ∧
    ((k.processes p).parent = 0 ∨ (k.processes p).parent ∈ created)

variable {k k' : Kernel} {created : List Nat}

theorem Table.short (hT : Table k created) : created.length < addresses :=
  hT.linked.length_lt hT.range (by decide)

theorem Table.caller (hT : Table k created) (hRunning : k.currentProcess ≠ 0) :
    k.currentProcess ∈ created :=
  hT.current.resolve_right fun h => hRunning h.2

/-! ## Assignments -/

@[simp] theorem modify_processes_self (k : Kernel) (p : Nat) (f : Process → Process) :
    (k.modify p f).processes p = f (k.processes p) := by simp [Kernel.modify]

theorem modify_processes_ne {p q : Nat} (f : Process → Process) (h : q ≠ p) :
    (k.modify p f).processes q = k.processes q := by simp [Kernel.modify, h]

/-- An assignment that leaves a field alone leaves it alone everywhere. -/
theorem modify_field {α : Type} (field : Process → α) {p : Nat} {f : Process → Process}
    (h : ∀ b, field (f b) = field b) (q : Nat) :
    field ((k.modify p f).processes q) = field (k.processes q) := by
  by_cases hq : q = p
  · rw [hq, modify_processes_self, h]
  · rw [modify_processes_ne f hq]

/-- A switch changes no control block and makes `next` the current process. -/
theorem contextSwitch_eq (k : Kernel) (regs next : Nat) :
    ∃ frames esp0, k.contextSwitch regs next =
      { k with frames := frames, currentProcess := next, esp0 := esp0 } := by
  unfold contextSwitch saveContext
  split
  · exact ⟨_, _, rfl⟩
  · exact ⟨_, _, rfl⟩

/-! ## `schedule` and `wake_processes` -/

/-- `schedule` on a list that `current_process` is on. -/
theorem schedule_linked {xs ys : List Nat} {c : Nat}
    (hLinked : Linked k.next k.processList (xs ++ c :: ys))
    (hShort : (xs ++ c :: ys).length < addresses) (hCurrent : k.currentProcess = c) :
    k.schedule = some (((ys ++ xs).find? fun p => k.state p == .ready).getD 0) := by
  have hTail : Linked k.next c (c :: ys) := hLinked.suffix
  have hNodup := List.nodup_append.mp hLinked.nodup
  rw [List.length_append, List.length_cons] at hShort
  have hBehind : seek k.next (fun p => k.state p == .ready) 0 addresses (k.next c) =
      some ((ys.find? fun p => k.state p == .ready).getD 0) := by
    apply Linked.seek_eq
    · exact hTail.2.2
    · omega
  have hFront : seek k.next (fun p => k.state p == .ready) c addresses k.processList =
      some ((xs.find? fun p => k.state p == .ready).getD 0) := by
    apply Path.seek_eq
    · exact hLinked.path_to
    · exact fun hc => hNodup.2.2 c hc c (by simp) rfl
    · omega
  unfold schedule
  rw [hCurrent, hBehind, Option.bind_some, List.find?_append]
  cases hFind : ys.find? fun p => k.state p == .ready with
  | none => simpa using hFront
  | some p =>
      have hp : p ≠ 0 :=
        hLinked.ne_zero p (by simp [List.mem_of_find?_eq_some hFind])
      simp [hp]

/-- **`schedule`** returns the first ready process behind the caller or, when
there is none, in front of it. -/
theorem schedule_eq {xs ys : List Nat} {c : Nat} (hT : Table k (xs ++ c :: ys))
    (hCurrent : k.currentProcess = c) :
    k.schedule = some (((ys ++ xs).find? fun p => k.state p == .ready).getD 0) :=
  schedule_linked hT.linked hT.short hCurrent

/-- The process `schedule` returns is ready, listed, and not the caller. -/
theorem schedule_spec (hT : Table k created) (hRunning : k.currentProcess ≠ 0) :
    ∃ next, k.schedule = some next ∧
      (next = 0 ∨ next ∈ created ∧ k.state next = .ready ∧ next ≠ k.currentProcess) := by
  obtain ⟨xs, ys, hSplit⟩ := List.append_of_mem (hT.caller hRunning)
  subst hSplit
  refine ⟨_, schedule_eq hT rfl, ?_⟩
  cases hFind : (ys ++ xs).find? fun p => k.state p == .ready with
  | none => exact Or.inl rfl
  | some p =>
      have hp := List.mem_of_find?_eq_some hFind
      have hReady : k.state p = .ready := by simpa using List.find?_some hFind
      refine Or.inr ⟨?_, hReady, ?_⟩
      · simp only [Option.getD_some, List.mem_append, List.mem_cons] at hp ⊢
        rcases hp with hp | hp
        · exact Or.inr (Or.inr hp)
        · exact Or.inl hp
      · have hNodup := List.nodup_append.mp hT.linked.nodup
        rintro rfl
        rcases List.mem_append.mp hp with hp | hp
        · exact (List.nodup_cons.mp hNodup.2.1).1 hp
        · exact hNodup.2.2 _ hp _ (by simp) rfl

/-- A blocked process whose time has come becomes ready. -/
def wokenBlock (ticks : Nat) (b : Process) : Process :=
  if b.state = .blocked ∧ asInt b.wake ≤ asInt ticks then { b with state := .ready } else b

theorem wakeOne_eq (k : Kernel) (p : Nat) :
    k.wakeOne p = k.modify p (wokenBlock k.ticks) := by
  unfold wakeOne state Kernel.modify
  by_cases hDue : (k.processes p).state = .blocked ∧
      asInt (k.processes p).wake ≤ asInt k.ticks
  · rw [if_pos hDue]
    congr 1
    funext q
    by_cases hq : q = p
    · rw [if_pos hq, if_pos hq, hq, wokenBlock, if_pos hDue]
    · rw [if_neg hq, if_neg hq]
  · rw [if_neg hDue]
    have hSame : (fun q => if q = p then wokenBlock k.ticks (k.processes q)
        else k.processes q) = k.processes := by
      funext q
      by_cases hq : q = p
      · rw [if_pos hq, hq, wokenBlock, if_neg hDue]
      · rw [if_neg hq]
    rw [hSame]

theorem foldl_wakeOne {xs : List Nat} (hNodup : xs.Nodup) (k : Kernel) :
    xs.foldl wakeOne k =
      { k with processes := fun p =>
          if p ∈ xs then wokenBlock k.ticks (k.processes p) else k.processes p } := by
  induction xs generalizing k with
  | nil => simp
  | cons x xs ih =>
      obtain ⟨hx, hRest⟩ := List.nodup_cons.mp hNodup
      rw [List.foldl_cons, wakeOne_eq, ih hRest]
      unfold Kernel.modify
      congr 1
      funext p
      by_cases hp : p = x
      · subst hp
        simp [hx]
      · simp [hp]

theorem wokenBlock_field {α : Type} (field : Process → α) {ticks : Nat}
    (h : ∀ b, field { b with state := .ready } = field b) (b : Process) :
    field (wokenBlock ticks b) = field b := by
  unfold wokenBlock
  split
  · exact h b
  · rfl

theorem wokenBlock_zombie {ticks : Nat} {b : Process} (h : b.state = .zombie) :
    (wokenBlock ticks b).state = .zombie := by
  unfold wokenBlock
  rw [if_neg (by simp [h]), h]

theorem wakeProcesses_linked (hLinked : Linked k.next k.processList created)
    (hShort : created.length < addresses) :
    k.wakeProcesses = some
      { k with processes := fun p =>
          if p ∈ created then wokenBlock k.ticks (k.processes p) else k.processes p } := by
  unfold wakeProcesses
  rw [← foldl_wakeOne hLinked.nodup k]
  apply Linked.walk_eq
  · intro k p q
    rw [wakeOne_eq]
    exact modify_field Process.next
      (fun b => wokenBlock_field Process.next (fun _ => rfl) b) q
  · exact hLinked
  · exact hShort

/-- **`wake_processes`** wakes exactly the blocked processes that are due. -/
theorem wakeProcesses_eq (hT : Table k created) :
    k.wakeProcesses = some
      { k with processes := fun p =>
          if p ∈ created then wokenBlock k.ticks (k.processes p) else k.processes p } :=
  wakeProcesses_linked hT.linked hT.short

/-! ## Turns -/

/-- What no step but creation changes. -/
structure Kept (k k' : Kernel) : Prop where
  list : k'.processList = k.processList
  number : k'.processNumber = k.processNumber
  next : ∀ p, (k'.processes p).next = (k.processes p).next
  pid : ∀ p, (k'.processes p).pid = (k.processes p).pid
  parent : ∀ p, (k'.processes p).parent = (k.processes p).parent

theorem Kept.table (h : Kept k k') (hT : Table k created)
    (hCurrent : k'.currentProcess = k.currentProcess ∨ k'.currentProcess ∈ created) :
    Table k' created where
  linked := by
    rw [h.list]
    exact hT.linked.congr fun p _ => h.next p
  range := hT.range
  number := h.number ▸ hT.number
  current := by
    rcases hCurrent with hSame | hIn
    · rw [hSame]
      exact hT.current
    · exact Or.inl hIn
  parent p hp := by
    rw [h.parent p]
    exact hT.parent p hp

/-- A step of the caller that neither creates nor exits. -/
structure Turn (created : List Nat) (k k' : Kernel) : Prop extends Kept k k' where
  exitCode : ∀ p, (k'.processes p).exitCode = (k.processes p).exitCode
  zombie : ∀ p, p ≠ k.currentProcess → k.state p = .zombie → k'.state p = .zombie
  current : k'.currentProcess = k.currentProcess ∨
    k'.currentProcess ∈ created ∧ k'.state k'.currentProcess = .ready

theorem Turn.refl (created : List Nat) (k : Kernel) : Turn created k k where
  list := rfl
  number := rfl
  next _ := rfl
  pid _ := rfl
  parent _ := rfl
  exitCode _ := rfl
  zombie _ _ h := h
  current := Or.inl rfl

/-- The part of a turn before the switch. -/
theorem Turn.trans {k₁ k₂ : Kernel} (h₁ : Turn created k k₁)
    (hSame : k₁.currentProcess = k.currentProcess) (h₂ : Turn created k₁ k₂) :
    Turn created k k₂ where
  list := h₂.list.trans h₁.list
  number := h₂.number.trans h₁.number
  next p := (h₂.next p).trans (h₁.next p)
  pid p := (h₂.pid p).trans (h₁.pid p)
  parent p := (h₂.parent p).trans (h₁.parent p)
  exitCode p := (h₂.exitCode p).trans (h₁.exitCode p)
  zombie p hp h := h₂.zombie p (hSame ▸ hp) (h₁.zombie p hp h)
  current := by
    rcases h₂.current with h | h
    · exact Or.inl (h.trans hSame)
    · exact Or.inr h

theorem Turn.table (h : Turn created k k') (hT : Table k created) : Table k' created :=
  h.toKept.table hT (h.current.imp id And.left)

/-- Assignments to the caller's state and wake time. -/
theorem Turn.caller (created : List Nat) (k : Kernel) (state : ProcessState)
    (wake : Process → Nat) :
    Turn created k
      (k.modify k.currentProcess fun p => { p with wake := wake p, state := state }) where
  list := rfl
  number := rfl
  next := modify_field Process.next fun _ => rfl
  pid := modify_field Process.pid fun _ => rfl
  parent := modify_field Process.parent fun _ => rfl
  exitCode := modify_field Process.exitCode fun _ => rfl
  zombie p hp h := by
    unfold Kernel.state at *
    rw [modify_processes_ne _ hp, h]
  current := Or.inl rfl

theorem Turn.frame (created : List Nat) (k : Kernel) (r : Nat) (f : Registers → Registers) :
    Turn created k (k.modifyFrame r f) :=
  { Turn.refl created k with }

theorem Turn.wake (hT : Table k created) :
    ∃ k', k.wakeProcesses = some k' ∧ Turn created k k' ∧
      k'.currentProcess = k.currentProcess ∧ k'.ticks = k.ticks := by
  refine ⟨_, wakeProcesses_eq hT, ?_, rfl, rfl⟩
  have hField : ∀ {α : Type} (field : Process → α),
      (∀ b, field { b with state := .ready } = field b) → ∀ p,
      field (if p ∈ created then wokenBlock k.ticks (k.processes p) else k.processes p) =
        field (k.processes p) := by
    intro α field h p
    split
    · exact wokenBlock_field field h _
    · rfl
  exact
    { list := rfl
      number := rfl
      next := hField Process.next fun _ => rfl
      pid := hField Process.pid fun _ => rfl
      parent := hField Process.parent fun _ => rfl
      exitCode := hField Process.exitCode fun _ => rfl
      zombie := by
        intro p _ h
        simp only [state]
        split
        · exact wokenBlock_zombie h
        · exact h
      current := Or.inl rfl }

theorem Turn.switch {next : Nat} (regs : Nat) (hNext : next ∈ created)
    (hReady : k.state next = .ready) : Turn created k (k.contextSwitch regs next) := by
  obtain ⟨frames, esp0, hEq⟩ := contextSwitch_eq k regs next
  rw [hEq]
  exact
    { list := rfl
      number := rfl
      next := fun _ => rfl
      pid := fun _ => rfl
      parent := fun _ => rfl
      exitCode := fun _ => rfl
      zombie := fun _ _ h => h
      current := Or.inr ⟨hNext, hReady⟩ }

/-! ## System calls -/

/-- **`sys_yield`** is a turn. -/
theorem sysYield_turn (hT : Table k created) (hRunning : k.currentProcess ≠ 0) (regs : Nat) :
    ∃ k', k.sysYield regs = some k' ∧ Turn created k k' := by
  obtain ⟨k₁, hWake, hTurn, hSame, -⟩ := Turn.wake hT
  obtain ⟨next, hNext, hCase⟩ := schedule_spec (hTurn.table hT) (hSame ▸ hRunning)
  unfold sysYield
  simp only [hWake, Option.bind_some, hNext, Option.map_some]
  refine ⟨_, rfl, hTurn.trans hSame ?_⟩
  split
  · next hSwitch =>
      rcases hCase with h0 | ⟨hIn, hReady, -⟩
      · exact absurd h0 hSwitch.1
      · exact Turn.switch regs hIn hReady
  · exact Turn.refl _ _

/-- **`sys_sleep`** is a turn. -/
theorem sysSleep_turn (hT : Table k created) (hRunning : k.currentProcess ≠ 0)
    (regs time : Nat) : ∃ k', k.sysSleep regs time = some k' ∧ Turn created k k' := by
  have hTurn := Turn.caller created k .blocked fun _ => (k.ticks + time) % 2 ^ 32
  obtain ⟨next, hNext, hCase⟩ := schedule_spec (hTurn.table hT) hRunning
  unfold sysSleep
  simp only [hNext, Option.map_some]
  refine ⟨_, rfl, hTurn.trans rfl ?_⟩
  split
  · next hSwitch =>
      rcases hCase with h0 | ⟨hIn, hReady, -⟩
      · exact absurd h0 hSwitch.1
      · exact Turn.switch regs hIn hReady
  · exact Turn.refl _ _

/-- **The timer tick** is a turn of whoever it interrupts. -/
theorem irq0Handler_turn (hT : Table k created) (regs : Nat) :
    ∃ k', k.irq0Handler regs = some k' ∧ Turn created k k' := by
  have hTick : Turn created k { k with ticks := (k.ticks + 1) % 2 ^ 32 } :=
    { Turn.refl created k with }
  unfold irq0Handler
  simp only
  split
  · exact ⟨_, rfl, hTick⟩
  · next hSome =>
      obtain ⟨k₁, hWake, hTurn, hSame, -⟩ := Turn.wake (hTick.table hT)
      obtain ⟨k₂, hYield, hTurn₂⟩ := sysYield_turn (hTurn.table (hTick.table hT))
        (fun h0 => hSome (Or.inl (hSame ▸ h0))) regs
      rw [hWake, Option.bind_some]
      exact ⟨k₂, hYield, hTick.trans rfl (hTurn.trans hSame hTurn₂)⟩

/-- **`sys_wait`** reports the first listed zombie whose parent has the
caller's pid and stores its exit code, or it blocks the caller. -/
theorem sysWait_cases (hT : Table k created) (hRunning : k.currentProcess ≠ 0)
    (status regs : Nat) :
    (∃ p, created.find? k.zombieOfCaller = some p ∧ p ≠ 0 ∧
        k.sysWait status regs = some (p, k.store status 4 (k.processes p).exitCode)) ∨
      (created.find? k.zombieOfCaller = none ∧
        ∃ k', k.sysWait status regs = some (0, k') ∧ Turn created k k') := by
  have hSeek : seek k.next k.zombieOfCaller 0 addresses k.processList =
      some ((created.find? k.zombieOfCaller).getD 0) := by
    apply Linked.seek_eq
    · exact hT.linked
    · exact hT.short
  unfold sysWait
  rw [hSeek, Option.bind_some]
  cases hFind : created.find? k.zombieOfCaller with
  | some p =>
      have hp : p ≠ 0 := hT.linked.ne_zero p (List.mem_of_find?_eq_some hFind)
      exact Or.inl ⟨p, rfl, hp, by simp [hp]⟩
  | none =>
      refine Or.inr ⟨rfl, ?_⟩
      have hTurn := (Turn.caller created k .blocked Process.wake).trans rfl
        (Turn.frame created _ regs fun r => { r with eax := minusOne })
      obtain ⟨next, hNext, hCase⟩ := schedule_spec (hTurn.table hT) hRunning
      simp only [Option.getD_none, ne_eq, not_true_eq_false, if_false, hNext, Option.map_some]
      split
      · exact ⟨_, rfl, { hTurn with }⟩
      · next hSwitch =>
          refine ⟨_, rfl, hTurn.trans rfl ?_⟩
          rcases hCase with h0 | ⟨hIn, hReady, -⟩
          · exact absurd (Or.inl h0) hSwitch
          · exact Turn.switch regs hIn hReady

/-! ## The store of `sys_wait` -/

/-- The control block at `p`, with the header that the heap has before it. -/
def blockExtent (p : Nat) : Extent := ⟨p - sizeofBlock, sizeofBlock + sizeofProcess⟩

def stackExtent (kernelStack : Nat) : Extent := ⟨kernelStack, kernelStackSize⟩

/-- Where the boot code has its stack, and the text mode screen. -/
def bootStack : Extent := ⟨0x8F000, 4096⟩
def screen : Extent := ⟨0xB8000, 4096⟩

/-- Memory behind the image that holds no control block and no kernel stack, and is
neither the boot stack nor the screen. -/
def Spare (created : List Nat) (k : Kernel) (e : Extent) : Prop :=
  kernelEnd ≤ e.base ∧ e.base + e.length ≤ 2 ^ 32 ∧ e.Apart bootStack ∧ e.Apart screen ∧
    ∀ p ∈ created,
      e.Apart (blockExtent p) ∧ e.Apart (stackExtent (k.processes p).kernelStack)

instance (created : List Nat) (k : Kernel) (e : Extent) : Decidable (Spare created k e) := by
  unfold Spare
  infer_instance

/-- The control blocks and the globals are as before. -/
structure Beside (created : List Nat) (k k' : Kernel) : Prop where
  block : ∀ p ∈ created, k'.processes p = k.processes p
  list : k'.processList = k.processList
  current : k'.currentProcess = k.currentProcess
  number : k'.processNumber = k.processNumber
  ticks : k'.ticks = k.ticks
  esp0 : k'.esp0 = k.esp0
  processEntry : k'.processEntry = k.processEntry
  halted : k'.halted = k.halted

theorem Beside.frames (created : List Nat) (k : Kernel) (frames : Nat → Registers) :
    Beside created k { k with frames := frames } where
  block _ _ := rfl
  list := rfl
  current := rfl
  number := rfl
  ticks := rfl
  esp0 := rfl
  processEntry := rfl
  halted := rfl

@[simp] theorem ofWord_toWord (state : ProcessState) : .ofWord state.toWord = state := by
  cases state <;> rfl

theorem Process.store_apart {p a l w : Nat} (b : Process)
    (h : a + l ≤ p ∨ p + sizeofProcess ≤ a) : b.store p a l w = b := by
  unfold sizeofProcess at h
  unfold Process.store
  repeat rw [overwrite_apart (by omega)]
  rw [ofWord_toWord]

theorem Registers.store_apart {r a l w : Nat} (f : Registers)
    (h : a + l ≤ r ∨ r + sizeofRegisters ≤ a) : f.store r a l w = f := by
  unfold sizeofRegisters at h
  unfold Registers.store
  repeat rw [overwrite_apart (by omega)]

/-- **A store to spare memory** is beside what the kernel needs. -/
theorem Spare.store {a l : Nat} (h : Spare created k ⟨a, l⟩) (hl : 0 < l) (w : Nat) :
    Beside created k (k.store a l w) := by
  obtain ⟨hLow, -, -, -, hApart⟩ := h
  simp only [kernelEnd] at hLow
  exact
    { block := fun p hp => Process.store_apart _ (by
        have := (hApart p hp).1.le hl (Nat.succ_pos _)
        simp only [blockExtent, sizeofBlock] at this
        omega)
      list := overwrite_apart (by unfold processListAt; omega)
      current := overwrite_apart (by unfold currentProcessAt; omega)
      number := overwrite_apart (by unfold processNumberAt; omega)
      ticks := overwrite_apart (by unfold ticksAt; omega)
      esp0 := overwrite_apart (by unfold esp0At; omega)
      processEntry := rfl
      halted := rfl }

theorem Beside.table (h : Beside created k k') (hT : Table k created) : Table k' created where
  linked := by
    rw [h.list]
    exact hT.linked.congr fun p hp => congrArg Process.next (h.block p hp)
  range := hT.range
  number := h.number ▸ hT.number
  current := h.current.symm ▸ hT.current
  parent p hp := by
    rw [h.block p hp]
    exact hT.parent p hp

theorem Beside.state (h : Beside created k k') {p : Nat} (hp : p ∈ created) :
    k'.state p = k.state p := congrArg Process.state (h.block p hp)

/-! ## Exit -/

/-- A step in which the caller exits. -/
structure Departure (created : List Nat) (k k' : Kernel) : Prop extends Kept k k' where
  exitCode : ∀ p, p ≠ k.currentProcess →
    (k'.processes p).exitCode = (k.processes p).exitCode
  dead : k'.state k.currentProcess = .zombie
  state : ∀ p, p ≠ k.currentProcess → k'.state p =
    if p ≠ 0 ∧ p = (k.processes k.currentProcess).parent then .ready else k.state p
  current : k'.halted = true ∧ k'.currentProcess = k.currentProcess ∨
    k'.currentProcess ∈ created ∧ k'.state k'.currentProcess = .ready

theorem Departure.table (h : Departure created k k') (hT : Table k created) :
    Table k' created :=
  h.toKept.table hT (h.current.imp And.right And.left)

/-- The states of the others after the assignments of `exit_process`. -/
theorem exit_assigned {p : Nat} (hp : p ≠ k.currentProcess) :
    (if (k.processes k.currentProcess).parent ≠ 0 then
      (k.modify k.currentProcess fun p => { p with state := .zombie }).modify
        (k.processes k.currentProcess).parent fun p => { p with state := .ready }
      else k.modify k.currentProcess fun p => { p with state := .zombie }).state p =
      if p ≠ 0 ∧ p = (k.processes k.currentProcess).parent then .ready else k.state p := by
  unfold Kernel.state
  by_cases hEq : p = (k.processes k.currentProcess).parent
  · by_cases h0 : p = 0
    · rw [if_neg (fun h => h (hEq ▸ h0)), modify_processes_ne _ hp, if_neg (fun h => h.1 h0)]
    · rw [if_pos (hEq ▸ h0), if_pos ⟨h0, hEq⟩, ← hEq, modify_processes_self]
  · rw [if_neg (show ¬(p ≠ 0 ∧ p = _) from fun h => hEq h.2)]
    split
    · rw [modify_processes_ne _ hEq, modify_processes_ne _ hp]
    · rw [modify_processes_ne _ hp]

/-- **`exit_process`**: the caller becomes a zombie, its parent, whatever its
state, becomes ready, and a ready process runs or the machine stops. -/
theorem exitProcess_spec (hT : Table k created) (hRunning : k.currentProcess ≠ 0) :
    ∃ k', k.exitProcess = some k' ∧ Departure created k k' ∧
      ∀ p, (k'.processes p).exitCode = (k.processes p).exitCode := by
  have hNotSelf := (hT.parent _ (hT.caller hRunning)).1
  have hParent : ((k.modify k.currentProcess fun p => { p with state := .zombie }).processes
      k.currentProcess).parent = (k.processes k.currentProcess).parent := by
    rw [modify_processes_self]
  unfold exitProcess
  simp only [hParent]
  generalize hk₂ : (if (k.processes k.currentProcess).parent ≠ 0 then
    (k.modify k.currentProcess fun p => { p with state := .zombie }).modify
      (k.processes k.currentProcess).parent fun p => { p with state := .ready }
    else k.modify k.currentProcess fun p => { p with state := .zombie }) = k₂
  have hField : ∀ {α : Type} (field : Process → α),
      (∀ b state, field { b with state := state } = field b) → ∀ p,
      field (k₂.processes p) = field (k.processes p) := by
    intro α field h p
    rw [← hk₂]
    split
    · rw [modify_field field (fun b => h b _), modify_field field (fun b => h b _)]
    · rw [modify_field field (fun b => h b _)]
  have hRest : k₂.processList = k.processList ∧ k₂.currentProcess = k.currentProcess ∧
      k₂.processNumber = k.processNumber := by
    rw [← hk₂]
    split
    · exact ⟨rfl, rfl, rfl⟩
    · exact ⟨rfl, rfl, rfl⟩
  have hDead : k₂.state k.currentProcess = .zombie := by
    unfold Kernel.state
    rw [← hk₂]
    split
    · rw [modify_processes_ne _ (Ne.symm hNotSelf), modify_processes_self]
    · rw [modify_processes_self]
  have hState : ∀ p, p ≠ k.currentProcess → k₂.state p =
      if p ≠ 0 ∧ p = (k.processes k.currentProcess).parent then .ready else k.state p := by
    intro p hp
    rw [← hk₂]
    exact exit_assigned hp
  have hKept : Kept k k₂ :=
    { list := hRest.1
      number := hRest.2.2
      next := hField Process.next fun _ _ => rfl
      pid := hField Process.pid fun _ _ => rfl
      parent := hField Process.parent fun _ _ => rfl }
  obtain ⟨next, hNext, hCase⟩ :=
    schedule_spec (hKept.table hT (Or.inl hRest.2.1)) (hRest.2.1 ▸ hRunning)
  rw [hNext, Option.map_some]
  split
  · exact ⟨_, rfl,
      { hKept with
        exitCode := fun p _ => hField Process.exitCode (fun _ _ => rfl) p
        dead := hDead
        state := hState
        current := Or.inl ⟨rfl, hRest.2.1⟩ },
      hField Process.exitCode fun _ _ => rfl⟩
  · next hSwitch =>
      have hReady := hCase.resolve_left fun h0 => hSwitch (Or.inl h0)
      exact ⟨_, rfl,
        { hKept with
          exitCode := fun p _ => hField Process.exitCode (fun _ _ => rfl) p
          dead := hDead
          state := hState
          current := Or.inr ⟨hReady.1, hReady.2.1⟩ },
        hField Process.exitCode fun _ _ => rfl⟩

/-- **`sys_exit`** is an exit that records the status. -/
theorem sysExit_spec (hT : Table k created) (hRunning : k.currentProcess ≠ 0) (status : Nat) :
    ∃ k', k.sysExit status = some k' ∧ Departure created k k' ∧
      (k'.processes k.currentProcess).exitCode = status := by
  have hField : ∀ {α : Type} (field : Process → α),
      (∀ b, field { b with exitCode := status } = field b) → ∀ p,
      field ((k.modify k.currentProcess fun p => { p with exitCode := status }).processes p) =
        field (k.processes p) :=
    fun field h => modify_field field h
  have hKept : Kept k (k.modify k.currentProcess fun p => { p with exitCode := status }) :=
    { list := rfl
      number := rfl
      next := hField Process.next fun _ => rfl
      pid := hField Process.pid fun _ => rfl
      parent := hField Process.parent fun _ => rfl }
  obtain ⟨k', hExit, hDep, hCode⟩ := exitProcess_spec (hKept.table hT (Or.inl rfl)) hRunning
  refine ⟨k', hExit, ?_, ?_⟩
  · exact
      { list := hDep.list
        number := hDep.number
        next := fun p => (hDep.next p).trans (hKept.next p)
        pid := fun p => (hDep.pid p).trans (hKept.pid p)
        parent := fun p => (hDep.parent p).trans (hKept.parent p)
        exitCode := fun p hp => by
          rw [hDep.exitCode p hp, modify_processes_ne _ hp]
        dead := hDep.dead
        state := fun p hp => by
          rw [hDep.state p hp, hKept.parent]
          unfold Kernel.state
          rw [modify_processes_ne _ hp]
          rfl
        current := hDep.current }
  · rw [hCode, modify_processes_self]

/-! ## Creation -/

/-- A step in which `pro` is added to the list. -/
structure Creation (created : List Nat) (pro : Nat) (k k' : Kernel) : Prop where
  table : Table k' (created ++ [pro])
  number : k'.processNumber = (k.processNumber + 1) % 2 ^ 16
  pid : (k'.processes pro).pid = k.processNumber
  parent : (k'.processes pro).parent = k.currentProcess
  state : k'.state pro = .ready
  other : ∀ p, p ≠ pro →
    k'.processes p = { k.processes p with next := (k'.processes p).next }
  current : k'.currentProcess = k.currentProcess ∨ created = [] ∧ k'.currentProcess = pro
  halted : k'.halted = k.halted

/-- **`add_process`** appends to the list and changes no field but the links. -/
theorem addProcess_spec {pro : Nat} (hLinked : Linked k.next k.processList created)
    (hShort : created.length < addresses) (hNew : pro ∉ created) (hNonzero : pro ≠ 0) :
    ∃ k', k.addProcess pro = some k' ∧
      Linked k'.next k'.processList (created ++ [pro]) ∧
      (∀ p, k'.processes p = { k.processes p with next := (k'.processes p).next }) ∧
      (created ≠ [] ∧ k'.currentProcess = k.currentProcess ∨
        created = [] ∧ k'.currentProcess = pro) ∧
      k'.halted = k.halted ∧ k'.processNumber = k.processNumber := by
  have hOnly : ∀ (k : Kernel) p v q, (k.modify p fun b => { b with next := v }).processes q =
      { k.processes q with
        next := ((k.modify p fun b => { b with next := v }).processes q).next } := by
    intro k p v q
    by_cases hq : q = p
    · rw [hq, modify_processes_self]
    · rw [modify_processes_ne _ hq]
  generalize hk₀ : k.modify pro (fun p => { p with next := 0 }) = k₀
  have hBlocks : ∀ p, k₀.processes p = { k.processes p with next := (k₀.processes p).next } :=
    hk₀ ▸ hOnly k pro 0
  have hSelf : k₀.next pro = 0 := by
    rw [Kernel.next, ← hk₀, modify_processes_self]
  have hList : Linked k₀.next k₀.processList created := by
    rw [← hk₀]
    refine hLinked.congr fun p hp => ?_
    have hne : p ≠ pro := by
      rintro rfl
      exact hNew hp
    unfold Kernel.next
    rw [modify_processes_ne _ hne]
  have hRest : k₀.processList = k.processList ∧ k₀.currentProcess = k.currentProcess ∧
      k₀.halted = k.halted ∧ k₀.processNumber = k.processNumber := by
    rw [← hk₀]
    exact ⟨rfl, rfl, rfl, rfl⟩
  unfold addProcess
  simp only [hk₀]
  rcases List.eq_nil_or_concat created with rfl | ⟨front, last, rfl⟩
  · rw [if_pos (linked_nil.mp hList)]
    exact ⟨_, rfl, ⟨rfl, hNonzero, hSelf⟩, hBlocks, Or.inr ⟨rfl, rfl⟩, hRest.2.2⟩
  · rw [List.concat_eq_append] at *
    have hNotNull : k₀.processList ≠ 0 := by
      intro h0
      have hNil := hList.unique (h0 ▸ (linked_nil.mpr rfl : Linked k₀.next 0 []))
      simp at hNil
    have hSeek : seek k₀.next (fun p => k₀.next p == 0) 0 addresses k₀.processList =
        some last := by
      rw [show some last = some (((front ++ [last]).find? fun p => k₀.next p == 0).getD 0) by
        rw [hList.find_last]
        rfl]
      apply Linked.seek_eq
      · exact hList
      · exact hShort
    have hLastNew : pro ≠ last := fun hEq => hNew (by simp [hEq])
    rw [if_neg hNotNull, hSeek, Option.map_some]
    refine ⟨_, rfl, ?_, ?_, Or.inl ⟨by simp, hRest.2.1⟩, hRest.2.2⟩
    · rw [List.append_assoc, List.singleton_append]
      apply hList.splice
      · intro p hp
        have hNodup := List.nodup_append.mp hList.nodup
        unfold Kernel.next
        rw [modify_processes_ne _ fun hEq => hNodup.2.2 p hp last (by simp) hEq]
      · refine ⟨?_, hNonzero, ?_⟩
        · rw [Kernel.next, modify_processes_self]
        · rw [linked_nil, Kernel.next, modify_processes_ne _ hLastNew]
          exact hSelf
    · intro p
      rw [hOnly k₀ last pro p, hBlocks p]

/-- What `create_process` asked for was there. -/
def Supplied (mode pro kernelStack userPage : Nat) : Prop :=
  pro ≠ 0 ∧ kernelStack ≠ 0 ∧ ¬(mode = processUser ∧ userPage = 0)

instance (mode pro kernelStack userPage : Nat) :
    Decidable (Supplied mode pro kernelStack userPage) := by
  unfold Supplied
  infer_instance

/-- `pro` is added to a list that need not be that of a `Table`. -/
structure Added (created : List Nat) (pro : Nat) (k k' : Kernel) : Prop where
  linked : Linked k'.next k'.processList (created ++ [pro])
  number : k'.processNumber = (k.processNumber + 1) % 2 ^ 16
  pid : (k'.processes pro).pid = k.processNumber
  parent : (k'.processes pro).parent = k.currentProcess
  state : k'.state pro = .ready
  other : ∀ p, p ≠ pro →
    k'.processes p = { k.processes p with next := (k'.processes p).next }
  current : created ≠ [] ∧ k'.currentProcess = k.currentProcess ∨
    created = [] ∧ k'.currentProcess = pro
  halted : k'.halted = k.halted

theorem createProcess_added {pro : Nat} (hLinked : Linked k.next k.processList created)
    (hShort : created.length < addresses) (hNew : pro ∉ created)
    (entry mode kernelStack userPage : Nat) :
    ¬Supplied mode pro kernelStack userPage ∧
        k.createProcess entry mode pro kernelStack userPage = some (0, k) ∨
      Supplied mode pro kernelStack userPage ∧
        ∃ k', k.createProcess entry mode pro kernelStack userPage = some (pro, k') ∧
          Added created pro k k' := by
  unfold createProcess Supplied
  by_cases hPro : pro = 0
  · exact Or.inl ⟨fun h => h.1 hPro, if_pos hPro⟩
  · rw [if_neg hPro]
    by_cases hStack : kernelStack = 0
    · exact Or.inl ⟨fun h => h.2.1 hStack, if_pos hStack⟩
    · rw [if_neg hStack]
      by_cases hUser : mode = processUser ∧ userPage = 0
      · exact Or.inl ⟨fun h => h.2.2 hUser, if_pos hUser⟩
      · rw [if_neg hUser]
        refine Or.inr ⟨⟨hPro, hStack, hUser⟩, ?_⟩
        simp only
        generalize hk₁ : Kernel.modify (Kernel.modifyFrame _ _ _) pro _ = k₁
        have hSame : ∀ p, p ≠ pro → k₁.processes p = k.processes p := by
          intro p hp
          rw [← hk₁, modify_processes_ne _ hp]
          unfold Kernel.modifyFrame
          simp only
          rw [modify_processes_ne _ hp]
        have hBlock : (k₁.processes pro).pid = k.processNumber ∧
            (k₁.processes pro).parent = k.currentProcess ∧
            (k₁.processes pro).state = .ready := by
          rw [← hk₁, modify_processes_self]
          unfold Kernel.modifyFrame
          rw [modify_processes_self]
          exact ⟨rfl, rfl, rfl⟩
        have hRest : k₁.processList = k.processList ∧
            k₁.currentProcess = k.currentProcess ∧ k₁.halted = k.halted ∧
            k₁.processNumber = (k.processNumber + 1) % 2 ^ 16 := by
          rw [← hk₁]
          exact ⟨rfl, rfl, rfl, rfl⟩
        have hLinked₁ : Linked k₁.next k₁.processList created := by
          rw [hRest.1]
          refine hLinked.congr fun p hp => ?_
          unfold Kernel.next
          rw [hSame p fun hEq => hNew (hEq ▸ hp)]
        obtain ⟨k', hAdd, hList, hFields, hCurrent, hHalted, hNumber⟩ :=
          addProcess_spec hLinked₁ hShort hNew hPro
        refine ⟨k', by rw [hAdd, Option.map_some], ?_⟩
        exact
          { linked := hList
            number := hNumber.trans hRest.2.2.2
            pid := by rw [hFields pro]; exact hBlock.1
            parent := by rw [hFields pro]; exact hBlock.2.1
            state := by rw [Kernel.state, hFields pro]; exact hBlock.2.2
            other := fun p hp => by rw [← hSame p hp]; exact hFields p
            current := by rw [← hRest.2.1]; exact hCurrent
            halted := hHalted.trans hRest.2.2.1 }

theorem Added.creation {pro : Nat} (h : Added created pro k k') (hT : Table k created)
    (hRange : pro < 2 ^ 32) (hNew : pro ∉ created) (hPro : pro ≠ 0) :
    Creation created pro k k' where
  table :=
    { linked := h.linked
      range := by
        intro p hp
        rcases List.mem_append.mp hp with hp | hp
        · exact hT.range p hp
        · exact List.mem_singleton.mp hp ▸ hRange
      number := by
        rw [h.number]
        exact Nat.mod_lt _ (by decide)
      current := by
        rcases h.current with ⟨hSome, hEq⟩ | ⟨-, hEq⟩
        · rw [hEq]
          exact Or.inl (List.mem_append_left _ (hT.current.resolve_right fun h => hSome h.1))
        · rw [hEq]
          exact Or.inl (by simp)
      parent := by
        intro p hp
        by_cases hEq : p = pro
        · rw [hEq, h.parent]
          rcases hT.current with hIn | ⟨-, h0⟩
          · exact ⟨fun h => hNew (h ▸ hIn), Or.inr (List.mem_append_left _ hIn)⟩
          · rw [h0]
            exact ⟨Ne.symm hPro, Or.inl rfl⟩
        · rw [h.other p hEq]
          have hOld : p ∈ created := by
            rcases List.mem_append.mp hp with hp | hp
            · exact hp
            · exact absurd (List.mem_singleton.mp hp) hEq
          obtain ⟨hNe, hIn⟩ := hT.parent p hOld
          exact ⟨hNe, hIn.imp id (List.mem_append_left _)⟩ }
  number := h.number
  pid := h.pid
  parent := h.parent
  state := h.state
  other := h.other
  current := h.current.imp And.right id
  halted := h.halted

/-- **`create_process`** fails and changes nothing, or adds one ready process
whose parent is the caller. -/
theorem createProcess_cases {pro : Nat} (hT : Table k created) (hRange : pro < 2 ^ 32)
    (hNew : pro ∉ created) (entry mode kernelStack userPage : Nat) :
    k.createProcess entry mode pro kernelStack userPage = some (0, k) ∨
      pro ≠ 0 ∧ ∃ k', k.createProcess entry mode pro kernelStack userPage = some (pro, k') ∧
        Creation created pro k k' := by
  rcases createProcess_added hT.linked hT.short hNew entry mode kernelStack userPage with
    ⟨-, hFail⟩ | ⟨⟨hPro, -⟩, k', hMade, hAdded⟩
  · exact Or.inl hFail
  · exact Or.inr ⟨hPro, k', hMade, hAdded.creation hT hRange hNew hPro⟩

/-- **`sys_create_process`** adds a process and returns it, or returns `NULL`. -/
theorem sysCreateProcess_cases {pro : Nat} (hT : Table k created) (hRange : pro < 2 ^ 32)
    (hNew : pro ∉ created) (entry mode kernelStack userPage : Nat) :
    k.sysCreateProcess entry mode pro kernelStack userPage = some (0, k) ∨
      pro ≠ 0 ∧ ∃ k', k.sysCreateProcess entry mode pro kernelStack userPage = some (pro, k') ∧
        Creation created pro k k' := by
  unfold sysCreateProcess
  rcases createProcess_cases hT hRange hNew entry mode kernelStack userPage with
    hFail | ⟨hPro, k', hMade, hCreation⟩
  · have hSeek : k.isValidProcessPtr 0 = some false := by
      unfold isValidProcessPtr
      have hNone : created.find? (fun p => p == 0) = none := by
        rw [List.find?_eq_none]
        exact fun p hp => by simpa using hT.linked.ne_zero p hp
      have hEnd : seek k.next (fun p => p == 0) 0 addresses k.processList =
          some ((created.find? fun p => p == 0).getD 0) := by
        apply Linked.seek_eq
        · exact hT.linked
        · exact hT.short
      rw [hEnd, hNone]
      rfl
    rw [hFail, Option.bind_some]
    simp only [hSeek]
    exact Or.inl rfl
  · have hT' := hCreation.table
    have hSome : (created ++ [pro]).find? (fun p => p == pro) = some pro := by
      have hOther : ∀ p ∈ created, ¬(p == pro) = true := by
        intro p hp hEq
        exact hNew (eq_of_beq hEq ▸ hp)
      rw [List.find?_append, List.find?_eq_none.mpr hOther]
      simp
    have hSeek : k'.isValidProcessPtr pro = some true := by
      unfold isValidProcessPtr
      have hEnd : seek k'.next (fun p => p == pro) 0 addresses k'.processList =
          some (((created ++ [pro]).find? fun p => p == pro).getD 0) := by
        apply Linked.seek_eq
        · exact hT'.linked
        · exact hT'.short
      rw [hEnd, hSome]
      simp [hPro]
    rw [hMade, Option.bind_some]
    simp only [hSeek]
    exact Or.inr ⟨hPro, k', rfl, hCreation⟩

theorem sysFork_added {pro : Nat} (hLinked : Linked k.next k.processList created)
    (hShort : created.length < addresses) (hNew : pro ∉ created)
    (regs kernelStack userPage : Nat) :
    ¬Supplied processUser pro kernelStack userPage ∧
        (∃ frames, k.sysFork regs pro kernelStack userPage =
          some (minusOne, { k with frames := frames })) ∨
      Supplied processUser pro kernelStack userPage ∧
        ∃ k', k.sysFork regs pro kernelStack userPage = some (k.processNumber, k') ∧
          Added created pro k k' := by
  unfold sysFork
  rcases createProcess_added hLinked hShort hNew 0 processUser kernelStack userPage with
    ⟨hNot, hFail⟩ | ⟨hSupplied, k', hMade, hA⟩
  · rw [hFail, Option.map_some]
    exact Or.inl ⟨hNot, _, rfl⟩
  · rw [hMade, Option.map_some]
    simp only [if_neg hSupplied.1]
    refine Or.inr ⟨hSupplied, _, congrArg some (Prod.ext hA.pid rfl), ?_⟩
    generalize hFrames : Kernel.modifyFrame (Kernel.modifyFrame k' _ _) regs _ = k₁
    have hk₁ : k₁.processes = k'.processes ∧ k₁.processList = k'.processList ∧
        k₁.processNumber = k'.processNumber ∧ k₁.currentProcess = k'.currentProcess ∧
        k₁.halted = k'.halted := by
      rw [← hFrames]
      exact ⟨rfl, rfl, rfl, rfl, rfl⟩
    -- the two assignments store what `create_process` has stored already
    have hBlocks : (k₁.modify pro fun p =>
        { p with parent := k.currentProcess, state := .ready }).processes = k'.processes := by
      funext p
      by_cases hp : p = pro
      · subst hp
        rw [modify_processes_self, hk₁.1, ← hA.parent, ← hA.state]
        rfl
      · rw [modify_processes_ne _ hp, hk₁.1]
    exact
      { linked := by
          change Linked _ k₁.processList _
          rw [hk₁.2.1]
          refine hA.linked.congr fun p _ => ?_
          rw [Kernel.next, hBlocks]
          rfl
        number := hk₁.2.2.1.trans hA.number
        pid := by rw [hBlocks, hA.pid]
        parent := by rw [hBlocks, hA.parent]
        state := by
          rw [Kernel.state, hBlocks]
          exact hA.state
        other := by
          rw [hBlocks]
          exact hA.other
        current := by
          change created ≠ [] ∧ k₁.currentProcess = _ ∨ _ ∧ k₁.currentProcess = _
          rw [hk₁.2.2.2.1]
          exact hA.current
        halted := hk₁.2.2.2.2.trans hA.halted }

/-- **`sys_fork`** returns `-1`, or adds a process and returns its pid. -/
theorem sysFork_cases {pro : Nat} (hT : Table k created) (hRange : pro < 2 ^ 32)
    (hNew : pro ∉ created) (regs kernelStack userPage : Nat) :
    (∃ frames, k.sysFork regs pro kernelStack userPage =
        some (minusOne, { k with frames := frames })) ∨
      pro ≠ 0 ∧ ∃ k', k.sysFork regs pro kernelStack userPage =
        some (k.processNumber, k') ∧ Creation created pro k k' := by
  rcases sysFork_added hT.linked hT.short hNew regs kernelStack userPage with
    ⟨-, hFail⟩ | ⟨⟨hPro, -⟩, k', hMade, hAdded⟩
  · exact Or.inl hFail
  · exact Or.inr ⟨hPro, k', hMade, hAdded.creation hT hRange hNew hPro⟩

end MiniKernel.Ports.ProcessSteps
