import MiniKernel.Ports.ProcessRuns

/-!
# Who runs next

`ProcessSteps` says of a step what all its results share.  Sleeping, the
PANIC branches and `tss.esp0` need the step exactly.  Every step that does not
create a process has two parts: it assigns to control blocks (`prepared`), and
then control passes to the first ready process behind the caller, going round
the list (`heir`).  `step_outcome` is the resulting inversion of a step.
-/

namespace MiniKernel.Ports.ProcessSwitch

open MiniKernel.Verified.Links
open MiniKernel.Ports.Kmalloc (addresses)
open MiniKernel.Ports.ProcessTable
open MiniKernel.Ports.ProcessTable.Kernel
open MiniKernel.Ports.ProcessSteps
open MiniKernel.Ports.ProcessRuns

variable {k k' : Kernel} {created : List Nat}

/-! ## The heir -/

/-- The first ready process behind the caller or, failing that, in front of it. -/
def heir (created : List Nat) (k : Kernel) : Option Nat :=
  (around k.currentProcess created).find? fun p => k.state p == .ready

theorem schedule_around (hLinked : Linked k.next k.processList created)
    (hShort : created.length < addresses) (hCurrent : k.currentProcess ∈ created) :
    k.schedule = some ((heir created k).getD 0) := by
  obtain ⟨xs, ys, rfl⟩ := List.append_of_mem hCurrent
  have hNodup := List.nodup_append.mp hLinked.nodup
  have hFront : k.currentProcess ∉ xs := fun hIn => hNodup.2.2 _ hIn _ (by simp) rfl
  rw [schedule_linked hLinked hShort rfl, heir, around_append ys hFront]

theorem schedule_heir (hT : Table k created) (hRunning : k.currentProcess ≠ 0) :
    k.schedule = some ((heir created k).getD 0) :=
  schedule_around hT.linked hT.short (hT.caller hRunning)

/-- The heir is ready, listed, and not the caller. -/
theorem heir_some (hT : Table k created) (hRunning : k.currentProcess ≠ 0) {next : Nat}
    (h : heir created k = some next) :
    next ∈ created ∧ k.state next = .ready ∧ next ≠ k.currentProcess := by
  have hMem := (mem_around hT.linked.nodup (hT.caller hRunning)).mp (List.mem_of_find?_eq_some h)
  exact ⟨hMem.1, by simpa using List.find?_some h, hMem.2⟩

/-- There is no heir exactly when no other process is ready. -/
theorem heir_none (hT : Table k created) (hRunning : k.currentProcess ≠ 0) :
    heir created k = none ↔ ∀ p ∈ created, p ≠ k.currentProcess → k.state p ≠ .ready := by
  simp only [heir, List.find?_eq_none, mem_around hT.linked.nodup (hT.caller hRunning),
    beq_iff_eq, and_imp]

/-! ## What a step assigns -/

/-- The kernel after `wake_processes`. -/
def woken (created : List Nat) (k : Kernel) : Kernel :=
  { k with processes := fun p =>
      if p ∈ created then wokenBlock k.ticks (k.processes p) else k.processes p }

theorem wokenBlock_idem (ticks : Nat) (b : Process) :
    wokenBlock ticks (wokenBlock ticks b) = wokenBlock ticks b := by
  unfold wokenBlock
  by_cases hDue : b.state = .blocked ∧ asInt b.wake ≤ asInt ticks
  · rw [if_pos hDue, if_neg (by simp)]
  · rw [if_neg hDue, if_neg hDue]

theorem woken_idem (created : List Nat) (k : Kernel) :
    woken created (woken created k) = woken created k := by
  unfold woken
  congr 1
  funext p
  by_cases hp : p ∈ created
  · simp only [if_pos hp, wokenBlock_idem]
  · simp only [if_neg hp]

theorem woken_turn (hT : Table k created) : Turn created k (woken created k) := by
  obtain ⟨k', hWake, hTurn, -, -⟩ := Turn.wake hT
  rw [wakeProcesses_eq hT] at hWake
  cases hWake
  exact hTurn

/-- The kernel after the assignments of `exit_process`. -/
def departed (k : Kernel) : Kernel :=
  let dead := k.modify k.currentProcess fun p => { p with state := .zombie }
  if (k.processes k.currentProcess).parent ≠ 0 then
    dead.modify (k.processes k.currentProcess).parent fun p => { p with state := .ready }
  else dead

/-- What a step assigns before control passes on. -/
def prepared (created : List Nat) (k : Kernel) : Event → Kernel
  | .create .. | .fork .. => k
  | .yield _ => woken created k
  | .tick _ => woken created { k with ticks := (k.ticks + 1) % 2 ^ 32 }
  | .sleep _ time =>
      k.modify k.currentProcess fun p =>
        { p with wake := (k.ticks + time) % 2 ^ 32, state := .blocked }
  | .wait _ regs =>
      (k.modify k.currentProcess fun p => { p with state := .blocked }).modifyFrame regs
        fun r => { r with eax := minusOne }
  | .exit status =>
      departed (k.modify k.currentProcess fun p => { p with exitCode := status })
  | .finish => departed k

theorem departed_current (k : Kernel) : (departed k).currentProcess = k.currentProcess := by
  unfold departed
  split <;> rfl

@[simp] theorem prepared_current (created : List Nat) (k : Kernel) (e : Event) :
    (prepared created k e).currentProcess = k.currentProcess := by
  cases e with
  | exit status => exact departed_current _
  | finish => exact departed_current _
  | _ => rfl

/-- What `departed` assigns is the state of two processes. -/
theorem departed_field {α : Type} (field : Process → α)
    (h : ∀ b state, field { b with state := state } = field b) (k : Kernel) (p : Nat) :
    field ((departed k).processes p) = field (k.processes p) := by
  unfold departed
  split
  · rw [modify_field field (fun b => h b _), modify_field field (fun b => h b _)]
  · rw [modify_field field (fun b => h b _)]

theorem prepared_table (hT : Table k created) (e : Event) :
    Table (prepared created k e) created := by
  have hTick : Table { k with ticks := (k.ticks + 1) % 2 ^ 32 } created := { hT with }
  have hDeparted : ∀ k, Table k created → Table (departed k) created := by
    intro k hT
    have hKept : Kept k (departed k) :=
      { list := by unfold departed; split <;> rfl
        number := by unfold departed; split <;> rfl
        next := departed_field Process.next (fun _ _ => rfl) k
        pid := departed_field Process.pid (fun _ _ => rfl) k
        parent := departed_field Process.parent (fun _ _ => rfl) k }
    exact hKept.table hT (Or.inl (departed_current k))
  cases e with
  | create => exact hT
  | fork => exact hT
  | yield => exact (woken_turn hT).table hT
  | tick => exact (woken_turn hTick).table hTick
  | sleep regs time =>
      exact (Turn.caller created k .blocked fun _ => (k.ticks + time) % 2 ^ 32).table hT
  | wait status regs =>
      have hTurn := (Turn.caller created k .blocked Process.wake).trans rfl
        (Turn.frame created _ regs fun r => { r with eax := minusOne })
      exact hTurn.table hT
  | exit status =>
      refine hDeparted _ (Kept.table ?_ hT (Or.inl rfl))
      exact
        { list := rfl
          number := rfl
          next := modify_field Process.next fun _ => rfl
          pid := modify_field Process.pid fun _ => rfl
          parent := modify_field Process.parent fun _ => rfl }
  | finish => exact hDeparted k hT

/-- No step assigns to a control block but its state, wake time and exit code. -/
theorem prepared_field {α : Type} (field : Process → α)
    (h : ∀ b state wake exitCode,
      field { b with state := state, wake := wake, exitCode := exitCode } = field b)
    (created : List Nat) (k : Kernel) (e : Event) (p : Nat) :
    field ((prepared created k e).processes p) = field (k.processes p) := by
  have hWoken : ∀ k, field ((woken created k).processes p) = field (k.processes p) := by
    intro k
    simp only [woken]
    split
    · exact wokenBlock_field field (fun b => h b _ b.wake b.exitCode) _
    · rfl
  have hState : ∀ b state, field { b with state := state } = field b :=
    fun b state => h b state b.wake b.exitCode
  cases e with
  | create => rfl
  | fork => rfl
  | yield => exact hWoken k
  | tick => exact hWoken _
  | sleep => exact modify_field field (fun b => h b _ _ b.exitCode) p
  | wait => exact modify_field field (fun b => hState b _) p
  | exit status =>
      simp only [prepared]
      rw [departed_field field hState]
      exact modify_field field (fun b => h b b.state b.wake _) p
  | finish => exact departed_field field hState k p

theorem prepared_esp0 (created : List Nat) (k : Kernel) (e : Event) :
    (prepared created k e).esp0 = k.esp0 := by
  cases e with
  | exit => unfold prepared departed; simp only; split <;> rfl
  | finish => unfold prepared departed; simp only; split <;> rfl
  | _ => rfl

theorem prepared_halted (created : List Nat) (k : Kernel) (e : Event) :
    (prepared created k e).halted = k.halted := by
  cases e with
  | exit => unfold prepared departed; simp only; split <;> rfl
  | finish => unfold prepared departed; simp only; split <;> rfl
  | _ => rfl

/-! ## The calls -/

/-- What the callers of `schedule` do with its answer. -/
theorem schedule_match (hT : Table k created) (hRunning : k.currentProcess ≠ 0) {α : Type}
    (stop : α) (go : Nat → α) :
    (k.schedule.map fun next => if next = 0 ∨ next = k.currentProcess then stop else go next) =
      some ((heir created k).elim stop go) := by
  rw [schedule_heir hT hRunning, Option.map_some]
  cases hHeir : heir created k with
  | none => simp
  | some next =>
      obtain ⟨hIn, -, hOther⟩ := heir_some hT hRunning hHeir
      have hNonzero := hT.linked.ne_zero next hIn
      simp [hNonzero, hOther]

theorem schedule_match_or_stay (hT : Table k created) (hRunning : k.currentProcess ≠ 0)
    {α : Type} (stay : α) (go : Nat → α) :
    (k.schedule.map fun next => if next ≠ 0 ∧ next ≠ k.currentProcess then go next else stay) =
      some ((heir created k).elim stay go) := by
  rw [← schedule_match hT hRunning]
  congr 1
  funext next
  by_cases hStay : next = 0 ∨ next = k.currentProcess
  · rw [if_pos hStay, if_neg (by tauto)]
  · rw [if_neg hStay, if_pos (by tauto)]

theorem sysYield_eq (hT : Table k created) (hRunning : k.currentProcess ≠ 0) (regs : Nat) :
    k.sysYield regs = some ((heir created (woken created k)).elim (woken created k)
      ((woken created k).contextSwitch regs)) := by
  unfold sysYield
  simp only [wakeProcesses_eq hT, Option.bind_some]
  exact schedule_match_or_stay ((woken_turn hT).table hT) hRunning _ _

theorem sysSleep_eq (hT : Table k created) (hRunning : k.currentProcess ≠ 0)
    (regs time : Nat) :
    k.sysSleep regs time =
      some ((heir created (prepared created k (.sleep regs time))).elim
        (prepared created k (.sleep regs time))
        ((prepared created k (.sleep regs time)).contextSwitch regs)) :=
  schedule_match_or_stay (prepared_table hT (.sleep regs time)) hRunning _ _

theorem irq0Handler_eq (hT : Table k created) (regs : Nat) :
    k.irq0Handler regs =
      some ((heir created (prepared created k (.tick regs))).elim
        (prepared created k (.tick regs))
        ((prepared created k (.tick regs)).contextSwitch regs)) := by
  have hTick : Table { k with ticks := (k.ticks + 1) % 2 ^ 32 } created := { hT with }
  unfold irq0Handler
  simp only
  split
  · next hNobody =>
      have hNil : created = [] := by
        rcases hNobody with h0 | h0
        · rcases hT.current with hIn | hNone
          · exact absurd h0 (hT.linked.ne_zero _ hIn)
          · exact hNone.1
        · exact hT.linked.unique (h0 ▸ (linked_nil.mpr rfl : Linked k.next 0 []))
      rw [hNil]
      simp [heir, around, prepared, woken]
  · next hSome =>
      have hRunning : k.currentProcess ≠ 0 := fun h0 => hSome (Or.inl h0)
      rw [wakeProcesses_eq hTick, Option.bind_some]
      have hYield := sysYield_eq ((woken_turn hTick).table hTick) hRunning regs
      rw [woken_idem] at hYield
      exact hYield

/-- `exit_process` in two parts. -/
theorem exitProcess_departed (k : Kernel) :
    k.exitProcess = (departed k).schedule.map fun next =>
      if next = 0 ∨ next = k.currentProcess then { departed k with halted := true }
      else { departed k with currentProcess := next } := by
  have hParent : ((k.modify k.currentProcess fun p => { p with state := .zombie }).processes
      k.currentProcess).parent = (k.processes k.currentProcess).parent := by
    rw [modify_processes_self]
  unfold exitProcess
  simp only [hParent]
  rfl

theorem exitProcess_eq (hT : Table k created) (hRunning : k.currentProcess ≠ 0) :
    k.exitProcess =
      some ((heir created (departed k)).elim { departed k with halted := true }
        fun next => { departed k with currentProcess := next }) := by
  have hTable : Table (departed k) created := prepared_table hT .finish
  rw [← schedule_match hTable (by rwa [departed_current]), exitProcess_departed]
  simp only [departed_current]

theorem sysExit_eq (hT : Table k created) (hRunning : k.currentProcess ≠ 0) (status : Nat) :
    k.sysExit status =
      some ((heir created (prepared created k (.exit status))).elim
        { prepared created k (.exit status) with halted := true }
        fun next => { prepared created k (.exit status) with currentProcess := next }) := by
  have hTable : Table (k.modify k.currentProcess fun p => { p with exitCode := status })
      created := by
    refine Kept.table ?_ hT (Or.inl rfl)
    exact
      { list := rfl
        number := rfl
        next := modify_field Process.next fun _ => rfl
        pid := modify_field Process.pid fun _ => rfl
        parent := modify_field Process.parent fun _ => rfl }
  exact exitProcess_eq hTable hRunning

theorem sysWait_eq (hT : Table k created) (hRunning : k.currentProcess ≠ 0)
    (status regs : Nat) :
    k.sysWait status regs = some (match created.find? k.zombieOfCaller with
      | some child => (child, k.store status 4 (k.processes child).exitCode)
      | none => (heir created (prepared created k (.wait status regs))).elim
          (0, { prepared created k (.wait status regs) with halted := true })
          fun next => (0, (prepared created k (.wait status regs)).contextSwitch regs next)) := by
  have hSeek : seek k.next k.zombieOfCaller 0 addresses k.processList =
      some ((created.find? k.zombieOfCaller).getD 0) := by
    apply Linked.seek_eq
    · exact hT.linked
    · exact hT.short
  unfold sysWait
  rw [hSeek, Option.bind_some]
  cases hFind : created.find? k.zombieOfCaller with
  | some child =>
      have hChild : child ≠ 0 := hT.linked.ne_zero child (List.mem_of_find?_eq_some hFind)
      simp [hChild]
  | none =>
      simp only [Option.getD_none, ne_eq, not_true_eq_false, if_false]
      exact schedule_match (prepared_table hT (.wait status regs)) hRunning _ _

/-! ## Creation -/

/-- A creation, with what it does besides: no clock or stack pointer moves,
and the new process has the stack it was given. -/
structure Made (created : List Nat) (pro kernelStack : Nat) (k k' : Kernel) : Prop
    extends Creation created pro k k' where
  clock : k'.ticks = k.ticks
  trap : k'.esp0 = k.esp0
  stack : (k'.processes pro).kernelStack = kernelStack
  stackTop : (k'.processes pro).kernelStackTo = (kernelStack + kernelStackSize) % 2 ^ 32
  slot : (k'.processes pro).regs = (kernelStack + kernelStackSize - sizeofRegisters) % 2 ^ 32

theorem modify_next (k : Kernel) (p v q : Nat) :
    (k.modify p fun b => { b with next := v }).processes q =
      { k.processes q with
        next := ((k.modify p fun b => { b with next := v }).processes q).next } := by
  by_cases hq : q = p
  · rw [hq, modify_processes_self]
  · rw [modify_processes_ne _ hq]

theorem addProcess_rest {pro : Nat} (h : k.addProcess pro = some k') :
    k'.ticks = k.ticks ∧ k'.esp0 = k.esp0 ∧
      ∀ p, k'.processes p = { k.processes p with next := (k'.processes p).next } := by
  unfold addProcess at h
  simp only at h
  split at h
  · cases h
    exact ⟨rfl, rfl, fun p => modify_next k pro 0 p⟩
  · obtain ⟨last, -, rfl⟩ := Option.map_eq_some_iff.mp h
    refine ⟨rfl, rfl, fun p => ?_⟩
    rw [modify_next, modify_next k pro 0 p]

theorem addProcess_frames {pro : Nat} (h : k.addProcess pro = some k') :
    k'.frames = k.frames := by
  unfold addProcess at h
  simp only at h
  split at h
  · cases h
    rfl
  · obtain ⟨last, -, rfl⟩ := Option.map_eq_some_iff.mp h
    rfl

theorem createProcess_rest {entry mode pro kernelStack userPage : Nat} (hPro : pro ≠ 0)
    (h : k.createProcess entry mode pro kernelStack userPage = some (pro, k')) :
    k'.ticks = k.ticks ∧ k'.esp0 = k.esp0 ∧ (k'.processes pro).kernelStack = kernelStack ∧
      (k'.processes pro).kernelStackTo = (kernelStack + kernelStackSize) % 2 ^ 32 ∧
      (k'.processes pro).regs = (kernelStack + kernelStackSize - sizeofRegisters) % 2 ^ 32 := by
  unfold createProcess at h
  rw [if_neg hPro] at h
  have hNull : ∀ k, some (0, k) ≠ some (pro, k') := by
    intro k hEq
    cases hEq
    exact hPro rfl
  split at h
  · exact absurd h (hNull k)
  · split at h
    · exact absurd h (hNull k)
    · obtain ⟨k₁, hAdd, hEq⟩ := Option.map_eq_some_iff.mp h
      cases hEq
      obtain ⟨hTicks, hEsp, hFields⟩ := addProcess_rest hAdd
      refine ⟨hTicks, hEsp, ?_, ?_, ?_⟩
      · rw [hFields pro]
        simp [Kernel.modifyFrame]
      · rw [hFields pro]
        simp [Kernel.modifyFrame]
      · rw [hFields pro]
        simp [Kernel.modifyFrame]

theorem sysCreateProcess_made {pro : Nat} (hT : Table k created) (hRange : pro < 2 ^ 32)
    (hNew : pro ∉ created) (entry mode kernelStack userPage : Nat) :
    k.sysCreateProcess entry mode pro kernelStack userPage = some (0, k) ∨
      pro ≠ 0 ∧ ∃ k', k.sysCreateProcess entry mode pro kernelStack userPage = some (pro, k') ∧
        Made created pro kernelStack k k' := by
  rcases sysCreateProcess_cases hT hRange hNew entry mode kernelStack userPage with
    hFail | ⟨hPro, k', hMade, hC⟩
  · exact Or.inl hFail
  · refine Or.inr ⟨hPro, k', hMade, ?_⟩
    unfold sysCreateProcess at hMade
    obtain ⟨⟨p, k₁⟩, hCreate, hValid⟩ := Option.bind_eq_some_iff.mp hMade
    obtain ⟨valid, -, hEq⟩ := Option.map_eq_some_iff.mp hValid
    cases valid with
    | false => exact absurd (congrArg Prod.fst hEq).symm hPro
    | true =>
        cases hEq
        obtain ⟨hTicks, hEsp, hStack, hTop, hSlot⟩ := createProcess_rest hPro hCreate
        exact
          { hC with
            clock := hTicks, trap := hEsp, stack := hStack, stackTop := hTop, slot := hSlot }

theorem sysFork_made {pro : Nat} (hT : Table k created) (hRange : pro < 2 ^ 32)
    (hNew : pro ∉ created) (regs kernelStack userPage : Nat) :
    (∃ frames, k.sysFork regs pro kernelStack userPage =
        some (minusOne, { k with frames := frames })) ∨
      pro ≠ 0 ∧ ∃ k', k.sysFork regs pro kernelStack userPage =
        some (k.processNumber, k') ∧ Made created pro kernelStack k k' := by
  rcases sysFork_cases hT hRange hNew regs kernelStack userPage with
    hFail | ⟨hPro, k', hMade, hC⟩
  · exact Or.inl hFail
  · refine Or.inr ⟨hPro, k', hMade, ?_⟩
    have hFork := hMade
    unfold sysFork at hFork
    rcases createProcess_cases hT hRange hNew 0 processUser kernelStack userPage with
      hFail | ⟨-, k₁, hCreate, -⟩
    · rw [hFail, Option.map_some] at hFork
      have hPid := congrArg Prod.fst (Option.some.inj hFork)
      have hNumber := hT.number
      simp only [if_pos, minusOne] at hPid
      omega
    · rw [hCreate, Option.map_some] at hFork
      simp only [if_neg hPro, Option.some.injEq, Prod.mk.injEq] at hFork
      obtain ⟨hTicks, hEsp, hStack, hTop, hSlot⟩ := createProcess_rest hPro hCreate
      obtain ⟨-, rfl⟩ := hFork
      refine { hC with clock := hTicks, trap := hEsp, stack := ?_, stackTop := ?_, slot := ?_ }
      · simpa [Kernel.modifyFrame] using hStack
      · simpa [Kernel.modifyFrame] using hTop
      · simpa [Kernel.modifyFrame] using hSlot

/-! ## Steps -/

/-- The event creates a process with this control block and kernel stack. -/
def Event.Makes (pro kernelStack : Nat) : Event → Prop
  | .create _ _ p stack _ => p = pro ∧ stack = kernelStack
  | .fork _ p stack _ => p = pro ∧ stack = kernelStack
  | _ => False

/-- The caller goes on when there is no heir. -/
def stays : Event → Bool
  | .yield _ | .sleep .. | .tick _ => true
  | _ => false

/-- The caller exits. -/
def leaves : Event → Bool
  | .exit _ | .finish => true
  | _ => false

/-- Control is passed on: the step creates nothing and reports nothing. -/
def Passes (created : List Nat) (k : Kernel) : Event → Prop
  | .create .. | .fork .. => False
  | .wait .. => created.find? k.zombieOfCaller = none
  | _ => True

instance (created : List Nat) (k : Kernel) : (e : Event) → Decidable (Passes created k e)
  | .create .. | .fork .. => .isFalse id
  | .wait .. => inferInstanceAs (Decidable (_ = _))
  | .yield _ | .sleep .. | .exit _ | .finish | .tick _ => .isTrue trivial

theorem wait_state {p : Nat} (status regs : Nat) (hp : p ≠ k.currentProcess) :
    (prepared created k (.wait status regs)).state p = k.state p := by
  simp only [Kernel.state, prepared, Kernel.modifyFrame]
  rw [modify_processes_ne _ hp]

theorem departed_state {p : Nat} (hp : p ≠ k.currentProcess) :
    (departed k).state p =
      if p ≠ 0 ∧ p = (k.processes k.currentProcess).parent then .ready else k.state p :=
  exit_assigned hp

/-- **An exit** makes the parent ready and leaves the others as they are. -/
theorem exit_state {e : Event} {p : Nat} (hLeaves : leaves e = true)
    (hp : p ≠ k.currentProcess) :
    (prepared created k e).state p =
      if p ≠ 0 ∧ p = (k.processes k.currentProcess).parent then .ready else k.state p := by
  cases e with
  | finish => exact departed_state hp
  | exit status =>
      have hCode := departed_state
        (k := k.modify k.currentProcess fun b => { b with exitCode := status }) hp
      have hSame : (k.modify k.currentProcess fun b => { b with exitCode := status }).state p =
          k.state p := by
        rw [Kernel.state, modify_processes_ne _ hp]
        rfl
      have hParent : ((k.modify k.currentProcess fun b =>
          { b with exitCode := status }).processes k.currentProcess).parent =
            (k.processes k.currentProcess).parent := by
        rw [modify_processes_self]
      rw [hSame] at hCode
      simp only [prepared]
      rw [hCode]
      simp only [Kernel.modify, if_pos]
  | _ => simp [leaves] at hLeaves

/-- What the assignments of a wait or an exit do to the states of the others. -/
theorem prepared_state {e : Event} {p : Nat} (hPasses : Passes created k e)
    (hStays : stays e = false) (hp : p ≠ k.currentProcess) :
    (prepared created k e).state p =
      if leaves e = true ∧ p ≠ 0 ∧ p = (k.processes k.currentProcess).parent then .ready
      else k.state p := by
  cases e with
  | create => exact hPasses.elim
  | fork => exact hPasses.elim
  | wait status regs => simpa [leaves] using wait_state status regs hp
  | exit status => simpa [leaves] using exit_state rfl hp
  | finish => simpa [leaves] using exit_state rfl hp
  | yield => simp [stays] at hStays
  | sleep => simp [stays] at hStays
  | tick => simp [stays] at hStays

/-- What a step leaves: the control blocks in use and the kernel. -/
inductive Outcome (created : List Nat) (k : Kernel) (e : Event) : List Nat → Kernel → Prop
  | made (pro kernelStack : Nat) (k' : Kernel) (he : Event.Makes pro kernelStack e)
      (hNew : pro ∉ created) (h : Made created pro kernelStack k k') :
      Outcome created k e (created ++ [pro]) k'
  | quiet (k' : Kernel) (h : Beside created k k') (he : ¬Passes created k e) :
      Outcome created k e created k'
  | resumed (regs next : Nat) (he : Passes created k e) (hLeaves : leaves e = false)
      (hRunning : k.currentProcess ≠ 0) (h : heir created (prepared created k e) = some next) :
      Outcome created k e created ((prepared created k e).contextSwitch regs next)
  | stayed (he : Passes created k e) (hStays : stays e = true)
      (h : heir created (prepared created k e) = none) :
      Outcome created k e created (prepared created k e)
  | left (next : Nat) (hLeaves : leaves e = true) (hRunning : k.currentProcess ≠ 0)
      (h : heir created (prepared created k e) = some next) :
      Outcome created k e created { prepared created k e with currentProcess := next }
  | stopped (he : Passes created k e) (hStays : stays e = false)
      (hRunning : k.currentProcess ≠ 0) (h : heir created (prepared created k e) = none) :
      Outcome created k e created { prepared created k e with halted := true }

/-- The steps that resume a ready process or let the caller go on. -/
theorem outcome_stays {e : Event} (hT : Table k created) (regs : Nat)
    (he : Passes created k e) (hStays : stays e = true)
    (h : k' = (heir created (prepared created k e)).elim (prepared created k e)
      ((prepared created k e).contextSwitch regs)) : Outcome created k e created k' := by
  have hLeaves : leaves e = false := by
    cases e with
    | exit => simp [stays] at hStays
    | finish => simp [stays] at hStays
    | _ => rfl
  cases hHeir : heir created (prepared created k e) with
  | none =>
      rw [hHeir] at h
      exact h ▸ Outcome.stayed he hStays hHeir
  | some next =>
      rw [hHeir] at h
      have hTable := prepared_table hT e
      have hRunning : k.currentProcess ≠ 0 := by
        rcases hT.current with hIn | ⟨hNil, -⟩
        · exact hT.linked.ne_zero _ hIn
        · simp [heir, hNil, around] at hHeir
      exact h ▸ Outcome.resumed regs next he hLeaves hRunning hHeir

/-- The steps of an exit. -/
theorem outcome_leaves {e : Event} (hRunning : k.currentProcess ≠ 0) (hLeaves : leaves e = true)
    (h : k' = (heir created (prepared created k e)).elim
      { prepared created k e with halted := true }
      fun next => { prepared created k e with currentProcess := next }) :
    Outcome created k e created k' := by
  have hEvent : Passes created k e ∧ stays e = false := by
    cases e with
    | exit => exact ⟨trivial, rfl⟩
    | finish => exact ⟨trivial, rfl⟩
    | _ => simp [leaves] at hLeaves
  cases hHeir : heir created (prepared created k e) with
  | none =>
      rw [hHeir] at h
      exact h ▸ Outcome.stopped hEvent.1 hEvent.2 hRunning hHeir
  | some next =>
      rw [hHeir] at h
      exact h ▸ Outcome.left next hLeaves hRunning hHeir

/-- **Inversion of a step**, exactly, if a wait does not store into the table. -/
theorem step_outcome {s s' : State} {e : Event} (hT : Table s.kernel s.created)
    (hStores : StoresBeside s e) (hStep : step s e = some s') :
    s.kernel.halted = false ∧ Outcome s.created s.kernel e s'.created s'.kernel := by
  cases e with
  | create entry mode pro kernelStack userPage =>
      simp only [step] at hStep
      split at hStep
      · next hNew =>
          refine ⟨hNew.1, ?_⟩
          rcases sysCreateProcess_made hT hNew.2.1 hNew.2.2 entry mode kernelStack userPage with
            hFail | ⟨hPro, k, hMade, hM⟩
          · rw [hFail, Option.map_some] at hStep
            cases hStep
            exact Outcome.quiet _ (Beside.frames ..) id
          · rw [hMade, Option.map_some] at hStep
            cases hStep
            simp only [if_neg hPro]
            exact Outcome.made pro kernelStack k ⟨rfl, rfl⟩ hNew.2.2 hM
      · simp at hStep
  | fork regs pro kernelStack userPage =>
      simp only [step] at hStep
      split at hStep
      · next hNew =>
          refine ⟨hNew.1.1, ?_⟩
          rcases sysFork_made hT hNew.2.1 hNew.2.2 regs kernelStack userPage with
            ⟨frames, hFail⟩ | ⟨-, k, hMade, hM⟩
          · rw [hFail, Option.map_some] at hStep
            cases hStep
            exact Outcome.quiet _ (Beside.frames ..) id
          · rw [hMade, Option.map_some] at hStep
            cases hStep
            have hPid : s.kernel.processNumber ≠ minusOne := by
              have := hT.number
              unfold minusOne
              omega
            simp only [if_neg hPid]
            exact Outcome.made pro kernelStack k ⟨rfl, rfl⟩ hNew.2.2 hM
      · simp at hStep
  | yield regs =>
      simp only [step] at hStep
      split at hStep
      · next hRunning =>
          rw [sysYield_eq hT hRunning.2, Option.map_some] at hStep
          cases hStep
          exact ⟨hRunning.1, outcome_stays hT regs trivial rfl rfl⟩
      · simp at hStep
  | sleep regs time =>
      simp only [step] at hStep
      split at hStep
      · next hRunning =>
          rw [sysSleep_eq hT hRunning.2, Option.map_some] at hStep
          cases hStep
          exact ⟨hRunning.1, outcome_stays hT regs trivial rfl rfl⟩
      · simp at hStep
  | wait status regs =>
      simp only [step] at hStep
      split at hStep
      · next hRunning =>
          rw [sysWait_eq hT hRunning.2, Option.map_some] at hStep
          refine ⟨hRunning.1, ?_⟩
          cases hFind : s.created.find? s.kernel.zombieOfCaller with
          | some child =>
              have hChild : child ≠ 0 :=
                hT.linked.ne_zero child (List.mem_of_find?_eq_some hFind)
              rw [hFind] at hStep
              simp only [if_neg hChild] at hStep
              cases hStep
              exact Outcome.quiet _ (hStores.beside hFind) (by simp [Passes, hFind])
          | none =>
              rw [hFind] at hStep
              cases hHeir : heir s.created (prepared s.created s.kernel (.wait status regs)) with
              | none =>
                  rw [hHeir] at hStep
                  cases hStep
                  exact Outcome.stopped hFind rfl hRunning.2 hHeir
              | some next =>
                  rw [hHeir] at hStep
                  cases hStep
                  exact Outcome.resumed regs next hFind rfl hRunning.2 hHeir
      · simp at hStep
  | exit status =>
      simp only [step] at hStep
      split at hStep
      · next hRunning =>
          rw [sysExit_eq hT hRunning.2, Option.map_some] at hStep
          cases hStep
          exact ⟨hRunning.1, outcome_leaves hRunning.2 rfl rfl⟩
      · simp at hStep
  | finish =>
      simp only [step] at hStep
      split at hStep
      · next hRunning =>
          rw [exitProcess_eq hT hRunning.2, Option.map_some] at hStep
          cases hStep
          exact ⟨hRunning.1, outcome_leaves hRunning.2 rfl rfl⟩
      · simp at hStep
  | tick regs =>
      simp only [step] at hStep
      split at hStep
      · next hOn =>
          rw [irq0Handler_eq hT, Option.map_some] at hStep
          cases hStep
          exact ⟨hOn, outcome_stays hT regs trivial rfl rfl⟩
      · simp at hStep

/-- No step takes a process off the list. -/
theorem Outcome.grown {e : Event} {created' : List Nat}
    (h : Outcome created k e created' k') : ∀ p ∈ created, p ∈ created' := by
  intro p hp
  cases h with
  | made => exact List.mem_append_left _ hp
  | _ => exact hp

theorem Outcome.table {e : Event} {created' : List Nat} (hT : Table k created)
    (h : Outcome created k e created' k') : Table k' created' := by
  have hPrepared := prepared_table hT e
  cases h with
  | made pro kernelStack k' he hNew h => exact h.table
  | quiet k' h he => exact h.table hT
  | resumed regs next he hLeaves hRunning h =>
      obtain ⟨hIn, hReady, -⟩ := heir_some hPrepared (by simpa using hRunning) h
      exact (Turn.switch regs hIn hReady).table hPrepared
  | stayed he hStays h => exact hPrepared
  | left next hLeaves hRunning h =>
      obtain ⟨hIn, -, -⟩ := heir_some hPrepared (by simpa using hRunning) h
      exact { hPrepared with current := Or.inl hIn }
  | stopped he hStays hRunning h => exact { hPrepared with }

end MiniKernel.Ports.ProcessSwitch
