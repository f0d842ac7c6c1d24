import MiniKernel.Ports.ProcessPids
import MiniKernel.Verified.LinkLog

/-!
# Whose parent `sys_wait` reads

`sys_wait` looks for its caller's children by reading `p->parent->pid` of every process
on its way.  `exit_process` asks first whether there is a parent; `sys_wait` does not, and
`remove_process_list` leaves the parents of other processes as they are.

The list is in the order of birth, and whoever created a process was born before it.  So
the process that created the oldest one on the list is not on the list: the very first
parent the scan reads is the null pointer, or its control block has been freed.
-/

namespace MiniKernel.Ports.ProcessParents

open MiniKernel.Verified.Links
open MiniKernel.Verified.Trace
open MiniKernel.Verified.EventLog
open MiniKernel.Verified.LinkLog
open MiniKernel.Ports.Kmalloc (addresses)
open MiniKernel.Ports.ProcessTable
open MiniKernel.Ports.ProcessTable.Kernel
open MiniKernel.Ports.ProcessSteps
open MiniKernel.Ports.ProcessSwitch (departed departed_current departed_field heir
  schedule_around exitProcess_departed)
open MiniKernel.Ports.ProcessPids (State Unused Family step_effects start)

/-! ## The scan -/

/-- The pointers in `p->parent->pid == current_process->pid`. -/
def testReads (k : Kernel) (p : Nat) : List Nat :=
  [p, (k.processes p).parent, k.currentProcess]

/-- The scan of `sys_wait`, with the pointers it dereferences. -/
def scanLogged (turns : Nat) (k : Kernel) : Logged Nat Nat :=
  seekLogged k.next k.zombieOfCaller (testReads k) 0 turns k.processList

/-- What `sys_wait` does with the scan's result. -/
theorem sysWait_scan (k : Kernel) (status regs : Nat) :
    k.sysWait status regs = (scanLogged addresses k).result.bind fun found =>
      if found ≠ 0 then some (found, k.store status 4 (k.processes found).exitCode)
      else
        let k := k.modify k.currentProcess fun p => { p with state := .blocked }
        let k := k.modifyFrame regs fun r => { r with eax := minusOne }
        k.schedule.map fun next =>
          if next = 0 ∨ next = k.currentProcess then (0, { k with halted := true })
          else (0, k.contextSwitch regs next) := by
  rw [scanLogged, result_seekLogged]
  rfl

/-! ## Runs -/

/-- Creations, forks, removals, switches and changes of other memory as in `ProcessPids`, and
exits. -/
inductive Event
  | list (e : ProcessPids.Event)
  | exit (status : Nat)
  deriving Repr, DecidableEq

def step (s : State) (e : Event) : Option State :=
  if s.kernel.halted then none
  else
    match e with
    | .list e => ProcessPids.step s e
    | .exit status =>
        if s.kernel.currentProcess ∈ s.listed then
          (s.kernel.sysExit status).map fun k =>
            { s with kernel := k, caller := s.birth k.currentProcess }
        else none

/-- The process that created `p` is not on the list any more: its control block has been
freed.  Birth `0` stands for nobody. -/
def ParentFreed (s : State) (p : Nat) : Prop :=
  s.creator p ≠ 0 ∧ ∀ c ∈ s.listed, s.birth c ≠ s.creator p

/-- The list in the order of birth, and the null pointer is the parent of those that nobody
has created. -/
structure Inv (s : State) : Prop extends Family s where
  nobody : ∀ p ∈ s.listed, s.creator p = 0 ↔ (s.kernel.processes p).parent = 0
  caller_none : s.caller = 0 ↔ s.kernel.currentProcess = 0

variable {s s' : State} {k : Kernel} {pro : Nat}

/-- A process is born: its creator is the caller. -/
theorem Inv.born (h : Inv s) (hUnused : Unused s pro) (hAdded : Added s.listed pro s.kernel k) :
    Inv (s.born pro k) := by
  have hNe : ∀ p ∈ s.listed, p ≠ pro := fun p hp hEq => hUnused.2 (hEq ▸ hp)
  refine
    { toFamily := h.toFamily.born hUnused hAdded
      nobody := ?nobody
      caller_none := ?caller_none }
  case nobody =>
    refine State.forall_born (fun p hp => ?_) ?_
    · rw [State.born_creator_ne (hNe p hp)]
      have hParent : (k.processes p).parent = (s.kernel.processes p).parent := by
        rw [hAdded.other p (hNe p hp)]
      exact (h.nobody p hp).trans (by rw [← hParent]; rfl)
    · rw [State.born_creator_self]
      exact h.caller_none.trans (by rw [← hAdded.parent]; rfl)
  case caller_none =>
    change (s.born pro k).caller = 0 ↔ k.currentProcess = 0
    rcases State.born_caller hAdded with ⟨-, hSame, hCaller⟩ | ⟨-, hPro, hCaller⟩
    · rw [hSame, hCaller]
      exact h.caller_none
    · rw [hPro, hCaller]
      have hNonzero := hAdded.linked.ne_zero pro (by simp)
      exact iff_of_false (Nat.succ_ne_zero _) hNonzero

/-- A step that changes neither the list nor what the parents are, and after which a listed
process runs. -/
theorem Inv.switched (h : Inv s) {next : Nat} (hNext : next ∈ s.listed)
    (hLink : k.next = s.kernel.next) (hList : k.processList = s.kernel.processList)
    (hNumber : k.processNumber = s.kernel.processNumber)
    (hParent : ∀ p, (k.processes p).parent = (s.kernel.processes p).parent)
    (hCurrent : k.currentProcess = next) : Inv { s with kernel := k, caller := s.birth next } where
  toFamily := h.toFamily.switched hNext hLink hList hNumber hParent hCurrent
  nobody p hp := by
    simp only
    rw [hParent]
    exact h.nobody p hp
  caller_none := by
    simp only
    rw [hCurrent]
    have hBorn : 0 < s.birth next := Nat.lt_of_le_of_lt (Nat.zero_le _) (h.creator next hNext)
    exact iff_of_false (by omega) (h.linked.ne_zero next hNext)

theorem Inv.remove (h : Inv s)
    (hLinked : Linked k.next k.processList (s.listed.filter (· ≠ pro)))
    (hFields : ∀ p, k.processes p = { s.kernel.processes p with next := (k.processes p).next })
    (hCurrent : k.currentProcess = s.kernel.currentProcess)
    (hNumber : k.processNumber = s.kernel.processNumber) :
    Inv { s with kernel := k, listed := s.listed.filter (· ≠ pro) } where
  toFamily := h.toFamily.remove hLinked hFields hCurrent hNumber
  nobody p hp := by
    simp only
    rw [hFields p]
    exact h.nobody p (List.mem_of_mem_filter hp)
  caller_none := by
    simp only
    rw [hCurrent]
    exact h.caller_none

/-- Other memory changes. -/
theorem Inv.scrapped {p : Nat} {memory : Process} (h : Inv s) (hp : p ∉ s.listed) :
    Inv (s.scrapped p memory) where
  toFamily := h.toFamily.scrapped hp
  nobody q hq := by
    rw [State.scrapped_block hp hq]
    exact h.nobody q hq
  caller_none := h.caller_none

/-- An exit assigns to states and an exit code, and passes control to a listed process or
stops the machine. -/
theorem Inv.exit (h : Inv s) (hCaller : s.kernel.currentProcess ∈ s.listed) {status : Nat}
    (hExit : s.kernel.sysExit status = some k) :
    Inv { s with kernel := k, caller := s.birth k.currentProcess } := by
  unfold sysExit at hExit
  rw [exitProcess_departed] at hExit
  generalize hCode : (s.kernel.modify s.kernel.currentProcess fun p =>
    { p with exitCode := status }) = coded at hExit
  have hCurrent : coded.currentProcess = s.kernel.currentProcess := by
    subst hCode
    rfl
  have hField {α : Type} (field : Process → α)
      (hSame : ∀ b state exitCode,
        field { b with state := state, exitCode := exitCode } = field b) (p : Nat) :
      field ((departed coded).processes p) = field (s.kernel.processes p) := by
    rw [departed_field field fun b state => hSame b state b.exitCode]
    subst hCode
    exact modify_field field (fun b => hSame b b.state _) p
  have hList : (departed coded).processList = s.kernel.processList := by
    unfold departed
    subst hCode
    split <;> rfl
  have hNumber : (departed coded).processNumber = s.kernel.processNumber := by
    unfold departed
    subst hCode
    split <;> rfl
  have hLink : (departed coded).next = s.kernel.next :=
    funext fun p => hField Process.next (fun _ _ _ => rfl) p
  have hParent := hField Process.parent fun _ _ _ => rfl
  have hLinked : Linked (departed coded).next (departed coded).processList s.listed := by
    rw [hLink, hList]
    exact h.linked
  have hRuns : (departed coded).currentProcess ∈ s.listed := by
    rw [departed_current, hCurrent]
    exact hCaller
  rw [schedule_around hLinked h.short hRuns, Option.map_some, Option.some.injEq] at hExit
  cases hHeir : heir s.listed (departed coded) with
  | none =>
      rw [hHeir, Option.getD_none, if_pos (Or.inl rfl)] at hExit
      subst hExit
      exact h.switched hRuns hLink hList hNumber hParent rfl
  | some next =>
      obtain ⟨hNext, hOther⟩ :=
        (mem_around hLinked.nodup hRuns).mp (List.mem_of_find?_eq_some hHeir)
      rw [departed_current] at hOther
      rw [hHeir, Option.getD_some, if_neg (not_or.mpr ⟨h.linked.ne_zero next hNext, hOther⟩)]
        at hExit
      subst hExit
      exact h.switched hNext hLink hList hNumber hParent rfl

/-- **Step lemma.** -/
theorem Inv.step {e : Event} (h : Inv s) (hStep : ProcessParents.step s e = some s') : Inv s' := by
  unfold ProcessParents.step at hStep
  split at hStep
  · cases hStep
  cases e with
  | exit status =>
      simp only at hStep
      split at hStep
      · next hCaller =>
          obtain ⟨k, hExit, rfl⟩ := Option.map_eq_some_iff.mp hStep
          exact h.exit hCaller hExit
      · cases hStep
  | list e =>
      rcases step_effects h.linked h.short h.number hStep with
        ⟨pro, k, hUnused, hAdded, rfl, -⟩ | ⟨p, memory, hNew, rfl, -⟩ | ⟨-, -, ⟨frames, rfl⟩ |
          ⟨pro, k, hLinked, hFields, hCurrent, hNumber, rfl⟩ | ⟨next, frames, esp0, hNext, rfl⟩⟩
      · exact h.born hUnused hAdded
      · exact h.scrapped hNew
      · exact { toFamily := { h.toFamily with }, nobody := h.nobody, caller_none := h.caller_none }
      · exact h.remove hLinked hFields hCurrent hNumber
      · exact h.switched hNext rfl rfl rfl (fun _ => rfl) rfl

theorem Inv.start (processes : Nat → Process) (frames : Nat → Registers)
    (ticks esp0 processEntry : Nat) : Inv (start processes frames ticks esp0 processEntry) where
  toFamily := Family.start processes frames ticks esp0 processEntry
  nobody _ hp := by cases hp
  caller_none := iff_of_true rfl rfl

/-- The oldest process on the list was created by nobody, or by one that is gone. -/
theorem Inv.oldest (h : Inv s) {p : Nat} {rest : List Nat} (hList : s.listed = p :: rest) :
    (s.kernel.processes p).parent = 0 ∨ ParentFreed s p := by
  have hp : p ∈ s.listed := by simp [hList]
  by_cases hNobody : s.creator p = 0
  · exact Or.inl ((h.nobody p hp).mp hNobody)
  · refine Or.inr ⟨hNobody, fun c hc => ?_⟩
    have hLater := h.creator p hp
    have hOrder := h.order
    rw [hList] at hc hOrder
    rcases List.mem_cons.mp hc with rfl | hc
    · omega
    · have hYounger := (List.pairwise_cons.mp hOrder).1 c hc
      omega

/-- **The scan strays.**  In every state that boot leads to by creations, forks, exits and
removals, with any listed process running, the second pointer that the scan of `sys_wait`
dereferences is the parent of the first process on the list, and that is the null pointer
or its control block has been freed.  If the memory is that of a listed process again,
`kmalloc` has handed it out since. -/
theorem scan_strays {processes : Nat → Process} {frames : Nat → Registers}
    {ticks esp0 processEntry : Nat} {events : List Event}
    (hRun : exec step (start processes frames ticks esp0 processEntry) events = some s)
    (hCaller : s.kernel.currentProcess ∈ s.listed) :
    ∃ p ∈ s.listed,
      (∀ turns, 0 < turns → ∃ log, (scanLogged turns s.kernel).log =
        p :: (s.kernel.processes p).parent :: log) ∧
      ((s.kernel.processes p).parent = 0 ∨ ParentFreed s p) ∧
      ∀ q ∈ s.listed, (s.kernel.processes p).parent = q → s.creator p < s.birth q := by
  have h : Inv s := exec_invariant (fun _ _ _ hInv hStep => hInv.step hStep)
    (Inv.start processes frames ticks esp0 processEntry) hRun
  obtain ⟨p, rest, hList⟩ := List.exists_cons_of_ne_nil (List.ne_nil_of_mem hCaller)
  have hp : p ∈ s.listed := by simp [hList]
  have hFirst : s.kernel.processList = p := by
    have hLinked := h.linked
    rw [hList] at hLinked
    exact hLinked.1
  refine ⟨p, hp, fun turns hTurns => ?_, h.oldest hList, fun q hq _ => ?_⟩
  · obtain ⟨turns, rfl⟩ : ∃ n, turns = n + 1 := ⟨turns - 1, by omega⟩
    rw [scanLogged, hFirst, seekLogged, if_neg (h.linked.ne_zero p hp), emit_andThen]
    exact ⟨_, rfl⟩
  · have hLater := h.creator p hp
    have hOrder := h.order
    rw [hList] at hq hOrder
    rcases List.mem_cons.mp hq with rfl | hq
    · exact hLater
    · have hYounger := (List.pairwise_cons.mp hOrder).1 q hq
      omega

/-- The processes that `kernel()` creates: the ELF program, and `user_main` by it. -/
def bootProcesses : List Event :=
  [.list (.create 0 1 0x26009 0x27000 0x2B000), .list (.create 0x10B00 1 0x26042 0x2C000 0x30000)]

theorem scan_strays_boot :
    ∃ s, exec step ProcessPids.zeroed bootProcesses = some s ∧
      ∃ p ∈ s.listed, ∃ log, (scanLogged 1 s.kernel).log = p :: (s.kernel.processes p).parent :: log ∧
        ((s.kernel.processes p).parent = 0 ∨ ParentFreed s p) := by
  have hRun : ∃ s ∈ exec step ProcessPids.zeroed bootProcesses,
      s.kernel.currentProcess ∈ s.listed := by decide +kernel
  obtain ⟨s, hs, hCaller⟩ := hRun
  obtain ⟨p, hp, hLog, hParent, -⟩ := scan_strays hs hCaller
  obtain ⟨log, hFirst⟩ := hLog 1 (by decide)
  exact ⟨s, hs, p, hp, log, hFirst, hParent⟩

/-- After boot `sys_wait` dereferences the null pointer; and when the first process has
been removed, the second one's parent is a control block that has been freed. -/
theorem scan_from_boot :
    (∃ s ∈ exec step ProcessPids.zeroed bootProcesses,
      (scanLogged 1 s.kernel).log = [0x26009, 0, 0x26009, 0x26009]) ∧
    ∃ s ∈ exec step ProcessPids.zeroed
        (bootProcesses ++ [.list (.resume 0x2AFBC 0x26042), .list (.remove 0x26009)]),
      (scanLogged 1 s.kernel).log = [0x26042, 0x26009, 0x26042, 0x26042] ∧
        s.listed = [0x26042] := by
  decide +kernel

end MiniKernel.Ports.ProcessParents
