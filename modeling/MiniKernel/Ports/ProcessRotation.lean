import MiniKernel.Ports.ProcessSwitch

/-!
# Round robin

`schedule` looks behind the current process and then in front of it.  Taken
again and again, with no state changed in between, it goes round the ready
processes of the list: seen from the process that runs, their `ring` is turned
by one at every yield.

`switchNext` is the part of `sys_yield` behind `wake_processes`; the two are
the same as long as no blocked process is due.
-/

namespace MiniKernel.Ports.ProcessRotation

open MiniKernel.Verified.Links
open MiniKernel.Ports.Kmalloc (addresses)
open MiniKernel.Ports.ProcessTable
open MiniKernel.Ports.ProcessTable.Kernel
open MiniKernel.Ports.ProcessSteps
open MiniKernel.Ports.ProcessSwitch

variable {k : Kernel} {created : List Nat}

def isReady (k : Kernel) (p : Nat) : Bool := k.state p == .ready

/-- `schedule` and, when it finds a process, `context_switch`. -/
def switchNext (k : Kernel) (regs : Nat) : Option Kernel :=
  k.schedule.map fun next => if next ≠ 0 then k.contextSwitch regs next else k

/-- Yields one after the other, with the trap frames they are called with, and
the process that runs after each. -/
def yields (yield : Kernel → Nat → Option Kernel) :
    List Nat → Kernel → Option (List Nat × Kernel)
  | [], k => some ([], k)
  | regs :: rest, k =>
      (yield k regs).bind fun k =>
        (yields yield rest k).map fun r => (k.currentProcess :: r.1, r.2)

/-- The list, and the process on it that runs. -/
structure Listed (k : Kernel) (created : List Nat) : Prop where
  linked : Linked k.next k.processList created
  short : created.length < addresses
  current : k.currentProcess ∈ created
  ready : isReady k k.currentProcess

/-- The process that runs is the first of its ring. -/
theorem Listed.ring_eq (h : Listed k created) :
    ring (isReady k) k.currentProcess created =
      k.currentProcess :: (around k.currentProcess created).filter (isReady k) :=
  List.filter_cons_of_pos h.ready

/-- A yield only changes who runs, the saved frames and `tss.esp0`. -/
structure SameStates (k k' : Kernel) : Prop where
  processes : k'.processes = k.processes
  list : k'.processList = k.processList
  ticks : k'.ticks = k.ticks

theorem SameStates.refl (k : Kernel) : SameStates k k := ⟨rfl, rfl, rfl⟩

theorem SameStates.trans {k' k'' : Kernel} (h : SameStates k k') (h' : SameStates k' k'') :
    SameStates k k'' :=
  ⟨h'.processes.trans h.processes, h'.list.trans h.list, h'.ticks.trans h.ticks⟩

theorem SameStates.isReady {k' : Kernel} (h : SameStates k k') : isReady k' = isReady k := by
  funext p
  simp only [ProcessRotation.isReady, Kernel.state, h.processes]

/-- **One yield** turns the ring by one. -/
theorem switchNext_ring (h : Listed k created) (regs : Nat) :
    ∃ k', switchNext k regs = some k' ∧ SameStates k k' ∧ Listed k' created ∧
      ring (isReady k') k'.currentProcess created =
        (ring (isReady k) k.currentProcess created).rotate 1 := by
  have hNodup := h.linked.nodup
  unfold switchNext
  rw [schedule_around h.linked h.short h.current, Option.map_some]
  cases hHeir : heir created k with
  | none =>
      have hNobody : (around k.currentProcess created).filter (isReady k) = [] := by
        rw [List.filter_eq_nil_iff]
        exact fun p hp => List.find?_eq_none.mp hHeir p hp
      refine ⟨k, by simp, SameStates.refl k, h, ?_⟩
      rw [h.ring_eq, hNobody, List.rotate_singleton]
  | some next =>
      have hIn : next ∈ created :=
        ((mem_around hNodup h.current).mp (List.mem_of_find?_eq_some hHeir)).1
      have hNonzero : next ≠ 0 := h.linked.ne_zero next hIn
      obtain ⟨frames, esp0, hSwitch⟩ := contextSwitch_eq k regs next
      refine ⟨k.contextSwitch regs next, by simp [hNonzero], ?_⟩
      rw [hSwitch]
      refine ⟨⟨rfl, rfl, rfl⟩, ⟨h.linked, h.short, hIn, ?_⟩, ?_⟩
      · exact List.find?_some hHeir
      · exact ring_next hNodup h.current h.ready hHeir

/-- Up to one round of yields runs through the ring. -/
theorem yields_ring (regs : List Nat) {k : Kernel} (h : Listed k created)
    (hRound : regs.length ≤ (ring (isReady k) k.currentProcess created).length) :
    ∃ k', yields switchNext regs k =
        some (((ring (isReady k) k.currentProcess created).rotate 1).take regs.length, k') ∧
      SameStates k k' ∧ Listed k' created ∧
      ring (isReady k') k'.currentProcess created =
        (ring (isReady k) k.currentProcess created).rotate regs.length := by
  induction regs generalizing k with
  | nil => exact ⟨k, by simp [yields], SameStates.refl k, h, by simp⟩
  | cons r regs ih =>
      obtain ⟨k₁, hYield, hSame, hListed, hTurned⟩ := switchNext_ring h r
      rw [List.length_cons] at hRound
      obtain ⟨k', hRest, hSame', hListed', hRing⟩ := ih hListed (by
        rw [hTurned, List.length_rotate]
        omega)
      refine ⟨k', ?_, hSame.trans hSame', hListed', ?_⟩
      · have hTurned' := hTurned
        rw [hListed.ring_eq] at hTurned' hRest
        have hLength := congrArg List.length hTurned'
        rw [List.length_rotate, List.length_cons] at hLength
        rw [yields, hYield, Option.bind_some, hRest, Option.map_some, ← hTurned',
          List.rotate_cons_succ, List.rotate_zero, List.length_cons, List.take_succ_cons,
          List.take_append_of_le_length (by omega)]
      · rw [hRing, hTurned, List.rotate_rotate, List.length_cons, Nat.add_comm]

/-- No blocked process is due. -/
def NoneDue (k : Kernel) (created : List Nat) : Prop :=
  ∀ p ∈ created, k.state p = .blocked → asInt k.ticks < asInt (k.processes p).wake

theorem sysYield_noneDue (h : Listed k created) (hQuiet : NoneDue k created) (regs : Nat) :
    k.sysYield regs = switchNext k regs := by
  have hWoken : k.wakeProcesses = some k := by
    rw [wakeProcesses_linked h.linked h.short]
    have hSame : (fun p => if p ∈ created then wokenBlock k.ticks (k.processes p)
        else k.processes p) = k.processes := by
      funext p
      split
      · next hp =>
          refine if_neg fun hDue => ?_
          have hLater := hQuiet p hp hDue.1
          omega
      · rfl
    rw [hSame]
  unfold sysYield switchNext
  rw [hWoken, Option.bind_some, schedule_around h.linked h.short h.current, Option.map_some,
    Option.map_some]
  cases hHeir : heir created k with
  | none => simp
  | some next =>
      have hOther : next ≠ k.currentProcess :=
        ((mem_around h.linked.nodup h.current).mp (List.mem_of_find?_eq_some hHeir)).2
      simp [hOther]

theorem yields_noneDue (regs : List Nat) {k : Kernel} (h : Listed k created)
    (hQuiet : NoneDue k created) : yields sysYield regs k = yields switchNext regs k := by
  induction regs generalizing k with
  | nil => rfl
  | cons r regs ih =>
      obtain ⟨k₁, hYield, hSame, hListed, -⟩ := switchNext_ring h r
      have hQuiet₁ : NoneDue k₁ created := by
        simpa only [NoneDue, Kernel.state, hSame.processes, hSame.ticks] using hQuiet
      simp only [yields, sysYield_noneDue h hQuiet, hYield, Option.bind_some, ih hListed hQuiet₁]

/-- **Round robin.**  As many yields as there are ready processes run each of
them once, in the order of the list behind the current process and then in front
of it, and end with the current process itself.  `sys_yield` does the same while
no blocked process is due. -/
theorem round_robin {regs : List Nat} (hList : Linked k.next k.processList created)
    (hRange : ∀ p ∈ created, p < 2 ^ 32) (hCurrent : k.currentProcess ∈ created)
    (hReady : k.state k.currentProcess = .ready)
    (hRound : regs.length = created.countP (isReady k)) :
    ∃ ran k', yields switchNext regs k = some (ran, k') ∧
      ran = (around k.currentProcess created ++ [k.currentProcess]).filter (isReady k) ∧
      ran.Perm (created.filter (isReady k)) ∧ (∀ p ∈ ran, k.state p = .ready) ∧
      k'.currentProcess = k.currentProcess ∧ SameStates k k' ∧
      (NoneDue k created → yields sysYield regs k = some (ran, k')) := by
  have hListed : Listed k created :=
    ⟨hList, hList.length_lt hRange (by decide), hCurrent, by simp [isReady, hReady]⟩
  have hPerm := ring_perm (p := isReady k) hList.nodup hCurrent
  have hLength : regs.length = (ring (isReady k) k.currentProcess created).length := by
    rw [hRound, List.countP_eq_length_filter, hPerm.length_eq]
  obtain ⟨k', hYields, hSame, hListed', hRing⟩ := yields_ring regs hListed (Nat.le_of_eq hLength)
  have hRan : ((ring (isReady k) k.currentProcess created).rotate 1).take regs.length =
      (around k.currentProcess created ++ [k.currentProcess]).filter (isReady k) := by
    rw [List.take_of_length_le (by rw [List.length_rotate, hLength]), hListed.ring_eq,
      List.rotate_cons_succ, List.rotate_zero, List.filter_append]
    simp [hListed.ready]
  have hOnce : ((around k.currentProcess created ++ [k.currentProcess]).filter
      (isReady k)).Perm (created.filter (isReady k)) := by
    refine List.Perm.trans ?_ hPerm
    exact List.perm_append_comm.filter (isReady k)
  rw [hRan] at hYields
  refine ⟨_, k', hYields, rfl, hOnce, fun p hp => ?_, ?_, hSame, fun hQuiet => ?_⟩
  · simpa [isReady] using (List.mem_filter.mp hp).2
  · rw [hLength, List.rotate_length, hListed'.ring_eq, hListed.ring_eq] at hRing
    exact (List.cons.inj hRing).1
  · rw [yields_noneDue regs hListed hQuiet, hYields]

/-- Four processes; the second is blocked until tick 50 and the third runs. -/
def fourProcesses : Kernel where
  processes p :=
    { pid := p / 0x1000, kernelStack := 0, kernelStackTo := 0, regs := 0
      state := if p = 0x2000 then .blocked else .ready
      exitCode := 0, entry := 0, wake := if p = 0x2000 then 50 else 0
      next := if p = 0x4000 then 0 else p + 0x1000
      parent := 0, userStack := 0 }
  frames _ :=
    { gs := 0, fs := 0, es := 0, ds := 0, edi := 0, esi := 0, ebp := 0, esp := 0, ebx := 0,
      edx := 0, ecx := 0, eax := 0, eip := 0, cs := 0, eflags := 0, userEsp := 0, userSs := 0 }
  processList := 0x1000
  currentProcess := 0x3000
  processNumber := 5
  ticks := 20
  esp0 := 0
  processEntry := 0
  halted := false

theorem round_robin_four :
    ∃ k', yields switchNext [0, 0, 0] fourProcesses = some ([0x4000, 0x1000, 0x3000], k') ∧
      yields sysYield [0, 0, 0] fourProcesses = some ([0x4000, 0x1000, 0x3000], k') := by
  obtain ⟨ran, k', hYields, hRan, -, -, -, -, hQuiet⟩ := @round_robin fourProcesses
    [0x1000, 0x2000, 0x3000, 0x4000] [0, 0, 0] (by decide) (by decide) (by decide) rfl (by decide)
  have hOrder : ran = [0x4000, 0x1000, 0x3000] := by
    rw [hRan]
    decide
  subst hOrder
  exact ⟨k', hYields, hQuiet (by unfold NoneDue; decide)⟩

end MiniKernel.Ports.ProcessRotation
