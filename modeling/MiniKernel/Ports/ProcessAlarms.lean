import MiniKernel.Ports.ProcessFairness

/-!
# Who is blocked runs again

`sys_sleep` and `sys_wait` block the caller, and `wake_processes` makes it ready
at the first tick at which its wake time has come: the wake time that the sleep
has set, or an old one after a wait.  An exit of a child may be earlier.  From
then on it waits no longer than any ready process.

So a process that is blocked runs again, whatever the others do, after as many
ticks as are missing and as many turns as there are processes on the list
(`blocked_served`), as long as the machine goes on, the counter does not pass the
largest `int` meanwhile and no wait stores into the process table.
-/

namespace MiniKernel.Ports.ProcessAlarms

open MiniKernel.Verified.Links
open MiniKernel.Verified.Trace
open MiniKernel.Verified.BoundedWaiting
open MiniKernel.Ports.ProcessTable
open MiniKernel.Ports.ProcessSteps
open MiniKernel.Ports.ProcessRuns
open MiniKernel.Ports.ProcessSwitch
open MiniKernel.Ports.ProcessFairness

variable {k k' : Kernel} {created : List Nat} {s s' : State} {e : Event} {events : List Event}
  {p : Nat}

/-- The ticks that are missing until `wake_processes` finds the process due; it
looks at the next tick at the earliest. -/
def missing (p : Nat) (k : Kernel) : Nat :=
  max 1 (asInt (k.processes p).wake - asInt k.ticks).toNat

/-- A tick of the timer. -/
def ticked (_ : State) : Event → Nat
  | .tick _ => 1
  | _ => 0

/-- The process is blocked, and its time comes before the counter overflows. -/
structure Dozes (p : Nat) (k : Kernel) : Prop where
  blocked : k.state p = .blocked
  lap : asInt k.ticks + missing p k < 2 ^ 31

/-- It is on the list, and another one runs. -/
structure Dozing (p : Nat) (s : State) : Prop where
  table : Table s.kernel s.created
  listed : p ∈ s.created
  other : p ≠ s.kernel.currentProcess
  dozes : Dozes p s.kernel

/-- What leaves its state, its wake time and the clock alone lets it doze. -/
theorem Dozes.frame (h : Dozes p k) (hState : k'.state p = k.state p)
    (hWake : (k'.processes p).wake = (k.processes p).wake) (hClock : k'.ticks = k.ticks) :
    Dozes p k' ∧ missing p k' = missing p k := by
  have hMissing : missing p k' = missing p k := by
    unfold missing
    rw [hWake, hClock]
  refine ⟨⟨hState.trans h.blocked, ?_⟩, hMissing⟩
  rw [hMissing, hClock]
  exact h.lap

theorem Dozes.same (h : Dozes p k) (hBlock : k'.processes p = k.processes p)
    (hClock : k'.ticks = k.ticks) : Dozes p k' ∧ missing p k' = missing p k :=
  h.frame (congrArg Process.state hBlock) (congrArg Process.wake hBlock) hClock

/-- `wake_processes` makes it ready, or its time has not come. -/
theorem woken_or_later (hBlocked : k.state p = .blocked) (hListed : p ∈ created) :
    (woken created k).state p = .ready ∨
      (woken created k).processes p = k.processes p ∧
        asInt k.ticks < asInt (k.processes p).wake := by
  simp only [Kernel.state] at hBlocked
  simp only [Kernel.state, woken, if_pos hListed, wokenBlock]
  by_cases hDue : asInt (k.processes p).wake ≤ asInt k.ticks
  · rw [if_pos ⟨hBlocked, hDue⟩]
    exact Or.inl rfl
  · rw [if_neg fun hBoth => hDue hBoth.2]
    exact Or.inr ⟨rfl, by omega⟩

/-- An exit makes it ready, if it is the parent, or lets it doze. -/
theorem Dozes.afterExit (h : Dozes p k) (hOther : p ≠ k.currentProcess) :
    (departed k).state p = .ready ∨
      Dozes p (departed k) ∧ missing p (departed k) = missing p k := by
  have hDead : (k.modify k.currentProcess fun b => { b with state := .zombie }).processes p =
      k.processes p := modify_processes_ne _ hOther
  unfold departed
  simp only
  split
  · by_cases hParent : p = (k.processes k.currentProcess).parent
    · left
      rw [← hParent]
      simp [Kernel.state]
    · exact Or.inr (h.same ((modify_processes_ne _ hParent).trans hDead) rfl)
  · exact Or.inr (h.same hDead rfl)

theorem asInt_succ {w : Nat} (h : asInt w + 1 < 2 ^ 31) :
    asInt ((w + 1) % 2 ^ 32) = asInt w + 1 := by
  unfold asInt at h ⊢
  split at h <;> split <;> omega

/-- The time comes nearer by a tick, and the process is woken if that is all. -/
theorem Dozes.tick (h : Dozes p k) (hListed : p ∈ created) (regs : Nat) :
    (prepared created k (.tick regs)).state p = .ready ∨
      Dozes p (prepared created k (.tick regs)) ∧
        missing p (prepared created k (.tick regs)) + 1 ≤ missing p k := by
  have hLap := h.lap
  have hPositive : 1 ≤ missing p k := Nat.le_max_left _ _
  have hClock : asInt ((k.ticks + 1) % 2 ^ 32) = asInt k.ticks + 1 := asInt_succ (by omega)
  have hBlocked : ({ k with ticks := (k.ticks + 1) % 2 ^ 32 } : Kernel).state p = .blocked :=
    h.blocked
  rcases woken_or_later hBlocked hListed with hReady | ⟨hBlock, hLater⟩
  · exact Or.inl hReady
  · have hState : (prepared created k (.tick regs)).state p = .blocked := by
      rw [Kernel.state, prepared, hBlock]
      exact h.blocked
    simp only [hClock] at hLater
    have hNearer : missing p (prepared created k (.tick regs)) + 1 = missing p k := by
      simp only [missing, prepared, hBlock]
      show max 1 (asInt _ - asInt ((k.ticks + 1) % 2 ^ 32)).toNat + 1 = _
      rw [hClock]
      omega
    refine Or.inr ⟨⟨hState, ?_⟩, Nat.le_of_eq hNearer⟩
    show asInt ((k.ticks + 1) % 2 ^ 32) + _ < 2 ^ 31
    omega

/-- **What a step assigns** makes it ready, or brings its time nearer by the tick. -/
theorem Dozes.assigned (h : Dozes p s.kernel) (hListed : p ∈ s.created)
    (hOther : p ≠ s.kernel.currentProcess) (hPasses : Passes s.created s.kernel e) :
    (prepared s.created s.kernel e).state p = .ready ∨
      Dozes p (prepared s.created s.kernel e) ∧
        missing p (prepared s.created s.kernel e) + ticked s e ≤ missing p s.kernel := by
  -- what does not concern the clock
  have hSame : ∀ {k' : Kernel}, Dozes p k' ∧ missing p k' = missing p s.kernel →
      Dozes p k' ∧ missing p k' + 0 ≤ missing p s.kernel :=
    fun ⟨hDozes, hMissing⟩ => ⟨hDozes, Nat.le_of_eq hMissing⟩
  cases e with
  | create => exact hPasses.elim
  | fork => exact hPasses.elim
  | yield regs =>
      exact (woken_or_later h.blocked hListed).imp_right fun hLater =>
        hSame (h.same hLater.1 rfl)
  | tick regs => exact h.tick hListed regs
  | sleep regs time =>
      refine Or.inr (hSame (h.same ?_ rfl))
      rw [prepared, modify_processes_ne _ hOther]
  | wait regs =>
      refine Or.inr (hSame (h.same ?_ rfl))
      simp only [prepared, Kernel.modifyFrame]
      rw [modify_processes_ne _ hOther]
  | finish => exact (h.afterExit hOther).imp_right hSame
  | exit status =>
      have hBlock : (s.kernel.modify s.kernel.currentProcess fun b =>
          { b with exitCode := status }).processes p = s.kernel.processes p :=
        modify_processes_ne _ hOther
      obtain ⟨hCode, hMissing⟩ := h.same hBlock rfl
      refine (hCode.afterExit hOther).imp_right fun hAfter => hSame ⟨hAfter.1, ?_⟩
      exact hAfter.2.trans hMissing

/-- It is on the list and ready. -/
def Awake (p : Nat) (s : State) : Prop :=
  Table s.kernel s.created ∧ p ∈ s.created ∧ s.kernel.state p = .ready

/-- **One step**: the process runs or is woken, or its time has come nearer. -/
theorem Dozing.step (h : Dozing p s) (hStores : StoresBeside s e)
    (hStep : ProcessRuns.step s e = some s') :
    (Runs p s' ∨ Awake p s') ∧ ticked s e ≤ missing p s.kernel ∨
      Dozing p s' ∧ missing p s'.kernel + ticked s e ≤ missing p s.kernel := by
  obtain ⟨-, hOutcome⟩ := step_outcome h.table hStores hStep
  have hTable := hOutcome.table h.table
  have hTick : ticked s e ≤ missing p s.kernel := by
    refine Nat.le_trans ?_ (Nat.le_max_left _ _)
    cases e <;> simp [ticked]
  obtain ⟨kernel, list, pages, exited, reports, recent⟩ := s'
  simp only at hOutcome hTable ⊢
  -- the caller goes on, and no time passes
  have hAside : kernel.state p = s.kernel.state p →
      (kernel.processes p).wake = (s.kernel.processes p).wake → kernel.ticks = s.kernel.ticks →
      kernel.currentProcess = s.kernel.currentProcess → p ∈ list → ticked s e = 0 →
      Dozing p ⟨kernel, list, pages, exited, reports, recent⟩ ∧
        missing p kernel + ticked s e ≤ missing p s.kernel := by
    intro hState hWake hClock hCurrent hListed hNoTick
    obtain ⟨hDozes, hSame⟩ := h.dozes.frame hState hWake hClock
    exact ⟨⟨hTable, hListed, hCurrent ▸ h.other, hDozes⟩, by omega⟩
  -- control is passed on, perhaps to nobody
  have hPassed : Passes s.created s.kernel e → list = s.created →
      kernel.processes = (prepared s.created s.kernel e).processes →
      kernel.ticks = (prepared s.created s.kernel e).ticks →
      (Runs p ⟨kernel, list, pages, exited, reports, recent⟩ ∨
          Awake p ⟨kernel, list, pages, exited, reports, recent⟩) ∧ ticked s e ≤ missing p s.kernel ∨
        Dozing p ⟨kernel, list, pages, exited, reports, recent⟩ ∧
          missing p kernel + ticked s e ≤ missing p s.kernel := by
    rintro hPasses rfl hBlocks hClock
    by_cases hNow : kernel.currentProcess = p
    · exact Or.inl ⟨Or.inl hNow, hTick⟩
    · rcases h.dozes.assigned h.listed h.other hPasses with hReady | ⟨hDozes, hNearer⟩
      · have hState : kernel.state p = .ready := by
          rw [Kernel.state, hBlocks]
          exact hReady
        exact Or.inl ⟨Or.inr ⟨hTable, h.listed, hState⟩, hTick⟩
      · obtain ⟨hStill, hSame⟩ := hDozes.same (congrFun hBlocks p) hClock
        exact Or.inr ⟨⟨hTable, h.listed, Ne.symm hNow, hStill⟩, by omega⟩
  have hLeavesPass : leaves e = true → Passes s.created s.kernel e := by
    intro hLeaves
    cases e with
    | exit => trivial
    | finish => trivial
    | _ => simp [leaves] at hLeaves
  cases hOutcome with
  | made pro kernelStack k' he hNew hMade =>
      have hCurrent : kernel.currentProcess = s.kernel.currentProcess := by
        rcases hMade.current with hSame | ⟨hNil, -⟩
        · exact hSame
        · have hListed := h.listed
          rw [hNil] at hListed
          cases hListed
      have hNoTick : ticked s e = 0 := by
        cases e with
        | tick => exact he.elim
        | _ => rfl
      have hBlock := hMade.other p fun hEq => hNew (hEq ▸ h.listed)
      exact Or.inr (hAside (by rw [Kernel.state, hBlock]; rfl) (by rw [hBlock]) hMade.clock
        hCurrent (List.mem_append_left _ h.listed) hNoTick)
  | quiet k' hBeside he =>
      have hNoTick : ticked s e = 0 := by
        cases e with
        | tick => exact absurd trivial he
        | _ => rfl
      have hBlock := hBeside.block p h.listed
      exact Or.inr (hAside (hBeside.state h.listed) (by rw [hBlock]) hBeside.ticks hBeside.current
        h.listed hNoTick)
  | resumed regs next he hLeaves hRunning hHeir =>
      obtain ⟨frames, esp0, hSwitch⟩ := contextSwitch_eq (prepared s.created s.kernel e) regs next
      exact hPassed he rfl (by rw [hSwitch]) (by rw [hSwitch])
  | stayed he hStays hHeir => exact hPassed he rfl rfl rfl
  | left next hLeaves hRunning hHeir => exact hPassed (hLeavesPass hLeaves) rfl rfl rfl
  | stopped he hStays hRunning hHeir => exact hPassed he rfl rfl rfl

end MiniKernel.Ports.ProcessAlarms
