import MiniKernel.Ports.ProcessSwitch

/-!
# Sleep

`sys_sleep` writes the wake time and marks the caller blocked before it knows
whether anyone else can run, and `exit_process` makes the parent ready without
asking what it waits for.  A sleeper is therefore left alone exactly as long
as, at every sleep, somebody else is ready and the wake time is a nonnegative
`int`, and nobody exits whose parent is asleep.  `sleepers_rest` is the result
about those runs, if they are sparing; the run remembers every sleep with the tick it ends at.
-/

namespace MiniKernel.Ports.ProcessSleep

open MiniKernel.Verified.Trace
open MiniKernel.Ports.ProcessTable
open MiniKernel.Ports.ProcessSteps
open MiniKernel.Ports.ProcessRuns (Event blank boot boot_table Sparing)
open MiniKernel.Ports.ProcessSwitch

/-- A process that called `sys_sleep(t)` at tick `T`, and `T + t`. -/
structure Sleep where
  process : Nat
  wakeAt : Nat
  deriving Repr, DecidableEq

/-- The run so far and the sleeps in it. -/
structure State where
  base : ProcessRuns.State
  sleeps : List Sleep

def State.kernel (s : State) : Kernel := s.base.kernel

/-- One step; a sleep of at least one tick is remembered. -/
def step (s : State) (e : Event) : Option State :=
  (ProcessRuns.step s.base e).map fun base =>
    { base := base
      sleeps := match e with
        | .sleep _ time =>
            if time = 0 then s.sleeps
            else ⟨s.kernel.currentProcess, s.kernel.ticks + time⟩ :: s.sleeps
        | _ => s.sleeps }

/-- The process is blocked until a tick that has not come. -/
def Asleep (k : Kernel) (p : Nat) : Prop :=
  k.state p = .blocked ∧ asInt k.ticks < asInt (k.processes p).wake

instance (k : Kernel) (p : Nat) : Decidable (Asleep k p) := by
  unfold Asleep
  infer_instance

/-- The tick counter does not overflow; at a sleep another process is ready
and the wake time is an `int`; at an exit the parent is not asleep. -/
def Undisturbed (s : State) : Event → Prop
  | .tick _ => s.kernel.ticks + 1 < 2 ^ 31
  | .sleep _ time =>
      time = 0 ∨ s.kernel.ticks + time < 2 ^ 31 ∧
        ∃ p ∈ s.base.created, p ≠ s.kernel.currentProcess ∧ s.kernel.state p = .ready
  | .exit _ | .finish =>
      (s.kernel.processes s.kernel.currentProcess).parent = 0 ∨
        ¬Asleep s.kernel (s.kernel.processes s.kernel.currentProcess).parent
  | _ => True

instance (s : State) : (e : Event) → Decidable (Undisturbed s e)
  | .tick _ => inferInstanceAs (Decidable (_ < _))
  | .sleep .. => inferInstanceAs (Decidable (_ ∨ _))
  | .exit _ | .finish => inferInstanceAs (Decidable (_ ∨ _))
  | .create .. | .fork .. | .yield _ | .wait .. => .isTrue trivial

theorem asInt_small {w : Nat} (h : w < 2 ^ 31) : asInt w = w := if_pos h

/-! ## A sleeper during a step -/

/-- A listed process that is blocked until tick `w`, and does not run. -/
structure Resting (created : List Nat) (k : Kernel) (p w : Nat) : Prop where
  listed : p ∈ created
  other : p ≠ k.currentProcess
  blocked : k.state p = .blocked
  wake : (k.processes p).wake = w
  future : k.ticks < w
  small : w < 2 ^ 31

variable {k k' : Kernel} {created created' : List Nat} {p w : Nat}

theorem Resting.asleep (h : Resting created k p w) : Asleep k p := by
  have hFuture := h.future
  refine ⟨h.blocked, ?_⟩
  rw [h.wake, asInt_small h.small, asInt_small (Nat.lt_trans hFuture h.small)]
  exact Int.ofNat_lt.mpr hFuture

/-- What leaves a control block, the clock and the caller alone lets it rest. -/
theorem Resting.frame (h : Resting created k p w) (hBlock : k'.processes p = k.processes p)
    (hClock : k'.ticks = k.ticks) (hCurrent : k'.currentProcess = k.currentProcess) :
    Resting created k' p w where
  listed := h.listed
  other := hCurrent ▸ h.other
  blocked := by rw [Kernel.state, hBlock]; exact h.blocked
  wake := by rw [hBlock]; exact h.wake
  future := hClock ▸ h.future
  small := h.small

theorem Resting.afterWake (h : Resting created k p w) : Resting created (woken created k) p w := by
  refine h.frame ?_ rfl rfl
  have hAsleep := h.asleep
  simp only [woken, if_pos h.listed]
  unfold wokenBlock
  rw [if_neg]
  rintro ⟨-, hDue⟩
  exact absurd hAsleep.2 (by omega)

/-- Time passes, and the sleeper rests on until its tick has come. -/
theorem Resting.tick (h : Resting created k p w) (hSmall : k.ticks + 1 < 2 ^ 31)
    (hFuture : k.ticks + 1 < w) :
    Resting created { k with ticks := (k.ticks + 1) % 2 ^ 32 } p w where
  listed := h.listed
  other := h.other
  blocked := h.blocked
  wake := h.wake
  future := by
    simp only
    omega
  small := h.small

theorem Resting.afterExit (h : Resting created k p w)
    (hParent : (k.processes k.currentProcess).parent = 0 ∨
      (k.processes k.currentProcess).parent ≠ p) : Resting created (departed k) p w := by
  have hDead : Resting created (k.modify k.currentProcess fun b => { b with state := .zombie })
      p w := h.frame (modify_processes_ne _ h.other) rfl rfl
  unfold departed
  simp only
  split
  · next hSome =>
      exact hDead.frame (modify_processes_ne _ (Ne.symm (hParent.resolve_left hSome))) rfl rfl
  · exact hDead

/-- The assignments of a step let the sleeper rest, or its tick has come. -/
theorem Resting.assigned {s : State} {e : Event} (h : Resting created s.kernel p w)
    (hOk : Undisturbed s e) :
    w ≤ (prepared created s.kernel e).ticks ∨ Resting created (prepared created s.kernel e) p w := by
  have hParent : ∀ {e : Event}, leaves e = true → Undisturbed s e →
      (s.kernel.processes s.kernel.currentProcess).parent = 0 ∨
        (s.kernel.processes s.kernel.currentProcess).parent ≠ p := by
    intro e hLeaves hOk
    have hAwake : (s.kernel.processes s.kernel.currentProcess).parent = 0 ∨
        ¬Asleep s.kernel (s.kernel.processes s.kernel.currentProcess).parent := by
      cases e with
      | exit => exact hOk
      | finish => exact hOk
      | _ => simp [leaves] at hLeaves
    exact hAwake.imp id fun hNot hEq => hNot (hEq ▸ h.asleep)
  cases e with
  | create => exact Or.inr h
  | fork => exact Or.inr h
  | yield => exact Or.inr h.afterWake
  | sleep =>
      refine Or.inr (h.frame ?_ rfl rfl)
      rw [prepared, modify_processes_ne _ h.other]
  | wait =>
      refine Or.inr (h.frame ?_ rfl rfl)
      simp only [prepared, Kernel.modifyFrame]
      rw [modify_processes_ne _ h.other]
  | exit status =>
      have hCode : Resting created
          (s.kernel.modify s.kernel.currentProcess fun b => { b with exitCode := status }) p w :=
        h.frame (modify_processes_ne _ h.other) rfl rfl
      refine Or.inr (hCode.afterExit ?_)
      simp only [Kernel.modify]
      exact hParent rfl hOk
  | finish => exact Or.inr (h.afterExit (hParent rfl hOk))
  | tick regs =>
      have hSmall : s.kernel.ticks + 1 < 2 ^ 31 := hOk
      by_cases hDue : w ≤ s.kernel.ticks + 1
      · left
        simp only [prepared, woken]
        omega
      · exact Or.inr (h.tick hSmall (by omega)).afterWake

/-- **A step leaves a sleeper alone**, or its tick has come. -/
theorem Resting.outcome {s : State} {e : Event} (hT : Table s.kernel created)
    (h : Resting created s.kernel p w) (hOk : Undisturbed s e)
    (hOutcome : Outcome created s.kernel e created' k') :
    w ≤ k'.ticks ∨ Resting created' k' p w := by
  have hTable := prepared_table hT e
  have hPrepared := h.assigned hOk
  -- a process that rests after the assignments is not the one that runs next
  have hHeir : ∀ {next}, s.kernel.currentProcess ≠ 0 →
      heir created (prepared created s.kernel e) = some next →
      Resting created (prepared created s.kernel e) p w → p ≠ next := by
    rintro next hRunning hNext hRest rfl
    obtain ⟨-, hReady, -⟩ := heir_some hTable (by simpa using hRunning) hNext
    rw [hRest.blocked] at hReady
    simp at hReady
  cases hOutcome with
  | made pro kernelStack k' he hNew hMade =>
      right
      have hNe : p ≠ pro := fun hEq => hNew (hEq ▸ h.listed)
      have hBlock := hMade.other p hNe
      exact
        { listed := List.mem_append_left _ h.listed
          other := by
            rcases hMade.current with hSame | ⟨hNil, -⟩
            · rw [hSame]
              exact h.other
            · simpa [hNil] using h.listed
          blocked := by rw [Kernel.state, hBlock]; exact h.blocked
          wake := by rw [hBlock]; exact h.wake
          future := hMade.clock ▸ h.future
          small := h.small }
  | quiet k' hBeside he =>
      exact Or.inr (h.frame (hBeside.block p h.listed) hBeside.ticks hBeside.current)
  | resumed regs next he hLeaves hRunning hNext =>
      obtain ⟨frames, esp0, hEq⟩ :=
        contextSwitch_eq (prepared created s.kernel e) regs next
      rw [hEq]
      exact hPrepared.imp id fun hRest =>
        { hRest with other := hHeir hRunning hNext hRest }
  | stayed he hStays hNone => exact hPrepared
  | left next hLeaves hRunning hNext =>
      exact hPrepared.imp id fun hRest => { hRest with other := hHeir hRunning hNext hRest }
  | stopped he hStays hRunning hNone => exact hPrepared.imp id fun hRest => { hRest with }

/-- **A sleep puts the caller to rest** when another process is ready. -/
theorem resting_of_sleep {s : State} {regs time : Nat} (hT : Table s.kernel created)
    (hTime : time ≠ 0) (hSmall : s.kernel.ticks + time < 2 ^ 31)
    (hReady : ∃ p ∈ created, p ≠ s.kernel.currentProcess ∧ s.kernel.state p = .ready)
    (hOutcome : Outcome created s.kernel (.sleep regs time) created' k') :
    Resting created' k' s.kernel.currentProcess (s.kernel.ticks + time) := by
  have hTable := prepared_table hT (.sleep regs time)
  obtain ⟨p, hIn, hOther, hState⟩ := hReady
  have hSome : s.kernel.currentProcess ≠ 0 := by
    rcases hT.current with hCurrent | ⟨hNil, -⟩
    · exact hT.linked.ne_zero _ hCurrent
    · simp [hNil] at hIn
  have hStill : (prepared created s.kernel (.sleep regs time)).state p = .ready := by
    rw [Kernel.state, prepared, modify_processes_ne _ hOther]
    exact hState
  cases hOutcome with
  | made pro kernelStack k' he => exact he.elim
  | quiet k' hBeside he => exact absurd trivial he
  | stayed he hStays hNone =>
      exact absurd hStill ((heir_none hTable hSome).mp hNone p hIn hOther)
  | left next hLeaves => simp [leaves] at hLeaves
  | stopped he hStays => simp [stays] at hStays
  | resumed regs' next he hLeaves hRunning hNext =>
      obtain ⟨frames, esp0, hEq⟩ :=
        contextSwitch_eq (prepared created s.kernel (.sleep regs time)) regs' next
      obtain ⟨-, -, hNe⟩ := heir_some hTable hSome hNext
      rw [hEq]
      exact
        { listed := hT.caller hSome
          other := Ne.symm hNe
          blocked := by
            simp [Kernel.state, prepared]
          wake := by
            simp only [prepared, modify_processes_self]
            omega
          future := by
            change s.kernel.ticks < _
            omega
          small := hSmall }

/-! ## Runs -/

/-- Every sleep is over, or the process rests. -/
structure Kept (s : State) : Prop where
  table : Table s.kernel s.base.created
  sleeps : ∀ x ∈ s.sleeps, x.wakeAt ≤ s.kernel.ticks ∨
    Resting s.base.created s.kernel x.process x.wakeAt

theorem outcome_ticks {e : Event} (hOk : ∀ regs, e = .tick regs → k.ticks + 1 < 2 ^ 31)
    (hOutcome : Outcome created k e created' k') : k.ticks ≤ k'.ticks := by
  have hPrepared : k.ticks ≤ (prepared created k e).ticks := by
    cases e with
    | tick regs =>
        have hSmall := hOk regs rfl
        simp only [prepared, woken]
        omega
    | exit => unfold prepared departed; simp only; split <;> exact Nat.le_refl _
    | finish => unfold prepared departed; simp only; split <;> exact Nat.le_refl _
    | _ => exact Nat.le_refl _
  cases hOutcome with
  | made pro kernelStack k' he hNew hMade => exact Nat.le_of_eq hMade.clock.symm
  | quiet k' hBeside he => exact Nat.le_of_eq hBeside.ticks.symm
  | resumed regs next he hLeaves hRunning hNext =>
      obtain ⟨frames, esp0, hEq⟩ := contextSwitch_eq (prepared created k e) regs next
      rw [hEq]
      exact hPrepared
  | stayed => exact hPrepared
  | left => exact hPrepared
  | stopped => exact hPrepared

theorem step_kept (s : State) (e : Event) (s' : State) (h : Kept s)
    (hBoth : Undisturbed s e ∧ Sparing s.base e) (hStep : step s e = some s') : Kept s' := by
  obtain ⟨hOk, hSparing⟩ := hBoth
  obtain ⟨base, hBase, rfl⟩ := Option.map_eq_some_iff.mp hStep
  obtain ⟨-, hOutcome⟩ := step_outcome h.table hSparing.storesBeside hBase
  have hTicks : s.kernel.ticks ≤ base.kernel.ticks :=
    outcome_ticks (fun regs hTick => by rw [hTick] at hOk; exact hOk) hOutcome
  have hOld : ∀ x ∈ s.sleeps, x.wakeAt ≤ base.kernel.ticks ∨
      Resting base.created base.kernel x.process x.wakeAt := by
    intro x hx
    rcases h.sleeps x hx with hOver | hRest
    · exact Or.inl (Nat.le_trans hOver hTicks)
    · exact hRest.outcome h.table hOk hOutcome
  refine { table := hOutcome.table h.table, sleeps := ?_ }
  cases e with
  | sleep regs time =>
      by_cases hTime : time = 0
      · simp only [if_pos hTime]
        exact hOld
      · simp only [if_neg hTime]
        intro x hx
        rcases List.mem_cons.mp hx with rfl | hx
        · obtain ⟨hSmall, hReady⟩ := hOk.resolve_left hTime
          exact Or.inr (resting_of_sleep h.table hTime hSmall hReady hOutcome)
        · exact hOld x hx
  | _ => exact hOld

/-- The run before the first process. -/
def start (base : ProcessRuns.State) : State := { base := base, sleeps := [] }

/-- **Sleepers sleep.**  In every sparing run in which the tick counter does not
overflow, every sleep finds another process ready and ends at a tick that is
an `int`, and no process exits while its parent is asleep, a process that
slept until tick `T + t` is not the one that runs before that tick. -/
theorem sleepers_rest {processes : Nat → Process} {frames : Nat → Registers}
    {ticks esp0 processEntry : Nat} {events : List Event} {s : State}
    (hRun : exec step (start (boot processes frames ticks esp0 processEntry)) events = some s)
    (hOk : Meets step Undisturbed (start (boot processes frames ticks esp0 processEntry))
      events)
    (hSparing : Meets step (fun s e => Sparing s.base e)
      (start (boot processes frames ticks esp0 processEntry)) events) :
    ∀ x ∈ s.sleeps, s.kernel.ticks < x.wakeAt → s.kernel.currentProcess ≠ x.process := by
  have hStart : Kept (start (boot processes frames ticks esp0 processEntry)) :=
    { table := boot_table processes frames ticks esp0 processEntry
      sleeps := by simp [start] }
  have h := (hOk.and hSparing).invariant step_kept hStart hRun
  intro x hx hFuture hCurrent
  rcases h.sleeps x hx with hOver | hRest
  · omega
  · exact hRest.other hCurrent.symm

/-- A process sleeps three ticks while its child runs. -/
theorem sleepers_rest_threeTicks :
    ∃ s, exec step (start blank)
        [.create 0x10B00 1 0x26009 0x27000 0x2B000, .fork 0x2AFBC 0x26042 0x2C000 0x30000,
          .sleep 0x2AFBC 3, .tick 0x2FFBC, .yield 0x2FFBC, .tick 0x2FFBC] = some s ∧
      s.sleeps = [⟨0x26009, 3⟩] ∧ s.kernel.ticks = 2 ∧
      ∀ x ∈ s.sleeps, s.kernel.ticks < x.wakeAt → s.kernel.currentProcess ≠ x.process := by
  have hView : (exec step (start blank)
      [.create 0x10B00 1 0x26009 0x27000 0x2B000, .fork 0x2AFBC 0x26042 0x2C000 0x30000,
        .sleep 0x2AFBC 3, .tick 0x2FFBC, .yield 0x2FFBC, .tick 0x2FFBC]).map
        (fun s => (s.sleeps, s.kernel.ticks)) = some ([⟨0x26009, 3⟩], 2) := by decide +kernel
  obtain ⟨s, hRun, hs⟩ := Option.map_eq_some_iff.mp hView
  rw [Prod.mk.injEq] at hs
  exact ⟨s, hRun, hs.1, hs.2, sleepers_rest hRun (by decide +kernel) (by decide +kernel)⟩

/-- A process runs although its sleep is not over. -/
def Disturbed (s : State) : Prop :=
  s.kernel.halted = false ∧
    ∃ x ∈ s.sleeps, s.kernel.ticks < x.wakeAt ∧ s.kernel.currentProcess = x.process

instance (s : State) : Decidable (Disturbed s) := by
  unfold Disturbed
  infer_instance

/-- The only process sleeps and goes on; a sleeper's child exits; a wake time
of `2 ^ 31` is a negative `int`; a wait stores the state of a sleeper. -/
theorem sleeper_disturbed :
    (∃ s ∈ exec step (start blank)
        [.create 0x10B00 1 0x26009 0x27000 0x2B000, .sleep 0x2AFBC 10], Disturbed s) ∧
    (∃ s ∈ exec step (start blank)
        [.create 0x10B00 1 0x26009 0x27000 0x2B000, .fork 0x2AFBC 0x26042 0x2C000 0x30000,
          .sleep 0x2AFBC 10, .exit 0], Disturbed s) ∧
    (∃ s ∈ exec step (start blank)
        [.create 0x10B00 1 0x26009 0x27000 0x2B000, .fork 0x2AFBC 0x26042 0x2C000 0x30000,
          .tick 0x2AFBC, .sleep 0x2FFBC 0x7FFFFFFF, .yield 0x2AFBC], Disturbed s) ∧
    ∃ s ∈ exec step (start blank)
        [.create 0x10B00 1 0x26009 0x27000 0x2B000, .fork 0x2AFBC 0x26042 0x2C000 0x30000,
          .fork 0x2AFBC 0x2607B 0x31000 0x35000, .yield 0x2AFBC, .sleep 0x2FFBC 10, .exit 0,
          .wait 0x26056 0x2AFBC, .yield 0x2AFBC], Disturbed s := by
  decide +kernel

end MiniKernel.Ports.ProcessSleep
