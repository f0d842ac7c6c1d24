import MiniKernel.Ports.ProcessSwitch

/-!
# The PANIC branches

`exit_process` and `sys_wait` stop the machine when `schedule` finds nobody.
`schedule` sees the processes that are ready now; unlike `sys_yield`, the two
do not wake the sleepers first, and they do not wait for those whose time has
not come.  `panics_justified` says in which sparing runs the machine only stops
when nothing could ever run again, and says it exactly: in the others it stops
with a blocked process left.
-/

namespace MiniKernel.Ports.ProcessPanic

open MiniKernel.Verified.Trace
open MiniKernel.Ports.ProcessTable
open MiniKernel.Ports.ProcessSteps
open MiniKernel.Ports.ProcessRuns (Event State step blank boot boot_table Sparing)
open MiniKernel.Ports.ProcessSwitch

variable {k k' : Kernel} {created created' : List Nat}

/-- Some process besides the caller is in the given state. -/
def Another (created : List Nat) (k : Kernel) (state : ProcessState) : Prop :=
  ∃ p ∈ created, p ≠ k.currentProcess ∧ k.state p = state

instance (created : List Nat) (k : Kernel) (state : ProcessState) :
    Decidable (Another created k state) := by
  unfold Another
  infer_instance

/-- A stopped machine has no other process that is ready or could become so. -/
def Justified (created : List Nat) (k : Kernel) : Prop :=
  k.halted = true → ¬Another created k .ready ∧ ¬Another created k .blocked

/-- An exit or a wait that finds nobody ready, nor makes anybody ready, leaves
nobody blocked. -/
def Serviceable (s : State) : Event → Prop
  | .exit _ | .finish =>
      Another s.created s.kernel .ready ∨
        (s.kernel.processes s.kernel.currentProcess).parent ≠ 0 ∨
        ¬Another s.created s.kernel .blocked
  | .wait .. =>
      s.created.find? s.kernel.zombieOfCaller ≠ none ∨ Another s.created s.kernel .ready ∨
        ¬Another s.created s.kernel .blocked
  | _ => True

instance (s : State) : (e : Event) → Decidable (Serviceable s e)
  | .exit _ | .finish | .wait .. => inferInstanceAs (Decidable (_ ∨ _))
  | .create .. | .fork .. | .yield _ | .sleep .. | .tick _ => .isTrue trivial

/-! ## Steps -/

/-- Once somebody runs next, the call was serviceable. -/
theorem serviceable_of_heir {s : State} {e : Event} {next : Nat}
    (hT : Table s.kernel s.created) (hPasses : Passes s.created s.kernel e)
    (hRunning : s.kernel.currentProcess ≠ 0)
    (h : heir s.created (prepared s.created s.kernel e) = some next) : Serviceable s e := by
  have hTable := prepared_table hT e
  obtain ⟨hIn, hReady, hOther⟩ := heir_some hTable (by simpa using hRunning) h
  rw [prepared_current] at hOther
  have hState : stays e = false →
      (leaves e = true ∧ next ≠ 0 ∧ next = (s.kernel.processes s.kernel.currentProcess).parent) ∨
        s.kernel.state next = .ready := by
    intro hStays
    rw [prepared_state hPasses hStays hOther] at hReady
    by_cases hParent : leaves e = true ∧ next ≠ 0 ∧
        next = (s.kernel.processes s.kernel.currentProcess).parent
    · exact Or.inl hParent
    · rw [if_neg hParent] at hReady
      exact Or.inr hReady
  have hExit : stays e = false → Another s.created s.kernel .ready ∨
      (s.kernel.processes s.kernel.currentProcess).parent ≠ 0 ∨
        ¬Another s.created s.kernel .blocked := by
    intro hStays
    rcases hState hStays with ⟨-, hNonzero, hParent⟩ | hReady
    · exact Or.inr (Or.inl (hParent ▸ hNonzero))
    · exact Or.inl ⟨next, hIn, hOther, hReady⟩
  cases e with
  | wait regs =>
      rcases hState rfl with ⟨hLeaves, -⟩ | hReady
      · simp [leaves] at hLeaves
      · exact Or.inr (Or.inl ⟨next, hIn, hOther, hReady⟩)
  | exit => exact hExit rfl
  | finish => exact hExit rfl
  | _ => trivial

/-- When nobody runs next, the call was serviceable exactly if nobody else is
blocked. -/
theorem serviceable_of_stop {s : State} {e : Event} (hT : Table s.kernel s.created)
    (hPasses : Passes s.created s.kernel e) (hStays : stays e = false)
    (hRunning : s.kernel.currentProcess ≠ 0)
    (h : heir s.created (prepared s.created s.kernel e) = none) :
    Serviceable s e ↔ Justified s.created
      { prepared s.created s.kernel e with halted := true } := by
  have hTable := prepared_table hT e
  have hNone := (heir_none hTable (by simpa using hRunning)).mp h
  rw [prepared_current] at hNone
  -- the parent of an exiting process would have been made ready
  have hOrphan : leaves e = true → (s.kernel.processes s.kernel.currentProcess).parent = 0 := by
    intro hLeaves
    by_contra hNonzero
    obtain ⟨hNotSelf, hParent⟩ := hT.parent _ (hT.caller hRunning)
    refine hNone _ (hParent.resolve_left hNonzero) hNotSelf ?_
    rw [prepared_state hPasses hStays hNotSelf, if_pos ⟨hLeaves, hNonzero, rfl⟩]
  have hSame : ∀ p, p ≠ s.kernel.currentProcess →
      (prepared s.created s.kernel e).state p = s.kernel.state p := by
    intro p hp
    rw [prepared_state hPasses hStays hp, if_neg]
    rintro ⟨hLeaves, hNonzero, hParent⟩
    exact hNonzero (hParent.trans (hOrphan hLeaves))
  have hAnother : ∀ state, Another s.created { prepared s.created s.kernel e with halted := true }
      state ↔ Another s.created s.kernel state := by
    intro state
    constructor
    · rintro ⟨p, hp, hOther, hState⟩
      have hNe : p ≠ s.kernel.currentProcess := by simpa using hOther
      exact ⟨p, hp, hNe, (hSame p hNe).symm.trans hState⟩
    · rintro ⟨p, hp, hOther, hState⟩
      exact ⟨p, hp, by simpa using hOther, (hSame p hOther).trans hState⟩
  have hReady : ¬Another s.created s.kernel .ready := by
    rintro ⟨p, hp, hOther, hState⟩
    exact hNone p hp hOther ((hSame p hOther).trans hState)
  have hRight : Justified s.created { prepared s.created s.kernel e with halted := true } ↔
      ¬Another s.created s.kernel .blocked := by
    unfold Justified
    rw [hAnother, hAnother]
    exact ⟨fun hJust => (hJust rfl).2, fun hBlocked _ => ⟨hReady, hBlocked⟩⟩
  rw [hRight]
  cases e with
  | create => exact hPasses.elim
  | fork => exact hPasses.elim
  | wait regs => exact ⟨fun hOk => (hOk.resolve_left fun hSome => hSome hPasses).resolve_left hReady,
      fun hBlocked => Or.inr (Or.inr hBlocked)⟩
  | exit => exact ⟨fun hOk => (hOk.resolve_left hReady).resolve_left fun hParent =>
      hParent (hOrphan rfl), fun hBlocked => Or.inr (Or.inr hBlocked)⟩
  | finish => exact ⟨fun hOk => (hOk.resolve_left hReady).resolve_left fun hParent =>
      hParent (hOrphan rfl), fun hBlocked => Or.inr (Or.inr hBlocked)⟩
  | yield => simp [stays] at hStays
  | sleep => simp [stays] at hStays
  | tick => simp [stays] at hStays

/-- **A step is serviceable exactly if it does not stop the machine too early.** -/
theorem step_justified (s : State) (e : Event) (s' : State) (hT : Table s.kernel s.created)
    (hStep : guarded step Sparing s e = some s') :
    Table s'.kernel s'.created ∧ (Serviceable s e ↔ Justified s'.created s'.kernel) := by
  obtain ⟨hSparing, hStep⟩ := guarded_eq_some.mp hStep
  obtain ⟨hOn, hOutcome⟩ := step_outcome hT hSparing.storesBeside hStep
  refine ⟨hOutcome.table hT, ?_⟩
  have hRunsOn : ∀ {created k}, k.halted = false → Serviceable s e →
      (Serviceable s e ↔ Justified created k) := by
    intro created k hOn hOk
    refine ⟨fun _ hHalted => ?_, fun _ => hOk⟩
    simp [hOn] at hHalted
  generalize hCreated : s'.created = created', hKernel : s'.kernel = k' at hOutcome
  cases hOutcome with
  | made pro kernelStack k' he hNew hMade =>
      refine hRunsOn (hMade.halted.trans hOn) ?_
      cases e with
      | create => trivial
      | fork => trivial
      | _ => exact he.elim
  | quiet k' hBeside he =>
      refine hRunsOn (hBeside.halted.trans hOn) ?_
      cases e with
      | create => trivial
      | fork => trivial
      | wait => exact Or.inl he
      | _ => exact absurd trivial he
  | resumed regs next he hLeaves hRunning hNext =>
      obtain ⟨frames, esp0, hEq⟩ := contextSwitch_eq (prepared s.created s.kernel e) regs next
      refine hRunsOn ?_ (serviceable_of_heir hT he hRunning hNext)
      rw [hEq]
      exact (prepared_halted _ _ _).trans hOn
  | stayed he hStays hNone =>
      refine hRunsOn ((prepared_halted _ _ _).trans hOn) ?_
      cases e with
      | yield => trivial
      | sleep => trivial
      | tick => trivial
      | _ => simp [stays] at hStays
  | left next hLeaves hRunning hNext =>
      have hPasses : Passes s.created s.kernel e := by
        cases e with
        | exit => trivial
        | finish => trivial
        | _ => simp [leaves] at hLeaves
      exact hRunsOn ((prepared_halted _ _ _).trans hOn)
        (serviceable_of_heir hT hPasses hRunning hNext)
  | stopped he hStays hRunning hNone => exact serviceable_of_stop hT he hStays hRunning hNone

/-! ## Runs -/

theorem step_halted (s : State) (e : Event) (h : ¬s.kernel.halted = false) :
    guarded step Sparing s e = none := by
  refine (ite_eq_right_iff.mpr fun _ => ?_)
  cases e with
  | create => exact if_neg fun hOn => h hOn.1
  | fork => exact if_neg fun hOn => h hOn.1.1
  | tick => exact if_neg h
  | _ => exact if_neg fun hOn => h hOn.1

/-- **The machine stops for good reason** exactly in the sparing runs whose exits
and waits are all serviceable: when it has stopped, no process besides the caller
is ready, and none is blocked. -/
theorem panics_justified {processes : Nat → Process} {frames : Nat → Registers}
    {ticks esp0 processEntry : Nat} {events : List Event} {s : State}
    (hRun : exec step (boot processes frames ticks esp0 processEntry) events = some s)
    (hSparing : Meets step Sparing (boot processes frames ticks esp0 processEntry) events) :
    Meets step Serviceable (boot processes frames ticks esp0 processEntry) events ↔
      Justified s.created s.kernel := by
  rw [← hSparing.exec_guarded] at hRun
  rw [← hSparing.guarded_iff]
  refine Meets.iff_last (I := fun s => Table s.kernel s.created)
    (L := fun s => s.kernel.halted = false)
    (G := fun s => Justified s.created s.kernel) step_justified ?_ step_halted
    (boot_table processes frames ticks esp0 processEntry) rfl hRun
  intro s hOn hHalted
  simp [hOn] at hHalted

/-- A child exits, its parent waits for it and exits: the machine stops with
two zombies. -/
theorem panics_justified_lastExit :
    ∃ s, exec step blank
        [.create 0x10B00 1 0x26009 0x27000 0x2B000, .fork 0x2AFBC 0x26042 0x2C000 0x30000,
          .wait 0x2BFF0 0x2AFBC, .exit 42, .wait 0x2BFF0 0x2AFBC, .exit 0] = some s ∧
      s.kernel.halted = true ∧
      (Meets step Serviceable blank
        [.create 0x10B00 1 0x26009 0x27000 0x2B000, .fork 0x2AFBC 0x26042 0x2C000 0x30000,
          .wait 0x2BFF0 0x2AFBC, .exit 42, .wait 0x2BFF0 0x2AFBC, .exit 0] ↔ Justified s.created s.kernel) := by
  have hView : (exec step blank
      [.create 0x10B00 1 0x26009 0x27000 0x2B000, .fork 0x2AFBC 0x26042 0x2C000 0x30000,
        .wait 0x2BFF0 0x2AFBC, .exit 42, .wait 0x2BFF0 0x2AFBC, .exit 0]).map (fun s => s.kernel.halted) =
      some true := by decide +kernel
  obtain ⟨s, hRun, hs⟩ := Option.map_eq_some_iff.mp hView
  exact ⟨s, hRun, hs, panics_justified hRun (by decide +kernel)⟩

/-- A child waits while its parent sleeps; a parent exits while its child
sleeps.  Both times the machine stops on a sleeper. -/
theorem sleeper_abandoned :
    (∃ s ∈ exec step blank
        [.create 0x10B00 1 0x26009 0x27000 0x2B000, .fork 0x2AFBC 0x26042 0x2C000 0x30000,
          .sleep 0x2AFBC 10, .wait 0x30FF0 0x2FFBC],
        s.kernel.halted = true ∧ Another s.created s.kernel .blocked) ∧
    ∃ s ∈ exec step blank
        [.create 0x10B00 1 0x26009 0x27000 0x2B000, .fork 0x2AFBC 0x26042 0x2C000 0x30000,
          .yield 0x2AFBC, .sleep 0x2FFBC 10, .exit 0],
        s.kernel.halted = true ∧ Another s.created s.kernel .blocked := by
  decide +kernel

end MiniKernel.Ports.ProcessPanic
