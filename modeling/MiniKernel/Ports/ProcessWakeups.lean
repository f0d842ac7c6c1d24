import MiniKernel.Ports.ProcessRotation

/-!
# Sleeping across the overflow of the counter

`ticks` is an `unsigned long` in `kernel.c` and an `int` to `sys_sleep` and
`wake_processes`, so the wake time is a sum modulo `2 ^ 32` and the comparison is one of
`int`s.  Counted from the smallest `int` (`phase`), the two orders agree as long as the
counter does not pass from the largest `int` to the smallest: `woken_on_time` says this of
every call of `wake_processes`.

A `Nap` is what happens to a sleeper until some call wakes it.  Its control block and its
place on the list are its own; ticks pass, `wake_processes` is called, and everything else
may change.
-/

namespace MiniKernel.Ports.ProcessWakeups

open MiniKernel.Verified.Links
open MiniKernel.Ports.Kmalloc (addresses)
open MiniKernel.Ports.ProcessTable
open MiniKernel.Ports.ProcessTable.Kernel
open MiniKernel.Ports.ProcessSteps
open MiniKernel.Ports.ProcessRotation (fourProcesses)

/-! ## The two orders of the counter -/

/-- The counter, counted from the smallest `int`. -/
def phase (ticks : Nat) : Nat := (ticks + 2 ^ 31) % 2 ^ 32

/-- `ticks >= p->wake` as the code compares, `d` ticks after `sys_sleep(t)`. -/
def Due (ticks t d : Nat) : Prop :=
  asInt ((ticks + t) % 2 ^ 32) ≤ asInt ((ticks + d) % 2 ^ 32)

/-- The counter passes the largest `int` equally often in `d` and in `t` ticks. -/
def SameLap (ticks t d : Nat) : Prop :=
  (phase ticks + d) / 2 ^ 32 = (phase ticks + t) / 2 ^ 32

instance (ticks t d : Nat) : Decidable (SameLap ticks t d) :=
  inferInstanceAs (Decidable (_ = _))

theorem asInt_mod (w : Nat) : asInt (w % 2 ^ 32) = ((w + 2 ^ 31) % 2 ^ 32 : Nat) - 2 ^ 31 := by
  unfold asInt
  split <;> omega

/-- Two `int`s compare as their phases do. -/
theorem due_iff {ticks t d : Nat} :
    Due ticks t d ↔ (phase ticks + t) % 2 ^ 32 ≤ (phase ticks + d) % 2 ^ 32 := by
  unfold Due phase
  rw [asInt_mod, asInt_mod]
  omega

/-- **The comparison is right** in the lap of the wake time, and only there. -/
theorem due_iff_passed {ticks t d : Nat} (ht : t < 2 ^ 31) (hd : d < t + 2 ^ 31) :
    (Due ticks t d ↔ t ≤ d) ↔ SameLap ticks t d := by
  rw [due_iff]
  unfold SameLap
  omega

/-! ## Naps -/

/-- The process is on the list. -/
def Listed (k : Kernel) (p : Nat) : Prop :=
  ∃ created, Linked k.next k.processList created ∧ (∀ q ∈ created, q < 2 ^ 32) ∧ p ∈ created

/-- What may happen to the rest of the kernel while `p` sleeps. -/
structure Aside (p : Nat) (k k' : Kernel) : Prop where
  ticks : k'.ticks = k.ticks
  state : k'.state p = k.state p
  wake : (k'.processes p).wake = (k.processes p).wake
  listed : Listed k' p

/-- `Nap p k d k'`: the process `p` has been blocked from `k` to `k'`, and `d` ticks have
passed in between. -/
inductive Nap (p : Nat) (k : Kernel) : Nat → Kernel → Prop
  | start : Nap p k 0 k
  | tick {d : Nat} {k' : Kernel} (h : Nap p k d k') :
      Nap p k (d + 1) { k' with ticks := (k'.ticks + 1) % 2 ^ 32 }
  | wake {d : Nat} {k' k'' : Kernel} (h : Nap p k d k') (hWake : k'.wakeProcesses = some k'')
      (hBlocked : k''.state p = .blocked) : Nap p k d k''
  | aside {d : Nat} {k' k'' : Kernel} (h : Nap p k d k') (hAside : Aside p k' k'') :
      Nap p k d k''

/-- A call of `wake_processes` after `d` ticks that finds `p` still blocked makes it ready
if and only if `t` ticks have passed. -/
def OnTime (p : Nat) (k : Kernel) (t d : Nat) : Prop :=
  ∀ k', Nap p k d k' → ∃ k'', k'.wakeProcesses = some k'' ∧ (k''.state p = .ready ↔ t ≤ d)

/-- What a sleeper relies on, `d` ticks after the call at `ticks`. -/
structure Sleeper (p ticks t d : Nat) (k : Kernel) : Prop where
  clock : k.ticks = (ticks + d) % 2 ^ 32
  blocked : k.state p = .blocked
  wake : (k.processes p).wake = (ticks + t) % 2 ^ 32
  listed : Listed k p

variable {p ticks t d : Nat} {k k' : Kernel}

/-- One call of `wake_processes` makes the sleeper ready if it finds it due. -/
theorem Sleeper.wakeProcesses (h : Sleeper p ticks t d k) :
    ∃ k', k.wakeProcesses = some k' ∧ k'.ticks = k.ticks ∧ Listed k' p ∧
      (k'.processes p).wake = (k.processes p).wake ∧
      (Due ticks t d ∧ k'.state p = .ready ∨ ¬Due ticks t d ∧ k'.state p = .blocked) := by
  obtain ⟨created, hLinked, hRange, hIn⟩ := h.listed
  have hNext : ∀ q, ((if q ∈ created then wokenBlock k.ticks (k.processes q)
      else k.processes q) : Process).next = (k.processes q).next := by
    intro q
    split
    · exact wokenBlock_field Process.next (fun _ => rfl) _
    · rfl
  have hDue : asInt (k.processes p).wake ≤ asInt k.ticks ↔ Due ticks t d := by
    rw [h.wake, h.clock, Due]
  refine ⟨_, wakeProcesses_linked hLinked (hLinked.length_lt hRange (by decide)), rfl, ?_, ?_, ?_⟩
  · exact ⟨created, hLinked.congr fun q _ => hNext q, hRange, hIn⟩
  · simp only [if_pos hIn]
    exact wokenBlock_field Process.wake (fun _ => rfl) _
  · simp only [Kernel.state, if_pos hIn, wokenBlock, ← hDue]
    by_cases hNow : asInt (k.processes p).wake ≤ asInt k.ticks
    · left
      rw [if_pos ⟨h.blocked, hNow⟩]
      exact ⟨hNow, rfl⟩
    · right
      rw [if_neg (fun hBoth => hNow hBoth.2)]
      exact ⟨hNow, h.blocked⟩

/-- Nothing that happens in a nap changes what the sleeper relies on. -/
theorem Sleeper.nap (h : Sleeper p ticks t 0 k) (hNap : Nap p k d k') :
    Sleeper p ticks t d k' := by
  induction hNap with
  | start => exact h
  | tick hNap ih =>
      refine { clock := ?_, blocked := ih.blocked, wake := ih.wake, listed := ih.listed }
      simp only [ih.clock]
      omega
  | wake hNap hWake hBlocked ih =>
      obtain ⟨k₁, hRun, hTicks, hListed, hSame, -⟩ := ih.wakeProcesses
      obtain rfl := Option.some.inj (hRun.symm.trans hWake)
      exact ⟨hTicks.trans ih.clock, hBlocked, hSame.trans ih.wake, hListed⟩
  | aside hNap hAside ih =>
      exact
        { clock := hAside.ticks.trans ih.clock
          blocked := hAside.state.trans ih.blocked
          wake := hAside.wake.trans ih.wake
          listed := hAside.listed }

/-- Time can pass without a call of `wake_processes`. -/
theorem nap_ticks (p : Nat) (k : Kernel) (d : Nat) : ∃ k', Nap p k d k' := by
  induction d with
  | zero => exact ⟨k, Nap.start⟩
  | succ d ih =>
      obtain ⟨k', hNap⟩ := ih
      exact ⟨_, hNap.tick⟩

theorem Sleeper.onTime_iff (h : Sleeper p ticks t 0 k) (ht : t < 2 ^ 31) (hd : d < t + 2 ^ 31) :
    OnTime p k t d ↔ SameLap ticks t d := by
  rw [← due_iff_passed ht hd]
  -- after `d` ticks a call makes the sleeper ready exactly when the code finds it due
  have hReady : ∀ k', Nap p k d k' → ∃ k'', k'.wakeProcesses = some k'' ∧
      (k''.state p = .ready ↔ Due ticks t d) := by
    intro k' hNap
    obtain ⟨k'', hWake, -, -, -, hOut⟩ := (h.nap hNap).wakeProcesses
    refine ⟨k'', hWake, ?_⟩
    rcases hOut with ⟨hDue, hState⟩ | ⟨hDue, hState⟩ <;> simp [hDue, hState]
  constructor
  · intro hOnTime
    obtain ⟨k', hNap⟩ := nap_ticks p k d
    obtain ⟨k₁, hWake, hIff⟩ := hOnTime k' hNap
    obtain ⟨k₂, hWake', hDue⟩ := hReady k' hNap
    obtain rfl := Option.some.inj (hWake.symm.trans hWake')
    exact hDue.symm.trans hIff
  · intro hPassed k' hNap
    obtain ⟨k'', hWake, hDue⟩ := hReady k' hNap
    exact ⟨k'', hWake, hDue.trans hPassed⟩

/-- `sys_sleep` returns, with the caller asleep. -/
theorem sysSleep_sleeper {created : List Nat}
    (hList : Linked k.next k.processList created) (hRange : ∀ q ∈ created, q < 2 ^ 32)
    (hCurrent : k.currentProcess ∈ created) (hTicks : k.ticks < 2 ^ 32) (regs t : Nat) :
    ∃ k', k.sysSleep regs t = some k' ∧ Sleeper k.currentProcess k.ticks t 0 k' := by
  have hShort : created.length < addresses := hList.length_lt hRange (by decide)
  unfold sysSleep
  simp only
  -- the caller with its wake time, blocked
  generalize hSet : (k.modify k.currentProcess fun q =>
    { q with wake := (k.ticks + t) % 2 ^ 32, state := .blocked }) = blocked
  have hLinked : Linked blocked.next blocked.processList created := by
    subst hSet
    refine hList.congr fun q _ => ?_
    simp only [Kernel.next, Kernel.modify]
    split
    · rfl
    · rfl
  have hSleeper : ∀ frames current esp0, Sleeper k.currentProcess k.ticks t 0
      { blocked with frames := frames, currentProcess := current, esp0 := esp0 } := by
    subst hSet
    intro frames current esp0
    exact
      { clock := (Nat.mod_eq_of_lt hTicks).symm
        blocked := by simp [Kernel.state]
        wake := by simp
        listed := ⟨created, hLinked, hRange, hCurrent⟩ }
  have hSame : blocked.currentProcess = k.currentProcess := by
    subst hSet
    rfl
  rw [ProcessSwitch.schedule_around hLinked hShort (hSame ▸ hCurrent), Option.map_some]
  refine ⟨_, rfl, ?_⟩
  split
  · obtain ⟨frames, esp0, hSwitch⟩ :=
      contextSwitch_eq blocked regs ((ProcessSwitch.heir created blocked).getD 0)
    rw [hSwitch]
    exact hSleeper _ _ _
  · exact hSleeper blocked.frames blocked.currentProcess blocked.esp0

/-- All calls up to `t + 2 ^ 31 - 1` ticks are in the lap of the wake time exactly when the
counter does not reach the smallest `int` or the largest in between. -/
theorem sameLap_all (hTicks : ticks < 2 ^ 32) (ht : t < 2 ^ 31) (hTime : 1 ≤ t) :
    (∀ d, d < t + 2 ^ 31 → SameLap ticks t d) ↔ asInt ticks + t ≤ 0 := by
  rw [← Nat.mod_eq_of_lt hTicks, asInt_mod, Nat.mod_eq_of_lt hTicks]
  unfold SameLap phase
  constructor
  · intro hAll
    have hFirst := hAll 0 (by omega)
    have hLast := hAll (t + (2 ^ 31 - 1)) (by omega)
    omega
  · intro hEarly d hd
    omega

/-- All calls up to the wake time are in its lap exactly when the wake time is no `int`
overflow. -/
theorem sameLap_until (hTicks : ticks < 2 ^ 32) (ht : t < 2 ^ 31) :
    (∀ d, d ≤ t → SameLap ticks t d) ↔ asInt ticks + t < 2 ^ 31 := by
  rw [← Nat.mod_eq_of_lt hTicks, asInt_mod, Nat.mod_eq_of_lt hTicks]
  unfold SameLap phase
  constructor
  · intro hAll
    have hFirst := hAll 0 (by omega)
    omega
  · intro hEarly d hd
    omega

/-- **When sleepers wake on time.**  After `sys_sleep(t)`, a call of `wake_processes` after
`d` ticks does what it should if and only if the counter, as an `int`, overflows neither
between that call and the wake time nor between the wake time and that call.  It is so for
all calls up to `t + 2 ^ 31 - 1` ticks exactly when `ticks` is negative and the wake time at
most zero, and for all calls up to `t` ticks exactly when the wake time does not overflow. -/
theorem woken_on_time {created : List Nat}
    (hList : Linked k.next k.processList created) (hRange : ∀ q ∈ created, q < 2 ^ 32)
    (hCurrent : k.currentProcess ∈ created) (hTicks : k.ticks < 2 ^ 32)
    (hTime : 1 ≤ t) (ht : t < 2 ^ 31) (regs : Nat) :
    ∃ k', k.sysSleep regs t = some k' ∧
      (∀ d, d < t + 2 ^ 31 → (OnTime k.currentProcess k' t d ↔ SameLap k.ticks t d)) ∧
      ((∀ d, d < t + 2 ^ 31 → OnTime k.currentProcess k' t d) ↔ asInt k.ticks + t ≤ 0) ∧
      ((∀ d, d ≤ t → OnTime k.currentProcess k' t d) ↔ asInt k.ticks + t < 2 ^ 31) := by
  obtain ⟨k', hSleep, hSleeper⟩ := sysSleep_sleeper hList hRange hCurrent hTicks regs t
  have hCall : ∀ d, d < t + 2 ^ 31 → (OnTime k.currentProcess k' t d ↔ SameLap k.ticks t d) :=
    fun d hd => hSleeper.onTime_iff ht hd
  refine ⟨k', hSleep, hCall, ?_, ?_⟩
  · rw [← sameLap_all hTicks ht hTime]
    exact forall₂_congr hCall
  · rw [← sameLap_until hTicks ht]
    exact forall₂_congr fun d hd => hCall d (by omega)

/-- Four processes, the third of which runs, at a given tick. -/
def atTick (ticks : Nat) : Kernel := { fourProcesses with ticks := ticks }

/-- A sleep of three ticks from tick 20 ends on time. -/
theorem woken_on_time_four :
    ∃ k', (atTick 20).sysSleep 0 3 = some k' ∧ ∀ d, d ≤ 3 → OnTime 0x3000 k' 3 d := by
  obtain ⟨k', hSleep, -, -, hUntil⟩ := @woken_on_time 3 (atTick 20)
    [0x1000, 0x2000, 0x3000, 0x4000] (by decide) (by decide) (by decide) (by decide)
    (by decide) (by decide) 0
  exact ⟨k', hSleep, hUntil.mpr (by decide)⟩

/-- One tick before the overflow, a sleep of one tick is over at once; and a sleep of ten
ticks is not over when `wake_processes` is first called after `2 ^ 31` ticks. -/
theorem woken_out_of_time :
    (∃ k', (atTick 0x7FFFFFFF).sysSleep 0 1 = some k' ∧ ¬OnTime 0x3000 k' 1 0) ∧
      ∃ k', (atTick 0).sysSleep 0 10 = some k' ∧ ¬OnTime 0x3000 k' 10 (2 ^ 31) := by
  have hList : ∀ ticks, Linked (atTick ticks).next (atTick ticks).processList
      [0x1000, 0x2000, 0x3000, 0x4000] := fun _ => by
    change Linked fourProcesses.next fourProcesses.processList _
    decide
  have hRange : ∀ q ∈ [0x1000, 0x2000, 0x3000, 0x4000], q < 2 ^ 32 := by decide
  have hCurrent : ∀ ticks, (atTick ticks).currentProcess ∈ [0x1000, 0x2000, 0x3000, 0x4000] :=
    fun _ => by
      change 0x3000 ∈ _
      decide
  obtain ⟨k₁, hSleep₁, hEarly⟩ := sysSleep_sleeper (hList _) hRange (hCurrent 0x7FFFFFFF)
    (by decide) 0 1
  obtain ⟨k₂, hSleep₂, hLate⟩ := sysSleep_sleeper (hList _) hRange (hCurrent 0) (by decide) 0 10
  refine ⟨⟨k₁, hSleep₁, fun hOnTime => ?_⟩, k₂, hSleep₂, fun hOnTime => ?_⟩
  · have hLap : SameLap 0x7FFFFFFF 1 0 :=
      (hEarly.onTime_iff (by decide) (by decide)).mp hOnTime
    exact absurd hLap (by decide)
  · have hLap : SameLap 0 10 (2 ^ 31) :=
      (hLate.onTime_iff (by decide) (by decide)).mp hOnTime
    exact absurd hLap (by decide)

end MiniKernel.Ports.ProcessWakeups
