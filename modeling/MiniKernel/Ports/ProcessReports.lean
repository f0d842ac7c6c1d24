import MiniKernel.Ports.ProcessRuns
import Mathlib.Data.List.Perm.Subperm

/-!
# What `sys_wait` reports

`sys_wait` scans the list for a zombie whose parent has the caller's pid and
returns its pid and exit code.  It leaves the zombie where it is, so the next
call meets the same one unless a child nearer to the head of the list has
exited in the meantime.  A report is news exactly when the first zombie of
the scan is a child of the caller that called `sys_exit` after the caller's
previous report; in the sparing runs where every wait finds it so, the reports
are what a caller expects of them.
-/

namespace MiniKernel.Ports.ProcessReports

open MiniKernel.Verified.Trace
open MiniKernel.Ports.ProcessTable
open MiniKernel.Ports.ProcessSteps
open MiniKernel.Ports.ProcessRuns

/-- The process called `sys_exit`. -/
def SaidStatus (s : State) (p : Nat) : Prop :=
  ∃ x ∈ s.exited, x.process = p ∧ x.status ≠ none

instance (s : State) (p : Nat) : Decidable (SaidStatus s p) := by
  unfold SaidStatus
  infer_instance

/-- If the caller waits, the first listed zombie whose parent has its pid is a
child of its own that called `sys_exit` after the caller's last report. -/
def FrontIsNews (s : State) : Event → Prop
  | .wait .. => ∀ p ∈ s.created.find? s.kernel.zombieOfCaller,
      (s.kernel.processes p).parent = s.kernel.currentProcess ∧
        p ∈ s.recent s.kernel.currentProcess ∧ SaidStatus s p
  | _ => True

instance (s : State) : (e : Event) → Decidable (FrontIsNews s e)
  | .wait .. => inferInstanceAs (Decidable (∀ p ∈ s.created.find? _, _ ∧ _ ∧ _))
  | .create .. | .fork .. | .yield _ | .sleep .. | .exit _ | .finish | .tick _ =>
      .isTrue trivial

/-- The conditions on a run. -/
def Orderly (s : State) (e : Event) : Prop :=
  (ParentAlive s e ∧ Sparing s e) ∧ FrontIsNews s e

instance (s : State) (e : Event) : Decidable (Orderly s e) :=
  inferInstanceAs (Decidable (_ ∧ _))

/-- Every report so far was true and new. -/
structure Told (s : State) : Prop extends Buried s where
  once : (s.exited.map Exit.process).Nodup
  code : ∀ x ∈ s.exited, ∀ v, x.status = some v →
    (s.kernel.processes x.process).exitCode = v
  recent : ∀ q, ∀ p ∈ s.recent q, p ∈ s.exited.map Exit.process
  true : ∀ r ∈ s.reports, (s.kernel.processes r.child).parent = r.caller ∧
    r.pid = (s.kernel.processes r.child).pid ∧ ⟨r.child, some r.status⟩ ∈ s.exited
  old : ∀ r ∈ s.reports, r.child ∉ s.recent r.caller
  new : (s.reports.map Report.child).Nodup

theorem boot_told (processes : Nat → Process) (frames : Nat → Registers)
    (ticks esp0 processEntry : Nat) : Told (boot processes frames ticks esp0 processEntry) where
  toBuried := boot_buried processes frames ticks esp0 processEntry
  once := List.nodup_nil
  code := by simp [boot]
  recent := by simp [boot]
  true := by simp [boot]
  old := by simp [boot]
  new := List.nodup_nil

/-- A step that keeps the history keeps the reports true, if it keeps the
identity and the exit codes of everyone who exited. -/
theorem Told.keep {s : State} (h : Told s) {k : Kernel} {created userPages : List Nat}
    (hBuried : Buried { s with kernel := k, created := created, userPages := userPages })
    (hSame : ∀ x ∈ s.exited,
      (k.processes x.process).parent = (s.kernel.processes x.process).parent ∧
      (k.processes x.process).pid = (s.kernel.processes x.process).pid ∧
      (k.processes x.process).exitCode = (s.kernel.processes x.process).exitCode) :
    Told { s with kernel := k, created := created, userPages := userPages } where
  toBuried := hBuried
  once := h.once
  code x hx v hv := by
    rw [(hSame x hx).2.2]
    exact h.code x hx v hv
  recent := h.recent
  true r hr := by
    obtain ⟨hParent, hPid, hExit⟩ := h.true r hr
    obtain ⟨hSameParent, hSamePid, -⟩ := hSame _ hExit
    exact ⟨hSameParent.trans hParent, hPid.trans hSamePid.symm, hExit⟩
  old := h.old
  new := h.new

/-- A report that is news keeps the reports true and new. -/
theorem Told.report {s : State} (h : Told s) {child status : Nat}
    (hChild : (s.kernel.processes child).parent = s.kernel.currentProcess)
    (hRecent : child ∈ s.recent s.kernel.currentProcess) (hSaid : SaidStatus s child)
    (hBeside : Beside s.created s.kernel (s.report child status).kernel)
    (hBuried : Buried (s.report child status)) : Told (s.report child status) := by
  obtain ⟨x, hx, rfl, hStatus⟩ := hSaid
  obtain ⟨v, hv⟩ := Option.ne_none_iff_exists'.mp hStatus
  have hCode := h.code x hx v hv
  have hSame : ∀ y ∈ s.exited, (s.report x.process status).kernel.processes y.process =
      s.kernel.processes y.process := fun y hy => hBeside.block _ (h.listed y hy)
  refine
    { toBuried := hBuried
      once := h.once
      code := fun y hy v hv => (congrArg Process.exitCode (hSame y hy)).trans (h.code y hy v hv)
      recent := ?_
      true := ?_
      old := ?_
      new := ?_ }
  · intro q p hp
    simp only [State.report] at hp
    split at hp
    · simp at hp
    · exact h.recent q p hp
  · intro r hr
    rcases List.mem_cons.mp hr with rfl | hr
    · refine ⟨(congrArg Process.parent (hSame x hx)).trans hChild, rfl, ?_⟩
      rw [hCode, ← hv]
      exact hx
    · obtain ⟨hParent, hPid, hExit⟩ := h.true r hr
      exact ⟨(congrArg Process.parent (hSame _ hExit)).trans hParent,
        hPid.trans (congrArg Process.pid (hSame _ hExit)).symm, hExit⟩
  · intro r hr
    simp only [State.report]
    split
    · simp
    · next hOther =>
        rcases List.mem_cons.mp hr with rfl | hr
        · exact absurd rfl hOther
        · exact h.old r hr
  · refine List.nodup_cons.mpr ⟨?_, h.new⟩
    intro hOld
    obtain ⟨r, hr, hEq⟩ := List.mem_map.mp hOld
    have hCaller : r.caller = s.kernel.currentProcess := by
      rw [← (h.true r hr).1, hEq]
      exact hChild
    apply h.old r hr
    rw [hEq, hCaller]
    exact hRecent

/-- An exit keeps the reports true and new. -/
theorem Told.depart {s : State} (h : Told s) (hOn : s.kernel.halted = false) {k : Kernel}
    {status : Option Nat} (hDep : Departure s.created s.kernel k)
    (hCode : ∀ v, status = some v → (k.processes s.kernel.currentProcess).exitCode = v)
    (hBuried : Buried (s.depart k status)) : Told (s.depart k status) := by
  have hFirst : s.kernel.currentProcess ∉ s.exited.map Exit.process := by
    intro hIn
    obtain ⟨x, hx, hEq⟩ := List.mem_map.mp hIn
    exact h.not_current hOn hx hEq
  refine
    { toBuried := hBuried
      once := List.nodup_cons.mpr ⟨hFirst, h.once⟩
      code := ?_
      recent := ?_
      true := ?_
      old := ?_
      new := h.new }
  · intro x hx v hv
    rcases List.mem_cons.mp hx with rfl | hx
    · exact hCode v hv
    · change (k.processes x.process).exitCode = v
      rw [hDep.exitCode x.process (h.not_current hOn hx)]
      exact h.code x hx v hv
  · intro q p hp
    rcases List.mem_cons.mp hp with rfl | hp
    · exact List.mem_cons_self ..
    · exact List.mem_cons_of_mem _ (h.recent q p hp)
  · intro r hr
    obtain ⟨hParent, hPid, hExit⟩ := h.true r hr
    exact ⟨(hDep.parent r.child).trans hParent, hPid.trans (hDep.pid r.child).symm,
      List.mem_cons_of_mem _ hExit⟩
  · intro r hr hIn
    rcases List.mem_cons.mp hIn with hEq | hIn
    · obtain ⟨-, -, hExit⟩ := h.true r hr
      exact h.not_current hOn hExit hEq
    · exact h.old r hr hIn

/-- **One orderly step keeps every report true and new.** -/
theorem step_told (s : State) (e : Event) (s' : State) (h : Told s) (hOrderly : Orderly s e)
    (hStep : step s e = some s') : Told s' := by
  have hBuried := step_buried s e s' h.toBuried hOrderly.1 hStep
  obtain ⟨hOn, hEffect⟩ := step_effect h.table hStep
  cases hEffect with
  | creation pro pages k hNew hNonzero hC =>
      refine h.keep hBuried fun x hx => ?_
      have hOther : x.process ≠ pro := fun hEq => hNew.2 (hEq ▸ h.listed x hx)
      rw [hC.other x.process hOther]
      exact ⟨rfl, rfl, rfl⟩
  | turn k hTurn =>
      exact h.keep hBuried fun x _ =>
        ⟨hTurn.parent _, hTurn.pid _, hTurn.exitCode _⟩
  | report child status regs he hRunning hFind =>
      subst he
      obtain ⟨hChild, hRecent, hSaid⟩ := hOrderly.2 child hFind
      exact h.report hChild hRecent hSaid (hOrderly.1.2.storesBeside.beside hFind) hBuried
  | departure k status he hRunning hDep hCode =>
      exact h.depart hOn hDep hCode hBuried

/-- The processes whose parent is `q` and that have exited. -/
def exitedChildren (s : State) (q : Nat) : List Nat :=
  (s.exited.map Exit.process).filter fun p => (s.kernel.processes p).parent = q

/-- The children that were reported to `q`. -/
def reportedTo (s : State) (q : Nat) : List Nat :=
  (s.reports.filter fun r => r.caller = q).map Report.child

/-- As many reports as exited children are reports of all of them. -/
theorem Told.all_reported {s : State} (h : Told s) (q : Nat)
    (hEnough : (exitedChildren s q).length ≤ (reportedTo s q).length) :
    ∀ p ∈ exitedChildren s q, p ∈ reportedTo s q := by
  have hNodup : (reportedTo s q).Nodup :=
    h.new.sublist (List.filter_sublist.map Report.child)
  have hSubset : reportedTo s q ⊆ exitedChildren s q := by
    intro p hp
    obtain ⟨r, hr, rfl⟩ := List.mem_map.mp hp
    obtain ⟨hIn, hCaller⟩ := List.mem_filter.mp hr
    obtain ⟨hParent, -, hExit⟩ := h.true r hIn
    refine List.mem_filter.mpr ⟨List.mem_map.mpr ⟨_, hExit, rfl⟩, ?_⟩
    rw [hParent]
    exact hCaller
  have hPerm := (List.subperm_of_subset hNodup hSubset).perm_of_length_le hEnough
  exact fun p hp => hPerm.mem_iff.mpr hp

/-- A wait with an exited child returns at once. -/
theorem Told.wait_returns {s : State} (h : Told s) (hRunning : Running s.kernel)
    {p : Nat} (hp : p ∈ exitedChildren s s.kernel.currentProcess) (status regs : Nat) :
    ∃ child, child ≠ 0 ∧ s.kernel.sysWait status regs =
      some (child, s.kernel.store status 4 (s.kernel.processes child).exitCode) := by
  obtain ⟨hIn, hParent⟩ := List.mem_filter.mp hp
  obtain ⟨x, hx, rfl⟩ := List.mem_map.mp hIn
  rcases sysWait_cases h.table hRunning.2 status regs with
    ⟨child, -, hNonzero, hWait⟩ | ⟨hNone, -⟩
  · exact ⟨child, hNonzero, hWait⟩
  · rw [List.find?_eq_none] at hNone
    refine absurd ?_ (hNone x.process (h.listed x hx))
    unfold Kernel.zombieOfCaller
    rw [of_decide_eq_true hParent, h.zombie x hx]
    simp

/-- **Each child is reported once** in every orderly run: no child is reported
twice; every report names a child of the caller that called `sys_exit`, its
pid and its status; a wait with an exited child stores a status and returns at once;
and as many reports as exited children are reports of all of them. -/
theorem each_child_reported_once {processes : Nat → Process} {frames : Nat → Registers}
    {ticks esp0 processEntry : Nat} {events : List Event} {s : State}
    (hRun : exec step (boot processes frames ticks esp0 processEntry) events = some s)
    (hOrderly : Meets step Orderly (boot processes frames ticks esp0 processEntry) events) :
    (s.reports.map Report.child).Nodup ∧
      (∀ r ∈ s.reports, (s.kernel.processes r.child).parent = r.caller ∧
        r.pid = (s.kernel.processes r.child).pid ∧ ⟨r.child, some r.status⟩ ∈ s.exited) ∧
      (Running s.kernel → exitedChildren s s.kernel.currentProcess ≠ [] →
        ∀ status regs, ∃ child, child ≠ 0 ∧ s.kernel.sysWait status regs =
          some (child, s.kernel.store status 4 (s.kernel.processes child).exitCode)) ∧
      ∀ q, (exitedChildren s q).length ≤ (reportedTo s q).length →
        ∀ p ∈ exitedChildren s q, p ∈ reportedTo s q := by
  have h := hOrderly.invariant step_told
    (boot_told processes frames ticks esp0 processEntry) hRun
  refine ⟨h.new, h.true, fun hRunning hSome status regs => ?_, h.all_reported⟩
  obtain ⟨p, hp⟩ := List.exists_mem_of_ne_nil _ hSome
  exact h.wait_returns hRunning hp status regs

/-- Two children, the later one exits first, and a wait after each exit. -/
theorem each_child_reported_once_twoChildren :
    ∃ s, exec step blank
        [.create 0x10B00 1 0x26009 0x27000 0x2B000, .fork 0x2AFBC 0x26042 0x2C000 0x30000,
          .fork 0x2AFBC 0x2607B 0x31000 0x35000, .wait 0x2BFF0 0x2AFBC, .yield 0x2FFBC, .exit 42,
          .wait 0x2BFF0 0x2AFBC, .yield 0x2AFBC, .exit 43, .wait 0x2BFF0 0x2AFBC] = some s ∧
      reportedTo s 0x26009 = [0x26042, 0x2607B] ∧
      (s.reports.map Report.child).Nodup ∧
      ∀ r ∈ s.reports, (s.kernel.processes r.child).parent = r.caller ∧
        r.pid = (s.kernel.processes r.child).pid ∧ ⟨r.child, some r.status⟩ ∈ s.exited := by
  have hView : (exec step blank
      [.create 0x10B00 1 0x26009 0x27000 0x2B000, .fork 0x2AFBC 0x26042 0x2C000 0x30000,
        .fork 0x2AFBC 0x2607B 0x31000 0x35000, .wait 0x2BFF0 0x2AFBC, .yield 0x2FFBC, .exit 42,
        .wait 0x2BFF0 0x2AFBC, .yield 0x2AFBC, .exit 43, .wait 0x2BFF0 0x2AFBC]).map
        (fun s => reportedTo s 0x26009) = some [0x26042, 0x2607B] := by decide +kernel
  obtain ⟨s, hRun, hs⟩ := Option.map_eq_some_iff.mp hView
  obtain ⟨hNew, hTrue, -⟩ := each_child_reported_once hRun (by decide +kernel)
  exact ⟨s, hRun, hs, hNew, hTrue⟩

/-- The child exits once and is reported twice. -/
theorem child_reported_twice :
    ∃ s, exec step blank
        [.create 0x10B00 1 0x26009 0x27000 0x2B000, .fork 0x2AFBC 0x26042 0x2C000 0x30000,
          .wait 0x2BFF0 0x2AFBC, .exit 42, .wait 0x2BFF0 0x2AFBC, .wait 0x2BFF0 0x2AFBC] = some s ∧
      s.exited = [⟨0x26042, some 42⟩] ∧
      s.reports = [⟨0x26009, 0x26042, 2, 42⟩, ⟨0x26009, 0x26042, 2, 42⟩] := by
  have hView : (exec step blank
      [.create 0x10B00 1 0x26009 0x27000 0x2B000, .fork 0x2AFBC 0x26042 0x2C000 0x30000,
        .wait 0x2BFF0 0x2AFBC, .exit 42, .wait 0x2BFF0 0x2AFBC, .wait 0x2BFF0 0x2AFBC]).map
        (fun s => (s.exited, s.reports)) =
      some ([⟨0x26042, some 42⟩],
        [⟨0x26009, 0x26042, 2, 42⟩, ⟨0x26009, 0x26042, 2, 42⟩]) := by decide +kernel
  obtain ⟨s, hRun, hs⟩ := Option.map_eq_some_iff.mp hView
  rw [Prod.mk.injEq] at hs
  exact ⟨s, hRun, hs⟩

end MiniKernel.Ports.ProcessReports
