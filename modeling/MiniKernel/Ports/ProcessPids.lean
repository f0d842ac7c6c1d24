import MiniKernel.Ports.ProcessRemoval

/-!
# Pids

`create_process` numbers processes with the 16-bit counter `process_number`,
which is not compared with the pids in use.  `sys_fork` returns a pid where `0`
means the child, and `sys_wait` compares pids to find the caller's children.

A run creates, forks and removes processes in any order, on any memory that
`kmalloc` hands out, and passes control to any listed process.  Removal leaves
the parents of other processes and `current_process` as they are, and the memory
it frees may change at any time; so that it can be said whose child a process is,
every process gets a birth number that no other process has had.
-/

namespace MiniKernel.Ports.ProcessPids

open MiniKernel.Verified.Links
open MiniKernel.Verified.Trace
open MiniKernel.Ports.Kmalloc (addresses)
open MiniKernel.Ports.ProcessTable
open MiniKernel.Ports.ProcessTable.Kernel
open MiniKernel.Ports.ProcessSteps
open MiniKernel.Ports.ProcessRuns (CopyFits)
open MiniKernel.Ports.SystemCalls (unlinked)
open MiniKernel.Ports.ProcessRemoval (unlinked_other unlinked_current unlinked_linked)

structure State where
  kernel : Kernel
  listed : List Nat
  /-- How many processes have been created. -/
  births : Nat
  /-- The birth number of the process at an address. -/
  birth : Nat → Nat
  /-- The birth number of the process that created it. -/
  creator : Nat → Nat
  /-- The birth number of the process that runs. -/
  caller : Nat

inductive Event
  | create (entry mode pro kernelStack userPage : Nat)
  | fork (regs pro kernelStack userPage : Nat)
  | remove (pro : Nat)
  /-- `context_switch` to a listed process. -/
  | resume (regs next : Nat)
  /-- Memory changes that is not the control block of a listed process. -/
  | overwrite (p : Nat) (memory : Process)
  deriving Repr, DecidableEq

/-- `remove_process_list`: the memory it frees keeps its contents. -/
def removeProcessList (k : Kernel) (pro : Nat) : Option Kernel :=
  (trail k.next pro addresses 0 k.processList).map fun r =>
    if r.2 = 0 then k else unlinked k r.1 r.2

/-- A process was created at `pro`; the first one on a list runs. -/
def State.born (s : State) (pro : Nat) (k : Kernel) : State where
  kernel := k
  listed := s.listed ++ [pro]
  births := s.births + 1
  birth p := if p = pro then s.births + 1 else s.birth p
  creator p := if p = pro then s.caller else s.creator p
  caller := if s.listed = [] then s.births + 1 else s.caller

/-- Other contents at `p`. -/
def State.scrapped (s : State) (p : Nat) (memory : Process) : State :=
  { s with kernel := s.kernel.modify p fun _ => memory }

/-- `kmalloc` does not hand out a control block that is in use. -/
def Unused (s : State) (pro : Nat) : Prop := pro < 2 ^ 32 ∧ pro ∉ s.listed

instance (s : State) (pro : Nat) : Decidable (Unused s pro) := by
  unfold Unused
  infer_instance

def step (s : State) : Event → Option State
  | .create entry mode pro kernelStack userPage =>
      if Unused s pro then
        (s.kernel.createProcess entry mode pro kernelStack userPage).map fun r =>
          if r.1 = 0 then { s with kernel := r.2 } else s.born r.1 r.2
      else none
  | .fork regs pro kernelStack userPage =>
      if Unused s pro ∧ s.kernel.currentProcess ≠ 0 then
        (s.kernel.sysFork regs pro kernelStack userPage).map fun r =>
          if r.1 = minusOne then { s with kernel := r.2 } else s.born pro r.2
      else none
  | .remove pro =>
      (removeProcessList s.kernel pro).map fun k =>
        { s with kernel := k, listed := s.listed.filter (· ≠ pro) }
  | .resume regs next =>
      if next ∈ s.listed then
        some { s with
          kernel := s.kernel.contextSwitch regs next
          caller := s.birth next }
      else none
  | .overwrite p memory =>
      if p ∈ s.listed then none
      else some (s.scrapped p memory)

/-- The copy of the user stack, which `sysFork` leaves out, fits on the new stack page. -/
def Contained (s : State) : Event → Prop
  | .fork regs pro kernelStack userPage =>
      Supplied processUser pro kernelStack userPage → CopyFits s.kernel regs userPage
  | _ => True

instance (s : State) : (e : Event) → Decidable (Contained s e)
  | .fork .. => inferInstanceAs (Decidable (_ → _))
  | .create .. | .remove _ | .resume .. | .overwrite .. => .isTrue trivial

/-! ## What is asked of the pids -/

def pid (k : Kernel) (p : Nat) : Nat := (k.processes p).pid

/-- `p->parent->pid`, which `sys_wait` compares with the caller's pid. -/
def parentPid (k : Kernel) (p : Nat) : Nat := pid k (k.processes p).parent

/-- Pids are different and not `0`, and whichever process calls `sys_wait`, the
comparison finds the processes it has created. -/
structure Named (s : State) : Prop where
  nodup : (s.listed.map (pid s.kernel)).Nodup
  nonzero : ∀ p ∈ s.listed, pid s.kernel p ≠ 0
  children : ∀ c ∈ s.listed, ∀ p ∈ s.listed,
    parentPid s.kernel p = pid s.kernel c ↔ s.creator p = s.birth c

/-- What `sys_fork` returns to the parent. -/
def forkResult (s : State) : Event → Option Nat
  | .fork regs pro kernelStack userPage =>
      (s.kernel.sysFork regs pro kernelStack userPage).map Prod.fst
  | _ => none

/-- What holds after a step from `s` to `s'`. -/
structure Kept (s : State) (e : Event) (s' : State) : Prop where
  named : Named s'
  fork : forkResult s e ≠ some 0

/-- The counter is neither `0` nor a pid that a listed process, a parent of one
or the caller has, and no pointer to a parent or to the caller points to the
memory of the new control block. -/
structure Fresh (s : State) (pro : Nat) : Prop where
  nonzero : s.kernel.processNumber ≠ 0
  listed : ∀ p ∈ s.listed, pid s.kernel p ≠ s.kernel.processNumber
  parent : ∀ p ∈ s.listed, (s.kernel.processes p).parent ≠ pro ∧
    parentPid s.kernel p ≠ s.kernel.processNumber
  caller : s.kernel.currentProcess ∉ s.listed → s.kernel.currentProcess ≠ pro ∧
    pid s.kernel s.kernel.currentProcess ≠ s.kernel.processNumber ∧
      ∀ c ∈ s.listed, pid s.kernel s.kernel.currentProcess ≠ pid s.kernel c

instance (s : State) (pro : Nat) : Decidable (Fresh s pro) :=
  decidable_of_iff (s.kernel.processNumber ≠ 0 ∧
      (∀ p ∈ s.listed, pid s.kernel p ≠ s.kernel.processNumber) ∧
      (∀ p ∈ s.listed, (s.kernel.processes p).parent ≠ pro ∧
        parentPid s.kernel p ≠ s.kernel.processNumber) ∧
      (s.kernel.currentProcess ∉ s.listed → s.kernel.currentProcess ≠ pro ∧
        pid s.kernel s.kernel.currentProcess ≠ s.kernel.processNumber ∧
          ∀ c ∈ s.listed, pid s.kernel s.kernel.currentProcess ≠ pid s.kernel c))
    ⟨fun ⟨h0, hListed, hParent, hCaller⟩ => ⟨h0, hListed, hParent, hCaller⟩,
      fun ⟨h0, hListed, hParent, hCaller⟩ => ⟨h0, hListed, hParent, hCaller⟩⟩

/-- Where a parent pointer points to `p`, the pid there is not that of a listed process. -/
def Foreign (s : State) (p : Nat) (memory : Process) : Prop :=
  ∀ q ∈ s.listed, (s.kernel.processes q).parent = p → ∀ c ∈ s.listed, memory.pid ≠ pid s.kernel c

instance (s : State) (p : Nat) (memory : Process) : Decidable (Foreign s p memory) := by
  unfold Foreign
  infer_instance

/-- A process that is created gets a fresh pid, and what takes the place of a removed
parent's is the pid of nobody. -/
def EventOk (s : State) : Event → Prop
  | .create _ mode pro kernelStack userPage =>
      Supplied mode pro kernelStack userPage → Fresh s pro
  | .fork _ pro kernelStack userPage =>
      Supplied processUser pro kernelStack userPage → Fresh s pro
  | .overwrite p memory => Foreign s p memory
  | _ => True

instance (s : State) : (e : Event) → Decidable (EventOk s e)
  | .create .. | .fork .. => inferInstanceAs (Decidable (_ → _))
  | .overwrite p memory => inferInstanceAs (Decidable (Foreign s p memory))
  | .remove _ | .resume .. => .isTrue trivial

/-! ## The invariant -/

/-- The list in the order of birth, and what birth numbers say about parents. -/
structure Family (s : State) : Prop where
  linked : Linked s.kernel.next s.kernel.processList s.listed
  range : ∀ p ∈ s.listed, p < 2 ^ 32
  number : s.kernel.processNumber < 2 ^ 16
  order : s.listed.Pairwise fun p q => s.birth p < s.birth q
  births : ∀ p ∈ s.listed, s.birth p ≤ s.births
  creator : ∀ p ∈ s.listed, s.creator p < s.birth p
  parent : ∀ p ∈ s.listed, ∀ c ∈ s.listed, s.birth c = s.creator p →
    (s.kernel.processes p).parent = c
  caller_le : s.caller ≤ s.births
  caller : ∀ c ∈ s.listed, s.birth c = s.caller → s.kernel.currentProcess = c

/-- Besides, the process that runs is the caller, and pids name the processes. -/
structure Inv (s : State) : Prop extends Family s where
  runs : s.kernel.currentProcess ∈ s.listed → s.birth s.kernel.currentProcess = s.caller
  named : Named s

theorem Family.short {s : State} (h : Family s) : s.listed.length < addresses :=
  h.linked.length_lt h.range (by decide)

/-- Two processes on the list have different births. -/
theorem Family.birth_inj {s : State} (h : Family s) {p q : Nat} (hp : p ∈ s.listed)
    (hq : q ∈ s.listed) (hEq : s.birth p = s.birth q) : p = q := by
  have hNodup : (s.listed.map s.birth).Nodup :=
    List.pairwise_map.mpr (h.order.imp fun hLt => Nat.ne_of_lt hLt)
  exact List.inj_on_of_nodup_map hNodup hp hq hEq

theorem Family.creator_lt {s : State} (h : Family s) {p : Nat} (hp : p ∈ s.listed) :
    s.creator p < s.births :=
  Nat.lt_of_lt_of_le (h.creator p hp) (h.births p hp)

theorem Inv.caller_iff {s : State} (h : Inv s) {c : Nat} (hc : c ∈ s.listed) :
    s.birth c = s.caller ↔ c = s.kernel.currentProcess :=
  ⟨fun hEq => (h.caller c hc hEq).symm, fun hEq => by
    subst hEq
    exact h.runs hc⟩

theorem Inv.pid_inj {s : State} (h : Inv s) {p q : Nat} (hp : p ∈ s.listed) (hq : q ∈ s.listed) :
    pid s.kernel p = pid s.kernel q ↔ p = q :=
  ⟨fun hEq => List.inj_on_of_nodup_map h.named.nodup hp hq hEq, fun hEq => hEq ▸ rfl⟩

/-! ## Creation -/

section Creation

variable {s : State} {pro : Nat} {k : Kernel}

theorem State.born_birth_self : (s.born pro k).birth pro = s.births + 1 := if_pos rfl

theorem State.born_birth_ne {p : Nat} (hp : p ≠ pro) : (s.born pro k).birth p = s.birth p :=
  if_neg hp

theorem State.born_creator_self : (s.born pro k).creator pro = s.caller := if_pos rfl

theorem State.born_creator_ne {p : Nat} (hp : p ≠ pro) :
    (s.born pro k).creator p = s.creator p := if_neg hp

/-- Those that were on the list, and the new one. -/
theorem State.forall_born {P : Nat → Prop} (hOld : ∀ p ∈ s.listed, P p) (hPro : P pro) :
    ∀ p ∈ (s.born pro k).listed, P p := by
  intro p hp
  rcases List.mem_append.mp hp with hp | hp
  · exact hOld p hp
  · exact List.mem_singleton.mp hp ▸ hPro

/-- The new process runs exactly if it is the first one. -/
theorem State.born_caller (hAdded : Added s.listed pro s.kernel k) :
    (s.listed ≠ [] ∧ k.currentProcess = s.kernel.currentProcess ∧
        (s.born pro k).caller = s.caller) ∨
      (s.listed = [] ∧ k.currentProcess = pro ∧ (s.born pro k).caller = s.births + 1) := by
  rcases hAdded.current with ⟨hSome, hSame⟩ | ⟨hNil, hPro⟩
  · exact Or.inl ⟨hSome, hSame, if_neg hSome⟩
  · exact Or.inr ⟨hNil, hPro, if_pos hNil⟩

theorem State.born_caller_le (h : s.caller ≤ s.births) :
    (s.born pro k).caller ≤ s.births + 1 := by
  simp only [State.born]
  split
  · exact Nat.le_refl _
  · exact Nat.le_succ_of_le h

theorem Added.number_lt (h : Added s.listed pro s.kernel k) : k.processNumber < 2 ^ 16 := by
  rw [h.number]
  exact Nat.mod_lt _ (by decide)

theorem Added.pid_other (h : Added s.listed pro s.kernel k) {p : Nat} (hp : p ≠ pro) :
    pid k p = pid s.kernel p := by
  rw [pid, h.other p hp, pid]

/-- A parent that is not the new control block keeps its pid. -/
theorem Added.parentPid_other (h : Added s.listed pro s.kernel k) {p : Nat} (hp : p ≠ pro)
    (hParent : (s.kernel.processes p).parent ≠ pro) : parentPid k p = parentPid s.kernel p := by
  have hSame : (k.processes p).parent = (s.kernel.processes p).parent := by rw [h.other p hp]
  rw [parentPid, hSame, Added.pid_other h hParent, parentPid]

theorem Added.parentPid_new (h : Added s.listed pro s.kernel k)
    (hCurrent : s.kernel.currentProcess ≠ pro) :
    parentPid k pro = pid s.kernel s.kernel.currentProcess := by
  rw [parentPid, h.parent, Added.pid_other h hCurrent]

/-- With a fresh pid everything stays named. -/
theorem Named.born (h : Inv s) (hNew : pro ∉ s.listed) (hAdded : Added s.listed pro s.kernel k)
    (hFresh : Fresh s pro) : Named (s.born pro k) := by
  have hNe : ∀ p ∈ s.listed, p ≠ pro := fun p hp hEq => hNew (hEq ▸ hp)
  have hNumber : pid k pro = s.kernel.processNumber := hAdded.pid
  have hCurrent : s.kernel.currentProcess ≠ pro := by
    by_cases hIn : s.kernel.currentProcess ∈ s.listed
    · exact hNe _ hIn
    · exact (hFresh.caller hIn).1
  have hCaller : parentPid k pro = pid s.kernel s.kernel.currentProcess :=
    Added.parentPid_new hAdded hCurrent
  have hNotOwn : pid s.kernel s.kernel.currentProcess ≠ s.kernel.processNumber := by
    by_cases hIn : s.kernel.currentProcess ∈ s.listed
    · exact hFresh.listed _ hIn
    · exact (hFresh.caller hIn).2.1
  have hOld (p : Nat) (hp : p ∈ s.listed) : parentPid k p = parentPid s.kernel p :=
    Added.parentPid_other hAdded (hNe p hp) (hFresh.parent p hp).1
  constructor
  · have hMap : s.listed.map (pid k) = s.listed.map (pid s.kernel) :=
      List.map_congr_left fun p hp => Added.pid_other hAdded (hNe p hp)
    simp only [State.born, List.map_append, hMap, List.map_singleton, hNumber]
    refine List.nodup_append.mpr ⟨h.named.nodup, List.nodup_singleton _, ?_⟩
    rintro n hn n' hn' rfl
    obtain ⟨p, hp, rfl⟩ := List.mem_map.mp hn
    exact hFresh.listed p hp (List.mem_singleton.mp hn')
  · intro p hp
    rcases List.mem_append.mp hp with hp | hp
    · exact (Added.pid_other hAdded (hNe p hp)).symm ▸ h.named.nonzero p hp
    · rw [List.mem_singleton.mp hp]
      exact hNumber.symm ▸ hFresh.nonzero
  · intro c hc p hp
    simp only [State.born] at hc hp ⊢
    rcases List.mem_append.mp hc with hc | hc
    · have hcNe := hNe c hc
      rcases List.mem_append.mp hp with hp | hp
      · simp only [if_neg hcNe, if_neg (hNe p hp), hOld p hp, Added.pid_other hAdded hcNe]
        exact h.named.children c hc p hp
      · -- the new process, and the one that has created it
        rw [List.mem_singleton.mp hp, if_pos rfl, if_neg hcNe, hCaller,
          Added.pid_other hAdded hcNe, eq_comm (a := s.caller), h.caller_iff hc]
        by_cases hIn : s.kernel.currentProcess ∈ s.listed
        · rw [h.pid_inj hIn hc]
          exact eq_comm
        · refine iff_of_false ((hFresh.caller hIn).2.2 c hc) ?_
          rintro rfl
          exact hIn hc
    · rw [List.mem_singleton.mp hc, hNumber]
      rcases List.mem_append.mp hp with hp | hp
      · have hLt := h.creator_lt hp
        simp only [if_neg (hNe p hp), if_true, hOld p hp]
        exact iff_of_false (hFresh.parent p hp).2 (by omega)
      · have hLe := h.caller_le
        rw [List.mem_singleton.mp hp, if_pos rfl, if_pos rfl, hCaller]
        exact iff_of_false hNotOwn (by omega)

/-- Without one, something goes wrong at once. -/
theorem Named.fresh (h : Inv s) (hNew : pro ∉ s.listed) (hAdded : Added s.listed pro s.kernel k)
    (hNamed : Named (s.born pro k)) : Fresh s pro := by
  have hNe : ∀ p ∈ s.listed, p ≠ pro := fun p hp hEq => hNew (hEq ▸ hp)
  have hNumber : pid k pro = s.kernel.processNumber := hAdded.pid
  have hIn : pro ∈ (s.born pro k).listed := by simp [State.born]
  have hKept (p : Nat) (hp : p ∈ s.listed) : p ∈ (s.born pro k).listed :=
    List.mem_append_left [pro] hp
  -- no process is a child of the new one
  have hNoChild (p : Nat) (hp : p ∈ s.listed) : parentPid k p ≠ s.kernel.processNumber := by
    intro hEq
    have hChild := (hNamed.children pro hIn p (hKept p hp)).mp (hEq.trans hNumber.symm)
    have hLt := h.creator_lt hp
    rw [State.born_birth_self, State.born_creator_ne (hNe p hp)] at hChild
    omega
  have hNotOwn : parentPid k pro ≠ s.kernel.processNumber := by
    intro hEq
    have hChild := (hNamed.children pro hIn pro hIn).mp (hEq.trans hNumber.symm)
    have hLe := h.caller_le
    rw [State.born_birth_self, State.born_creator_self] at hChild
    omega
  refine ⟨hNumber ▸ hNamed.nonzero pro hIn, fun p hp hEq => ?_, fun p hp => ?_, fun hOut => ?_⟩
  · have hSame : pid k p = pid k pro := by rw [Added.pid_other hAdded (hNe p hp), hEq, hNumber]
    exact hNe p hp (List.inj_on_of_nodup_map hNamed.nodup (hKept p hp) hIn hSame)
  · have hParent : (s.kernel.processes p).parent ≠ pro := by
      intro hEq
      refine hNoChild p hp ?_
      have hSame : (k.processes p).parent = pro := by rw [hAdded.other p (hNe p hp), ← hEq]
      rw [parentPid, hSame, hNumber]
    refine ⟨hParent, ?_⟩
    rw [← Added.parentPid_other hAdded (hNe p hp) hParent]
    exact hNoChild p hp
  · have hCurrent : s.kernel.currentProcess ≠ pro := by
      intro hEq
      refine hNotOwn ?_
      rw [parentPid, hAdded.parent, hEq, hNumber]
    have hCaller := Added.parentPid_new hAdded hCurrent
    refine ⟨hCurrent, hCaller ▸ hNotOwn, fun c hc hEq => ?_⟩
    have hChild := (hNamed.children c (hKept c hc) pro hIn).mp (by
      rw [State.born]
      simp only
      rw [hCaller, hEq, Added.pid_other hAdded (hNe c hc)])
    rw [State.born_creator_self, State.born_birth_ne (hNe c hc)] at hChild
    exact hOut ((h.caller c hc hChild.symm).symm ▸ hc)

/-- A process is born: it is the youngest, and its creator is the caller. -/
theorem Family.born (h : Family s) (hUnused : Unused s pro)
    (hAdded : Added s.listed pro s.kernel k) : Family (s.born pro k) := by
  have hNe : ∀ p ∈ s.listed, p ≠ pro := fun p hp hEq => hUnused.2 (hEq ▸ hp)
  have hParentOld (p : Nat) (hp : p ∈ s.listed) :
      (k.processes p).parent = (s.kernel.processes p).parent := by rw [hAdded.other p (hNe p hp)]
  have hOld := h.caller_le
  refine
    { linked := hAdded.linked
      range := State.forall_born h.range hUnused.1
      number := Added.number_lt hAdded
      order := ?order
      births := ?births
      creator := ?creator
      parent := ?parent
      caller_le := State.born_caller_le hOld
      caller := ?caller }
  case order =>
    refine List.pairwise_append.mpr ⟨?_, List.pairwise_singleton _ _, fun p hp q hq => ?_⟩
    · refine h.order.imp_of_mem fun {p q} hp hq hLt => ?_
      rwa [State.born_birth_ne (hNe p hp), State.born_birth_ne (hNe q hq)]
    · rw [List.mem_singleton.mp hq, State.born_birth_ne (hNe p hp), State.born_birth_self]
      exact Nat.lt_succ_of_le (h.births p hp)
  case births =>
    refine State.forall_born (fun p hp => ?_) ?_
    · rw [State.born_birth_ne (hNe p hp)]
      exact Nat.le_succ_of_le (h.births p hp)
    · rw [State.born_birth_self]
      exact Nat.le_refl _
  case creator =>
    refine State.forall_born (fun p hp => ?_) ?_
    · rw [State.born_birth_ne (hNe p hp), State.born_creator_ne (hNe p hp)]
      exact h.creator p hp
    · rw [State.born_birth_self, State.born_creator_self]
      exact Nat.lt_succ_of_le hOld
  case parent =>
    refine State.forall_born (fun p hp => State.forall_born (fun c hc hEq => ?_) fun hEq => ?_)
      (State.forall_born (fun c hc hEq => ?_) fun hEq => ?_)
    · rw [State.born_birth_ne (hNe c hc), State.born_creator_ne (hNe p hp)] at hEq
      exact (hParentOld p hp).trans (h.parent p hp c hc hEq)
    · have hLt := h.creator_lt hp
      rw [State.born_birth_self, State.born_creator_ne (hNe p hp)] at hEq
      omega
    · rw [State.born_birth_ne (hNe c hc), State.born_creator_self] at hEq
      exact hAdded.parent.trans (h.caller c hc hEq)
    · rw [State.born_birth_self, State.born_creator_self] at hEq
      omega
  case caller =>
    change ∀ c ∈ (s.born pro k).listed, (s.born pro k).birth c = (s.born pro k).caller →
      k.currentProcess = c
    rcases State.born_caller hAdded with ⟨-, hSame, hCaller⟩ | ⟨hNil, hPro, hCaller⟩
    · rw [hSame, hCaller]
      refine State.forall_born (fun c hc => ?_) fun hEq => ?_
      · rw [State.born_birth_ne (hNe c hc)]
        exact h.caller c hc
      · rw [State.born_birth_self] at hEq
        omega
    · rw [hPro]
      refine State.forall_born (fun c hc => ?_) fun _ => rfl
      rw [hNil] at hc
      cases hc

theorem Inv.born (h : Inv s) (hUnused : Unused s pro) (hAdded : Added s.listed pro s.kernel k)
    (hFresh : Fresh s pro) : Inv (s.born pro k) where
  toFamily := h.toFamily.born hUnused hAdded
  named := Named.born h hUnused.2 hAdded hFresh
  runs := by
    change k.currentProcess ∈ (s.born pro k).listed →
      (s.born pro k).birth k.currentProcess = (s.born pro k).caller
    rcases State.born_caller hAdded with ⟨-, hSame, hCaller⟩ | ⟨-, hPro, hCaller⟩
    · have hNe : s.kernel.currentProcess ≠ pro := by
        by_cases hIn : s.kernel.currentProcess ∈ s.listed
        · exact fun hEq => hUnused.2 (hEq ▸ hIn)
        · exact (hFresh.caller hIn).1
      rw [hSame, hCaller, State.born_birth_ne hNe]
      intro hIn
      rcases List.mem_append.mp hIn with hIn | hIn
      · exact h.runs hIn
      · exact absurd (List.mem_singleton.mp hIn) hNe
    · rw [hPro, hCaller]
      exact fun _ => State.born_birth_self

end Creation

/-! ## Steps -/

/-- **`remove_process_list`** takes a process off the list; pids and parents stay. -/
theorem removeProcessList_spec {k : Kernel} {listed : List Nat}
    (hLinked : Linked k.next k.processList listed) (hShort : listed.length < addresses)
    (pro : Nat) : ∃ k', removeProcessList k pro = some k' ∧
      Linked k'.next k'.processList (listed.filter (· ≠ pro)) ∧
      (∀ p, k'.processes p = { k.processes p with next := (k'.processes p).next }) ∧
      k'.currentProcess = k.currentProcess ∧ k'.processNumber = k.processNumber := by
  unfold removeProcessList
  by_cases hIn : pro ∈ listed
  · obtain ⟨xs, ys, rfl⟩ := List.append_of_mem hIn
    obtain ⟨-, hBack, hApart⟩ := List.nodup_append.mp hLinked.nodup
    have hFront : pro ∉ xs := fun hIn => hApart pro hIn pro (by simp) rfl
    have hBehind : pro ∉ ys := (List.nodup_cons.mp hBack).1
    have hRest : (xs ++ pro :: ys).filter (· ≠ pro) = xs ++ ys := by
      have hOther : ∀ p ∈ xs ++ ys, p ≠ pro := by
        rintro p hp rfl
        exact (List.mem_append.mp hp).elim hFront hBehind
      rw [List.filter_append, List.filter_cons_of_neg (by simp), ← List.filter_append,
        List.filter_eq_self]
      exact fun p hp => decide_eq_true (hOther p hp)
    rw [hLinked.trail_present hFront (by rw [List.length_append] at hShort; omega),
      Option.map_some, if_neg (hLinked.ne_zero pro hIn)]
    refine ⟨_, rfl, ?_, fun p => unlinked_other k _ _ p, unlinked_current k _ _, ?_⟩
    · rw [hRest]
      exact unlinked_linked hLinked
    · unfold unlinked
      split
      · rfl
      · rfl
  · obtain ⟨last, hTrail⟩ : ∃ last, trail k.next pro addresses 0 k.processList = some (last, 0) :=
      hLinked.trail_absent hIn hShort
    have hRest : listed.filter (· ≠ pro) = listed := by
      rw [List.filter_eq_self]
      exact fun p hp => decide_eq_true fun hEq => hIn (hEq ▸ hp)
    rw [hTrail, Option.map_some, if_pos rfl, hRest]
    exact ⟨k, rfl, hLinked, fun _ => rfl, rfl, rfl⟩

theorem Family.remove {s : State} (h : Family s) {k : Kernel} {pro : Nat}
    (hLinked : Linked k.next k.processList (s.listed.filter (· ≠ pro)))
    (hFields : ∀ p, k.processes p = { s.kernel.processes p with next := (k.processes p).next })
    (hCurrent : k.currentProcess = s.kernel.currentProcess)
    (hNumber : k.processNumber = s.kernel.processNumber) :
    Family { s with kernel := k, listed := s.listed.filter (· ≠ pro) } := by
  have hOld : ∀ p ∈ s.listed.filter (· ≠ pro), p ∈ s.listed := fun p hp =>
    List.mem_of_mem_filter hp
  have hParent : ∀ p, (k.processes p).parent = (s.kernel.processes p).parent := fun p => by
    rw [hFields p]
  exact
    { linked := hLinked
      range := fun p hp => h.range p (hOld p hp)
      number := by
        simp only
        rw [hNumber]
        exact h.number
      order := h.order.sublist List.filter_sublist
      births := fun p hp => h.births p (hOld p hp)
      creator := fun p hp => h.creator p (hOld p hp)
      parent := fun p hp c hc hEq =>
        (hParent p).trans (h.parent p (hOld p hp) c (hOld c hc) hEq)
      caller_le := h.caller_le
      caller := fun c hc hEq => hCurrent.trans (h.caller c (hOld c hc) hEq) }

theorem Inv.remove {s : State} (h : Inv s) {k : Kernel} {pro : Nat}
    (hLinked : Linked k.next k.processList (s.listed.filter (· ≠ pro)))
    (hFields : ∀ p, k.processes p = { s.kernel.processes p with next := (k.processes p).next })
    (hCurrent : k.currentProcess = s.kernel.currentProcess)
    (hNumber : k.processNumber = s.kernel.processNumber) :
    Inv { s with kernel := k, listed := s.listed.filter (· ≠ pro) } := by
  have hOld : ∀ p ∈ s.listed.filter (· ≠ pro), p ∈ s.listed := fun p hp =>
    List.mem_of_mem_filter hp
  have hPid : pid k = pid s.kernel := by
    funext p
    rw [pid, hFields p, pid]
  have hParent : parentPid k = parentPid s.kernel := by
    funext p
    rw [parentPid, hPid, hFields p, parentPid]
  exact
    { toFamily := h.toFamily.remove hLinked hFields hCurrent hNumber
      runs := fun hIn => by
        simp only at hIn ⊢
        rw [hCurrent] at hIn ⊢
        exact h.runs (hOld _ hIn)
      named :=
        { nodup := by
            simp only
            rw [hPid]
            exact h.named.nodup.sublist (List.filter_sublist.map (pid s.kernel))
          nonzero := fun p hp => by
            simp only
            rw [hPid]
            exact h.named.nonzero p (hOld p hp)
          children := fun c hc p hp => by
            simp only
            rw [hPid, hParent]
            exact h.named.children c (hOld c hc) p (hOld p hp) } }

/-- A step that changes neither the list nor what the parents are, and after which a listed
process runs. -/
theorem Family.switched {s : State} (h : Family s) {k : Kernel} {next : Nat}
    (hNext : next ∈ s.listed) (hLink : k.next = s.kernel.next)
    (hList : k.processList = s.kernel.processList)
    (hNumber : k.processNumber = s.kernel.processNumber)
    (hParent : ∀ p, (k.processes p).parent = (s.kernel.processes p).parent)
    (hCurrent : k.currentProcess = next) :
    Family { s with kernel := k, caller := s.birth next } where
  linked := by
    simp only
    rw [hLink, hList]
    exact h.linked
  range := h.range
  number := by
    simp only
    rw [hNumber]
    exact h.number
  order := h.order
  births := h.births
  creator := h.creator
  parent p hp c hc hEq := (hParent p).trans (h.parent p hp c hc hEq)
  caller_le := h.births next hNext
  caller c hc hEq := hCurrent.trans (h.birth_inj hNext hc hEq.symm)

theorem Inv.resume {s : State} (h : Inv s) {next : Nat} (hNext : next ∈ s.listed)
    (frames : Nat → Registers) (esp0 : Nat) :
    Inv { s with
      kernel := { s.kernel with frames := frames, currentProcess := next, esp0 := esp0 }
      caller := s.birth next } where
  toFamily := h.toFamily.switched hNext rfl rfl rfl (fun _ => rfl) rfl
  runs _ := rfl
  named := ⟨h.named.nodup, h.named.nonzero, h.named.children⟩

section Overwrite

variable {s : State} {p : Nat} {memory : Process}

theorem State.scrapped_block (hp : p ∉ s.listed) {q : Nat} (hq : q ∈ s.listed) :
    (s.scrapped p memory).kernel.processes q = s.kernel.processes q := by
  have hNe : q ≠ p := fun hEq => hp (hEq ▸ hq)
  exact modify_processes_ne (fun _ => memory) hNe

theorem State.scrapped_pid (hp : p ∉ s.listed) {q : Nat} (hq : q ∈ s.listed) :
    pid (s.scrapped p memory).kernel q = pid s.kernel q :=
  congrArg Process.pid (State.scrapped_block hp hq)

theorem State.scrapped_parentPid (hp : p ∉ s.listed) {q : Nat} (hq : q ∈ s.listed) :
    parentPid (s.scrapped p memory).kernel q =
      if (s.kernel.processes q).parent = p then memory.pid else parentPid s.kernel q := by
  rw [parentPid, State.scrapped_block hp hq]
  split
  · next hEq => rw [hEq, pid, State.scrapped, modify_processes_self]
  · next hNe => rw [pid, State.scrapped, modify_processes_ne _ hNe, parentPid, pid]

/-- The process that created `q` is not where memory changes, if it is listed. -/
theorem Inv.parent_ne (h : Inv s) (hp : p ∉ s.listed) {q c : Nat} (hq : q ∈ s.listed)
    (hc : c ∈ s.listed) (hParent : (s.kernel.processes q).parent = p) :
    s.creator q ≠ s.birth c :=
  fun hEq => hp (hParent ▸ (h.parent q hq c hc hEq.symm).symm ▸ hc)

/-- Pids still name the processes exactly if the new contents are the pid of nobody. -/
theorem Named.scrapped_iff (h : Inv s) (hp : p ∉ s.listed) :
    Named (s.scrapped p memory) ↔ Foreign s p memory := by
  constructor
  · intro hNamed q hq hParent c hc hEq
    refine h.parent_ne hp hq hc hParent ((hNamed.children c hc q hq).mp ?_)
    rw [State.scrapped_parentPid hp hq, if_pos hParent, State.scrapped_pid hp hc]
    exact hEq
  · intro hForeign
    refine
      { nodup := ?_
        nonzero := fun q hq => ?_
        children := fun c hc q hq => ?_ }
    · have hMap : s.listed.map (pid (s.scrapped p memory).kernel) = s.listed.map (pid s.kernel) :=
        List.map_congr_left fun q hq => State.scrapped_pid hp hq
      change (s.listed.map (pid (s.scrapped p memory).kernel)).Nodup
      rw [hMap]
      exact h.named.nodup
    · rw [State.scrapped_pid hp hq]
      exact h.named.nonzero q hq
    · rw [State.scrapped_parentPid hp hq, State.scrapped_pid hp hc]
      split
      · next hParent =>
          exact iff_of_false (hForeign q hq hParent c hc) (h.parent_ne hp hq hc hParent)
      · exact h.named.children c hc q hq

theorem Family.scrapped (h : Family s) (hp : p ∉ s.listed) : Family (s.scrapped p memory) where
  linked := h.linked.congr fun q hq => congrArg Process.next (State.scrapped_block hp hq)
  range := h.range
  number := h.number
  order := h.order
  births := h.births
  creator := h.creator
  parent q hq c hc hEq := by
    rw [State.scrapped_block hp hq]
    exact h.parent q hq c hc hEq
  caller_le := h.caller_le
  caller := h.caller

theorem Inv.scrapped (h : Inv s) (hp : p ∉ s.listed) (hForeign : Foreign s p memory) :
    Inv (s.scrapped p memory) where
  toFamily := h.toFamily.scrapped hp
  runs := h.runs
  named := (Named.scrapped_iff h hp).mpr hForeign

end Overwrite

/-- **What a step does**: a process is created, or other memory changes, or memory runs out
and nothing but frames has changed, or a process is taken off the list, or control is passed
on. -/
theorem step_effects {s s' : State} {e : Event}
    (hLinked : Linked s.kernel.next s.kernel.processList s.listed)
    (hShort : s.listed.length < addresses) (hNumber : s.kernel.processNumber < 2 ^ 16)
    (hStep : step s e = some s') :
    (∃ pro k, Unused s pro ∧ Added s.listed pro s.kernel k ∧ s' = s.born pro k ∧
        (EventOk s e ↔ Fresh s pro) ∧
          (forkResult s e = none ∨ forkResult s e = some s.kernel.processNumber)) ∨
      (∃ p memory, p ∉ s.listed ∧ s' = s.scrapped p memory ∧
        (EventOk s e ↔ Foreign s p memory) ∧ forkResult s e = none) ∨
      EventOk s e ∧ forkResult s e ≠ some 0 ∧
        ((∃ frames, s' = { s with kernel := { s.kernel with frames := frames } }) ∨
        (∃ pro k, Linked k.next k.processList (s.listed.filter (· ≠ pro)) ∧
          (∀ p, k.processes p = { s.kernel.processes p with next := (k.processes p).next }) ∧
          k.currentProcess = s.kernel.currentProcess ∧
          k.processNumber = s.kernel.processNumber ∧
          s' = { s with kernel := k, listed := s.listed.filter (· ≠ pro) }) ∨
        ∃ next frames esp0, next ∈ s.listed ∧
          s' =
            { s with
              kernel := { s.kernel with frames := frames, currentProcess := next, esp0 := esp0 }
              caller := s.birth next }) := by
  cases e with
  | create entry mode pro kernelStack userPage =>
      simp only [step] at hStep
      split at hStep
      · next hUnused =>
          rcases createProcess_added hLinked hShort hUnused.2 entry mode kernelStack userPage with
            ⟨hNot, hFail⟩ | ⟨hSupplied, k, hMade, hAdded⟩
          · rw [hFail, Option.map_some, if_pos rfl] at hStep
            cases hStep
            exact Or.inr (Or.inr ⟨fun hSupplied => absurd hSupplied hNot, by simp [forkResult],
              Or.inl ⟨_, rfl⟩⟩)
          · rw [hMade, Option.map_some, if_neg hSupplied.1] at hStep
            cases hStep
            exact Or.inl ⟨pro, k, hUnused, hAdded, rfl,
              ⟨fun hOk => hOk hSupplied, fun hFresh _ => hFresh⟩, Or.inl rfl⟩
      · cases hStep
  | fork regs pro kernelStack userPage =>
      simp only [step] at hStep
      split at hStep
      · next hUnused =>
          rcases sysFork_added hLinked hShort hUnused.1.2 regs kernelStack userPage with
            ⟨hNot, frames, hFail⟩ | ⟨hSupplied, k, hMade, hAdded⟩
          · rw [hFail, Option.map_some, if_pos rfl] at hStep
            cases hStep
            refine Or.inr (Or.inr ⟨fun hSupplied => absurd hSupplied hNot, ?_, Or.inl ⟨_, rfl⟩⟩)
            simp only [forkResult, hFail, Option.map_some]
            decide
          · have hPid : s.kernel.processNumber ≠ minusOne := by
              unfold minusOne
              omega
            rw [hMade, Option.map_some, if_neg hPid] at hStep
            cases hStep
            refine Or.inl ⟨pro, k, hUnused.1, hAdded, rfl,
              ⟨fun hOk => hOk hSupplied, fun hFresh _ => hFresh⟩, Or.inr ?_⟩
            simp only [forkResult, hMade, Option.map_some]
      · cases hStep
  | remove pro =>
      obtain ⟨k, hRemoved, hLinked', hFields, hCurrent, hSame⟩ :=
        removeProcessList_spec hLinked hShort pro
      simp only [step, hRemoved, Option.map_some] at hStep
      cases hStep
      exact Or.inr (Or.inr ⟨trivial, by simp [forkResult],
        Or.inr (Or.inl ⟨pro, k, hLinked', hFields, hCurrent, hSame, rfl⟩)⟩)
  | resume regs next =>
      simp only [step] at hStep
      split at hStep
      · next hNext =>
          obtain ⟨frames, esp0, hSwitch⟩ := contextSwitch_eq s.kernel regs next
          rw [hSwitch] at hStep
          cases hStep
          exact Or.inr (Or.inr ⟨trivial, by simp [forkResult],
            Or.inr (Or.inr ⟨next, frames, esp0, hNext, rfl⟩)⟩)
      · cases hStep
  | overwrite p memory =>
      simp only [step] at hStep
      split at hStep
      · cases hStep
      · next hNew =>
          cases hStep
          exact Or.inr (Or.inl ⟨p, memory, hNew, rfl, Iff.rfl, rfl⟩)

/-- **Inversion of a step.**  It creates a process, or other memory changes, or it keeps
the invariant and meets the condition. -/
theorem step_cases {s s' : State} {e : Event} (h : Inv s) (hStep : step s e = some s') :
    (∃ pro k, Unused s pro ∧ Added s.listed pro s.kernel k ∧ s' = s.born pro k ∧
        (EventOk s e ↔ Fresh s pro) ∧
          (forkResult s e = none ∨ forkResult s e = some s.kernel.processNumber)) ∨
      (∃ p memory, p ∉ s.listed ∧ s' = s.scrapped p memory ∧
        (EventOk s e ↔ Foreign s p memory) ∧ forkResult s e = none) ∨
      Inv s' ∧ EventOk s e ∧ forkResult s e ≠ some 0 := by
  rcases step_effects h.linked h.short h.number hStep with hBorn | hScrapped | ⟨hOk, hFork, hSame⟩
  · exact Or.inl hBorn
  · exact Or.inr (Or.inl hScrapped)
  refine Or.inr (Or.inr ⟨?_, hOk, hFork⟩)
  rcases hSame with ⟨frames, rfl⟩ | ⟨pro, k, hLinked, hFields, hCurrent, hNumber, rfl⟩ |
    ⟨next, frames, esp0, hNext, rfl⟩
  · exact
      { toFamily := { h.toFamily with }
        runs := h.runs
        named := ⟨h.named.nodup, h.named.nonzero, h.named.children⟩ }
  · exact h.remove hLinked hFields hCurrent hNumber
  · exact h.resume hNext frames esp0

theorem Inv.step {s s' : State} {e : Event} (h : Inv s) (hOk : EventOk s e)
    (hStep : ProcessPids.step s e = some s') : Inv s' := by
  rcases step_cases h hStep with ⟨pro, k, hUnused, hAdded, rfl, hFresh, -⟩ |
    ⟨p, memory, hNew, rfl, hForeign, -⟩ | ⟨hInv, -⟩
  · exact h.born hUnused hAdded (hFresh.mp hOk)
  · exact h.scrapped hNew (hForeign.mp hOk)
  · exact hInv

/-- The kernel before the first `create_process`, on any contents of memory. -/
def start (processes : Nat → Process) (frames : Nat → Registers)
    (ticks esp0 processEntry : Nat) : State where
  kernel := (ProcessRuns.boot processes frames ticks esp0 processEntry).kernel
  listed := []
  births := 0
  birth := fun _ => 0
  creator := fun _ => 0
  caller := 0

theorem Family.start (processes : Nat → Process) (frames : Nat → Registers)
    (ticks esp0 processEntry : Nat) :
    Family (start processes frames ticks esp0 processEntry) where
  linked := rfl
  range _ hp := by cases hp
  number := by
    change 1 < 2 ^ 16
    decide
  order := List.Pairwise.nil
  births _ hp := by cases hp
  creator _ hp := by cases hp
  parent _ hp := by cases hp
  caller_le := Nat.le_refl 0
  caller _ hc := by cases hc

theorem Inv.start (processes : Nat → Process) (frames : Nat → Registers)
    (ticks esp0 processEntry : Nat) : Inv (start processes frames ticks esp0 processEntry) where
  toFamily := Family.start processes frames ticks esp0 processEntry
  runs hIn := by cases hIn
  named := ⟨List.nodup_nil, fun _ hp => absurd hp List.not_mem_nil,
    fun _ hc => absurd hc List.not_mem_nil⟩

/-- Memory and frames that are all zero. -/
def zeroed : State :=
  start
    (fun _ =>
      { pid := 0, kernelStack := 0, kernelStackTo := 0, regs := 0, state := .ready, exitCode := 0,
        entry := 0, wake := 0, next := 0, parent := 0, userStack := 0 })
    (fun _ =>
      { gs := 0, fs := 0, es := 0, ds := 0, edi := 0, esi := 0, ebp := 0, esp := 0, ebx := 0,
        edx := 0, ecx := 0, eax := 0, eip := 0, cs := 0, eflags := 0, userEsp := 0, userSs := 0 })
    0 0 0

/-- Three processes, the first of which is removed while it runs; the second forks. -/
def family : List Event :=
  [ .create 0 1 0x1000 0x100000 0x200000, .create 0 1 0x1040 0x110000 0x204000,
    .fork 0x103FBC 0x1080 0x120000 0x210000, .remove 0x1000, .resume 0x103FBC 0x1040 ]

/-- The first process creates a second one, which runs when the first is removed. -/
def orphaned : List Event :=
  [ .create 0x10B00 0 0x26009 0x27000 0, .create 0x10C00 0 0x26042 0x2B000 0,
    .resume 0 0x26042, .remove 0x26009 ]

end MiniKernel.Ports.ProcessPids
