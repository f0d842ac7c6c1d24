import MiniKernel.Ports.SystemCalls

/-!
# The heap in runs of the system

Control blocks and the blocks of `SYS_MALLOC` come from one heap.  A run
consists of system calls with any arguments and of stores by processes, or by
the kernel on their behalf, to any address.  The frame of a trap is what memory
holds at `regs`, which may be another address at every trap.

`sys_free` gives whatever address it gets to `kfree`, and `SYS_CREATE_PROCESS`
returns the address of a control block, so a process can free a control block
that is on the process list.  `sys_wait` stores an exit code through whatever
pointer it gets, `heap_head` and `next_virtual` included.
`control_blocks_kept` is about the runs without such a call, in which stores
stay in the memory of processes; the last theorem is the run with a free.
-/

namespace MiniKernel.Ports.SystemHeap

open MiniKernel.Verified.ByteMemory
open MiniKernel.Verified.Links
open MiniKernel.Verified.PageWords
open MiniKernel.Verified.Trace
open MiniKernel.Ports.Paging (Vm)
open MiniKernel.Ports.Kmalloc
open MiniKernel.Ports.KmallocRuns (payload)
open MiniKernel.Ports.KmallocLedger
open MiniKernel.Ports.PageLending
open MiniKernel.Ports.ProcessTable
open MiniKernel.Ports.ProcessSteps
open MiniKernel.Ports.ProcessSwitch (sysCreateProcess_made sysFork_made)
open MiniKernel.Ports.ProcessRuns (Running stackUsed identityEnd)
open MiniKernel.Ports.SystemCalls

/-- A block that `SYS_FREE` made free, and whether `SYS_MALLOC` had returned it. -/
structure Release where
  address : Nat
  user : Bool
  deriving Repr, DecidableEq

/-- The system, the processes created, what `SYS_MALLOC` returned and was not
freed since, what `SYS_FREE` released, and the pages that `SYS_EXEC` mapped. -/
structure State where
  system : System Lent
  created : List Nat
  users : List Nat
  released : List Release
  mapped : List Nat

inductive Event
  | create (entry mode : Nat)
  | fork (regs : Nat)
  | malloc (size : Nat)
  | free (address : Nat)
  | wait (status regs : Nat)
  /-- `SYS_EXEC` takes frames and maps the pages `mapped`; what it writes are stores. -/
  | exec (mapped : List Nat) (pmm : Pmm.Table) (mem : Mem) (pageDirectory : Nat → Nat)
  | call (c : Call)
  | store (a : Nat) (value : UInt8)

/-- The block at an address that `kfree` would make free. -/
def releases (h : Heap) (address : Nat) : Option Bool :=
  (seek h.next (fun b => userAddr b == address) 0 addresses h.heapHead).map fun b =>
    b ≠ 0 && (blockAt h.mem b).type ≠ 1

/-- One step. -/
def step (A : PageAllocator Lent) (s : State) : Event → Option State
  | .create entry mode =>
      if s.system.kernel.halted = false then
        (sysCreateProcess A entry mode s.system).map fun r =>
          { s with
            system := r.2
            created := if r.1 = 0 then s.created else s.created ++ [r.1] }
      else none
  | .fork regs =>
      if Running s.system.kernel then
        (sysFork A regs s.system).map fun r =>
          { s with
            system := r.2.2
            created := if r.1 = minusOne then s.created else s.created ++ [r.2.1.pro] }
      else none
  | .malloc size =>
      if Running s.system.kernel then
        (sysKmalloc A size s.system).map fun r =>
          { s with
            system := r.2
            users := if r.1 = 0 then s.users else r.1 :: s.users }
      else none
  | .free address =>
      if Running s.system.kernel then
        (releases s.system.heap address).bind fun done =>
          (sysFree address s.system).map fun system =>
            { s with
              system := system
              users := s.users.filter (· ≠ address)
              released :=
                if done then ⟨address, decide (address ∈ s.users)⟩ :: s.released
                else s.released }
      else none
  | .wait status regs =>
      if Running s.system.kernel then
        (s.system.kernel.sysWait status regs).map fun r =>
          { s with
            system :=
              if r.1 = 0 then { s.system with kernel := r.2 }
              else s.system.store status 4 (s.system.kernel.processes r.1).exitCode }
      else none
  | .exec mapped pmm mem pageDirectory =>
      if Running s.system.kernel then
        let vm := { s.system.pages.vm with pmm := pmm, mem := mem, pageDirectory := pageDirectory }
        some
          { s with
            system := { s.system with pages := { s.system.pages with vm := vm } }
            mapped := mapped ++ s.mapped }
      else none
  | .call c => (c.run s.system.kernel).map fun k =>
      { s with system := { s.system with kernel := k } }
  | .store a value => some { s with system := s.system.store a 1 value.toNat }

/-- Before the first `create_process`. -/
def initial (s : System Lent) : State where
  system := s
  created := []
  users := []
  released := []
  mapped := []

/-- The control block of every listed process is marked taken, and no system
call has given it out; `SYS_FREE` has released what `SYS_MALLOC` returned. -/
structure Protected (s : State) : Prop where
  list : Linked s.system.kernel.next s.system.kernel.processList s.created
  taken : ∀ p ∈ s.created, (blockAt s.system.heap.mem (p - sizeofBlock)).type ≠ 1
  own : ∀ p ∈ s.created, p ∉ s.users
  released : ∀ r ∈ s.released, r.user = true

/-- The byte belongs to processes: it is in a block of `SYS_MALLOC`, or in no page of
the heap and in a user stack page, in one that `SYS_EXEC` mapped or behind the
identity map. -/
def UserByte (s : State) (x : Nat) : Prop :=
  Spares s.system.heap.mem s.system.pages.heap s.users x ∧
    ((∃ p ∈ s.users, (payload s.system.heap.mem p).Has x) ∨
      pageOf x ∈ s.system.pages.user.map pageOf ∨ pageOf x ∈ s.mapped ∨ identityEnd ≤ x)

/-- A store of `l` bytes at `a` stays in the memory of processes. -/
def MayStore (s : State) (a l : Nat) : Prop :=
  Spare s.created s.system.kernel ⟨a, l⟩ ∧ ∀ i < l, UserByte s (a + i)

/-- The page is not one that the kernel uses: page 0 up to the end of the table of
the boot loader, the image, the heap, and the kernel stacks. -/
def MayMap (s : State) (page : Nat) : Prop :=
  7 ≤ page ∧ (page < 0x10 ∨ pageOf kernelEnd ≤ page) ∧
    page ∉ s.system.pages.heap.map pageOf ∧ page ∉ s.system.pages.kernel ∧
      page ≠ pageOf (s.system.kernel.esp0 - 1)

/-- The kernel runs on a stack in no page of the heap, and prints to none. -/
def HeapApart (s : State) : Prop :=
  ∀ p ∈ s.system.pages.heap,
    pageOf p ≠ pageOf (s.system.kernel.esp0 - 1) ∧ pageOf p ≠ pageOf screen.base

/-- `SYS_FREE` does not get the address of a control block, stores stay in the memory
of processes, and every page that is asked for is there. -/
def Lawful (ptr : Vm → Nat → Option Nat) (s : State) (e : Event) : Prop :=
  (step ((lending ptr).guard Lent.supplied) s e).isSome ∧ HeapApart s ∧
    match e with
    | .fork regs => ∀ r ∈ acquire (lending ptr) processUser s.system,
        r.1.Complete processUser → stackUsed s.system.kernel regs ≤ 4096
    | .free address => address ∉ s.created
    | .wait status _ =>
        s.created.find? s.system.kernel.zombieOfCaller ≠ none → MayStore s status 4
    | .exec mapped .. => ∀ page ∈ mapped, MayMap s page
    | .store a _ => MayStore s a 1
    | _ => True

instance (s : State) (a l : Nat) : Decidable (MayStore s a l) := by
  unfold MayStore UserByte
  infer_instance

instance (s : State) (page : Nat) : Decidable (MayMap s page) := by
  unfold MayMap
  infer_instance

instance (s : State) : Decidable (HeapApart s) := by
  unfold HeapApart
  infer_instance

instance (ptr : Vm → Nat → Option Nat) (s : State) (e : Event) : Decidable (Lawful ptr s e) := by
  unfold Lawful
  cases e <;> infer_instance

/-! ## Served calls -/

variable {ptr : Vm → Nat → Option Nat}

/-- A step of the guarded allocator is the step. -/
theorem step_extends {A B : PageAllocator Lent} (hAB : Extends A B) {s s' : State} {e : Event}
    (h : step B s e = some s') : step A s e = some s' := by
  cases e with
  | create entry mode =>
      simp only [step, Option.map_eq_bind] at h ⊢
      exact call_extends (fun _ => sysCreateProcess_extends hAB) h
  | fork regs =>
      simp only [step, Option.map_eq_bind] at h ⊢
      exact call_extends (fun _ => sysFork_extends hAB) h
  | malloc size =>
      simp only [step, Option.map_eq_bind] at h ⊢
      exact call_extends (fun _ => sysKmalloc_extends hAB) h
  | free address => exact h
  | wait status regs => exact h
  | exec mapped pmm mem pageDirectory => exact h
  | call c => exact h
  | store a value => exact h

/-! ## The invariant -/

/-- The blocks of the heap are held by the process list and by users. -/
structure Guarded (s : State) : Prop where
  table : Table s.system.kernel s.created
  sound : Sound s.system.pages
  ledger : ∃ listed lost, Ledger s.system.heap s.system.pages.heap (s.created ++ s.users)
    listed lost
  own : ∀ p ∈ s.created, p ∉ s.users
  released : ∀ r ∈ s.released, r.user = true

variable {s s' : State}

theorem Guarded.protected_of (h : Guarded s) : Protected s where
  list := h.table.linked
  taken p hp := by
    obtain ⟨listed, lost, hL⟩ := h.ledger
    rw [hL.taken (List.mem_append_left _ hp)]
    decide
  own := h.own
  released := h.released

/-- A new process. -/
theorem Guarded.add {system : System Lent} {listed lost : List Nat} {q : Nat} (h : Guarded s)
    (hTable : Table system.kernel (s.created ++ [q])) (hSound : Sound system.pages)
    (hNew : q ∉ s.created ++ s.users)
    (hL : Ledger system.heap system.pages.heap (q :: (s.created ++ s.users)) listed lost) :
    Guarded { s with system := system, created := s.created ++ [q] } where
  table := hTable
  sound := hSound
  ledger := by
    refine ⟨listed, lost, hL.holders fun p => ?_⟩
    simp only [List.mem_append, List.mem_cons, List.not_mem_nil, or_false]
    tauto
  own p hp := by
    rcases List.mem_append.mp hp with hp | hp
    · exact h.own p hp
    · rw [List.mem_singleton.mp hp]
      exact fun hUser => hNew (List.mem_append_right _ hUser)
  released := h.released

theorem Guarded.create {entry mode : Nat} (h : Guarded s)
    (hStep : step ((lending ptr).guard Lent.supplied) s (.create entry mode) = some s') :
    Guarded s' := by
  obtain ⟨-, hStep⟩ := Option.ite_none_right_eq_some.mp hStep
  obtain ⟨⟨q, system⟩, hRun, rfl⟩ := Option.map_eq_some_iff.mp hStep
  obtain ⟨listed, lost, hL⟩ := h.ledger
  obtain ⟨hSound, hNew, hTable, listed', lost', hL'⟩ :=
    sysCreateProcess_spec h.table h.sound hL (fun _ hq => List.mem_append_left _ hq) hRun
  by_cases hNull : q = 0
  · simp only [if_pos hNull] at hTable hL' ⊢
    exact ⟨hTable, hSound, ⟨listed', lost', hL'⟩, h.own, h.released⟩
  · simp only [if_neg hNull] at hTable hL' ⊢
    exact h.add hTable hSound hNew hL'

theorem Guarded.fork {regs : Nat} (h : Guarded s)
    (hStep : step ((lending ptr).guard Lent.supplied) s (.fork regs) = some s') :
    Guarded s' := by
  obtain ⟨-, hStep⟩ := Option.ite_none_right_eq_some.mp hStep
  obtain ⟨⟨pid, parts, system⟩, hRun, rfl⟩ := Option.map_eq_some_iff.mp hStep
  obtain ⟨listed, lost, hL⟩ := h.ledger
  obtain ⟨hSound, hNew, hTable, listed', lost', hL'⟩ :=
    sysFork_spec h.table h.sound hL (fun _ hq => List.mem_append_left _ hq) hRun
  by_cases hFail : pid = minusOne
  · simp only [if_pos hFail] at hTable hL' ⊢
    exact ⟨hTable, hSound, ⟨listed', lost', hL'⟩, h.own, h.released⟩
  · simp only [if_neg hFail] at hTable hL' ⊢
    exact h.add hTable hSound hNew hL'

/-- **A block of `SYS_MALLOC`** was in nobody's hands. -/
theorem Guarded.malloc {size : Nat} (h : Guarded s)
    (hStep : step ((lending ptr).guard Lent.supplied) s (.malloc size) = some s') :
    Guarded s' := by
  obtain ⟨-, hStep⟩ := Option.ite_none_right_eq_some.mp hStep
  obtain ⟨⟨q, system⟩, hRun, rfl⟩ := Option.map_eq_some_iff.mp hStep
  obtain ⟨⟨q, heap, pages⟩, hBlock, hEq⟩ := Option.map_eq_some_iff.mp hRun
  cases hEq
  obtain ⟨listed, lost, hL⟩ := h.ledger
  obtain ⟨-, hNew, -, listed', lost', ⟨hSound, rfl⟩, hL'⟩ :=
    hL.alloc (lending_provides ptr) ⟨h.sound, rfl⟩ hBlock
  by_cases hNull : q = 0
  · simp only [if_pos hNull] at hL' ⊢
    exact ⟨h.table, hSound, ⟨listed', lost', hL'⟩, h.own, h.released⟩
  · simp only [if_neg hNull] at hL' ⊢
    refine ⟨h.table, hSound, ⟨listed', lost', hL'.holders fun p => ?_⟩, ?_, h.released⟩
    · simp only [List.mem_append, List.mem_cons]
      tauto
    · intro p hp hUser
      rcases List.mem_cons.mp hUser with rfl | hUser
      · exact hNew (List.mem_append_left _ hp)
      · exact h.own p hp hUser

/-- **`SYS_FREE`** of anything but a control block. -/
theorem Guarded.free {A : PageAllocator Lent} {address : Nat} (h : Guarded s)
    (hApart : address ∉ s.created) (hStep : step A s (.free address) = some s') : Guarded s' := by
  obtain ⟨-, hStep⟩ := Option.ite_none_right_eq_some.mp hStep
  obtain ⟨done, hDone, hStep⟩ := Option.bind_eq_some_iff.mp hStep
  obtain ⟨system, hRun, rfl⟩ := Option.map_eq_some_iff.mp hStep
  obtain ⟨heap, hFree, rfl⟩ := Option.map_eq_some_iff.mp hRun
  obtain ⟨b, hSeek, hBlock⟩ := Option.map_eq_some_iff.mp hDone
  obtain ⟨listed, lost, hL⟩ := h.ledger
  constructor
  · exact h.table
  · exact h.sound
  · refine ⟨listed, lost, (hL.release hFree).holders fun p => ?_⟩
    simp only [List.mem_append, List.mem_filter, decide_eq_true_eq]
    constructor
    · rintro (hp | ⟨hp, hne⟩)
      · refine ⟨Or.inl hp, ?_⟩
        rintro rfl
        exact hApart hp
      · exact ⟨Or.inr hp, hne⟩
    · rintro ⟨hp | hp, hne⟩
      · exact Or.inl hp
      · exact Or.inr ⟨hp, hne⟩
  · exact fun p hp hUser => h.own p hp (List.mem_filter.mp hUser).1
  · intro r hr
    cases hCase : done with
    | false =>
        simp only [hCase] at hr
        exact h.released r hr
    | true =>
        simp only [hCase, if_true] at hr
        rcases List.mem_cons.mp hr with rfl | hr
        · rw [hCase, Bool.and_eq_true] at hBlock
          have hIn := hL.holder hSeek (of_decide_eq_true hBlock.1) (of_decide_eq_true hBlock.2)
          exact decide_eq_true ((List.mem_append.mp hIn).resolve_left hApart)
        · exact h.released r hr

/-- **A store to the memory of processes.** -/
theorem Guarded.store {a l : Nat} (h : Guarded s) (hStore : MayStore s a l) (hl : 0 < l)
    (w : Nat) : Guarded { s with system := s.system.store a l w } := by
  obtain ⟨hSpare, hUser⟩ := hStore
  obtain ⟨listed, lost, hL⟩ := h.ledger
  constructor
  · exact (hSpare.store hl w).table h.table
  · exact ⟨whole_same h.sound.whole (storeVm_beyond hSpare.1 l w _), h.sound.pages⟩
  · refine ⟨listed, lost, ?_⟩
    simp only [System.store, storeHeap_beyond hSpare.1]
    apply hL.write
    intro x hx
    apply store_apply_apart
    by_contra hIn
    have hByte := (hUser (x - a) (by omega)).1
    rw [show a + (x - a) = x by omega] at hByte
    rcases hByte with ⟨p, hp, hHas⟩ | hOut
    · exact hx (Or.inl ⟨p, List.mem_append_right _ hp, hHas⟩)
    · exact hx (Or.inr hOut)
  · exact h.own
  · exact h.released

/-- **`SYS_WAIT`** stores an exit code in the memory of processes, or blocks. -/
theorem Guarded.wait {A : PageAllocator Lent} {status regs : Nat} (h : Guarded s)
    (hStore : s.created.find? s.system.kernel.zombieOfCaller ≠ none → MayStore s status 4)
    (hStep : step A s (.wait status regs) = some s') : Guarded s' := by
  obtain ⟨hRunning, hStep⟩ := Option.ite_none_right_eq_some.mp hStep
  obtain ⟨r, hRun, rfl⟩ := Option.map_eq_some_iff.mp hStep
  rcases sysWait_cases h.table hRunning.2 status regs with
    ⟨child, hFound, hNonzero, hReport⟩ | ⟨-, k, hBlock, hTurn⟩
  · rw [hReport] at hRun
    cases hRun
    simp only [if_neg hNonzero]
    apply h.store
    · exact hStore (by rw [hFound]; exact Option.some_ne_none child)
    · decide
  · rw [hBlock] at hRun
    cases hRun
    exact ⟨hTurn.table h.table, h.sound, h.ledger, h.own, h.released⟩

/-- **One lawful step keeps the invariant.** -/
theorem step_guarded (A : PageAllocator Lent) (hA : Extends A ((lending ptr).guard Lent.supplied))
    (s : State) (e : Event) (s' : State) (h : Guarded s) (hOk : Lawful ptr s e)
    (hStep : step A s e = some s') : Guarded s' := by
  obtain ⟨t, hGuard⟩ := Option.isSome_iff_exists.mp hOk.1
  have hSame : t = s' := Option.some.inj ((step_extends hA hGuard).symm.trans hStep)
  subst hSame
  cases e with
  | create entry mode => exact h.create hGuard
  | fork regs => exact h.fork hGuard
  | malloc size => exact h.malloc hGuard
  | free address => exact h.free hOk.2.2 hStep
  | wait status regs => exact h.wait hOk.2.2 hStep
  | exec mapped pmm mem pageDirectory =>
      obtain ⟨-, hEq⟩ := Option.ite_none_right_eq_some.mp hStep
      cases hEq
      exact ⟨h.table, ⟨whole_same h.sound.whole ⟨rfl, rfl, rfl⟩, h.sound.pages⟩, h.ledger, h.own,
        h.released⟩
  | call c =>
      obtain ⟨k, hRun, rfl⟩ := Option.map_eq_some_iff.mp hStep
      exact ⟨Call.table h.table hRun, h.sound, h.ledger, h.own, h.released⟩
  | store a value =>
      cases hStep
      exact h.store hOk.2.2 (by decide) _

theorem start_guarded (processes : Nat → Process) (frames : Nat → Registers)
    (ticks esp0 processEntry : Nat) (mem : Mem) (pmm : Pmm.Table) (tables : Mem)
    (freeVirtual : Nat → Nat) :
    Guarded (initial (start processes frames ticks esp0 processEntry mem pmm tables
      freeVirtual)) where
  table := ProcessRuns.boot_table processes frames ticks esp0 processEntry
  sound := start_sound pmm tables freeVirtual
  ledger := ⟨[], [], ledger_start mem⟩
  own := by simp [initial]
  released := by simp [initial]

/-- **Control blocks stay taken.**  In a run whose steps are all lawful, no
block of a listed process is marked free or given out by `SYS_MALLOC`, and
`SYS_FREE` releases only what `SYS_MALLOC` returned. -/
theorem control_blocks_kept {processes : Nat → Process} {frames : Nat → Registers}
    {ticks esp0 processEntry : Nat} {mem : Mem} {pmm : Pmm.Table} {tables : Mem}
    {freeVirtual : Nat → Nat} {events : List Event}
    (hRun : exec (step (lending ptr)) (initial (start processes frames ticks esp0 processEntry mem
      pmm tables freeVirtual)) events = some s)
    (hOk : Meets (step (lending ptr)) (Lawful ptr) (initial (start processes frames ticks esp0
      processEntry mem pmm tables freeVirtual)) events) : Protected s := by
  have hInvariant : Guarded s := by
    apply hOk.invariant (step_guarded (lending ptr) (extends_guard _ _))
    · exact start_guarded processes frames ticks esp0 processEntry mem pmm tables freeVirtual
    · exact hRun
  exact hInvariant.protected_of

/-- A process allocates a block, writes to it, forks and frees the block. -/
theorem control_blocks_kept_fork :
    ∃ s, exec (step (lending Paging.direct)) (initial pcStart)
        [.create 0x10B00 1, .malloc 100, .store 0x26042 7, .fork 0x2AFBC, .free 0x26042] =
          some s ∧
      s.created = [0x26009, 0x260AF] ∧ Protected s := by
  have hView : (exec (step (lending Paging.direct)) (initial pcStart)
      [.create 0x10B00 1, .malloc 100, .store 0x26042 7, .fork 0x2AFBC, .free 0x26042]).map
        State.created = some [0x26009, 0x260AF] := by
    rw [pcStart, start, Paging.boot_eq]
    decide +kernel
  obtain ⟨s, hRun, hs⟩ := Option.map_eq_some_iff.mp hView
  refine ⟨s, hRun, hs, control_blocks_kept hRun ?_⟩
  rw [start, Paging.boot_eq]
  decide +kernel

/-- A process frees its own control block, and `SYS_MALLOC` gives it out. -/
theorem control_block_freed :
    ∃ s, exec (step (lending Paging.direct)) (initial pcStart)
        [.create 0x10B00 1, .free 0x26009, .malloc 48] = some s ∧
      s.created = [0x26009] ∧ s.users = [0x26009] ∧ s.released = [⟨0x26009, false⟩] ∧
      ¬Protected s := by
  have hView : (exec (step (lending Paging.direct)) (initial pcStart)
      [.create 0x10B00 1, .free 0x26009, .malloc 48]).map
        (fun s => (s.created, s.users, s.released)) =
      some ([0x26009], [0x26009], [⟨0x26009, false⟩]) := by
    rw [pcStart, start, Paging.boot_eq]
    decide +kernel
  obtain ⟨s, hRun, hs⟩ := Option.map_eq_some_iff.mp hView
  simp only [Prod.mk.injEq] at hs
  obtain ⟨hCreated, hUsers, hReleased⟩ := hs
  refine ⟨s, hRun, hCreated, hUsers, hReleased, fun h => ?_⟩
  exact h.own 0x26009 (by rw [hCreated]; decide) (by rw [hUsers]; decide)

end MiniKernel.Ports.SystemHeap
