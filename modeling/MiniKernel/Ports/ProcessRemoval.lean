import MiniKernel.Ports.SystemCalls

/-!
# Removal of processes

Runs of `create_process` and `remove_process_list`, with switches to listed
processes in between so that any of them can be the current one.  Three kinds
of pointer refer to control blocks: the links of the list, the parents, and
`current_process`.  `remove_process_list` repairs the links and frees the
control block; it looks at neither of the other two.

`list_tidy` is about the runs in which nothing else refers to a process that
is removed.  When the list has become empty, `current_process` still holds the
block removed last, and the next process gets it as its parent.
-/

namespace MiniKernel.Ports.ProcessRemoval

open MiniKernel.Verified.ByteMemory
open MiniKernel.Verified.Extents
open MiniKernel.Verified.Links
open MiniKernel.Verified.PageWords
open MiniKernel.Verified.Trace
open MiniKernel.Ports.Paging (Vm)
open MiniKernel.Ports.Kmalloc
open MiniKernel.Ports.KmallocLedger
open MiniKernel.Ports.PageLending
open MiniKernel.Ports.ProcessTable
open MiniKernel.Ports.ProcessSteps (modify_processes_self modify_processes_ne contextSwitch_eq
  schedule_linked addProcess_spec)
open MiniKernel.Ports.ProcessSwitch (modify_next)
open MiniKernel.Ports.SystemCalls

structure State where
  system : System Lent
  listed : List Nat

inductive Event
  | create (entry mode : Nat)
  | remove (pro : Nat)
  /-- `context_switch` to a listed process. -/
  | resume (regs next : Nat)
  deriving Repr, DecidableEq

def step (A : PageAllocator Lent) (s : State) : Event → Option State
  | .create entry mode =>
      (createProcess A entry mode s.system).map fun r =>
        { system := r.2, listed := if r.1 = 0 then s.listed else s.listed ++ [r.1] }
  | .remove pro =>
      (removeProcessList A pro s.system).map fun system =>
        { system := system, listed := s.listed.filter (· ≠ pro) }
  | .resume regs next =>
      if next ∈ s.listed then
        some { s with
          system := { s.system with kernel := s.system.kernel.contextSwitch regs next } }
      else none

/-- Before the first `create_process`. -/
def initial (s : System Lent) : State where
  system := s
  listed := []

/-- An address of a taken block in a page of the heap. -/
def Allocated (s : System Lent) (p : Nat) : Prop :=
  ∃ page ∈ s.pages.heap, page + sizeofBlock ≤ p ∧ p ≤ page + pageSize ∧
    (blockAt s.heap.mem (p - sizeofBlock)).type = 2

/-- The list is acyclic, its nodes are allocated, and parents and the current
process are on it; so `schedule` ends and finds a node of the list or none. -/
structure Tidy (s : State) : Prop where
  list : Linked s.system.kernel.next s.system.kernel.processList s.listed
  nodup : s.listed.Nodup
  allocated : ∀ p ∈ s.listed, Allocated s.system p
  parent : ∀ p ∈ s.listed, (s.system.kernel.processes p).parent = 0 ∨
    (s.system.kernel.processes p).parent ∈ s.listed
  current : s.listed ≠ [] → s.system.kernel.currentProcess ∈ s.listed
  schedule : s.listed ≠ [] → ∃ next, s.system.kernel.schedule = some next ∧
    (next = 0 ∨ next ∈ s.listed)

/-- `kmalloc` gives the new control block the address `current_process` has. -/
def Reuses (s : System Lent) : Prop :=
  ∃ b ∈ bestFit s.heap sizeofProcess, b ≠ 0 ∧ userAddr b = s.kernel.currentProcess

instance (s : System Lent) : Decidable (Reuses s) := by
  unfold Reuses
  infer_instance

/-- The first process after the list was empty finds no dangling
`current_process`; a process that is removed is the parent of no other, and is
current only when it is the last; and every page that is asked for is there. -/
def Orderly (ptr : Vm → Nat → Option Nat) (s : State) (e : Event) : Prop :=
  (step ((lending ptr).guard Lent.supplied) s e).isSome ∧
    match e with
    | .create _ mode => s.listed = [] →
        s.system.kernel.currentProcess = 0 ∨ Reuses s.system ∨
          ∀ r ∈ acquire (lending ptr) mode s.system, ¬r.1.Complete mode
    | .remove pro => pro ∈ s.listed →
        (∀ q ∈ s.listed, q ≠ pro → (s.system.kernel.processes q).parent ≠ pro) ∧
          (pro = s.system.kernel.currentProcess → s.listed = [pro])
    | .resume .. => True

instance (ptr : Vm → Nat → Option Nat) (s : State) (e : Event) : Decidable (Orderly ptr s e) := by
  unfold Orderly
  cases e <;> infer_instance

/-- A step of the guarded allocator is the step. -/
theorem step_extends {A B : PageAllocator Lent} (hAB : Extends A B) {s s' : State} {e : Event}
    (h : step B s e = some s') : step A s e = some s' := by
  cases e with
  | create entry mode =>
      obtain ⟨r, hRun, hEq⟩ := Option.map_eq_some_iff.mp h
      simp only [step]
      rw [createProcess_extends hAB hRun, Option.map_some, hEq]
  | remove pro =>
      obtain ⟨r, hRun, hEq⟩ := Option.map_eq_some_iff.mp h
      simp only [step]
      rw [removeProcessList_extends hAB hRun, Option.map_some, hEq]
  | resume regs next => exact h

/-! ## Unlinking -/

section Unlinking

variable {k : Kernel} {p : Nat} {xs ys : List Nat}

theorem unlinked_other (k : Kernel) (previous current q : Nat) :
    (unlinked k previous current).processes q =
      { k.processes q with next := ((unlinked k previous current).processes q).next } := by
  unfold unlinked
  split
  · rfl
  · exact modify_next k _ _ q

theorem unlinked_current (k : Kernel) (previous current : Nat) :
    (unlinked k previous current).currentProcess = k.currentProcess := by
  unfold unlinked
  split
  · rfl
  · rfl

/-- **The links** after a node was taken off the list. -/
theorem unlinked_linked (h : Linked k.next k.processList (xs ++ p :: ys)) :
    Linked (unlinked k (xs.getLastD 0) p).next (unlinked k (xs.getLastD 0) p).processList
      (xs ++ ys) := by
  have hNodup := h.nodup
  rcases List.eq_nil_or_concat xs with rfl | ⟨front, q, rfl⟩
  · have hTail : Linked k.next p (p :: ys) := h.suffix
    exact hTail.2.2
  · rw [List.concat_eq_append] at h hNodup ⊢
    have hq : q ≠ 0 := h.ne_zero q (by simp)
    have hLast : (front ++ [q]).getLastD 0 = q := by simp
    rw [hLast, unlinked, if_neg hq]
    apply Linked.unlink h
    · rw [Kernel.next, modify_processes_self]
    · intro y hy
      have hne : y ≠ q := by
        rintro rfl
        simp only [List.append_assoc, List.singleton_append, List.nodup_append, List.nodup_cons,
          List.mem_append, List.mem_cons] at hNodup hy
        rcases hy with hy | hy
        · exact hNodup.2.2 y hy y (Or.inl rfl) rfl
        · exact hNodup.2.1.1 (Or.inr hy)
      rw [Kernel.next, modify_processes_ne _ hne]
      rfl

/-- **`remove_process_list`** finds the node, or changes nothing. -/
theorem removeProcessList_eq {A : PageAllocator Lent} {s : System Lent} {listed : List Nat}
    (hLinked : Linked s.kernel.next s.kernel.processList listed)
    (hShort : listed.length < addresses) (p : Nat) :
    p ∉ listed ∧ removeProcessList A p s = some s ∨
      ∃ xs ys, listed = xs ++ p :: ys ∧ removeProcessList A p s =
        removeProcess A p { s with kernel := unlinked s.kernel (xs.getLastD 0) p } := by
  by_cases hp : p ∈ listed
  · right
    obtain ⟨xs, ys, rfl⟩ := List.append_of_mem hp
    have hFront : p ∉ xs := fun hIn =>
      (List.nodup_append.mp hLinked.nodup).2.2 p hIn p (by simp) rfl
    refine ⟨xs, ys, rfl, ?_⟩
    unfold removeProcessList
    rw [hLinked.trail_present hFront (by rw [List.length_append] at hShort; omega),
      Option.bind_some, if_neg (hLinked.ne_zero p hp)]
  · left
    obtain ⟨last, hTrail⟩ : ∃ last,
        trail s.kernel.next p addresses 0 s.kernel.processList = some (last, 0) :=
      hLinked.trail_absent hp hShort
    refine ⟨hp, ?_⟩
    unfold removeProcessList
    rw [hTrail, Option.bind_some, if_pos rfl]

end Unlinking

/-! ## The invariant -/

/-- The page `remove_process` gives back. -/
def stackPage (k : Kernel) (p : Nat) : Nat := pageOf (k.processes p).kernelStack

/-- The listed blocks are held, and each has a kernel stack of its own. -/
structure Sane (s : State) : Prop where
  list : Linked s.system.kernel.next s.system.kernel.processList s.listed
  parent : ∀ p ∈ s.listed, (s.system.kernel.processes p).parent = 0 ∨
    (s.system.kernel.processes p).parent ∈ s.listed
  current : s.listed = [] ∨ s.system.kernel.currentProcess ∈ s.listed
  sound : Sound s.system.pages
  ledger : ∃ blocks lost, Ledger s.system.heap s.system.pages.heap s.listed blocks lost
  stack : ∀ p ∈ s.listed, (s.system.kernel.processes p).kernelStack % 4096 = 0 ∧
    0 < (s.system.kernel.processes p).kernelStack ∧
      stackPage s.system.kernel p ∈ s.system.pages.kernel
  apart : (s.listed.map (stackPage s.system.kernel)).Nodup

variable {ptr : Vm → Nat → Option Nat} {s s' : State}

theorem Sane.short (h : Sane s) : s.listed.length < addresses := by
  obtain ⟨blocks, lost, hL⟩ := h.ledger
  exact h.list.length_lt hL.range (by decide)

theorem Sane.tidy (h : Sane s) : Tidy s where
  list := h.list
  nodup := h.list.nodup
  allocated p hp := by
    obtain ⟨blocks, lost, hL⟩ := h.ledger
    obtain ⟨b, hb, rfl, hTaken⟩ := hL.block p hp
    obtain ⟨page, hPage, hLow, hHigh⟩ := hL.layout.inPage hb
    refine ⟨page, hPage, by omega, by omega, ?_⟩
    rw [Nat.add_sub_cancel]
    exact hTaken
  parent := h.parent
  current hSome := h.current.resolve_left hSome
  schedule hSome := by
    have hIn := h.current.resolve_left hSome
    have hList := h.list
    have hShort := h.short
    obtain ⟨xs, ys, hSplit⟩ := List.append_of_mem hIn
    rw [hSplit] at hList hShort
    refine ⟨_, schedule_linked hList hShort rfl, ?_⟩
    cases hFind : (ys ++ xs).find? fun p => s.system.kernel.state p == .ready with
    | none => exact Or.inl rfl
    | some p =>
        right
        have hp := List.mem_of_find?_eq_some hFind
        rw [hSplit, Option.getD_some]
        simp only [List.mem_append, List.mem_cons] at hp ⊢
        tauto

/-- Nothing on the list changes but links. -/
theorem Sane.kernel {system : System Lent} (h : Sane s)
    (hList : Linked system.kernel.next system.kernel.processList s.listed)
    (hFields : ∀ p ∈ s.listed, system.kernel.processes p =
      { s.system.kernel.processes p with next := (system.kernel.processes p).next })
    (hCurrent : s.listed = [] ∨ system.kernel.currentProcess ∈ s.listed)
    (hSound : Sound system.pages)
    (hLedger : ∃ blocks lost, Ledger system.heap system.pages.heap s.listed blocks lost)
    (hKept : ∀ q ∈ s.system.pages.kernel, q ∈ system.pages.kernel) :
    Sane { s with system := system } where
  list := hList
  parent p hp := by
    simp only
    rw [hFields p hp]
    exact h.parent p hp
  current := hCurrent
  sound := hSound
  ledger := hLedger
  stack p hp := by
    obtain ⟨hAligned, hPositive, hIn⟩ := h.stack p hp
    simp only [stackPage]
    rw [hFields p hp]
    exact ⟨hAligned, hPositive, hKept _ hIn⟩
  apart := by
    have hSame : s.listed.map (stackPage system.kernel) =
        s.listed.map (stackPage s.system.kernel) :=
      List.map_congr_left fun p hp => by rw [stackPage, hFields p hp, stackPage]
    simp only [hSame]
    exact h.apart

/-- A process is added at the end. -/
theorem Sane.add {system : System Lent} {q : Nat} (h : Sane s)
    (hList : Linked system.kernel.next system.kernel.processList (s.listed ++ [q]))
    (hFields : ∀ p ∈ s.listed, system.kernel.processes p =
      { s.system.kernel.processes p with next := (system.kernel.processes p).next })
    (hParent : (system.kernel.processes q).parent = 0 ∨
      (system.kernel.processes q).parent ∈ s.listed ++ [q])
    (hCurrent : system.kernel.currentProcess ∈ s.listed ++ [q]) (hSound : Sound system.pages)
    (hLedger : ∃ blocks lost, Ledger system.heap system.pages.heap (q :: s.listed) blocks lost)
    (hKept : ∀ page ∈ s.system.pages.kernel, page ∈ system.pages.kernel)
    (hBase : (system.kernel.processes q).kernelStack % 4096 = 0 ∧
      0 < (system.kernel.processes q).kernelStack ∧
        stackPage system.kernel q ∈ system.pages.kernel)
    (hFresh : stackPage system.kernel q ∉ s.system.pages.kernel) :
    Sane { system := system, listed := s.listed ++ [q] } where
  list := hList
  parent p hp := by
    rcases List.mem_append.mp hp with hp | hp
    · simp only
      rw [hFields p hp]
      exact (h.parent p hp).imp_right (List.mem_append_left _)
    · rw [List.mem_singleton.mp hp]
      exact hParent
  current := Or.inr hCurrent
  sound := hSound
  ledger := by
    obtain ⟨blocks, lost, hL⟩ := hLedger
    refine ⟨blocks, lost, hL.holders fun p => ?_⟩
    simp only [List.mem_append, List.mem_cons, List.not_mem_nil, or_false]
    tauto
  stack p hp := by
    rcases List.mem_append.mp hp with hp | hp
    · obtain ⟨hAligned, hPositive, hIn⟩ := h.stack p hp
      simp only [stackPage]
      rw [hFields p hp]
      exact ⟨hAligned, hPositive, hKept _ hIn⟩
    · rw [List.mem_singleton.mp hp]
      exact hBase
  apart := by
    have hOld : s.listed.map (stackPage system.kernel) =
        s.listed.map (stackPage s.system.kernel) :=
      List.map_congr_left fun p hp => by rw [stackPage, hFields p hp, stackPage]
    rw [List.map_append, List.map_singleton, hOld]
    refine List.nodup_append.mpr ⟨h.apart, List.nodup_singleton _, ?_⟩
    rintro page hPage page' hPage' rfl
    obtain ⟨p, hp, rfl⟩ := List.mem_map.mp hPage
    rw [List.mem_singleton] at hPage'
    exact hFresh (hPage' ▸ (h.stack p hp).2.2)

/-- The address `kmalloc` returns when the search finds a block. -/
theorem acquire_reuses {A : PageAllocator Lent} {mode : Nat} {t t' : System Lent} {p : Parts}
    (hReuses : Reuses t) (hRun : acquire A mode t = some (p, t')) :
    p.pro = t.kernel.currentProcess := by
  obtain ⟨b, hFound, hNonzero, hAddress⟩ := hReuses
  have hHead : t.heap.heapHead ≠ 0 := by
    intro h0
    have hNone : bestFit t.heap sizeofProcess = some 0 := by
      unfold bestFit
      rw [h0]
      rfl
    rw [hNone] at hFound
    cases hFound
    exact hNonzero rfl
  obtain ⟨heap, pages, hBlock⟩ := acquire_block hRun
  unfold kmalloc firstPage chooseBlock at hBlock
  simp only [if_neg (show ¬(pageSize < sizeofProcess ∨ sizeofProcess = 0) by decide),
    if_neg hHead, Option.bind_some, Option.mem_def.mp hFound, if_neg hNonzero,
    Option.map_some] at hBlock
  have hPro := congrArg Prod.fst (Option.some.inj hBlock)
  exact hPro.symm.trans hAddress

/-- **`create_process`** lists a process whose parent is listed. -/
theorem Sane.create {entry mode : Nat} (h : Sane s) (hOk : Orderly ptr s (.create entry mode))
    (hStep : step ((lending ptr).guard Lent.supplied) s (.create entry mode) = some s') :
    Sane s' := by
  obtain ⟨⟨q, system⟩, hRun, rfl⟩ := Option.map_eq_some_iff.mp hStep
  obtain ⟨⟨p, t⟩, hParts, hRun⟩ := Option.bind_eq_some_iff.mp hRun
  obtain ⟨c, hCreate, hEq⟩ := Option.map_eq_some_iff.mp hRun
  cases hEq
  obtain ⟨hKernel, hObtained⟩ := acquire_pages supplied_roomy h.sound hParts
  obtain ⟨blocks, lost, hL⟩ := h.ledger
  obtain ⟨-, hNew, blocks', lost', hL'⟩ := acquire_ledger h.sound hL hParts
  simp only [hKernel] at hCreate
  by_cases hComplete : p.Complete mode
  · obtain ⟨k₁, hB, hBuilt⟩ := createProcess_built hComplete entry s.system.kernel
    rw [if_pos hComplete] at hL'
    rw [hBuilt] at hCreate
    obtain ⟨k₂, hAdd, hEq⟩ := Option.map_eq_some_iff.mp hCreate
    cases hEq
    have hOther : ∀ q ∈ s.listed, k₁.processes q = s.system.kernel.processes q := by
      intro q hq
      apply hB.other
      rintro rfl
      exact hNew hq
    have hLinked : Linked k₁.next k₁.processList s.listed := by
      rw [hB.list]
      exact h.list.congr fun q hq => by rw [Kernel.next, hOther q hq]; rfl
    obtain ⟨k, hAdd', hList, hFields, hCurrent, -⟩ :=
      addProcess_spec hLinked h.short hNew hComplete.1
    rw [hAdd'] at hAdd
    cases hAdd
    have hParent : (k₂.processes p.pro).parent = s.system.kernel.currentProcess := by
      rw [hFields p.pro, ← hB.parent]
    have hBase : (k₂.processes p.pro).kernelStack = p.kernelStack := by
      rw [hFields p.pro, ← hB.kernelStack]
    have hStack : stackPage k₂ p.pro = pageOf p.kernelStack := by
      rw [stackPage, hBase]
    obtain ⟨hFresh, hHeld⟩ := hObtained.stack hComplete
    obtain ⟨hAligned, hPositive, -⟩ := hObtained.base hComplete
    rw [if_neg hComplete.1]
    apply h.add
    · exact hList
    · intro q hq
      rw [hFields q, hOther q hq]
    · simp only [hParent]
      rcases h.current with hEmpty | hIn
      · -- what is left in `current_process` is null, or the new block itself
        rcases hOk.2 hEmpty with h0 | hReuses | hFails
        · exact Or.inl h0
        · right
          rw [← acquire_reuses hReuses hParts]
          simp
        · exact absurd hComplete (hFails _ (acquire_extends (extends_guard _ _) hParts))
      · exact Or.inr (List.mem_append_left _ hIn)
    · rcases hCurrent with ⟨hSome, hSame⟩ | ⟨-, hPro⟩
      · simp only [hSame, hB.current]
        exact List.mem_append_left _ (h.current.resolve_left hSome)
      · simp only [hPro]
        simp
    · exact hObtained.sound
    · exact ⟨blocks', lost', hL'⟩
    · exact hObtained.kept
    · simp only [hBase, hStack]
      exact ⟨hAligned, hPositive, hHeld⟩
    · simp only [hStack]
      exact hFresh
  · rw [createProcess_fails hComplete] at hCreate
    cases hCreate
    rw [if_neg hComplete] at hL'
    rw [if_pos rfl]
    apply h.kernel
    · exact h.list
    · exact fun _ _ => rfl
    · exact h.current
    · exact hObtained.sound
    · exact ⟨blocks', lost', hL'⟩
    · exact hObtained.kept

/-- The list without a node. -/
theorem filter_middle {p : Nat} {xs ys : List Nat} (h : (xs ++ p :: ys).Nodup) :
    ((xs ++ p :: ys).filter fun q => decide (q ≠ p)) = xs ++ ys := by
  obtain ⟨-, hBehind, hApart⟩ := List.nodup_append.mp h
  have hBack := (List.nodup_cons.mp hBehind).1
  rw [List.filter_append, List.filter_cons_of_neg (by simp)]
  congr 1
  · exact List.filter_eq_self.mpr fun q hq => decide_eq_true (hApart q hq p (by simp))
  · refine List.filter_eq_self.mpr fun q hq => decide_eq_true ?_
    rintro rfl
    exact hBack hq

/-- **`remove_process_list`** of a process nothing else refers to. -/
theorem Sane.remove {pro : Nat} (h : Sane s) (hOk : Orderly ptr s (.remove pro))
    (hStep : step ((lending ptr).guard Lent.supplied) s (.remove pro) = some s') : Sane s' := by
  obtain ⟨system, hRun, rfl⟩ := Option.map_eq_some_iff.mp hStep
  rcases removeProcessList_eq (A := (lending ptr).guard Lent.supplied) h.list h.short pro with
    ⟨hAbsent, hNone⟩ | ⟨xs, ys, hSplit, hPresent⟩
  · rw [hNone] at hRun
    cases hRun
    have hSame : (s.listed.filter fun q => decide (q ≠ pro)) = s.listed := by
      refine List.filter_eq_self.mpr fun q hq => decide_eq_true ?_
      rintro rfl
      exact hAbsent hq
    rw [hSame]
    exact h
  · rw [hPresent] at hRun
    obtain ⟨pages, hBack, hRun⟩ := Option.bind_eq_some_iff.mp hRun
    obtain ⟨heap, hFree, hEq⟩ := Option.map_eq_some_iff.mp hRun
    cases hEq
    have hIn : pro ∈ s.listed := by
      rw [hSplit]
      simp
    obtain ⟨hChildless, hLast⟩ := hOk.2 hIn
    obtain ⟨hAligned, hPositive, hHeld⟩ := h.stack pro hIn
    obtain ⟨blocks, lost, hL⟩ := h.ledger
    have hNodup := h.list.nodup
    have hRest : (s.listed.filter fun q => decide (q ≠ pro)) = xs ++ ys := by
      rw [hSplit] at hNodup ⊢
      exact filter_middle hNodup
    have hKept : ∀ q ∈ s.listed.filter (fun q => decide (q ≠ pro)), q ∈ s.listed ∧ q ≠ pro :=
      fun q hq => ⟨(List.mem_filter.mp hq).1, of_decide_eq_true (List.mem_filter.mp hq).2⟩
    have hSame := unlinked_other s.system.kernel (xs.getLastD 0) pro
    have hStack : (unlinked s.system.kernel (xs.getLastD 0) pro).processes pro =
        { s.system.kernel.processes pro with
          next := ((unlinked s.system.kernel (xs.getLastD 0) pro).processes pro).next } :=
      hSame pro
    simp only at hBack
    rw [hStack] at hBack
    obtain ⟨hCond, hBack⟩ := guard_some hBack
    obtain ⟨hSound, hHeap, -, hKernel⟩ :=
      h.sound.freePage hAligned hPositive hHeld (supplied_roomy _ _ hCond) hBack
    constructor
    · simp only [hRest]
      apply unlinked_linked
      rw [← hSplit]
      exact h.list
    · intro q hq
      obtain ⟨hq, hne⟩ := hKept q hq
      simp only
      rw [hSame q]
      refine (h.parent q hq).imp_right fun hParent => List.mem_filter.mpr ⟨hParent, ?_⟩
      exact decide_eq_true (hChildless q hq hne)
    · simp only [unlinked_current]
      by_cases hCurrent : pro = s.system.kernel.currentProcess
      · left
        rw [hLast hCurrent, List.filter_cons_of_neg (by simp), List.filter_nil]
      · right
        have hSome : s.listed ≠ [] := List.ne_nil_of_mem hIn
        exact List.mem_filter.mpr
          ⟨h.current.resolve_left hSome, decide_eq_true (Ne.symm hCurrent)⟩
    · exact hSound
    · refine ⟨blocks, lost, ?_⟩
      simp only [hHeap]
      exact hL.release hFree
    · intro q hq
      obtain ⟨hq, hne⟩ := hKept q hq
      obtain ⟨hAlignedQ, hPositiveQ, hHeldQ⟩ := h.stack q hq
      simp only [stackPage, hKernel]
      rw [hSame q]
      refine ⟨hAlignedQ, hPositiveQ, List.mem_filter.mpr ⟨hHeldQ, decide_eq_true ?_⟩⟩
      exact fun hEq => hne (List.inj_on_of_nodup_map h.apart hq hIn hEq)
    · have hOld : (s.listed.filter fun q => decide (q ≠ pro)).map
          (stackPage (unlinked s.system.kernel (xs.getLastD 0) pro)) =
            (s.listed.filter fun q => decide (q ≠ pro)).map (stackPage s.system.kernel) :=
        List.map_congr_left fun q _ => by rw [stackPage, hSame q, stackPage]
      rw [hOld]
      exact h.apart.sublist (List.filter_sublist.map _)

/-- **One orderly step keeps the invariant.** -/
theorem step_sane (A : PageAllocator Lent) (hA : Extends A ((lending ptr).guard Lent.supplied))
    (s : State) (e : Event) (s' : State) (h : Sane s) (hOk : Orderly ptr s e)
    (hStep : step A s e = some s') : Sane s' := by
  obtain ⟨t, hGuard⟩ := Option.isSome_iff_exists.mp hOk.1
  have hSame : t = s' := Option.some.inj ((step_extends hA hGuard).symm.trans hStep)
  subst hSame
  cases e with
  | create entry mode => exact h.create hOk hGuard
  | remove pro => exact h.remove hOk hGuard
  | resume regs next =>
      obtain ⟨hNext, hEq⟩ := Option.ite_none_right_eq_some.mp hStep
      cases hEq
      obtain ⟨frames, esp0, hSwitch⟩ := contextSwitch_eq s.system.kernel regs next
      rw [hSwitch]
      apply h.kernel
      · exact h.list
      · exact fun _ _ => rfl
      · exact Or.inr hNext
      · exact h.sound
      · exact h.ledger
      · exact fun _ hq => hq

theorem start_sane (processes : Nat → Process) (frames : Nat → Registers)
    (ticks esp0 processEntry : Nat) (mem : Mem) (pmm : Pmm.Table) (tables : Mem)
    (freeVirtual : Nat → Nat) :
    Sane (initial (start processes frames ticks esp0 processEntry mem pmm tables freeVirtual)) where
  list := rfl
  parent := by simp [initial]
  current := Or.inl rfl
  sound := start_sound pmm tables freeVirtual
  ledger := ⟨[], [], ledger_start mem⟩
  stack := by simp [initial]
  apart := List.nodup_nil

end MiniKernel.Ports.ProcessRemoval
