import MiniKernel.Ports.ProcessTable
import MiniKernel.Verified.Footprint

/-!
# sys_fork

The body of `sys_fork` on the bytes of memory, from the return of
`create_process` on, with a log of what it writes and what `memcpy` reads.  The
control block of the child and the frame at the top of its kernel stack are
where `create_process` put them.

The length of the copy is a difference of the parent's `user_stack` and the
`user_esp` of its trap frame.  `fork_confined` says for which values of the two
the copy stays in the stack pages.  The loop over saved frame pointers may not
end, so the statement is about every number of its turns.
-/

namespace MiniKernel.Ports.Fork

open MiniKernel.Verified.ByteMemory
open MiniKernel.Verified.WordStack
open MiniKernel.Verified.Extents
open MiniKernel.Verified.Footprint
open MiniKernel.Ports.ProcessTable (minusOne sizeofProcess sizeofRegisters)

/-! ## Layout -/

def regsOffset : Nat := 16
def stateOffset : Nat := 20
def parentOffset : Nat := 40
def userStackOffset : Nat := 44

def ebpOffset : Nat := 24
def eaxOffset : Nat := 44
def userEspOffset : Nat := 60

/-- Subtraction of `uint32_t`. -/
def sub32 (a b : Nat) : Nat := (a + (2 ^ 32 - b)) % 2 ^ 32

/-- `p->regs`. -/
def savedRegs (m : Mem) (p : Nat) : Nat := word m (p + regsOffset)

/-- `p->user_stack`. -/
def userStack (m : Mem) (p : Nat) : Nat := word m (p + userStackOffset)

/-- `p->user_stack + 4096`. -/
def stackTop (m : Mem) (p : Nat) : Nat := (userStack m p + 4096) % 2 ^ 32

/-- `parent_stack_top - regs->user_esp`. -/
def used (m : Mem) (parent regs : Nat) : Nat :=
  sub32 (stackTop m parent) (word m (regs + userEspOffset))

/-! ## The body -/

/-- `*child->regs = *regs` with `eax` zero and `user_esp` kept. -/
def copyFrame (child regs : Nat) (s : Logged) : Logged :=
  let childUserEsp := word s.mem (savedRegs s.mem child + userEspOffset)
  let s := s.assign (savedRegs s.mem child) regs 17
  let s := s.store (savedRegs s.mem child + eaxOffset) 0
  s.store (savedRegs s.mem child + userEspOffset) childUserEsp

/-- `memcpy`. -/
def memcpy (dest src n : Nat) (s : Logged) : Logged := s.copyBytes (2 ^ 32) dest src n

/-- `child->regs->user_esp = child_stack_top - used` and
`child->regs->ebp = regs->ebp + delta`. -/
def moveFrame (child regs childTop delta used : Nat) (s : Logged) : Logged :=
  let s := s.store (savedRegs s.mem child + userEspOffset) (sub32 childTop used)
  s.store (savedRegs s.mem child + ebpOffset) ((word s.mem (regs + ebpOffset) + delta) % 2 ^ 32)

/-- The loop over saved frame pointers, for `fuel` turns at most, and whether it
has ended. -/
def relocate (childTop parentTop used : Nat) : Nat → Nat → Logged → Logged × Bool
  | 0, _, s => (s, false)
  | fuel + 1, frame, s =>
      if sub32 childTop used ≤ frame ∧ frame < sub32 childTop 4 then
        let savedEbp := word s.mem frame
        if sub32 parentTop 4096 ≤ savedEbp ∧ savedEbp < parentTop then
          let s := s.store frame ((savedEbp + sub32 childTop parentTop) % 2 ^ 32)
          relocate childTop parentTop used fuel (word s.mem frame) s
        else (s, true)
      else (s, true)

/-- `regs->eax = child->pid`, `child->parent = parent` and
`child->state = PROCESS_READY`. -/
def finish (parent child regs : Nat) (s : Logged) : Logged :=
  let s := s.store (regs + eaxOffset) (word s.mem child)
  let s := s.store (child + parentOffset) parent
  s.store (child + stateOffset) 0

/-- What follows the copy of the stack. -/
def afterCopy (fuel parent child regs childTop parentTop used : Nat) (s : Logged) : Logged :=
  let s := moveFrame child regs childTop (sub32 childTop parentTop) used s
  let r := relocate childTop parentTop used fuel
    (word s.mem (savedRegs s.mem child + ebpOffset)) s
  if r.2 then finish parent child regs r.1 else r.1

/-- `sys_fork`, after `create_process` has returned `child`. -/
def sysFork (fuel parent child regs : Nat) (s : Logged) : Logged :=
  if child = 0 then s.store (regs + eaxOffset) minusOne
  else
    let s := copyFrame child regs s
    let parentTop := stackTop s.mem parent
    let childTop := stackTop s.mem child
    let used := used s.mem parent regs
    let s := memcpy (sub32 childTop used) (sub32 parentTop used) used s
    afterCopy fuel parent child regs childTop parentTop used s

/-! ## What it may touch -/

def block (p : Nat) : Extent := ⟨p, sizeofProcess⟩

def frameExtent (regs : Nat) : Extent := ⟨regs, sizeofRegisters⟩

def page (base : Nat) : Extent := ⟨base, 4096⟩

/-- The child's control block, its saved frame, its stack page, and `eax` of the
caller's frame. -/
def Allowed (m : Mem) (child regs x : Nat) : Prop :=
  (block child).Has x ∨ (frameExtent (savedRegs m child)).Has x ∨
    (page (userStack m child)).Has x ∨ (⟨regs + eaxOffset, 4⟩ : Extent).Has x

/-- The writes are confined to the child's data and the caller's `eax`, the
copies to the parent's stack page. -/
def Confined (m : Mem) (child regs stack : Nat) (s : Logged) : Prop :=
  Within (Allowed m child regs) (page stack).Has (Logged.start m) s

/-- The child's block, frame and page are newly allocated. -/
structure Fresh (m : Mem) (parent child regs : Nat) : Prop where
  aligned : userStack m child % 4096 = 0
  range : userStack m child + 4096 < 2 ^ 32
  page_block : (page (userStack m child)).Apart (block child)
  page_frame : (page (userStack m child)).Apart (frameExtent (savedRegs m child))
  page_caller : (page (userStack m child)).Apart (frameExtent regs)
  frame_block : (frameExtent (savedRegs m child)).Apart (block child)
  frame_caller : (frameExtent (savedRegs m child)).Apart (frameExtent regs)
  frame_parent : (frameExtent (savedRegs m child)).Apart (block parent)

/-- The used part of the stack `user_stack` names is empty or lies in the page
at `stack`. -/
def InStep (m : Mem) (parent regs stack : Nat) : Prop :=
  used m parent regs = 0 ∨
    stack ≤ word m (regs + userEspOffset) ∧
      word m (regs + userEspOffset) + used m parent regs ≤ stack + 4096

instance (m : Mem) (parent regs stack : Nat) : Decidable (InStep m parent regs stack) := by
  unfold InStep
  infer_instance

/-! ## The phases -/

variable {m : Mem} {parent child regs stack : Nat} {s s' : Logged} {R C : Nat → Prop}

theorem savedRegs_within {p : Nat} (h : Within R C s s')
    (hApart : ∀ x, (block p).Has x → ¬R x) : savedRegs s'.mem p = savedRegs s.mem p :=
  h.word fun x hLow hHigh => hApart x (by
    simp only [Extent.Has, block, sizeofProcess, regsOffset] at *
    omega)

theorem userStack_within {p : Nat} (h : Within R C s s')
    (hApart : ∀ x, (block p).Has x → ¬R x) : userStack s'.mem p = userStack s.mem p :=
  h.word fun x hLow hHigh => hApart x (by
    simp only [Extent.Has, block, sizeofProcess, userStackOffset] at *
    omega)

/-- A store to a field of a frame. -/
theorem store_frame_within {base o : Nat} (v : Nat) (ho : o + 4 ≤ sizeofRegisters) :
    Within (frameExtent base).Has C s (s.store (base + o) v) :=
  store_within v fun x hLow hHigh => by
    simp only [Extent.Has, frameExtent]
    omega

/-- Two frames that are apart. -/
theorem frame_sides {a b : Nat} (h : (frameExtent a).Apart (frameExtent b)) :
    a + sizeofRegisters ≤ b ∨ b + sizeofRegisters ≤ a :=
  h.le (by decide : 0 < sizeofRegisters) (by decide : 0 < sizeofRegisters)

/-- The assignment of one frame to another. -/
theorem assign_frame_within {dst src : Nat} (h : (frameExtent dst).Apart (frameExtent src)) :
    Within (frameExtent dst).Has C s (s.assign dst src 17) := by
  have hSides := frame_sides h
  simp only [sizeofRegisters] at hSides
  refine assign_within (by omega) fun x hLow hHigh => ?_
  simp only [Extent.Has, frameExtent, sizeofRegisters]
  omega

/-- The address of the saved frame is the same throughout the copy. -/
theorem copyFrame_eq (hFresh : Fresh s.mem parent child regs) :
    copyFrame child regs s =
      ((s.assign (savedRegs s.mem child) regs 17).store (savedRegs s.mem child + eaxOffset) 0).store
        (savedRegs s.mem child + userEspOffset)
        (word s.mem (savedRegs s.mem child + userEspOffset)) := by
  have hBlock : ∀ x, (block child).Has x → ¬(frameExtent (savedRegs s.mem child)).Has x :=
    fun x hx hFrame => hFresh.frame_block x hFrame hx
  have hAssign := assign_frame_within (C := fun _ => False) hFresh.frame_caller (s := s)
  have hAssigned := savedRegs_within hAssign hBlock
  have hEax := hAssign.trans (store_frame_within (o := eaxOffset) 0 (by decide))
  have hStored := savedRegs_within hEax hBlock
  unfold copyFrame
  simp only [hAssigned, hStored]

theorem copyFrame_within (hFresh : Fresh s.mem parent child regs) :
    Within (frameExtent (savedRegs s.mem child)).Has C s (copyFrame child regs s) := by
  rw [copyFrame_eq hFresh]
  exact ((assign_frame_within hFresh.frame_caller).trans
    (store_frame_within _ (by decide))).trans (store_frame_within _ (by decide))

/-- `sys_fork` computes the ends of the stacks from what they were before. -/
theorem sysFork_eq (hFresh : Fresh s.mem parent child regs) (hChild : child ≠ 0) (fuel : Nat) :
    sysFork fuel parent child regs s =
      afterCopy fuel parent child regs (stackTop s.mem child) (stackTop s.mem parent)
        (used s.mem parent regs)
        (memcpy (sub32 (stackTop s.mem child) (used s.mem parent regs))
          (sub32 (stackTop s.mem parent) (used s.mem parent regs)) (used s.mem parent regs)
          (copyFrame child regs s)) := by
  have hFrame := copyFrame_within (C := fun _ => False) hFresh
  have hParent : stackTop (copyFrame child regs s).mem parent = stackTop s.mem parent := by
    rw [stackTop, userStack_within hFrame fun x hx h => hFresh.frame_parent x h hx]
    rfl
  have hTop : stackTop (copyFrame child regs s).mem child = stackTop s.mem child := by
    rw [stackTop, userStack_within hFrame fun x hx h => hFresh.frame_block x h hx]
    rfl
  have hUsed : used (copyFrame child regs s).mem parent regs = used s.mem parent regs := by
    rw [used, hParent, hFrame.word fun x hLow hHigh h => hFresh.frame_caller x h (by
      simp only [Extent.Has, frameExtent, sizeofRegisters, userEspOffset] at *
      omega)]
    rfl
  unfold sysFork
  simp only [if_neg hChild, hParent, hTop, hUsed]

/-- **The loop** writes below the child's stack top only. -/
theorem relocate_within {childTop parentTop used : Nat}
    (h : ∀ x, sub32 childTop used ≤ x → x < sub32 childTop 4 + 3 → R x) (fuel frame : Nat) :
    Within R C s (relocate childTop parentTop used fuel frame s).1 := by
  induction fuel generalizing frame s with
  | zero => exact Within.refl R C s
  | succ fuel ih =>
      unfold relocate
      split
      case isFalse => exact Within.refl R C s
      case isTrue hIn =>
        simp only
        split
        case isFalse => exact Within.refl R C s
        case isTrue =>
          exact (store_within _ fun x hLow hHigh => h x (by omega) (by omega)).trans (ih _)

theorem moveFrame_eq {base childTop delta used : Nat} (hRegs : savedRegs s.mem child = base)
    (hBlock : (frameExtent base).Apart (block child))
    (hCaller : (frameExtent base).Apart (frameExtent regs)) :
    moveFrame child regs childTop delta used s =
      (s.store (base + userEspOffset) (sub32 childTop used)).store (base + ebpOffset)
        ((word s.mem (regs + ebpOffset) + delta) % 2 ^ 32) := by
  have hEsp : Within (frameExtent base).Has (fun _ => False) s
      (s.store (base + userEspOffset) (sub32 childTop used)) :=
    store_frame_within _ (by decide)
  have hSaved := savedRegs_within hEsp fun x hx h => hBlock x h hx
  have hEbp := hEsp.word (a := regs + ebpOffset) fun x hLow hHigh h => hCaller x h (by
    simp only [Extent.Has, frameExtent, sizeofRegisters, ebpOffset] at *
    omega)
  unfold moveFrame
  simp only [hRegs, hSaved, hEbp]

theorem moveFrame_within {base childTop delta used : Nat}
    (hRegs : savedRegs s.mem child = base) (hBlock : (frameExtent base).Apart (block child))
    (hCaller : (frameExtent base).Apart (frameExtent regs)) :
    Within (frameExtent base).Has C s (moveFrame child regs childTop delta used s) := by
  rw [moveFrame_eq hRegs hBlock hCaller]
  exact (store_frame_within _ (by decide)).trans (store_frame_within _ (by decide))

/-- The end of `sys_fork` writes the caller's `eax` and the child's block. -/
theorem finish_within :
    Within (fun x => (⟨regs + eaxOffset, 4⟩ : Extent).Has x ∨ (block child).Has x) C s
      (finish parent child regs s) := by
  refine ((store_within _ ?_).trans (store_within _ ?_)).trans (store_within _ ?_)
  · exact fun x hLow hHigh => Or.inl ⟨hLow, hHigh⟩
  · intro x hLow hHigh
    right
    simp only [Extent.Has, block, sizeofProcess, parentOffset] at *
    omega
  · intro x hLow hHigh
    right
    simp only [Extent.Has, block, sizeofProcess, stateOffset] at *
    omega

/-- What follows the copy of the stack only adds to the logs. -/
theorem afterCopy_grows (fuel childTop parentTop used : Nat) :
    Within (fun _ => True) (fun _ => True) s
      (afterCopy fuel parent child regs childTop parentTop used s) := by
  have hStore : ∀ (s : Logged) a v, Within (fun _ => True) (fun _ => True) s (s.store a v) :=
    fun s a v => store_within v fun _ _ _ => trivial
  have hMove : ∀ delta, Within (fun _ => True) (fun _ => True) s
      (moveFrame child regs childTop delta used s) :=
    fun delta => (hStore _ _ _).trans (hStore _ _ _)
  have hLoop : ∀ (s : Logged) frame, Within (fun _ => True) (fun _ => True) s
      (relocate childTop parentTop used fuel frame s).1 :=
    fun s frame => relocate_within (fun _ _ _ => trivial) fuel frame
  unfold afterCopy
  simp only
  split
  · exact ((hMove _).trans (hLoop _ _)).trans
      (((hStore _ _ _).trans (hStore _ _ _)).trans (hStore _ _ _))
  · exact (hMove _).trans (hLoop _ _)

/-! ## Confinement -/

/-- The used part of the stack begins at `user_esp`. -/
theorem sub32_used (m : Mem) (parent regs : Nat) :
    sub32 (stackTop m parent) (used m parent regs) = word m (regs + userEspOffset) := by
  have hEsp := word_lt m (regs + userEspOffset)
  have hTop : stackTop m parent < 2 ^ 32 := Nat.mod_lt _ (by decide)
  unfold used sub32
  omega

/-- The bytes `memcpy` writes and reads, from `user_esp` on. -/
theorem sysFork_logged (hFresh : Fresh m parent child regs) (hChild : child ≠ 0) (fuel : Nat)
    {i : Nat} (hi : i < used m parent regs) :
    ⟨(sub32 (stackTop m child) (used m parent regs) + i) % 2 ^ 32, 1⟩ ∈
        (sysFork fuel parent child regs (Logged.start m)).written ∧
      ⟨(word m (regs + userEspOffset) + i) % 2 ^ 32, 1⟩ ∈
        (sysFork fuel parent child regs (Logged.start m)).copied := by
  rw [sysFork_eq (s := Logged.start m) hFresh hChild, ← sub32_used m parent regs]
  have hCopy := copyBytes_logged (copyFrame child regs (Logged.start m)) (2 ^ 32)
    (sub32 (stackTop m child) (used m parent regs))
    (sub32 (stackTop m parent) (used m parent regs)) hi
  exact ⟨(afterCopy_grows fuel _ _ _).mem_written hCopy.1,
    (afterCopy_grows fuel _ _ _).mem_copied hCopy.2⟩

/-- Copying from a page only needs the whole source in the page. -/
theorem inStep_of_copied (hStack : stack + 4096 ≤ 2 ^ 32)
    (h : ∀ i < used m parent regs,
      (page stack).Has ((word m (regs + userEspOffset) + i) % 2 ^ 32)) :
    InStep m parent regs stack := by
  have hEsp := word_lt m (regs + userEspOffset)
  by_cases hUsed : used m parent regs = 0
  · exact Or.inl hUsed
  · right
    simp only [Extent.Has, page] at h
    have hFirst := h 0 (by omega)
    have hLow : stack ≤ word m (regs + userEspOffset) := by omega
    refine ⟨hLow, ?_⟩
    by_contra hBeyond
    have hLast := h (stack + 4096 - word m (regs + userEspOffset)) (by omega)
    omega

/-- A stack in step is copied from the parent's page into the child's. -/
theorem memcpy_within (hFresh : Fresh m parent child regs) (hStack : stack + 4096 ≤ 2 ^ 32)
    (hStep : InStep m parent regs stack) (s : Logged) :
    Within (page (userStack m child)).Has (page stack).Has s
      (memcpy (sub32 (stackTop m child) (used m parent regs))
        (sub32 (stackTop m parent) (used m parent regs)) (used m parent regs) s) := by
  have hRange := hFresh.range
  have hTop : stackTop m child = userStack m child + 4096 := Nat.mod_eq_of_lt hRange
  rw [sub32_used, hTop]
  rcases hStep with hNone | ⟨hLow, hHigh⟩
  · rw [hNone]
    exact Within.refl _ _ s
  · refine copyBytes_within (fun i hi => ?_) fun i hi => ?_
    · simp only [Extent.Has, page, sub32]
      omega
    · simp only [Extent.Has, page]
      omega

/-- The rest of `sys_fork` writes the child's frame, page and block, and `eax`. -/
theorem afterCopy_within {fuel parentTop used : Nat} (hFresh : Fresh m parent child regs)
    (hUsed : used ≤ 4096) (hRegs : savedRegs s.mem child = savedRegs m child) :
    Within (Allowed m child regs) C s
      (afterCopy fuel parent child regs (stackTop m child) parentTop used s) := by
  have hRange := hFresh.range
  have hTop : stackTop m child = userStack m child + 4096 := Nat.mod_eq_of_lt hRange
  have hFrame : ∀ x, (frameExtent (savedRegs m child)).Has x → Allowed m child regs x :=
    fun x hx => Or.inr (Or.inl hx)
  have hLoop : ∀ (s : Logged) frame, Within (Allowed m child regs) C s
      (relocate (stackTop m child) parentTop used fuel frame s).1 := by
    intro s frame
    refine relocate_within (fun x hLow hHigh => ?_) fuel frame
    rw [hTop] at hLow hHigh
    refine Or.inr (Or.inr (Or.inl ?_))
    simp only [Extent.Has, page]
    unfold sub32 at hLow hHigh
    omega
  have hFinish : ∀ s : Logged, Within (Allowed m child regs) C s (finish parent child regs s) :=
    fun s => finish_within.mono (fun x hx => hx.elim (fun hEax => Or.inr (Or.inr (Or.inr hEax)))
      Or.inl) fun _ hx => hx
  have hMoved : ∀ delta, Within (Allowed m child regs) C s
      (moveFrame child regs (stackTop m child) delta used s) :=
    fun delta => (moveFrame_within hRegs hFresh.frame_block hFresh.frame_caller).mono hFrame
      fun _ hx => hx
  unfold afterCopy
  simp only
  split
  · exact ((hMoved _).trans (hLoop _ _)).trans (hFinish _)
  · exact (hMoved _).trans (hLoop _ _)

/-- For page-aligned stacks: a process that uses a stack page other than the one
`user_stack` names is not in step, whatever of it is in use. -/
theorem inStep_pages (hAligned : userStack m parent % 4096 = 0)
    (hRange : userStack m parent + 4096 < 2 ^ 32) (hPage : stack % 4096 = 0)
    (hLow : stack ≤ word m (regs + userEspOffset))
    (hHigh : word m (regs + userEspOffset) < stack + 4096) :
    InStep m parent regs stack ↔
      userStack m parent = stack ∨ word m (regs + userEspOffset) = userStack m parent + 4096 := by
  have hEsp := word_lt m (regs + userEspOffset)
  have hTop : stackTop m parent = userStack m parent + 4096 := Nat.mod_eq_of_lt hRange
  unfold InStep used sub32
  rw [hTop]
  omega

/-- **When a fork stays within the stacks.**  What `sys_fork` writes and copies is
confined exactly when the creation failed, or the stack that `user_stack` and
`user_esp` delimit is empty or lies in the parent's stack page. -/
theorem fork_confined (m : Mem) (parent child regs stack : Nat) (hStack : stack + 4096 ≤ 2 ^ 32)
    (hFresh : child ≠ 0 → Fresh m parent child regs) :
    (∀ fuel, Confined m child regs stack (sysFork fuel parent child regs (Logged.start m))) ↔
      child = 0 ∨ InStep m parent regs stack := by
  by_cases hChild : child = 0
  · refine ⟨fun _ => Or.inl hChild, fun _ fuel => ?_⟩
    unfold sysFork
    rw [if_pos hChild]
    exact store_within _ fun x hLow hHigh => Or.inr (Or.inr (Or.inr ⟨hLow, hHigh⟩))
  · have hF := hFresh hChild
    have hFrame := copyFrame_within (C := (page stack).Has) (s := Logged.start m) hF
    constructor
    · intro h
      exact Or.inr (inStep_of_copied hStack fun i hi => (h 0).all_copied _
        (sysFork_logged hF hChild 0 hi).2 _ ⟨Nat.le_refl _, Nat.lt_succ_self _⟩)
    · rintro (hZero | hStep) fuel
      · exact absurd hZero hChild
      · have hUsed : used m parent regs ≤ 4096 := by
          rcases hStep with hNone | ⟨hLow, hHigh⟩ <;> omega
        have hCopy := memcpy_within hF hStack hStep (copyFrame child regs (Logged.start m))
        have hSaved := (savedRegs_within hCopy fun x hx h => hF.page_block x h hx).trans
          (savedRegs_within hFrame fun x hx h => hF.frame_block x h hx)
        rw [Confined, sysFork_eq hF hChild]
        refine ((hFrame.mono ?_ fun _ hx => hx).trans (hCopy.mono ?_ fun _ hx => hx)).trans
          (afterCopy_within hF hUsed hSaved)
        · exact fun x hx => Or.inr (Or.inl hx)
        · exact fun x hx => Or.inr (Or.inr (Or.inl hx))

/-- A process that uses the page it was created with forks. -/
def userParent : Mem :=
  setWord (setWord (setWord (setWord (fun _ => 0) (0x26042 + regsOffset) 0x2FFBC)
    (0x26042 + userStackOffset) 0x30000) (0x26009 + userStackOffset) 0x2B000)
    (0x2AFBC + userEspOffset) 0x2BFF0

/-- The same process with `user_esp` a page too low, at its kernel stack. -/
def strayParent : Mem := setWord userParent (0x2AFBC + userEspOffset) 0x2A000

theorem fork_confined_userParent :
    used userParent 0x26009 0x2AFBC = 0x10 ∧
      ∀ fuel, Confined userParent 0x26042 0x2AFBC 0x2B000
        (sysFork fuel 0x26009 0x26042 0x2AFBC (Logged.start userParent)) :=
  ⟨by decide +kernel,
    (fork_confined userParent 0x26009 0x26042 0x2AFBC 0x2B000 (by decide) fun _ =>
      ⟨by decide +kernel, by decide +kernel, by decide +kernel, by decide +kernel,
        by decide +kernel, by decide +kernel, by decide +kernel, by decide +kernel⟩).mpr
      (Or.inr (by decide +kernel))⟩

/-- Two pages are copied: the first one from the parent's kernel stack, and over
the child's. -/
theorem fork_unconfined_strayParent :
    used strayParent 0x26009 0x2AFBC = 0x2000 ∧
    (∃ e ∈ (sysFork 0 0x26009 0x26042 0x2AFBC (Logged.start strayParent)).written,
      e.Has 0x2F000 ∧ ¬Allowed strayParent 0x26042 0x2AFBC 0x2F000) ∧
    ∃ e ∈ (sysFork 0 0x26009 0x26042 0x2AFBC (Logged.start strayParent)).copied,
      e.Has 0x2A000 ∧ ¬(page 0x2B000).Has 0x2A000 := by
  have hFresh : Fresh strayParent 0x26009 0x26042 0x2AFBC :=
    ⟨by decide +kernel, by decide +kernel, by decide +kernel, by decide +kernel,
      by decide +kernel, by decide +kernel, by decide +kernel, by decide +kernel⟩
  have hUsed : used strayParent 0x26009 0x2AFBC = 0x2000 := by decide +kernel
  obtain ⟨hWritten, hCopied⟩ :=
    sysFork_logged hFresh (by decide) 0 (i := 0) (by rw [hUsed]; decide)
  refine ⟨hUsed, ⟨_, hWritten, ?_, ?_⟩, ⟨_, hCopied, ?_, by decide +kernel⟩⟩
  · decide +kernel
  · unfold Allowed
    decide +kernel
  · decide +kernel

end MiniKernel.Ports.Fork
