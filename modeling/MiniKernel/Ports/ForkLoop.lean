import MiniKernel.Ports.Fork

/-!
# The frame pointers sys_fork relocates

`sys_fork` follows the chain of saved frame pointers in the copied stack and moves each
one from the parent's page to the child's.  The words are those the program left there,
so the chain may run into itself, and a word may overlap one that was moved before.

Neither the address nor the length of the chain decreases.  But all moves are by the
same difference: read as one number, the bytes of memory only grow, or only shrink.
That bounds the turns (`relocate_ends`).

A child whose page is the last of the address space has its stack top at `0`, where the
loop's upper bound wraps.  `relocation_exact` says when that takes a word outside the
used stack.
-/

namespace MiniKernel.Ports.ForkLoop

open MiniKernel.Verified.ByteMemory
open MiniKernel.Verified.WordStack
open MiniKernel.Verified.Extents
open MiniKernel.Verified.Footprint
open MiniKernel.Ports.Fork

/-! ## The loop at two pages -/

/-- The stack top of the page at `page`. -/
def pageTop (page : Nat) : Nat := (page + 4096) % 2 ^ 32

/-- The loop of `sys_fork` over the stack pages of the child and of the parent. -/
def relocation (child parent used fuel frame : Nat) (m : Mem) : Logged × Bool :=
  relocate (pageTop child) (pageTop parent) used fuel frame (Logged.start m)

/-- `[child_stack_top - used, child_stack_top)`. -/
def usedStack (child used : Nat) : Extent := ⟨sub32 (pageTop child) used, used⟩

/-- The loop ends, and its writes lie in the child's used stack. -/
def Contained (child parent used frame : Nat) (m : Mem) : Prop :=
  (∃ turns, ∀ fuel ≥ turns, (relocation child parent used fuel frame m).2 = true) ∧
    ∀ fuel, ∀ e ∈ (relocation child parent used fuel frame m).1.written, ∀ x, e.Has x →
      (usedStack child used).Has x

/-- The child's stack is empty and ends where the address space does, and the first
frame holds a pointer into the parent's page. -/
def Escapes (child parent used frame : Nat) (m : Mem) : Prop :=
  child + 4096 = 2 ^ 32 ∧ used = 0 ∧ frame < 2 ^ 32 - 4 ∧
    parent ≤ word m frame ∧ word m frame < parent + 4096

/-! ## One turn -/

variable {child parent used frame : Nat} {s : Logged}

/-- A turn that is made moves one word, within the bounds of the loop. -/
structure Moves (childTop parentTop used frame : Nat) (m : Mem) : Prop where
  low : sub32 childTop used ≤ frame
  high : frame < sub32 childTop 4
  pointer_low : sub32 parentTop 4096 ≤ word m frame
  pointer_high : word m frame < parentTop

theorem relocate_move {childTop parentTop fuel : Nat}
    (h : Moves childTop parentTop used frame s.mem) :
    relocate childTop parentTop used (fuel + 1) frame s =
      relocate childTop parentTop used fuel
        (word (setWord s.mem frame ((word s.mem frame + sub32 childTop parentTop) % 2 ^ 32)) frame)
        (s.store frame ((word s.mem frame + sub32 childTop parentTop) % 2 ^ 32)) := by
  rw [relocate, if_pos ⟨h.low, h.high⟩]
  exact if_pos ⟨h.pointer_low, h.pointer_high⟩

theorem relocate_stop {childTop parentTop fuel : Nat}
    (h : ¬Moves childTop parentTop used frame s.mem) :
    relocate childTop parentTop used (fuel + 1) frame s = (s, true) := by
  rw [relocate]
  by_cases hIn : sub32 childTop used ≤ frame ∧ frame < sub32 childTop 4
  · rw [if_pos hIn]
    exact if_neg fun hPointer => h ⟨hIn.1, hIn.2, hPointer.1, hPointer.2⟩
  · rw [if_neg hIn]

/-- **The loop ends** when some number falls with every turn. -/
theorem relocate_measure {childTop parentTop : Nat} (μ : Mem → Nat)
    (hFalls : ∀ m frame, Moves childTop parentTop used frame m →
      μ (setWord m frame ((word m frame + sub32 childTop parentTop) % 2 ^ 32)) < μ m)
    {fuel : Nat} (hFuel : μ s.mem < fuel) :
    (relocate childTop parentTop used fuel frame s).2 = true := by
  induction fuel generalizing frame s with
  | zero => exact absurd hFuel (Nat.not_lt_zero _)
  | succ fuel ih =>
      by_cases hMoves : Moves childTop parentTop used frame s.mem
      · rw [relocate_move hMoves]
        apply ih
        have hFall := hFalls s.mem frame hMoves
        show μ (setWord s.mem frame _) < fuel
        omega
      · rw [relocate_stop hMoves]

/-! ## The measure -/

/-- All of memory, read as one number. -/
def value (m : Mem) : Nat := load m 0 (2 ^ 32)

/-- The greatest number of that size. -/
def valueBound : Nat := 256 ^ (2 ^ 32)

theorem value_lt (m : Mem) : value m < valueBound := load_lt m (2 ^ 32) 0

/-- The address a frame has in the number. -/
theorem value_setWord {m : Mem} {v : Nat} (hFrame : frame + 4 ≤ 2 ^ 32) (hv : v < 2 ^ 32) :
    value (setWord m frame v) + 256 ^ frame * word m frame = value m + 256 ^ frame * v := by
  have hStored := load_store_region (m := m) (a := 0) (k := frame) hFrame
    (show v < 256 ^ 4 by omega)
  rwa [Nat.zero_add] at hStored

/-- The turns are below the end of the address space. -/
theorem Moves.room {parentTop : Nat} {m : Mem} (hChild : child + 4096 ≤ 2 ^ 32)
    (h : Moves (pageTop child) parentTop used frame m) : frame + 4 ≤ 2 ^ 32 := by
  have hHigh := h.high
  unfold pageTop sub32 at hHigh
  omega

/-- A pointer into the parent's page. -/
theorem Moves.pointer {childTop : Nat} {m : Mem} (hParent : parent + 4096 ≤ 2 ^ 32)
    (h : Moves childTop (pageTop parent) used frame m) :
    parent ≤ word m frame ∧ word m frame < parent + 4096 := by
  have hLow := h.pointer_low
  have hHigh := h.pointer_high
  unfold pageTop sub32 at hLow
  unfold pageTop at hHigh
  omega

/-- Where the pointer goes. -/
theorem Moves.moved {m : Mem} (hChild : child + 4096 ≤ 2 ^ 32) (hParent : parent + 4096 ≤ 2 ^ 32)
    (h : Moves (pageTop child) (pageTop parent) used frame m) :
    (word m frame + sub32 (pageTop child) (pageTop parent)) % 2 ^ 32 =
      child + (word m frame - parent) := by
  have hPointer := h.pointer hParent
  unfold pageTop sub32
  omega

/-- **A child above the parent**: every turn makes the number greater. -/
theorem value_grows {m : Mem} (hChild : child + 4096 ≤ 2 ^ 32) (hAbove : parent < child)
    (h : Moves (pageTop child) (pageTop parent) used frame m) :
    value m < value (setWord m frame
      ((word m frame + sub32 (pageTop child) (pageTop parent)) % 2 ^ 32)) := by
  have hParent : parent + 4096 ≤ 2 ^ 32 := by omega
  have hPointer := h.pointer hParent
  rw [h.moved hChild hParent]
  have hStored := value_setWord (m := m) (h.room hChild)
    (show child + (word m frame - parent) < 2 ^ 32 by omega)
  have hGreater : 256 ^ frame * word m frame <
      256 ^ frame * (child + (word m frame - parent)) :=
    Nat.mul_lt_mul_of_pos_left (by omega) (Nat.pow_pos (by decide))
  omega

/-- **A child below the parent**: every turn makes the number smaller. -/
theorem value_shrinks {m : Mem} (hParent : parent + 4096 ≤ 2 ^ 32) (hBelow : child < parent)
    (h : Moves (pageTop child) (pageTop parent) used frame m) :
    value (setWord m frame
      ((word m frame + sub32 (pageTop child) (pageTop parent)) % 2 ^ 32)) < value m := by
  have hChild : child + 4096 ≤ 2 ^ 32 := by omega
  have hPointer := h.pointer hParent
  rw [h.moved hChild hParent]
  have hStored := value_setWord (m := m) (h.room hChild)
    (show child + (word m frame - parent) < 2 ^ 32 by omega)
  have hSmaller : 256 ^ frame * (child + (word m frame - parent)) <
      256 ^ frame * word m frame :=
    Nat.mul_lt_mul_of_pos_left (by omega) (Nat.pow_pos (by decide))
  omega

/-- **The loop ends**, whatever the stack holds, when the two pages differ. -/
theorem relocate_ends (hChild : child + 4096 ≤ 2 ^ 32) (hParent : parent + 4096 ≤ 2 ^ 32)
    (hPages : child ≠ parent) (used frame : Nat) (s : Logged) :
    ∃ turns, ∀ fuel ≥ turns,
      (relocate (pageTop child) (pageTop parent) used fuel frame s).2 = true := by
  rcases Nat.lt_or_gt_of_ne hPages with hBelow | hAbove
  · exact ⟨value s.mem + 1, fun fuel hFuel =>
      relocate_measure value (fun m frame h => value_shrinks hParent hBelow h) hFuel⟩
  · refine ⟨valueBound - value s.mem + 1, fun fuel hFuel =>
      relocate_measure (fun m => valueBound - value m) (fun m frame h => ?_) hFuel⟩
    have hGrows := value_grows hChild hAbove h
    have hBound := value_lt m
    omega

/-! ## Where the turns write -/

/-- Every extent the loop logs is the word of a turn. -/
theorem relocate_written {childTop parentTop : Nat} (fuel : Nat) {e : Extent}
    (h : e ∈ (relocate childTop parentTop used fuel frame s).1.written) :
    e ∈ s.written ∨ ∃ m a, e = ⟨a, 4⟩ ∧ Moves childTop parentTop used a m := by
  induction fuel generalizing frame s with
  | zero => exact Or.inl h
  | succ fuel ih =>
      by_cases hMoves : Moves childTop parentTop used frame s.mem
      · rw [relocate_move hMoves] at h
        rcases ih h with hLogged | hTurn
        · rcases List.mem_cons.mp hLogged with hHere | hBefore
          · exact Or.inr ⟨s.mem, frame, hHere, hMoves⟩
          · exact Or.inl hBefore
        · exact Or.inr hTurn
      · rw [relocate_stop hMoves] at h
        exact Or.inl h

/-- A turn writes in the used stack, unless that is empty at the end of the address
space. -/
theorem Moves.inside {m : Mem} {x : Nat} (hChild : child + 4096 ≤ 2 ^ 32) (hUsed : used ≤ 4096)
    (h : Moves (pageTop child) (pageTop parent) used frame m)
    (hStack : child + 4096 < 2 ^ 32 ∨ used ≠ 0) (hx : (⟨frame, 4⟩ : Extent).Has x) :
    (usedStack child used).Has x := by
  have hLow := h.low
  have hHigh := h.high
  simp only [Extent.Has, usedStack, pageTop, sub32] at *
  omega

/-- At the end of the address space an empty stack does not stop the first turn. -/
theorem moves_escapes {m : Mem} (hParent : parent + 4096 ≤ 2 ^ 32) (hPages : child ≠ parent) :
    Escapes child parent used frame m ↔
      child + 4096 = 2 ^ 32 ∧ used = 0 ∧ Moves (pageTop child) (pageTop parent) used frame m := by
  constructor
  · rintro ⟨hEnd, hEmpty, hFrame, hPointer⟩
    refine ⟨hEnd, hEmpty, ?_, ?_, ?_, ?_⟩
    all_goals simp only [pageTop, sub32]; omega
  · rintro ⟨hEnd, hEmpty, hMoves⟩
    have hHigh := hMoves.high
    refine ⟨hEnd, hEmpty, ?_, hMoves.pointer hParent⟩
    simp only [pageTop, sub32] at hHigh
    omega

/-- What the first turn writes, if it is made. -/
theorem relocation_first {m : Mem}
    (h : Moves (pageTop child) (pageTop parent) used frame m) :
    (⟨frame, 4⟩ : Extent) ∈ (relocation child parent used 1 frame m).1.written := by
  rw [relocation, relocate_move (s := Logged.start m) h]
  exact List.mem_cons_self

/-- What it writes there is not in an empty stack. -/
theorem not_contained {m : Mem} (hEmpty : used = 0)
    (h : Moves (pageTop child) (pageTop parent) used frame m) :
    ¬Contained child parent used frame m := by
  rintro ⟨-, hWrites⟩
  have hFirst : (⟨frame, 4⟩ : Extent).Has frame := by
    simp only [Extent.Has]
    omega
  have hIn := hWrites 1 _ (relocation_first h) frame hFirst
  simp only [Extent.Has, usedStack] at hIn
  omega

/-- **The relocation ends inside the child's used stack**, for every content of memory
and every first frame, exactly when it does not start past an empty stack at the end of
the address space. -/
theorem relocation_exact (m : Mem) (child parent used frame : Nat)
    (hChild : child + 4096 ≤ 2 ^ 32) (hParent : parent + 4096 ≤ 2 ^ 32) (hPages : child ≠ parent)
    (hUsed : used ≤ 4096) :
    Contained child parent used frame m ↔ ¬Escapes child parent used frame m := by
  rw [moves_escapes hParent hPages]
  constructor
  · rintro hContained ⟨-, hEmpty, hMoves⟩
    exact not_contained hEmpty hMoves hContained
  · intro hStays
    refine ⟨relocate_ends hChild hParent hPages used frame (Logged.start m),
      fun fuel e he x hx => ?_⟩
    by_cases hStack : child + 4096 < 2 ^ 32 ∨ used ≠ 0
    · rcases relocate_written fuel he with hNone | ⟨m', a, rfl, hMoves⟩
      · exact absurd hNone List.not_mem_nil
      · exact hMoves.inside hChild hUsed hStack hx
    · -- The stack is empty, so the loop must have stopped at its first test.
      have hStop : ¬Moves (pageTop child) (pageTop parent) used frame m :=
        fun hMoves => hStays ⟨by omega, by omega, hMoves⟩
      cases fuel with
      | zero => exact absurd he List.not_mem_nil
      | succ fuel =>
          rw [relocation, relocate_stop (s := Logged.start m) hStop] at he
          exact absurd he List.not_mem_nil

/-- A parent with its stack at `0x2B000`, and a saved frame pointer in it. -/
def forkedStack : Mem := setWord (setWord (fun _ => 0) (0x26009 + userStackOffset) 0x2B000)
  0x30FF0 0x2BFF8

/-- A stack that is copied, from its first frame on. -/
theorem relocation_exact_used :
    Contained 0x30000 0x2B000 0x10 0x30FF0 forkedStack ↔
      ¬Escapes 0x30000 0x2B000 0x10 0x30FF0 forkedStack :=
  relocation_exact forkedStack 0x30000 0x2B000 0x10 0x30FF0 (by decide) (by decide) (by decide)
    (by decide)

/-- With the child in the last page, an empty stack and an `ebp` that leads to the
parent's control block, the loop rewrites the parent's own `user_stack`. -/
theorem relocation_escapes :
    word (relocation 0xFFFFF000 0x2B000 0 1 (0x26009 + userStackOffset) forkedStack).1.mem
        (0x26009 + userStackOffset) = 0xFFFFF000 ∧
      ¬Contained 0xFFFFF000 0x2B000 0 (0x26009 + userStackOffset) forkedStack :=
  ⟨by decide +kernel, not_contained rfl ⟨by decide +kernel, by decide +kernel,
    by decide +kernel, by decide +kernel⟩⟩

/-! ## The whole of sys_fork -/

/-- A loop that has ended stays as it is. -/
theorem relocate_more {childTop parentTop turns fuel : Nat}
    (h : (relocate childTop parentTop used turns frame s).2 = true) (hFuel : turns ≤ fuel) :
    relocate childTop parentTop used fuel frame s =
      relocate childTop parentTop used turns frame s := by
  induction turns generalizing fuel frame s with
  | zero => exact absurd h (by simp [relocate])
  | succ turns ih =>
      obtain ⟨fuel, rfl⟩ : ∃ n, fuel = n + 1 := ⟨fuel - 1, by omega⟩
      by_cases hMoves : Moves childTop parentTop used frame s.mem
      · rw [relocate_move hMoves] at h
        rw [relocate_move hMoves, relocate_move hMoves]
        exact ih h (by omega)
      · rw [relocate_stop hMoves, relocate_stop hMoves]

theorem afterCopy_settles {p c : Nat} (hChild : c + 4096 ≤ 2 ^ 32) (hParent : p + 4096 ≤ 2 ^ 32)
    (hPages : c ≠ p) (parent child regs used : Nat) (s : Logged) :
    ∃ turns, ∀ fuel ≥ turns, afterCopy fuel parent child regs (pageTop c) (pageTop p) used s =
      afterCopy turns parent child regs (pageTop c) (pageTop p) used s := by
  unfold afterCopy
  generalize moveFrame child regs (pageTop c) (sub32 (pageTop c) (pageTop p)) used s = s
  obtain ⟨turns, hEnds⟩ := relocate_ends hChild hParent hPages used
    (word s.mem (savedRegs s.mem child + ebpOffset)) s
  refine ⟨turns, fun fuel hFuel => ?_⟩
  simp only [relocate_more (hEnds turns (Nat.le_refl _)) hFuel]

/-- **`sys_fork` returns**: from some number of turns on, more turns change nothing. -/
theorem sysFork_settles {m : Mem} {parent child regs : Nat} (hFresh : Fresh m parent child regs)
    (hParent : userStack m parent + 4096 ≤ 2 ^ 32)
    (hPages : userStack m child ≠ userStack m parent) :
    ∃ turns, ∀ fuel ≥ turns, sysFork fuel parent child regs (Logged.start m) =
      sysFork turns parent child regs (Logged.start m) := by
  by_cases hZero : child = 0
  · refine ⟨0, fun fuel _ => ?_⟩
    unfold sysFork
    rw [if_pos hZero, if_pos hZero]
  · simp only [sysFork_eq (s := Logged.start m) hFresh hZero]
    exact afterCopy_settles (Nat.le_of_lt hFresh.range) hParent hPages parent child regs _ _

end MiniKernel.Ports.ForkLoop
