import MiniKernel.Ports.Fork

/-!
# Frame pointers after a fork

Compiled code keeps the frame pointers of its callers on the stack, each word of
the chain pointing to the next.  The child runs on a copy of the parent's stack in
another page, so `sys_fork` moves `ebp` and the words of the chain along.

The walk ends because a word it has moved points into the child's page.  Two kinds
of parent come out wrong: `ebp` is moved wherever it points, and the word at the
top of the page is passed over (`sysFork_forked_iff`).
-/

namespace MiniKernel.Ports.ForkFrames

open MiniKernel.Verified.ByteMemory
open MiniKernel.Verified.WordStack
open MiniKernel.Verified.Extents
open MiniKernel.Verified.Footprint
open MiniKernel.Ports.ProcessTable (sizeofRegisters)
open MiniKernel.Ports.Fork

/-! ## The chain -/

def userEsp (m : Mem) (regs : Nat) : Nat := word m (regs + userEspOffset)

def ebp (m : Mem) (regs : Nat) : Nat := word m (regs + ebpOffset)

/-- The address lies in the process's stack page. -/
def Points (m : Mem) (p a : Nat) : Prop := (page (userStack m p)).Has a

/-- The word at the address lies in the used part of the parent's stack. -/
def InUse (m : Mem) (parent regs a : Nat) : Prop :=
  userEsp m regs ≤ a ∧ a + 4 ≤ userStack m parent + 4096

/-- **The chain from `ebp`**: where the saved frame pointers lie, as long as they
are in the used part of the stack. -/
inductive Chain (m : Mem) (parent regs : Nat) : Nat → Prop
  | start : InUse m parent regs (ebp m regs) → Chain m parent regs (ebp m regs)
  | saved {c : Nat} : Chain m parent regs c → InUse m parent regs (word m c) →
      Chain m parent regs (word m c)

/-- Where an address of the parent's page lies in the child's. -/
def shifted (m : Mem) (parent child a : Nat) : Nat :=
  userStack m child + (a - userStack m parent)

/-- `child_stack_top - parent_stack_top`. -/
def delta (m : Mem) (parent child : Nat) : Nat := sub32 (stackTop m child) (stackTop m parent)

/-- A process with `user_esp` in its stack page forks. -/
structure Forking (m : Mem) (parent child regs : Nat) : Prop
    extends Fresh m parent child regs where
  created : child ≠ 0
  parent_aligned : userStack m parent % 4096 = 0
  parent_range : userStack m parent + 4096 < 2 ^ 32
  esp_low : userStack m parent ≤ userEsp m regs
  esp_high : userEsp m regs ≤ userStack m parent + 4096
  page_parent : (page (userStack m parent)).Apart (page (userStack m child))
  parent_frame : (page (userStack m parent)).Apart (frameExtent (savedRegs m child))

/-- The saved frame pointers are on word boundaries. -/
def AlignedChain (m : Mem) (parent regs : Nat) : Prop :=
  ∀ c, Chain m parent regs c → c % 4 = 0

/-- What `m'` says of the child is what `m` says of the parent, moved to the
child's stack. -/
structure Forked (m m' : Mem) (parent child regs : Nat) : Prop where
  /-- The rest of the frame. -/
  frame : ∀ i < 17, 4 * i ≠ eaxOffset → 4 * i ≠ userEspOffset → 4 * i ≠ ebpOffset →
    word m' (savedRegs m child + 4 * i) = word m (regs + 4 * i)
  eax : word m' (savedRegs m child + eaxOffset) = 0
  userEsp : word m' (savedRegs m child + userEspOffset) =
    shifted m parent child (userEsp m regs)
  ebp_moved : Points m parent (ebp m regs) →
    word m' (savedRegs m child + ebpOffset) = shifted m parent child (ebp m regs)
  ebp_kept : ¬Points m parent (ebp m regs) →
    word m' (savedRegs m child + ebpOffset) = ebp m regs
  /-- Words of the chain that point into the parent's page. -/
  moved : ∀ c, Chain m parent regs c → Points m parent (word m c) →
    word m' (shifted m parent child c) = shifted m parent child (word m c)
  /-- All other bytes of the stack. -/
  copied : ∀ x, ForkFrames.userEsp m regs ≤ x → x < userStack m parent + 4096 →
    (∀ c, Chain m parent regs c → Points m parent (word m c) → x < c ∨ c + 4 ≤ x) →
    m' (shifted m parent child x) = m x
  /-- The child's chain does not come back to the parent's page. -/
  apart : ∀ c, Chain m parent regs c → ¬Points m parent (word m' (shifted m parent child c))

/-! ## Addresses of the two pages -/

section Addresses

variable {m : Mem} {parent child regs a b : Nat}

theorem stackTop_eq {p : Nat} (h : userStack m p + 4096 < 2 ^ 32) :
    stackTop m p = userStack m p + 4096 := Nat.mod_eq_of_lt h

theorem used_eq (h : Forking m parent child regs) :
    used m parent regs = userStack m parent + 4096 - userEsp m regs := by
  have hRange := h.parent_range
  have hLow := h.esp_low
  have hHigh := h.esp_high
  unfold used sub32
  rw [stackTop_eq h.parent_range]
  unfold userEsp at *
  omega

theorem sides (h : Forking m parent child regs) :
    userStack m parent + 4096 ≤ userStack m child ∨
      userStack m child + 4096 ≤ userStack m parent :=
  h.page_parent.le (by decide : 0 < 4096) (by decide : 0 < 4096)

/-- Adding `delta` moves an address of the page. -/
theorem add_delta (h : Forking m parent child regs) (hPoints : Points m parent a) :
    (a + delta m parent child) % 2 ^ 32 = shifted m parent child a := by
  have hParent := h.parent_range
  have hChild := h.range
  have hSides := sides h
  simp only [Points, Extent.Has, page] at hPoints
  unfold delta shifted sub32
  rw [stackTop_eq h.parent_range, stackTop_eq h.range]
  omega

/-- Adding `delta` changes every address. -/
theorem add_delta_ne (h : Forking m parent child regs) :
    (a + delta m parent child) % 2 ^ 32 ≠ a := by
  have hParent := h.parent_range
  have hChild := h.range
  have hSides := sides h
  unfold delta sub32
  rw [stackTop_eq h.parent_range, stackTop_eq h.range]
  omega

/-- The guard of the loop, of the moved address. -/
theorem guard_iff (h : Forking m parent child regs) (ha : a < 2 ^ 32) :
    sub32 (stackTop m child) (used m parent regs) ≤ (a + delta m parent child) % 2 ^ 32 ∧
        (a + delta m parent child) % 2 ^ 32 < sub32 (stackTop m child) 4 ↔
      userEsp m regs ≤ a ∧ a < userStack m parent + 4092 := by
  have hParent := h.parent_range
  have hChild := h.range
  have hLow := h.esp_low
  have hHigh := h.esp_high
  have hSides := sides h
  rw [used_eq h]
  unfold delta sub32
  rw [stackTop_eq h.parent_range, stackTop_eq h.range]
  omega

theorem points_iff (h : Forking m parent child regs) :
    sub32 (stackTop m parent) 4096 ≤ a ∧ a < stackTop m parent ↔ Points m parent a := by
  have hParent := h.parent_range
  simp only [Points, Extent.Has, page]
  unfold sub32
  rw [stackTop_eq h.parent_range]
  omega

theorem InUse.points (h : Forking m parent child regs) (hUse : InUse m parent regs a) :
    Points m parent a := by
  have hLow := h.esp_low
  simp only [Points, Extent.Has, page]
  unfold InUse at hUse
  omega

theorem Chain.inUse (h : Chain m parent regs a) : InUse m parent regs a := by
  cases h with
  | start hUse => exact hUse
  | saved _ hUse => exact hUse

/-- An aligned word of the used part is below the top word or is it. -/
theorem Chain.top_or_low (h : Forking m parent child regs) (hAligned : AlignedChain m parent regs)
    (hChain : Chain m parent regs a) :
    a = userStack m parent + 4092 ∨ a + 8 ≤ userStack m parent + 4096 := by
  have hWord := hAligned a hChain
  have hPage := h.parent_aligned
  have hUse := hChain.inUse
  unfold InUse at hUse
  omega

theorem shifted_page (h : Forking m parent child regs) (hPoints : Points m parent a) :
    ¬Points m parent (shifted m parent child a) := by
  have hSides := sides h
  simp only [Points, Extent.Has, page] at *
  unfold shifted
  omega

theorem shifted_lt (h : Forking m parent child regs) (hPoints : Points m parent a) :
    shifted m parent child a < 2 ^ 32 := by
  have hChild := h.range
  simp only [Points, Extent.Has, page] at *
  unfold shifted
  omega

end Addresses

/-! ## The walk -/

/-- The loop moves the word there when it comes to it. -/
def Qualifies (m : Mem) (parent regs a : Nat) : Prop :=
  userEsp m regs ≤ a ∧ a < userStack m parent + 4092 ∧ Points m parent (word m a)

/-- `ebp` or one of the words at `vs`. -/
def Known (m : Mem) (regs : Nat) (vs : List Nat) (a : Nat) : Prop :=
  a = ebp m regs ∨ ∃ v ∈ vs, a = word m v

/-- The loop started on `m₁` and has moved the words of the chain at `vs`. -/
structure Walked (m m₁ : Mem) (parent child regs : Nat) (vs : List Nat) (s : Logged) : Prop where
  nodup : vs.Nodup
  chain : ∀ v ∈ vs, Chain m parent regs v
  low : ∀ v ∈ vs, v + 8 ≤ userStack m parent + 4096
  points : ∀ v ∈ vs, Points m parent (word m v)
  moved : ∀ v ∈ vs, word s.mem (shifted m parent child v) = shifted m parent child (word m v)
  rest : ∀ x, (∀ v ∈ vs, x < shifted m parent child v ∨ shifted m parent child v + 4 ≤ x) →
    s.mem x = m₁ x

section Walk

variable {m m₁ : Mem} {parent child regs c : Nat} {vs : List Nat} {s : Logged}

theorem Walked.start (m : Mem) (parent child regs : Nat) (s : Logged) :
    Walked m s.mem parent child regs [] s :=
  ⟨List.nodup_nil, by simp, by simp, by simp, by simp, fun _ _ => rfl⟩

theorem Walked.page (h : Forking m parent child regs)
    (hWalk : Walked m m₁ parent child regs vs s) {v : Nat} (hv : v ∈ vs) :
    userStack m parent ≤ v ∧ v + 8 ≤ userStack m parent + 4096 := by
  have hPoints := (hWalk.chain v hv).inUse.points h
  simp only [Points, Extent.Has, Fork.page] at hPoints
  exact ⟨hPoints.1, hWalk.low v hv⟩

/-- A page has 1024 words. -/
theorem Walked.length_le (h : Forking m parent child regs)
    (hAligned : AlignedChain m parent regs) (hWalk : Walked m m₁ parent child regs vs s) :
    vs.length ≤ 1024 := by
  have hNodup : (vs.map fun v => (v - userStack m parent) / 4).Nodup := by
    refine hWalk.nodup.map_on fun v hv w hw hEq => ?_
    have hPage := h.parent_aligned
    have hv4 := hAligned v (hWalk.chain v hv)
    have hw4 := hAligned w (hWalk.chain w hw)
    have hvPage := hWalk.page h hv
    have hwPage := hWalk.page h hw
    omega
  have hSub : (vs.map fun v => (v - userStack m parent) / 4) ⊆ List.range 1024 := by
    intro k hk
    obtain ⟨v, hv, rfl⟩ := List.mem_map.mp hk
    have hvPage := hWalk.page h hv
    exact List.mem_range.mpr (by omega)
  have hLength := (List.subperm_of_subset hNodup hSub).length_le
  rwa [List.length_map, List.length_range] at hLength

/-- Where `ebp` and the saved frame pointers lead belongs to the chain. -/
theorem Walked.known_chain (hWalk : Walked m m₁ parent child regs vs s)
    (hKnown : Known m regs vs c) (hUse : InUse m parent regs c) : Chain m parent regs c := by
  rcases hKnown with rfl | ⟨v, hv, rfl⟩
  · exact Chain.start hUse
  · exact Chain.saved (hWalk.chain v hv) hUse

/-- Another word of the chain lies apart from those moved. -/
theorem Walked.apart (h : Forking m parent child regs) (hAligned : AlignedChain m parent regs)
    (hWalk : Walked m m₁ parent child regs vs s) (hChain : Chain m parent regs c)
    (hNew : c ∉ vs) {v : Nat} (hv : v ∈ vs) :
    shifted m parent child c + 4 ≤ shifted m parent child v ∨
      shifted m parent child v + 4 ≤ shifted m parent child c := by
  have hv4 := hAligned v (hWalk.chain v hv)
  have hc4 := hAligned c hChain
  have hvPage := hWalk.page h hv
  have hcPage := hChain.inUse.points h
  have hNe : v ≠ c := fun hEq => hNew (hEq ▸ hv)
  simp only [Points, Extent.Has, Fork.page] at hcPage
  unfold shifted
  omega

/-- The child's stack is a copy of the parent's. -/
def Copied (m m₁ : Mem) (parent child regs : Nat) : Prop :=
  ∀ x, userEsp m regs ≤ x → x < userStack m parent + 4096 →
    m₁ (shifted m parent child x) = m x

theorem Copied.word_eq (h : Forking m parent child regs)
    (hCopy : Copied m m₁ parent child regs) (hUse : InUse m parent regs c) :
    word m₁ (shifted m parent child c) = word m c := by
  have hLow := h.esp_low
  obtain ⟨hEsp, hTop⟩ := hUse
  refine word_move fun i hi => ?_
  rw [show shifted m parent child c + i = shifted m parent child (c + i) by
    unfold shifted
    omega]
  exact hCopy _ (by omega) (by omega)

/-- A word of the chain that has not been moved reads as in the parent. -/
theorem Walked.unmoved (h : Forking m parent child regs) (hAligned : AlignedChain m parent regs)
    (hCopy : Copied m m₁ parent child regs) (hWalk : Walked m m₁ parent child regs vs s)
    (hChain : Chain m parent regs c) (hNew : c ∉ vs) :
    word s.mem (shifted m parent child c) = word m c := by
  rw [← hCopy.word_eq h hChain.inUse]
  refine word_congr fun x hLow hHigh => hWalk.rest x fun v hv => ?_
  have hApart := hWalk.apart h hAligned hChain hNew hv
  omega

/-- One more word of the chain is moved. -/
theorem Walked.step (h : Forking m parent child regs) (hAligned : AlignedChain m parent regs)
    (hWalk : Walked m m₁ parent child regs vs s) (hChain : Chain m parent regs c)
    (hNew : c ∉ vs) (hLow : c + 8 ≤ userStack m parent + 4096)
    (hPoints : Points m parent (word m c)) :
    Walked m m₁ parent child regs (c :: vs)
      (s.store (shifted m parent child c) (shifted m parent child (word m c))) where
  nodup := List.nodup_cons.mpr ⟨hNew, hWalk.nodup⟩
  chain := List.forall_mem_cons.mpr ⟨hChain, hWalk.chain⟩
  low := List.forall_mem_cons.mpr ⟨hLow, hWalk.low⟩
  points := List.forall_mem_cons.mpr ⟨hPoints, hWalk.points⟩
  moved := by
    refine List.forall_mem_cons.mpr ⟨word_setWord (shifted_lt h hPoints), fun v hv => ?_⟩
    have hApart := hWalk.apart h hAligned hChain hNew hv
    rw [← hWalk.moved v hv]
    exact word_congr fun x hLow hHigh => setWord_apart (by omega)
  rest x hx := by
    obtain ⟨hFirst, hOthers⟩ := List.forall_mem_cons.mp hx
    rw [← hWalk.rest x hOthers]
    exact setWord_apart (by omega)

/-- Everything the loop would still move is where it is about to look. -/
def Pending (m : Mem) (parent regs : Nat) (vs : List Nat) (c : Nat) : Prop :=
  ∀ q, Known m regs vs q → Qualifies m parent regs q → q ∈ vs ∨ q = c

/-- **The loop ends**, after at most 1024 turns, when nothing is left to move. -/
theorem relocate_walked (h : Forking m parent child regs) (hAligned : AlignedChain m parent regs)
    (hCopy : Copied m m₁ parent child regs) : ∀ fuel {vs : List Nat} {c : Nat} {s : Logged},
    Walked m m₁ parent child regs vs s → Known m regs vs c → Pending m parent regs vs c →
    1024 < fuel + vs.length →
    ∃ ws s', relocate (stackTop m child) (stackTop m parent) (used m parent regs) fuel
        ((c + delta m parent child) % 2 ^ 32) s = (s', true) ∧
      Walked m m₁ parent child regs ws s' ∧
      ∀ q, Known m regs ws q → Qualifies m parent regs q → q ∈ ws := by
  intro fuel
  induction fuel with
  | zero =>
      intro vs c s hWalk _ _ hFuel
      have hLength := hWalk.length_le h hAligned
      omega
  | succ fuel ih =>
      intro vs c s hWalk hKnown hPending hFuel
      have hStop : ¬Qualifies m parent regs c ∨ c ∈ vs →
          ∀ q, Known m regs vs q → Qualifies m parent regs q → q ∈ vs := by
        intro hDone q hq hQualifies
        rcases hPending q hq hQualifies with hMem | rfl
        · exact hMem
        · exact hDone.resolve_left fun hNot => hNot hQualifies
      have hBound : c < 2 ^ 32 := by
        rcases hKnown with rfl | ⟨v, -, rfl⟩
        · exact word_lt _ _
        · exact word_lt _ _
      unfold relocate
      split
      case isFalse hOut =>
        rw [guard_iff h hBound] at hOut
        exact ⟨vs, s, rfl, hWalk, hStop (Or.inl fun hQ => hOut ⟨hQ.1, hQ.2.1⟩)⟩
      case isTrue hIn =>
        rw [guard_iff h hBound] at hIn
        obtain ⟨hEsp, hTop⟩ := hIn
        have hUse : InUse m parent regs c := ⟨hEsp, by omega⟩
        have hChain := hWalk.known_chain hKnown hUse
        have hLow : c + 8 ≤ userStack m parent + 4096 :=
          (hChain.top_or_low h hAligned).resolve_left (by omega)
        rw [add_delta h (hUse.points h)]
        simp only
        by_cases hMem : c ∈ vs
        · -- The walk has come back to a word it has moved.
          have hBack := shifted_page h (hWalk.points c hMem)
          rw [← points_iff h] at hBack
          rw [hWalk.moved c hMem, if_neg hBack]
          exact ⟨vs, s, rfl, hWalk, hStop (Or.inr hMem)⟩
        · rw [hWalk.unmoved h hAligned hCopy hChain hMem]
          split
          case isFalse hOut =>
            rw [points_iff h] at hOut
            exact ⟨vs, s, rfl, hWalk, hStop (Or.inl fun hQ => hOut hQ.2.2)⟩
          case isTrue hPoints =>
            rw [points_iff h] at hPoints
            have hStep := hWalk.step h hAligned hChain hMem hLow hPoints
            have hValue := add_delta h hPoints
            rw [delta] at hValue
            rw [hValue]
            have hNext : word (s.store (shifted m parent child c)
                (shifted m parent child (word m c))).mem (shifted m parent child c) =
                (word m c + delta m parent child) % 2 ^ 32 :=
              (word_setWord (shifted_lt h hPoints)).trans (add_delta h hPoints).symm
            rw [hNext]
            refine ih hStep (Or.inr ⟨c, List.mem_cons_self, rfl⟩) ?_
              (by rw [List.length_cons]; omega)
            intro q hq hQualifies
            rcases hq with rfl | ⟨v, hv, rfl⟩
            · left
              rcases hPending _ (Or.inl rfl) hQualifies with hOld | hHere
              · exact List.mem_cons_of_mem _ hOld
              · exact hHere ▸ List.mem_cons_self
            · rcases List.mem_cons.mp hv with rfl | hv
              · exact Or.inr rfl
              · left
                rcases hPending _ (Or.inr ⟨v, hv, rfl⟩) hQualifies with hOld | hHere
                · exact List.mem_cons_of_mem _ hOld
                · exact hHere ▸ List.mem_cons_self

end Walk

/-! ## Before and after the walk -/

section Fork

variable {m : Mem} {parent child regs a : Nat} {s : Logged}

/-- The state after `memcpy`. -/
def stackCopied (m : Mem) (parent child regs : Nat) : Logged :=
  memcpy (sub32 (stackTop m child) (used m parent regs))
    (sub32 (stackTop m parent) (used m parent regs)) (used m parent regs)
    (copyFrame child regs (Logged.start m))

/-- The state in which the loop over saved frame pointers begins. -/
def prepared (m : Mem) (parent child regs : Nat) : Logged :=
  moveFrame child regs (stackTop m child) (delta m parent child) (used m parent regs)
    (stackCopied m parent child regs)

/-- What `memcpy` leaves, and the rest of memory as it was. -/
theorem memcpy_apply (h : Forking m parent child regs) (s : Logged) (x : Nat) :
    (memcpy (sub32 (stackTop m child) (used m parent regs))
        (sub32 (stackTop m parent) (used m parent regs)) (used m parent regs) s).mem x =
      if shifted m parent child (userEsp m regs) ≤ x ∧ x < userStack m child + 4096 then
        s.mem (userEsp m regs + (x - shifted m parent child (userEsp m regs)))
      else s.mem x := by
  have hParent := h.parent_range
  have hChild := h.range
  have hLow := h.esp_low
  have hHigh := h.esp_high
  have hSides := sides h
  have hDst : sub32 (stackTop m child) (used m parent regs) =
      shifted m parent child (userEsp m regs) := by
    rw [used_eq h, stackTop_eq h.range]
    unfold sub32 shifted
    omega
  have hEnd : shifted m parent child (userEsp m regs) + used m parent regs =
      userStack m child + 4096 := by
    rw [used_eq h]
    unfold shifted
    omega
  rw [hDst, sub32_used, ← hEnd]
  refine copyBytes_apply s ?_ ?_ ?_ _ (Nat.le_refl _) x
  · rw [hEnd]
    omega
  · rw [used_eq h]
    unfold userEsp at *
    omega
  · rw [hEnd, used_eq h]
    unfold shifted userEsp at *
    omega

theorem memcpy_frame (h : Forking m parent child regs) (s : Logged) :
    Within (page (userStack m child)).Has (fun _ => True) s
      (memcpy (sub32 (stackTop m child) (used m parent regs))
        (sub32 (stackTop m parent) (used m parent regs)) (used m parent regs) s) := by
  have hStep : InStep m parent regs (userStack m parent) := by
    have hLow := h.esp_low
    have hHigh := h.esp_high
    right
    rw [used_eq h]
    unfold userEsp at *
    omega
  exact (memcpy_within h.toFresh h.parent_range.le hStep s).mono (fun _ hx => hx)
    fun _ _ => trivial

/-- The child's frame before its stack is known. -/
theorem copyFrame_start (h : Forking m parent child regs) :
    copyFrame child regs (Logged.start m) =
      (((Logged.start m).assign (savedRegs m child) regs 17).store
        (savedRegs m child + eaxOffset) 0).store (savedRegs m child + userEspOffset)
          (word m (savedRegs m child + userEspOffset)) :=
  @copyFrame_eq parent child regs (Logged.start m) h.toFresh

/-- Words of the copied frame, `eax` and `user_esp` apart. -/
theorem copyFrame_word (h : Forking m parent child regs) {i : Nat} (hi : i < 17)
    (hEax : 4 * i ≠ eaxOffset) (hEsp : 4 * i ≠ userEspOffset) :
    word (copyFrame child regs (Logged.start m)).mem (savedRegs m child + 4 * i) =
      word m (regs + 4 * i) := by
  have hSides := frame_sides h.frame_caller
  simp only [sizeofRegisters] at hSides
  rw [copyFrame_start h]
  refine word_move fun j hj => ?_
  simp only [eaxOffset, userEspOffset] at *
  rw [store_apart _ (by omega), store_apart _ (by omega), assign_apply (by omega),
    if_pos (by omega)]
  change m _ = m _
  congr 1
  omega

theorem copyFrame_eax (h : Forking m parent child regs) :
    word (copyFrame child regs (Logged.start m)).mem (savedRegs m child + eaxOffset) = 0 := by
  rw [copyFrame_start h]
  refine (word_congr fun x hLow hHigh => store_apart _ ?_).trans (word_setWord (by decide))
  simp only [userEspOffset, eaxOffset] at *
  omega

/-- The child's frame does not lie in its stack page. -/
theorem stackCopied_frame (h : Forking m parent child regs) {o : Nat} (ho : o + 4 ≤ sizeofRegisters) :
    word (stackCopied m parent child regs).mem (savedRegs m child + o) =
      word (copyFrame child regs (Logged.start m)).mem (savedRegs m child + o) :=
  (memcpy_frame h _).word fun x hLow hHigh hPage => h.page_frame x hPage (by
    simp only [Extent.Has, frameExtent]
    omega)

theorem copyFrame_start_within (h : Forking m parent child regs) :
    Within (frameExtent (savedRegs m child)).Has (fun _ => True) (Logged.start m)
      (copyFrame child regs (Logged.start m)) :=
  @copyFrame_within parent child regs (Logged.start m) _ h.toFresh

theorem stackCopied_savedRegs (h : Forking m parent child regs) :
    savedRegs (stackCopied m parent child regs).mem child = savedRegs m child :=
  (savedRegs_within (memcpy_frame h _) fun x hx hPage => h.page_block x hPage hx).trans
    (savedRegs_within (copyFrame_start_within h) fun x hx hFrame => h.frame_block x hFrame hx)

/-- The caller's frame is as it was. -/
theorem stackCopied_caller (h : Forking m parent child regs) :
    word (stackCopied m parent child regs).mem (regs + ebpOffset) = ebp m regs := by
  have hIn : ∀ x, regs + ebpOffset ≤ x → x < regs + ebpOffset + 4 → (frameExtent regs).Has x := by
    intro x hLow hHigh
    simp only [Extent.Has, frameExtent, sizeofRegisters, ebpOffset] at *
    omega
  exact ((memcpy_frame h _).word fun x hLow hHigh hPage =>
    h.page_caller x hPage (hIn x hLow hHigh)).trans
      ((copyFrame_start_within h).word fun x hLow hHigh hFrame =>
        h.frame_caller x hFrame (hIn x hLow hHigh))

theorem prepared_eq (h : Forking m parent child regs) :
    prepared m parent child regs =
      ((stackCopied m parent child regs).store (savedRegs m child + userEspOffset)
        (shifted m parent child (userEsp m regs))).store (savedRegs m child + ebpOffset)
          ((ebp m regs + delta m parent child) % 2 ^ 32) := by
  have hLow := h.esp_low
  have hHigh := h.esp_high
  have hChild := h.range
  have hEsp : sub32 (stackTop m child) (used m parent regs) =
      shifted m parent child (userEsp m regs) := by
    rw [used_eq h, stackTop_eq h.range]
    unfold sub32 shifted
    omega
  rw [prepared, moveFrame_eq (stackCopied_savedRegs h) h.frame_block h.frame_caller, hEsp,
    stackCopied_caller h]

theorem prepared_within (h : Forking m parent child regs) :
    Within (frameExtent (savedRegs m child)).Has (fun _ => True)
      (stackCopied m parent child regs) (prepared m parent child regs) :=
  moveFrame_within (stackCopied_savedRegs h) h.frame_block h.frame_caller

theorem prepared_savedRegs (h : Forking m parent child regs) :
    savedRegs (prepared m parent child regs).mem child = savedRegs m child :=
  (savedRegs_within (prepared_within h) fun x hx hFrame => h.frame_block x hFrame hx).trans
    (stackCopied_savedRegs h)

theorem prepared_ebp (h : Forking m parent child regs) :
    word (prepared m parent child regs).mem (savedRegs m child + ebpOffset) =
      (ebp m regs + delta m parent child) % 2 ^ 32 := by
  rw [prepared_eq h]
  exact word_setWord (Nat.mod_lt _ (by decide))

theorem prepared_userEsp (h : Forking m parent child regs) :
    word (prepared m parent child regs).mem (savedRegs m child + userEspOffset) =
      shifted m parent child (userEsp m regs) := by
  have hHigh := h.esp_high
  have hLow := h.esp_low
  have hChild := h.range
  rw [prepared_eq h]
  refine (word_congr fun x hLow hHigh => store_apart _ ?_).trans (word_setWord ?_)
  · simp only [userEspOffset, ebpOffset] at *
    omega
  · unfold shifted
    omega

theorem prepared_word (h : Forking m parent child regs) {i : Nat} (hi : i < 17)
    (hEsp : 4 * i ≠ userEspOffset) (hEbp : 4 * i ≠ ebpOffset) :
    word (prepared m parent child regs).mem (savedRegs m child + 4 * i) =
      word (copyFrame child regs (Logged.start m)).mem (savedRegs m child + 4 * i) := by
  rw [← stackCopied_frame h (show 4 * i + 4 ≤ sizeofRegisters by unfold sizeofRegisters; omega),
    prepared_eq h]
  simp only [userEspOffset, ebpOffset] at hEsp hEbp
  refine word_congr fun x hLow hHigh => (store_apart _ ?_).trans (store_apart _ ?_)
  · simp only [ebpOffset]
    omega
  · simp only [userEspOffset]
    omega

/-- The used part of the stack has been copied. -/
theorem prepared_copied (h : Forking m parent child regs) :
    Copied m (prepared m parent child regs).mem parent child regs := by
  intro x hLow hHigh
  have hEsp := h.esp_low
  have hPage : (page (userStack m child)).Has (shifted m parent child x) := by
    simp only [Extent.Has, page]
    unfold shifted
    omega
  have hParent : (page (userStack m parent)).Has x := by
    simp only [Extent.Has, page]
    omega
  rw [(prepared_within h).frame _ (h.page_frame _ hPage), stackCopied, memcpy_apply h,
    if_pos (by unfold shifted; omega), show userEsp m regs + (shifted m parent child x -
      shifted m parent child (userEsp m regs)) = x by unfold shifted; omega]
  exact (copyFrame_start_within h).frame x (h.parent_frame x hParent)

/-- **The walk of a fork**, from what `prepared` left on. -/
theorem sysFork_walked (h : Forking m parent child regs) (hAligned : AlignedChain m parent regs)
    {fuel : Nat} (hFuel : 1024 < fuel) :
    ∃ ws s', sysFork fuel parent child regs (Logged.start m) = finish parent child regs s' ∧
      Walked m (prepared m parent child regs).mem parent child regs ws s' ∧
      ∀ q, Known m regs ws q → Qualifies m parent regs q → q ∈ ws := by
  have hStart : Walked m (prepared m parent child regs).mem parent child regs []
      (prepared m parent child regs) := Walked.start m parent child regs _
  have hPending : Pending m parent regs [] (ebp m regs) := by
    rintro q (rfl | ⟨v, hv, -⟩) -
    · exact Or.inr rfl
    · exact absurd hv List.not_mem_nil
  obtain ⟨ws, s', hRun, hWalk, hClosed⟩ := relocate_walked h hAligned (prepared_copied h) fuel
    hStart (Or.inl rfl) hPending (by simpa using hFuel)
  refine ⟨ws, s', ?_, hWalk, hClosed⟩
  have hEq : sysFork fuel parent child regs (Logged.start m) =
      afterCopy fuel parent child regs (stackTop m child) (stackTop m parent)
        (used m parent regs) (stackCopied m parent child regs) :=
    @sysFork_eq parent child regs (Logged.start m) h.toFresh h.created fuel
  have hLoop : relocate (stackTop m child) (stackTop m parent) (used m parent regs) fuel
      (word (prepared m parent child regs).mem
        (savedRegs (prepared m parent child regs).mem child + ebpOffset))
      (prepared m parent child regs) = (s', true) := by
    rw [prepared_savedRegs h, prepared_ebp h]
    exact hRun
  unfold prepared delta at hLoop
  rw [hEq]
  unfold afterCopy
  simp only [hLoop, if_true]

/-- The end of `sys_fork` touches neither the child's stack nor its frame. -/
theorem finish_apart (h : Forking m parent child regs) {x : Nat}
    (hx : (page (userStack m child)).Has x ∨ (frameExtent (savedRegs m child)).Has x) :
    (finish parent child regs s).mem x = s.mem x := by
  refine (@finish_within parent child regs s fun _ => True).frame x ?_
  rintro (hEax | hBlock)
  · have hCaller : (frameExtent regs).Has x := by
      simp only [Extent.Has, frameExtent, sizeofRegisters, eaxOffset] at *
      omega
    exact hx.elim (fun hPage => h.page_caller x hPage hCaller)
      fun hFrame => h.frame_caller x hFrame hCaller
  · exact hx.elim (fun hPage => h.page_block x hPage hBlock)
      fun hFrame => h.frame_block x hFrame hBlock

variable {m₁ : Mem} {ws : List Nat} {c : Nat}

/-- Neither does the walk touch the frame. -/
theorem Walked.frame (h : Forking m parent child regs)
    (hWalk : Walked m m₁ parent child regs ws s) {o : Nat} (ho : o + 4 ≤ sizeofRegisters) :
    word (finish parent child regs s).mem (savedRegs m child + o) =
      word m₁ (savedRegs m child + o) := by
  refine word_congr fun x hLow hHigh => ?_
  have hFrame : (frameExtent (savedRegs m child)).Has x := by
    simp only [Extent.Has, frameExtent]
    omega
  rw [finish_apart h (Or.inr hFrame)]
  refine hWalk.rest x fun v hv => ?_
  have hvPage := hWalk.page h hv
  by_contra hIn
  refine h.page_frame x ?_ hFrame
  simp only [Extent.Has, Fork.page]
  unfold shifted at hIn
  omega

/-- A word of the child's stack in the end. -/
theorem finish_stack (h : Forking m parent child regs) (hUse : InUse m parent regs c) :
    word (finish parent child regs s).mem (shifted m parent child c) =
      word s.mem (shifted m parent child c) := by
  have hLow := h.esp_low
  refine word_congr fun x hFrom hTo => finish_apart h (Or.inl ?_)
  simp only [Extent.Has, page]
  unfold InUse at hUse
  unfold shifted at *
  omega

/-- The word at the top of the stack is a saved frame pointer. -/
def TopSaved (m : Mem) (parent regs : Nat) : Prop :=
  Chain m parent regs (userStack m parent + 4092) ∧
    Points m parent (word m (userStack m parent + 4092))

/-- Without one there, the walk comes to every word it has to move. -/
theorem Walked.covers (h : Forking m parent child regs) (hAligned : AlignedChain m parent regs)
    (hTop : ¬TopSaved m parent regs)
    (hClosed : ∀ q, Known m regs ws q → Qualifies m parent regs q → q ∈ ws)
    (hChain : Chain m parent regs c) : Points m parent (word m c) → c ∈ ws := by
  have hQualifies : ∀ {c}, Chain m parent regs c → Points m parent (word m c) →
      Qualifies m parent regs c := by
    intro c hChain hPoints
    rcases hChain.top_or_low h hAligned with rfl | hLow
    · exact absurd ⟨hChain, hPoints⟩ hTop
    · exact ⟨hChain.inUse.1, by omega, hPoints⟩
  induction hChain with
  | start hUse =>
      intro hPoints
      exact hClosed _ (Or.inl rfl) (hQualifies (Chain.start hUse) hPoints)
  | saved hChain hUse ih =>
      intro hPoints
      exact hClosed _ (Or.inr ⟨_, ih (hUse.points h), rfl⟩)
        (hQualifies (Chain.saved hChain hUse) hPoints)

/-- **What a fork gives the child.**  The child's frame and stack are the parent's,
moved to its own page, exactly when `ebp` points into the parent's stack page and the
word at the top of that page is not a saved frame pointer that points into it. -/
theorem sysFork_forked_iff (h : Forking m parent child regs)
    (hAligned : AlignedChain m parent regs) {fuel : Nat} (hFuel : 1024 < fuel) :
    Forked m (sysFork fuel parent child regs (Logged.start m)).mem parent child regs ↔
      Points m parent (ebp m regs) ∧ ¬TopSaved m parent regs := by
  obtain ⟨ws, s', hRun, hWalk, hClosed⟩ := sysFork_walked h hAligned hFuel
  have hEbp := (hWalk.frame h (show ebpOffset + 4 ≤ sizeofRegisters by decide)).trans
    (prepared_ebp h)
  have hUnmoved : ∀ {c}, Chain m parent regs c → c ∉ ws →
      word (finish parent child regs s').mem (shifted m parent child c) = word m c :=
    fun hChain hNew => (finish_stack h hChain.inUse).trans
      (hWalk.unmoved h hAligned (prepared_copied h) hChain hNew)
  rw [hRun]
  constructor
  · intro hForked
    constructor
    · by_contra hOut
      exact add_delta_ne h (hEbp.symm.trans (hForked.ebp_kept hOut))
    · rintro ⟨hChain, hPoints⟩
      have hNew : userStack m parent + 4092 ∉ ws := fun hMem => by
        have hLow := hWalk.low _ hMem
        omega
      refine shifted_page h hPoints ?_
      rwa [← hForked.moved _ hChain hPoints, hUnmoved hChain hNew]
  · rintro ⟨hIn, hTop⟩
    have hMoved : ∀ c, Chain m parent regs c → Points m parent (word m c) →
        word (finish parent child regs s').mem (shifted m parent child c) =
          shifted m parent child (word m c) := fun c hChain hPoints =>
      (finish_stack h hChain.inUse).trans
        (hWalk.moved c (Walked.covers h hAligned hTop hClosed hChain hPoints))
    refine ⟨fun i hi hEax hEsp hEbp => ?_, ?_, ?_, fun _ => hEbp.trans (add_delta h hIn),
      fun hOut => absurd hIn hOut, hMoved, fun x hLow hHigh hx => ?_, fun c hChain => ?_⟩
    · rw [hWalk.frame h (by unfold sizeofRegisters; omega), prepared_word h hi hEsp hEbp,
        copyFrame_word h hi hEax hEsp]
    · rw [hWalk.frame h (by decide)]
      exact (prepared_word h (show 11 < 17 by decide) (by decide) (by decide)).trans
        (copyFrame_eax h)
    · rw [hWalk.frame h (by decide), prepared_userEsp h]
    · have hEsp := h.esp_low
      have hPage : (page (userStack m child)).Has (shifted m parent child x) := by
        simp only [Extent.Has, page]
        unfold shifted
        omega
      rw [finish_apart h (Or.inl hPage), hWalk.rest _ fun v hv => ?_]
      · exact prepared_copied h x hLow hHigh
      · have hApart := hx v (hWalk.chain v hv) (hWalk.points v hv)
        have hvPage := hWalk.page h hv
        unfold shifted
        omega
    · by_cases hPoints : Points m parent (word m c)
      · rw [hMoved c hChain hPoints]
        exact shifted_page h hPoints
      · rwa [hUnmoved hChain fun hMem => hPoints (hWalk.points c hMem)]

end Fork

/-! ## Parents -/

instance (m : Mem) (parent regs a : Nat) : Decidable (InUse m parent regs a) := by
  unfold InUse
  infer_instance

instance (m : Mem) (p a : Nat) : Decidable (Points m p a) := by
  unfold Points
  infer_instance

/-- A list closed under following saved frame pointers holds the chain. -/
theorem Chain.mem {m : Mem} {parent regs c : Nat} {cs : List Nat}
    (hChain : Chain m parent regs c) (hEbp : InUse m parent regs (ebp m regs) → ebp m regs ∈ cs)
    (hSaved : ∀ c ∈ cs, InUse m parent regs (word m c) → word m c ∈ cs) : c ∈ cs := by
  induction hChain with
  | start hUse => exact hEbp hUse
  | saved _ hUse ih => exact hSaved _ ih hUse

/-- A process in a function that `main` has called: two frames, and no frame pointer in
`main`'s. -/
def calledParent : Mem :=
  setWord (setWord (setWord userParent (0x2AFBC + ebpOffset) 0x2BFF0) 0x2BFF0 0x2BFF8) 0x2BFF8 0

/-- A process whose outermost frame begins at the top of its stack, with a frame pointer
saved there that points into the page. -/
def topParent : Mem :=
  setWord (setWord userParent (0x2AFBC + ebpOffset) 0x2BFFC) 0x2BFFC 0x2BFF4

theorem calledParent_forking : Forking calledParent 0x26009 0x26042 0x2AFBC :=
  ⟨⟨by decide +kernel, by decide +kernel, by decide +kernel, by decide +kernel,
    by decide +kernel, by decide +kernel, by decide +kernel, by decide +kernel⟩,
    by decide +kernel, by decide +kernel, by decide +kernel, by decide +kernel,
    by decide +kernel, by decide +kernel, by decide +kernel⟩

theorem calledParent_chain {c : Nat} (h : Chain calledParent 0x26009 0x2AFBC c) :
    c ∈ [0x2BFF0, 0x2BFF8] :=
  h.mem (by decide +kernel) (by decide +kernel)

/-- Its child can return to `main` and from there on. -/
theorem sysFork_forked_iff_called :
    Chain calledParent 0x26009 0x2AFBC 0x2BFF8 ∧
      Forked calledParent
        (sysFork 1025 0x26009 0x26042 0x2AFBC (Logged.start calledParent)).mem 0x26009 0x26042
        0x2AFBC := by
  have hInner : Chain calledParent 0x26009 0x2AFBC 0x2BFF0 := Chain.start (by decide +kernel)
  have hSaved : word calledParent 0x2BFF0 = 0x2BFF8 := by decide +kernel
  have hOuter := Chain.saved hInner (by decide +kernel)
  rw [hSaved] at hOuter
  refine ⟨hOuter, (sysFork_forked_iff calledParent_forking (fun c hChain => ?_) (by decide)).mpr
    ⟨by decide +kernel, fun hTop => ?_⟩⟩
  · have hMem := calledParent_chain hChain
    simp only [List.mem_cons, List.not_mem_nil, or_false] at hMem
    omega
  · have hMem := calledParent_chain hTop.1
    revert hMem
    decide +kernel

theorem topParent_forking : Forking topParent 0x26009 0x26042 0x2AFBC :=
  ⟨⟨by decide +kernel, by decide +kernel, by decide +kernel, by decide +kernel,
    by decide +kernel, by decide +kernel, by decide +kernel, by decide +kernel⟩,
    by decide +kernel, by decide +kernel, by decide +kernel, by decide +kernel,
    by decide +kernel, by decide +kernel, by decide +kernel⟩

theorem userParent_forking : Forking userParent 0x26009 0x26042 0x2AFBC :=
  ⟨⟨by decide +kernel, by decide +kernel, by decide +kernel, by decide +kernel,
    by decide +kernel, by decide +kernel, by decide +kernel, by decide +kernel⟩,
    by decide +kernel, by decide +kernel, by decide +kernel, by decide +kernel,
    by decide +kernel, by decide +kernel, by decide +kernel⟩

/-- **Two children that differ from their parents.**  A parent that uses no frame pointer
has a child whose `ebp` is the distance of the stacks.  A frame pointer saved at the
top of the stack still points into the parent's stack after the fork. -/
theorem frame_pointers_missed :
    (Forking userParent 0x26009 0x26042 0x2AFBC ∧
      (∀ c, ¬Chain userParent 0x26009 0x2AFBC c) ∧ ebp userParent 0x2AFBC = 0 ∧
      word (sysFork 1025 0x26009 0x26042 0x2AFBC (Logged.start userParent)).mem
        (savedRegs userParent 0x26042 + ebpOffset) = 0x5000 ∧
      ¬Forked userParent (sysFork 1025 0x26009 0x26042 0x2AFBC (Logged.start userParent)).mem
        0x26009 0x26042 0x2AFBC) ∧
    Forking topParent 0x26009 0x26042 0x2AFBC ∧ AlignedChain topParent 0x26009 0x2AFBC ∧
      Chain topParent 0x26009 0x2AFBC 0x2BFFC ∧
      word (sysFork 1025 0x26009 0x26042 0x2AFBC (Logged.start topParent)).mem
        (shifted topParent 0x26009 0x26042 0x2BFFC) = 0x2BFF4 ∧
      ¬Forked topParent (sysFork 1025 0x26009 0x26042 0x2AFBC (Logged.start topParent)).mem
        0x26009 0x26042 0x2AFBC := by
  have hEbp : word (sysFork 1025 0x26009 0x26042 0x2AFBC (Logged.start userParent)).mem
      (savedRegs userParent 0x26042 + ebpOffset) = 0x5000 := by decide +kernel
  have hTop : word (sysFork 1025 0x26009 0x26042 0x2AFBC (Logged.start topParent)).mem
      (shifted topParent 0x26009 0x26042 0x2BFFC) = 0x2BFF4 := by decide +kernel
  have hChain : Chain topParent 0x26009 0x2AFBC 0x2BFFC := Chain.start (by decide +kernel)
  refine ⟨⟨userParent_forking, fun c hc => ?_, by decide +kernel, hEbp, fun hForked => ?_⟩,
    topParent_forking, fun c hc => ?_, hChain, hTop, fun hForked => ?_⟩
  · have hMem : c ∈ [] := hc.mem (by decide +kernel) (by decide +kernel)
    exact List.not_mem_nil hMem
  · have hKept := hForked.ebp_kept (by decide +kernel)
    rw [hEbp] at hKept
    revert hKept
    decide +kernel
  · have hMem : c ∈ [0x2BFFC, 0x2BFF4] := hc.mem (by decide +kernel) (by decide +kernel)
    simp only [List.mem_cons, List.not_mem_nil, or_false] at hMem
    omega
  · refine hForked.apart _ hChain ?_
    rw [hTop]
    decide +kernel

end MiniKernel.Ports.ForkFrames
