import MiniKernel.Verified.ByteMemory

/-!
# Words on a stack

Words of four bytes laid out in a byte-addressed memory, as a processor's
stack lays them out.  `Laid m a ws` says that the words `ws` lie at `a` and
upwards.  A stack grows downwards, so pushing a list lays it out reversed
below the old stack pointer (`laid_pushAll`); copying words one after another
moves the layout when source and target are the same or apart
(`copyWords_apply`).  Both leave all other bytes alone.
-/

namespace MiniKernel.Verified.WordStack

open MiniKernel.Verified.ByteMemory

/-- The word at `a`. -/
def word (m : Mem) (a : Nat) : Nat := load m a 4

/-- The memory with the word `v` at `a`. -/
def setWord (m : Mem) (a v : Nat) : Mem := store m a v 4

theorem word_congr {m m' : Mem} {a : Nat} (h : ∀ x, a ≤ x → x < a + 4 → m' x = m x) :
    word m' a = word m a := load_congr h

/-- A word depends only on its bytes, wherever they lie. -/
theorem word_move {m m' : Mem} {a b : Nat} (h : ∀ i < 4, m' (b + i) = m (a + i)) :
    word m' b = word m a := by
  have hFirst := h 0 (by decide)
  have hSecond := h 1 (by decide)
  have hThird := h 2 (by decide)
  have hFourth := h 3 (by decide)
  simp only [Nat.add_zero] at hFirst
  simp only [word, load, Nat.add_assoc, Nat.reduceAdd, hFirst, hSecond, hThird, hFourth]

theorem word_setWord {m : Mem} {a v : Nat} (hv : v < 2 ^ 32) : word (setWord m a v) a = v :=
  load_store_self hv

theorem setWord_apart {m : Mem} {a v x : Nat} (h : x < a ∨ a + 4 ≤ x) :
    setWord m a v x = m x := store_apply_apart h

theorem word_lt (m : Mem) (a : Nat) : word m a < 2 ^ 32 := load_lt m 4 a

/-! ## Layout -/

/-- The words `ws` lie one after another from `a` on. -/
def Laid (m : Mem) : Nat → List Nat → Prop
  | _, [] => True
  | a, w :: ws => word m a = w ∧ Laid m (a + 4) ws

variable {m m' : Mem} {a b : Nat} {ws vs : List Nat}

theorem laid_append : Laid m a (ws ++ vs) ↔ Laid m a ws ∧ Laid m (a + 4 * ws.length) vs := by
  induction ws generalizing a with
  | nil => simp [Laid]
  | cons w ws ih =>
      have hEnd : a + 4 + 4 * ws.length = a + 4 * (w :: ws).length := by
        simp only [List.length_cons]
        omega
      simp only [List.cons_append, Laid, ih, hEnd, and_assoc]

/-- A layout moves with its bytes. -/
theorem Laid.move (h : Laid m a ws) (hBytes : ∀ i < 4 * ws.length, m' (b + i) = m (a + i)) :
    Laid m' b ws := by
  induction ws generalizing a b with
  | nil => trivial
  | cons w ws ih =>
      obtain ⟨hHead, hTail⟩ := h
      simp only [List.length_cons] at hBytes
      refine ⟨?_, ih hTail fun i hi => ?_⟩
      · rw [← hHead]
        exact word_move fun i hi => hBytes i (by omega)
      · have hByte := hBytes (i + 4) (by omega)
        rw [show b + 4 + i = b + (i + 4) by omega, show a + 4 + i = a + (i + 4) by omega]
        exact hByte

/-- Frame rule: only the bytes of the words matter. -/
theorem Laid.frame (h : Laid m a ws)
    (hSame : ∀ x, a ≤ x → x < a + 4 * ws.length → m' x = m x) : Laid m' a ws :=
  h.move fun i hi => hSame (a + i) (by omega) (by omega)

/-- What lies at an address is determined. -/
theorem Laid.unique (h : Laid m a ws) (h' : Laid m a vs) (hLength : ws.length = vs.length) :
    ws = vs := by
  induction ws generalizing a vs with
  | nil => exact (List.length_eq_zero_iff.mp hLength.symm).symm
  | cons w ws ih =>
      cases vs with
      | nil => simp at hLength
      | cons v vs =>
          obtain ⟨hw, hws⟩ := h
          obtain ⟨hv, hvs⟩ := h'
          rw [← hw, ← hv, ih hws hvs (by simpa using hLength)]

/-- The words one by one. -/
theorem Laid.word_at {n : Nat} (h : Laid m a ws) (hn : n < ws.length) :
    word m (a + 4 * n) = ws[n] := by
  induction n generalizing a ws with
  | zero =>
      cases ws with
      | nil => simp at hn
      | cons w ws => exact h.1
  | succ n ih =>
      cases ws with
      | nil => simp at hn
      | cons w ws =>
          have hTail := ih h.2 (by simpa using hn)
          rw [show a + 4 + 4 * n = a + 4 * (n + 1) by omega] at hTail
          exact hTail

/-! ## Pushing -/

/-- Push words one after another; the result is the memory and the new stack
pointer. -/
def pushAll (m : Mem) (sp : Nat) : List Nat → Mem × Nat
  | [] => (m, sp)
  | w :: ws => pushAll (setWord m (sp - 4) w) (sp - 4) ws

theorem pushAll_sp : ∀ (ws : List Nat) (m : Mem) (sp : Nat),
    (pushAll m sp ws).2 = sp - 4 * ws.length := by
  intro ws
  induction ws with
  | nil => intro m sp; rfl
  | cons w ws ih =>
      intro m sp
      rw [pushAll, ih, List.length_cons]
      omega

theorem pushAll_append (m : Mem) (sp : Nat) (ws vs : List Nat) :
    pushAll m sp (ws ++ vs) = pushAll (pushAll m sp ws).1 (pushAll m sp ws).2 vs := by
  induction ws generalizing m sp with
  | nil => rfl
  | cons w ws ih => exact ih _ _

/-- Pushing changes nothing above the stack pointer or below the new one. -/
theorem pushAll_apart {x : Nat} : ∀ (ws : List Nat) (m : Mem) (sp : Nat),
    4 * ws.length ≤ sp → (x < sp - 4 * ws.length ∨ sp ≤ x) → (pushAll m sp ws).1 x = m x := by
  intro ws
  induction ws with
  | nil => intro m sp _ _; rfl
  | cons w ws ih =>
      intro m sp hRoom hx
      rw [List.length_cons] at hRoom hx
      rw [pushAll, ih _ _ (by omega) (by omega), setWord_apart (by omega)]

/-- **Pushed words** lie reversed below the old stack pointer. -/
theorem laid_pushAll : ∀ (ws : List Nat) (m : Mem) (sp : Nat), 4 * ws.length ≤ sp →
    (∀ w ∈ ws, w < 2 ^ 32) →
    Laid (pushAll m sp ws).1 (sp - 4 * ws.length) ws.reverse := by
  intro ws
  induction ws with
  | nil => intro m sp _ _; trivial
  | cons w ws ih =>
      intro m sp hRoom hWords
      rw [List.length_cons] at hRoom ⊢
      have hTail := ih (setWord m (sp - 4) w) (sp - 4) (by omega)
        fun v hv => hWords v (List.mem_cons_of_mem _ hv)
      rw [pushAll, List.reverse_cons, laid_append, List.length_reverse,
        show sp - 4 * (ws.length + 1) = sp - 4 - 4 * ws.length by omega]
      refine ⟨hTail, ?_, trivial⟩
      rw [show sp - 4 - 4 * ws.length + 4 * ws.length = sp - 4 by omega,
        word_congr fun x hLow hHigh => pushAll_apart ws _ _ (by omega) (Or.inr hLow)]
      exact word_setWord (hWords w (by simp))

/-! ## Copying -/

/-- Copy the words at the given offsets, one after another. -/
def copyWords (src dst : Nat) (offsets : List Nat) (m : Mem) : Mem :=
  offsets.foldl (fun m o => setWord m (dst + o) (word m (src + o))) m

/-- The bytes of a copied word are those it was copied from. -/
theorem setWord_word (m m' : Mem) (dst src : Nat) {i : Nat} (hi : i < 4) :
    setWord m dst (word m' src) (dst + i) = m' (src + i) := by
  rw [setWord, store_apply hi, word, load_byte m' hi]

/-- Copying writes nothing but the words at the target. -/
theorem copyWords_apart {src dst x : Nat} {offsets : List Nat} (m : Mem)
    (h : ∀ o ∈ offsets, x < dst + o ∨ dst + o + 4 ≤ x) : copyWords src dst offsets m x = m x := by
  induction offsets generalizing m with
  | nil => rfl
  | cons o os ih =>
      have hFirst := h o (by simp)
      rw [copyWords, List.foldl_cons]
      refine (ih _ fun o ho => h o (List.mem_cons_of_mem _ ho)).trans ?_
      exact setWord_apart (by omega)

/-- **Copied words** read as they were, when the source is not below a target it
overlaps; all other bytes stay. -/
theorem copyWords_apply {src dst n : Nat} (m : Mem)
    (h : dst ≤ src ∨ src + 4 * n ≤ dst) : ∀ k ≤ n, ∀ x,
    copyWords src dst ((List.range k).map fun j => 4 * j) m x =
      if dst ≤ x ∧ x < dst + 4 * k then m (x - dst + src) else m x := by
  intro k
  induction k with
  | zero =>
      intro _ x
      rw [if_neg (by omega)]
      rfl
  | succ k ih =>
      intro hk x
      have hBefore := ih (by omega)
      rw [List.range_succ, List.map_append, copyWords, List.foldl_append]
      change setWord (copyWords src dst ((List.range k).map fun j => 4 * j) m) (dst + 4 * k)
        (word (copyWords src dst ((List.range k).map fun j => 4 * j) m) (src + 4 * k)) x = _
      generalize copyWords src dst ((List.range k).map fun j => 4 * j) m = m' at hBefore ⊢
      by_cases hWord : dst + 4 * k ≤ x ∧ x < dst + 4 * k + 4
      · rw [if_pos (by omega), show x = dst + 4 * k + (x - (dst + 4 * k)) by omega,
          setWord_word m' m' _ _ (by omega), hBefore]
        rw [if_neg (by omega)]
        congr 1
        omega
      · rw [setWord_apart (by omega), hBefore]
        by_cases hIn : dst ≤ x ∧ x < dst + 4 * k
        · rw [if_pos hIn, if_pos (by omega)]
        · rw [if_neg hIn, if_neg (by omega)]

/-- Words that lie at the source lie at the target after the copy. -/
theorem laid_copyWords {src dst n : Nat} (m : Mem)
    (h : dst ≤ src ∨ src + 4 * n ≤ dst) (hLaid : Laid m src ws)
    (hLength : ws.length = n) :
    Laid (copyWords src dst ((List.range n).map fun j => 4 * j) m) dst ws := by
  refine hLaid.move fun i hi => ?_
  rw [copyWords_apply m h n (Nat.le_refl n), if_pos (by omega)]
  congr 1
  omega

end MiniKernel.Verified.WordStack
