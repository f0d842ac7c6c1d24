import MiniKernel.Verified.Extents
import MiniKernel.Verified.WordStack

/-!
# Footprints

A memory together with a log of what has been written to it, and of what the
copies have read.  `Within R C` says of two states that the second came from
the first by writing addresses of `R` and copying from addresses of `C` only;
it composes, and memory outside `R` is the same.  With `R` and `C` everything
it still says that the logs only grow.

A store counts as a write even when it stores what was there.
-/

namespace MiniKernel.Verified.Footprint

open MiniKernel.Verified.ByteMemory
open MiniKernel.Verified.WordStack
open MiniKernel.Verified.Extents

/-- Memory, the extents written so far and the extents copied from so far. -/
structure Logged where
  mem : Mem
  written : List Extent
  copied : List Extent

namespace Logged

/-- Nothing has been logged yet. -/
def start (m : Mem) : Logged := { mem := m, written := [], copied := [] }

/-- Store a word. -/
def store (s : Logged) (a v : Nat) : Logged :=
  { s with mem := setWord s.mem a v, written := ⟨a, 4⟩ :: s.written }

/-- Store `n` words that lie elsewhere. -/
def assign (s : Logged) (dst src n : Nat) : Logged :=
  { s with
    mem := copyWords src dst ((List.range n).map fun j => 4 * j) s.mem
    written := ⟨dst, 4 * n⟩ :: s.written }

/-- Copy one byte. -/
def copyByte (s : Logged) (dst src : Nat) : Logged :=
  { mem := setByte s.mem dst (s.mem src)
    written := ⟨dst, 1⟩ :: s.written
    copied := ⟨src, 1⟩ :: s.copied }

/-- Copy bytes upwards, at addresses below `size`. -/
def copyBytes (s : Logged) (size dst src n : Nat) : Logged :=
  (List.range n).foldl (fun s i => s.copyByte ((dst + i) % size) ((src + i) % size)) s

end Logged

/-- Only addresses of `R` were written, and only addresses of `C` copied from. -/
structure Within (R C : Nat → Prop) (s s' : Logged) : Prop where
  written : ∃ es, s'.written = es ++ s.written ∧ ∀ e ∈ es, ∀ x, e.Has x → R x
  copied : ∃ es, s'.copied = es ++ s.copied ∧ ∀ e ∈ es, ∀ x, e.Has x → C x
  frame : ∀ x, ¬R x → s'.mem x = s.mem x

variable {R R' C C' : Nat → Prop} {s s' s'' : Logged}

theorem Within.refl (R C : Nat → Prop) (s : Logged) : Within R C s s where
  written := ⟨[], rfl, by simp⟩
  copied := ⟨[], rfl, by simp⟩
  frame _ _ := rfl

theorem Within.trans (h : Within R C s s') (h' : Within R C s' s'') : Within R C s s'' where
  written := by
    obtain ⟨es, hes, hR⟩ := h.written
    obtain ⟨es', hes', hR'⟩ := h'.written
    refine ⟨es' ++ es, by rw [hes', hes, List.append_assoc], fun e he => ?_⟩
    exact (List.mem_append.mp he).elim (hR' e) (hR e)
  copied := by
    obtain ⟨es, hes, hC⟩ := h.copied
    obtain ⟨es', hes', hC'⟩ := h'.copied
    refine ⟨es' ++ es, by rw [hes', hes, List.append_assoc], fun e he => ?_⟩
    exact (List.mem_append.mp he).elim (hC' e) (hC e)
  frame x hx := (h'.frame x hx).trans (h.frame x hx)

theorem Within.mono (h : Within R C s s') (hR : ∀ x, R x → R' x) (hC : ∀ x, C x → C' x) :
    Within R' C' s s' where
  written := by
    obtain ⟨es, hes, hIn⟩ := h.written
    exact ⟨es, hes, fun e he x hx => hR x (hIn e he x hx)⟩
  copied := by
    obtain ⟨es, hes, hIn⟩ := h.copied
    exact ⟨es, hes, fun e he x hx => hC x (hIn e he x hx)⟩
  frame x hx := h.frame x fun hIn => hx (hR x hIn)

/-- Words outside `R` read as before. -/
theorem Within.word (h : Within R C s s') {a : Nat} (hApart : ∀ x, a ≤ x → x < a + 4 → ¬R x) :
    word s'.mem a = word s.mem a :=
  word_congr fun x hLow hHigh => h.frame x (hApart x hLow hHigh)

/-- From an empty log, everything logged is in `C`. -/
theorem Within.all_copied {m : Mem} (h : Within R C (Logged.start m) s) :
    ∀ e ∈ s.copied, ∀ x, e.Has x → C x := by
  obtain ⟨es, hes, hC⟩ := h.copied
  rw [hes]
  simpa [Logged.start] using hC

/-- What is logged stays logged. -/
theorem Within.mem_written (h : Within R C s s') {e : Extent} (he : e ∈ s.written) :
    e ∈ s'.written := by
  obtain ⟨es, hes, -⟩ := h.written
  rw [hes]
  exact List.mem_append_right _ he

theorem Within.mem_copied (h : Within R C s s') {e : Extent} (he : e ∈ s.copied) :
    e ∈ s'.copied := by
  obtain ⟨es, hes, -⟩ := h.copied
  rw [hes]
  exact List.mem_append_right _ he

/-- One logged extent. -/
theorem logged_one {e : Extent} {es : List Extent} (h : ∀ x, e.Has x → R x) :
    ∃ es', e :: es = es' ++ es ∧ ∀ f ∈ es', ∀ x, f.Has x → R x :=
  ⟨[e], rfl, fun _ hf x hx => h x (List.mem_singleton.mp hf ▸ hx)⟩

theorem has_byte {a x : Nat} (h : (⟨a, 1⟩ : Extent).Has x) : x = a := by
  obtain ⟨hLow, hHigh⟩ := h
  exact Nat.le_antisymm (Nat.le_of_lt_succ hHigh) hLow

theorem store_within {a : Nat} (v : Nat) (h : ∀ x, a ≤ x → x < a + 4 → R x) :
    Within R C s (s.store a v) where
  written := logged_one fun x hx => h x hx.1 hx.2
  copied := ⟨[], rfl, by simp⟩
  frame x hx := setWord_apart (by
    by_contra hIn
    exact hx (h x (by omega) (by omega)))

theorem store_apart {a x : Nat} (v : Nat) (h : x < a ∨ a + 4 ≤ x) : (s.store a v).mem x = s.mem x :=
  setWord_apart h

/-- The words of an assignment, and the rest of memory as it was. -/
theorem assign_apply {dst src n : Nat}
    (hApart : dst ≤ src ∨ src + 4 * n ≤ dst) (x : Nat) :
    (s.assign dst src n).mem x =
      if dst ≤ x ∧ x < dst + 4 * n then s.mem (x - dst + src) else s.mem x :=
  copyWords_apply s.mem hApart n (Nat.le_refl n) x

theorem assign_within {dst src n : Nat}
    (hApart : dst ≤ src ∨ src + 4 * n ≤ dst)
    (h : ∀ x, dst ≤ x → x < dst + 4 * n → R x) : Within R C s (s.assign dst src n) where
  written := logged_one fun x hx => h x hx.1 hx.2
  copied := ⟨[], rfl, by simp⟩
  frame x hx := by
    rw [assign_apply hApart, if_neg fun hIn => hx (h x hIn.1 hIn.2)]

theorem copyByte_within {dst src : Nat} (hR : R dst) (hC : C src) :
    Within R C s (s.copyByte dst src) where
  written := logged_one fun _ hx => has_byte hx ▸ hR
  copied := logged_one fun _ hx => has_byte hx ▸ hC
  frame _ hx := setByte_ne _ fun h => hx (h ▸ hR)

/-- **A copy** writes its target and reads its source. -/
theorem copyBytes_within {size dst src n : Nat} (hR : ∀ i < n, R ((dst + i) % size))
    (hC : ∀ i < n, C ((src + i) % size)) : Within R C s (s.copyBytes size dst src n) := by
  induction n with
  | zero => exact Within.refl R C s
  | succ n ih =>
      have hFirst := ih (fun i hi => hR i (by omega)) fun i hi => hC i (by omega)
      rw [Logged.copyBytes, List.range_succ, List.foldl_append]
      exact hFirst.trans (copyByte_within (hR n (by omega)) (hC n (by omega)))

/-- Every byte of the source and of the target is logged. -/
theorem copyBytes_logged (s : Logged) (size dst src : Nat) {n i : Nat} (hi : i < n) :
    ⟨(dst + i) % size, 1⟩ ∈ (s.copyBytes size dst src n).written ∧
      ⟨(src + i) % size, 1⟩ ∈ (s.copyBytes size dst src n).copied := by
  induction n with
  | zero => omega
  | succ n ih =>
      rw [Logged.copyBytes, List.range_succ, List.foldl_append]
      by_cases hLast : i = n
      · subst hLast
        exact ⟨List.mem_cons_self, List.mem_cons_self⟩
      · have hEarlier := ih (by omega)
        exact ⟨List.mem_cons_of_mem _ hEarlier.1, List.mem_cons_of_mem _ hEarlier.2⟩

/-- **What a copy leaves**, when neither range wraps and the two are apart. -/
theorem copyBytes_apply {size dst src n : Nat} (s : Logged) (hDst : dst + n ≤ size)
    (hSrc : src + n ≤ size) (hApart : src + n ≤ dst ∨ dst + n ≤ src) : ∀ k ≤ n, ∀ x,
    (s.copyBytes size dst src k).mem x =
      if dst ≤ x ∧ x < dst + k then s.mem (src + (x - dst)) else s.mem x := by
  intro k
  induction k with
  | zero =>
      intro _ x
      rw [if_neg (by omega)]
      rfl
  | succ k ih =>
      intro hk x
      have hBefore := ih (by omega)
      rw [Logged.copyBytes, List.range_succ, List.foldl_append]
      change setByte (s.copyBytes size dst src k).mem ((dst + k) % size)
        ((s.copyBytes size dst src k).mem ((src + k) % size)) x = _
      rw [Nat.mod_eq_of_lt (show dst + k < size by omega),
        Nat.mod_eq_of_lt (show src + k < size by omega)]
      by_cases hByte : x = dst + k
      · rw [hByte, setByte_self, hBefore, if_neg (by omega), if_pos (by omega)]
        congr 1
        omega
      · rw [setByte_ne _ hByte, hBefore]
        by_cases hIn : dst ≤ x ∧ x < dst + k
        · rw [if_pos hIn, if_pos (by omega)]
        · rw [if_neg hIn, if_neg (by omega)]

end MiniKernel.Verified.Footprint
