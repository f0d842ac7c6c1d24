import MiniKernel.Ports.Pmm

/-!
# What `allocate` answers

`allocate` searches 64-bit entries and returns 32 bits of the base it finds.  An
entry at 4 GiB or above is carved like any other, but the address is cut off: the
caller gets a page of something else, or `0`, the value that stands for failure.

`allocate_answers_iff` says what the function does on every map, and that the cut is
the only thing that goes wrong.
-/

namespace MiniKernel.Ports.Pmm

open MiniKernel.Verified.Cells

variable {size : Nat} {es pre pre' post post' : List MemoryMap} {e e' : MemoryMap}

/-! ## The best fit -/

/-- **There is one best fit.** -/
theorem BestFit.unique (h : BestFit size es pre e post) (h' : BestFit size es pre' e' post') :
    pre = pre' ∧ e = e' ∧ post = post' := by
  rcases cut_cases (h.split.symm.trans h'.split) with hSame | ⟨hBehind, hFront⟩ |
    ⟨hFront, hBehind⟩
  · exact hSame
  · have hAfter := h.after e' hBehind h'.candidate
    have hBefore := h'.before e hFront h.candidate
    omega
  · have hBefore := h.before e' hFront h'.candidate
    have hAfter := h'.after e hBehind h.candidate
    omega

/-- Nothing fits, or something fits but its rest finds no room in the table. -/
def Fails (size : Nat) (es : List MemoryMap) : Prop :=
  (∀ e ∈ es, ¬Candidate size e) ∨
    maxFreePages ≤ es.length ∧ ∀ e ∈ es, Candidate size e → e.length ≠ size

instance (size : Nat) (es : List MemoryMap) : Decidable (Fails size es) := by
  unfold Fails
  infer_instance

theorem BestFit.mem (h : BestFit size es pre e post) : e ∈ es := by
  rw [h.split]
  exact List.mem_append_right _ List.mem_cons_self

/-- No candidate is shorter than the best fit. -/
theorem BestFit.length_le (h : BestFit size es pre e post) {x : MemoryMap} (hx : x ∈ es)
    (hc : Candidate size x) : e.length ≤ x.length := by
  rw [h.split, List.mem_append, List.mem_cons] at hx
  rcases hx with hx | rfl | hx
  · exact Nat.le_of_lt (h.before x hx hc)
  · exact Nat.le_refl _
  · exact h.after x hx hc

/-- With a best fit, the table is too full exactly if the best fit leaves a rest. -/
theorem BestFit.fails_iff (h : BestFit size es pre e post) :
    Fails size es ↔ maxFreePages ≤ es.length ∧ size < e.length := by
  have hFit := h.candidate.2.1
  constructor
  · rintro (hNone | ⟨hFull, hInexact⟩)
    · exact absurd h.candidate (hNone e h.mem)
    · have hLong := hInexact e h.mem h.candidate
      exact ⟨hFull, by omega⟩
  · rintro ⟨hFull, hLong⟩
    refine Or.inr ⟨hFull, fun x hx hc => ?_⟩
    have hShortest := h.length_le hx hc
    omega

/-- **`allocate` fails**, or carves the best fit. -/
theorem allocate_carves (size : Nat) (t : Table) :
    Fails size t.entries ∧ (allocate size t).1 = 0 ∧ (allocate size t).2.entries = t.entries ∨
      ¬Fails size t.entries ∧ ∃ pre e post, BestFit size t.entries pre e post ∧
        (allocate size t).1 = e.base % 2 ^ 32 ∧
        (allocate size t).2.entries = pre ++ e.pieces size ++ post := by
  have h := allocate_cases size t
  generalize (allocate size t).1 = r, (allocate size t).2.entries = es' at h
  cases h with
  | noCandidate hNone => exact Or.inl ⟨Or.inl hNone, rfl, rfl⟩
  | tableFull hBest hLong hFull => exact Or.inl ⟨hBest.fails_iff.mpr ⟨hFull, hLong⟩, rfl, rfl⟩
  | taken hBest hRoom =>
      refine Or.inr ⟨fun hFails => ?_, _, _, _, hBest, rfl, rfl⟩
      obtain ⟨hFull, hLong⟩ := hBest.fails_iff.mp hFails
      exact Nat.lt_irrefl _ (Nat.lt_of_lt_of_le (hRoom hLong) hFull)

/-! ## The answer -/

/-- What `allocate` is to answer: `0` exactly if it fails, and then the map is as it
was; otherwise the base of the best fit, which is carved. -/
structure Answers (size : Nat) (t : Table) (r : Nat × Table) : Prop where
  zero : r.1 = 0 ↔ Fails size t.entries
  failed : Fails size t.entries → r.2.entries = t.entries
  carved : ¬Fails size t.entries → ∃ pre e post, BestFit size t.entries pre e post ∧
    r.1 = e.base ∧ r.2.entries = pre ++ e.pieces size ++ post

/-- **`allocate` answers right** exactly if it has to fail or the best fit lies below 4 GiB. -/
theorem allocate_answers_iff (size : Nat) (t : Table) :
    Answers size t (allocate size t) ↔
      Fails size t.entries ∨
        ∃ pre e post, BestFit size t.entries pre e post ∧ e.base < 2 ^ 32 := by
  constructor
  · intro h
    by_cases hFails : Fails size t.entries
    · exact Or.inl hFails
    · obtain ⟨pre, e, post, hBest, hBase, -⟩ := h.carved hFails
      exact Or.inr ⟨pre, e, post, hBest, hBase ▸ allocate_lt size t⟩
  · intro h
    rcases allocate_carves size t with ⟨hFails, hZero, hSame⟩ |
      ⟨hFits, pre, e, post, hBest, hBase, hCarved⟩
    · exact
        { zero := iff_of_true hZero hFails
          failed := fun _ => hSame
          carved := fun hFits => absurd hFails hFits }
    · obtain ⟨pre', e', post', hBest', hLow⟩ := h.resolve_left hFits
      obtain ⟨-, rfl, -⟩ := hBest.unique hBest'
      rw [Nat.mod_eq_of_lt hLow] at hBase
      exact
        { zero := iff_of_false (hBase ▸ hBest.candidate.1) hFits
          failed := fun hFails => absurd hFails hFits
          carved := fun _ => ⟨pre, e, post, hBest, hBase, hCarved⟩ }

/-- A machine with 5 GiB: the memory below 640 KiB and 1 MiB, and that from 4 GiB on. -/
def fiveGiB : Table := Table.ofList
  [ { base := 0, length := 0x9FC00, type := 1, acpi := 1 }
  , { base := 0x100000, length := 0x100000, type := 1, acpi := 1 }
  , { base := 2 ^ 32, length := 2 ^ 30, type := 1, acpi := 1 } ]

/-- **4 GiB comes back as `0`**, and the memory is gone all the same. -/
theorem allocate_answers_zero :
    ¬Answers 0x200000 fiveGiB (allocate 0x200000 fiveGiB) ∧
      (allocate 0x200000 fiveGiB).1 = 0 ∧
      (allocate 0x200000 fiveGiB).2.entries =
        [ { base := 0, length := 0x9FC00, type := 1, acpi := 1 }
        , { base := 0x100000, length := 0x100000, type := 1, acpi := 1 }
        , { base := 2 ^ 32, length := 0x200000, type := 2, acpi := 1 }
        , { base := 2 ^ 32 + 0x200000, length := 2 ^ 30 - 0x200000, type := 1, acpi := 1 } ] := by
  have hZero : (allocate 0x200000 fiveGiB).1 = 0 := by decide +kernel
  have hFits : ¬Fails 0x200000 fiveGiB.entries := by decide +kernel
  exact ⟨fun h => hFits (h.zero.mp hZero), hZero, by decide +kernel⟩

end MiniKernel.Ports.Pmm
