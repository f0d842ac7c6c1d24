import MiniKernel.Ports.PmmOwnership

/-!
# Memory the kernel occupies

No entry of the memory map stands for the kernel itself.  The E820 table lies
at `0x500`, the image at `0x10000` and the boot stack below `0x90000`, and all
three are usable memory to the firmware.  What protects them is that
`allocate` skips the entry based at `0`: on a PC that one entry is the low
memory they are in.

`Preserved` is the invariant behind it.  A usable entry that `allocate` may
carve holds only memory that was in such an entry when the kernel started, and
so does every entry based at an address `allocate` has returned, which is all
`free` is given.  Addresses returned once may be freed any number of times.
-/

namespace MiniKernel.Ports.PmmReserved

open MiniKernel.Verified.Extents
open MiniKernel.Verified.Trace
open MiniKernel.Ports.Pmm
open MiniKernel.Ports.PmmOwnership (extentOf UsableAt Call has_pieces pieces_type_one
  allocated_take glue_length has_join)

/-- What the kernel occupies when `allocate` is first called: the table with
room for `n` entries, the image and the boot stack. -/
def occupied (kernelEnd stackBase n : Nat) : List Extent :=
  [⟨0x500, 4 + 24 * n⟩, ⟨0x10000, kernelEnd - 0x10000⟩, ⟨stackBase, 0x90000 - stackBase⟩]

/-- The number of entries the table can grow to. -/
def room (boot : Table) : Nat := max boot.entry maxFreePages

/-- A map the boot loader can store: it skips the empty entries. -/
def Storable (boot : Table) : Prop :=
  boot.entry < 2 ^ 16 ∧ ∀ e ∈ boot.entries, 0 < e.length ∧ e.base < 2 ^ 64 ∧
    e.length < 2 ^ 64 ∧ e.type < 2 ^ 32 ∧ e.acpi < 2 ^ 32

instance (boot : Table) : Decidable (Storable boot) := by
  unfold Storable
  infer_instance

/-- The map keeps the memory `allocate` may hand out apart from the rest. -/
structure Preserved (boot es : List MemoryMap) (returned : List Extent) : Prop where
  low : ∀ e ∈ es, e.type = 1 → e.base + e.length ≤ 2 ^ 32
  usable : ∀ e ∈ es, e.type = 1 → e.base ≠ 0 → ∀ x, (extentOf e).Has x → UsableAt boot x
  whole : ∀ e ∈ es, ∀ y, e.base ≠ 0 → (extentOf e).Has y → UsableAt boot y →
    e.base + e.length ≤ 2 ^ 32 ∧ ∀ x, (extentOf e).Has x → UsableAt boot x
  returned : ∀ a ∈ returned, a.base ≠ 0 ∧ a.base < 2 ^ 32 ∧ 0 < a.length ∧
    ∀ x, a.Has x → UsableAt boot x

variable {boot pre post es es' : List MemoryMap} {returned : List Extent}

theorem Preserved.start (hApart : PairwiseApart extentOf boot)
    (hLow : ∀ e ∈ boot, e.type = 1 → e.base + e.length ≤ 2 ^ 32) :
    Preserved boot boot [] where
  low := hLow
  usable := fun e he hType hBase _ hx => ⟨e, he, hType, hBase, hx⟩
  whole := by
    rintro e he y - hy ⟨b, hb, hType, hBase, hbHas⟩
    rcases hApart.eq_or_apart he hb with rfl | hSep
    · exact ⟨hLow e he hType, fun x hx => ⟨e, he, hType, hBase, hx⟩⟩
    · exact absurd hbHas (hSep y hy)
  returned := by simp

/-- An entry may be replaced by entries that keep the invariant. -/
theorem Preserved.replace {mid mid' : List MemoryMap}
    (h : Preserved boot (pre ++ mid ++ post) returned)
    (hNew : Preserved boot mid' []) : Preserved boot (pre ++ mid' ++ post) returned := by
  have hOld : ∀ d ∈ pre ++ mid' ++ post, d ∈ pre ++ mid ++ post ∨ d ∈ mid' := by
    intro d hd
    simp only [List.mem_append] at hd ⊢
    tauto
  refine
    { low := fun d hd => ?_
      usable := fun d hd => ?_
      whole := fun d hd => ?_
      returned := h.returned }
  · exact (hOld d hd).elim (h.low d) (hNew.low d)
  · exact (hOld d hd).elim (h.usable d) (hNew.usable d)
  · exact (hOld d hd).elim (h.whole d) (hNew.whole d)

/-- Entries below 4 GiB that hold usable memory only. -/
theorem Preserved.of_usable (hLow : ∀ e ∈ es, e.base + e.length ≤ 2 ^ 32)
    (hUsable : ∀ e ∈ es, e.base ≠ 0 → ∀ x, (extentOf e).Has x → UsableAt boot x) :
    Preserved boot es [] where
  low := fun e he _ => hLow e he
  usable := fun e he _ => hUsable e he
  whole := fun e he _ hBase _ _ => ⟨hLow e he, hUsable e he hBase⟩
  returned := by simp

/-! ## The two calls -/

/-- Splitting a usable entry returns usable memory. -/
theorem Preserved.take {e : MemoryMap} {size : Nat}
    (h : Preserved boot (pre ++ e :: post) returned) (hCand : Candidate size e)
    (hSize : 0 < size) :
    Preserved boot (pre ++ e.pieces size ++ post) (⟨e.base, size⟩ :: returned) := by
  obtain ⟨hBase, hFit, hType⟩ := hCand
  have he : e ∈ pre ++ e :: post := by simp
  have hLow := h.low e he hType
  have hUsable := h.usable e he hType hBase
  have hPieces : Preserved boot (e.pieces size) [] := by
    refine Preserved.of_usable (fun d hd => ?_) fun d hd _ x hx =>
      hUsable x (has_pieces hFit hLow hd hx)
    simp only [MemoryMap.pieces, List.mem_cons] at hd
    rcases hd with rfl | hd
    · simp only [MemoryMap.used]
      omega
    · split at hd
      · next hSmall =>
          have hRest : (e.base + size) % 2 ^ 64 = e.base + size := Nat.mod_eq_of_lt (by omega)
          rw [List.mem_singleton.mp hd]
          simp only [MemoryMap.rest, hRest]
          omega
      · simp at hd
  have hSplit : Preserved boot (pre ++ [e] ++ post) returned := by simpa using h
  refine { hSplit.replace hPieces with returned := fun a ha => ?_ }
  rcases List.mem_cons.mp ha with rfl | ha
  · refine ⟨hBase, by simp only; omega, hSize, fun x hx => hUsable x ?_⟩
    simp only [extentOf, Extent.Has] at hx ⊢
    omega
  · exact h.returned a ha

/-- **`allocate` returns usable memory.** -/
theorem Preserved.allocate {size r : Nat} (h : Preserved boot es returned)
    (hAlloc : Allocated size es r es') (hSize : 0 < size) :
    Preserved boot es' (if r = 0 then returned else ⟨r, size⟩ :: returned) := by
  apply allocated_take (P := Preserved boot) h hAlloc h.low hSize
  rintro pre e post rfl hCand
  exact h.take hCand hSize

/-- Any entry based at an address once returned may be made usable. -/
theorem Preserved.release {e : MemoryMap} {a : Extent}
    (h : Preserved boot (pre ++ e :: post) returned) (ha : a ∈ returned)
    (hBase : e.base = a.base) : Preserved boot (pre ++ e.usable :: post) returned := by
  have he : e ∈ pre ++ e :: post := by simp
  obtain ⟨hNonzero, hBelow, hPos, hUsable⟩ := h.returned a ha
  have hEntry : e.base + e.length ≤ 2 ^ 32 ∧ ∀ x, (extentOf e).Has x → UsableAt boot x := by
    by_cases hEmpty : e.length = 0
    · refine ⟨by omega, fun x hx => ?_⟩
      simp only [extentOf, Extent.Has] at hx
      omega
    · refine h.whole e he a.base (by omega) ?_ (hUsable a.base ?_)
      · simp only [extentOf, Extent.Has]
        omega
      · simp only [Extent.Has]
        omega
  have hNew : Preserved boot [e.usable] [] := Preserved.of_usable
    (fun d hd => by rw [List.mem_singleton.mp hd]; exact hEntry.1)
    (fun d hd _ => by rw [List.mem_singleton.mp hd]; exact hEntry.2)
  have hSplit : Preserved boot (pre ++ [e] ++ post) returned := by simpa using h
  simpa using hSplit.replace hNew

/-- Joining two usable neighbours joins usable memory, or stays based at `0`. -/
theorem Preserved.join {l r : MemoryMap} (hGlue : Glue l r)
    (h : Preserved boot (pre ++ l :: r :: post) returned) :
    Preserved boot (pre ++ l.join r :: post) returned := by
  have hlType := hGlue.1
  have hrType := hGlue.2.1
  have hl : l ∈ pre ++ l :: r :: post := by simp
  have hr : r ∈ pre ++ l :: r :: post := by simp
  have hlLow := h.low l hl hlType
  have hrLow := h.low r hr hrType
  obtain ⟨hBase, hLength⟩ := glue_length hGlue (by omega) (by omega)
  have hNew : Preserved boot [l.join r] [] := by
    refine Preserved.of_usable (fun d hd => ?_) fun d hd hdBase x hx => ?_
    · rw [List.mem_singleton.mp hd, hLength, show (l.join r).base = l.base from rfl]
      omega
    · rw [List.mem_singleton.mp hd] at hdBase hx
      have hlBase : l.base ≠ 0 := hdBase
      rcases (has_join hGlue (by omega) (by omega) x).mp hx with hx | hx
      · exact h.usable l hl hlType hlBase x hx
      · exact h.usable r hr hrType (by omega) x hx
  have hSplit : Preserved boot (pre ++ [l, r] ++ post) returned := by simpa using h
  simpa using hSplit.replace hNew

/-- **`free` of an address once returned keeps the memory apart.** -/
theorem Preserved.free {a : Extent} (h : Preserved boot es returned) (ha : a ∈ returned)
    (hFreed : Freed a.base es es') : Preserved boot es' returned := by
  refine hFreed.closure (P := fun fs => Preserved boot fs returned) (fun _ => h) ?_ ?_
  · rintro pre e post rfl hBase -
    exact h.release ha hBase
  · intro pre l r post hGlue hPreserved
    exact hPreserved.join hGlue

/-! ## The size of the table -/

theorem allocated_length_le {size r : Nat} (h : Allocated size es r es') :
    es'.length ≤ max es.length maxFreePages := by
  cases h with
  | noCandidate => exact Nat.le_max_left _ _
  | tableFull => exact Nat.le_max_left _ _
  | @taken pre post e hBest hRoom =>
      have hFull := hBest.split ▸ hRoom
      simp only [hBest.split, MemoryMap.pieces, List.length_append, List.length_cons]
      simp only [List.length_append, List.length_cons] at hFull
      split
      · next hSmall =>
          have hLess := hFull hSmall
          simp only [List.length_cons, List.length_nil]
          omega
      · simp only [List.length_nil]
        omega

theorem freed_length_le {p : Nat} (h : Freed p es es') : es'.length ≤ es.length := by
  refine h.closure (P := fun fs => fs.length ≤ es.length) (fun _ => Nat.le_refl _) ?_ ?_
  · rintro pre e post rfl - -
    simp
  · intro pre l r post _ hLength
    simp only [List.length_append, List.length_cons] at hLength ⊢
    omega

/-! ## Runs -/

/-- The map and every range `allocate` has returned. -/
structure State where
  table : Table
  returned : List Extent

/-- One call.  Sizes are positive and only addresses `allocate` has returned
are freed. -/
def step (s : State) : Call → Option State
  | .allocate size =>
      if size = 0 then none
      else
        let r := allocate size s.table
        some
          { table := r.2
            returned := if r.1 = 0 then s.returned else ⟨r.1, size⟩ :: s.returned }
  | .free p =>
      if p ∈ s.returned.map Extent.base then some { s with table := free p s.table } else none

theorem step_preserved {n : Nat} (hn : maxFreePages ≤ n) (s : State) (c : Call) (s' : State)
    (h : s.table.entry ≤ n ∧ Preserved boot s.table.entries s.returned)
    (hStep : step s c = some s') :
    s'.table.entry ≤ n ∧ Preserved boot s'.table.entries s'.returned := by
  obtain ⟨hRoom, hPreserved⟩ := h
  cases c with
  | allocate size =>
      simp only [step] at hStep
      split at hStep
      · simp at hStep
      · next hSize =>
          cases hStep
          have hLength := allocated_length_le (allocate_cases size s.table)
          simp only [Table.entries_length] at hLength
          exact ⟨Nat.le_trans hLength (by omega),
            hPreserved.allocate (allocate_cases size s.table) (by omega)⟩
  | free p =>
      simp only [step] at hStep
      split at hStep
      · next hReturned =>
          cases hStep
          obtain ⟨a, ha, rfl⟩ := List.mem_map.mp hReturned
          have hLength := freed_length_le (free_cases a.base s.table)
          simp only [Table.entries_length] at hLength
          exact ⟨Nat.le_trans hLength hRoom,
            hPreserved.free ha (free_cases a.base s.table)⟩
      · simp at hStep

/-- **The kernel's own memory is never handed out.**  When the entries of the
boot map are disjoint, its usable entries end at or below 4 GiB, and those of
them that are not based at `0` keep off the memory the kernel occupies, then
no run of `allocate` and `free` of addresses returned before returns a range
that overlaps it, and the table stays in its room. -/
theorem occupied_never_returned {boot : Table} {kernelEnd stackBase : Nat}
    (hApart : PairwiseApart extentOf boot.entries)
    (hLow : ∀ e ∈ boot.entries, e.type = 1 → e.base + e.length ≤ 2 ^ 32)
    (hOff : ∀ e ∈ boot.entries, e.type = 1 → e.base ≠ 0 →
      ∀ o ∈ occupied kernelEnd stackBase (room boot), (extentOf e).Apart o)
    {calls : List Call} {s : State}
    (hRun : exec step { table := boot, returned := [] } calls = some s) :
    s.table.entry ≤ room boot ∧
      ∀ a ∈ s.returned, ∀ o ∈ occupied kernelEnd stackBase (room boot), a.Apart o := by
  obtain ⟨hRoom, h⟩ := exec_invariant
    (I := fun s => s.table.entry ≤ room boot ∧
      Preserved boot.entries s.table.entries s.returned)
    (step_preserved (Nat.le_max_right _ _))
    ⟨Nat.le_max_left _ _, Preserved.start hApart hLow⟩ hRun
  refine ⟨hRoom, fun a ha o ho x hx => ?_⟩
  obtain ⟨e, he, hType, hBase, hHas⟩ := (h.returned a ha).2.2.2 x hx
  exact hOff e he hType hBase o ho x hHas

/-- A page of extended memory is allocated, freed twice and allocated again. -/
theorem occupied_never_returned_pcMap :
    ∃ s, exec step { table := PmmOwnership.pcMap, returned := [] }
        [.allocate 4096, .free 0x100000, .free 0x100000, .allocate 4096] = some s ∧
      s.returned = [⟨0x100000, 4096⟩, ⟨0x100000, 4096⟩] ∧
      s.table.entry ≤ room PmmOwnership.pcMap ∧
      ∀ a ∈ s.returned, ∀ o ∈ occupied 0x26000 0x8F000 (room PmmOwnership.pcMap),
        a.Apart o := by
  have hReturned : (exec step { table := PmmOwnership.pcMap, returned := [] }
      [.allocate 4096, .free 0x100000, .free 0x100000, .allocate 4096]).map State.returned =
        some [⟨0x100000, 4096⟩, ⟨0x100000, 4096⟩] := by decide
  obtain ⟨s, hRun, hs⟩ := Option.map_eq_some_iff.mp hReturned
  exact ⟨s, hRun, hs, occupied_never_returned (by decide) (by decide) (by decide) hRun⟩

/-- Low memory reported in two entries, the second of which holds the image. -/
def splitMap : Table := Table.ofList
  [ { base := 0, length := 0x10000, type := 1, acpi := 1 }
  , { base := 0x10000, length := 0x8FC00, type := 1, acpi := 1 } ]

/-- Usable memory above 4 GiB. -/
def highMap : Table := Table.ofList
  [ { base := 0, length := 0x9FC00, type := 1, acpi := 1 }
  , { base := 0x100010000, length := 0x100000, type := 1, acpi := 1 } ]

/-- A reserved entry that overlaps a usable one of the same base. -/
def overlapMap : Table := Table.ofList
  [ { base := 0x7000, length := 0x20000, type := 2, acpi := 1 }
  , { base := 0x7000, length := 0x1000, type := 1, acpi := 1 } ]

/-- Some range that the calls make `allocate` return overlaps the image. -/
def ReturnsImage (boot : Table) (calls : List Call) : Prop :=
  ∃ s ∈ exec step { table := boot, returned := [] } calls,
    ∃ a ∈ s.returned, ¬a.Apart ⟨0x10000, 0x26000 - 0x10000⟩

instance (boot : Table) (calls : List Call) : Decidable (ReturnsImage boot calls) := by
  unfold ReturnsImage
  infer_instance

/-- Each of the three conditions on the boot map is needed. -/
theorem occupied_returned :
    (Storable splitMap ∧ PairwiseApart extentOf splitMap.entries ∧
      ReturnsImage splitMap [.allocate 4096]) ∧
    (Storable highMap ∧ PairwiseApart extentOf highMap.entries ∧
      ReturnsImage highMap [.allocate 4096]) ∧
    Storable overlapMap ∧
      ReturnsImage overlapMap
        (.allocate 4096 :: .free 0x7000 :: List.replicate 10 (.allocate 4096)) := by
  decide

end MiniKernel.Ports.PmmReserved
