import MiniKernel.Verified.Extents
import MiniKernel.Verified.Trace
import MiniKernel.Ports.Pmm

/-!
# Ownership of physical memory

Type `2` in the map means both "handed out by `allocate`" and "reserved by
the firmware", so the map alone does not say who owns an address.  `Owned`
adds the missing half: the list of the live allocations, each of which is a
type `2` entry of the map and consists of memory the boot map called usable.
The invariant is preserved by splitting an entry (`Owned.take`), by making an
entry usable again (`Owned.release`) and by joining two usable neighbours
(`Owned.join`); `allocate` and `free` are compositions of these.

Empty entries are allowed throughout.  If `free` meets an empty entry based at
the freed address, the allocated entry stays in the map and is merely lost.
-/

namespace MiniKernel.Ports.PmmOwnership

open MiniKernel.Verified.Extents
open MiniKernel.Verified.Trace
open MiniKernel.Ports.Pmm

/-- The addresses an entry describes. -/
def extentOf (e : MemoryMap) : Extent := ⟨e.base, e.length⟩

/-- Memory of a type `1` boot entry other than the one based at `0`. -/
def UsableAt (boot : List MemoryMap) (x : Nat) : Prop :=
  ∃ b ∈ boot, b.type = 1 ∧ b.base ≠ 0 ∧ (extentOf b).Has x

/-- The live allocations `live` own their part of the map `es`, which was
`boot` when the kernel started. -/
structure Owned (boot es : List MemoryMap) (live : List Extent) : Prop where
  apart : PairwiseApart extentOf es
  low : ∀ e ∈ es, e.type = 1 → e.base + e.length ≤ 2 ^ 32
  fromBoot : ∀ e ∈ es, e.type = 1 → e.base ≠ 0 →
    ∀ x, (extentOf e).Has x → UsableAt boot x
  liveApart : live.Pairwise Extent.Apart
  entry : ∀ a ∈ live, ∃ e ∈ es, extentOf e = a ∧ e.type = 2
  usable : ∀ a ∈ live, ∀ x, a.Has x → UsableAt boot x
  inRange : ∀ a ∈ live, a.base ≠ 0 ∧ 0 < a.length ∧ a.base + a.length ≤ 2 ^ 32

/-- A boot map on which nothing has been allocated yet. -/
theorem Owned.boot {boot : List MemoryMap} (hApart : PairwiseApart extentOf boot)
    (hLow : ∀ e ∈ boot, e.type = 1 → e.base + e.length ≤ 2 ^ 32) :
    Owned boot boot [] where
  apart := hApart
  low := hLow
  fromBoot := fun e he hType hBase _ hx => ⟨e, he, hType, hBase, hx⟩
  liveApart := List.Pairwise.nil
  entry := by simp
  usable := by simp
  inRange := by simp

/-- No address of a live allocation is in a type `1` entry. -/
theorem Owned.not_usable {boot es : List MemoryMap} {live : List Extent}
    (h : Owned boot es live) {a : Extent} (ha : a ∈ live) {e : MemoryMap}
    (he : e ∈ es) (hType : e.type = 1) : a.Apart (extentOf e) := by
  obtain ⟨f, hf, rfl, hfType⟩ := h.entry a ha
  rcases h.apart.eq_or_apart hf he with rfl | hApart
  · omega
  · exact hApart

/-! ## Taking -/

/-- The pieces of an entry cover the same addresses. -/
theorem has_pieces {e : MemoryMap} {size x : Nat} (hSize : size ≤ e.length)
    (hLow : e.base + e.length ≤ 2 ^ 32) {d : MemoryMap} (hd : d ∈ e.pieces size)
    (hx : (extentOf d).Has x) : (extentOf e).Has x := by
  simp only [MemoryMap.pieces, List.mem_cons] at hd
  rcases hd with rfl | hd
  · simp only [extentOf, Extent.Has, MemoryMap.used] at hx ⊢
    omega
  · split at hd
    · next hSmall =>
        simp only [List.mem_singleton] at hd
        subst hd
        have hWrap : (e.base + size) % 2 ^ 64 = e.base + size :=
          Nat.mod_eq_of_lt (by omega)
        simp only [extentOf, Extent.Has, MemoryMap.rest, hWrap] at hx ⊢
        omega
    · simp at hd

theorem pieces_apart {e : MemoryMap} {size : Nat}
    (hLow : e.base + e.length ≤ 2 ^ 32) : PairwiseApart extentOf (e.pieces size) := by
  unfold MemoryMap.pieces
  split
  · next hSmall =>
      have hWrap : (e.base + size) % 2 ^ 64 = e.base + size :=
        Nat.mod_eq_of_lt (by omega)
      rw [PairwiseApart, List.pairwise_pair]
      apply Extent.apart_of_le
      simp only [extentOf, MemoryMap.used, MemoryMap.rest, hWrap]
      exact Or.inl (Nat.le_refl _)
  · simp

/-- The only usable piece is the rest, which is based above `0`. -/
theorem pieces_type_one {e d : MemoryMap} {size : Nat} (hd : d ∈ e.pieces size)
    (hType : d.type = 1) : d = e.rest size ∧ size < e.length := by
  simp only [MemoryMap.pieces, List.mem_cons] at hd
  rcases hd with rfl | hd
  · simp [MemoryMap.used] at hType
  · split at hd
    · next hSmall => exact ⟨by simpa using hd, hSmall⟩
    · simp at hd

/-- Splitting a usable entry makes its front a live allocation. -/
theorem Owned.take {boot pre post : List MemoryMap} {e : MemoryMap}
    {live : List Extent} {size : Nat} (h : Owned boot (pre ++ e :: post) live)
    (hCand : Candidate size e) (hSize : 0 < size) :
    Owned boot (pre ++ e.pieces size ++ post) (⟨e.base, size⟩ :: live) := by
  obtain ⟨hBase, hFit, hType⟩ := hCand
  have he : e ∈ pre ++ e :: post := by simp
  have hLow := h.low e he hType
  have hFront : ∀ x, Extent.Has ⟨e.base, size⟩ x → (extentOf e).Has x := by
    intro x hx
    simp only [extentOf, Extent.Has] at hx ⊢
    omega
  have hOld : ∀ d ∈ pre ++ e.pieces size ++ post, d.type = 1 →
      d ∈ pre ++ e :: post ∨ d = e.rest size ∧ size < e.length := by
    intro d hd hdType
    simp only [List.mem_append] at hd
    rcases hd with (hd | hd) | hd
    · exact Or.inl (by simp [hd])
    · exact Or.inr (pieces_type_one hd hdType)
    · exact Or.inl (by simp [hd])
  refine
    { apart := ?_
      low := ?_
      fromBoot := ?_
      liveApart := ?_
      entry := ?_
      usable := ?_
      inRange := ?_ }
  · apply pairwise_apart_replace [e] (by simpa using h.apart)
      (pieces_apart hLow)
    intro d hd x hx
    exact ⟨e, by simp, has_pieces hFit hLow hd hx⟩
  · intro d hd hdType
    rcases hOld d hd hdType with hd | ⟨rfl, hSmall⟩
    · exact h.low d hd hdType
    · have hWrap : (e.base + size) % 2 ^ 64 = e.base + size :=
        Nat.mod_eq_of_lt (by omega)
      simp only [MemoryMap.rest, hWrap]
      omega
  · intro d hd hdType hdBase x hx
    rcases hOld d hd hdType with hd | ⟨rfl, hSmall⟩
    · exact h.fromBoot d hd hdType hdBase x hx
    · have hPiece : e.rest size ∈ e.pieces size := by
        simp [MemoryMap.pieces, hSmall]
      exact h.fromBoot e he hType hBase x (has_pieces hFit hLow hPiece hx)
  · refine List.pairwise_cons.mpr ⟨fun a ha => ?_, h.liveApart⟩
    exact (h.not_usable ha he hType).symm.mono hFront
  · intro a ha
    rcases List.mem_cons.mp ha with rfl | ha
    · exact ⟨e.used size, by simp [MemoryMap.pieces], rfl, rfl⟩
    · obtain ⟨d, hd, hdExt, hdType⟩ := h.entry a ha
      refine ⟨d, ?_, hdExt, hdType⟩
      simp only [List.mem_append, List.mem_cons] at hd ⊢
      rcases hd with hd | rfl | hd
      · exact Or.inl (Or.inl hd)
      · omega
      · exact Or.inr hd
  · intro a ha x hx
    rcases List.mem_cons.mp ha with rfl | ha
    · exact h.fromBoot e he hType hBase x (hFront x hx)
    · exact h.usable a ha x hx
  · intro a ha
    rcases List.mem_cons.mp ha with rfl | ha
    · exact ⟨hBase, hSize, by simp only; omega⟩
    · exact h.inRange a ha

/-- What holds of the list of entries, and again when a candidate is carved into pieces,
holds after `allocate`. -/
theorem allocated_take {P : List MemoryMap → List Extent → Prop} {es es' : List MemoryMap}
    {live : List Extent} {size r : Nat} (h : P es live) (hAlloc : Allocated size es r es')
    (hLow : ∀ e ∈ es, e.type = 1 → e.base + e.length ≤ 2 ^ 32) (hSize : 0 < size)
    (hTake : ∀ pre e post, es = pre ++ e :: post → Candidate size e →
      P (pre ++ e.pieces size ++ post) (⟨e.base, size⟩ :: live)) :
    P es' (if r = 0 then live else ⟨r, size⟩ :: live) := by
  cases hAlloc with
  | noCandidate => exact h
  | tableFull => exact h
  | @taken pre post e hBest =>
      obtain ⟨rfl, hCand, -, -⟩ := hBest
      have hEnd := hLow e (by simp) hCand.2.2
      have hAddr : e.base % 2 ^ 32 = e.base :=
        Nat.mod_eq_of_lt (by have := hCand.2.1; omega)
      rw [hAddr, if_neg hCand.1]
      exact hTake pre e post rfl hCand

/-- **`allocate` keeps ownership.** -/
theorem Owned.allocate {boot es es' : List MemoryMap} {live : List Extent}
    {size r : Nat} (h : Owned boot es live) (hAlloc : Allocated size es r es')
    (hSize : 0 < size) :
    Owned boot es' (if r = 0 then live else ⟨r, size⟩ :: live) := by
  apply allocated_take (P := Owned boot) h hAlloc h.low hSize
  rintro pre e post rfl hCand
  exact h.take hCand hSize

/-! ## Giving back -/

/-- Making the freed entry usable ends the allocation based there. -/
theorem Owned.release {boot pre post : List MemoryMap} {e : MemoryMap}
    {live : List Extent} {a : Extent} (h : Owned boot (pre ++ e :: post) live)
    (ha : a ∈ live) (hBase : e.base = a.base) :
    Owned boot (pre ++ e.usable :: post) (live.filter (·.base ≠ a.base)) := by
  have he : e ∈ pre ++ e :: post := by simp
  obtain ⟨f, hf, rfl, hfType⟩ := h.entry a ha
  obtain ⟨hNonzero, hPos, hHigh⟩ := h.inRange _ ha
  -- the entry found is the allocation's own, or an empty one at its base
  have hSub : ∀ x, (extentOf e).Has x → (extentOf f).Has x := by
    rcases h.apart.eq_or_apart he hf with rfl | hApart
    · exact fun x hx => hx
    · intro x hx
      have hAt := hApart e.base
      simp only [extentOf, Extent.Has] at hx hAt hPos hBase
      omega
  have hEnd : e.base + e.length ≤ 2 ^ 32 := by
    by_cases hEmpty : e.length = 0
    · simp only [extentOf] at hHigh hBase
      omega
    · have hLast := hSub (e.base + e.length - 1)
      simp only [extentOf, Extent.Has] at hLast hHigh
      omega
  have hOld : ∀ d ∈ pre ++ e.usable :: post, d ∈ pre ++ e :: post ∨ d = e.usable := by
    intro d hd
    simp only [List.mem_append, List.mem_cons] at hd ⊢
    tauto
  refine
    { apart := ?_
      low := ?_
      fromBoot := ?_
      liveApart := h.liveApart.filter _
      entry := ?_
      usable := fun b hb => h.usable b (List.mem_of_mem_filter hb)
      inRange := fun b hb => h.inRange b (List.mem_of_mem_filter hb) }
  · have hApart := h.apart
    rw [show pre ++ e.usable :: post = pre ++ [e.usable] ++ post by simp]
    apply pairwise_apart_replace [e] (by simpa using hApart) (by simp)
    intro d hd x hx
    rw [List.mem_singleton.mp hd] at hx
    exact ⟨e, by simp, hx⟩
  · intro d hd hdType
    rcases hOld d hd with hd | rfl
    · exact h.low d hd hdType
    · exact hEnd
  · intro d hd hdType hdBase x hx
    rcases hOld d hd with hd | rfl
    · exact h.fromBoot d hd hdType hdBase x hx
    · exact h.usable _ ha x (hSub x hx)
  · intro b hb
    rw [List.mem_filter] at hb
    obtain ⟨d, hd, rfl, hdType⟩ := h.entry b hb.1
    refine ⟨d, ?_, rfl, hdType⟩
    simp only [List.mem_append, List.mem_cons] at hd ⊢
    rcases hd with hd | rfl | hd
    · exact Or.inl hd
    · exact absurd hBase (of_decide_eq_true hb.2)
    · exact Or.inr (Or.inr hd)

/-- Neighbours that glue and do not wrap meet, and the merged entry is as long as both. -/
theorem glue_length {l r : MemoryMap} (hGlue : Glue l r) (hl : l.base + l.length < 2 ^ 64)
    (hr : r.base + r.length < 2 ^ 64) :
    l.base + l.length = r.base ∧ (l.join r).length = l.length + r.length := by
  have hBase : l.base + l.length = r.base := by
    rw [← hGlue.2.2, MemoryMap.limit, Nat.mod_eq_of_lt hl]
  exact ⟨hBase, Nat.mod_eq_of_lt (by omega)⟩

/-- The merged entry describes the addresses of both. -/
theorem has_join {l r : MemoryMap} (hGlue : Glue l r) (hl : l.base + l.length < 2 ^ 64)
    (hr : r.base + r.length < 2 ^ 64) (x : Nat) :
    (extentOf (l.join r)).Has x ↔ (extentOf l).Has x ∨ (extentOf r).Has x := by
  obtain ⟨hBase, hLength⟩ := glue_length hGlue hl hr
  have hStart : (l.join r).base = l.base := rfl
  simp only [extentOf, Extent.Has, hStart, hLength]
  omega

/-- Joining two usable neighbours changes no owner. -/
theorem Owned.join {boot pre post : List MemoryMap} {l r : MemoryMap}
    {live : List Extent} (hGlue : Glue l r)
    (h : Owned boot (pre ++ l :: r :: post) live) :
    Owned boot (pre ++ l.join r :: post) live := by
  have hlType := hGlue.1
  have hrType := hGlue.2.1
  have hl : l ∈ pre ++ l :: r :: post := by simp
  have hr : r ∈ pre ++ l :: r :: post := by simp
  have hlLow := h.low l hl hlType
  have hrLow := h.low r hr hrType
  obtain ⟨hBase, hLength⟩ := glue_length hGlue (by omega) (by omega)
  have hHas : ∀ x, (extentOf (l.join r)).Has x →
      (extentOf l).Has x ∨ (extentOf r).Has x := fun x =>
    (has_join hGlue (by omega) (by omega) x).mp
  have hOld : ∀ d ∈ pre ++ l.join r :: post,
      d ∈ pre ++ l :: r :: post ∨ d = l.join r := by
    intro d hd
    simp only [List.mem_append, List.mem_cons] at hd ⊢
    tauto
  refine
    { apart := ?_
      low := ?_
      fromBoot := ?_
      liveApart := h.liveApart
      entry := ?_
      usable := h.usable
      inRange := h.inRange }
  · rw [show pre ++ l.join r :: post = pre ++ [l.join r] ++ post by simp]
    apply pairwise_apart_replace [l, r] (by simpa using h.apart) (by simp)
    intro d hd x hx
    rw [List.mem_singleton.mp hd] at hx
    rcases hHas x hx with hx | hx
    · exact ⟨l, by simp, hx⟩
    · exact ⟨r, by simp, hx⟩
  · intro d hd hdType
    rcases hOld d hd with hd | rfl
    · exact h.low d hd hdType
    · rw [hLength, show (l.join r).base = l.base from rfl]
      omega
  · intro d hd hdType hdBase x hx
    rcases hOld d hd with hd | rfl
    · exact h.fromBoot d hd hdType hdBase x hx
    · have hlBase : l.base ≠ 0 := hdBase
      rcases hHas x hx with hx | hx
      · exact h.fromBoot l hl hlType hlBase x hx
      · exact h.fromBoot r hr hrType (by omega) x hx
  · intro a ha
    obtain ⟨d, hd, hdExt, hdType⟩ := h.entry a ha
    refine ⟨d, ?_, hdExt, hdType⟩
    simp only [List.mem_append, List.mem_cons] at hd ⊢
    rcases hd with hd | rfl | rfl | hd
    · exact Or.inl hd
    · omega
    · omega
    · exact Or.inr (Or.inr hd)

/-- **`free` of a live allocation keeps ownership.** -/
theorem Owned.free {boot es es' : List MemoryMap} {live : List Extent}
    {a : Extent} (h : Owned boot es live) (ha : a ∈ live)
    (hFreed : Freed a.base es es') :
    Owned boot es' (live.filter (·.base ≠ a.base)) := by
  refine hFreed.closure (P := fun fs => Owned boot fs (live.filter (·.base ≠ a.base)))
    ?_ ?_ ?_
  · intro hNone
    obtain ⟨e, he, hExt, -⟩ := h.entry a ha
    exact absurd (congrArg Extent.base hExt) (hNone e he)
  · rintro pre e post rfl hBase -
    exact h.release ha hBase
  · intro pre l r post hGlue hOwned
    exact hOwned.join hGlue

/-! ## Runs -/

/-- A call of the physical allocator. -/
inductive Call
  | allocate (size : Nat)
  | free (physicalAddress : Nat)
  deriving Repr, DecidableEq

/-- The map together with the allocations handed out and not freed since. -/
structure State where
  table : Table
  live : List Extent

/-- One call.  Sizes are positive and only live allocations are freed. -/
def step (s : State) : Call → Option State
  | .allocate size =>
      if size = 0 then none
      else
        let r := allocate size s.table
        some
          { table := r.2
            live := if r.1 = 0 then s.live else ⟨r.1, size⟩ :: s.live }
  | .free p =>
      if p ∈ s.live.map Extent.base then
        some
          { table := free p s.table
            live := s.live.filter (·.base ≠ p) }
      else none

theorem step_owned {boot : List MemoryMap} (s : State) (c : Call) (s' : State)
    (h : Owned boot s.table.entries s.live) (hStep : step s c = some s') :
    Owned boot s'.table.entries s'.live := by
  cases c with
  | allocate size =>
      simp only [step] at hStep
      split at hStep
      · simp at hStep
      · next hSize =>
          cases hStep
          exact h.allocate (allocate_cases size s.table) (by omega)
  | free p =>
      simp only [step] at hStep
      split at hStep
      · next hLive =>
          cases hStep
          obtain ⟨a, ha, rfl⟩ := List.mem_map.mp hLive
          exact h.free ha (free_cases a.base s.table)
      · simp at hStep

/-- Every run keeps ownership. -/
theorem exec_owned {boot : Table} (hApart : PairwiseApart extentOf boot.entries)
    (hLow : ∀ e ∈ boot.entries, e.type = 1 → e.base + e.length ≤ 2 ^ 32)
    {calls : List Call} {s : State}
    (hRun : exec step { table := boot, live := [] } calls = some s) :
    Owned boot.entries s.table.entries s.live :=
  exec_invariant (I := fun s => Owned boot.entries s.table.entries s.live)
    step_owned (Owned.boot hApart hLow) hRun

/-- **Physical memory is owned at most once.**  After every run of `allocate`
and `free` from a boot map whose entries are disjoint and whose usable
entries end at or below 4 GiB, the live allocations are disjoint, consist of
usable boot memory outside the entry at `0`, and avoid every entry the map
still calls usable. -/
theorem live_allocations_disjoint {boot : Table}
    (hApart : PairwiseApart extentOf boot.entries)
    (hLow : ∀ e ∈ boot.entries, e.type = 1 → e.base + e.length ≤ 2 ^ 32)
    {calls : List Call} {s : State}
    (hRun : exec step { table := boot, live := [] } calls = some s) :
    s.live.Pairwise Extent.Apart ∧
      (∀ a ∈ s.live, ∀ x, a.Has x → UsableAt boot.entries x) ∧
      ∀ a ∈ s.live, ∀ e ∈ s.table.entries, e.type = 1 → a.Apart (extentOf e) := by
  have h := exec_owned hApart hLow hRun
  exact ⟨h.liveApart, h.usable, fun a ha e he => h.not_usable ha he⟩

/-- A map as a PC firmware reports it: low memory, a reserved hole and one
mebibyte of memory from 1 MiB on. -/
def pcMap : Table := Table.ofList
  [ { base := 0, length := 0x9FC00, type := 1, acpi := 1 }
  , { base := 0x9FC00, length := 0x60400, type := 2, acpi := 1 }
  , { base := 0x100000, length := 0x100000, type := 1, acpi := 1 } ]

/-- Two allocations, the first freed again: the second is what is left. -/
theorem live_allocations_disjoint_pcMap :
    ∃ s, exec step { table := pcMap, live := [] }
        [.allocate 4096, .allocate 512, .free 0x100000] = some s ∧
      s.live = [⟨0x101000, 512⟩] ∧
      s.live.Pairwise Extent.Apart ∧
      (∀ a ∈ s.live, ∀ x, a.Has x → UsableAt pcMap.entries x) ∧
      ∀ a ∈ s.live, ∀ e ∈ s.table.entries, e.type = 1 → a.Apart (extentOf e) := by
  have hLive : (exec step { table := pcMap, live := [] }
      [.allocate 4096, .allocate 512, .free 0x100000]).map State.live =
        some [⟨0x101000, 512⟩] := by decide
  obtain ⟨s, hRun, hs⟩ := Option.map_eq_some_iff.mp hLive
  exact ⟨s, hRun, hs, live_allocations_disjoint (by decide) (by decide) hRun⟩

end MiniKernel.Ports.PmmOwnership
