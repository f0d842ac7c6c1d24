import MiniKernel.Ports.PagingRecycling
import MiniKernel.Ports.PmmReserved

/-!
# Frames behind the held pages

Runs of `allocate_page`, `allocate_pages_contig` and `free_page`, with page
tables as the arrays the code addresses.  Three allocators meet here: the
memory map owns frames (`Owned`), the stack and `next_virtual` own virtual
pages (`Placed`), and the tables connect the two.  `Backed` says that the
connection respects both: tables and mapped held pages have live frames of
their own, and pages on the stack have none.

A new table or page takes a frame that `allocate` just handed out, so it
cannot collide with anything; the proof of `Backed.map` is this argument for
the three outcomes of `map_page`.
-/

namespace MiniKernel.Ports.PagingFrames

open MiniKernel.Verified.Extents
open MiniKernel.Verified.PageWords
open MiniKernel.Verified.Trace
open MiniKernel.Ports.Pmm
open MiniKernel.Ports.PmmOwnership (extentOf Owned pieces_type_one glue_length)
open MiniKernel.Ports.PmmReserved (occupied)
open MiniKernel.Ports.Paging
open MiniKernel.Ports.PagingRecycling
open MiniKernel.Ports.PagingTables

/-- The extent of a frame. -/
def frameAt (f : Nat) : Extent := ⟨f, 4096⟩

/-- Memory that may be handed out is cut at page boundaries. -/
def Grid (es : List MemoryMap) : Prop :=
  ∀ e ∈ es, e.type = 1 → e.base ≠ 0 → e.base % 4096 = 0 ∧ e.length % 4096 = 0

instance (es : List MemoryMap) : Decidable (Grid es) := by
  unfold Grid
  infer_instance

/-! ## Page-aligned memory -/

/-- Carving a frame leaves the cuts at page boundaries, and the frame is one. -/
theorem Grid.allocate {es es' : List MemoryMap} {r : Nat} (h : Grid es)
    (hLow : ∀ e ∈ es, e.type = 1 → e.base + e.length ≤ 2 ^ 32)
    (hAlloc : Allocated 4096 es r es') : Grid es' ∧ r % 4096 = 0 := by
  cases hAlloc with
  | noCandidate => exact ⟨h, rfl⟩
  | tableFull => exact ⟨h, rfl⟩
  | @taken pre post e hBest =>
      obtain ⟨rfl, ⟨hBase, hFit, hType⟩, -, -⟩ := hBest
      have hAligned := h e (by simp) hType hBase
      have hEnd := hLow e (by simp) hType
      refine ⟨fun d hd hdType hdBase => ?_, by omega⟩
      rcases List.mem_append.mp hd with hd | hd
      · rcases List.mem_append.mp hd with hd | hd
        · exact h d (by simp [hd]) hdType hdBase
        · obtain ⟨rfl, hSmall⟩ := pieces_type_one hd hdType
          simp only [MemoryMap.rest]
          omega
      · exact h d (by simp [hd]) hdType hdBase

/-- Freeing a live frame leaves the cuts at page boundaries. -/
theorem Grid.free {boot es es' : List MemoryMap} {live : List Extent} {f : Nat}
    (h : Grid es) (hOwned : Owned boot es live) (hLive : frameAt f ∈ live)
    (hAligned : f % 4096 = 0) (hFreed : Freed f es es') : Grid es' := by
  suffices hBoth : Grid es' ∧ ∃ live', Owned boot es' live' from hBoth.1
  refine hFreed.closure (P := fun fs => Grid fs ∧ ∃ live', Owned boot fs live')
    (fun _ => ⟨h, live, hOwned⟩) ?_ ?_
  · rintro pre e post rfl hBase -
    refine ⟨fun d hd hdType hdBase => ?_, _, hOwned.release hLive hBase⟩
    rcases List.mem_append.mp hd with hd | hd
    · exact h d (by simp [hd]) hdType hdBase
    · rcases List.mem_cons.mp hd with rfl | hd
      · obtain ⟨g, hg, hExt, -⟩ := hOwned.entry _ hLive
        have hgBase : g.base = f := congrArg Extent.base hExt
        have hgLength : g.length = 4096 := congrArg Extent.length hExt
        have hLength : e.length = 0 ∨ e.length = 4096 := by
          -- an entry based at the frame is the frame's own or empty
          rcases hOwned.apart.eq_or_apart (show e ∈ pre ++ e :: post by simp) hg with
            rfl | hApart
          · exact Or.inr hgLength
          · have hAt := hApart e.base
            simp only [extentOf, Extent.Has] at hAt
            omega
        simp only [MemoryMap.usable]
        omega
      · exact h d (by simp [hd]) hdType hdBase
  · rintro pre l r post hGlue ⟨hGrid, live', hOwned'⟩
    refine ⟨fun d hd hdType hdBase => ?_, live', hOwned'.join hGlue⟩
    rcases List.mem_append.mp hd with hd | hd
    · exact hGrid d (by simp [hd]) hdType hdBase
    · rcases List.mem_cons.mp hd with rfl | hd
      · -- the joined entry is exempt with its left half, and the right one never is
        have hlLow := hOwned'.low l (by simp) hGlue.1
        have hrLow := hOwned'.low r (by simp) hGlue.2.1
        have hlBase : l.base ≠ 0 := hdBase
        obtain ⟨hEnd, hLength⟩ := glue_length hGlue (by omega) (by omega)
        have hl := hGrid l (by simp) hGlue.1 hlBase
        have hr := hGrid r (by simp) hGlue.2.1 (by omega)
        rw [hLength, show (l.join r).base = l.base from rfl]
        omega
      · exact hGrid d (by simp [hd]) hdType hdBase

/-! ## The invariant -/

/-- Physical memory of the tables: they and the live frames are separate. -/
structure Framed (layout : Layout) (boot : List MemoryMap) (vm : Vm) (live : List Extent) :
    Prop where
  tables : Tables vm
  owned : Owned boot vm.pmm.entries live
  grid : Grid vm.pmm.entries
  aligned : ∀ a ∈ live, ∃ f, f % 4096 = 0 ∧ a = frameAt f
  table : ∀ d, d < 1024 → HasTable vm d →
    tableOf vm d = layout.pageTable ∨ frameAt (tableOf vm d) ∈ live

/-- Held pages and freed pages, seen through the tables. -/
structure Mapped (vm : Vm) (live : List Extent) (held freed : List Nat) : Prop where
  live : ∀ p ∈ held, Present (entryWord vm p) → frameAt (frameOf (entryWord vm p)) ∈ live
  noTable : ∀ p ∈ held, Present (entryWord vm p) → ∀ d, d < 1024 → HasTable vm d →
    tableOf vm d ≠ frameOf (entryWord vm p)
  distinct : ∀ p ∈ held, ∀ q ∈ held, p ≠ q → Present (entryWord vm p) →
    Present (entryWord vm q) → frameOf (entryWord vm p) ≠ frameOf (entryWord vm q)
  freed : ∀ p ∈ freed, ¬Present (entryWord vm p)

/-- What the kernel occupies: the first page table, the screen, the memory map, the
image and the boot stack. -/
def kernelMemory (layout : Layout) (boot : List MemoryMap) : List Extent :=
  frameAt layout.pageTable :: frameAt 0xB8000 ::
    occupied layout.kernelEnd 0x8F000 (max boot.length maxFreePages)

/-- The firmware offers none of it, unless in the entry based at `0`, which `allocate`
skips. -/
def KernelReserved (layout : Layout) (boot : List MemoryMap) : Prop :=
  ∀ e ∈ boot, e.type = 1 → e.base ≠ 0 → ∀ o ∈ kernelMemory layout boot, (extentOf e).Apart o

instance (layout : Layout) (boot : List MemoryMap) : Decidable (KernelReserved layout boot) := by
  unfold KernelReserved
  infer_instance

variable {layout : Layout} {boot : List MemoryMap} {vm vm' : Vm} {live : List Extent}
  {held freed : List Nat}

/-! ## Frames -/

/-- Live memory is nowhere near the kernel's. -/
theorem live_apart (hOwned : Owned boot vm.pmm.entries live)
    (hReserved : KernelReserved layout boot) {a : Extent} (ha : a ∈ live) :
    ∀ o ∈ kernelMemory layout boot, a.Apart o := by
  intro o ho x hx hxo
  obtain ⟨b, hb, hType, hBase, hHas⟩ := hOwned.usable a ha x hx
  exact hReserved b hb hType hBase o ho x hHas hxo

theorem live_ne_pageTable (hOwned : Owned boot vm.pmm.entries live)
    (hReserved : KernelReserved layout boot) {f : Nat} (hf : frameAt f ∈ live) :
    f ≠ layout.pageTable := by
  rintro rfl
  have hFirst : (frameAt layout.pageTable).Has layout.pageTable := by
    simp only [frameAt, Extent.Has]
    omega
  exact live_apart hOwned hReserved hf _ List.mem_cons_self _ hFirst hFirst

/-- The tables and the virtual allocator do not matter for the memory map. -/
theorem Framed.update (h : Framed layout boot vm live) (hPmm : vm'.pmm = vm.pmm)
    (hDirectory : vm'.pageDirectory = vm.pageDirectory) : Framed layout boot vm' live := by
  have hSame : ∀ d, SameTable vm vm' d := fun d => sameTable_of_eq (by rw [hDirectory])
  exact
    { tables := h.tables.congr hSame
      owned := by rw [hPmm]; exact h.owned
      grid := by rw [hPmm]; exact h.grid
      aligned := h.aligned
      table := fun d hd hHas => by
        rw [(hSame d).2]
        exact h.table d hd ((hSame d).1.mp hHas) }

/-- Nothing is handed out. -/
theorem Framed.full (h : Framed layout boot vm live) (hFull : (allocate 4096 vm.pmm).1 = 0) :
    Framed layout boot { vm with pmm := (allocate 4096 vm.pmm).2 } live where
  tables := h.tables.congr fun _ => sameTable_of_eq rfl
  owned := by
    have hOwned := h.owned.allocate (allocate_cases 4096 vm.pmm) (by decide)
    rwa [if_pos hFull] at hOwned
  grid := (h.grid.allocate h.owned.low (allocate_cases 4096 vm.pmm)).1
  aligned := h.aligned
  table := h.table

/-- **A new frame** is page aligned, nobody's, and nobody's table. -/
theorem Framed.fresh (h : Framed layout boot vm live) (hReserved : KernelReserved layout boot)
    {f : Nat} (hf : (allocate 4096 vm.pmm).1 = f) (hSome : f ≠ 0) :
    Framed layout boot { vm with pmm := (allocate 4096 vm.pmm).2 } (frameAt f :: live) ∧
      f % 4096 = 0 ∧ f < 2 ^ 32 ∧ frameAt f ∉ live ∧
      ∀ d, d < 1024 → HasTable vm d → tableOf vm d ≠ f := by
  have hOwned := h.owned.allocate (allocate_cases 4096 vm.pmm) (by decide)
  obtain ⟨hGrid, hAligned⟩ := h.grid.allocate h.owned.low (allocate_cases 4096 vm.pmm)
  rw [hf] at hOwned hAligned
  rw [if_neg hSome] at hOwned
  have hNotLive : frameAt f ∉ live := by
    intro hIn
    have hApart := (List.pairwise_cons.mp hOwned.liveApart).1 _ hIn f
    simp only [frameAt, Extent.Has] at hApart
    omega
  have hRange : f < 2 ^ 32 := by
    rw [← hf]
    exact allocate_lt 4096 vm.pmm
  have hFrame : f ≠ layout.pageTable := by
    have hPmm : Owned boot (Vm.pmm { vm with pmm := (allocate 4096 vm.pmm).2 }).entries
        (frameAt f :: live) := hOwned
    exact live_ne_pageTable hPmm hReserved (by simp)
  refine ⟨⟨h.tables.congr fun _ => sameTable_of_eq rfl, hOwned, hGrid, ?_, ?_⟩, hAligned,
    hRange, hNotLive, ?_⟩
  · intro a ha
    rcases List.mem_cons.mp ha with rfl | ha
    · exact ⟨f, hAligned, rfl⟩
    · exact h.aligned a ha
  · intro d hd hHas
    rcases h.table d hd hHas with hFirst | hLive
    · exact Or.inl hFirst
    · exact Or.inr (List.mem_cons_of_mem _ hLive)
  · rintro d hd hHas rfl
    rcases h.table d hd hHas with hFirst | hLive
    · exact hFrame hFirst
    · exact hNotLive hLive

/-- What `map_page` does to the frames and the table words. -/
structure MapEffect (layout : Layout) (boot : List MemoryMap) (vm vm' : Vm)
    (live live' : List Extent) (page word : Nat) : Prop where
  framed : Framed layout boot vm' live'
  keeps : ∀ a ∈ live, a ∈ live'
  others : ∀ q, q < 2 ^ 20 → q ≠ page → entryWord vm' q = entryWord vm q
  own : entryWord vm' page = word ∨ ¬Present (entryWord vm' page)
  tables : ∀ d, d < 1024 → HasTable vm' d →
    HasTable vm d ∧ tableOf vm' d = tableOf vm d ∨ frameAt (tableOf vm' d) ∉ live

/-- **`map_page`**: the page is mapped, or is not because there is no memory
for its table; a new table has a frame of its own. -/
theorem Framed.map (h : Framed layout boot vm live) (hReserved : KernelReserved layout boot)
    {physical virtual flags : Nat} (hVirtual : virtual < 2 ^ 32) (hFlags : flags < 2 ^ 32)
    (hMap : mapPage direct physical virtual flags vm = some vm') :
    ∃ live', MapEffect layout boot vm vm' live live' (pageOf virtual)
      (frameOf physical ||| flags) := by
  have hPage : pageOf virtual < 2 ^ 20 := by
    unfold pageOf
    omega
  by_cases hTable : HasTable vm (pageOf virtual / 1024)
  · obtain ⟨vm₁, hMap₁, hSame, hPmm, -, hWords⟩ :=
      Distinct.mapPage direct h.tables.distinct physical
      hVirtual hFlags hTable fun _ _ _ _ _ => rfl
    cases hMap₁.symm.trans hMap
    refine ⟨live, ⟨h.tables.congr hSame, ?_, ?_, h.aligned, fun d hd hHas => ?_⟩,
      fun _ ha => ha, fun q hq hne => ?_, Or.inl ?_, fun d hd hHas => ?_⟩
    · rw [hPmm]
      exact h.owned
    · rw [hPmm]
      exact h.grid
    · rw [(hSame d).2]
      exact h.table d hd ((hSame d).1.mp hHas)
    · rw [hWords q hq, if_neg hne]
    · rw [hWords _ hPage, if_pos rfl]
    · exact Or.inl ⟨(hSame d).1.mp hHas, (hSame d).2⟩
  · by_cases hFull : (allocate 4096 vm.pmm).1 = 0
    · rw [mapPage_full hTable hFull] at hMap
      cases hMap
      refine ⟨live, h.full hFull, fun _ ha => ha, fun q _ _ => rfl, Or.inr ?_,
        fun d _ hHas => Or.inl ⟨hHas, rfl⟩⟩
      exact mt entryWord_present hTable
    · generalize ht : (allocate 4096 vm.pmm).1 = t at hFull
      obtain ⟨hTaken, hAligned, hRange, hNotLive, hFresh⟩ := h.fresh hReserved ht hFull
      obtain ⟨vm₁, hMap₁, hNew, hWords⟩ :=
        Distinct.mapPage_adds direct h.tables.distinct physical hVirtual hFlags
        hTable ht hFull hAligned hRange hFresh fun _ _ _ _ _ => rfl
      cases hMap₁.symm.trans hMap
      refine ⟨frameAt t :: live, ⟨hNew.tables h.tables, ?_, ?_, hTaken.aligned,
        fun d hd hHas => ?_⟩,
        fun _ ha => List.mem_cons_of_mem _ ha, fun q hq hne => ?_, Or.inl ?_,
        fun d hd hHas => ?_⟩
      · rw [hNew.pmm]
        exact hTaken.owned
      · rw [hNew.pmm]
        exact hTaken.grid
      · by_cases hEq : d = pageOf virtual / 1024
        · rw [hEq, hNew.tableOf]
          exact Or.inr (by simp)
        · rw [(hNew.other d hEq).2]
          exact hTaken.table d hd ((hNew.other d hEq).1.mp hHas)
      · rw [hWords q hq, if_neg hne]
      · rw [hWords _ hPage, if_pos rfl]
      · by_cases hEq : d = pageOf virtual / 1024
        · rw [hEq, hNew.tableOf]
          exact Or.inr hNotLive
        · exact Or.inl ⟨(hNew.other d hEq).1.mp hHas, (hNew.other d hEq).2⟩

/-! ## Pages -/

/-- Pages that keep their words and frames, seen through the same tables. -/
theorem Mapped.keep {live' : List Extent} {held' freed' : List Nat}
    (h : Mapped vm live held freed) (hSame : ∀ d, SameTable vm vm' d)
    (hWords : ∀ p ∈ held', p ∈ held ∧ entryWord vm' p = entryWord vm p)
    (hLive : ∀ p ∈ held', Present (entryWord vm p) →
      frameAt (frameOf (entryWord vm p)) ∈ live')
    (hFreed : ∀ p ∈ freed', ¬Present (entryWord vm' p)) : Mapped vm' live' held' freed' where
  live p hp hPresent := by
    rw [(hWords p hp).2] at hPresent ⊢
    exact hLive p hp hPresent
  noTable p hp hPresent d hd hHas := by
    rw [(hWords p hp).2] at hPresent ⊢
    rw [(hSame d).2]
    exact h.noTable p (hWords p hp).1 hPresent d hd ((hSame d).1.mp hHas)
  distinct p hp q hq hne hPresent hPresent' := by
    rw [(hWords p hp).2] at hPresent ⊢
    rw [(hWords q hq).2] at hPresent' ⊢
    exact h.distinct p (hWords p hp).1 q (hWords q hq).1 hne hPresent hPresent'
  freed := hFreed

/-- Callers may drop pages. -/
theorem Mapped.drop {held' : List Nat} (h : Mapped vm live held freed)
    (hHeld : ∀ p ∈ held', p ∈ held) : Mapped vm live held' freed :=
  h.keep (SameTable.refl vm) (fun p hp => ⟨hHeld p hp, rfl⟩)
    (fun p hp => h.live p (hHeld p hp)) h.freed

/-- The words and the tables are all that matters. -/
theorem Mapped.congr {freed' : List Nat} (h : Mapped vm live held freed)
    (hMem : vm'.mem = vm.mem) (hDirectory : vm'.pageDirectory = vm.pageDirectory)
    (hFreed : ∀ p ∈ freed', p ∈ freed) : Mapped vm' live held freed' := by
  have hSame : ∀ d, SameTable vm vm' d := fun d => sameTable_of_eq (by rw [hDirectory])
  have hWords : ∀ p, entryWord vm' p = entryWord vm p := fun p =>
    entryWord_congr (hSame _) fun _ _ _ _ => by rw [hMem]
  refine h.keep hSame (fun p hp => ⟨hp, hWords p⟩) h.live fun p hp => ?_
  rw [hWords]
  exact h.freed p (hFreed p hp)

/-- **Mapping one page to a new frame.** -/
theorem Mapped.map {live' : List Extent} {page f flags : Nat} (h : Mapped vm live held freed)
    (hEffect : MapEffect layout boot vm vm' (frameAt f :: live) live' page
      (frameOf f ||| flags))
    (hHeld : ∀ p ∈ held, p < 2 ^ 20) (hFreed : ∀ p ∈ freed, p < 2 ^ 20)
    (hNew : page ∉ freed) (hFlags : flags < 4096) (hAligned : f % 4096 = 0)
    (hRange : f < 2 ^ 32) (hNotLive : frameAt f ∉ live)
    (hFresh : ∀ d, d < 1024 → HasTable vm d → tableOf vm d ≠ f) :
    Mapped vm' live' (page :: held) freed := by
  have hFrame : frameOf (frameOf f ||| flags) = f := by
    rw [frameOf_or _ hFlags, frameOf_aligned (frameOf_mod f) (by have := frameOf_le f; omega),
      frameOf_aligned hAligned hRange]
  -- the page itself has the new frame, every other held page the one it had
  have hOwn : Present (entryWord vm' page) → frameOf (entryWord vm' page) = f := by
    intro hPresent
    rcases hEffect.own with hWord | hNot
    · rw [hWord, hFrame]
    · exact absurd hPresent hNot
  have hOther : ∀ p ∈ held, p ≠ page → entryWord vm' p = entryWord vm p := fun p hp =>
    hEffect.others p (hHeld p hp)
  have hOld : ∀ p ∈ held, p ≠ page → Present (entryWord vm' p) →
      frameAt (frameOf (entryWord vm' p)) ∈ live := by
    intro p hp hne hPresent
    rw [hOther p hp hne] at hPresent ⊢
    exact h.live p hp hPresent
  have hApart : ∀ p ∈ held, p ≠ page → Present (entryWord vm' p) →
      frameOf (entryWord vm' p) ≠ f := by
    rintro p hp hne hPresent rfl
    exact hNotLive (hOld p hp hne hPresent)
  refine ⟨fun p hp hPresent => ?_, fun p hp hPresent d hd hHas hEq => ?_,
    fun p hp q hq hne hPresent hPresent' => ?_, fun p hp => ?_⟩
  · by_cases hEq : p = page
    · subst hEq
      rw [hOwn hPresent]
      exact hEffect.keeps _ (by simp)
    · have hIn := (List.mem_cons.mp hp).resolve_left hEq
      exact hEffect.keeps _ (List.mem_cons_of_mem _ (hOld p hIn hEq hPresent))
  · rcases hEffect.tables d hd hHas with ⟨hHasOld, hSame⟩ | hNewTable
    · by_cases hPage : p = page
      · subst hPage
        rw [hOwn hPresent, hSame] at hEq
        exact hFresh d hd hHasOld hEq
      · have hIn := (List.mem_cons.mp hp).resolve_left hPage
        rw [hOther p hIn hPage] at hPresent hEq
        rw [hSame] at hEq
        exact h.noTable p hIn hPresent d hd hHasOld hEq
    · rw [hEq] at hNewTable
      by_cases hPage : p = page
      · subst hPage
        rw [hOwn hPresent] at hNewTable
        exact hNewTable (by simp)
      · have hIn := (List.mem_cons.mp hp).resolve_left hPage
        exact hNewTable (List.mem_cons_of_mem _ (hOld p hIn hPage hPresent))
  · by_cases hPage : p = page
    · subst hPage
      have hIn := (List.mem_cons.mp hq).resolve_left (Ne.symm hne)
      rw [hOwn hPresent]
      exact (hApart q hIn (Ne.symm hne) hPresent').symm
    · have hIn := (List.mem_cons.mp hp).resolve_left hPage
      by_cases hPage' : q = page
      · subst hPage'
        rw [hOwn hPresent']
        exact hApart p hIn hPage hPresent
      · have hIn' := (List.mem_cons.mp hq).resolve_left hPage'
        rw [hOther p hIn hPage] at hPresent ⊢
        rw [hOther q hIn' hPage'] at hPresent' ⊢
        exact h.distinct p hIn q hIn' hne hPresent hPresent'
  · rw [hEffect.others p (hFreed p hp) fun hEq => hNew (hEq ▸ hp)]
    exact h.freed p hp

/-- **Mapping a range of pages to new frames.** -/
theorem mapContig_backed (hReserved : KernelReserved layout boot) {start flag : Nat}
    (hFlag : flag < 4096) {ks : List Nat} {ok : Bool} (hFramed : Framed layout boot vm live)
    (hMapped : Mapped vm live held freed) (hHeld : ∀ p ∈ held, p < 2 ^ 20)
    (hFreed : ∀ p ∈ freed, p < 2 ^ 20)
    (hNew : ∀ k ∈ ks, pageOf ((start + k * 4096) % 2 ^ 32) ∉ freed)
    (hLoop : mapContig direct start flag ks vm = some (ok, vm')) :
    ∃ live', Framed layout boot vm' live' ∧ Mapped vm' live' held freed ∧
      (ok = true → Mapped vm' live'
        ((ks.map fun k => pageOf ((start + k * 4096) % 2 ^ 32)) ++ held) freed) := by
  induction ks generalizing vm live held with
  | nil =>
      cases hLoop
      exact ⟨live, hFramed, hMapped, fun _ => hMapped⟩
  | cons k ks ih =>
      simp only [mapContig] at hLoop
      generalize hv : (start + k * 4096) % 2 ^ 32 = v at hLoop
      have hVirtual : v < 2 ^ 32 := by
        rw [← hv]
        exact Nat.mod_lt _ (Nat.two_pow_pos 32)
      generalize hf : (allocate 4096 vm.pmm).1 = f at hLoop
      by_cases hFull : f = 0
      · rw [if_pos hFull] at hLoop
        cases hLoop
        exact ⟨live, hFramed.full (hf.trans hFull), hMapped.congr rfl rfl fun _ hp => hp,
          fun h => by cases h⟩
      · rw [if_neg hFull] at hLoop
        obtain ⟨vm₁, hMap, hRest⟩ := Option.bind_eq_some_iff.mp hLoop
        obtain ⟨hTaken, hAligned, hRange, hNotLive, hFresh⟩ := hFramed.fresh hReserved hf hFull
        obtain ⟨live₁, hEffect⟩ := hTaken.map hReserved hVirtual (by omega) hMap
        have hStart : Mapped { vm with pmm := (allocate 4096 vm.pmm).2 } live held freed :=
          hMapped.congr rfl rfl fun _ hp => hp
        have hMapped₁ : Mapped vm₁ live₁ (pageOf v :: held) freed :=
          hStart.map hEffect hHeld hFreed (hv ▸ hNew k (by simp)) hFlag hAligned hRange
            hNotLive hFresh
        have hPages : ∀ p ∈ pageOf v :: held, p < 2 ^ 20 := by
          intro p hp
          rcases List.mem_cons.mp hp with rfl | hp
          · unfold pageOf
            omega
          · exact hHeld p hp
        obtain ⟨live', hFramed', hMapped', hAll⟩ := ih hEffect.framed hMapped₁ hPages
          (fun k hk => hNew k (by simp [hk])) hRest
        refine ⟨live', hFramed', hMapped'.drop fun p hp => by simp [hp], ?_⟩
        intro hOk
        refine (hAll hOk).drop fun p hp => ?_
        rw [List.map_cons, hv] at hp
        simp only [List.cons_append, List.mem_cons, List.mem_append] at hp ⊢
        rcases hp with hp | hp | hp
        · exact Or.inr (Or.inl hp)
        · exact Or.inl hp
        · exact Or.inr (Or.inr hp)

/-- **Freeing a held page** ends its frame's life and unmaps it. -/
theorem freePage_backed {addr : Nat} (hFramed : Framed layout boot vm live)
    (hMapped : Mapped vm live held freed) (hHeld : ∀ p ∈ held, p < 2 ^ 20)
    (hFreed : ∀ p ∈ freed, p < 2 ^ 20) (hAddr : addr < 2 ^ 32) (hIn : pageOf addr ∈ held)
    (hFree : freePage direct addr vm = some vm') :
    ∃ live', Framed layout boot vm' live' ∧
      Mapped vm' live' (held.filter (· ≠ pageOf addr)) (freed ++ [pageOf addr]) := by
  obtain ⟨vm₁, hFree₁, hDirectory, hPmm, hWords⟩ := freePage_spec direct hFramed.tables hAddr
    fun _ _ _ _ => rfl
  cases hFree₁.symm.trans hFree
  have hSame : ∀ d, SameTable vm vm' d := fun d => sameTable_of_eq (by rw [hDirectory])
  have hPage : pageOf addr < 2 ^ 20 := hHeld _ hIn
  have hOther : ∀ p ∈ held.filter (· ≠ pageOf addr),
      p ∈ held ∧ entryWord vm' p = entryWord vm p := by
    intro p hp
    obtain ⟨hp, hne⟩ := List.mem_filter.mp hp
    have hne := of_decide_eq_true hne
    exact ⟨hp, by rw [hWords p (hHeld p hp), if_neg fun h => hne h.1]⟩
  have hUnmapped : ∀ p ∈ freed ++ [pageOf addr], ¬Present (entryWord vm' p) := by
    intro p hp
    have hRange : p < 2 ^ 20 := by
      rcases List.mem_append.mp hp with hp | hp
      · exact hFreed p hp
      · rwa [List.mem_singleton.mp hp]
    rw [hWords p hRange]
    split
    · decide
    · next hNot =>
        rcases List.mem_append.mp hp with hp | hp
        · exact hMapped.freed p hp
        · exact fun hPresent => hNot ⟨List.mem_singleton.mp hp, hPresent⟩
  by_cases hPresent : Present (entryWord vm (pageOf addr))
  · rw [if_pos hPresent] at hPmm
    have hLive := hMapped.live _ hIn hPresent
    have hNoTable := hMapped.noTable _ hIn hPresent
    have hDistinct := fun q hq hne => hMapped.distinct _ hIn q hq hne hPresent
    generalize hf : frameOf (entryWord vm (pageOf addr)) = f at *
    have hKept : ∀ g, g ≠ f → frameAt g ∈ live → frameAt g ∈ live.filter (·.base ≠ f) :=
      fun g hg hIn => List.mem_filter.mpr ⟨hIn, decide_eq_true hg⟩
    refine ⟨live.filter (·.base ≠ f), ⟨hFramed.tables.congr hSame, ?_, ?_, ?_, ?_⟩,
      hMapped.keep hSame hOther ?_ hUnmapped⟩
    · rw [hPmm]
      exact hFramed.owned.free hLive (free_cases f vm.pmm)
    · rw [hPmm]
      refine hFramed.grid.free hFramed.owned hLive ?_ (free_cases f vm.pmm)
      rw [← hf]
      exact frameOf_mod _
    · exact fun a ha => hFramed.aligned a (List.mem_of_mem_filter ha)
    · intro d hd hHas
      have hOld := (hSame d).1.mp hHas
      rw [(hSame d).2]
      exact (hFramed.table d hd hOld).imp_right (hKept _ (hNoTable d hd hOld))
    · intro p hp hp'
      obtain ⟨hp, hne⟩ := List.mem_filter.mp hp
      have hne := of_decide_eq_true hne
      exact hKept _ (hDistinct p hp (Ne.symm hne) hp').symm (hMapped.live p hp hp')
  · rw [if_neg hPresent] at hPmm
    refine ⟨live, hFramed.update hPmm hDirectory, hMapped.keep hSame hOther ?_ hUnmapped⟩
    exact fun p hp => hMapped.live p (List.mem_of_mem_filter hp)

/-- **`allocate_page`** maps the page it returns to a frame of its own. -/
theorem allocatePage_backed (hReserved : KernelReserved layout boot) {flag v : Nat}
    (hFramed : Framed layout boot vm live)
    (hMapped : Mapped vm live held ((stack vm).map pageOf)) (hPlaced : Placed vm held)
    (hFlag : flag < 4096)
    (hRoom : (allocate 4096 vm.pmm).1 ≠ 0 → vm.freeCount = 0 → vm.nextVirtual + 4096 < 2 ^ 32)
    (hCall : allocatePage direct flag vm = some (v, vm')) :
    ∃ live', Framed layout boot vm' live' ∧
      Mapped vm' live' (if v = 0 then held else pageOf v :: held) ((stack vm').map pageOf) := by
  by_cases hFull : (allocate 4096 vm.pmm).1 = 0
  · unfold allocatePage at hCall
    rw [if_pos hFull] at hCall
    cases hCall
    exact ⟨live, hFramed.full hFull, hMapped.congr rfl rfl fun _ hp => hp⟩
  · rw [allocatePage_some hFull] at hCall
    obtain ⟨vm₁, hMap, hEq⟩ := Option.map_eq_some_iff.mp hCall
    cases hEq
    generalize hf : (allocate 4096 vm.pmm).1 = f at hFull hMap
    obtain ⟨hTaken, hAligned, hRange, hNotLive, hFresh⟩ := hFramed.fresh hReserved hf hFull
    -- the page comes off the stack or from `next_virtual`
    have hStart : Placed { vm with pmm := (allocate 4096 vm.pmm).2 } held :=
      hPlaced.same ⟨rfl, rfl, rfl⟩
    have hTake := hStart.take (hRoom (hf ▸ hFull))
    obtain ⟨hPmm, hMem, hDirectory, hSub⟩ :=
      takeVirtual_frame { vm with pmm := (allocate 4096 vm.pmm).2 }
    generalize takeVirtual { vm with pmm := (allocate 4096 vm.pmm).2 } = r at *
    have hPage := hTake.lt (p := pageOf r.1) (by simp)
    have hVirtual : r.1 < 2 ^ 32 := by
      unfold pageOf at hPage
      omega
    have hBefore : Mapped r.2 live held ((stack r.2).map pageOf) := by
      refine hMapped.congr hMem hDirectory fun p hp => ?_
      obtain ⟨a, ha, rfl⟩ := List.mem_map.mp hp
      exact List.mem_map_of_mem (hSub a ha)
    have hSmall := defaultFlags_lt (by decide) hFlag
    obtain ⟨live', hEffect⟩ := (hTaken.update hPmm hDirectory).map hReserved hVirtual
      (by omega) hMap
    have hAfter := hBefore.map hEffect
      (fun p hp => hPlaced.lt (List.mem_append_left _ hp))
      (fun p hp => hTake.lt (List.mem_append_right _ hp))
      (fun hIn => (List.nodup_cons.mp hTake.nodup).1 (List.mem_append_right _ hIn))
      hSmall hAligned hRange hNotLive
      fun d hd hHas => by
        have hSame : SameTable vm r.2 d := sameTable_of_eq (by rw [hDirectory])
        rw [hSame.2]
        exact hFresh d hd (hSame.1.mp hHas)
    rw [(mapPage_same hMap).stack]
    refine ⟨live', hEffect.framed, ?_⟩
    split
    · exact hAfter.drop fun p hp => List.mem_cons_of_mem _ hp
    · exact hAfter

/-- **`allocate_pages_contig`** maps each page of the range it returns to a frame of its
own. -/
theorem allocatePagesContig_backed (hReserved : KernelReserved layout boot) {count : Int}
    {flag v : Nat} (hFramed : Framed layout boot vm live)
    (hMapped : Mapped vm live held ((stack vm).map pageOf)) (hPlaced : Placed vm held)
    (hFlag : flag < 4096) (hCount : 0 ≤ count)
    (hWrap : vm.nextVirtual + count.toNat * 4096 < 2 ^ 32)
    (hCall : allocatePagesContig direct count flag vm = some (v, vm')) :
    ∃ live', Framed layout boot vm' live' ∧
      Mapped vm' live' (if v = 0 then held else pagesFrom v count ++ held)
        ((stack vm').map pageOf) := by
  obtain ⟨⟨ok, vm₁⟩, hLoop, hEq⟩ := Option.map_eq_some_iff.mp hCall
  have hRange := hPlaced.range_new hCount hWrap
  generalize hNext : (((vm.nextVirtual : Int) + count * 4096) % 2 ^ 32).toNat = next
    at hLoop hRange
  have hStart : Framed layout boot { vm with nextVirtual := next } live :=
    hFramed.update rfl rfl
  have hBefore : Mapped { vm with nextVirtual := next } live held ((stack vm).map pageOf) :=
    hMapped.congr rfl rfl fun _ hp => hp
  have hNew : ∀ k ∈ List.range count.toNat,
      pageOf ((vm.nextVirtual + k * 4096) % 2 ^ 32) ∉ (stack vm).map pageOf := by
    intro k hk hIn
    have hPage : pageOf ((vm.nextVirtual + k * 4096) % 2 ^ 32) ∈
        pagesFrom vm.nextVirtual count ++ held :=
      List.mem_append_left _ (List.mem_map_of_mem hk)
    exact (List.nodup_append.mp hRange.nodup).2.2 _ hPage _ hIn rfl
  obtain ⟨live', hFramed', hMapped', hAll⟩ := mapContig_backed hReserved
    (defaultFlags_lt (by decide) hFlag) hStart hBefore
    (fun p hp => hPlaced.lt (List.mem_append_left _ hp))
    (fun p hp => hPlaced.lt (List.mem_append_right _ hp)) hNew hLoop
  have hStackEq := (mapContig_same hLoop).stack
  cases hEq
  refine ⟨live', hFramed', ?_⟩
  rw [show stack vm₁ = stack vm from hStackEq]
  by_cases hZero : (if ok = true then vm.nextVirtual else 0) = 0
  · simp only [hZero, if_true]
    exact hMapped'
  · simp only [if_neg hZero]
    cases ok with
    | true => exact hAll rfl
    | false => exact absurd rfl hZero

/-! ## Runs -/

/-- The call passes page flags only, frees a page that is held while there is
room on the stack, and does not wrap `next_virtual`. -/
def Orderly (s : State) : Event → Prop
  | .allocatePage flag => flag < 4096 ∧ Recyclable s (.allocatePage flag)
  | .allocatePagesContig count flag =>
      flag < 4096 ∧ Recyclable s (.allocatePagesContig count flag)
  | .freePage addr => pageOf addr ∈ s.held ∧ s.vm.freeCount < maxFreePages

instance (s : State) : (e : Event) → Decidable (Orderly s e)
  | .allocatePage _ => inferInstanceAs (Decidable (_ ∧ Recyclable ..))
  | .allocatePagesContig .. => inferInstanceAs (Decidable (_ ∧ Recyclable ..))
  | .freePage _ => inferInstanceAs (Decidable (_ ∧ _))

/-- The three allocators agree. -/
structure Backed (layout : Layout) (boot : List MemoryMap) (s : State) (live : List Extent) :
    Prop where
  placed : Placed s.vm s.held
  framed : Framed layout boot s.vm live
  mapped : Mapped s.vm live s.held ((stack s.vm).map pageOf)

/-- A held page can be recycled. -/
theorem Orderly.recyclable {s : State} {e : Event} (hPlaced : Placed s.vm s.held)
    (h : Orderly s e) : Recyclable s e := by
  cases e with
  | allocatePage flag => exact h.2
  | allocatePagesContig count flag => exact h.2
  | freePage addr =>
      have hBelow := hPlaced.below _ (List.mem_append_left _ h.1)
      refine ⟨fun hIn => ?_, ?_, h.2⟩
      · exact (List.nodup_append.mp hPlaced.nodup).2.2 _ h.1 _ hIn rfl
      · unfold pageOf at hBelow
        omega

/-- **One orderly call.** -/
theorem step_backed (hReserved : KernelReserved layout boot) {live : List Extent} (s : State)
    (e : Event) (s' : State) (h : Backed layout boot s live) (hOk : Orderly s e)
    (hStep : step direct s e = some s') : ∃ live', Backed layout boot s' live' := by
  have hPlaced' := step_placed s e s' h.placed (hOk.recyclable h.placed) hStep
  suffices hRest : ∃ live', Framed layout boot s'.vm live' ∧
      Mapped s'.vm live' s'.held ((stack s'.vm).map pageOf) by
    obtain ⟨live', hFramed, hMapped⟩ := hRest
    exact ⟨live', hPlaced', hFramed, hMapped⟩
  cases e with
  | allocatePage flag =>
      obtain ⟨⟨v, vm⟩, hCall, rfl⟩ := Option.map_eq_some_iff.mp hStep
      exact allocatePage_backed hReserved h.framed h.mapped h.placed hOk.1 hOk.2 hCall
  | allocatePagesContig count flag =>
      obtain ⟨⟨v, vm⟩, hCall, rfl⟩ := Option.map_eq_some_iff.mp hStep
      exact allocatePagesContig_backed hReserved h.framed h.mapped h.placed hOk.1 hOk.2.1
        hOk.2.2 hCall
  | freePage addr =>
      simp only [step] at hStep
      split at hStep
      · next hAddr =>
          obtain ⟨vm, hCall, rfl⟩ := Option.map_eq_some_iff.mp hStep
          obtain ⟨live', hFramed, hMapped⟩ := freePage_backed h.framed h.mapped
            (fun p hp => h.placed.lt (List.mem_append_left _ hp))
            (fun p hp => h.placed.lt (List.mem_append_right _ hp)) hAddr hOk.1 hCall
          refine ⟨live', hFramed, ?_⟩
          rw [(freePage_same hCall).stack, stack_pushFree, List.map_append]
          exact hMapped
      · simp at hStep

theorem boot_backed (layout : Layout) {pmm : Table} (mem : Verified.ByteMemory.Mem)
    (freeVirtual : Nat → Nat) (hApart : PairwiseApart extentOf pmm.entries)
    (hLow : ∀ e ∈ pmm.entries, e.type = 1 → e.base + e.length ≤ 2 ^ 32)
    (hGrid : Grid pmm.entries) :
    Backed layout pmm.entries { vm := Paging.boot layout pmm mem freeVirtual, held := [] } []
    where
  placed := boot_placed layout pmm mem freeVirtual
  framed :=
    { tables := boot_tables layout pmm mem freeVirtual
      owned := Owned.boot hApart hLow
      grid := hGrid
      aligned := by simp
      table := fun d _ hHas => by
        rw [(boot_hasTable ..).mp hHas, boot_tableOf]
        exact Or.inl rfl }
  mapped :=
    { live := by simp
      noTable := by simp
      distinct := by simp
      freed := by simp [stack, Paging.boot, buildFirstPage, initVirtualAllocator] }

/-- **Held pages have frames of their own** in every orderly run from a boot
map that is page aligned, disjoint, below 4 GiB and offers none of the kernel's
memory: two held pages never map to the same frame, the frames are neither
tables nor usable memory, pages on the stack are not mapped, and the frames and
the tables behind the first one keep off the kernel's memory. -/
theorem held_frames_distinct {layout : Layout} {pmm : Table} {mem : Verified.ByteMemory.Mem}
    {freeVirtual : Nat → Nat} (hApart : PairwiseApart extentOf pmm.entries)
    (hLow : ∀ e ∈ pmm.entries, e.type = 1 → e.base + e.length ≤ 2 ^ 32)
    (hGrid : Grid pmm.entries) (hReserved : KernelReserved layout pmm.entries)
    {events : List Event} {s : State}
    (hRun : exec (step direct)
      { vm := Paging.boot layout pmm mem freeVirtual, held := [] } events = some s)
    (hOk : Meets (step direct) Orderly
      { vm := Paging.boot layout pmm mem freeVirtual, held := [] } events) :
    (∀ p ∈ s.held, ∀ q ∈ s.held, p ≠ q → Present (entryWord s.vm p) →
      Present (entryWord s.vm q) →
        frameOf (entryWord s.vm p) ≠ frameOf (entryWord s.vm q)) ∧
      (∀ p ∈ s.held, Present (entryWord s.vm p) →
        (∀ d < 1024, HasTable s.vm d → tableOf s.vm d ≠ frameOf (entryWord s.vm p)) ∧
        ∀ e ∈ s.vm.pmm.entries, e.type = 1 →
          (frameAt (frameOf (entryWord s.vm p))).Apart (extentOf e)) ∧
      (∀ a ∈ stack s.vm, ¬Present (entryWord s.vm (pageOf a))) ∧
      ∀ o ∈ kernelMemory layout pmm.entries,
        (∀ p ∈ s.held, Present (entryWord s.vm p) →
          (frameAt (frameOf (entryWord s.vm p))).Apart o) ∧
        ∀ d < 1024, HasTable s.vm d → tableOf s.vm d ≠ layout.pageTable →
          (frameAt (tableOf s.vm d)).Apart o := by
  obtain ⟨live, h⟩ := hOk.invariant
    (I := fun s => ∃ live, Backed layout pmm.entries s live)
    (fun s e s' ⟨_, h⟩ hOk hStep => step_backed hReserved s e s' h hOk hStep)
    ⟨[], boot_backed layout mem freeVirtual hApart hLow hGrid⟩ hRun
  have hKernel : ∀ a ∈ live, ∀ o ∈ kernelMemory layout pmm.entries, a.Apart o :=
    fun a ha => live_apart h.framed.owned hReserved ha
  refine ⟨h.mapped.distinct, fun p hp hPresent => ⟨h.mapped.noTable p hp hPresent, ?_⟩,
    fun a ha => h.mapped.freed _ (List.mem_map_of_mem ha), fun o ho => ⟨?_, ?_⟩⟩
  · exact fun e he hType => h.framed.owned.not_usable (h.mapped.live p hp hPresent) he hType
  · exact fun p hp hPresent => hKernel _ (h.mapped.live p hp hPresent) o ho
  · exact fun d hd hHas hne => hKernel _ ((h.framed.table d hd hHas).resolve_left hne) o ho

/-- A page-aligned map: low memory, a reserved hole and memory from 1 MiB on. -/
def alignedMap : Table := Table.ofList
  [ { base := 0, length := 0x9F000, type := 1, acpi := 1 }
  , { base := 0x9F000, length := 0x61000, type := 2, acpi := 1 }
  , { base := 0x100000, length := 0x100000, type := 1, acpi := 1 } ]

/-- A page is freed and handed out again, next to a range of two. -/
theorem held_frames_distinct_alignedMap :
    ∃ s, exec (step direct)
        { vm := Paging.boot image alignedMap (fun _ => 0) (fun _ => 0), held := [] }
        [.allocatePage 0, .allocatePagesContig 2 7, .freePage 0x26000, .allocatePage 3] =
          some s ∧
      s.held = [0x26, 0x27, 0x28] ∧
      (∀ p ∈ s.held, ∀ q ∈ s.held, p ≠ q → Present (entryWord s.vm p) →
        Present (entryWord s.vm q) →
          frameOf (entryWord s.vm p) ≠ frameOf (entryWord s.vm q)) ∧
      ∀ a ∈ stack s.vm, ¬Present (entryWord s.vm (pageOf a)) := by
  have hHeld : (exec (step direct)
      { vm := Paging.boot image alignedMap (fun _ => 0) (fun _ => 0), held := [] }
      [.allocatePage 0, .allocatePagesContig 2 7, .freePage 0x26000, .allocatePage 3]).map
        State.held = some [0x26, 0x27, 0x28] := by decide +kernel
  obtain ⟨s, hRun, hs⟩ := Option.map_eq_some_iff.mp hHeld
  obtain ⟨hDistinct, -, hFreed, -⟩ := held_frames_distinct (by decide) (by decide) (by decide)
    (by decide) hRun (by decide +kernel)
  exact ⟨s, hRun, hs, hDistinct, hFreed⟩

/-- A page-aligned map that offers the frame of the first page table. -/
def tableMap : Table := Table.ofList
  [ { base := 0x22000, length := 0x1000, type := 1, acpi := 1 } ]

/-- The first page handed out lies on the page table; and with a flag in the
frame bits, two pages share a frame. -/
theorem frames_shared :
    (∃ s, exec (step direct)
        { vm := Paging.boot image tableMap (fun _ => 0) (fun _ => 0), held := [] }
        [.allocatePage 0] = some s ∧
      s.held = [0x26] ∧ entryWord s.vm 0x26 = 0x22003 ∧ HasTable s.vm 0 ∧
      tableOf s.vm 0 = 0x22000) ∧
    ∃ s, exec (step direct)
        { vm := Paging.boot image alignedMap (fun _ => 0) (fun _ => 0), held := [] }
        [.allocatePage 0x1003, .allocatePage 0] = some s ∧
      s.held = [0x27, 0x26] ∧ entryWord s.vm 0x26 = 0x101003 ∧
      entryWord s.vm 0x27 = 0x101003 := by
  constructor
  · have hView : (exec (step direct)
        { vm := Paging.boot image tableMap (fun _ => 0) (fun _ => 0), held := [] }
        [.allocatePage 0]).map (fun s => (s.held, entryWord s.vm 0x26, s.vm.pageDirectory 0)) =
          some ([0x26], 0x22003, 0x22007) := by decide +kernel
    obtain ⟨s, hRun, hs⟩ := Option.map_eq_some_iff.mp hView
    simp only [Prod.mk.injEq] at hs
    refine ⟨s, hRun, hs.1, hs.2.1, ?_, ?_⟩
    · rw [HasTable, hs.2.2]
      decide
    · rw [tableOf, hs.2.2]
      decide
  · have hView : (exec (step direct)
        { vm := Paging.boot image alignedMap (fun _ => 0) (fun _ => 0), held := [] }
        [.allocatePage 0x1003, .allocatePage 0]).map
          (fun s => (s.held, entryWord s.vm 0x26, entryWord s.vm 0x27)) =
            some ([0x27, 0x26], 0x101003, 0x101003) := by decide +kernel
    obtain ⟨s, hRun, hs⟩ := Option.map_eq_some_iff.mp hView
    simp only [Prod.mk.injEq] at hs
    exact ⟨s, hRun, hs.1, hs.2.1, hs.2.2⟩

end MiniKernel.Ports.PagingFrames
