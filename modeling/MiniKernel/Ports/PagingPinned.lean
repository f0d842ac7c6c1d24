import MiniKernel.Ports.PagingFrames
import MiniKernel.Ports.PagingDraws

/-!
# Pages that nobody gives back

`next_virtual` only moves up, and the stack of freed pages holds what `free_page` was
called with.  So a page that was handed out keeps its table word for as long as
`free_page` is not called with it, whatever else is allocated and freed.

`Pinned` carries such pages along, each with its word.  It does not ask that the pages
handed out are different, or that what is freed was in use.
-/

namespace MiniKernel.Ports.PagingPinned

open MiniKernel.Verified.Extents
open MiniKernel.Verified.PageWords
open MiniKernel.Ports.Pmm
open MiniKernel.Ports.PmmOwnership (Owned extentOf)
open MiniKernel.Ports.Paging
open MiniKernel.Ports.PagingTables
open MiniKernel.Ports.PagingRecycling (pagesFrom)
open MiniKernel.Ports.PagingFrames
open MiniKernel.Ports.PagingDraws (takeVirtual_pmm allocatePagesContig_loop)

/-- The pages handed out so far, and the words of the pinned ones among them. -/
structure Pinned (layout : Layout) (boot : List MemoryMap) (pins : List (Nat × Nat))
    (pages : List Nat) (vm : Vm) : Prop where
  framed : ∃ live, Framed layout boot vm live ∧ Mapped vm live pages []
  below : ∀ p ∈ pages, p < pageOf vm.nextVirtual
  freed : ∀ a ∈ stack vm, a < vm.nextVirtual
  aligned : vm.nextVirtual % 4096 = 0
  range : vm.nextVirtual < 2 ^ 32
  pin : ∀ x ∈ pins, x.1 ∈ pages ∧ Present x.2 ∧ entryWord vm x.1 = x.2 ∧
    x.1 ∉ (stack vm).map pageOf

variable {layout : Layout} {boot : List MemoryMap} {pins : List (Nat × Nat)}
  {pages : List Nat} {vm vm' : Vm} {live : List Extent}

theorem Pinned.lt (h : Pinned layout boot pins pages vm) {p : Nat} (hp : p ∈ pages) :
    p < 2 ^ 20 := by
  have hBelow := h.below p hp
  have hRange := h.range
  unfold pageOf at hBelow
  omega

/-- A pinned page is not at `next_virtual` or above it. -/
theorem Pinned.apart (h : Pinned layout boot pins pages vm) {v : Nat} (hv : vm.nextVirtual ≤ v) :
    ∀ x ∈ pins, x.1 ≠ pageOf v := by
  rintro x hx hEq
  have hBelow := h.below x.1 (h.pin x hx).1
  rw [hEq] at hBelow
  unfold pageOf at hBelow
  omega

/-- **The frame of a pinned page** is not offered. -/
theorem Pinned.not_usable (h : Pinned layout boot pins pages vm) {x : Nat × Nat} (hx : x ∈ pins)
    {e : MemoryMap} (he : e ∈ vm.pmm.entries) (hType : e.type = 1) :
    (frameAt (frameOf x.2)).Apart (extentOf e) := by
  obtain ⟨live, hFramed, hMapped⟩ := h.framed
  obtain ⟨hIn, hPresent, hWord, -⟩ := h.pin x hx
  have hLive := hMapped.live x.1 hIn (hWord ▸ hPresent)
  rw [hWord] at hLive
  exact hFramed.owned.not_usable hLive he hType

/-! ## Mapping a page -/

/-- Below 4 GiB `allocate` answers `0` only when it fails. -/
theorem allocate_zero {t : Table} (hOwned : Owned boot t.entries live)
    (hZero : (allocate 4096 t).1 = 0) : Fails 4096 t.entries := by
  rcases allocate_carves 4096 t with ⟨hFails, -⟩ | ⟨-, pre, e, post, hBest, hBase, -⟩
  · exact hFails
  · exfalso
    obtain ⟨hNonzero, hFit, hType⟩ := hBest.candidate
    have hLow := hOwned.low e hBest.mem hType
    rw [hZero, Nat.mod_eq_of_lt (by omega)] at hBase
    exact hNonzero hBase.symm

/-- A page is mapped, or its table has no frame, and then nothing has. -/
theorem Framed.map_present (h : Framed layout boot vm live)
    (hReserved : KernelReserved layout boot) {physical virtual flags : Nat}
    (hVirtual : virtual < 2 ^ 32) (hFlags : flags < 2 ^ 32) (hPresent : Present flags)
    (hMap : mapPage direct physical virtual flags vm = some vm') :
    Present (entryWord vm' (pageOf virtual)) ∨ Fails 4096 vm'.pmm.entries := by
  have hPage : pageOf virtual < 2 ^ 20 := by
    unfold pageOf
    omega
  have hWord : Present (frameOf physical ||| flags) := (or_mod_two _ _).mpr (Or.inr hPresent)
  by_cases hTable : HasTable vm (pageOf virtual / 1024)
  · obtain ⟨vm₁, hMap₁, -, -, -, hWords⟩ := Distinct.mapPage direct h.tables.distinct physical
      hVirtual hFlags hTable fun _ _ _ _ _ => rfl
    cases hMap₁.symm.trans hMap
    left
    rw [hWords _ hPage, if_pos rfl]
    exact hWord
  · by_cases hFull : (allocate 4096 vm.pmm).1 = 0
    · rw [mapPage_full hTable hFull] at hMap
      cases hMap
      right
      have hFails := allocate_zero h.owned hFull
      rw [(PagingDraws.allocate_fails hFails).2]
      exact hFails
    · generalize ht : (allocate 4096 vm.pmm).1 = t at hFull
      obtain ⟨-, hAligned, hRange, -, hFresh⟩ := h.fresh hReserved ht hFull
      obtain ⟨vm₁, hMap₁, -, hWords⟩ :=
        Distinct.mapPage_adds direct h.tables.distinct physical hVirtual hFlags
        hTable ht hFull hAligned hRange hFresh fun _ _ _ _ _ => rfl
      cases hMap₁.symm.trans hMap
      left
      rw [hWords _ hPage, if_pos rfl]
      exact hWord

/-- A frame is drawn and nothing is mapped to it. -/
theorem Pinned.full (h : Pinned layout boot pins pages vm) (hFull : (allocate 4096 vm.pmm).1 = 0) :
    Pinned layout boot pins pages { vm with pmm := (allocate 4096 vm.pmm).2 } where
  framed := by
    obtain ⟨live, hFramed, hMapped⟩ := h.framed
    exact ⟨live, hFramed.full hFull, hMapped.congr rfl rfl fun _ hp => hp⟩
  below := h.below
  freed := h.freed
  aligned := h.aligned
  range := h.range
  pin := h.pin

/-- **A page is mapped to a new frame**; it is not a pinned one. -/
theorem Pinned.map (hReserved : KernelReserved layout boot)
    (h : Pinned layout boot pins pages vm) (hSome : (allocate 4096 vm.pmm).1 ≠ 0) {v flags : Nat}
    (hBelow : v < vm.nextVirtual) (hApart : ∀ x ∈ pins, x.1 ≠ pageOf v) (hFlags : flags < 4096)
    (hMap : mapPage direct (allocate 4096 vm.pmm).1 v flags
      { vm with pmm := (allocate 4096 vm.pmm).2 } = some vm') :
    Pinned layout boot pins (pageOf v :: pages) vm' := by
  obtain ⟨live, hFramed, hMapped⟩ := h.framed
  have hRange := h.range
  have hAligned := h.aligned
  have hSame := mapPage_same hMap
  have hNext : vm'.nextVirtual = vm.nextVirtual := hSame.nextVirtual
  have hStack : stack vm' = stack vm := hSame.stack
  generalize hf : (allocate 4096 vm.pmm).1 = f at hSome hMap
  obtain ⟨hTaken, hFrame, hLow, hNotLive, hFresh⟩ := hFramed.fresh hReserved hf hSome
  obtain ⟨live', hEffect⟩ := hTaken.map hReserved (by omega) (by omega) hMap
  have hStart : Mapped { vm with pmm := (allocate 4096 vm.pmm).2 } live pages [] :=
    hMapped.congr rfl rfl fun _ hp => hp
  have hPage : pageOf v < pageOf vm.nextVirtual := by
    unfold pageOf
    omega
  refine
    { framed := ⟨live', hEffect.framed, hStart.map hEffect (fun p hp => h.lt hp) (by simp)
        (by simp) hFlags hFrame hLow hNotLive hFresh⟩
      below := fun p hp => ?_
      freed := by rw [hStack, hNext]; exact h.freed
      aligned := by rw [hNext]; exact hAligned
      range := by rw [hNext]; exact hRange
      pin := fun x hx => ?_ }
  · rw [hNext]
    rcases List.mem_cons.mp hp with rfl | hp
    · exact hPage
    · exact h.below p hp
  · obtain ⟨hIn, hPresent, hWord, hOff⟩ := h.pin x hx
    refine ⟨List.mem_cons_of_mem _ hIn, hPresent, ?_, by rw [hStack]; exact hOff⟩
    rw [hEffect.others x.1 (h.lt hIn) (hApart x hx)]
    exact hWord

/-! ## The calls -/

/-- The page that `allocate_page` takes is not pinned. -/
theorem Pinned.take (h : Pinned layout boot pins pages vm)
    (hRoom : vm.nextVirtual + 4096 < 2 ^ 32) :
    Pinned layout boot pins pages (takeVirtual vm).2 ∧
      (takeVirtual vm).1 < (takeVirtual vm).2.nextVirtual ∧
      (∀ x ∈ pins, x.1 ≠ pageOf (takeVirtual vm).1) ∧
      vm.nextVirtual ≤ (takeVirtual vm).2.nextVirtual ∧
      (takeVirtual vm).2.nextVirtual ≤ vm.nextVirtual + 4096 := by
  obtain ⟨hPmm, hMem, hDirectory, hSub⟩ := takeVirtual_frame vm
  have hKeep : vm.nextVirtual ≤ (takeVirtual vm).2.nextVirtual →
      (takeVirtual vm).2.nextVirtual % 4096 = 0 → (takeVirtual vm).2.nextVirtual < 2 ^ 32 →
      Pinned layout boot pins pages (takeVirtual vm).2 := by
    intro hLe hAligned hRange
    obtain ⟨live, hFramed, hMapped⟩ := h.framed
    refine
      { framed := ⟨live, hFramed.update hPmm hDirectory, hMapped.congr hMem hDirectory (by simp)⟩
        below := fun p hp => ?_
        freed := fun a ha => Nat.lt_of_lt_of_le (h.freed a (hSub a ha)) hLe
        aligned := hAligned
        range := hRange
        pin := fun x hx => ?_ }
    · have hBelow := h.below p hp
      unfold pageOf at hBelow ⊢
      omega
    · obtain ⟨hIn, hPresent, hWord, hOff⟩ := h.pin x hx
      refine ⟨hIn, hPresent, ?_, fun hOn => hOff ?_⟩
      · rw [← hWord]
        exact entryWord_congr (sameTable_of_eq (by rw [hDirectory])) fun _ y _ _ => by rw [hMem]
      · obtain ⟨a, ha, hEq⟩ := List.mem_map.mp hOn
        exact List.mem_map.mpr ⟨a, hSub a ha, hEq⟩
  have hAligned := h.aligned
  have hRange := h.range
  by_cases hCount : 0 < vm.freeCount
  · have hTake : takeVirtual vm =
        (vm.freeVirtual (vm.freeCount - 1), { vm with freeCount := vm.freeCount - 1 }) :=
      if_pos hCount
    rw [hTake] at hKeep ⊢
    have hTop : vm.freeVirtual (vm.freeCount - 1) ∈ stack vm :=
      List.mem_map_of_mem (List.mem_range.mpr (by omega))
    refine ⟨hKeep (Nat.le_refl _) hAligned hRange, h.freed _ hTop, fun x hx hEq => ?_,
      Nat.le_refl _, Nat.le_add_right _ _⟩
    exact (h.pin x hx).2.2.2 (hEq ▸ List.mem_map_of_mem hTop)
  · have hTake : takeVirtual vm =
        (vm.nextVirtual, { vm with nextVirtual := (vm.nextVirtual + 4096) % 2 ^ 32 }) :=
      if_neg hCount
    rw [hTake, Nat.mod_eq_of_lt hRoom] at hKeep ⊢
    refine ⟨hKeep (Nat.le_add_right _ _) ?_ hRoom, ?_, h.apart (Nat.le_refl _),
      Nat.le_add_right _ _, Nat.le_refl _⟩
    · simp only
      omega
    · simp only
      omega

theorem takeVirtual_update (vm : Vm) (pmm : Table) :
    takeVirtual { vm with pmm := pmm } =
      ((takeVirtual vm).1, { (takeVirtual vm).2 with pmm := pmm }) := by
  unfold takeVirtual
  simp only
  split <;> rfl

/-- **`allocate_page`** leaves the pinned pages alone. -/
theorem Pinned.allocatePage (hReserved : KernelReserved layout boot)
    (h : Pinned layout boot pins pages vm) (hRoom : vm.nextVirtual + 4096 < 2 ^ 32) {flag v : Nat}
    (hFlag : flag < 4096) (hCall : Paging.allocatePage direct flag vm = some (v, vm')) :
    ∃ pages', pages ⊆ pages' ∧ Pinned layout boot pins pages' vm' ∧
      vm'.nextVirtual ≤ vm.nextVirtual + 4096 := by
  by_cases hFull : (allocate 4096 vm.pmm).1 = 0
  · unfold Paging.allocatePage at hCall
    rw [if_pos hFull] at hCall
    cases hCall
    exact ⟨pages, List.Subset.refl _, h.full hFull, Nat.le_add_right _ _⟩
  · rw [allocatePage_some hFull, takeVirtual_update] at hCall
    obtain ⟨vm₁, hMap, hEq⟩ := Option.map_eq_some_iff.mp hCall
    cases hEq
    obtain ⟨hTaken, hBelow, hApart, -, hHigh⟩ := h.take hRoom
    have hPmm := takeVirtual_pmm vm
    rw [← hPmm] at hFull hMap
    have hNext := (mapPage_same hMap).nextVirtual
    exact ⟨_, List.subset_cons_self _ _, hTaken.map hReserved hFull hBelow hApart
      (defaultFlags_lt (by decide) hFlag) hMap, by rw [hNext]; exact hHigh⟩

/-- The loop of `allocate_pages_contig` leaves them alone. -/
theorem Pinned.mapContig (hReserved : KernelReserved layout boot) {start flag : Nat}
    (hFlag : flag < 4096) {ks : List Nat} {ok : Bool} (h : Pinned layout boot pins pages vm)
    (hBelow : ∀ k ∈ ks, (start + k * 4096) % 2 ^ 32 < vm.nextVirtual)
    (hApart : ∀ k ∈ ks, ∀ x ∈ pins, x.1 ≠ pageOf ((start + k * 4096) % 2 ^ 32))
    (hLoop : Paging.mapContig direct start flag ks vm = some (ok, vm')) :
    ∃ pages', pages ⊆ pages' ∧ Pinned layout boot pins pages' vm' := by
  induction ks generalizing vm pages with
  | nil =>
      cases hLoop
      exact ⟨pages, List.Subset.refl _, h⟩
  | cons k ks ih =>
      simp only [Paging.mapContig] at hLoop
      split at hLoop
      · next hFull =>
          cases hLoop
          exact ⟨pages, List.Subset.refl _, h.full hFull⟩
      · next hSome =>
          obtain ⟨vm₁, hMap, hRest⟩ := Option.bind_eq_some_iff.mp hLoop
          have hNext : vm₁.nextVirtual = vm.nextVirtual := (mapPage_same hMap).nextVirtual
          have h₁ := h.map hReserved hSome (hBelow k List.mem_cons_self)
            (hApart k List.mem_cons_self) hFlag hMap
          obtain ⟨pages', hSub, h'⟩ := ih h₁
            (fun l hl => by rw [hNext]; exact hBelow l (List.mem_cons_of_mem _ hl))
            (fun l hl => hApart l (List.mem_cons_of_mem _ hl)) hRest
          exact ⟨pages', fun p hp => hSub (List.mem_cons_of_mem _ hp), h'⟩

/-- One more page is pinned. -/
theorem Pinned.cons (h : Pinned layout boot pins pages vm) {p : Nat} (hp : p ∈ pages)
    (hPresent : Present (entryWord vm p)) (hOff : p ∉ (stack vm).map pageOf) :
    Pinned layout boot ((p, entryWord vm p) :: pins) pages vm where
  framed := h.framed
  below := h.below
  freed := h.freed
  aligned := h.aligned
  range := h.range
  pin x hx := by
    rcases List.mem_cons.mp hx with rfl | hx
    · exact ⟨hp, hPresent, rfl, hOff⟩
    · exact h.pin x hx

/-- A page that another one follows in a range is mapped. -/
theorem Pinned.map_present (hReserved : KernelReserved layout boot)
    (h : Pinned layout boot pins pages vm) (hSome : (allocate 4096 vm.pmm).1 ≠ 0) {v flags : Nat}
    (hBelow : v < vm.nextVirtual) (hFlags : flags < 4096) (hPresent : Present flags)
    (hMap : mapPage direct (allocate 4096 vm.pmm).1 v flags
      { vm with pmm := (allocate 4096 vm.pmm).2 } = some vm')
    (hNext : (allocate 4096 vm'.pmm).1 ≠ 0) : Present (entryWord vm' (pageOf v)) := by
  obtain ⟨live, hFramed, -⟩ := h.framed
  obtain ⟨hTaken, -⟩ := hFramed.fresh hReserved rfl hSome
  have hRange := h.range
  refine (Framed.map_present hTaken hReserved (by omega) (by omega) hPresent hMap).resolve_right ?_
  exact PagingDraws.not_fails hNext

/-- A turn of a loop that goes through. -/
theorem mapContig_turn {start flag k : Nat} {ks : List Nat}
    (hLoop : Paging.mapContig direct start flag (k :: ks) vm = some (true, vm')) :
    (allocate 4096 vm.pmm).1 ≠ 0 ∧
      ∃ vm₁, mapPage direct (allocate 4096 vm.pmm).1 ((start + k * 4096) % 2 ^ 32) flag
          { vm with pmm := (allocate 4096 vm.pmm).2 } = some vm₁ ∧
        Paging.mapContig direct start flag ks vm₁ = some (true, vm') := by
  simp only [Paging.mapContig] at hLoop
  split at hLoop
  · cases hLoop
  · next hSome => exact ⟨hSome, Option.bind_eq_some_iff.mp hLoop⟩

/-- **A range of three pages or more**: its second page can be pinned. -/
theorem Pinned.mapContig_second (hReserved : KernelReserved layout boot) {start flag : Nat}
    (hFlag : flag < 4096) (hPresent : Present flag) {ks : List Nat}
    (h : Pinned layout boot pins pages vm) (hAligned : start % 4096 = 0)
    (hOld : ∀ a ∈ stack vm, a < start) (hPins : ∀ x ∈ pins, x.1 < pageOf start)
    (hKs : ∀ k ∈ 2 :: ks, 2 ≤ k ∧ start + k * 4096 < vm.nextVirtual)
    (hLoop : Paging.mapContig direct start flag (0 :: 1 :: 2 :: ks) vm = some (true, vm')) :
    ∃ pages' word, pages ⊆ pages' ∧ pageOf start ∈ pages' ∧
      Pinned layout boot ((pageOf start + 1, word) :: pins) pages' vm' := by
  have hRange := h.range
  obtain ⟨-, hEnd⟩ := hKs 2 List.mem_cons_self
  have hPage (k : Nat) (hk : start + k * 4096 < vm.nextVirtual) :
      (start + k * 4096) % 2 ^ 32 = start + k * 4096 ∧
        pageOf (start + k * 4096) = pageOf start + k := by
    have hLt : start + k * 4096 < 2 ^ 32 := Nat.lt_trans hk hRange
    refine ⟨Nat.mod_eq_of_lt hLt, ?_⟩
    unfold pageOf
    omega
  have hApart (k : Nat) : ∀ x ∈ pins, x.1 ≠ pageOf start + k := by
    intro x hx
    have hBelow := hPins x hx
    omega
  obtain ⟨hZero, hZeroPage⟩ := hPage 0 (by omega)
  obtain ⟨hOne, hOnePage⟩ := hPage 1 (by omega)
  rw [Nat.zero_mul, Nat.add_zero] at hZero
  rw [Nat.one_mul] at hOne hOnePage
  -- the first page
  obtain ⟨hSome, vm₁, hMap, hLoop⟩ := mapContig_turn hLoop
  rw [Nat.zero_mul, Nat.add_zero, hZero] at hMap
  have hNext : vm₁.nextVirtual = vm.nextVirtual := (mapPage_same hMap).nextVirtual
  have hStack : stack vm₁ = stack vm := (mapPage_same hMap).stack
  have h₁ := h.map hReserved hSome (by omega) (hApart 0) hFlag hMap
  -- the second page, which is mapped because the loop finds a frame for the third
  obtain ⟨hSome₁, vm₂, hMap₁, hRest⟩ := mapContig_turn hLoop
  obtain ⟨hThird, -⟩ := mapContig_turn hRest
  rw [Nat.one_mul, hOne] at hMap₁
  have hNext₁ : vm₂.nextVirtual = vm₁.nextVirtual := (mapPage_same hMap₁).nextVirtual
  have hStack₁ : stack vm₂ = stack vm₁ := (mapPage_same hMap₁).stack
  have hSecond : ∀ x ∈ pins, x.1 ≠ pageOf (start + 4096) := by
    rw [hOnePage]
    exact hApart 1
  have h₂ := h₁.map hReserved hSome₁ (by omega) hSecond hFlag hMap₁
  have hMapped := h₁.map_present hReserved hSome₁ (by omega) hFlag hPresent hMap₁ hThird
  have hOff : pageOf (start + 4096) ∉ (stack vm₂).map pageOf := by
    rw [hStack₁, hStack]
    intro hOn
    obtain ⟨a, ha, hEq⟩ := List.mem_map.mp hOn
    have hLow := hOld a ha
    unfold pageOf at hEq
    omega
  have hPinned := h₂.cons List.mem_cons_self hMapped hOff
  -- the rest of the range is above it
  have hRestBelow : ∀ k ∈ 2 :: ks, (start + k * 4096) % 2 ^ 32 < vm₂.nextVirtual := by
    intro k hk
    obtain ⟨-, hLow⟩ := hKs k hk
    rw [(hPage k hLow).1, hNext₁, hNext]
    exact hLow
  have hRestApart : ∀ k ∈ 2 :: ks,
      ∀ x ∈ (pageOf (start + 4096), entryWord vm₂ (pageOf (start + 4096))) :: pins,
        x.1 ≠ pageOf ((start + k * 4096) % 2 ^ 32) := by
    intro k hk x hx
    obtain ⟨hTwo, hLow⟩ := hKs k hk
    rw [(hPage k hLow).1, (hPage k hLow).2]
    rcases List.mem_cons.mp hx with rfl | hx
    · rw [hOnePage]
      omega
    · exact hApart k x hx
  obtain ⟨pages', hSub, h'⟩ := hPinned.mapContig hReserved hFlag hRestBelow hRestApart hRest
  refine ⟨pages', entryWord vm₂ (pageOf (start + 4096)), fun p hp => hSub (by simp [hp]),
    hSub (by simp), ?_⟩
  rw [← hOnePage]
  exact h'

theorem Pinned.tail {x : Nat × Nat} (h : Pinned layout boot (x :: pins) pages vm) :
    Pinned layout boot pins pages vm where
  framed := h.framed
  below := h.below
  freed := h.freed
  aligned := h.aligned
  range := h.range
  pin y hy := h.pin y (List.mem_cons_of_mem _ hy)

/-- **`allocate_pages_contig`** leaves the pinned pages alone, and the second page of a
range of three or more can be pinned. -/
theorem Pinned.allocatePagesContig (hReserved : KernelReserved layout boot)
    (h : Pinned layout boot pins pages vm) {count : Int} {ks : List Nat}
    (hCount : List.range count.toNat = 0 :: 1 :: 2 :: ks) (hKs : ∀ k ∈ 2 :: ks, 2 ≤ k)
    (hRoom : vm.nextVirtual + count.toNat * 4096 < 2 ^ 32) {flag v : Nat} (hFlag : flag < 4096)
    (hPresent : Present (defaultFlags flag))
    (hCall : Paging.allocatePagesContig direct count flag vm = some (v, vm')) :
    vm'.nextVirtual = vm.nextVirtual + count.toNat * 4096 ∧ ∃ pages', pages ⊆ pages' ∧
      (v = 0 ∧ Pinned layout boot pins pages' vm' ∨
        v = vm.nextVirtual ∧ pageOf v ∈ pages' ∧
          ∃ word, Pinned layout boot ((pageOf v + 1, word) :: pins) pages' vm') := by
  obtain ⟨⟨ok, vm₁⟩, hLoop, hEq⟩ := Option.map_eq_some_iff.mp hCall
  cases hEq
  have hAligned := h.aligned
  have hFlags := defaultFlags_lt (by decide : 3 < 4096) hFlag
  have hBump : (((vm.nextVirtual : Int) + count * 4096) % 2 ^ 32).toNat =
      vm.nextVirtual + count.toNat * 4096 := by
    have hLong : 0 < count.toNat := by
      rw [← List.length_range (n := count.toNat), hCount]
      exact Nat.succ_pos _
    omega
  have hMember : ∀ k ∈ 0 :: 1 :: 2 :: ks, k < count.toNat :=
    fun k hk => List.mem_range.mp (hCount ▸ hk)
  rw [hBump, hCount] at hLoop
  have hNext : vm₁.nextVirtual = vm.nextVirtual + count.toNat * 4096 :=
    (mapContig_same hLoop).nextVirtual
  obtain ⟨live, hFramed, hMapped⟩ := h.framed
  have hStart : Pinned layout boot pins pages
      { vm with nextVirtual := vm.nextVirtual + count.toNat * 4096 } :=
    { framed := ⟨live, hFramed.update rfl rfl, hMapped.congr rfl rfl fun _ hp => hp⟩
      below := fun p hp => by
        have hBelow := h.below p hp
        unfold pageOf at hBelow ⊢
        simp only
        omega
      freed := fun a ha => Nat.lt_of_lt_of_le (h.freed a ha) (Nat.le_add_right _ _)
      aligned := by
        simp only
        omega
      range := hRoom
      pin := h.pin }
  have hBelow : ∀ k ∈ 0 :: 1 :: 2 :: ks,
      vm.nextVirtual + k * 4096 < vm.nextVirtual + count.toNat * 4096 := by
    exact fun k hk => Nat.add_lt_add_left
      (Nat.mul_lt_mul_of_pos_right (hMember k hk) (by decide)) vm.nextVirtual
  refine ⟨hNext, ?_⟩
  cases ok with
  | false =>
      have hPage : ∀ k ∈ 0 :: 1 :: 2 :: ks,
          (vm.nextVirtual + k * 4096) % 2 ^ 32 = vm.nextVirtual + k * 4096 :=
        fun k hk => Nat.mod_eq_of_lt (Nat.lt_trans (hBelow k hk) hRoom)
      obtain ⟨pages', hSub, h'⟩ := hStart.mapContig hReserved hFlags
        (fun k hk => by rw [hPage k hk]; exact hBelow k hk)
        (fun k hk => by rw [hPage k hk]; exact h.apart (Nat.le_add_right _ _)) hLoop
      exact ⟨pages', hSub, Or.inl ⟨rfl, h'⟩⟩
  | true =>
      obtain ⟨pages', word, hSub, hIn, h'⟩ := hStart.mapContig_second hReserved hFlags hPresent
        hAligned h.freed (fun x hx => h.below x.1 (h.pin x hx).1)
        (fun k hk => ⟨hKs k hk, hBelow k (by simp [List.mem_cons.mp hk])⟩) hLoop
      exact ⟨pages', hSub, Or.inr ⟨rfl, hIn, word, h'⟩⟩

/-- A page that is not mapped may be counted among those handed out. -/
theorem Mapped.readmit {p : Nat} (h : Mapped vm live (pages.filter (· ≠ p)) [p]) :
    Mapped vm live pages [] := by
  have hOff : ¬Present (entryWord vm p) := h.freed p List.mem_cons_self
  have hIn : ∀ q ∈ pages, Present (entryWord vm q) → q ∈ pages.filter (· ≠ p) := by
    intro q hq hPresent
    refine List.mem_filter.mpr ⟨hq, decide_eq_true ?_⟩
    rintro rfl
    exact hOff hPresent
  exact
    { live := fun q hq hPresent => h.live q (hIn q hq hPresent) hPresent
      noTable := fun q hq hPresent => h.noTable q (hIn q hq hPresent) hPresent
      distinct := fun q hq r hr hne hPresent hPresent' =>
        h.distinct q (hIn q hq hPresent) r (hIn r hr hPresent') hne hPresent hPresent'
      freed := by simp }

/-- **`free_page`** leaves the pinned pages alone if it is called with another one. -/
theorem Pinned.freePage (h : Pinned layout boot pins pages vm) {addr : Nat}
    (hIn : pageOf addr ∈ pages) (hApart : ∀ x ∈ pins, x.1 ≠ pageOf addr)
    (hCall : Paging.freePage direct addr vm = some vm') :
    Pinned layout boot pins pages vm' ∧ vm'.nextVirtual = vm.nextVirtual := by
  obtain ⟨live, hFramed, hMapped⟩ := h.framed
  have hSame := freePage_same hCall
  have hNext : vm'.nextVirtual = vm.nextVirtual := hSame.nextVirtual
  have hStack : stack vm' = stack vm ++ [addr] := by
    rw [hSame.stack, stack_pushFree]
  have hLow : addr < vm.nextVirtual := by
    have hBelow := h.below _ hIn
    unfold pageOf at hBelow
    omega
  have hAddr : addr < 2 ^ 32 := Nat.lt_trans hLow h.range
  obtain ⟨vm₁, hCall₁, -, -, hWords⟩ := freePage_spec direct hFramed.tables hAddr
    fun _ _ _ _ => rfl
  cases hCall₁.symm.trans hCall
  obtain ⟨live', hFramed', hMapped'⟩ := freePage_backed hFramed hMapped
    (fun p hp => h.lt hp) (by simp) hAddr hIn hCall
  refine ⟨?_, hNext⟩
  constructor
  · exact ⟨live', hFramed', Mapped.readmit hMapped'⟩
  · rw [hNext]
    exact h.below
  · intro a ha
    rw [hNext]
    rw [hStack] at ha
    rcases List.mem_append.mp ha with ha | ha
    · exact h.freed a ha
    · rw [List.mem_singleton.mp ha]
      exact hLow
  · rw [hNext]
    exact h.aligned
  · rw [hNext]
    exact h.range
  · intro x hx
    obtain ⟨hPage, hPresent, hWord, hOff⟩ := h.pin x hx
    refine ⟨hPage, hPresent, ?_, ?_⟩
    · rw [hWords x.1 (h.lt hPage), if_neg fun hHit => hApart x hx hHit.1]
      exact hWord
    · rw [hStack, List.map_append, List.mem_append, List.map_singleton, List.mem_singleton]
      rintro (hOn | hOn)
      · exact hOff hOn
      · exact hApart x hx hOn

end MiniKernel.Ports.PagingPinned
