import MiniKernel.Ports.Kmalloc
import MiniKernel.Verified.Extents
import MiniKernel.Verified.Trace

/-!
# What the heap owns

The invariant of `kmalloc` and `kfree`.  Two lists of blocks are carried
along that the code does not have: `listed`, the blocks reachable from
`heap_head`, and `lost`, the blocks that were carved out of a page but can no
longer be reached.  Together they tile the pages of the heap, and a block in
a caller's hands is one of them that the best-fit loop cannot choose.

A block is lost in one place only: `appendPage` overwrites the link of
`current_block`, and what that link led to drops off the list.  Every lemma
about a stage of `kmalloc` therefore also says that nothing more is lost
unless this happened.
-/

namespace MiniKernel.Ports.KmallocTiling

open MiniKernel.Verified.ByteMemory
open MiniKernel.Verified.Extents
open MiniKernel.Verified.Links
open MiniKernel.Ports.Kmalloc

/-- The bytes of a page. -/
def pageExtent (page : Nat) : Extent := ⟨page, pageSize⟩

/-- The bytes of a block: header and payload. -/
def blockExtent (m : Mem) (b : Nat) : Extent := ⟨b, sizeofBlock + (blockAt m b).size⟩

/-- The blocks `listed ++ lost` tile the pages, the first of them in list order. -/
structure Layout (h : Heap) (pages listed lost : List Nat) : Prop where
  linked : Linked h.next h.heapHead listed
  current : h.heapHead ≠ 0 → h.currentBlock ∈ listed
  tiling : Tiling (pages.map pageExtent) ((listed ++ lost).map (blockExtent h.mem))
  range : ∀ page ∈ pages, page + pageSize ≤ 2 ^ 32

variable {h : Heap} {pages listed lost : List Nat}

/-! ## Reading a layout -/

theorem Layout.inPage (hL : Layout h pages listed lost) {b : Nat}
    (hb : b ∈ listed ++ lost) :
    ∃ page ∈ pages, page ≤ b ∧
      b + sizeofBlock + (blockAt h.mem b).size ≤ page + pageSize := by
  obtain ⟨r, hr, hWithin⟩ := hL.tiling.inside _ (List.mem_map_of_mem hb)
  obtain ⟨page, hPage, rfl⟩ := List.mem_map.mp hr
  unfold Extent.Within blockExtent pageExtent at hWithin
  exact ⟨page, hPage, hWithin.1, by simp only at hWithin; omega⟩

theorem Layout.end_le (hL : Layout h pages listed lost) {b : Nat}
    (hb : b ∈ listed ++ lost) :
    b + sizeofBlock + (blockAt h.mem b).size ≤ 2 ^ 32 := by
  obtain ⟨page, hPage, -, hEnd⟩ := hL.inPage hb
  have := hL.range page hPage
  omega

theorem Layout.short (hL : Layout h pages listed lost) :
    listed.length < addresses := by
  apply hL.linked.length_lt (fun x hx => ?_) (by decide)
  have := hL.end_le (List.mem_append_left lost hx)
  unfold sizeofBlock at this
  unfold addresses
  omega

/-- Two blocks lie on either side of each other. -/
theorem Layout.side (hL : Layout h pages listed lost) {b c : Nat}
    (hb : b ∈ listed ++ lost) (hc : c ∈ listed ++ lost) (hne : b ≠ c) :
    b + sizeofBlock + (blockAt h.mem b).size ≤ c ∨
      c + sizeofBlock + (blockAt h.mem c).size ≤ b := by
  have hApart : PairwiseApart (blockExtent h.mem) (listed ++ lost) :=
    List.pairwise_map.mp hL.tiling.apart
  have hSides := ((hApart.eq_or_apart hb hc).resolve_left hne).le
    (by unfold blockExtent sizeofBlock; simp only; omega)
    (by unfold blockExtent sizeofBlock; simp only; omega)
  unfold blockExtent at hSides
  simp only at hSides
  omega

/-- A change inside one block leaves the headers of the others alone. -/
theorem Layout.other (hL : Layout h pages listed lost) {b c : Nat} {m' : Mem}
    (hb : b ∈ listed ++ lost) (hc : c ∈ listed ++ lost) (hne : c ≠ b)
    (hm : ∀ x, x < b ∨ b + sizeofBlock + (blockAt h.mem b).size ≤ x → m' x = h.mem x) :
    blockAt m' c = blockAt h.mem c := by
  apply blockAt_congr
  intro x hLow hHigh
  apply hm
  have := hL.side hb hc (Ne.symm hne)
  omega

/-! ## Changing a layout -/

/-- The layout depends on the recorded sizes and links only. -/
theorem Layout.congr (hL : Layout h pages listed lost) {m' : Mem}
    (hSize : ∀ b ∈ listed ++ lost, (blockAt m' b).size = (blockAt h.mem b).size)
    (hNext : ∀ b ∈ listed, (blockAt m' b).next = (blockAt h.mem b).next) :
    Layout { h with mem := m' } pages listed lost where
  linked := hL.linked.congr hNext
  current := hL.current
  tiling := by
    have hSame : (listed ++ lost).map (blockExtent m') =
        (listed ++ lost).map (blockExtent h.mem) :=
      List.map_congr_left fun b hb => by unfold blockExtent; rw [hSize b hb]
    exact hSame ▸ hL.tiling
  range := hL.range

/-- Marking a block changes no size and no link. -/
theorem Layout.retype (hL : Layout h pages listed lost) {b v : Nat}
    (hb : b ∈ listed ++ lost) (hv : v < 256) :
    Layout { h with mem := setType h.mem b v } pages listed lost := by
  have hOther : ∀ c ∈ listed ++ lost, c ≠ b →
      blockAt (setType h.mem b v) c = blockAt h.mem c :=
    fun c hc hne => hL.other hb hc hne fun x hx => setType_apart (by omega)
  apply hL.congr
  · intro c hc
    by_cases hEq : c = b
    · rw [hEq, blockAt_setType hv]
    · rw [hOther c hc hEq]
  · intro c hc
    by_cases hEq : c = b
    · rw [hEq, blockAt_setType hv]
    · rw [hOther c (List.mem_append_left lost hc) hEq]

/-- The page can become part of the heap. -/
def Fresh (pages : List Nat) (page : Nat) : Prop :=
  page ≠ 0 ∧ page + pageSize ≤ 2 ^ 32 ∧ ∀ q ∈ pages, (pageExtent page).Apart (pageExtent q)

instance (pages : List Nat) (page : Nat) : Decidable (Fresh pages page) := by
  unfold Fresh
  infer_instance

/-- The blocks lie outside a fresh page. -/
theorem Layout.outside (hL : Layout h pages listed lost) {page b : Nat}
    (hFresh : Fresh pages page) (hb : b ∈ listed ++ lost) :
    page + pageSize ≤ b ∨ b + sizeofBlock + (blockAt h.mem b).size ≤ page := by
  obtain ⟨q, hq, hLow, hHigh⟩ := hL.inPage hb
  have hSides := (hFresh.2.2 q hq).le (show 0 < pageSize by decide)
    (show 0 < pageSize by decide)
  unfold pageExtent at hSides
  simp only at hSides
  omega

/-- The header of a fresh page leaves those of the blocks alone. -/
theorem Layout.initPage_other (hL : Layout h pages listed lost) {page b : Nat}
    (hFresh : Fresh pages page) (hb : b ∈ listed ++ lost) :
    blockAt (initPage h.mem page) b = blockAt h.mem b := by
  apply blockAt_congr
  intro x hLow hHigh
  apply initPage_apart
  have := hL.outside hFresh hb
  unfold pageSize sizeofBlock at *
  omega

/-- One more page, one more block. -/
theorem tiling_page {m : Mem} (m' : Mem) {blocks : List Nat} {page : Nat}
    (hTiling : Tiling (pages.map pageExtent) (blocks.map (blockExtent m)))
    (hFresh : Fresh pages page)
    (hSize : ∀ b ∈ blocks, (blockAt m' b).size = (blockAt m b).size)
    (hPage : (blockAt m' page).size = 4087) :
    Tiling ((page :: pages).map pageExtent) ((page :: blocks).map (blockExtent m')) := by
  have hSame : blocks.map (blockExtent m') = blocks.map (blockExtent m) :=
    List.map_congr_left fun b hb => by unfold blockExtent; rw [hSize b hb]
  have hNew : blockExtent m' page = pageExtent page := by
    unfold blockExtent pageExtent
    rw [hPage]
    rfl
  rw [List.map_cons, List.map_cons, hSame, hNew]
  apply hTiling.region
  intro q hq
  obtain ⟨p, hp, rfl⟩ := List.mem_map.mp hq
  exact hFresh.2.2 p hp

/-- The first page becomes the whole list. -/
theorem Layout.first (hL : Layout h pages listed lost) {page : Nat}
    (hEmpty : h.heapHead = 0) (hFresh : Fresh pages page) :
    Layout { mem := initPage h.mem page, heapHead := page, currentBlock := page }
      (page :: pages) [page] lost := by
  have hListed : listed = [] :=
    hL.linked.unique (hEmpty ▸ (linked_nil.mpr rfl : Linked h.next 0 []))
  subst hListed
  have hHead := blockAt_initPage h.mem page
  refine
    { linked := ⟨rfl, hFresh.1, ?_⟩
      current := fun _ => by simp
      tiling := ?_
      range := ?_ }
  · rw [linked_nil, Heap.next, hHead]
  · apply tiling_page _ hL.tiling hFresh
    · exact fun b hb => by rw [hL.initPage_other hFresh hb]
    · rw [hHead]
  · intro q hq
    rcases List.mem_cons.mp hq with rfl | hq
    · exact hFresh.2.1
    · exact hL.range q hq

/-- Headers after a page was appended. -/
theorem Layout.append_headers (hL : Layout h pages listed lost) {page : Nat}
    (hFresh : Fresh pages page) (hCurrent : h.currentBlock ∈ listed) :
    blockAt (setNext (initPage h.mem page) h.currentBlock page) page = ⟨4087, 1, 0⟩ ∧
      blockAt (setNext (initPage h.mem page) h.currentBlock page) h.currentBlock =
        { blockAt h.mem h.currentBlock with next := page } ∧
      ∀ b ∈ listed ++ lost, b ≠ h.currentBlock →
        blockAt (setNext (initPage h.mem page) h.currentBlock page) b =
          blockAt h.mem b := by
  have hIn : h.currentBlock ∈ listed ++ lost := List.mem_append_left lost hCurrent
  have hRange : page < 2 ^ 32 := by
    have := hFresh.2.1
    unfold pageSize at this
    omega
  refine ⟨?_, ?_, ?_⟩
  · rw [← blockAt_initPage h.mem page]
    apply blockAt_congr
    intro x hLow hHigh
    apply setNext_apart
    have := hL.outside hFresh hIn
    unfold pageSize sizeofBlock at *
    omega
  · rw [blockAt_setNext hRange, hL.initPage_other hFresh hIn]
  · intro b hb hne
    rw [← hL.initPage_other hFresh hb]
    apply blockAt_congr
    intro x hLow hHigh
    apply setNext_apart
    have := hL.side hb hIn hne
    omega

/-- **Appending a page.**  What followed `current_block` on the list is lost. -/
theorem Layout.append {xs ys : List Nat} {page : Nat}
    (hL : Layout h pages (xs ++ h.currentBlock :: ys) lost) (hFresh : Fresh pages page) :
    Layout
      { h with
        mem := setNext (initPage h.mem page) h.currentBlock page
        currentBlock := page }
      (page :: pages) (xs ++ [h.currentBlock, page]) (ys ++ lost) := by
  obtain ⟨hNew, hCur, hOther⟩ := hL.append_headers hFresh (by simp)
  have hNodup := List.nodup_append.mp hL.linked.nodup
  refine
    { linked := ?_
      current := fun _ => by simp
      tiling := ?_
      range := ?_ }
  · apply hL.linked.splice
    · intro b hb
      unfold Heap.next
      rw [hOther b (by simp [hb]) fun hEq => hNodup.2.2 b hb _ (by simp) hEq]
    · refine ⟨?_, hFresh.1, ?_⟩
      · rw [Heap.next, hCur]
      · rw [linked_nil, Heap.next, hNew]
  · have hPages := tiling_page
      (setNext (initPage h.mem page) h.currentBlock page) hL.tiling hFresh
      (fun b hb => by
        by_cases hEq : b = h.currentBlock
        · rw [hEq, hCur]
        · rw [hOther b hb hEq]) (by rw [hNew])
    apply hPages.perm
    apply List.Perm.map
    have hMove : (page :: ((xs ++ [h.currentBlock]) ++ (ys ++ lost))).Perm
        ((xs ++ [h.currentBlock]) ++ page :: (ys ++ lost)) := List.perm_middle.symm
    simpa using hMove
  · intro q hq
    rcases List.mem_cons.mp hq with rfl | hq
    · exact hFresh.2.1
    · exact hL.range q hq

/-- **Splitting a block.**  The new block follows it on the list. -/
theorem Layout.split {xs ys : List Nat} {best size : Nat}
    (hL : Layout h pages (xs ++ best :: ys) lost)
    (hRoom : size + sizeofBlock ≤ (blockAt h.mem best).size) :
    Layout { h with mem := takeBlock h.mem best size } pages
        (xs ++ best :: (best + sizeofBlock + size) :: ys) lost ∧
      best + sizeofBlock + size ∉ (xs ++ best :: ys) ++ lost ∧
      (blockAt (takeBlock h.mem best size) best).type = 2 ∧
      ∀ b ∈ (xs ++ best :: ys) ++ lost, b ≠ best →
        blockAt (takeBlock h.mem best size) b = blockAt h.mem b := by
  have hIn : best ∈ (xs ++ best :: ys) ++ lost := by simp
  have hEnd := hL.end_le hIn
  have hPos : 0 < sizeofBlock := by decide
  obtain ⟨hBest, hNew, hFrame⟩ := takeBlock_split hRoom (by omega)
  have hOther : ∀ b ∈ (xs ++ best :: ys) ++ lost, b ≠ best →
      blockAt (takeBlock h.mem best size) b = blockAt h.mem b :=
    fun b hb hne => hL.other hIn hb hne fun x hx => hFrame x (by omega) (by omega)
  have hNotIn : best + sizeofBlock + size ∉ (xs ++ best :: ys) ++ lost := by
    intro hMem
    have := hL.side hIn hMem (by omega)
    omega
  have hNodup := List.nodup_append.mp hL.linked.nodup
  refine ⟨?_, hNotIn, by rw [hBest], hOther⟩
  refine
    { linked := ?_
      current := fun h0 => ?_
      tiling := ?_
      range := hL.range }
  · apply hL.linked.splice
    · intro b hb
      unfold Heap.next
      rw [hOther b (by simp [hb]) fun hEq => hNodup.2.2 b hb _ (by simp) hEq]
    · refine ⟨?_, by omega, ?_⟩
      · rw [Heap.next, hBest]
      · rw [Heap.next, hNew]
        have hTail : Linked h.next best (best :: ys) := hL.linked.suffix
        apply hTail.2.2.congr
        intro y hy
        unfold Heap.next
        rw [hOther y (by simp [hy])]
        rintro rfl
        exact (List.nodup_cons.mp hNodup.2.1).1 hy
  · have := hL.current h0
    simp only [List.mem_append, List.mem_cons] at this ⊢
    tauto
  · have hPerm : ((xs ++ best :: ys) ++ lost).Perm (best :: (xs ++ ys ++ lost)) := by
      simp only [List.append_assoc, List.cons_append]
      exact List.perm_middle
    have hRest : ∀ b ∈ xs ++ ys ++ lost,
        blockExtent (takeBlock h.mem best size) b = blockExtent h.mem b := by
      intro b hb
      have hne : b ≠ best := by
        rintro rfl
        have hTwice := hL.tiling.perm (hPerm.map _)
        have hOnce := List.pairwise_cons.mp hTwice.apart
        have hSelf := hOnce.1 _ (List.mem_map_of_mem hb) b
        unfold blockExtent Extent.Has at hSelf
        simp only at hSelf
        omega
      unfold blockExtent
      rw [hOther b (hPerm.mem_iff.mpr (List.mem_cons_of_mem _ hb)) hne]
    have hCut := (hL.tiling.perm (hPerm.map _)).split
      (f := blockExtent (takeBlock h.mem best size) best)
      (g := blockExtent (takeBlock h.mem best size) (best + sizeofBlock + size))
      rfl (by unfold blockExtent; rw [hBest]; simp only; omega)
      (by unfold blockExtent; rw [hBest, hNew]; simp only; omega)
    rw [← List.map_congr_left hRest, ← List.map_cons, ← List.map_cons] at hCut
    apply hCut.perm
    apply List.Perm.map
    simp only [List.append_assoc, List.cons_append]
    refine List.Perm.trans ?_ (List.perm_middle).symm
    exact (List.perm_middle.symm).cons _

end MiniKernel.Ports.KmallocTiling
