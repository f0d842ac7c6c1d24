import MiniKernel.Ports.KmallocRuns

/-!
# The block behind an address

What `kmalloc` returns is the payload of a block of the heap.  A page has 4087
bytes behind its header, and `kmalloc` lets requests of up to 4096 bytes through:
no block fits them, so they get a page to themselves, as if it did.

`kmalloc_serves_iff` draws the line.  The blocks it speaks of are all those the
pages of the heap are cut into, on the list or not.
-/

namespace MiniKernel.Ports.KmallocBlocks

open MiniKernel.Verified.ByteMemory
open MiniKernel.Verified.Extents
open MiniKernel.Verified.Links
open MiniKernel.Verified.Trace
open MiniKernel.Ports.Kmalloc
open MiniKernel.Ports.KmallocTiling
open MiniKernel.Ports.KmallocRuns

variable {h h' : Heap} {held listed lost : List Nat} {size flag best : Nat} {s s' : Supply}

/-! ## The size in the header -/

/-- The block that is chosen is large enough, if a page is. -/
theorem choose_fits (hI : HeapInv h s.obtained held listed lost) (hHead : h.heapHead ≠ 0)
    (hSmall : size + sizeofBlock ≤ pageSize)
    (hChoose : chooseBlock drawPage flag size h s = some (best, h', s')) :
    size ≤ (blockAt h'.mem best).size := by
  unfold chooseBlock at hChoose
  obtain ⟨found, hFound, hCase⟩ := bestFit_spec size hI.layout.linked hI.layout.short
  rw [hFound, Option.bind_some] at hChoose
  rcases hCase with ⟨rfl, -⟩ | ⟨hNonzero, -, hFits⟩
  · rw [if_pos rfl] at hChoose
    obtain ⟨-, -, -, -, hHeader, -⟩ := hI.append hHead hChoose
    rw [hHeader]
    unfold sizeofBlock pageSize at hSmall
    change size ≤ 4087
    omega
  · rw [if_neg hNonzero] at hChoose
    cases hChoose
    exact hFits.2

/-- A split leaves the size asked for, and without one the whole block is handed out. -/
theorem take_fits (hI : HeapInv h s.obtained held listed lost) (hBest : best ∈ listed)
    (hFits : size ≤ (blockAt h.mem best).size) :
    size ≤ (blockAt (takeBlock h.mem best size) best).size := by
  have hEnd := hI.layout.end_le (List.mem_append_left lost hBest)
  by_cases hRoom : size + sizeofBlock ≤ (blockAt h.mem best).size
  · have hHeader : 0 < sizeofBlock := by decide
    obtain ⟨hSplit, -⟩ := takeBlock_split hRoom (by omega)
    rw [hSplit]
  · rw [takeBlock_whole hRoom, blockAt_setType (by decide)]
    exact hFits

/-- **A request that fits a page** gets a block of its size. -/
theorem kmalloc_size {r : Nat} (hI : HeapInv h s.obtained held listed lost)
    (hSmall : size + sizeofBlock ≤ pageSize)
    (hRun : kmalloc drawPage size flag h s = some (r, h', s')) (hr : r ≠ 0) :
    size ≤ (blockAt h'.mem (r - sizeofBlock)).size := by
  unfold kmalloc at hRun
  by_cases hSize : pageSize < size ∨ size = 0
  · simp only [if_pos hSize] at hRun
    cases hRun
    exact absurd rfl hr
  · simp only [if_neg hSize] at hRun
    obtain ⟨⟨h₁, s₁⟩, hFirst, hRest⟩ := Option.bind_eq_some_iff.mp hRun
    obtain ⟨⟨best, h₂, s₂⟩, hChoose, hEq⟩ := Option.map_eq_some_iff.mp hRest
    obtain ⟨listed₁, hI₁, hHead₁, -⟩ := hI.first hFirst
    obtain ⟨listed₂, lost₂, hI₂, hBest, -, hPos, -⟩ := hI₁.choose hHead₁ (by omega) hChoose
    obtain ⟨-, -, -, hAddr⟩ := hI₂.take size hBest hPos
    have hFits := choose_fits hI₁ hHead₁ hSmall hChoose
    rw [Nat.mod_eq_of_lt hAddr] at hEq
    cases hEq
    rw [Nat.add_sub_cancel]
    exact take_fits hI₂ hBest hFits

/-! ## What is handed out -/

/-- The address is that of a block that can hold the request: its header says so, and
the bytes lie in one page and in no other block. -/
structure Serves (h : Heap) (pages blocks : List Nat) (size r : Nat) : Prop where
  recorded : size ≤ (blockAt h.mem (r - sizeofBlock)).size
  page : ∃ page ∈ pages, (⟨r, size⟩ : Extent).Within (pageExtent page)
  apart : ∀ b ∈ blocks, b + sizeofBlock ≠ r → (⟨r, size⟩ : Extent).Apart (blockExtent h.mem b)

/-- **What `kmalloc` returns** has the bytes asked for exactly if they fit behind the
header of a page. -/
theorem kmalloc_serves_iff {mem : Mem} {events : List Event} {s : State}
    (hRun : exec step (start mem) events = some s) {size flag r : Nat} {pending : List Nat}
    {h' : Heap} {sup : Supply}
    (hCall : kmalloc drawPage size flag s.heap ⟨s.pages, pending⟩ = some (r, h', sup))
    (hr : r ≠ 0) :
    ∃ listed lost, Linked h'.next h'.heapHead listed ∧
      Tiling (sup.obtained.map pageExtent) ((listed ++ lost).map (blockExtent h'.mem)) ∧
      (Serves h' sup.obtained (listed ++ lost) size r ↔ size + sizeofBlock ≤ pageSize) := by
  obtain ⟨listed₀, lost₀, hI₀⟩ := exec_owns hRun
  have hI₀ : HeapInv s.heap (⟨s.pages, pending⟩ : Supply).obtained s.held listed₀ lost₀ := hI₀
  obtain ⟨listed, lost, hI, -⟩ := hI₀.alloc hCall
  rw [if_neg hr] at hI
  obtain ⟨-, b, hb, rfl, -⟩ := hI.held r List.mem_cons_self
  obtain ⟨page, hPage, hLow, hHigh⟩ := hI.layout.inPage hb
  refine ⟨listed, lost, hI.layout.linked, hI.layout.tiling, fun hServes => ?_, fun hSmall => ?_⟩
  · have hRecorded := hServes.recorded
    rw [Nat.add_sub_cancel] at hRecorded
    omega
  · have hSize := kmalloc_size hI₀ hSmall hCall hr
    rw [Nat.add_sub_cancel] at hSize
    refine
      { recorded := by rwa [Nat.add_sub_cancel]
        page := ⟨page, hPage, ?_, ?_⟩
        apart := fun c hc hne => Extent.apart_of_le ?_ }
    · exact Nat.le_trans hLow (Nat.le_add_right _ _)
    · change b + sizeofBlock + size ≤ page + pageSize
      omega
    · have hSide := hI.layout.side hc hb fun hEq => hne (hEq ▸ rfl)
      unfold blockExtent
      simp only
      omega

/-- A block out of the middle of a page. -/
theorem kmalloc_serves_iff_middle :
    ∃ s h' sup, exec step (start fun _ => 0) [.kmalloc 100 0 [0x100000]] = some s ∧
      kmalloc drawPage 3978 0 s.heap ⟨s.pages, []⟩ = some (0x100076, h', sup) ∧
      ∃ blocks, Serves h' sup.obtained blocks 3978 0x100076 := by
  have hView : (exec step (start fun _ => 0) [.kmalloc 100 0 [0x100000]]).map (fun s =>
      (kmalloc drawPage 3978 0 s.heap ⟨s.pages, []⟩).map Prod.fst) = some (some 0x100076) := by
    decide +kernel
  obtain ⟨s, hRun, hNext⟩ := Option.map_eq_some_iff.mp hView
  obtain ⟨⟨r, h', sup⟩, hCall, rfl⟩ := Option.map_eq_some_iff.mp hNext
  obtain ⟨listed, lost, -, -, hIff⟩ := kmalloc_serves_iff hRun hCall (by decide)
  exact ⟨s, h', sup, hRun, hCall, listed ++ lost, hIff.mpr (by decide)⟩

/-- **A whole page asked for.**  The block at `0x100000` records 4087 bytes, and the
last nine of the 4096 handed out are the header of the block at `0x101000`. -/
theorem kmalloc_serves_short :
    ∃ s h' sup, exec step (start fun _ => 0) [.kmalloc 4000 0 [0x101000]] = some s ∧
      kmalloc drawPage 4096 0 s.heap ⟨s.pages, [0x100000]⟩ = some (0x100009, h', sup) ∧
      Linked h'.next h'.heapHead [0x101000, 0x100000] ∧
      (blockAt h'.mem 0x100000).size = 4087 ∧
      ¬(⟨0x100009, 4096⟩ : Extent).Apart (blockExtent h'.mem 0x101000) ∧
      ∀ blocks, ¬Serves h' sup.obtained blocks 4096 0x100009 := by
  have hView : (exec step (start fun _ => 0) [.kmalloc 4000 0 [0x101000]]).map (fun s =>
      (kmalloc drawPage 4096 0 s.heap ⟨s.pages, [0x100000]⟩).map fun r =>
        (r.1, decide (Linked r.2.1.next r.2.1.heapHead [0x101000, 0x100000]),
          (blockAt r.2.1.mem 0x100000).size,
          decide ((⟨0x100009, 4096⟩ : Extent).Apart (blockExtent r.2.1.mem 0x101000)))) =
      some (some (0x100009, true, 4087, false)) := by
    decide +kernel
  obtain ⟨s, hRun, hNext⟩ := Option.map_eq_some_iff.mp hView
  obtain ⟨⟨r, h', sup⟩, hCall, hSeen⟩ := Option.map_eq_some_iff.mp hNext
  simp only [Prod.mk.injEq, decide_eq_true_eq, decide_eq_false_iff_not] at hSeen
  obtain ⟨rfl, hLinked, hSize, hOverlap⟩ := hSeen
  refine ⟨s, h', sup, hRun, hCall, hLinked, hSize, hOverlap, fun blocks hServes => ?_⟩
  have hRecorded := hServes.recorded
  change 4096 ≤ (blockAt h'.mem 0x100000).size at hRecorded
  omega

end MiniKernel.Ports.KmallocBlocks
