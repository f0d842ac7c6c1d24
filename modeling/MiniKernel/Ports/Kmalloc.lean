import MiniKernel.Verified.ByteMemory
import MiniKernel.Verified.Links

/-!
# The kernel heap

`kmalloc` and `kfree` of `pmm.c`.  A block is a packed nine-byte header
followed by its payload; the blocks form a singly linked list from
`heap_head`.  The port works on byte-addressed memory, so that a header, a
payload and a page are all just ranges of bytes and nothing about their
disjointness is built in.

`kmalloc` is split where the source has its four stages: `firstPage`, the
best-fit loop `bestFit`, `appendPage`, and `takeBlock`.  Each stage has one
lemma; the page allocator is a parameter, with `none` standing for a call
that does not return.  The loops over the list get as many turns as there are
addresses, which every list that ends stays below.
-/

namespace MiniKernel.Ports.Kmalloc

open MiniKernel.Verified.ByteMemory
open MiniKernel.Verified.Links

/-- `Block`: the header in front of a payload. -/
structure Block where
  size : Nat
  type : Nat
  next : Nat
  deriving Repr, DecidableEq

/-- `sizeof(Block)`; the structure is packed. -/
def sizeofBlock : Nat := 9

/-- The bytes `allocate_page` hands out at a time. -/
def pageSize : Nat := 4096

/-- The number of 32-bit addresses. -/
def addresses : Nat := 2 ^ 32

/-- `PAGE_PRESENT | PAGE_WRITE`. -/
def presentWrite : Nat := 0x001 ||| 0x002

/-- The header at an address. -/
def blockAt (m : Mem) (b : Nat) : Block where
  size := load m b 4
  type := load m (b + 4) 1
  next := load m (b + 5) 4

/-- `b->size = v`. -/
def setSize (m : Mem) (b v : Nat) : Mem := store m b v 4

/-- `b->type = v`. -/
def setType (m : Mem) (b v : Nat) : Mem := store m (b + 4) v 1

/-- `b->next = v`. -/
def setNext (m : Mem) (b v : Nat) : Mem := store m (b + 5) v 4

/-- Memory and the two list pointers. -/
structure Heap where
  mem : Mem
  heapHead : Nat
  currentBlock : Nat

/-- `b->next` in this heap. -/
def Heap.next (h : Heap) (b : Nat) : Nat := (blockAt h.mem b).next

/-- The header of a page that becomes one free block. -/
def initPage (m : Mem) (page : Nat) : Mem :=
  let m := setSize m page (pageSize - sizeofBlock)
  let m := setType m page 1
  setNext m page 0

section Allocator

universe u

variable {σ : Type u} (allocatePage : Nat → σ → Option (Nat × σ))

/-- `if (heap_head == NULL) …`: the heap gets its first page. -/
def firstPage (flag : Nat) (h : Heap) (s : σ) : Option (Heap × σ) :=
  if h.heapHead = 0 then
    (allocatePage flag s).map fun r =>
      ({ mem := initPage h.mem r.1, heapHead := r.1, currentBlock := r.1 }, r.2)
  else some (h, s)

/-- One turn of the best-fit loop; `0` is the source's `best_block == NULL`. -/
def bestFitStep (m : Mem) (size best b : Nat) : Nat :=
  if (blockAt m b).type = 1 ∧ size ≤ (blockAt m b).size then
    if best = 0 ∨ (blockAt m b).size < (blockAt m best).size then b else best
  else best

/-- The smallest free block that is large enough, `0` when there is none. -/
def bestFit (h : Heap) (size : Nat) : Option Nat :=
  walk (fun _ => h.next) (bestFitStep h.mem size) addresses h.heapHead 0

/-- `if (best_block == NULL) …`: a new page is linked after `current_block`. -/
def appendPage (flag : Nat) (h : Heap) (s : σ) : Option (Nat × Heap × σ) :=
  (allocatePage flag s).map fun r =>
    let m := setNext (initPage h.mem r.1) h.currentBlock r.1
    (r.1, { h with mem := m, currentBlock := r.1 }, r.2)

/-- The block the request is served from. -/
def chooseBlock (flag size : Nat) (h : Heap) (s : σ) : Option (Nat × Heap × σ) :=
  (bestFit h size).bind fun best =>
    if best = 0 then appendPage allocatePage flag h s else some (best, h, s)

/-- The block is split when the remainder has room for a header. -/
def takeBlock (m : Mem) (best size : Nat) : Mem :=
  if size + sizeofBlock ≤ (blockAt m best).size then
    let newBlock := (best + sizeofBlock + size) % 2 ^ 32
    let m := setNext m newBlock (blockAt m best).next
    let m := setSize m newBlock ((blockAt m best).size - size - sizeofBlock)
    let m := setType m newBlock 1
    let m := setSize m best size
    let m := setType m best 2
    setNext m best newBlock
  else setType m best 2

/-- `kmalloc`: the address handed out, `0` on a refused size. -/
def kmalloc (size flag : Nat) (h : Heap) (s : σ) : Option (Nat × Heap × σ) :=
  let flag := if flag = 0 then presentWrite else flag
  if pageSize < size ∨ size = 0 then some (0, h, s)
  else
    (firstPage allocatePage flag h s).bind fun r =>
      (chooseBlock allocatePage flag size r.1 r.2).map fun c =>
        ((c.1 + sizeofBlock) % 2 ^ 32,
          { c.2.1 with mem := takeBlock c.2.1.mem c.1 size }, c.2.2)

end Allocator

/-- The address the caller knows the block by. -/
def userAddr (b : Nat) : Nat := (b + sizeofBlock) % 2 ^ 32

/-- `kfree`: the first block with that user address becomes free. -/
def kfree (addr : Nat) (h : Heap) : Option Heap :=
  (seek h.next (fun b => userAddr b == addr) 0 addresses h.heapHead).map fun b =>
    if b = 0 then h else { h with mem := setType h.mem b 1 }

/-! ## Headers in memory -/

/-- A header depends only on its nine bytes. -/
theorem blockAt_congr {m m' : Mem} {b : Nat}
    (h : ∀ x, b ≤ x → x < b + sizeofBlock → m' x = m x) :
    blockAt m' b = blockAt m b := by
  unfold blockAt sizeofBlock at *
  rw [load_congr fun x hLow hHigh => h x (by omega) (by omega),
    load_congr fun x hLow hHigh => h x (by omega) (by omega),
    load_congr fun x hLow hHigh => h x (by omega) (by omega)]

theorem setSize_apart {m : Mem} {b v x : Nat} (h : x < b ∨ b + sizeofBlock ≤ x) :
    setSize m b v x = m x :=
  store_apply_apart (by unfold sizeofBlock at h; omega)

theorem setType_apart {m : Mem} {b v x : Nat} (h : x < b ∨ b + sizeofBlock ≤ x) :
    setType m b v x = m x :=
  store_apply_apart (by unfold sizeofBlock at h; omega)

theorem setNext_apart {m : Mem} {b v x : Nat} (h : x < b ∨ b + sizeofBlock ≤ x) :
    setNext m b v x = m x :=
  store_apply_apart (by unfold sizeofBlock at h; omega)

theorem blockAt_setSize {m : Mem} {b v : Nat} (hv : v < 2 ^ 32) :
    blockAt (setSize m b v) b = { blockAt m b with size := v } := by
  unfold blockAt setSize
  rw [load_store_self hv, load_store_apart (by omega), load_store_apart (by omega)]

theorem blockAt_setType {m : Mem} {b v : Nat} (hv : v < 256) :
    blockAt (setType m b v) b = { blockAt m b with type := v } := by
  unfold blockAt setType
  rw [load_store_self (by omega), load_store_apart (by omega),
    load_store_apart (by omega)]

theorem blockAt_setNext {m : Mem} {b v : Nat} (hv : v < 2 ^ 32) :
    blockAt (setNext m b v) b = { blockAt m b with next := v } := by
  unfold blockAt setNext
  rw [load_store_self hv, load_store_apart (by omega), load_store_apart (by omega)]

theorem blockAt_size_lt (m : Mem) (b : Nat) : (blockAt m b).size < 2 ^ 32 :=
  load_lt m 4 b

theorem blockAt_next_lt (m : Mem) (b : Nat) : (blockAt m b).next < 2 ^ 32 :=
  load_lt m 4 (b + 5)

/-! ## The stages of `kmalloc` -/

/-- The header of a fresh page, and nothing else changes. -/
theorem blockAt_initPage (m : Mem) (page : Nat) :
    blockAt (initPage m page) page = ⟨4087, 1, 0⟩ := by
  unfold initPage pageSize sizeofBlock
  rw [blockAt_setNext (by omega), blockAt_setType (by omega), blockAt_setSize (by omega)]

theorem initPage_apart {m : Mem} {page x : Nat}
    (h : x < page ∨ page + sizeofBlock ≤ x) : initPage m page x = m x := by
  unfold initPage
  rw [setNext_apart h, setType_apart h, setSize_apart h]

/-- The block can serve the request. -/
def Block.Fits (size : Nat) (b : Block) : Prop := b.type = 1 ∧ size ≤ b.size

/-- What the best-fit loop leaves behind after the blocks `xs`. -/
theorem foldl_bestFitStep {m : Mem} {size : Nat} {xs : List Nat}
    (hNonzero : ∀ x ∈ xs, x ≠ 0) (best : Nat) :
    (xs.foldl (bestFitStep m size) best = best ∨
        xs.foldl (bestFitStep m size) best ∈ xs ∧
          (blockAt m (xs.foldl (bestFitStep m size) best)).Fits size) ∧
      (xs.foldl (bestFitStep m size) best = 0 →
        best = 0 ∧ ∀ x ∈ xs, ¬(blockAt m x).Fits size) := by
  induction xs generalizing best with
  | nil => simp
  | cons y ys ih =>
      rw [List.foldl_cons]
      obtain ⟨hMem, hNone⟩ :=
        ih (fun x hx => hNonzero x (by simp [hx])) (bestFitStep m size best y)
      by_cases hFits : (blockAt m y).Fits size
      · have hStep : bestFitStep m size best y = y ∨
            bestFitStep m size best y = best ∧ best ≠ 0 := by
          unfold bestFitStep
          rw [if_pos (show _ ∧ _ from hFits)]
          split
          · exact Or.inl rfl
          · next h => exact Or.inr ⟨rfl, fun h0 => h (Or.inl h0)⟩
        have hy := hNonzero y (by simp)
        refine ⟨?_, fun h0 => ?_⟩
        · rcases hMem with hMem | ⟨hMem, hBest⟩
          · rcases hStep with hStep | ⟨hStep, -⟩
            · right
              rw [hMem, hStep]
              exact ⟨by simp, hFits⟩
            · left
              rw [hMem, hStep]
          · exact Or.inr ⟨by simp [hMem], hBest⟩
        · have := (hNone h0).1
          omega
      · have hStep : bestFitStep m size best y = best := by
          unfold bestFitStep
          exact if_neg hFits
        rw [hStep] at hMem hNone ⊢
        refine ⟨?_, fun h0 => ⟨(hNone h0).1, ?_⟩⟩
        · rcases hMem with hMem | ⟨hMem, hBest⟩
          · exact Or.inl hMem
          · exact Or.inr ⟨by simp [hMem], hBest⟩
        · intro x hx
          rcases List.mem_cons.mp hx with rfl | hx
          · exact hFits
          · exact (hNone h0).2 x hx

/-- On a list that ends, the loop ends: at a listed block that fits, or at
`0` when none does. -/
theorem bestFit_spec {h : Heap} {listed : List Nat} (size : Nat)
    (hLinked : Linked h.next h.heapHead listed) (hShort : listed.length < addresses) :
    ∃ best, bestFit h size = some best ∧
      (best = 0 ∧ (∀ b ∈ listed, ¬(blockAt h.mem b).Fits size) ∨
        best ≠ 0 ∧ best ∈ listed ∧ (blockAt h.mem best).Fits size) := by
  have hWalk : bestFit h size = some (listed.foldl (bestFitStep h.mem size) 0) := by
    unfold bestFit
    apply Linked.walk_eq
    · exact fun _ _ _ => rfl
    · exact hLinked
    · exact hShort
  refine ⟨_, hWalk, ?_⟩
  obtain ⟨hMem, hNone⟩ := @foldl_bestFitStep h.mem size _ hLinked.ne_zero 0
  by_cases h0 : listed.foldl (bestFitStep h.mem size) 0 = 0
  · exact Or.inl ⟨h0, (hNone h0).2⟩
  · exact Or.inr ⟨h0, hMem.resolve_left h0⟩

/-- A split leaves the block with the requested size, taken, and the new
block behind it with the rest, free. -/
theorem takeBlock_split {m : Mem} {best size : Nat}
    (hRoom : size + sizeofBlock ≤ (blockAt m best).size)
    (hRange : best + sizeofBlock + size < 2 ^ 32) :
    blockAt (takeBlock m best size) best = ⟨size, 2, best + sizeofBlock + size⟩ ∧
      blockAt (takeBlock m best size) (best + sizeofBlock + size) =
        ⟨(blockAt m best).size - size - sizeofBlock, 1, (blockAt m best).next⟩ ∧
      ∀ x, (x < best ∨ best + sizeofBlock ≤ x) →
        (x < best + sizeofBlock + size ∨ best + sizeofBlock + size + sizeofBlock ≤ x) →
        takeBlock m best size x = m x := by
  have hNew : (best + sizeofBlock + size) % 2 ^ 32 = best + sizeofBlock + size :=
    Nat.mod_eq_of_lt hRange
  have hSize := blockAt_size_lt m best
  have hNext := blockAt_next_lt m best
  unfold takeBlock
  rw [if_pos hRoom]
  simp only [hNew]
  generalize hn : best + sizeofBlock + size = new at *
  have hBest : blockAt (setNext m new (blockAt m best).next) best = blockAt m best :=
    blockAt_congr fun x hLow hHigh => setNext_apart (by omega)
  rw [hBest]
  refine ⟨?_, ?_, ?_⟩
  · rw [blockAt_setNext hRange, blockAt_setType (by omega), blockAt_setSize (by omega)]
  · rw [blockAt_congr fun x hLow hHigh => setNext_apart (by omega),
      blockAt_congr fun x hLow hHigh => setType_apart (by omega),
      blockAt_congr fun x hLow hHigh => setSize_apart (by omega),
      blockAt_setType (by omega), blockAt_setSize (by omega), blockAt_setNext hNext]
  · intro x hOld hNewApart
    rw [setNext_apart hOld, setType_apart hOld, setSize_apart hOld,
      setType_apart hNewApart, setSize_apart hNewApart, setNext_apart hNewApart]

theorem takeBlock_whole {m : Mem} {best size : Nat}
    (hTight : ¬size + sizeofBlock ≤ (blockAt m best).size) :
    takeBlock m best size = setType m best 2 := by
  unfold takeBlock
  exact if_neg hTight

end MiniKernel.Ports.Kmalloc
