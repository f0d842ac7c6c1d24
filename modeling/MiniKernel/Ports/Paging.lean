import MiniKernel.Ports.Pmm
import MiniKernel.Verified.ByteMemory
import MiniKernel.Verified.PageWords

/-!
# Virtual memory

The second half of `pmm.c`: page tables, the virtual page allocator and its
stack of freed pages.  Page tables live in physical memory, so a table is
1024 words at a frame, and the code edits it through a pointer that it makes
out of the frame address.  What such a pointer reaches depends on the current
translation; every function therefore takes `ptr`, which turns an address the
code dereferences into a physical one, and `none` is a page fault.  `direct`
treats tables as the arrays the code addresses; `pageWalk` is the walk of
the processor.

The named variables of the kernel (`page_directory`, `free_virtual`, the
memory map) are storage of their own, and words are read and written whole.
-/

namespace MiniKernel.Ports.Paging

open MiniKernel.Verified.ByteMemory
open MiniKernel.Verified.PageWords
open MiniKernel.Ports.Pmm

def pagePresent : Nat := 0x001
def pageWrite : Nat := 0x002
def pageUser : Nat := 0x004

/-- `PAGE_PRESENT | PAGE_WRITE | PAGE_USER`. -/
def userFlags : Nat := pagePresent ||| pageWrite ||| pageUser

/-- Where the linker put the first page table and the end of the image, which
the boot sector loads below 4 MiB. -/
structure Layout where
  pageTable : Nat
  kernelEnd : Nat
  positive : 0 < pageTable
  aligned : pageTable % 4096 = 0
  inside : pageTable + 4096 ≤ kernelEnd
  low : kernelEnd ≤ 0x400000

/-- The image as it is linked. -/
def image : Layout where
  pageTable := 0x22000
  kernelEnd := 0x26000
  positive := by decide
  aligned := by decide
  inside := by decide
  low := by decide

/-- Physical memory and the variables of `pmm.c`. -/
structure Vm where
  pmm : Table
  mem : Mem
  pageDirectory : Nat → Nat
  nextVirtual : Nat
  freeVirtual : Nat → Nat
  freeCount : Nat

/-- `array[i] = v`. -/
def setWord (array : Nat → Nat) (i v : Nat) : Nat → Nat :=
  fun j => if j = i then v else array j

/-- `init_virtual_allocator`. -/
def initVirtualAllocator (layout : Layout) (vm : Vm) : Vm :=
  { vm with nextVirtual := (layout.kernelEnd + 4095) &&& 0xFFFFF000 }

/-- `build_first_page`. -/
def buildFirstPage (layout : Layout) (vm : Vm) : Vm :=
  { vm with
    mem := (List.range 1024).foldl
      (fun m k => store m (layout.pageTable + 4 * k) (k * 0x1000 ||| 7) 4) vm.mem
    pageDirectory := fun k => if k = 0 then layout.pageTable ||| 7 else 0 }

/-- Table words are reached at their own addresses. -/
def direct (_vm : Vm) (a : Nat) : Option Nat := some a

/-- The processor's translation of a virtual address. -/
def pageWalk (vm : Vm) (v : Nat) : Option Nat :=
  let entry := vm.pageDirectory (v >>> 22)
  if entry &&& 1 = 0 then none
  else
    let word := load vm.mem ((entry &&& 0xFFFFF000) + 4 * ((v >>> 12) &&& 0x3FF)) 4
    if word &&& 1 = 0 then none else some ((word &&& 0xFFFFF000) + v % 4096)

section Pointers

variable (ptr : Vm → Nat → Option Nat)

/-- `*a`. -/
def readWord (vm : Vm) (a : Nat) : Option Nat :=
  (ptr vm a).map fun p => load vm.mem p 4

/-- `*a = v`. -/
def writeWord (vm : Vm) (a v : Nat) : Option Vm :=
  (ptr vm a).map fun p => { vm with mem := store vm.mem p v 4 }

/-- `for (k = 0; k < 1024; k++) table_ptr[k] = 0`, for the given counters. -/
def clearTable (table : Nat) (ks : List Nat) (vm : Vm) : Option Vm :=
  ks.foldlM (fun vm k => writeWord ptr vm (table + 4 * k) 0) vm

/-- The first half of `map_page`: a missing table is allocated and cleared;
`false` when that is not possible. -/
def ensureTable (directory flags : Nat) (vm : Vm) : Option (Bool × Vm) :=
  if vm.pageDirectory directory &&& 1 = 0 then
    let r := allocate 4096 vm.pmm
    if r.1 = 0 then some (false, { vm with pmm := r.2 })
    else
      (clearTable ptr r.1 (List.range 1024) { vm with pmm := r.2 }).map fun vm =>
        let directoryFlags :=
          if flags &&& pageUser ≠ 0 then pagePresent ||| pageWrite ||| pageUser
          else pagePresent ||| pageWrite
        (true, { vm with
          pageDirectory := setWord vm.pageDirectory directory (r.1 ||| directoryFlags) })
  else some (true, vm)

/-- The second half of `map_page`, when the table is there. -/
def writeEntry (physical virtual flags : Nat) (vm : Vm) : Option Vm :=
  let directory := virtual >>> 22
  let table := (virtual >>> 12) &&& 0x3FF
  let entry := vm.pageDirectory directory
  let entry := if flags &&& pageUser ≠ 0 then entry ||| pageUser else entry
  let vm := { vm with pageDirectory := setWord vm.pageDirectory directory entry }
  writeWord ptr vm ((entry &&& 0xFFFFF000) + 4 * table)
    ((physical &&& 0xFFFFF000) ||| flags)

/-- `map_page`. -/
def mapPage (physical virtual flags : Nat) (vm : Vm) : Option Vm :=
  (ensureTable ptr (virtual >>> 22) flags vm).bind fun r =>
    if r.1 then writeEntry ptr physical virtual flags r.2 else some r.2

/-- The flags a caller gets when it passes `0`. -/
def defaultFlags (flag : Nat) : Nat := if flag = 0 then pagePresent ||| pageWrite else flag

theorem defaultFlags_lt {n flag : Nat} (hn : 3 < n) (h : flag < n) : defaultFlags flag < n := by
  unfold defaultFlags
  split
  · exact hn
  · exact h

/-- The virtual page `allocate_page` uses next, and the state without it. -/
def takeVirtual (vm : Vm) : Nat × Vm :=
  if 0 < vm.freeCount then
    (vm.freeVirtual (vm.freeCount - 1), { vm with freeCount := vm.freeCount - 1 })
  else (vm.nextVirtual, { vm with nextVirtual := (vm.nextVirtual + 4096) % 2 ^ 32 })

/-- `allocate_page`: the virtual address, `0` on failure. -/
def allocatePage (flag : Nat) (vm : Vm) : Option (Nat × Vm) :=
  let r := allocate 4096 vm.pmm
  if r.1 = 0 then some (0, { vm with pmm := r.2 })
  else
    let v := takeVirtual { vm with pmm := r.2 }
    (mapPage ptr r.1 v.1 (defaultFlags flag) v.2).map fun vm => (v.1, vm)

/-- The loop of `allocate_pages_contig` over the given counters; `false` when
it returns early. -/
def mapContig (start flag : Nat) : List Nat → Vm → Option (Bool × Vm)
  | [], vm => some (true, vm)
  | k :: ks, vm =>
      let r := allocate 4096 vm.pmm
      if r.1 = 0 then some (false, { vm with pmm := r.2 })
      else
        (mapPage ptr r.1 ((start + k * 4096) % 2 ^ 32) flag { vm with pmm := r.2 }).bind
          fun vm => mapContig start flag ks vm

/-- `allocate_pages_contig`: the first virtual address, `0` on failure. -/
def allocatePagesContig (count : Int) (flag : Nat) (vm : Vm) : Option (Nat × Vm) :=
  let start := vm.nextVirtual
  let next := ((vm.nextVirtual : Int) + count * 4096) % 2 ^ 32
  (mapContig ptr start (defaultFlags flag) (List.range count.toNat)
    { vm with nextVirtual := next.toNat }).map fun r => (if r.1 then start else 0, r.2)

end Pointers

/-- `get_pte`: the address of the table word, `0` for `NULL`. -/
def getPte (virtual : Nat) (vm : Vm) : Nat :=
  let entry := vm.pageDirectory (virtual >>> 22)
  if entry &&& 1 = 0 then 0
  else (entry &&& 0xFFFFF000) + 4 * ((virtual >>> 12) &&& 0x3FF)

/-- `free_virtual[free_count++] = addr`. -/
def pushFree (addr : Nat) (vm : Vm) : Vm :=
  { vm with
    freeVirtual := setWord vm.freeVirtual vm.freeCount addr
    freeCount := vm.freeCount + 1 }

section Pointers

variable (ptr : Vm → Nat → Option Nat)

/-- `get_map`. -/
def getMap (virtual : Nat) (vm : Vm) : Option Nat :=
  let pte := getPte virtual vm
  if pte = 0 then some 0
  else
    (readWord ptr vm pte).map fun word =>
      if word &&& 1 = 0 then 0 else word &&& 0xFFFFF000

/-- `free_page`: the page is put on the stack before anything is checked. -/
def freePage (addr : Nat) (vm : Vm) : Option Vm :=
  let vm := pushFree addr vm
  let pte := getPte addr vm
  if pte = 0 then some vm
  else
    (readWord ptr vm pte).bind fun word =>
      if word &&& 1 = 0 then some vm
      else writeWord ptr { vm with pmm := free (word &&& 0xFFFFF000) vm.pmm } pte 0

/-- `unmap_page`. -/
def unmapPage (virtual : Nat) (vm : Vm) : Option Vm :=
  let pte := getPte virtual vm
  if pte = 0 then some vm
  else
    (readWord ptr vm pte).bind fun word =>
      if word &&& 1 = 0 then some vm else writeWord ptr vm pte 0

end Pointers

/-- The state `kernel()` enables paging in, whatever memory and the variables
hold before. -/
def boot (layout : Layout) (pmm : Table) (mem : Mem) (freeVirtual : Nat → Nat) : Vm :=
  buildFirstPage layout (initVirtualAllocator layout
    { pmm := pmm
      mem := mem
      pageDirectory := fun _ => 0
      nextVirtual := 0
      freeVirtual := freeVirtual
      freeCount := 0 })

/-- What `boot` builds, with the first page table spelled out. -/
theorem boot_eq (layout : Layout) (pmm : Table) (mem : Mem) (freeVirtual : Nat → Nat) :
    boot layout pmm mem freeVirtual =
      { pmm := pmm
        mem := withArray mem layout.pageTable 1024 fun k => k * 0x1000 ||| 7
        pageDirectory := fun k => if k = 0 then layout.pageTable ||| 7 else 0
        nextVirtual := (layout.kernelEnd + 4095) &&& 0xFFFFF000
        freeVirtual := freeVirtual
        freeCount := 0 } := by
  unfold boot buildFirstPage initVirtualAllocator
  rw [foldl_store_array]

/-! ## Variables the table edits leave alone -/

/-- The pages on the stack of freed pages. -/
def stack (vm : Vm) : List Nat := (List.range vm.freeCount).map vm.freeVirtual

/-- The allocator of virtual pages is not touched. -/
structure SameVirtual (vm vm' : Vm) : Prop where
  nextVirtual : vm'.nextVirtual = vm.nextVirtual
  freeVirtual : vm'.freeVirtual = vm.freeVirtual
  freeCount : vm'.freeCount = vm.freeCount

theorem SameVirtual.refl (vm : Vm) : SameVirtual vm vm := ⟨rfl, rfl, rfl⟩

theorem SameVirtual.trans {vm₁ vm₂ vm₃ : Vm} (h : SameVirtual vm₁ vm₂)
    (h' : SameVirtual vm₂ vm₃) : SameVirtual vm₁ vm₃ :=
  ⟨h'.nextVirtual.trans h.nextVirtual, h'.freeVirtual.trans h.freeVirtual,
    h'.freeCount.trans h.freeCount⟩

theorem SameVirtual.stack {vm vm' : Vm} (h : SameVirtual vm vm') : stack vm' = stack vm := by
  rw [Paging.stack, Paging.stack, h.freeCount, h.freeVirtual]

theorem stack_pushFree (addr : Nat) (vm : Vm) : stack (pushFree addr vm) = stack vm ++ [addr] := by
  unfold stack pushFree
  simp only [List.range_succ, List.map_append, List.map_cons, List.map_nil]
  congr 1
  · apply List.map_congr_left
    intro k hk
    have := List.mem_range.mp hk
    simp only [setWord, if_neg (show k ≠ vm.freeCount by omega)]
  · simp [setWord]

/-- Taking a page leaves the tables and the map alone and shrinks the stack. -/
theorem takeVirtual_frame (vm : Vm) :
    (takeVirtual vm).2.pmm = vm.pmm ∧ (takeVirtual vm).2.mem = vm.mem ∧
      (takeVirtual vm).2.pageDirectory = vm.pageDirectory ∧
      ∀ a ∈ stack (takeVirtual vm).2, a ∈ stack vm := by
  unfold takeVirtual
  split
  · refine ⟨rfl, rfl, rfl, fun a ha => ?_⟩
    obtain ⟨k, hk, rfl⟩ := List.mem_map.mp ha
    have hk := List.mem_range.mp hk
    exact List.mem_map_of_mem (List.mem_range.mpr (by simp only at hk; omega))
  · exact ⟨rfl, rfl, rfl, fun a ha => by simpa only [stack] using ha⟩

variable {ptr : Vm → Nat → Option Nat} {vm vm' : Vm}

theorem writeWord_same {a v : Nat} (h : writeWord ptr vm a v = some vm') :
    SameVirtual vm vm' := by
  obtain ⟨p, -, rfl⟩ := Option.map_eq_some_iff.mp h
  exact ⟨rfl, rfl, rfl⟩

theorem clearTable_same {table : Nat} {ks : List Nat}
    (h : clearTable ptr table ks vm = some vm') : SameVirtual vm vm' := by
  induction ks generalizing vm with
  | nil =>
      cases h
      exact SameVirtual.refl _
  | cons k ks ih =>
      obtain ⟨vm₁, hWrite, hRest⟩ := Option.bind_eq_some_iff.mp h
      exact (writeWord_same hWrite).trans (ih hRest)

theorem ensureTable_same {directory flags : Nat} {ok : Bool}
    (h : ensureTable ptr directory flags vm = some (ok, vm')) : SameVirtual vm vm' := by
  unfold ensureTable at h
  split at h
  · simp only at h
    split at h
    · cases h
      exact ⟨rfl, rfl, rfl⟩
    · obtain ⟨vm₁, hClear, hEq⟩ := Option.map_eq_some_iff.mp h
      obtain ⟨hNext, hFree, hCount⟩ := clearTable_same hClear
      cases hEq
      exact ⟨hNext, hFree, hCount⟩
  · cases h
    exact SameVirtual.refl _

theorem writeEntry_same {physical virtual flags : Nat}
    (h : writeEntry ptr physical virtual flags vm = some vm') : SameVirtual vm vm' := by
  obtain ⟨hNext, hFree, hCount⟩ := writeWord_same h
  exact ⟨hNext, hFree, hCount⟩

theorem mapPage_same {physical virtual flags : Nat}
    (h : mapPage ptr physical virtual flags vm = some vm') : SameVirtual vm vm' := by
  obtain ⟨⟨ok, vm₁⟩, hTable, hRest⟩ := Option.bind_eq_some_iff.mp h
  have hFirst := ensureTable_same hTable
  cases ok with
  | true => exact hFirst.trans (writeEntry_same hRest)
  | false =>
      cases hRest
      exact hFirst

/-- `allocate_page` when there is a frame. -/
theorem allocatePage_some {flag : Nat} (h : (allocate 4096 vm.pmm).1 ≠ 0) :
    allocatePage ptr flag vm =
      (mapPage ptr (allocate 4096 vm.pmm).1
        (takeVirtual { vm with pmm := (allocate 4096 vm.pmm).2 }).1 (defaultFlags flag)
        (takeVirtual { vm with pmm := (allocate 4096 vm.pmm).2 }).2).map
          fun vm' => ((takeVirtual { vm with pmm := (allocate 4096 vm.pmm).2 }).1, vm') :=
  if_neg h

theorem mapContig_same {start flag : Nat} {ks : List Nat} {ok : Bool}
    (h : mapContig ptr start flag ks vm = some (ok, vm')) : SameVirtual vm vm' := by
  induction ks generalizing vm with
  | nil =>
      cases h
      exact SameVirtual.refl _
  | cons k ks ih =>
      simp only [mapContig] at h
      split at h
      · cases h
        exact ⟨rfl, rfl, rfl⟩
      · obtain ⟨vm₁, hMap, hRest⟩ := Option.bind_eq_some_iff.mp h
        obtain ⟨hNext, hFree, hCount⟩ := mapPage_same hMap
        exact SameVirtual.trans ⟨hNext, hFree, hCount⟩ (ih hRest)

theorem freePage_same {addr : Nat} (h : freePage ptr addr vm = some vm') :
    SameVirtual (pushFree addr vm) vm' := by
  unfold freePage at h
  simp only at h
  split at h
  · cases h
    exact SameVirtual.refl _
  · obtain ⟨word, -, hRest⟩ := Option.bind_eq_some_iff.mp h
    split at hRest
    · cases hRest
      exact SameVirtual.refl _
    · obtain ⟨hNext, hFree, hCount⟩ := writeWord_same hRest
      exact ⟨hNext, hFree, hCount⟩

end MiniKernel.Ports.Paging
