import MiniKernel.Ports.PagingTables

/-!
# The memory of the kernel itself

`Paging` keeps `page_directory`, the memory map and the variables of the
allocators apart from memory.  In the machine they lie in pages like any other:
the memory map where the boot loader left it, from `0x500` on, the variables in
the image.  A call may map such a page to another frame, free it, or take its
frame for a page table, and then the kernel works on different variables.

`sparing` is a table pointer that faults there: it reaches no word in the
kernel's own memory, and of `page_table` only the words of other pages.  A call
that succeeds with it is the call, and leaves that memory where it is and as it
is (`Leaves`), so that it does not matter that it is kept apart.
-/

namespace MiniKernel.Ports.PagingSparing

open MiniKernel.Verified.ByteMemory
open MiniKernel.Verified.PageWords
open MiniKernel.Ports.Pmm
open MiniKernel.Ports.Paging
open MiniKernel.Ports.PagingTables

/-- The pages of the table of the boot loader, and of the image. -/
def OwnPage (layout : Layout) (page : Nat) : Prop :=
  page < 7 ∨ 0x10 ≤ page ∧ page * 4096 < layout.kernelEnd

/-- The frames the kernel works in: besides, the boot stack and the screen. -/
def OwnFrame (layout : Layout) (frame : Nat) : Prop :=
  OwnPage layout frame ∨ frame = 0x8F ∨ frame = 0xB8

/-- A byte of the kernel's own memory.  Of `page_table` that is the words of its own
pages. -/
def OwnByte (layout : Layout) (x : Nat) : Prop :=
  if layout.pageTable ≤ x ∧ x < layout.pageTable + 4096 then
    OwnPage layout ((x - layout.pageTable) / 4)
  else OwnFrame layout (pageOf x)

/-- The word at `a` has no byte of the kernel's own memory. -/
def SparedWord (layout : Layout) (a : Nat) : Prop :=
  a + 4 ≤ 2 ^ 32 ∧ ∀ i < 4, ¬OwnByte layout (a + i)

instance (layout : Layout) (page : Nat) : Decidable (OwnPage layout page) :=
  inferInstanceAs (Decidable (_ ∨ _))

instance (layout : Layout) (frame : Nat) : Decidable (OwnFrame layout frame) :=
  inferInstanceAs (Decidable (_ ∨ _))

instance (layout : Layout) (x : Nat) : Decidable (OwnByte layout x) := by
  unfold OwnByte
  infer_instance

instance (layout : Layout) (a : Nat) : Decidable (SparedWord layout a) :=
  inferInstanceAs (Decidable (_ ∧ _))

/-- Table pointers that fault in the kernel's own memory. -/
def sparing (layout : Layout) (ptr : Vm → Nat → Option Nat) (vm : Vm) (a : Nat) : Option Nat :=
  (ptr vm a).filter fun p => decide (SparedWord layout p)

/-- The kernel's own memory is as it was, and so is the table of its pages. -/
structure Leaves (layout : Layout) (vm vm' : Vm) : Prop where
  bytes : ∀ x, OwnByte layout x → vm'.mem x = vm.mem x
  first : HasTable vm 0 → SameTable vm vm' 0

/-- The kernel's own pages. -/
def ownPages (layout : Layout) : List Nat :=
  List.range 7 ++ List.range' 0x10 ((layout.kernelEnd + 4095) / 4096 - 0x10)

/-- With the boot stack, the screen and the pages of `held`. -/
def kernelPages (layout : Layout) (held : List Nat) : List Nat :=
  ownPages layout ++ 0x8F :: 0xB8 :: held

/-- The pages from the end of the image up to `next_virtual`. -/
def handedOut (layout : Layout) (vm : Vm) : List Nat :=
  List.range' ((layout.kernelEnd + 4095) / 4096)
    (pageOf vm.nextVirtual - (layout.kernelEnd + 4095) / 4096)

/-- The pages the kernel may be working in: its own, and all that were ever handed out. -/
def workPages (layout : Layout) (vm : Vm) : List Nat := kernelPages layout (handedOut layout vm)

theorem mem_ownPages {layout : Layout} {page : Nat} :
    page ∈ ownPages layout ↔ OwnPage layout page := by
  simp only [ownPages, List.mem_append, List.mem_range, List.mem_range'_1, OwnPage]
  omega

theorem ownPages_subset (layout : Layout) (held : List Nat) :
    ownPages layout ⊆ kernelPages layout held := List.subset_append_left _ _

theorem kernelPages_subset (layout : Layout) (held : List Nat) :
    kernelPages layout [] ⊆ kernelPages layout held := by
  unfold kernelPages
  exact List.append_subset.mpr ⟨List.subset_append_left _ _,
    List.subset_append_of_subset_right _
      (List.cons_subset_cons _ (List.cons_subset_cons _ (List.nil_subset held)))⟩

theorem ownPages_subset_work (layout : Layout) (vm : Vm) :
    ownPages layout ⊆ workPages layout vm := ownPages_subset layout _

/-- The kernel's own pages are mapped to themselves, and no table but the first lies in
them. -/
structure InPlace (layout : Layout) (vm : Vm) : Prop where
  self : ∀ page, OwnPage layout page → Present (entryWord vm page) ∧
    frameOf (entryWord vm page) = page * 4096
  tables : ∀ d < 1024, HasTable vm d → OwnPage layout (pageOf (tableOf vm d)) →
    tableOf vm d = layout.pageTable

variable {layout : Layout} {ptr : Vm → Nat → Option Nat} {vm vm₁ vm' : Vm}

theorem Leaves.trans (h : Leaves layout vm vm₁) (h' : Leaves layout vm₁ vm') :
    Leaves layout vm vm' where
  bytes x hx := (h'.bytes x hx).trans (h.bytes x hx)
  first hHas := (h.first hHas).trans (h'.first ((h.first hHas).1.mpr hHas))

theorem Leaves.of_eq (hMem : vm'.mem = vm.mem) (hDirectory : vm'.pageDirectory = vm.pageDirectory) :
    Leaves layout vm vm' where
  bytes _ _ := by rw [hMem]
  first _ := sameTable_of_eq (by rw [hDirectory])

/-- The variables of the allocators do not matter. -/
theorem Leaves.after (h : Leaves layout vm₁ vm') (hMem : vm₁.mem = vm.mem)
    (hDirectory : vm₁.pageDirectory = vm.pageDirectory) : Leaves layout vm vm' :=
  Leaves.trans (Leaves.of_eq hMem hDirectory) h

theorem sparing_some {a p : Nat} :
    sparing layout ptr vm a = some p ↔ ptr vm a = some p ∧ SparedWord layout p := by
  rw [sparing, Option.filter_eq_some_iff, decide_eq_true_iff]

theorem readWord_sparing {a w : Nat} (h : readWord (sparing layout ptr) vm a = some w) :
    readWord ptr vm a = some w := by
  obtain ⟨p, hPtr, rfl⟩ := Option.map_eq_some_iff.mp h
  rw [readWord, (sparing_some.mp hPtr).1, Option.map_some]

/-- **One edit.** -/
theorem writeWord_sparing {a v : Nat} (h : writeWord (sparing layout ptr) vm a v = some vm') :
    writeWord ptr vm a v = some vm' ∧ Leaves layout vm vm' := by
  obtain ⟨p, hPtr, rfl⟩ := Option.map_eq_some_iff.mp h
  obtain ⟨hPtr, -, hApart⟩ := sparing_some.mp hPtr
  refine ⟨by rw [writeWord, hPtr, Option.map_some], fun x hx => store_apply_apart ?_,
    fun _ => SameTable.refl _ 0⟩
  by_contra hIn
  have hByte := hApart (x - p) (by omega)
  rw [show p + (x - p) = x by omega] at hByte
  exact hByte hx

/-- The clearing loop. -/
theorem clearTable_sparing {table : Nat} {ks : List Nat}
    (h : clearTable (sparing layout ptr) table ks vm = some vm') :
    clearTable ptr table ks vm = some vm' ∧ Leaves layout vm vm' := by
  induction ks generalizing vm with
  | nil =>
      cases h
      exact ⟨rfl, Leaves.of_eq rfl rfl⟩
  | cons k ks ih =>
      obtain ⟨vm₁, hWrite, hRest⟩ := Option.bind_eq_some_iff.mp h
      obtain ⟨hFirst, hLeaves⟩ := writeWord_sparing hWrite
      obtain ⟨hLater, hLeaves'⟩ := ih hRest
      refine ⟨?_, hLeaves.trans hLeaves'⟩
      unfold clearTable
      rw [List.foldlM_cons, hFirst]
      exact hLater

/-- The first half of `map_page`. -/
theorem ensureTable_sparing {directory flags : Nat} {ok : Bool}
    (h : ensureTable (sparing layout ptr) directory flags vm = some (ok, vm')) :
    ensureTable ptr directory flags vm = some (ok, vm') ∧ Leaves layout vm vm' := by
  unfold ensureTable at h ⊢
  by_cases hAbsent : vm.pageDirectory directory &&& 1 = 0
  · simp only [if_pos hAbsent] at h ⊢
    by_cases hFull : (allocate 4096 vm.pmm).1 = 0
    · simp only [if_pos hFull] at h ⊢
      cases h
      exact ⟨rfl, Leaves.of_eq rfl rfl⟩
    · simp only [if_neg hFull] at h ⊢
      obtain ⟨vm₁, hClear, hEq⟩ := Option.map_eq_some_iff.mp h
      cases hEq
      obtain ⟨hSame, hLeaves⟩ := clearTable_sparing hClear
      refine ⟨by rw [hSame, Option.map_some], hLeaves.bytes, fun hHas => ?_⟩
      -- the directory entry of the first table is there, so it is not the one set here
      have hDirectory := clearTable_directory hSame
      have hOther : 0 ≠ directory := by
        rintro rfl
        exact hasTable_iff.mp hHas hAbsent
      apply sameTable_of_eq
      simp only [setWord, if_neg hOther, hDirectory]
  · simp only [if_neg hAbsent] at h ⊢
    cases h
    exact ⟨rfl, Leaves.of_eq rfl rfl⟩

/-- The second half. -/
theorem writeEntry_sparing {physical virtual flags : Nat}
    (h : writeEntry (sparing layout ptr) physical virtual flags vm = some vm') :
    writeEntry ptr physical virtual flags vm = some vm' ∧ Leaves layout vm vm' := by
  obtain ⟨hWrite, hBytes, hFirst⟩ := writeWord_sparing h
  refine ⟨hWrite, hBytes, fun hHas => ?_⟩
  have hUser := sameTable_user vm (virtual >>> 22) _ flags 0 rfl
  exact hUser.trans (hFirst (hUser.1.mpr hHas))

/-- **`map_page`.** -/
theorem mapPage_sparing {physical virtual flags : Nat}
    (h : mapPage (sparing layout ptr) physical virtual flags vm = some vm') :
    mapPage ptr physical virtual flags vm = some vm' ∧ Leaves layout vm vm' := by
  obtain ⟨⟨ok, vm₁⟩, hTable, hRest⟩ := Option.bind_eq_some_iff.mp h
  obtain ⟨hSame, hLeaves⟩ := ensureTable_sparing hTable
  unfold mapPage
  rw [hSame, Option.bind_some]
  cases ok with
  | true =>
      obtain ⟨hWrite, hLeaves'⟩ := writeEntry_sparing hRest
      exact ⟨hWrite, hLeaves.trans hLeaves'⟩
  | false =>
      cases hRest
      exact ⟨rfl, hLeaves⟩

/-- **`allocate_page`.** -/
theorem allocatePage_sparing {flag v : Nat}
    (h : allocatePage (sparing layout ptr) flag vm = some (v, vm')) :
    allocatePage ptr flag vm = some (v, vm') ∧ Leaves layout vm vm' := by
  unfold allocatePage at h ⊢
  by_cases hFull : (allocate 4096 vm.pmm).1 = 0
  · simp only [if_pos hFull] at h ⊢
    cases h
    exact ⟨rfl, Leaves.of_eq rfl rfl⟩
  · simp only [if_neg hFull] at h ⊢
    obtain ⟨vm₁, hMap, hEq⟩ := Option.map_eq_some_iff.mp h
    cases hEq
    obtain ⟨hSame, hLeaves⟩ := mapPage_sparing hMap
    obtain ⟨-, hMem, hDirectory, -⟩ := takeVirtual_frame { vm with pmm := (allocate 4096 vm.pmm).2 }
    exact ⟨by rw [hSame, Option.map_some], hLeaves.after hMem hDirectory⟩

/-- The loop of `allocate_pages_contig`. -/
theorem mapContig_sparing {start flag : Nat} {ks : List Nat} {ok : Bool}
    (h : mapContig (sparing layout ptr) start flag ks vm = some (ok, vm')) :
    mapContig ptr start flag ks vm = some (ok, vm') ∧ Leaves layout vm vm' := by
  induction ks generalizing vm with
  | nil =>
      cases h
      exact ⟨rfl, Leaves.of_eq rfl rfl⟩
  | cons k ks ih =>
      unfold mapContig at h ⊢
      by_cases hFull : (allocate 4096 vm.pmm).1 = 0
      · simp only [if_pos hFull] at h ⊢
        cases h
        exact ⟨rfl, Leaves.of_eq rfl rfl⟩
      · simp only [if_neg hFull] at h ⊢
        obtain ⟨vm₁, hMap, hRest⟩ := Option.bind_eq_some_iff.mp h
        obtain ⟨hSame, hLeaves⟩ := mapPage_sparing hMap
        obtain ⟨hLater, hLeaves'⟩ := ih hRest
        refine ⟨by rw [hSame, Option.bind_some]; exact hLater, ?_⟩
        exact (hLeaves.trans hLeaves').after rfl rfl

/-- **`allocate_pages_contig`.** -/
theorem allocatePagesContig_sparing {count : Int} {flag v : Nat}
    (h : allocatePagesContig (sparing layout ptr) count flag vm = some (v, vm')) :
    allocatePagesContig ptr count flag vm = some (v, vm') ∧ Leaves layout vm vm' := by
  obtain ⟨⟨ok, vm₁⟩, hLoop, hEq⟩ := Option.map_eq_some_iff.mp h
  cases hEq
  obtain ⟨hSame, hLeaves⟩ := mapContig_sparing hLoop
  refine ⟨?_, hLeaves.after rfl rfl⟩
  unfold allocatePagesContig
  simp only [hSame, Option.map_some]

/-- **`free_page`.** -/
theorem freePage_sparing {addr : Nat} (h : freePage (sparing layout ptr) addr vm = some vm') :
    freePage ptr addr vm = some vm' ∧ Leaves layout vm vm' := by
  unfold freePage at h ⊢
  by_cases hNone : getPte addr (pushFree addr vm) = 0
  · simp only [if_pos hNone] at h ⊢
    cases h
    exact ⟨rfl, Leaves.of_eq rfl rfl⟩
  · simp only [if_neg hNone] at h ⊢
    obtain ⟨word, hRead, hRest⟩ := Option.bind_eq_some_iff.mp h
    rw [readWord_sparing hRead, Option.bind_some]
    by_cases hAbsent : word &&& 1 = 0
    · simp only [if_pos hAbsent] at hRest ⊢
      cases hRest
      exact ⟨rfl, Leaves.of_eq rfl rfl⟩
    · simp only [if_neg hAbsent] at hRest ⊢
      obtain ⟨hSame, hLeaves⟩ := writeWord_sparing hRest
      exact ⟨hSame, hLeaves.after rfl rfl⟩

/-- The kernel's own pages lie below 4 MiB. -/
theorem ownPage_lt {page : Nat} (h : OwnPage layout page) : page < 1024 := by
  have hLow := layout.low
  unfold OwnPage at h
  omega

/-- They are in place after boot. -/
theorem boot_inPlace (layout : Layout) (pmm : Table) (mem : Mem) (freeVirtual : Nat → Nat) :
    InPlace layout (boot layout pmm mem freeVirtual) where
  self _ hPage := boot_identity layout pmm mem freeVirtual (ownPage_lt hPage)
  tables d _ hHas _ := by rw [(boot_hasTable ..).mp hHas, boot_tableOf]

/-- **The kernel's own pages keep their words.** -/
theorem Leaves.entryWord (h : Leaves layout vm vm') (hHas : HasTable vm 0)
    (hTable : tableOf vm 0 = layout.pageTable) {page : Nat} (hPage : OwnPage layout page) :
    PagingTables.entryWord vm' page = PagingTables.entryWord vm page := by
  have hLt := ownPage_lt hPage
  obtain ⟨hHas', hTable'⟩ := h.first hHas
  unfold PagingTables.entryWord
  rw [show page / 1024 = 0 by omega, if_pos hHas, if_pos (hHas'.mpr hHas), hTable', hTable]
  refine load_congr fun x hLow hHigh => h.bytes x ?_
  rw [OwnByte, if_pos (by omega), show (x - layout.pageTable) / 4 = page by omega]
  exact hPage

end MiniKernel.Ports.PagingSparing
