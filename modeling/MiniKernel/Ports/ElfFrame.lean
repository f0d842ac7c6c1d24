import MiniKernel.Ports.ElfSegments
import MiniKernel.Ports.PagingCalls
import MiniKernel.Ports.PagingRecycling
import MiniKernel.Ports.ProcessTable

/-!
# What loading a program leaves alone

The loader takes addresses and lengths from the file, maps a fresh frame over
whatever page a segment names, and writes wherever the addresses translate to.
`FileSpares` follows it through the file: no page it maps is among `pages`, and
no byte it writes is in the frame of one of them or in a page table.  A load
that meets it leaves the translation and the bytes of `pages` unchanged.

The words of the page tables, which the loader has to write to map a page, are
not counted as bytes of the pages they lie in.
-/

namespace MiniKernel.Ports.ElfFrame

open MiniKernel.Verified.ByteMemory
open MiniKernel.Verified.PageWords
open MiniKernel.Verified.VirtualMemory
open MiniKernel.Ports.Pmm
open MiniKernel.Ports.Paging
open MiniKernel.Ports.PagingTables
open MiniKernel.Ports.PagingIdentity
open MiniKernel.Ports.PagingCalls
open MiniKernel.Ports.PagingRecycling (State)
open MiniKernel.Ports.Elf
open MiniKernel.Ports.PagingSparing (InPlace kernelPages ownPages_subset boot_inPlace)
open MiniKernel.Ports.PagingKept
open MiniKernel.Ports.ElfSegments (bootWith fileBytes onePage)
open MiniKernel.Ports.ProcessTable (Registers minusOne)

/-! ## `sys_exec` -/

/-- `USER_STACK_TOP`. -/
def userStackTop : Nat := 0xBFFFF000

/-- `sys_exec`: what it returns, the trap frame and the state. -/
def sysExec (ptr : Vm → Nat → Option Nat) (register file : Nat) (regs : Registers) (vm : Vm) :
    Option (Nat × Registers × Vm) :=
  (elfLoadFile ptr register file vm).bind fun r =>
    if r.1 = 0 then some (minusOne, regs, r.2)
    else
      let regs := { regs with eip := r.1, ebp := 0 }
      let a := allocate 4096 r.2.pmm
      let vm := { r.2 with pmm := a.2 }
      if a.1 = 0 then some (minusOne, regs, vm)
      else
        (mapPage ptr a.1 (userStackTop - 4096) (pagePresent ||| pageWrite ||| pageUser) vm).map
          fun vm => (0, { regs with userEsp := userStackTop }, vm)

/-! ## Conditions on a load -/

section Conditions

variable (pages : List Nat)

/-- `n` bytes written from `dest` on are neither in the frames of the pages nor in
a table. -/
def WriteSpares (dest n : Nat) (vm : Vm) : Prop :=
  ∀ k < n, ∀ x ∈ pageWalk vm ((dest + k) % 2 ^ 32), ¬Holds pages vm x ∧ ¬InTable vm x

instance (dest n : Nat) (vm : Vm) : Decidable (WriteSpares pages dest n vm) :=
  inferInstanceAs (Decidable (∀ k < n, ∀ x ∈ pageWalk vm ((dest + k) % 2 ^ 32), _))

/-- `MapSpares` at every turn of the mapping loop of `load_segment`. -/
def PagesSpare : List Nat → Vm → Prop
  | [], _ => True
  | v :: vs, vm =>
      let r := allocate 4096 vm.pmm
      r.1 ≠ 0 → MapSpares pages r.1 v userFlags { vm with pmm := r.2 } ∧
        ∀ vm' ∈ mapPage pageWalk r.1 v userFlags { vm with pmm := r.2 }, PagesSpare vs vm'

instance PagesSpare.decidable : (vs : List Nat) → (vm : Vm) → Decidable (PagesSpare pages vs vm)
  | [], _ => .isTrue trivial
  | v :: vs, vm =>
      have := PagesSpare.decidable vs
      inferInstanceAs (Decidable (_ → _ ∧ ∀ vm' ∈ mapPage pageWalk (allocate 4096 vm.pmm).1 v
        userFlags { vm with pmm := (allocate 4096 vm.pmm).2 }, PagesSpare pages vs vm'))

/-- The part of the file, and then the zeros behind it. -/
def CopySpares (ph file : Nat) (vm : Vm) : Prop :=
  ∀ offset ∈ readMember pageWalk ph pOffset vm,
    ∀ vaddr ∈ readMember pageWalk ph pVaddr vm,
      ∀ filesz ∈ readMember pageWalk ph pFilesz vm, WriteSpares pages vaddr filesz vm ∧
        ∀ vm' ∈ memcpy pageWalk vaddr (file + offset) filesz vm,
          ∀ memsz ∈ readMember pageWalk ph pMemsz vm',
            ∀ filesz ∈ readMember pageWalk ph pFilesz vm', filesz < memsz →
              ∀ vaddr ∈ readMember pageWalk ph pVaddr vm',
                WriteSpares pages (vaddr + filesz) (memsz - filesz) vm'

instance (ph file : Nat) (vm : Vm) : Decidable (CopySpares pages ph file vm) := by
  unfold CopySpares
  infer_instance

/-- `load_segment`. -/
def SegmentSpares (ph file : Nat) (vm : Vm) : Prop :=
  ∀ vaddr ∈ readMember pageWalk ph pVaddr vm,
    ∀ memsz ∈ readMember pageWalk ph pMemsz vm,
      PagesSpare pages (segmentPages vaddr memsz) vm ∧
        ∀ r ∈ mapPages pageWalk (segmentPages vaddr memsz) vm,
          r.1 = true → CopySpares pages ph file r.2

instance (ph file : Nat) (vm : Vm) : Decidable (SegmentSpares pages ph file vm) := by
  unfold SegmentSpares
  infer_instance

/-- The loop of `elf_load_exec`. -/
def HeadersSpare (hdr file phdr : Nat) : List Nat → Vm → Prop
  | [], _ => True
  | i :: is, vm =>
      ∀ phnum ∈ readMember pageWalk hdr ePhnum vm, i < phnum →
        ∀ phsize ∈ readMember pageWalk hdr ePhsize vm,
          ∀ type ∈ readMember pageWalk (phdr + i * phsize) pType vm,
            if type ≠ ptLoad then HeadersSpare hdr file phdr is vm
            else SegmentSpares pages (phdr + i * phsize) file vm ∧
              ∀ vm' ∈ loadSegment pageWalk (phdr + i * phsize) file vm,
                HeadersSpare hdr file phdr is vm'

instance HeadersSpare.decidable (hdr file phdr : Nat) :
    (is : List Nat) → (vm : Vm) → Decidable (HeadersSpare pages hdr file phdr is vm)
  | [], _ => .isTrue trivial
  | i :: is, vm =>
      have := HeadersSpare.decidable hdr file phdr is
      inferInstanceAs (Decidable (∀ phnum ∈ readMember pageWalk hdr ePhnum vm, i < phnum →
        ∀ phsize ∈ readMember pageWalk hdr ePhsize vm,
          ∀ type ∈ readMember pageWalk (phdr + i * phsize) pType vm,
            if type ≠ ptLoad then HeadersSpare pages hdr file phdr is vm
            else SegmentSpares pages (phdr + i * phsize) file vm ∧
              ∀ vm' ∈ loadSegment pageWalk (phdr + i * phsize) file vm,
                HeadersSpare pages hdr file phdr is vm'))

/-- `elf_load_file` spares the pages, if it gets as far as to load anything. -/
def FileSpares (file : Nat) (vm : Vm) : Prop :=
  match checkElfSupported pageWalk file vm with
  | some (.ok ()) =>
      ∀ type ∈ readMember pageWalk file eType vm, type = etExec →
        ∀ phoff ∈ readMember pageWalk file ePhoff vm,
          HeadersSpare pages file file (file + phoff) (List.range (2 ^ 16)) vm
  | _ => True

instance (file : Nat) (vm : Vm) : Decidable (FileSpares pages file vm) := by
  unfold FileSpares
  split <;> infer_instance

/-- `sys_exec` spares the pages: the file does, and the page below
`USER_STACK_TOP` is none of them. -/
def ExecSpares (register file : Nat) (vm : Vm) : Prop :=
  FileSpares pages file vm ∧
    ∀ r ∈ elfLoadFile pageWalk register file vm, r.1 ≠ 0 → (allocate 4096 r.2.pmm).1 ≠ 0 →
      MapSpares pages (allocate 4096 r.2.pmm).1 (userStackTop - 4096) userFlags
        { r.2 with pmm := (allocate 4096 r.2.pmm).2 }

instance (register file : Nat) (vm : Vm) : Decidable (ExecSpares pages register file vm) :=
  inferInstanceAs (Decidable (_ ∧ ∀ r ∈ elfLoadFile pageWalk register file vm, _ → _ → _))

end Conditions

variable {pages : List Nat} {vm vm' : Vm}

/-! ## What is kept -/

/-- What is spared is seen unchanged. -/
theorem byteAt_kept (h : Kept pages vm vm') {v : Nat} (hv : v < 2 ^ 32)
    (hPage : pageOf v ∈ pages) (hOut : ¬InTable vm (frameOf (entryWord vm (pageOf v)))) :
    byteAt vm' v = byteAt vm v := by
  obtain ⟨hSame, hBytes⟩ := h.spared.unchanged v hv hPage
  rw [byteAt, byteAt, hSame]
  cases hWalk : pageWalk vm v with
  | none => rfl
  | some x =>
      have hFrame := (Holds.of_walk hv hPage hWalk).2
      have hByte : vm'.mem x = vm.mem x := hBytes x hWalk fun hIn => by
        obtain ⟨d, hd, hHas, hTable⟩ := hIn
        exact hOut ⟨d, hd, hHas, hTable.trans hFrame⟩
      rw [Option.map_some, Option.map_some, hByte]

theorem byteAt_kept_mem (h : Kept pages vm vm') {v : Nat} (hv : v < 2 ^ 32)
    (hPage : pageOf v ∈ pages) (hOut : ¬InTable vm (frameOf (entryWord vm (pageOf v))))
    {b : UInt8} (hb : b ∈ byteAt vm v) : b ∈ byteAt vm' v := by
  rwa [byteAt_kept h hv hPage hOut]

/-! ## Bytes -/

/-- **A loop of writes** that spares the pages. -/
theorem write_spares {dest n : Nat} {byte : Mem → Nat → Option UInt8} {m : Mem} (h : Identity vm)
    (hOk : WriteSpares pages dest n vm)
    (hRun : put (through pageWalk vm) dest n byte vm.mem = some m) :
    Kept pages vm { vm with mem := m } := by
  -- where the loop writes, as long as the translation stays
  let S : Nat → Prop := fun x => ∃ k < n, pageWalk vm ((dest + k) % 2 ^ 32) = some x
  have hTables : ∀ m' : Mem, (∀ x, ¬S x → m' x = vm.mem x) → ∀ x, InTable vm x →
      m' x = vm.mem x := fun m' hAgree x hx => hAgree x fun hWritten => by
    obtain ⟨k, hk, hWalk⟩ := hWritten
    exact (hOk k hk x hWalk).2 hx
  have hStable : ∀ m' : Mem, (∀ x, ¬S x → m' x = vm.mem x) →
      through pageWalk vm m' = through pageWalk vm vm.mem := by
    intro m' hAgree
    funext a
    have hRange : a % 2 ^ 32 < 2 ^ 32 := Nat.mod_lt _ (Nat.two_pow_pos 32)
    exact pageWalk_congr (entryWord_mem (hTables m' hAgree) (page_lt hRange).2)
  have hFrame : ∀ x, ¬S x → m x = vm.mem x :=
    put_frame hStable (fun k hk x hx => ⟨k, hk, hx⟩) hRun
  have hWords : ∀ p, p < 2 ^ 20 → entryWord { vm with mem := m } p = entryWord vm p :=
    fun p hp => entryWord_mem (hTables m hFrame) hp
  refine ⟨?_, fun hBounded => hBounded.same ⟨rfl, rfl, rfl⟩⟩
  exact
    { identity := h.congr (fun d => sameTable_of_eq rfl) fun d _ _ =>
        hWords _ (page_lt (tableOf_lt vm d)).2
      words := fun p _ hRange => hWords p hRange
      tables := fun x _ hx => hx
      bytes := fun x hx _ => hFrame x fun hWritten => by
        obtain ⟨k, hk, hWalk⟩ := hWritten
        exact (hOk k hk x hWalk).1 hx }

theorem memcpy_spares {dest src n : Nat} (h : Identity vm) (hOk : WriteSpares pages dest n vm)
    (hRun : memcpy pageWalk dest src n vm = some vm') : Kept pages vm vm' := by
  obtain ⟨m, hPut, rfl⟩ := Option.map_eq_some_iff.mp hRun
  exact write_spares h hOk hPut

theorem memset_spares {dest value n : Nat} (h : Identity vm) (hOk : WriteSpares pages dest n vm)
    (hRun : memset pageWalk dest value n vm = some vm') : Kept pages vm vm' := by
  obtain ⟨m, hPut, rfl⟩ := Option.map_eq_some_iff.mp hRun
  exact write_spares h hOk hPut

/-! ## The loader -/

/-- The mapping loop of `load_segment`. -/
theorem mapPages_spares {vs : List Nat} {done : Bool} (hRange : ∀ v ∈ vs, v < 2 ^ 32)
    (h : Identity vm) (hOk : PagesSpare pages vs vm)
    (hRun : mapPages pageWalk vs vm = some (done, vm')) : Kept pages vm vm' := by
  induction vs generalizing vm with
  | nil =>
      cases hRun
      exact Kept.refl h
  | cons v vs ih =>
      have hTaken := @Kept.taken _ pages h (allocate 4096 vm.pmm).2
      simp only [mapPages] at hRun
      split at hRun
      · cases hRun
        exact hTaken
      · next hSome =>
          obtain ⟨vm₁, hMap, hRest⟩ := Option.bind_eq_some_iff.mp hRun
          obtain ⟨hTurn, hTurns⟩ := hOk hSome
          have hFirst := mapPage_spares hTaken.identity (hRange v List.mem_cons_self)
            (by decide) hTurn hMap
          have hLater := ih (fun w hw => hRange w (List.mem_cons_of_mem _ hw)) hFirst.identity
            (hTurns vm₁ hMap) hRest
          exact hTaken.trans (hFirst.trans hLater)

theorem copySegment_spares {ph file : Nat} (h : Identity vm) (hOk : CopySpares pages ph file vm)
    (hRun : copySegment pageWalk ph file vm = some vm') : Kept pages vm vm' := by
  simp only [copySegment, Option.bind_eq_bind, Option.bind_eq_some_iff] at hRun
  obtain ⟨offset, hOffset, vaddr, hVaddr, filesz, hFilesz, vm₁, hCopy, memsz, hMemsz, filesz₁,
    hFilesz₁, hRest⟩ := hRun
  obtain ⟨hWrite, hZeros⟩ := hOk offset hOffset vaddr hVaddr filesz hFilesz
  have hCopied := memcpy_spares h hWrite hCopy
  split at hRest
  · next hShort =>
      obtain ⟨vaddr₁, hVaddr₁, hFill⟩ := Option.bind_eq_some_iff.mp hRest
      have hOkFill := hZeros vm₁ hCopy memsz hMemsz filesz₁ hFilesz₁ hShort vaddr₁ hVaddr₁
      exact hCopied.trans (memset_spares hCopied.identity hOkFill hFill)
  · cases hRest
    exact hCopied

/-- **One segment.** -/
theorem loadSegment_spares {ph file : Nat} (h : Identity vm) (hOk : SegmentSpares pages ph file vm)
    (hRun : loadSegment pageWalk ph file vm = some vm') : Kept pages vm vm' := by
  simp only [loadSegment, Option.bind_eq_bind, Option.bind_eq_some_iff] at hRun
  obtain ⟨vaddr, hVaddr, memsz, hMemsz, ⟨done, vm₁⟩, hPages, hRest⟩ := hRun
  obtain ⟨hMap, hCopy⟩ := hOk vaddr hVaddr memsz hMemsz
  have hMapped := mapPages_spares (fun v => ElfLoading.segmentPages_lt) h hMap hPages
  cases done with
  | true => exact hMapped.trans (copySegment_spares hMapped.identity (hCopy _ hPages rfl) hRest)
  | false =>
      cases hRest
      exact hMapped

/-- The loop over the program headers. -/
theorem loadSegments_spares {hdr file phdr : Nat} {is : List Nat} (h : Identity vm)
    (hOk : HeadersSpare pages hdr file phdr is vm)
    (hRun : loadSegments pageWalk hdr file phdr is vm = some vm') : Kept pages vm vm' := by
  induction is generalizing vm with
  | nil =>
      cases hRun
      exact Kept.refl h
  | cons i is ih =>
      simp only [loadSegments, Option.bind_eq_bind] at hRun
      obtain ⟨phnum, hPhnum, hRun⟩ := Option.bind_eq_some_iff.mp hRun
      split at hRun
      · next hi =>
          obtain ⟨phsize, hPhsize, hRun⟩ := Option.bind_eq_some_iff.mp hRun
          obtain ⟨type, hType, hRun⟩ := Option.bind_eq_some_iff.mp hRun
          have hOkHere := hOk phnum hPhnum hi phsize hPhsize type hType
          split at hRun
          · next hSkip =>
              rw [if_pos hSkip] at hOkHere
              exact ih h hOkHere hRun
          · next hLoad =>
              rw [if_neg hLoad] at hOkHere
              obtain ⟨vm₁, hSegment, hRest⟩ := Option.bind_eq_some_iff.mp hRun
              have hLoaded := loadSegment_spares h hOkHere.1 hSegment
              exact hLoaded.trans (ih hLoaded.identity (hOkHere.2 vm₁ hSegment) hRest)
      · cases hRun
        exact Kept.refl h

/-- **`elf_load_file`.** -/
theorem elfLoadFile_spares {register file entry : Nat} (h : Identity vm)
    (hOk : FileSpares pages file vm)
    (hRun : elfLoadFile pageWalk register file vm = some (entry, vm')) : Kept pages vm vm' := by
  obtain ⟨check, hCheck, hRun⟩ := Option.bind_eq_some_iff.mp hRun
  cases check with
  | error message =>
      cases hRun
      exact Kept.refl h
  | ok accepted =>
      obtain ⟨type, hType, hRun⟩ := Option.bind_eq_some_iff.mp hRun
      split at hRun
      · next hExec =>
          unfold FileSpares at hOk
          rw [hCheck] at hOk
          simp only [elfLoadExec, Option.bind_eq_bind, Option.bind_eq_some_iff] at hRun
          -- the indices are never looked at
          generalize List.range (2 ^ 16) = is at hOk hRun
          obtain ⟨phoff, hPhoff, vm₁, hLoop, entry₁, -, hEq⟩ := hRun
          cases hEq
          exact loadSegments_spares h (hOk type hType hExec phoff hPhoff) hLoop
      · split at hRun
        · cases hRun
          exact Kept.refl h
        · cases hRun
          exact Kept.refl h

/-- **`sys_exec`.** -/
theorem sysExec_spares {register file result : Nat} {regs regs' : Registers} (h : Identity vm)
    (hOk : ExecSpares pages register file vm)
    (hRun : sysExec pageWalk register file regs vm = some (result, regs', vm')) :
    Kept pages vm vm' := by
  obtain ⟨⟨entry, vm₁⟩, hFile, hRun⟩ := Option.bind_eq_some_iff.mp hRun
  have hLoaded := elfLoadFile_spares h hOk.1 hFile
  split at hRun
  · cases hRun
    exact hLoaded
  · next hEntry =>
      have hTaken := @Kept.taken _ pages hLoaded.identity (allocate 4096 vm₁.pmm).2
      simp only at hRun
      split at hRun
      · cases hRun
        exact hLoaded.trans hTaken
      · next hSome =>
          obtain ⟨vm₂, hMap, hEq⟩ := Option.map_eq_some_iff.mp hRun
          cases hEq
          have hStack := mapPage_spares hTaken.identity (by decide) (by decide)
            (hOk.2 _ hFile hEntry hSome) hMap
          exact hLoaded.trans (hTaken.trans hStack)

/-- `sys_exec` of a file that has been loaded, with a frame for its stack. -/
theorem sysExec_some {register file entry : Nat} (regs : Registers) {vm₁ : Vm}
    (hFile : elfLoadFile pageWalk register file vm = some (entry, vm₁)) (hEntry : entry ≠ 0)
    (h : Identity vm₁) (hSome : (allocate 4096 vm₁.pmm).1 ≠ 0)
    (hOk : MapSpares pages (allocate 4096 vm₁.pmm).1 (userStackTop - 4096) userFlags
      { vm₁ with pmm := (allocate 4096 vm₁.pmm).2 }) :
    ∃ vm', sysExec pageWalk register file regs vm =
        some (0, { regs with eip := entry, ebp := 0, userEsp := userStackTop }, vm') ∧
      Kept pages vm₁ vm' := by
  have hTaken := @Kept.taken _ pages h (allocate 4096 vm₁.pmm).2
  obtain ⟨vm', hMap⟩ := mapPage_total hTaken.identity
    (show userStackTop - 4096 < 2 ^ 32 by decide) (show userFlags < 2 ^ 32 by decide) hOk.1
  have hStack := mapPage_spares hTaken.identity (by decide) (by decide) hOk hMap
  refine ⟨vm', ?_, hTaken.trans hStack⟩
  unfold sysExec
  rw [hFile, Option.bind_some, if_neg hEntry]
  simp only
  rw [if_neg hSome, show pagePresent ||| pageWrite ||| pageUser = userFlags from rfl, hMap]
  rfl

/-! ## The pages of the kernel -/

/-- The frame of a system call from user mode. -/
def callerFrame : Registers where
  gs := 0x23
  fs := 0x23
  es := 0x23
  ds := 0x23
  edi := 0
  esi := 0
  ebp := 0xBFFFEFF8
  esp := 0
  ebx := 0x24000
  edx := 0
  ecx := 0
  eax := 9
  eip := 0x08048010
  cs := 0x1B
  eflags := 0x202
  userEsp := 0xBFFFEFF0
  userSs := 0x23

/-- A file whose only segment is at the start of the kernel image. -/
def overKernel : List UInt8 := fileBytes etExec 0x10000 [⟨84, 0x10000, 1, 1⟩] [0xAA]

end MiniKernel.Ports.ElfFrame
