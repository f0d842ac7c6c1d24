import MiniKernel.Ports.Paging
import MiniKernel.Verified.VirtualMemory

/-!
# The ELF loader

`elf.c`, with `memcpy` and `memset` of `pmm.c`.  The loader runs with paging
on: the headers of the file are read, byte by byte, through the translation
`ptr` of the moment, also after pages have been mapped, and `none` is a page
fault.  A check that fails prints its text and returns `0`; here it returns
the text.
-/

namespace MiniKernel.Ports.Elf

open MiniKernel.Verified.ByteMemory
open MiniKernel.Verified.VirtualMemory
open MiniKernel.Ports.Pmm
open MiniKernel.Ports.Paging

def elfclass32 : Nat := 1
def em386 : Nat := 3
def evCurrent : Nat := 1
def etRel : Nat := 1
def etExec : Nat := 2
def ptLoad : Nat := 1

/-- A member of a C structure: where it is and how many bytes it has. -/
structure Field where
  offset : Nat
  size : Nat

/-! `Elf32_Ehdr` -/

def eIdent (k : Nat) : Field := ⟨k, 1⟩
def eType : Field := ⟨16, 2⟩
def eMachine : Field := ⟨18, 2⟩
def eEntry : Field := ⟨24, 4⟩
def ePhoff : Field := ⟨28, 4⟩
def ePhsize : Field := ⟨42, 2⟩
def ePhnum : Field := ⟨44, 2⟩

/-! `Elf32_Phdr` -/

def pType : Field := ⟨0, 4⟩
def pOffset : Field := ⟨4, 4⟩
def pVaddr : Field := ⟨8, 4⟩
def pFilesz : Field := ⟨16, 4⟩
def pMemsz : Field := ⟨20, 4⟩

/-- The result of a check, with the text it prints when it fails. -/
abbrev Check := Except String Unit

/-- The first page of a segment. -/
def segmentStart (vaddr : Nat) : Nat := vaddr &&& 0xFFFFF000

/-- The end of the last page of a segment, computed in 32 bits. -/
def segmentEnd (vaddr memsz : Nat) : Nat := ((vaddr + memsz + 0xFFF) % 2 ^ 32) &&& 0xFFFFF000

/-- The addresses the mapping loop of `load_segment` visits. -/
def segmentPages (vaddr memsz : Nat) : List Nat :=
  (List.range ((segmentEnd vaddr memsz - segmentStart vaddr) / 4096)).map
    fun k => segmentStart vaddr + 4096 * k

section Pointers

variable (ptr : Vm → Nat → Option Nat)

/-- The translation while only memory changes; addresses wrap at 4 GiB. -/
def through (vm : Vm) (m : Mem) (a : Nat) : Option Nat := ptr { vm with mem := m } (a % 2 ^ 32)

/-- `base->field`. -/
def readMember (base : Nat) (field : Field) (vm : Vm) : Option Nat :=
  fetch (through ptr vm) vm.mem (base + field.offset) field.size

def memcpy (dest src n : Nat) (vm : Vm) : Option Vm :=
  (copy (through ptr vm) dest src n vm.mem).map fun m => { vm with mem := m }

def memset (dest value size : Nat) (vm : Vm) : Option Vm :=
  (fill (through ptr vm) dest size (UInt8.ofNat value) vm.mem).map fun m => { vm with mem := m }

/-- `if (hdr->field != value) { print; return 0; }`, then `next`. -/
def expect (hdr : Nat) (field : Field) (value : Nat) (message : String) (vm : Vm)
    (next : Option Check) : Option Check :=
  (readMember ptr hdr field vm).bind fun v => if v ≠ value then some (.error message) else next

/-- `check_elf_file`. -/
def checkElfFile (hdr : Nat) (vm : Vm) : Option Check :=
  if hdr = 0 then some (.error "")
  else
    expect ptr hdr (eIdent 0) 0x7F "index 0 error \n" vm <|
    expect ptr hdr (eIdent 1) 0x45 "index 1 error \n" vm <|
    expect ptr hdr (eIdent 2) 0x4C "index 2 error \n" vm <|
    expect ptr hdr (eIdent 3) 0x46 "index 3 error \n" vm <|
    some (.ok ())

/-- `check_elf_supported`. -/
def checkElfSupported (hdr : Nat) (vm : Vm) : Option Check :=
  (checkElfFile ptr hdr vm).bind fun
    | .error message => some (.error message)
    | .ok () =>
        expect ptr hdr (eIdent 4) elfclass32 "index 4 error \n" vm <|
        expect ptr hdr eMachine em386 "machine error \n" vm <|
        expect ptr hdr (eIdent 6) evCurrent "index 6 error \n" vm <|
        (readMember ptr hdr eType vm).bind fun type =>
          if type ≠ etRel ∧ type ≠ etExec then some (.error "not existing type \n")
          else some (.ok ())

/-- The mapping loop of `load_segment`; `false` when it returns early. -/
def mapPages : List Nat → Vm → Option (Bool × Vm)
  | [], vm => some (true, vm)
  | v :: vs, vm =>
      let r := allocate 4096 vm.pmm
      if r.1 = 0 then some (false, { vm with pmm := r.2 })
      else
        (mapPage ptr r.1 v (pagePresent ||| pageUser ||| pageWrite) { vm with pmm := r.2 }).bind
          fun vm => mapPages vs vm

/-- The rest of `load_segment`, once the pages are mapped. -/
def copySegment (ph file : Nat) (vm : Vm) : Option Vm := do
  let offset ← readMember ptr ph pOffset vm
  let vaddr ← readMember ptr ph pVaddr vm
  let filesz ← readMember ptr ph pFilesz vm
  let vm ← memcpy ptr vaddr (file + offset) filesz vm
  let memsz ← readMember ptr ph pMemsz vm
  let filesz ← readMember ptr ph pFilesz vm
  if filesz < memsz then
    let vaddr ← readMember ptr ph pVaddr vm
    memset ptr (vaddr + filesz) 0 (memsz - filesz) vm
  else some vm

/-- `load_segment`. -/
def loadSegment (ph file : Nat) (vm : Vm) : Option Vm := do
  let vaddr ← readMember ptr ph pVaddr vm
  let memsz ← readMember ptr ph pMemsz vm
  let r ← mapPages ptr (segmentPages vaddr memsz) vm
  if r.1 then copySegment ptr ph file r.2 else some r.2

/-- The loop of `elf_load_exec` over the given values of its counter. -/
def loadSegments (hdr file phdr : Nat) : List Nat → Vm → Option Vm
  | [], vm => some vm
  | i :: is, vm => do
      let phnum ← readMember ptr hdr ePhnum vm
      if i < phnum then
        let phsize ← readMember ptr hdr ePhsize vm
        let type ← readMember ptr (phdr + i * phsize) pType vm
        if type ≠ ptLoad then loadSegments hdr file phdr is vm
        else
          let vm ← loadSegment ptr (phdr + i * phsize) file vm
          loadSegments hdr file phdr is vm
      else some vm

/-- `elf_load_exec`; the counter is 16 bits wide. -/
def elfLoadExec (hdr file : Nat) (vm : Vm) : Option (Nat × Vm) := do
  let phoff ← readMember ptr hdr ePhoff vm
  let vm ← loadSegments ptr hdr file (hdr + phoff) (List.range (2 ^ 16)) vm
  let entry ← readMember ptr hdr eEntry vm
  some (entry, vm)

/-- `elf_load_rel` has no `return`: its caller gets what is in the register. -/
def elfLoadRel (register : Nat) : Nat := register

/-- `elf_load_file`: the entry, `0` for `NULL`. -/
def elfLoadFile (register file : Nat) (vm : Vm) : Option (Nat × Vm) :=
  (checkElfSupported ptr file vm).bind fun
    | .error _ => some (0, vm)
    | .ok () =>
        (readMember ptr file eType vm).bind fun type =>
          if type = etExec then elfLoadExec ptr file file vm
          else if type = etRel then some (elfLoadRel register, vm)
          else some (0, vm)

end Pointers

/-! ## What a file asks for -/

/-- A `PT_LOAD` program header. -/
structure Segment where
  offset : Nat
  vaddr : Nat
  filesz : Nat
  memsz : Nat
  deriving Repr, DecidableEq

/-- A member of a structure that lies in memory at its own address. -/
def member (m : Mem) (base : Nat) (field : Field) : Nat :=
  load m (base + field.offset) field.size

/-- The address of a program header. -/
def headerAt (m : Mem) (file i : Nat) : Nat :=
  file + member m file ePhoff + i * member m file ePhsize

def segmentAt (m : Mem) (ph : Nat) : Segment where
  offset := member m ph pOffset
  vaddr := member m ph pVaddr
  filesz := member m ph pFilesz
  memsz := member m ph pMemsz

/-- The segments of the program headers with the given indices. -/
def segmentsOf (m : Mem) (file : Nat) (is : List Nat) : List Segment :=
  (is.filter fun i => member m (headerAt m file i) pType = ptLoad).map
    fun i => segmentAt m (headerAt m file i)

/-- The segments of a file. -/
def segments (m : Mem) (file : Nat) : List Segment :=
  segmentsOf m file (List.range (member m file ePhnum))

/-- The addresses of the pages a segment is loaded into. -/
def Segment.pages (s : Segment) : List Nat := segmentPages s.vaddr s.memsz

/-- The byte of a segment, in the file or after its part of the file. -/
def Segment.byte (m : Mem) (file : Nat) (s : Segment) (k : Nat) : UInt8 :=
  if k < s.filesz then m (file + s.offset + k) else 0

/-- The byte at a virtual address. -/
def byteAt (vm : Vm) (v : Nat) : Option UInt8 := (pageWalk vm v).map vm.mem

end MiniKernel.Ports.Elf
