import MiniKernel.Ports.ElfDraws

/-!
# When `sys_exec` fails

`sys_exec` loads the file over the caller's pages, writes `eip` and `ebp` of the trap
frame, and only then asks for a frame for the stack.  If there is none it answers `-1`,
and the caller goes on at the entry of a file that may not be loaded, without its stack
frame and with what the load has left of its image.

`failed_exec_resumes` says when a caller that is answered `-1` goes on where it was.  A
file that is loaded over the pages the kernel works in is left out: then it is not the
caller alone that does not go on.
-/

namespace MiniKernel.Ports.ExecFailure

open MiniKernel.Verified.PageWords
open MiniKernel.Ports.Pmm
open MiniKernel.Ports.Paging
open MiniKernel.Ports.PagingTables
open MiniKernel.Ports.PagingSparing (InPlace workPages ownPages_subset_work boot_inPlace)
open MiniKernel.Ports.PagingKept
open MiniKernel.Ports.PagingIdentity
open MiniKernel.Ports.PagingDraws
open MiniKernel.Ports.Elf
open MiniKernel.Ports.ElfLoading
open MiniKernel.Ports.ElfFrame
open MiniKernel.Ports.ElfDraws
open MiniKernel.Ports.ElfSegments (bootWith fileBytes onePage)
open MiniKernel.Ports.ProcessTable (Registers minusOne)

variable {layout : Layout} {pages : List Nat} {register file entry : Nat} {regs : Registers} {vm vm₁ : Vm}
  {r : Nat × Registers × Vm}

/-! ## What the caller sees -/

/-- The pages hold the bytes they held. -/
def SameBytes (pages : List Nat) (vm vm' : Vm) : Prop :=
  ∀ v < 2 ^ 32, pageOf v ∈ pages → byteAt vm' v = byteAt vm v

/-- If `sys_exec` answers `-1`, the caller's frame is what it was, apart from `eax`,
and so are the bytes of its pages. -/
def Resumes (pages : List Nat) (regs : Registers) (vm : Vm) (r : Nat × Registers × Vm) : Prop :=
  r.1 = minusOne → { r.2.1 with eax := regs.eax } = regs ∧ SameBytes pages vm r.2.2

/-- The frame is as if the program had just been entered. -/
def AtEntry (entry : Nat) (regs : Registers) : Prop := regs.eip = entry ∧ regs.ebp = 0

instance (entry : Nat) (regs : Registers) : Decidable (AtEntry entry regs) :=
  inferInstanceAs (Decidable (_ ∧ _))

theorem frame_eq_iff : { regs with eip := entry, ebp := 0, eax := regs.eax } = regs ↔
    AtEntry entry regs := by
  cases regs
  simp only [Registers.mk.injEq, AtEntry, true_and, and_true]
  constructor
  · rintro ⟨hEbp, hEip⟩
    exact ⟨hEip.symm, hEbp.symm⟩
  · rintro ⟨hEip, hEbp⟩
    exact ⟨hEbp.symm, hEip.symm⟩

/-- **After the load** the caller goes on where it was if the call succeeds, or if the
frame is not changed by what the failing call writes and the load has kept the bytes. -/
theorem resumes_iff (hFile : elfLoadFile pageWalk register file vm = some (entry, vm₁))
    (hRun : sysExec pageWalk register file regs vm = some r) :
    Resumes pages regs vm r ↔ entry ≠ 0 ∧ (allocate 4096 vm₁.pmm).1 ≠ 0 ∨
      (entry = 0 ∨ AtEntry entry regs) ∧ SameBytes pages vm vm₁ := by
  unfold sysExec at hRun
  rw [hFile, Option.bind_some] at hRun
  split at hRun
  · next hEntry =>
      have hZero : entry = 0 := hEntry
      cases hRun
      refine ⟨fun h => Or.inr ⟨Or.inl hZero, (h rfl).2⟩, fun h _ => ⟨rfl, ?_⟩⟩
      exact (h.resolve_left fun hGood => hGood.1 hZero).2
  · next hEntry =>
      have hNonzero : entry ≠ 0 := hEntry
      simp only at hRun
      split at hRun
      · next hFull =>
          cases hRun
          have hSame : SameBytes pages vm { vm₁ with pmm := (allocate 4096 vm₁.pmm).2 } ↔
              SameBytes pages vm vm₁ := Iff.rfl
          refine ⟨fun h => ?_, fun h _ => ?_⟩
          · obtain ⟨hFrame, hBytes⟩ := h rfl
            exact Or.inr ⟨Or.inr (frame_eq_iff.mp hFrame), hSame.mp hBytes⟩
          · obtain ⟨hAt, hBytes⟩ := h.resolve_left fun hGood => hGood.2 hFull
            exact ⟨frame_eq_iff.mpr (hAt.resolve_left hNonzero), hSame.mpr hBytes⟩
      · next hSome =>
          obtain ⟨vm₂, -, rfl⟩ := Option.map_eq_some_iff.mp hRun
          have hDone : 0 ≠ minusOne := by decide
          exact iff_of_true (fun hFailed => absurd hFailed hDone) (Or.inl ⟨hNonzero, hSome⟩)

/-! ## The condition -/

/-- `check_elf_supported` accepts the file. -/
def Accepted (file : Nat) (vm : Vm) : Prop :=
  checkElfSupported pageWalk file vm = some (.ok ())

instance (file : Nat) (vm : Vm) : Decidable (Accepted file vm) := by
  unfold Accepted
  infer_instance

/-- An executable that the load can follow: it keeps its own headers, and off the pages
the kernel works in. -/
def Followed (layout : Layout) (file : Nat) (vm : Vm) : Prop :=
  HeadersKept file vm ∧ FileSpares (workPages layout vm) file vm

/-- Such an executable is harmless if it has an entry and there is memory for all of it
and for its stack, or if neither the frame nor the pages of the caller can change. -/
def ExecHarmless (layout : Layout) (pages : List Nat) (file : Nat) (regs : Registers) (vm : Vm) :
    Prop :=
  Followed layout file vm ∧
    (member (view vm) file eEntry ≠ 0 ∧ Serves (fileRequests file vm + 1) vm.pmm ∨
      (member (view vm) file eEntry = 0 ∨ AtEntry (member (view vm) file eEntry) regs) ∧
        FileSpares pages file vm)

/-- A relocatable file is not loaded: what is in the register counts as its entry. -/
def RelHarmless (register : Nat) (regs : Registers) (vm : Vm) : Prop :=
  register = 0 ∨ Serves 1 vm.pmm ∨ AtEntry register regs

/-- The file is refused, or harmless as what it is. -/
def Harmless (layout : Layout) (pages : List Nat) (register file : Nat) (regs : Registers)
    (vm : Vm) : Prop :=
  Accepted file vm → ∀ type ∈ readMember pageWalk file eType vm,
    (type = etExec → ExecHarmless layout pages file regs vm) ∧
      (type = etRel → RelHarmless register regs vm)

/-- An executable can be followed, and it has an entry which the caller is not at, or it
keeps the caller's pages. -/
def Ordinary (layout : Layout) (pages : List Nat) (file : Nat) (regs : Registers) (vm : Vm) :
    Prop :=
  Accepted file vm → ∀ type ∈ readMember pageWalk file eType vm, type = etExec →
    Followed layout file vm ∧
      (member (view vm) file eEntry ≠ 0 ∧ ¬AtEntry (member (view vm) file eEntry) regs ∨
        FileSpares pages file vm)

instance (layout : Layout) (file : Nat) (vm : Vm) : Decidable (Followed layout file vm) :=
  inferInstanceAs (Decidable (_ ∧ _))

instance (layout : Layout) (pages : List Nat) (file : Nat) (regs : Registers) (vm : Vm) :
    Decidable (ExecHarmless layout pages file regs vm) :=
  inferInstanceAs (Decidable (_ ∧ _))

instance (register : Nat) (regs : Registers) (vm : Vm) : Decidable (RelHarmless register regs vm) :=
  inferInstanceAs (Decidable (_ ∨ _))

instance (layout : Layout) (pages : List Nat) (register file : Nat) (regs : Registers) (vm : Vm) :
    Decidable (Harmless layout pages register file regs vm) := by
  unfold Harmless
  infer_instance

instance (layout : Layout) (pages : List Nat) (file : Nat) (regs : Registers) (vm : Vm) :
    Decidable (Ordinary layout pages file regs vm) := by
  unfold Ordinary
  infer_instance

/-! ## The three kinds of files -/

/-- A file that is refused is not loaded. -/
theorem elfLoadFile_refused (hRefused : ¬Accepted file vm)
    (hFile : elfLoadFile pageWalk register file vm = some (entry, vm₁)) : entry = 0 ∧ vm₁ = vm := by
  obtain ⟨check, hCheck, hRest⟩ := Option.bind_eq_some_iff.mp hFile
  cases check with
  | error message =>
      cases hRest
      exact ⟨rfl, rfl⟩
  | ok accepted => exact absurd hCheck hRefused

/-- Only an executable changes anything while it is loaded. -/
theorem elfLoadFile_kind (hAccepted : Accepted file vm)
    (hFile : elfLoadFile pageWalk register file vm = some (entry, vm₁)) :
    ∃ type, readMember pageWalk file eType vm = some type ∧
      (type ≠ etExec → vm₁ = vm ∧ entry = if type = etRel then register else 0) := by
  unfold elfLoadFile at hFile
  rw [hAccepted, Option.bind_some] at hFile
  simp only at hFile
  obtain ⟨type, hType, hRest⟩ := Option.bind_eq_some_iff.mp hFile
  refine ⟨type, hType, fun hOther => ?_⟩
  rw [if_neg hOther] at hRest
  split at hRest
  · next hRel =>
      cases hRest
      exact ⟨rfl, (if_pos hRel).symm⟩
  · next hNone =>
      cases hRest
      exact ⟨rfl, (if_neg hNone).symm⟩

/-- **A relocatable file** is harmless exactly if its caller resumes. -/
theorem rel_resumes_iff (hFile : elfLoadFile pageWalk register file vm = some (register, vm))
    (hRun : sysExec pageWalk register file regs vm = some r) :
    Resumes pages regs vm r ↔ RelHarmless register regs vm := by
  have hSame : SameBytes pages vm vm := fun _ _ _ => rfl
  rw [resumes_iff hFile hRun, RelHarmless, serves_one, and_iff_left hSame]
  by_cases hZero : register = 0
  · exact iff_of_true (Or.inr (Or.inl hZero)) (Or.inl hZero)
  · rw [and_iff_right hZero, or_iff_right hZero, or_iff_right hZero]

section Exec

variable {boot : List MemoryMap}

/-- **A harmless executable** leaves its caller alone. -/
theorem exec_resumes (hIdentity : Identity vm) (hOffering : Offering boot vm.pmm.entries)
    (hPages : ∀ p ∈ pages, ¬InTable vm (frameOf (entryWord vm p))) (hAccepted : Accepted file vm)
    (hExec : readMember pageWalk file eType vm = some etExec)
    (hFile : elfLoadFile pageWalk register file vm = some (entry, vm₁))
    (hRun : sysExec pageWalk register file regs vm = some r)
    (hHarmless : ExecHarmless layout pages file regs vm) : Resumes pages regs vm r := by
  obtain ⟨⟨hHeaders, -⟩, hCases⟩ := hHarmless
  obtain ⟨rfl, hDraws⟩ :=
    elfLoadFile_draws hIdentity hOffering hHeaders hAccepted hExec hFile
  rw [resumes_iff hFile hRun]
  rcases hCases with ⟨hEntry, hServes⟩ | ⟨hFrame, hSpares⟩
  · exact Or.inl ⟨hEntry, hDraws.answers.mpr hServes⟩
  · have hKept := elfLoadFile_spares hIdentity hSpares hFile
    exact Or.inr ⟨hFrame, fun v hv hPage => byteAt_kept hKept hv hPage (hPages _ hPage)⟩

/-- **An ordinary executable** leaves its caller alone only if it is harmless. -/
theorem exec_harmless (hIdentity : Identity vm) (hOffering : Offering boot vm.pmm.entries)
    (hAccepted : Accepted file vm) (hExec : readMember pageWalk file eType vm = some etExec)
    (hFile : elfLoadFile pageWalk register file vm = some (entry, vm₁))
    (hRun : sysExec pageWalk register file regs vm = some r)
    (hOrdinary : Ordinary layout pages file regs vm) (hResumes : Resumes pages regs vm r) :
    ExecHarmless layout pages file regs vm := by
  obtain ⟨hFollowed, hCases⟩ := hOrdinary hAccepted etExec hExec rfl
  obtain ⟨rfl, hDraws⟩ :=
    elfLoadFile_draws hIdentity hOffering hFollowed.1 hAccepted hExec hFile
  refine ⟨hFollowed, ?_⟩
  rcases (resumes_iff hFile hRun).mp hResumes with ⟨hEntry, hSome⟩ | ⟨hFrame, -⟩
  · exact Or.inl ⟨hEntry, hDraws.answers.mp hSome⟩
  · rcases hCases with ⟨hEntry, hNotAt⟩ | hSpares
    · exact absurd hFrame (not_or.mpr ⟨hEntry, hNotAt⟩)
    · exact Or.inr ⟨hFrame, hSpares⟩

/-- The load of a harmless file spares the pages the kernel works in. -/
theorem load_spared (hIdentity : Identity vm)
    (hFile : elfLoadFile pageWalk register file vm = some (entry, vm₁))
    (hHarmless : Harmless layout pages register file regs vm) :
    Spared (workPages layout vm) vm vm₁ := by
  have hRefl : Spared (workPages layout vm) vm vm := Spared.update hIdentity rfl rfl
  by_cases hAccepted : Accepted file vm
  · obtain ⟨type, hType, hKind⟩ := elfLoadFile_kind hAccepted hFile
    by_cases hExec : type = etExec
    · obtain ⟨⟨-, hSpares⟩, -⟩ := (hHarmless hAccepted _ hType).1 hExec
      exact (elfLoadFile_spares hIdentity hSpares hFile).spared
    · obtain ⟨rfl, -⟩ := hKind hExec
      exact hRefl
  · obtain ⟨-, rfl⟩ := elfLoadFile_refused hAccepted hFile
    exact hRefl

/-- A call that fails leaves memory and the tables as the load has left them. -/
theorem sysExec_failed (hFile : elfLoadFile pageWalk register file vm = some (entry, vm₁))
    (hRun : sysExec pageWalk register file regs vm = some r) (hFailed : r.1 = minusOne) :
    r.2.2.mem = vm₁.mem ∧ r.2.2.pageDirectory = vm₁.pageDirectory := by
  unfold sysExec at hRun
  rw [hFile, Option.bind_some] at hRun
  split at hRun
  · cases hRun
    exact ⟨rfl, rfl⟩
  · simp only at hRun
    split at hRun
    · cases hRun
      exact ⟨rfl, rfl⟩
    · obtain ⟨vm₂, -, rfl⟩ := Option.map_eq_some_iff.mp hRun
      have hDone : 0 ≠ minusOne := by decide
      exact absurd hFailed hDone

/-- The pages the kernel works in are as they were when the call fails. -/
def KernelKept (layout : Layout) (vm : Vm) (r : Nat × Registers × Vm) : Prop :=
  r.1 = minusOne → Unchanged (workPages layout vm) vm r.2.2 ∧ InPlace layout r.2.2

/-- One frame from 1 MiB on. -/
def oneFrame : Table := Table.ofList [{ base := 0x100000, length := 0x1000, type := 1, acpi := 1 }]

theorem oneFrame_offering : Offering oneFrame.entries oneFrame.entries where
  intact := PmmCoverage.Intact.start (by decide) (by decide) (by decide) (by decide)
  low x hx := by
    obtain ⟨e, he, -, -, hHigh⟩ := hx
    have hEnd : ∀ e ∈ oneFrame.entries, e.base + e.length < 2 ^ 32 := by decide
    exact Nat.lt_trans hHigh (hEnd e he)

/-- A file with a segment and no entry. -/
def noEntry : List UInt8 := fileBytes etExec 0 [⟨84, 0x300000, 1, 1⟩] [0xAA]

end Exec

/-- Two frames from 1 MiB on. -/
def twoFrames : Table := Table.ofList [{ base := 0x100000, length := 0x2000, type := 1, acpi := 1 }]

/-- Two programs for the same address, the second at `0x24055`. -/
def twoPrograms : List UInt8 :=
  onePage etExec ++ fileBytes etExec 0x300000 [⟨84, 0x300000, 1, 1⟩] [0xBB]

end MiniKernel.Ports.ExecFailure
