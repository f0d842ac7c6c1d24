import MiniKernel.Ports.ElfLoading
import MiniKernel.Ports.PmmOwnership

/-!
# What the ELF loader leaves in memory

A segment whose pages are resident is copied byte by byte through the new
mapping (`copySegment_spec`); loading it keeps the bytes of all pages that were
resident before (`loadSegment_spec`); and so the loop over the program headers
leaves every byte of every segment where the file wants it.
-/

namespace MiniKernel.Ports.ElfSegments

open MiniKernel.Verified.ByteMemory
open MiniKernel.Verified.PageWords
open MiniKernel.Verified.VirtualMemory
open MiniKernel.Ports.Pmm
open MiniKernel.Ports.Paging
open MiniKernel.Ports.PagingTables
open MiniKernel.Ports.PagingSparing (InPlace workPages ownPages_subset_work boot_inPlace)
open MiniKernel.Ports.PagingKept
open MiniKernel.Ports.PagingIdentity
open MiniKernel.Ports.Elf
open MiniKernel.Ports.ElfLoading

variable {vm : Vm} {file size : Nat} {home : Nat → Nat} {resident : List (Nat × Nat)}
  {pages : List Nat}

/-! ## One segment -/

/-- **Copying a segment** whose pages are resident writes its bytes and nothing
else. -/
theorem copySegment_spec {vs : List Nat} (h : Loading vm file size home vs resident) {m : Mem}
    (hSame : SameFile m vm file size home) {ph : Nat} {s : Segment} (hs : segmentAt m ph = s)
    (hLow : file ≤ ph) (hHigh : ph + 32 ≤ file + size)
    (hContents : s.offset + s.filesz ≤ size) (hSizes : s.filesz ≤ s.memsz)
    (hResides : ∀ k < s.memsz, Resides resident (s.vaddr + k)) :
    ∃ m', copySegment pageWalk ph file vm = some { vm with mem := m' } ∧
      (∀ k < s.memsz, m' (place vm (s.vaddr + k)) = s.byte m file k) ∧
      ∀ x, (∀ k < s.memsz, place vm (s.vaddr + k) ≠ x) → m' x = vm.mem x := by
  have hOffset : member m ph pOffset = s.offset := by rw [← hs, segmentAt]
  have hVaddr : member m ph pVaddr = s.vaddr := by rw [← hs, segmentAt]
  have hFilesz : member m ph pFilesz = s.filesz := by rw [← hs, segmentAt]
  have hMemsz : member m ph pMemsz = s.memsz := by rw [← hs, segmentAt]
  -- the part from the file
  obtain ⟨m₁, hCopy, hData, hFrame⟩ := copy_spec h.backing s.vaddr (file + s.offset) s.filesz
    (fun k => m (file + s.offset + k)) (fun k hk => hResides k (by omega)) fun k hk => by
      refine ⟨home (s.offset + k), ?_, ?_, fun a ha hEq => ?_⟩
      · rw [Nat.add_assoc]
        exact h.through_file (by omega)
      · rw [hSame _ (by omega), Nat.add_assoc]
      · refine (h.place_clear ha).1 (s.offset + k) (by omega) ?_
        rw [hEq]
  have hAgree : AgreeOff (Resides resident) (place vm) vm.mem m₁ := fun x hx =>
    hFrame x fun k hk => hx _ (hResides k (by omega))
  have h₁ := h.write hAgree
  have hSame₁ : SameFile m { vm with mem := m₁ } file size home := fun k hk =>
    (h.file_write hAgree hk).trans (hSame k hk)
  have hMemcpy : memcpy pageWalk s.vaddr (file + s.offset) s.filesz vm =
      some { vm with mem := m₁ } := by
    rw [memcpy, hCopy]
    rfl
  unfold copySegment
  simp only [h.read_eq hSame pOffset hLow (by simp only [pOffset]; omega),
    h.read_eq hSame pVaddr hLow (by simp only [pVaddr]; omega),
    h.read_eq hSame pFilesz hLow (by simp only [pFilesz]; omega),
    h₁.read_eq hSame₁ pMemsz hLow (by simp only [pMemsz]; omega),
    h₁.read_eq hSame₁ pVaddr hLow (by simp only [pVaddr]; omega),
    h₁.read_eq hSame₁ pFilesz hLow (by simp only [pFilesz]; omega),
    hOffset, hVaddr, hFilesz, hMemsz, Option.bind_eq_bind, Option.bind_some, hMemcpy]
  by_cases hRest : s.filesz < s.memsz
  · -- the part after the file is zero
    rw [if_pos hRest]
    have hPlace : ∀ k < s.memsz, place { vm with mem := m₁ } (s.vaddr + k) =
        place vm (s.vaddr + k) := fun k hk => h.place_write hAgree (hResides k hk)
    obtain ⟨m₂, hFill, hZero, hFrame₂⟩ := fill_spec h₁.backing (s.vaddr + s.filesz)
      (s.memsz - s.filesz) (UInt8.ofNat 0) fun k hk => by
        rw [Nat.add_assoc]
        exact hResides _ (by omega)
    refine ⟨m₂, ?_, fun k hk => ?_, fun x hx => ?_⟩
    · rw [memset, hFill]
      rfl
    · by_cases hFile : k < s.filesz
      · rw [Segment.byte, if_pos hFile]
        refine (hFrame₂ _ fun j hj hEq => ?_).trans (hData k hFile)
        rw [Nat.add_assoc, hPlace _ (by omega)] at hEq
        have hInj := h.backing.inj _ _ (hResides _ (by omega)) (hResides k hk) hEq
        omega
      · have hByte := hZero (k - s.filesz) (by omega)
        rw [Nat.add_assoc, Nat.add_sub_cancel' (by omega), hPlace k hk] at hByte
        rw [hByte, Segment.byte, if_neg hFile]
        rfl
    · refine (hFrame₂ x fun j hj => ?_).trans (hFrame x fun k hk => hx k (by omega))
      rw [Nat.add_assoc, hPlace _ (by omega)]
      exact hx _ (by omega)
  · rw [if_neg hRest]
    have hEq : s.filesz = s.memsz := by omega
    refine ⟨m₁, rfl, fun k hk => ?_, fun x hx => hFrame x fun k hk => hx k (by omega)⟩
    rw [hData k (by omega), Segment.byte, if_pos (by omega)]

/-- **Loading a segment** puts its bytes where it wants them, keeps the bytes of all
pages that were resident before, and spares the pages it keeps off. -/
theorem loadSegment_spec {rest : List Nat} {m : Mem} {ph : Nat} {s : Segment}
    (h : Loading vm file size home (s.pages ++ rest) resident)
    (hAside : Aside pages vm (s.pages ++ rest) resident)
    (hSame : SameFile m vm file size home)
    (hs : segmentAt m ph = s) (hLow : file ≤ ph) (hHigh : ph + 32 ≤ file + size)
    (hContents : s.offset + s.filesz ≤ size) (hSizes : s.filesz ≤ s.memsz)
    (hNoWrap : 0 < s.memsz → s.vaddr + s.memsz + 0xFFF < 2 ^ 32) :
    ∃ vm' resident', loadSegment pageWalk ph file vm = some vm' ∧
      Loading vm' file size home rest resident' ∧ SameFile m vm' file size home ∧
      (∀ k < s.memsz, Resides resident' (s.vaddr + k) ∧
        byteAt vm' (s.vaddr + k) = some (s.byte m file k)) ∧
      (∀ a, Resides resident a → Resides resident' a ∧ byteAt vm' a = byteAt vm a) ∧
      Aside pages vm' rest resident' ∧ Spared pages vm vm' := by
  obtain ⟨vm₁, resident₁, hLoop, h₁, hGrown, hKeeps, hAll, hAside₁, hSpared₁⟩ :=
    mapPages_spec h hAside
  have hSame₁ : SameFile m vm₁ file size home := fun k hk =>
    (hGrown.bytes _ (h₁.fileClear k hk)).trans (hSame k hk)
  have hResides : ∀ k < s.memsz, Resides resident₁ (s.vaddr + k) := by
    intro k hk
    obtain ⟨v, hv, hPage⟩ := segmentPages_cover (hNoWrap (by omega)) hk
    obtain ⟨f, hf⟩ := hAll v hv
    exact ⟨_, hf, hPage.symm⟩
  obtain ⟨m', hCopy, hData, hFrame⟩ :=
    copySegment_spec h₁ hSame₁ hs hLow hHigh hContents hSizes hResides
  have hAgree : AgreeOff (Resides resident₁) (place vm₁) vm₁.mem m' := fun x hx =>
    hFrame x fun k hk => hx _ (hResides k hk)
  have h₂ := h₁.write hAgree
  obtain ⟨hAside₂, hSpared₂⟩ := hAside₁.write h₁ hAgree
  have hByte : ∀ a, Resides resident₁ a →
      byteAt { vm₁ with mem := m' } a = some (m' (place vm₁ a)) := by
    intro a ha
    rw [h₂.byteAt_eq ha, h₁.place_write hAgree ha]
  refine ⟨{ vm₁ with mem := m' }, resident₁, ?_, h₂, fun k hk => ?_, fun k hk => ?_,
    fun a ha => ?_, hAside₂, hSpared₁.trans hSpared₂⟩
  · have hVaddr : member m ph pVaddr = s.vaddr := by rw [← hs, segmentAt]
    have hMemsz : member m ph pMemsz = s.memsz := by rw [← hs, segmentAt]
    have hPages : mapPages pageWalk (segmentPages s.vaddr s.memsz) vm = some (true, vm₁) := hLoop
    unfold loadSegment
    simp only [h.read_eq hSame pVaddr hLow (by simp only [pVaddr]; omega),
      h.read_eq hSame pMemsz hLow (by simp only [pMemsz]; omega), hVaddr, hMemsz,
      Option.bind_eq_bind, Option.bind_some, hPages, if_true]
    exact hCopy
  · exact (h₁.file_write hAgree hk).trans (hSame₁ k hk)
  · refine ⟨hResides k hk, ?_⟩
    rw [hByte _ (hResides k hk), hData k hk]
  · obtain ⟨e, he, hPage⟩ := ha
    have ha₁ : Resides resident₁ a := ⟨e, hKeeps e he, hPage⟩
    have hRange := (h.words e he).1
    have hOther : pageOf a ∉ s.pages.map pageOf := by
      intro hIn
      rw [hPage] at hIn
      refine (List.nodup_append.mp h.pages).2.2 _ (List.mem_map_of_mem he) e.1 ?_ rfl
      rw [List.map_append]
      exact List.mem_append_left _ hIn
    have hPlace : place vm₁ a = place vm a := by
      rw [place, place, hGrown.words _ (hPage ▸ hRange) hOther]
    refine ⟨ha₁, ?_⟩
    rw [hByte a ha₁, h.byteAt_eq ⟨e, he, hPage⟩, hFrame _ fun k hk hEq => ?_,
      hGrown.bytes _ (h₁.place_clear ha₁).2, hPlace]
    have hSameAddr := h₁.backing.inj _ _ (hResides k hk) ha₁ hEq
    obtain ⟨v, hv, hCover⟩ := segmentPages_cover (hNoWrap (by omega)) hk
    refine hOther ?_
    rw [← hSameAddr, ← hCover]
    exact List.mem_map_of_mem hv

/-! ## The file -/

theorem segmentsOf_cons (m : Mem) (file i : Nat) (is : List Nat) :
    segmentsOf m file (i :: is) =
      if member m (headerAt m file i) pType = ptLoad then
        segmentAt m (headerAt m file i) :: segmentsOf m file is
      else segmentsOf m file is := by
  unfold segmentsOf
  rw [List.filter_cons]
  split
  · next hLoad => rw [if_pos (of_decide_eq_true hLoad), List.map_cons]
  · next hSkip => rw [if_neg fun hLoad => hSkip (decide_eq_true hLoad)]

theorem mem_segments {m : Mem} {i : Nat} (hi : i < member m file ePhnum)
    (hLoad : member m (headerAt m file i) pType = ptLoad) :
    segmentAt m (headerAt m file i) ∈ segments m file :=
  List.mem_map_of_mem (List.mem_filter.mpr ⟨List.mem_range.mpr hi, decide_eq_true hLoad⟩)

theorem phnum_lt (m : Mem) (file : Nat) : member m file ePhnum < 2 ^ 16 := load_lt m 2 _

/-- **The loop of `elf_load_exec`** from header `i` on loads the segments of the
remaining headers, keeps what is resident and spares the pages it keeps off. -/
theorem loadSegments_spec {m : Mem} (hWell : WellFormed m file size)
    (hNoWrap : ∀ s ∈ segments m file, 0 < s.memsz → s.vaddr + s.memsz + 0xFFF < 2 ^ 32)
    {n i : Nat} (hCount : i + n = 2 ^ 16)
    (h : Loading vm file size home ((segmentsOf m file
      (List.range' i (member m file ePhnum - i))).flatMap Segment.pages) resident)
    (hAside : Aside pages vm ((segmentsOf m file
      (List.range' i (member m file ePhnum - i))).flatMap Segment.pages) resident)
    (hSame : SameFile m vm file size home) :
    ∃ vm' resident', loadSegments pageWalk file file (file + member m file ePhoff)
        (List.range' i n) vm = some vm' ∧
      Loading vm' file size home [] resident' ∧ SameFile m vm' file size home ∧
      (∀ s ∈ segmentsOf m file (List.range' i (member m file ePhnum - i)), ∀ k < s.memsz,
        byteAt vm' (s.vaddr + k) = some (s.byte m file k)) ∧
      (∀ a, Resides resident a → byteAt vm' a = byteAt vm a) ∧ Spared pages vm vm' := by
  have hHeader := hWell.header
  have hSmall := phnum_lt m file
  induction n generalizing i vm resident with
  | zero =>
      rw [show member m file ePhnum - i = 0 by omega] at h ⊢
      exact ⟨vm, resident, rfl, h, hSame, by simp [segmentsOf], fun _ _ => rfl,
        Spared.update h.identity rfl rfl⟩
  | succ n ih =>
      simp only [List.range'_succ, loadSegments,
        h.read_eq hSame ePhnum (Nat.le_refl _) (by simp only [ePhnum]; omega),
        h.read_eq hSame ePhsize (Nat.le_refl _) (by simp only [ePhsize]; omega),
        Option.bind_eq_bind, Option.bind_some]
      by_cases hi : i < member m file ePhnum
      · have hHigh := hWell.programHeaders i hi
        have hBase : file + member m file ePhoff + i * member m file ePhsize =
            headerAt m file i := rfl
        have hLow : file ≤ headerAt m file i := by
          rw [← hBase]
          omega
        rw [if_pos hi, hBase, h.read_eq hSame pType hLow (by simp only [pType, ← hBase]; omega),
          Option.bind_some]
        rw [show member m file ePhnum - i = member m file ePhnum - (i + 1) + 1 by omega,
          List.range'_succ, segmentsOf_cons] at h hAside ⊢
        by_cases hLoad : member m (headerAt m file i) pType = ptLoad
        · have hIn := mem_segments hi hLoad
          rw [if_pos hLoad, List.flatMap_cons] at h hAside
          rw [if_neg (not_not.mpr hLoad), if_pos hLoad]
          obtain ⟨vm₁, resident₁, hSegment, h₁, hSame₁, hBytes, hKeeps, hAside₁, hSpared₁⟩ :=
            loadSegment_spec h hAside hSame rfl hLow (by rw [← hBase]; omega)
              (hWell.contents _ hIn) (hWell.sizes _ hIn) (hNoWrap _ hIn)
          obtain ⟨vm', resident', hLoop, h', hSame', hRest, hKeeps', hSpared'⟩ :=
            ih (by omega) h₁ hAside₁ hSame₁
          refine ⟨vm', resident', ?_, h', hSame', fun s hs k hk => ?_, fun a ha => ?_,
            hSpared₁.trans hSpared'⟩
          · rw [hSegment, Option.bind_some]
            exact hLoop
          · rcases List.mem_cons.mp hs with rfl | hs
            · rw [hKeeps' _ (hBytes k hk).1, (hBytes k hk).2]
            · exact hRest s hs k hk
          · obtain ⟨ha₁, hByte⟩ := hKeeps a ha
            rw [hKeeps' a ha₁, hByte]
        · rw [if_neg hLoad] at h hAside
          rw [if_pos hLoad, if_neg hLoad]
          exact ih (by omega) h hAside hSame
      · rw [if_neg hi, show member m file ePhnum - i = 0 by omega] at *
        exact ⟨vm, resident, rfl, h, hSame, by simp [segmentsOf], fun _ _ => rfl,
          Spared.update h.identity rfl rfl⟩

/-- **Every byte of every segment is loaded** when the file is well formed, the
checks accept it, and it is loadable apart from the pages the kernel works in:
`elf_load_file` returns the entry of an `ET_EXEC` file, the segments' addresses hold
the bytes of the file followed by zeros, and those pages are as they were. -/
theorem segments_loaded {layout : Layout} (register : Nat)
    (hWell : WellFormed (view vm) file size)
    (hSupported : checkElfSupported pageWalk file vm = some (.ok ()))
    (hLoadable : Loadable vm file size) (hPlace : InPlace layout vm)
    (hAside : Aside (workPages layout vm) vm (filePages (view vm) file) []) :
    ∃ vm', elfLoadFile pageWalk register file vm = some (member (view vm) file eEntry, vm') ∧
      member (view vm) file eType = etExec ∧
      (∀ s ∈ segments (view vm) file, ∀ k < s.memsz,
        byteAt vm' (s.vaddr + k) = some (if k < s.filesz then view vm (file + s.offset + k)
          else 0)) ∧
      Unchanged (workPages layout vm) vm vm' ∧ InPlace layout vm' := by
  have hHeader := hWell.header
  have h := hLoadable.loading
  have hSame : SameFile (view vm) vm file size fun k => place vm (file + k) := fun _ _ => rfl
  have hRange : List.range (member (view vm) file ePhnum) =
      List.range' 0 (member (view vm) file ePhnum - 0) := List.range_eq_range' ..
  obtain ⟨vm', resident, hLoop, h', hSame', hBytes, -, hSpared⟩ :=
    loadSegments_spec (i := 0) hWell hLoadable.noWrap (Nat.zero_add _)
      (by rw [← hRange]; exact h) (by rw [← hRange]; exact hAside) hSame
  refine ⟨vm', ?_, hLoadable.exec, fun s hs k hk => ?_, hSpared.unchanged,
    hSpared.inPlace (ownPages_subset_work layout vm) hPlace⟩
  · unfold elfLoadFile
    rw [hSupported, Option.bind_some]
    simp only
    rw [h.read_eq hSame eType (Nat.le_refl _) (by simp only [eType]; omega), Option.bind_some,
      if_pos hLoadable.exec]
    unfold elfLoadExec
    rw [List.range_eq_range']
    simp only [h.read_eq hSame ePhoff (Nat.le_refl _) (by simp only [ePhoff]; omega),
      h'.read_eq hSame' eEntry (Nat.le_refl _) (by simp only [eEntry]; omega),
      Option.bind_eq_bind, Option.bind_some, hLoop]
  · rw [segments, hRange] at hs
    exact hBytes s hs k hk

/-- The `n` little-endian bytes of a number. -/
def bytesOf (v : Nat) : Nat → List UInt8
  | 0 => []
  | n + 1 => UInt8.ofNat v :: bytesOf (v / 256) n

/-- An ELF file with its program headers behind the header. -/
def fileBytes (type entry : Nat) (ss : List Segment) (contents : List UInt8) : List UInt8 :=
  [0x7F, 0x45, 0x4C, 0x46, 1, 1, 1] ++ bytesOf 0 9 ++ bytesOf type 2 ++ bytesOf em386 2 ++
    bytesOf 1 4 ++ bytesOf entry 4 ++ bytesOf 52 4 ++ bytesOf 0 8 ++ bytesOf 52 2 ++
    bytesOf 32 2 ++ bytesOf ss.length 2 ++ bytesOf 0 6 ++
    ss.flatMap (fun s => bytesOf ptLoad 4 ++ bytesOf s.offset 4 ++ bytesOf s.vaddr 4 ++
      bytesOf s.vaddr 4 ++ bytesOf s.filesz 4 ++ bytesOf s.memsz 4 ++ bytesOf 7 4 ++
      bytesOf 4096 4) ++
    contents

/-- The kernel after boot, with a file embedded in the image at `0x24000`. -/
def bootWith (pmm : Table) (bytes : List UInt8) : Vm :=
  boot image pmm (fun x => if x < 0x24000 then 0 else bytes.getD (x - 0x24000) 0) fun _ => 0

/-- Two segments on pages of their own, the second with two bytes of zeros. -/
def twoPages : List UInt8 :=
  fileBytes etExec 0x300000 [⟨116, 0x300000, 2, 2⟩, ⟨118, 0x301800, 1, 3⟩] [0xAA, 0xBB, 0xCC]

theorem bootWith_walk (pmm : Table) (bytes : List UInt8) {k : Nat} (hk : k < 4096) :
    pageWalk (bootWith pmm bytes) (0x24000 + k) = some (0x24000 + k) ∧
      place (bootWith pmm bytes) (0x24000 + k) = 0x24000 + k := by
  obtain ⟨hPresent, hFrame⟩ := boot_identity image pmm
    (fun x => if x < 0x24000 then 0 else bytes.getD (x - 0x24000) 0) (fun _ => 0)
    (show 0x24 < 1024 by decide)
  refine ⟨pageWalk_page (t := 0x24000) hPresent (by decide) hFrame hk, ?_⟩
  rw [place, show pageOf (0x24000 + k) = 0x24 by unfold pageOf; omega, bootWith, hFrame]
  omega

theorem bootWith_clear (pmm : Table) (bytes : List UInt8) {home : Nat → Nat} {size page : Nat}
    (hHome : ∀ k < size, pageOf (home k) = 0x24) (hFile : page ≠ 0x24) (hTable : page ≠ 0x22) :
    Clear (bootWith pmm bytes) home size page := by
  refine ⟨fun k hk hEq => hFile ?_, fun d _ hHas hEq => hTable ?_⟩
  · rw [← hEq, hHome k hk]
  · rw [← hEq, (boot_hasTable ..).mp hHas, bootWith, boot_tableOf]
    decide

theorem twoPages_loadable : Loadable (bootWith PmmOwnership.pcMap twoPages) 0x24000 119 := by
  have hPages : filePages (view (bootWith PmmOwnership.pcMap twoPages)) 0x24000 =
      [0x300000, 0x301000] := by
    rw [bootWith, boot_eq]
    decide +kernel
  have hGrants : grantsIn (bootWith PmmOwnership.pcMap twoPages) [0x300000, 0x301000] =
      [⟨0x100000, none⟩, ⟨0x101000, none⟩] := by
    rw [bootWith, boot_eq]
    decide +kernel
  have hWalk : ∀ k < 119, pageWalk (bootWith PmmOwnership.pcMap twoPages) (0x24000 + k) =
        some (0x24000 + k) ∧
      place (bootWith PmmOwnership.pcMap twoPages) (0x24000 + k) = 0x24000 + k := fun k hk =>
    bootWith_walk _ _ (by omega)
  have hFile : ∀ k < 119, pageOf (0x24000 + k) = 0x24 := fun k hk => by
    unfold pageOf
    omega
  refine
    { identity := (boot_invariant ..).1
      exec := by rw [bootWith, boot_eq]; decide +kernel
      mapped := fun k hk => ⟨by omega, by rw [(hWalk k hk).1, (hWalk k hk).2]⟩
      fileClear := fun k hk d _ hHas => ?_
      noWrap := by rw [bootWith, boot_eq]; decide +kernel
      apart := by rw [hPages]; decide
      clear := ?_
      frames := by rw [hPages, hGrants]; decide
      granted := ?_ }
  · rw [(hWalk k hk).2, hFile k hk, (boot_hasTable ..).mp hHas, bootWith, boot_tableOf]
    decide
  · rw [hPages]
    simp only [List.forall_mem_cons, List.not_mem_nil, false_implies, implies_true, and_true]
    exact ⟨bootWith_clear _ _ hFile (by decide) (by decide),
      bootWith_clear _ _ hFile (by decide) (by decide)⟩
  · rw [hPages, hGrants]
    refine ⟨by decide, ?_, by simp⟩
    simp only [List.flatMap_cons, List.flatMap_nil, Grant.frames, Option.toList_none,
      List.append_nil, List.singleton_append, List.forall_mem_cons, List.not_mem_nil,
      false_implies, implies_true, and_true]
    have hHome : ∀ k < 119,
        pageOf (place (bootWith PmmOwnership.pcMap twoPages) (0x24000 + k)) = 0x24 :=
      fun k hk => by rw [(hWalk k hk).2, hFile k hk]
    exact ⟨bootWith_clear _ _ hHome (by decide) (by decide),
      bootWith_clear _ _ hHome (by decide) (by decide)⟩

theorem twoPages_aside : Aside (workPages image (bootWith PmmOwnership.pcMap twoPages))
    (bootWith PmmOwnership.pcMap twoPages)
    (filePages (view (bootWith PmmOwnership.pcMap twoPages)) 0x24000) [] := by
  refine ⟨?_, ?_, by simp⟩
  all_goals
    rw [bootWith, boot_eq]
    decide +kernel

/-- Both segments are loaded: three bytes of the file and two zeros. -/
theorem segments_loaded_twoPages :
    ∃ vm', elfLoadFile pageWalk 0 0x24000 (bootWith PmmOwnership.pcMap twoPages) =
        some (member (view (bootWith PmmOwnership.pcMap twoPages)) 0x24000 eEntry, vm') ∧
      member (view (bootWith PmmOwnership.pcMap twoPages)) 0x24000 eType = etExec ∧
      (∀ s ∈ segments (view (bootWith PmmOwnership.pcMap twoPages)) 0x24000, ∀ k < s.memsz,
        byteAt vm' (s.vaddr + k) = some (if k < s.filesz then
          view (bootWith PmmOwnership.pcMap twoPages) (0x24000 + s.offset + k) else 0)) ∧
      Unchanged (workPages image (bootWith PmmOwnership.pcMap twoPages))
        (bootWith PmmOwnership.pcMap twoPages) vm' ∧ InPlace image vm' := by
  refine segments_loaded 0 ⟨by decide, ?_, ?_, ?_⟩ ?_ twoPages_loadable (boot_inPlace ..)
    twoPages_aside
  all_goals
    rw [bootWith, boot_eq]
    decide +kernel

/-- Two segments that share the page at `0x300000`. -/
def sharedPage : List UInt8 :=
  fileBytes etExec 0x300000 [⟨116, 0x300000, 1, 1⟩, ⟨117, 0x300800, 1, 1⟩] [0xAA, 0xBB]

/-- A file with one segment, of the given type. -/
def onePage (type : Nat) : List UInt8 :=
  fileBytes type 0x300000 [⟨84, 0x300000, 1, 1⟩] [0xAA]

/-- The loader returns the entry although the first of two segments on a page
lost its byte and although there was no memory, and it returns what it finds in
the register for a relocatable file. -/
theorem segments_lost :
    (segments (view (bootWith PmmOwnership.pcMap sharedPage)) 0x24000 =
        [⟨116, 0x300000, 1, 1⟩, ⟨117, 0x300800, 1, 1⟩] ∧
      view (bootWith PmmOwnership.pcMap sharedPage) (0x24000 + 116) = 0xAA ∧
      ∃ vm', elfLoadFile pageWalk 0 0x24000 (bootWith PmmOwnership.pcMap sharedPage) =
          some (0x300000, vm') ∧ byteAt vm' 0x300000 = some 0) ∧
    (segments (view (bootWith (Table.ofList []) (onePage etExec))) 0x24000 =
        [⟨84, 0x300000, 1, 1⟩] ∧
      view (bootWith (Table.ofList []) (onePage etExec)) (0x24000 + 84) = 0xAA ∧
      ∃ vm', elfLoadFile pageWalk 0 0x24000 (bootWith (Table.ofList []) (onePage etExec)) =
          some (0x300000, vm') ∧ byteAt vm' 0x300000 = some 0) ∧
    member (view (bootWith PmmOwnership.pcMap (onePage etRel))) 0x24000 eType = etRel ∧
      ∃ vm', elfLoadFile pageWalk 0x24000 0x24000 (bootWith PmmOwnership.pcMap (onePage etRel)) =
        some (0x24000, vm') := by
  have hShared : (elfLoadFile pageWalk 0 0x24000 (bootWith PmmOwnership.pcMap sharedPage)).map
      (fun r => (r.1, byteAt r.2 0x300000)) = some (0x300000, some 0) := by
    rw [bootWith, boot_eq]
    decide +kernel
  have hFull : (elfLoadFile pageWalk 0 0x24000 (bootWith (Table.ofList []) (onePage etExec))).map
      (fun r => (r.1, byteAt r.2 0x300000)) = some (0x300000, some 0) := by
    rw [bootWith, boot_eq]
    decide +kernel
  have hRel : (elfLoadFile pageWalk 0x24000 0x24000
      (bootWith PmmOwnership.pcMap (onePage etRel))).map Prod.fst = some 0x24000 := by
    rw [bootWith, boot_eq]
    decide +kernel
  obtain ⟨⟨entry, vm₁⟩, hRun₁, hView₁⟩ := Option.map_eq_some_iff.mp hShared
  obtain ⟨⟨entry, vm₂⟩, hRun₂, hView₂⟩ := Option.map_eq_some_iff.mp hFull
  obtain ⟨⟨entry, vm₃⟩, hRun₃, hView₃⟩ := Option.map_eq_some_iff.mp hRel
  simp only [Prod.mk.injEq] at hView₁ hView₂ hView₃
  refine ⟨⟨?_, ?_, vm₁, ?_, hView₁.2⟩, ⟨?_, ?_, vm₂, ?_, hView₂.2⟩, ?_, vm₃, ?_⟩
  · rw [bootWith, boot_eq]
    decide +kernel
  · rw [bootWith, boot_eq]
    decide +kernel
  · rw [hRun₁, hView₁.1]
  · rw [bootWith, boot_eq]
    decide +kernel
  · rw [bootWith, boot_eq]
    decide +kernel
  · rw [hRun₂, hView₂.1]
  · rw [bootWith, boot_eq]
    decide +kernel
  · rw [hRun₃, hView₃]

end MiniKernel.Ports.ElfSegments
