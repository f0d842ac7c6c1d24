import MiniKernel.Ports.Elf
import MiniKernel.Ports.PagingKept

/-!
# Mapping the pages of an ELF file

`load_segment` maps a fresh frame for every page a segment touches.  `Loadable`
says when this serves the file: a page that two segments touch would be mapped
twice and keep the bytes of the second only, a call of `allocate` that fails
would end the segment without a report, and a frame or a page that holds the
file or a page table would destroy it.

`Loading` is the invariant: some pages are resident, each with a frame of its
own, and the rest of the file still has its frames to come.  What is written to
resident pages disturbs neither the file nor the tables.  A load that keeps off
other pages besides (`Aside`) leaves them as they are.
-/

namespace MiniKernel.Ports.ElfLoading

open MiniKernel.Verified.ByteMemory
open MiniKernel.Verified.PageWords
open MiniKernel.Verified.VirtualMemory
open MiniKernel.Ports.Pmm
open MiniKernel.Ports.Paging
open MiniKernel.Ports.PagingTables
open MiniKernel.Ports.PagingIdentity
open MiniKernel.Ports.PagingKept
open MiniKernel.Ports.PagingCalls
open MiniKernel.Ports.Elf

/-! ## The pages of a segment -/

/-- The pages of a segment cover it. -/
theorem segmentPages_cover {vaddr memsz k : Nat} (hNoWrap : vaddr + memsz + 0xFFF < 2 ^ 32)
    (hk : k < memsz) : ∃ v ∈ segmentPages vaddr memsz, pageOf v = pageOf (vaddr + k) := by
  have hStart : segmentStart vaddr = 4096 * (vaddr / 4096) := by
    rw [segmentStart, and_mask, frameOf]
    omega
  have hEnd : segmentEnd vaddr memsz = 4096 * ((vaddr + memsz + 0xFFF) / 4096) := by
    rw [segmentEnd, and_mask, frameOf]
    omega
  refine ⟨segmentStart vaddr + 4096 * ((vaddr + k) / 4096 - vaddr / 4096), ?_, ?_⟩
  · refine List.mem_map_of_mem (List.mem_range.mpr ?_)
    omega
  · unfold pageOf
    omega

theorem segmentPages_lt {vaddr memsz v : Nat} (hv : v ∈ segmentPages vaddr memsz) :
    v < 2 ^ 32 := by
  obtain ⟨k, hk, rfl⟩ := List.mem_map.mp hv
  have hk := List.mem_range.mp hk
  have hEnd := frameOf_le ((vaddr + memsz + 0xFFF) % 2 ^ 32)
  rw [← and_mask] at hEnd
  unfold segmentEnd at hk
  omega

/-! ## Conditions -/

/-- Where an address is in physical memory. -/
def place (vm : Vm) (a : Nat) : Nat := frameOf (entryWord vm (pageOf a)) + a % 4096

/-- Memory as the page tables show it. -/
def view (vm : Vm) : Mem := fun a => vm.mem (place vm a)

/-- The headers and the contents of the segments lie in the file. -/
structure WellFormed (m : Mem) (file size : Nat) : Prop where
  header : 52 ≤ size
  programHeaders : ∀ i < member m file ePhnum,
    member m file ePhoff + i * member m file ePhsize + 32 ≤ size
  contents : ∀ s ∈ segments m file, s.offset + s.filesz ≤ size
  sizes : ∀ s ∈ segments m file, s.filesz ≤ s.memsz

/-- The page holds none of the `size` bytes of the file, which are at `bytes`, and
no page table. -/
def Clear (vm : Vm) (bytes : Nat → Nat) (size page : Nat) : Prop :=
  (∀ k < size, pageOf (bytes k) ≠ page) ∧
    ∀ d < 1024, HasTable vm d → pageOf (tableOf vm d) ≠ page

/-- What `allocate` returns for one page: its frame, and the frame of its table
if there is none yet. -/
structure Grant where
  frame : Nat
  table : Option Nat
  deriving Repr, DecidableEq

/-- The frames of the pages at `vs`, in the order in which loading asks for
them; `present` tells which directory entries have a table. -/
def grants : List Nat → (Nat → Bool) → Table → List Grant
  | [], _, _ => []
  | v :: vs, present, t =>
      let r := allocate 4096 t
      if present (pageOf v / 1024) then ⟨r.1, none⟩ :: grants vs present r.2
      else
        let r' := allocate 4096 r.2
        ⟨r.1, some r'.1⟩ :: grants vs (fun d => d == pageOf v / 1024 || present d) r'.2

/-- The frames in use: a table entry keeps the frame of the address only. -/
def Grant.frames (g : Grant) : List Nat := frameOf g.frame :: g.table.toList

/-- The grants in a state. -/
def grantsIn (vm : Vm) (vs : List Nat) : List Grant :=
  grants vs (fun d => HasTable vm d) vm.pmm

/-- Every call of `allocate` succeeds, with a frame that holds neither the file nor
a table; one that becomes a table is page aligned and reached at its own
address. -/
structure Granted (vm : Vm) (home : Nat → Nat) (size : Nat) (vs : List Nat) (gs : List Grant) :
    Prop where
  nonzero : ∀ g ∈ gs, g.frame ≠ 0
  clear : ∀ f ∈ gs.flatMap Grant.frames, Clear vm home size (pageOf f)
  tables : ∀ g ∈ gs, ∀ t ∈ g.table, t ≠ 0 ∧ t % 4096 = 0 ∧ pageWalk vm t = some t ∧
    ∀ v ∈ vs, pageOf t ≠ pageOf v

/-- The pages of all segments, in loading order. -/
def filePages (m : Mem) (file : Nat) : List Nat := (segments m file).flatMap Segment.pages

/-- The loader can do what the file asks for.  The tables translate to
themselves, and the file is mapped to memory outside them; the file is
executable; no two segments touch a page and none ends in the last page of the
address space; the pages they touch are neither the file's nor a table's; and
there is memory for them. -/
structure Loadable (vm : Vm) (file size : Nat) : Prop where
  identity : Identity vm
  exec : member (view vm) file eType = etExec
  mapped : ∀ k < size, file + k < 2 ^ 32 ∧ pageWalk vm (file + k) = some (place vm (file + k))
  fileClear : ∀ k < size, ∀ d < 1024, HasTable vm d →
    pageOf (tableOf vm d) ≠ pageOf (place vm (file + k))
  noWrap : ∀ s ∈ segments (view vm) file, 0 < s.memsz → s.vaddr + s.memsz + 0xFFF < 2 ^ 32
  apart : ((filePages (view vm) file).map pageOf).Nodup
  clear : ∀ v ∈ filePages (view vm) file, Clear vm (fun k => file + k) size (pageOf v)
  frames : ((grantsIn vm (filePages (view vm) file)).flatMap Grant.frames).Nodup
  granted : Granted vm (fun k => place vm (file + k)) size (filePages (view vm) file)
    (grantsIn vm (filePages (view vm) file))

/-- The load keeps off some pages: it maps none of them and gets none of their frames. -/
structure Aside (pages : List Nat) (vm : Vm) (vs : List Nat) (resident : List (Nat × Nat)) :
    Prop where
  apart : ∀ v ∈ vs, pageOf v ∉ pages
  frames : ∀ f ∈ (grantsIn vm vs).flatMap Grant.frames, ¬Holds pages vm f
  resident : ∀ e ∈ resident, ¬Holds pages vm e.2

/-! ## The invariant -/

/-- The pages of `resident` have their frames; the pages at `vs` are to come.  Byte
`k` of the file stays at the physical address `home k`. -/
structure Loading (vm : Vm) (file size : Nat) (home : Nat → Nat) (vs : List Nat)
    (resident : List (Nat × Nat)) : Prop where
  identity : Identity vm
  mapped : ∀ k < size, file + k < 2 ^ 32 ∧ pageWalk vm (file + k) = some (home k)
  fileClear : ∀ k < size, ∀ d < 1024, HasTable vm d → pageOf (tableOf vm d) ≠ pageOf (home k)
  narrow : ∀ v ∈ vs, v < 2 ^ 32
  pages : (resident.map Prod.fst ++ vs.map pageOf).Nodup
  clear : ∀ v ∈ vs, Clear vm (fun k => file + k) size (pageOf v)
  frames : (resident.map Prod.snd ++ (grantsIn vm vs).flatMap Grant.frames).Nodup
  granted : Granted vm home size vs (grantsIn vm vs)
  words : ∀ e ∈ resident, e.1 < 2 ^ 20 ∧ entryWord vm e.1 = e.2 ||| 7
  backed : ∀ e ∈ resident, e.2 % 4096 = 0 ∧ e.2 < 2 ^ 32 ∧ Clear vm home size (pageOf e.2)

variable {vm vm' : Vm} {file size : Nat} {home : Nat → Nat} {resident : List (Nat × Nat)}

/-- A page that is clear stays clear of the tables that are added elsewhere. -/
theorem Clear.grow {bytes : Nat → Nat} {page : Nat} (h : Clear vm bytes size page)
    (hTables : ∀ d < 1024, HasTable vm' d →
      HasTable vm d ∧ tableOf vm' d = tableOf vm d ∨ pageOf (tableOf vm' d) ≠ page) :
    Clear vm' bytes size page := by
  refine ⟨h.1, fun d hd hHas => ?_⟩
  rcases hTables d hd hHas with ⟨hOld, hSame⟩ | hNew
  · rw [hSame]
    exact h.2 d hd hOld
  · exact hNew

/-- A loadable file satisfies the invariant before its first page is mapped. -/
theorem Loadable.loading (h : Loadable vm file size) :
    Loading vm file size (fun k => place vm (file + k)) (filePages (view vm) file) [] where
  identity := h.identity
  mapped := h.mapped
  fileClear := h.fileClear
  narrow v hv := by
    obtain ⟨s, -, hs⟩ := List.mem_flatMap.mp hv
    exact segmentPages_lt hs
  pages := h.apart
  clear := h.clear
  frames := h.frames
  granted := h.granted
  words := by simp
  backed := by simp

/-! ## Mapping -/

theorem grantsIn_present {v : Nat} {vs : List Nat} (hTable : HasTable vm (pageOf v / 1024))
    (hPmm : vm'.pmm = (allocate 4096 vm.pmm).2) (hSame : ∀ d, HasTable vm' d ↔ HasTable vm d) :
    grantsIn vm (v :: vs) = ⟨(allocate 4096 vm.pmm).1, none⟩ :: grantsIn vm' vs := by
  have hPresent : (fun d => decide (HasTable vm' d)) = fun d => decide (HasTable vm d) := by
    funext d
    exact decide_eq_decide.mpr (hSame d)
  rw [grantsIn, grants, if_pos (decide_eq_true hTable), grantsIn, hPmm, hPresent]

theorem grants_new {v : Nat} (vs : List Nat) {present : Nat → Bool} {t : Table}
    (hTable : present (pageOf v / 1024) = false) :
    grants (v :: vs) present t =
      ⟨(allocate 4096 t).1, some (allocate 4096 (allocate 4096 t).2).1⟩ ::
        grants vs (fun d => d == pageOf v / 1024 || present d)
          (allocate 4096 (allocate 4096 t).2).2 := by
  rw [grants]
  simp only [hTable, Bool.false_eq_true, if_false]

theorem grantsIn_new {v : Nat} {vs : List Nat} (hTable : ¬HasTable vm (pageOf v / 1024))
    (hPmm : vm'.pmm = (allocate 4096 (allocate 4096 vm.pmm).2).2)
    (hHas : HasTable vm' (pageOf v / 1024))
    (hOther : ∀ d, d ≠ pageOf v / 1024 → (HasTable vm' d ↔ HasTable vm d)) :
    grantsIn vm (v :: vs) =
      ⟨(allocate 4096 vm.pmm).1, some (allocate 4096 (allocate 4096 vm.pmm).2).1⟩ ::
        grantsIn vm' vs := by
  have hPresent : (fun d => decide (HasTable vm' d)) =
      fun d => d == pageOf v / 1024 || decide (HasTable vm d) := by
    funext d
    by_cases hd : d = pageOf v / 1024
    · rw [hd, decide_eq_true hHas]
      simp
    · have hSame : decide (HasTable vm' d) = decide (HasTable vm d) :=
        decide_eq_decide.mpr (hOther d hd)
      rw [hSame]
      simp [hd]
  rw [grantsIn, grants_new vs (decide_eq_false hTable), grantsIn, hPmm, hPresent]

/-- One turn of the mapping loop, with the grant it uses. -/
structure Turn (vm vm' : Vm) (v : Nat) (vs : List Nat) (g : Grant) : Prop where
  grants : grantsIn vm (v :: vs) = g :: grantsIn vm' vs
  frame : (allocate 4096 vm.pmm).1 = g.frame
  map : mapPage pageWalk g.frame v 7 { vm with pmm := (allocate 4096 vm.pmm).2 } = some vm'
  identity : Identity vm'
  grown : Grown vm vm' [pageOf v]
  word : entryWord vm' (pageOf v) = frameOf g.frame ||| 7
  tables : ∀ d < 1024, HasTable vm' d →
    HasTable vm d ∧ tableOf vm' d = tableOf vm d ∨ tableOf vm' d ∈ g.table

/-- Mapping a page whose table exists. -/
theorem Loading.turn_present {v : Nat} {vs : List Nat}
    (h : Loading vm file size home (v :: vs) resident)
    (hTable : HasTable vm (pageOf v / 1024)) : ∃ g vm', Turn vm vm' v vs g := by
  have hVirtual : v < 2 ^ 32 := h.narrow v (by simp)
  obtain ⟨hDirectory, hPage⟩ := page_lt hVirtual
  have hStart : Identity { vm with pmm := (allocate 4096 vm.pmm).2 } :=
    h.identity.update rfl rfl
  have hOk : MapOk (allocate 4096 vm.pmm).1 v 7 { vm with pmm := (allocate 4096 vm.pmm).2 } :=
    MapOk.present hTable (h.clear v (by simp)).2
  obtain ⟨vm', hMap, hSame, hPmm, -, hWords⟩ := Distinct.mapPage pageWalk hStart.tables.distinct
    (allocate 4096 vm.pmm).1 hVirtual (show 7 < 2 ^ 32 by decide) hTable
    fun _ hSame hMem _ hk => hStart.reach hDirectory hTable hSame hMem hk
  obtain ⟨hGrown, -⟩ := mapPage_grown hStart hVirtual (by decide) hOk hMap
  refine ⟨⟨(allocate 4096 vm.pmm).1, none⟩, vm',
    { grants := grantsIn_present hTable hPmm fun d => (hSame d).1
      frame := rfl
      map := hMap
      identity := mapPage_identity hStart hVirtual (by decide) hOk hMap
      grown := ⟨hGrown.tables, hGrown.words, hGrown.bytes⟩
      word := ?_
      tables := fun d hd hHas => Or.inl ⟨(hSame d).1.mp hHas, (hSame d).2⟩ }⟩
  rw [hWords _ hPage, if_pos rfl]

/-- Mapping a page that needs a table. -/
theorem Loading.turn_new {v : Nat} {vs : List Nat}
    (h : Loading vm file size home (v :: vs) resident)
    (hTable : ¬HasTable vm (pageOf v / 1024)) : ∃ g vm', Turn vm vm' v vs g := by
  have hVirtual : v < 2 ^ 32 := h.narrow v (by simp)
  obtain ⟨hDirectory, hPage⟩ := page_lt hVirtual
  have hStart : Identity { vm with pmm := (allocate 4096 vm.pmm).2 } :=
    h.identity.update rfl rfl
  have hGranted := h.granted
  rw [grantsIn, grants_new vs (decide_eq_false hTable)] at hGranted
  obtain ⟨hNonzero, hAligned, hSelf, -⟩ := hGranted.tables _ List.mem_cons_self _ rfl
  have hTableRange := allocate_lt 4096 (allocate 4096 vm.pmm).2
  -- the new table is where no other table is
  have hFresh : ∀ d, d < 1024 → HasTable vm d →
      tableOf vm d ≠ (allocate 4096 (allocate 4096 vm.pmm).2).1 := by
    intro d hd hHas hEq
    refine (hGranted.clear (allocate 4096 (allocate 4096 vm.pmm).2).1 ?_).2 d hd hHas (by rw [hEq])
    simp [Grant.frames]
  have hOk : MapOk (allocate 4096 vm.pmm).1 v 7 { vm with pmm := (allocate 4096 vm.pmm).2 } :=
    MapOk.new hTable rfl hAligned hFresh hSelf
  obtain ⟨vm', hMap, hNew, hWords⟩ := Distinct.mapPage_adds pageWalk hStart.tables.distinct
    (allocate 4096 vm.pmm).1 hVirtual (show 7 < 2 ^ 32 by decide) hTable rfl hNonzero hAligned
    hTableRange hFresh fun _ hOther hMem =>
      (reach_new hAligned hTableRange hTable hFresh hSelf hOther hMem).2
  obtain ⟨hGrown, hTables⟩ := mapPage_grown hStart hVirtual (by decide) hOk hMap
  refine ⟨⟨(allocate 4096 vm.pmm).1, some (allocate 4096 (allocate 4096 vm.pmm).2).1⟩, vm',
    { grants := grantsIn_new hTable hNew.pmm hNew.has fun d hd => (hNew.other d hd).1
      frame := rfl
      map := hMap
      identity := mapPage_identity hStart hVirtual (by decide) hOk hMap
      grown := ⟨hGrown.tables, hGrown.words, hGrown.bytes⟩
      word := ?_
      tables := fun d _ hHas => (hTables d hHas).imp_right fun hNew => ?_ }⟩
  · rw [hWords _ hPage, if_pos rfl]
  · rw [hNew.2]
    rfl

/-- **Mapping one page** takes the first grant and leaves the others. -/
theorem Loading.turn {v : Nat} {vs : List Nat} (h : Loading vm file size home (v :: vs) resident) :
    ∃ g vm', Turn vm vm' v vs g := by
  by_cases hTable : HasTable vm (pageOf v / 1024)
  · exact h.turn_present hTable
  · exact h.turn_new hTable

/-- Frames are page aligned, those of new tables because they are asked to be. -/
theorem Granted.aligned {vs : List Nat} {gs : List Grant} (h : Granted vm home size vs gs) :
    ∀ f ∈ gs.flatMap Grant.frames, f % 4096 = 0 := by
  intro f hf
  obtain ⟨g, hg, hf⟩ := List.mem_flatMap.mp hf
  rcases List.mem_cons.mp hf with rfl | ht
  · exact frameOf_mod _
  · exact (h.tables g hg f (Option.mem_toList.mp ht)).2.1

/-- A page that no new table is at stays clear. -/
theorem Turn.clear {v page : Nat} {vs : List Nat} {g : Grant} {bytes : Nat → Nat}
    (hTurn : Turn vm vm' v vs g) (hOld : Clear vm bytes size page)
    (hNew : ∀ t ∈ g.table, pageOf t ≠ page) : Clear vm' bytes size page :=
  hOld.grow fun d hd hHas => (hTurn.tables d hd hHas).imp_right fun ht => hNew _ ht

/-- A frame that does not become a table stays clear. -/
theorem Granted.clear_next {v f : Nat} {vs : List Nat} {g : Grant} {gs : List Grant}
    (h : Granted vm home size (v :: vs) (g :: gs)) (hTurn : Turn vm vm' v vs g)
    (hf : f ∈ (g :: gs).flatMap Grant.frames) (hNot : f ∉ g.table) :
    Clear vm' home size (pageOf f) := by
  refine hTurn.clear (h.clear f hf) fun t ht => ?_
  have hTable := (h.tables g List.mem_cons_self t ht).2.1
  exact aligned_ne hTable (h.aligned f hf) fun hEq => hNot (hEq ▸ ht)

/-- What is granted to the turns that follow. -/
theorem Granted.next {v : Nat} {vs : List Nat} {g : Grant} {gs : List Grant}
    (h : Granted vm home size (v :: vs) (g :: gs)) (hTurn : Turn vm vm' v vs g)
    (hNodup : ((g :: gs).flatMap Grant.frames).Nodup) : Granted vm' home size vs gs := by
  rw [List.flatMap_cons] at hNodup
  obtain ⟨-, -, hOthers⟩ := List.nodup_append.mp hNodup
  refine ⟨fun g' hg' => h.nonzero g' (List.mem_cons_of_mem _ hg'), fun f hf => ?_,
    fun g' hg' t ht => ?_⟩
  · refine h.clear_next hTurn ?_ fun ht => ?_
    · rw [List.flatMap_cons]
      exact List.mem_append_right _ hf
    · exact hOthers f (List.mem_cons_of_mem _ (Option.mem_toList.mpr ht)) f hf rfl
  · obtain ⟨hne, hMod, hSelf, hApart⟩ := h.tables g' (List.mem_cons_of_mem _ hg') t ht
    exact ⟨hne, hMod, hTurn.grown.mapped (pageWalk_lt hSelf) hSelf (hApart v List.mem_cons_self),
      fun w hw => hApart w (List.mem_cons_of_mem _ hw)⟩

/-- **The invariant after one turn.** -/
theorem Loading.next {v : Nat} {vs : List Nat} {g : Grant}
    (h : Loading vm file size home (v :: vs) resident)
    (hTurn : Turn vm vm' v vs g) :
    Loading vm' file size home vs ((pageOf v, frameOf g.frame) :: resident) := by
  have hGranted := h.granted
  have hFrames := h.frames
  have hPages := h.pages
  rw [hTurn.grants] at hGranted hFrames
  rw [List.map_cons, List.nodup_middle] at hPages
  have hOwn : ∀ f ∈ g.frames, f ∈ (g :: grantsIn vm' vs).flatMap Grant.frames := by
    intro f hf
    rw [List.flatMap_cons]
    exact List.mem_append_left _ hf
  have hTableIn : ∀ t ∈ g.table, t ∈ g.frames := fun t ht =>
    List.mem_cons_of_mem _ (Option.mem_toList.mpr ht)
  -- the frame of the page, the frame of its table and all other frames are different
  obtain ⟨-, hGrantNodup, hResident⟩ := List.nodup_append.mp hFrames
  have hFrameNotTable : frameOf g.frame ∉ g.table := by
    intro hIn
    rw [List.flatMap_cons] at hGrantNodup
    have hOwnNodup := (List.nodup_append.mp hGrantNodup).1
    exact (List.nodup_cons.mp hOwnNodup).1 (Option.mem_toList.mpr hIn)
  refine
    { identity := hTurn.identity
      mapped := fun k hk => ?_
      fileClear := fun k hk d hd hHas => ?_
      narrow := fun v hv => h.narrow v (List.mem_cons_of_mem _ hv)
      pages := by simpa using hPages
      clear := fun w hw => ?_
      frames := ?_
      granted := hGranted.next hTurn hGrantNodup
      words := fun e he => ?_
      backed := fun e he => ?_ }
  · obtain ⟨hRange, hWalk⟩ := h.mapped k hk
    exact ⟨hRange, hTurn.grown.mapped hRange hWalk ((h.clear v List.mem_cons_self).1 k hk)⟩
  · rcases hTurn.tables d hd hHas with ⟨hOld, hSame⟩ | hNew
    · rw [hSame]
      exact h.fileClear k hk d hd hOld
    · exact ((hGranted.clear _ (hOwn _ (hTableIn _ hNew))).1 k hk).symm
  · exact hTurn.clear (h.clear w (List.mem_cons_of_mem _ hw)) fun t ht =>
      (hGranted.tables g List.mem_cons_self t ht).2.2.2 w (List.mem_cons_of_mem _ hw)
  · rw [List.flatMap_cons, Grant.frames, List.cons_append, List.nodup_middle] at hFrames
    refine hFrames.sublist ?_
    rw [List.map_cons, List.cons_append]
    exact ((List.sublist_append_right _ _).append_left _).cons_cons _
  · rcases List.mem_cons.mp he with rfl | he
    · have hRange := h.narrow v List.mem_cons_self
      exact ⟨by simp only [pageOf]; omega, hTurn.word⟩
    · obtain ⟨hRange, hWord⟩ := h.words e he
      have hne : e.1 ≠ pageOf v := by
        rintro hEq
        refine (List.nodup_cons.mp hPages).1 (List.mem_append_left _ ?_)
        rw [← hEq]
        exact List.mem_map_of_mem he
      exact ⟨hRange, (hTurn.grown.words _ hRange (by simpa using hne)).trans hWord⟩
  · rcases List.mem_cons.mp he with rfl | he
    · have hRange := frameOf_le g.frame
      have hClear := hGranted.clear_next hTurn (hOwn _ List.mem_cons_self) hFrameNotTable
      exact ⟨frameOf_mod _, by simp only; omega, hClear⟩
    · obtain ⟨heAligned, hRange, heClear⟩ := h.backed e he
      refine ⟨heAligned, hRange, hTurn.clear heClear fun t ht => ?_⟩
      have htIn := hOwn t (hTableIn t ht)
      exact aligned_ne (hGranted.aligned t htIn) heAligned fun hEq =>
        hResident _ (List.mem_map_of_mem he) _ htIn hEq.symm

/-- One turn keeps off the pages. -/
theorem Aside.next {pages : List Nat} {v : Nat} {vs : List Nat} {g : Grant}
    (h : Aside pages vm (v :: vs) resident) (hTurn : Turn vm vm' v vs g) :
    Aside pages vm' vs ((pageOf v, frameOf g.frame) :: resident) ∧ Spared pages vm vm' := by
  have hFrames := h.frames
  rw [hTurn.grants, List.flatMap_cons] at hFrames
  have hTables : ∀ x, Holds pages vm x → InTable vm' x → InTable vm x := by
    rintro x hx ⟨d, hd, hHas, hTable⟩
    rcases hTurn.tables d hd hHas with ⟨hOld, hSame⟩ | hNew
    · exact ⟨d, hd, hOld, by rwa [hSame] at hTable⟩
    · exact absurd (hx.of_page hTable) (hFrames _
        (List.mem_append_left _ (List.mem_cons_of_mem _ (Option.mem_toList.mpr hNew))))
  have hSpared : Spared pages vm vm' :=
    { identity := hTurn.identity
      words := fun p hp hRange => hTurn.grown.words p hRange fun hIn =>
        h.apart v List.mem_cons_self (List.mem_singleton.mp hIn ▸ hp)
      tables := hTables
      bytes := fun x hx hOut => hTurn.grown.bytes x fun d hd hHas hTable =>
        hOut (hTables x hx ⟨d, hd, hHas, hTable⟩) }
  refine ⟨⟨fun w hw => h.apart w (List.mem_cons_of_mem _ hw), fun f hf hHolds => ?_,
    fun e he hHolds => ?_⟩, hSpared⟩
  · exact hFrames f (List.mem_append_right _ hf) (hSpared.of_holds hHolds)
  · rcases List.mem_cons.mp he with rfl | he
    · exact hFrames _ (List.mem_append_left _ List.mem_cons_self) (hSpared.of_holds hHolds)
    · exact h.resident e he (hSpared.of_holds hHolds)

/-- **The mapping loop** makes all its pages resident. -/
theorem mapPages_spec {pages vs rest : List Nat}
    (h : Loading vm file size home (vs ++ rest) resident)
    (hAside : Aside pages vm (vs ++ rest) resident) :
    ∃ vm' resident', mapPages pageWalk vs vm = some (true, vm') ∧
      Loading vm' file size home rest resident' ∧ Grown vm vm' (vs.map pageOf) ∧
      (∀ e ∈ resident, e ∈ resident') ∧ (∀ v ∈ vs, ∃ f, (pageOf v, f) ∈ resident') ∧
      Aside pages vm' rest resident' ∧ Spared pages vm vm' := by
  induction vs generalizing vm resident with
  | nil =>
      exact ⟨vm, resident, rfl, h, Grown.refl vm, fun _ he => he, by simp, hAside,
        Spared.update h.identity rfl rfl⟩
  | cons v vs ih =>
      rw [List.cons_append] at h hAside
      obtain ⟨g, vm₁, hTurn⟩ := h.turn
      obtain ⟨hAside₁, hSpared₁⟩ := hAside.next hTurn
      obtain ⟨vm', resident', hLoop, hRest, hGrown, hKeeps, hAll, hAside', hSpared'⟩ :=
        ih (h.next hTurn) hAside₁
      have hNonzero : g.frame ≠ 0 := by
        apply h.granted.nonzero
        rw [hTurn.grants]
        exact List.mem_cons_self
      refine ⟨vm', resident', ?_, hRest, hTurn.grown.trans hGrown,
        fun e he => hKeeps e (List.mem_cons_of_mem _ he), fun w hw => ?_, hAside',
        hSpared₁.trans hSpared'⟩
      · simp only [mapPages]
        rw [if_neg (hTurn.frame ▸ hNonzero), hTurn.frame,
          show pagePresent ||| pageUser ||| pageWrite = 7 by decide, hTurn.map]
        exact hLoop
      · rcases List.mem_cons.mp hw with rfl | hw
        · exact ⟨frameOf g.frame, hKeeps _ (by simp)⟩
        · exact hAll w hw

/-! ## Resident pages -/

/-- The address is on a resident page. -/
def Resides (resident : List (Nat × Nat)) (a : Nat) : Prop := ∃ e ∈ resident, pageOf a = e.1

theorem Loading.place_eq {vs : List Nat} (h : Loading vm file size home vs resident)
    {e : Nat × Nat} (he : e ∈ resident) {a : Nat} (ha : pageOf a = e.1) :
    a < 2 ^ 32 ∧ pageWalk vm a = some (place vm a) ∧ place vm a = e.2 + a % 4096 := by
  obtain ⟨hRange, hWord⟩ := h.words e he
  obtain ⟨hAligned, hFrame, -⟩ := h.backed e he
  have hPresent : Present (entryWord vm (pageOf a)) := by
    rw [ha, hWord, or_mod_two]
    exact Or.inr (by decide)
  refine ⟨?_, ?_, ?_⟩
  · unfold pageOf at ha
    omega
  · rw [pageWalk_eq, if_pos hPresent, place]
  · rw [place, ha, hWord, frameOf_or _ (by decide), frameOf_aligned hAligned hFrame]

/-- Resident addresses are not where the file or a table is. -/
theorem Loading.place_clear {vs : List Nat} (h : Loading vm file size home vs resident) {a : Nat}
    (ha : Resides resident a) : Clear vm home size (pageOf (place vm a)) := by
  obtain ⟨e, he, hPage⟩ := ha
  obtain ⟨hAligned, -, hClear⟩ := h.backed e he
  have hPlace := (h.place_eq he hPage).2.2
  rw [show pageOf (place vm a) = pageOf e.2 by unfold pageOf; omega]
  exact hClear

/-- **Resident pages are backed by their frames**, whatever is written there. -/
theorem Loading.backing {vs : List Nat} (h : Loading vm file size home vs resident) :
    Resident (through pageWalk vm) vm.mem (Resides resident) (place vm) where
  maps a ha := by
    obtain ⟨e, he, hPage⟩ := ha
    obtain ⟨hRange, hWalk, -⟩ := h.place_eq he hPage
    rw [through, Nat.mod_eq_of_lt hRange]
    exact hWalk
  inj a b ha hb hEq := by
    obtain ⟨e, he, hPage⟩ := ha
    obtain ⟨e', he', hPage'⟩ := hb
    have hAligned := (h.backed e he).1
    have hAligned' := (h.backed e' he').1
    have hPlace := (h.place_eq he hPage).2.2
    have hPlace' := (h.place_eq he' hPage').2.2
    have hSame : e = e' := by
      refine List.inj_on_of_nodup_map (List.nodup_append.mp h.frames).1 he he' ?_
      omega
    rw [← hSame] at hPage' hPlace'
    unfold pageOf at hPage hPage'
    omega
  stable m' hAgree := by
    funext a
    have hRange : a % 2 ^ 32 < 2 ^ 32 := Nat.mod_lt _ (Nat.two_pow_pos 32)
    refine pageWalk_congr (entryWord_congr (sameTable_of_eq rfl) ?_)
    intro hHas x hLow hHigh
    refine hAgree x fun b hb hEq => ?_
    have hMod := tableOf_mod vm (pageOf (a % 2 ^ 32) / 1024)
    refine (h.place_clear hb).2 _ (by unfold pageOf; omega) hHas ?_
    simp only [hEq]
    unfold pageOf at *
    simp only [tableOf] at *
    omega

/-- What is written to resident pages leaves the words of all pages alone. -/
theorem Loading.word_write {vs : List Nat} (h : Loading vm file size home vs resident) {m' : Mem}
    (hAgree : AgreeOff (Resides resident) (place vm) vm.mem m') {p : Nat} (hp : p < 2 ^ 20) :
    entryWord { vm with mem := m' } p = entryWord vm p := by
  refine entryWord_congr (sameTable_of_eq rfl) fun hHas x hLow hHigh => ?_
  refine hAgree x fun b hb hEq => (h.place_clear hb).2 _ (by omega) hHas ?_
  have hMod := tableOf_mod vm (p / 1024)
  rw [hEq]
  unfold pageOf
  omega

theorem Loading.walk_write {vs : List Nat} (h : Loading vm file size home vs resident) {m' : Mem}
    (hAgree : AgreeOff (Resides resident) (place vm) vm.mem m') {a : Nat} (ha : a < 2 ^ 32) :
    pageWalk { vm with mem := m' } a = pageWalk vm a :=
  pageWalk_congr (h.word_write hAgree (by unfold pageOf; omega))

/-- **The invariant after writes to resident pages.** -/
theorem Loading.write {vs : List Nat} (h : Loading vm file size home vs resident) {m' : Mem}
    (hAgree : AgreeOff (Resides resident) (place vm) vm.mem m') :
    Loading { vm with mem := m' } file size home vs resident where
  identity := by
    refine h.identity.congr (fun d => sameTable_of_eq rfl) fun d _ _ => ?_
    have hRange := tableOf_lt vm d
    exact h.word_write hAgree (by unfold pageOf; omega)
  mapped k hk := by
    obtain ⟨hRange, hWalk⟩ := h.mapped k hk
    rw [h.walk_write hAgree hRange]
    exact ⟨hRange, hWalk⟩
  fileClear := h.fileClear
  narrow := h.narrow
  pages := h.pages
  clear := h.clear
  frames := h.frames
  granted :=
    { nonzero := h.granted.nonzero
      clear := h.granted.clear
      tables := fun g hg t ht => by
        obtain ⟨hne, hMod, hSelf, hApart⟩ := h.granted.tables g hg t ht
        rw [h.walk_write hAgree (pageWalk_lt hSelf)]
        exact ⟨hne, hMod, hSelf, hApart⟩ }
  words e he := by
    obtain ⟨hRange, hWord⟩ := h.words e he
    exact ⟨hRange, (h.word_write hAgree hRange).trans hWord⟩
  backed := h.backed

/-- They keep off the other pages too. -/
theorem Aside.write {pages vs : List Nat} (hAside : Aside pages vm vs resident)
    (h : Loading vm file size home vs resident) {m' : Mem}
    (hAgree : AgreeOff (Resides resident) (place vm) vm.mem m') :
    Aside pages { vm with mem := m' } vs resident ∧ Spared pages vm { vm with mem := m' } := by
  have hSpared : Spared pages vm { vm with mem := m' } :=
    { identity := (h.write hAgree).identity
      words := fun p _ hRange => h.word_write hAgree hRange
      tables := fun _ _ hx => hx
      bytes := fun x hx _ => hAgree x fun a ha hEq => by
        obtain ⟨e, he, hPage⟩ := ha
        have hAligned := (h.backed e he).1
        have hPlace := (h.place_eq he hPage).2.2
        refine hAside.resident e he (hx.of_page ?_)
        rw [← hEq, hPlace]
        unfold pageOf
        omega }
  exact ⟨⟨hAside.apart, fun f hf hHolds => hAside.frames f hf (hSpared.of_holds hHolds),
    fun e he hHolds => hAside.resident e he (hSpared.of_holds hHolds)⟩, hSpared⟩

theorem Loading.place_write {vs : List Nat} (h : Loading vm file size home vs resident) {m' : Mem}
    (hAgree : AgreeOff (Resides resident) (place vm) vm.mem m') {a : Nat}
    (ha : Resides resident a) : place { vm with mem := m' } a = place vm a := by
  obtain ⟨e, he, hPage⟩ := ha
  have hRange := (h.words e he).1
  rw [place, place, h.word_write hAgree (hPage ▸ hRange)]

/-- The byte at a resident address. -/
theorem Loading.byteAt_eq {vs : List Nat} (h : Loading vm file size home vs resident) {a : Nat}
    (ha : Resides resident a) : byteAt vm a = some (vm.mem (place vm a)) := by
  obtain ⟨e, he, hPage⟩ := ha
  rw [byteAt, (h.place_eq he hPage).2.1]
  rfl

/-- Writes to resident pages do not reach the file. -/
theorem Loading.file_write {vs : List Nat} (h : Loading vm file size home vs resident) {m' : Mem}
    (hAgree : AgreeOff (Resides resident) (place vm) vm.mem m') {k : Nat} (hk : k < size) :
    m' (home k) = vm.mem (home k) := by
  refine hAgree _ fun a ha hEq => (h.place_clear ha).1 k hk ?_
  rw [hEq]

/-- The file is what it was in `m`. -/
def SameFile (m : Mem) (vm : Vm) (file size : Nat) (home : Nat → Nat) : Prop :=
  ∀ k < size, vm.mem (home k) = m (file + k)

theorem Loading.through_file {vs : List Nat} (h : Loading vm file size home vs resident) {k : Nat}
    (hk : k < size) : through pageWalk vm vm.mem (file + k) = some (home k) := by
  obtain ⟨hRange, hWalk⟩ := h.mapped k hk
  rw [through, Nat.mod_eq_of_lt hRange]
  exact hWalk

/-- **Header fields** are read from the file. -/
theorem Loading.read_eq {vs : List Nat} (h : Loading vm file size home vs resident) {m : Mem}
    (hSame : SameFile m vm file size home) (field : Field) {base : Nat} (hLow : file ≤ base)
    (hHigh : base + field.offset + field.size ≤ file + size) :
    readMember pageWalk base field vm = some (member m base field) := by
  have hIn : ∀ x, base + field.offset ≤ x → x < base + field.offset + field.size →
      x - file < size ∧ x = file + (x - file) := fun x hxLow hxHigh => ⟨by omega, by omega⟩
  have hFetch : fetch (through pageWalk vm) vm.mem (base + field.offset) field.size =
      some (load (fun x => vm.mem (home (x - file))) (base + field.offset) field.size) := by
    refine fetch_load fun x hxLow hxHigh => ?_
    obtain ⟨hk, hx⟩ := hIn x hxLow hxHigh
    rw [hx, h.through_file hk, Nat.add_sub_cancel_left]
  rw [readMember, hFetch, member, load_congr fun x hxLow hxHigh => ?_]
  obtain ⟨hk, hx⟩ := hIn x hxLow hxHigh
  rw [hSame _ hk, ← hx]

end MiniKernel.Ports.ElfLoading
