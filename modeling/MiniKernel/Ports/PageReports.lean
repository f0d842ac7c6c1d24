import MiniKernel.Ports.PagingMaps
import MiniKernel.Ports.PagingCalls
import MiniKernel.Ports.PagingDraws

/-!
# What `allocate_page` reports

`allocate_page` returns a virtual address, or `0` when it has no page.  Four things
stand between its caller and a mapped page that are not looked at: the address itself
may be `0`, which it is on the first call when F10 leaves `kernel()` before
`init_virtual_allocator`; `map_page` may find no frame for the table; the frame may be
cut off at 4 GiB or lie across two pages; and the flags may not say that the page is
present.  `Obtains` is what is left, and the answer is right exactly then, or when
`allocate` fails.
-/

namespace MiniKernel.Ports.PageReports

open MiniKernel.Verified.ByteMemory
open MiniKernel.Verified.PageWords
open MiniKernel.Verified.Trace
open MiniKernel.Ports.Pmm
open MiniKernel.Ports.Paging
open MiniKernel.Ports.PagingTables
open MiniKernel.Ports.PagingIdentity
open MiniKernel.Ports.PagingCalls
open MiniKernel.Ports.PagingDraws (Usable allocate_fails)
open MiniKernel.Ports.PagingMaps

/-! ## The two ways through `kernel()` -/

/-- `kernel()` turns paging on, or F10 is pressed and it goes on without. -/
inductive Way where
  | normal
  | f10
  deriving Repr, DecidableEq

/-- What a table pointer reaches. -/
def Way.ptr : Way → Vm → Nat → Option Nat
  | .normal => pageWalk
  | .f10 => direct

/-- The state after F10: `init_virtual_allocator` and `build_first_page` have not run. -/
def unprepared (pmm : Table) (mem : Mem) (freeVirtual : Nat → Nat) : Vm where
  pmm := pmm
  mem := mem
  pageDirectory := fun _ => 0
  nextVirtual := 0
  freeVirtual := freeVirtual
  freeCount := 0

/-- The state the first call is made in. -/
def Way.start (layout : Layout) (pmm : Table) (mem : Mem) (freeVirtual : Nat → Nat) : Way → Vm
  | .normal => boot layout pmm mem freeVirtual
  | .f10 => unprepared pmm mem freeVirtual

def Way.step (way : Way) : Vm → Event → Option Vm := stepWith way.ptr

/-- A freed page fits into `free_virtual`. -/
def FreeFits (vm : Vm) : Event → Prop
  | .freePage _ => vm.freeCount < maxFreePages
  | _ => True

/-- With paging on, the call leaves the tables where the code looks for them. -/
def Way.Keeps : Way → Vm → Event → Prop
  | .normal => KeepsTables
  | .f10 => FreeFits

/-- The call leaves the kernel's own memory alone, and the tables. -/
def Way.KeepsKernel (way : Way) (layout : Layout) (vm : Vm) (e : Event) : Prop :=
  way.Keeps vm e ∧ Spares layout way.ptr vm e

/-! ## The answer -/

/-- The memory map, the page tables, `free_virtual` and `next_virtual` are as before. -/
def Unchanged (vm vm' : Vm) : Prop :=
  vm'.pmm.entries = vm.pmm.entries ∧ vm'.mem = vm.mem ∧
    vm'.pageDirectory = vm.pageDirectory ∧ SameVirtual vm vm'

/-- `get_map(v)` is a frame that was free before, and the table word has the flags. -/
def Gets (ptr : Vm → Nat → Option Nat) (flag : Nat) (vm : Vm) (v : Nat) (vm' : Vm) : Prop :=
  ∃ frame, frame ≠ 0 ∧ getMap ptr v vm' = some frame ∧
    (∀ k < 4096, Usable vm.pmm.entries (frame + k)) ∧
    entryWord vm' (pageOf v) % 4096 = defaultFlags flag

/-- The call returns `0` exactly if there is no page, and then it has changed nothing;
otherwise it returns an address and has mapped it. -/
def Reports (ptr : Vm → Nat → Option Nat) (flag : Nat) (vm : Vm) : Prop :=
  ∃ v vm', allocatePage ptr flag vm = some (v, vm') ∧
    (v = 0 ↔ Fails 4096 vm.pmm.entries) ∧ (v = 0 → Unchanged vm vm') ∧
    (v ≠ 0 → Gets ptr flag vm v vm')

/-- Where `map_page` finds the table of an address, or puts it. -/
def tableFor (v : Nat) (vm : Vm) : Nat :=
  if HasTable vm (pageOf v / 1024) then tableOf vm (pageOf v / 1024)
  else frameOf (allocate 4096 vm.pmm).1

/-- There is a frame, which is free as a whole when its address is cut to a page in 32
bits; the flags are flags, with `PAGE_PRESENT`; the virtual address that comes next is
not `0`; and it has a table, or there is a frame for one, and its word is not at
address `0`. -/
structure Obtains (flag : Nat) (vm : Vm) : Prop where
  some : (allocate 4096 vm.pmm).1 ≠ 0
  nonzero : frameOf (allocate 4096 vm.pmm).1 ≠ 0
  free : ∀ k < 4096, Usable vm.pmm.entries (frameOf (allocate 4096 vm.pmm).1 + k)
  present : Present (defaultFlags flag)
  small : defaultFlags flag < 4096
  address : (takeVirtual { vm with pmm := (allocate 4096 vm.pmm).2 }).1 ≠ 0
  tabled : Tabled (takeVirtual { vm with pmm := (allocate 4096 vm.pmm).2 }).1
    (takeVirtual { vm with pmm := (allocate 4096 vm.pmm).2 }).2
  word : tableFor (takeVirtual { vm with pmm := (allocate 4096 vm.pmm).2 }).1
      (takeVirtual { vm with pmm := (allocate 4096 vm.pmm).2 }).2 +
    4 * (pageOf (takeVirtual { vm with pmm := (allocate 4096 vm.pmm).2 }).1 % 1024) ≠ 0

variable {ptr : Vm → Nat → Option Nat} {vm vm' : Vm}

/-! ## Reading back -/

theorem word_mod (f : Nat) {flags : Nat} (hFlags : flags < 4096) :
    (frameOf f ||| flags) % 4096 = flags := by
  have hFrame : frameOf f % 2 ^ 12 = 0 := frameOf_mod f
  rw [show 4096 = 2 ^ 12 by decide, Nat.or_mod_two_pow, hFrame, Nat.zero_or,
    Nat.mod_eq_of_lt (by omega)]

theorem frameOf_word (f : Nat) {flags : Nat} (hFlags : flags < 4096) :
    frameOf (frameOf f ||| flags) = frameOf f := by
  have hRange := frameOf_le f
  rw [frameOf_or _ hFlags, frameOf_aligned (frameOf_mod f) (by omega)]

/-- **A word that was written** is what the caller asked for under these conditions. -/
theorem gets_iff {flag v f : Nat}
    (hPtr : ptr vm' (getPte v vm') = some (getPte v vm'))
    (hWord : entryWord vm' (pageOf v) = frameOf f ||| defaultFlags flag) :
    Gets ptr flag vm v vm' ↔ getPte v vm' ≠ 0 ∧ Present (defaultFlags flag) ∧
      defaultFlags flag < 4096 ∧ frameOf f ≠ 0 ∧
      ∀ k < 4096, Usable vm.pmm.entries (frameOf f + k) := by
  have hPresent : Present (frameOf f ||| defaultFlags flag) ↔ Present (defaultFlags flag) := by
    rw [or_mod_two]
    refine or_iff_right fun hFrame => ?_
    unfold Present at hFrame
    have := frameOf_mod f
    omega
  have hMap := getMap_eq (v := v) fun _ => hPtr
  rw [hWord] at hMap
  unfold Gets
  rw [hMap, hWord]
  constructor
  · rintro ⟨frame, hNonzero, hFrame, hFree, hFlags⟩
    have hSmall : defaultFlags flag < 4096 := hFlags ▸ Nat.mod_lt _ (by decide)
    have hEq := Option.some.inj hFrame
    by_cases hBoth : getPte v vm' ≠ 0 ∧ Present (frameOf f ||| defaultFlags flag)
    · rw [if_pos hBoth, frameOf_word f hSmall] at hEq
      rw [← hEq] at hNonzero hFree
      exact ⟨hBoth.1, hPresent.mp hBoth.2, hSmall, hNonzero, hFree⟩
    · rw [if_neg hBoth] at hEq
      exact absurd hEq.symm hNonzero
  · rintro ⟨hPte, hFlag, hSmall, hNonzero, hFree⟩
    refine ⟨frameOf f, hNonzero, ?_, hFree, word_mod f hSmall⟩
    rw [if_pos ⟨hPte, hPresent.mpr hFlag⟩, frameOf_word f hSmall]

/-- Without a table there is no page. -/
theorem not_gets {flag v : Nat} (hTable : ¬HasTable vm' (pageOf v / 1024)) :
    ¬Gets ptr flag vm v vm' := by
  have hPte : getPte v vm' = 0 := by rw [getPte_eq, if_neg hTable]
  rintro ⟨frame, hNonzero, hMap, -⟩
  rw [getMap_eq fun hNot => absurd hPte hNot, if_neg fun hBoth => hBoth.1 hPte] at hMap
  exact hNonzero (Option.some.inj hMap).symm

/-- **The answer is right** exactly if `allocate` fails or the page is obtained, as long
as `map_page` writes the word of the page when there is a table. -/
theorem reports_iff {flag : Nat}
    (hMap : Tabled (takeVirtual { vm with pmm := (allocate 4096 vm.pmm).2 }).1
        (takeVirtual { vm with pmm := (allocate 4096 vm.pmm).2 }).2 →
      (allocate 4096 vm.pmm).1 ≠ 0 →
      ∃ vm', mapPage ptr (allocate 4096 vm.pmm).1
          (takeVirtual { vm with pmm := (allocate 4096 vm.pmm).2 }).1 (defaultFlags flag)
          (takeVirtual { vm with pmm := (allocate 4096 vm.pmm).2 }).2 = some vm' ∧
        getPte (takeVirtual { vm with pmm := (allocate 4096 vm.pmm).2 }).1 vm' =
          tableFor (takeVirtual { vm with pmm := (allocate 4096 vm.pmm).2 }).1
              (takeVirtual { vm with pmm := (allocate 4096 vm.pmm).2 }).2 +
            4 * (pageOf (takeVirtual { vm with pmm := (allocate 4096 vm.pmm).2 }).1 % 1024) ∧
        ptr vm' (getPte (takeVirtual { vm with pmm := (allocate 4096 vm.pmm).2 }).1 vm') =
          some (getPte (takeVirtual { vm with pmm := (allocate 4096 vm.pmm).2 }).1 vm') ∧
        entryWord vm' (pageOf (takeVirtual { vm with pmm := (allocate 4096 vm.pmm).2 }).1) =
          frameOf (allocate 4096 vm.pmm).1 ||| defaultFlags flag) :
    Reports ptr flag vm ↔ Fails 4096 vm.pmm.entries ∨ Obtains flag vm := by
  by_cases hSome : (allocate 4096 vm.pmm).1 = 0
  · have hCall : allocatePage ptr flag vm = some (0, { vm with pmm := (allocate 4096 vm.pmm).2 }) :=
      if_pos hSome
    constructor
    · rintro ⟨v, vm', hRun, hZero, -⟩
      cases hCall.symm.trans hRun
      exact Or.inl (hZero.mp rfl)
    · rintro (hFails | hObtains)
      · exact ⟨_, _, hCall, iff_of_true rfl hFails,
          fun _ => ⟨(allocate_fails hFails).2, rfl, rfl, rfl, rfl, rfl⟩, fun hNot => absurd rfl hNot⟩
      · exact absurd hSome hObtains.some
  · have hFits := PagingDraws.not_fails hSome
    rw [or_iff_right hFits]
    have hCall := @allocatePage_some ptr vm flag hSome
    constructor
    · rintro ⟨v, vm', hRun, hZero, -, hGets⟩
      have hAddress : v ≠ 0 := fun hEq => hFits (hZero.mp hEq)
      have hGets := hGets hAddress
      obtain ⟨vm₁, hMapped, hEq⟩ := Option.map_eq_some_iff.mp (hCall.symm.trans hRun)
      cases hEq
      by_cases hTabled : Tabled (takeVirtual { vm with pmm := (allocate 4096 vm.pmm).2 }).1
          (takeVirtual { vm with pmm := (allocate 4096 vm.pmm).2 }).2
      · obtain ⟨vm₂, hMapped', hPte, hPtr, hWord⟩ := hMap hTabled hSome
        cases hMapped'.symm.trans hMapped
        obtain ⟨hFound, hPresent, hSmall, hNonzero, hFree⟩ := (gets_iff hPtr hWord).mp hGets
        exact ⟨hSome, hNonzero, hFree, hPresent, hSmall, hAddress, hTabled, hPte ▸ hFound⟩
      · obtain ⟨hTable, hFull⟩ := not_or.mp hTabled
        rw [mapPage_full hTable (not_not.mp hFull)] at hMapped
        cases hMapped
        exact absurd hGets (not_gets hTable)
    · intro h
      obtain ⟨vm', hMapped, hPte, hPtr, hWord⟩ := hMap h.tabled hSome
      refine ⟨_, vm', by rw [hCall, hMapped]; rfl, iff_of_false h.address hFits,
        fun hEq => absurd hEq h.address, fun _ => (gets_iff hPtr hWord).mpr ?_⟩
      exact ⟨hPte ▸ h.word, h.present, h.small, h.nonzero, h.free⟩

/-! ## Without paging -/

/-- The second half of `map_page` writes the word of its page. -/
theorem writeEntry_direct (physical : Nat) {v flags : Nat} (hFlags : flags < 2 ^ 32)
    (hTable : HasTable vm (pageOf v / 1024)) :
    ∃ vm', writeEntry direct physical v flags vm = some vm' ∧
      HasTable vm' (pageOf v / 1024) ∧
      tableOf vm' (pageOf v / 1024) = tableOf vm (pageOf v / 1024) ∧
      entryWord vm' (pageOf v) = frameOf physical ||| flags := by
  have hWord : frameOf physical ||| flags < 2 ^ 32 :=
    or_lt (by have := frameOf_le physical; omega) hFlags
  unfold writeEntry
  simp only [shift_directory, shift_table, and_mask, writeWord, direct, Option.map_some]
  generalize hEntry : (if flags &&& pageUser ≠ 0 then
    vm.pageDirectory (pageOf v / 1024) ||| pageUser
    else vm.pageDirectory (pageOf v / 1024)) = entry
  generalize hvm' : ({ vm with
    mem := store vm.mem (frameOf entry + 4 * (pageOf v % 1024)) (frameOf physical ||| flags) 4
    pageDirectory := setWord vm.pageDirectory (pageOf v / 1024) entry } : Vm) = vm'
  have hOwn : vm'.pageDirectory (pageOf v / 1024) = entry := by
    rw [← hvm']
    exact if_pos rfl
  have hMem : vm'.mem = store vm.mem (frameOf entry + 4 * (pageOf v % 1024))
      (frameOf physical ||| flags) 4 := by rw [← hvm']
  have hHas' : HasTable vm' (pageOf v / 1024) := by
    rw [HasTable, hOwn, ← hEntry]
    split
    · rw [or_mod_two]
      exact Or.inl hTable
    · exact hTable
  have hFrame' : tableOf vm' (pageOf v / 1024) = frameOf entry := by rw [tableOf, hOwn]
  refine ⟨vm', rfl, hHas', ?_, ?_⟩
  · rw [hFrame', ← hEntry, tableOf]
    split
    · exact frameOf_or _ (by decide)
    · rfl
  · rw [entryWord, if_pos hHas', hFrame', hMem, load_store_self (show _ < 256 ^ 4 by omega)]

/-- **`map_page` without paging** writes the word of its page, whatever the tables. -/
theorem mapPage_own (physical : Nat) {v flags : Nat} (hFlags : flags < 2 ^ 32)
    (hTabled : Tabled v vm) :
    ∃ vm', mapPage direct physical v flags vm = some vm' ∧
      HasTable vm' (pageOf v / 1024) ∧ tableOf vm' (pageOf v / 1024) = tableFor v vm ∧
      entryWord vm' (pageOf v) = frameOf physical ||| flags := by
  unfold tableFor
  by_cases hTable : HasTable vm (pageOf v / 1024)
  · rw [mapPage_table hTable, if_pos hTable]
    exact writeEntry_direct physical hFlags hTable
  · have hSome := hTabled.resolve_left hTable
    rw [if_neg hTable]
    obtain ⟨m, hClear, -, -⟩ := @clearTable_spec direct (allocate 4096 vm.pmm).1 (List.range 1024)
      { vm with pmm := (allocate 4096 vm.pmm).2 } (fun k hk => List.mem_range.mp hk)
      fun _ _ _ _ _ => rfl
    generalize hBits : (if flags &&& pageUser ≠ 0 then
      pagePresent ||| pageWrite ||| pageUser else pagePresent ||| pageWrite) = bits
    have hSmall : bits < 4096 ∧ Present bits := by
      rw [← hBits]
      split <;> decide
    generalize hvm : ({ vm with
      pmm := (allocate 4096 vm.pmm).2
      mem := m
      pageDirectory := setWord vm.pageDirectory (pageOf v / 1024)
        ((allocate 4096 vm.pmm).1 ||| bits) } : Vm) = vm₁
    have hEntry : vm₁.pageDirectory (pageOf v / 1024) = (allocate 4096 vm.pmm).1 ||| bits := by
      rw [← hvm]
      exact if_pos rfl
    have hEnsure : ensureTable direct (v >>> 22) flags vm = some (true, vm₁) := by
      unfold ensureTable
      rw [shift_directory, if_pos (not_not.mp (mt hasTable_iff.mpr hTable))]
      simp only [if_neg hSome, hClear, Option.map_some]
      rw [hBits, ← hvm]
    have hHas : HasTable vm₁ (pageOf v / 1024) := by
      rw [HasTable, hEntry, or_mod_two]
      exact Or.inr hSmall.2
    obtain ⟨vm', hWrite, hHas', hFrame, hWord⟩ := writeEntry_direct physical hFlags hHas
    refine ⟨vm', ?_, hHas', ?_, hWord⟩
    · rw [mapPage, hEnsure]
      exact hWrite
    · rw [hFrame, tableOf, hEntry, frameOf_or _ hSmall.1]

/-- **After F10**, in any state. -/
theorem reports_direct {flag : Nat} (hFlag : flag < 2 ^ 32) :
    Reports direct flag vm ↔ Fails 4096 vm.pmm.entries ∨ Obtains flag vm := by
  refine reports_iff fun hTabled _ => ?_
  obtain ⟨vm', hMap, hTable, hFrame, hWord⟩ := mapPage_own (allocate 4096 vm.pmm).1
    (defaultFlags_lt (by decide) hFlag) hTabled
  exact ⟨vm', hMap, by rw [getPte_eq, if_pos hTable, hFrame], rfl, hWord⟩

/-! ## With paging -/

/-- **With paging on**, as long as the tables stay where the code looks for them. -/
theorem reports_walk {flag : Nat} (h : Identity vm) (hBounded : Bounded vm)
    (hFlag : flag < 2 ^ 32) (hKeeps : KeepsTables vm (.allocatePage flag)) :
    Reports pageWalk flag vm ↔ Fails 4096 vm.pmm.entries ∨ Obtains flag vm := by
  refine reports_iff fun hTabled hSome => ?_
  have hStart : Bounded { vm with pmm := (allocate 4096 vm.pmm).2 } :=
    hBounded.same ⟨rfl, rfl, rfl⟩
  obtain ⟨hVirtual, -⟩ := hStart.take
  obtain ⟨-, hMem, hDirectory, -⟩ :=
    takeVirtual_frame { vm with pmm := (allocate 4096 vm.pmm).2 }
  have hTaken := h.update hMem hDirectory
  have hOk := hKeeps hSome
  have hFlags := defaultFlags_lt (show 3 < 2 ^ 32 by decide) hFlag
  generalize takeVirtual { vm with pmm := (allocate 4096 vm.pmm).2 } = r at *
  obtain ⟨v, vm₁⟩ := r
  simp only at *
  have hDirectory := (page_div_lt hVirtual).2
  have hMapped : ∃ vm', mapPage pageWalk (allocate 4096 vm.pmm).1 v (defaultFlags flag) vm₁ =
      some vm' ∧ HasTable vm' (pageOf v / 1024) ∧ tableOf vm' (pageOf v / 1024) = tableFor v vm₁ := by
    unfold tableFor
    by_cases hTable : HasTable vm₁ (pageOf v / 1024)
    · obtain ⟨vm', hMap, hSame, -⟩ :=
        Distinct.mapPage pageWalk hTaken.tables.distinct _ hVirtual hFlags
        hTable fun _ hSame hMem _ hk => hTaken.reach hDirectory hTable hSame hMem hk
      exact ⟨vm', hMap, (hSame _).1.mpr hTable, by rw [if_pos hTable, (hSame _).2]⟩
    · have hNew := hTabled.resolve_left hTable
      rw [MapOk, if_neg hTable] at hOk
      obtain ⟨hAligned, hFresh, hSelf⟩ := hOk hNew
      have hRange := allocate_lt 4096 vm₁.pmm
      obtain ⟨vm', hMap, hAdds, -⟩ :=
        Distinct.mapPage_adds pageWalk hTaken.tables.distinct _ hVirtual hFlags hTable
        rfl hNew hAligned hRange hFresh fun _ hOther hMem =>
          (reach_new hAligned hRange hTable hFresh hSelf hOther hMem).2
      exact ⟨vm', hMap, hAdds.has, by
        rw [if_neg hTable, hAdds.tableOf, frameOf_aligned hAligned hRange]⟩
  obtain ⟨vm', hMap, hTable, hFrame⟩ := hMapped
  have hAfter := mapPage_identity hTaken hVirtual hFlags hOk hMap
  have hPte : getPte v vm' = tableFor v vm₁ + 4 * (pageOf v % 1024) := by
    rw [getPte_eq, if_pos hTable, hFrame]
  refine ⟨vm', hMap, hPte, ?_, ?_⟩
  · rw [hPte, ← hFrame]
    exact hAfter.reach hDirectory hTable (SameTable.refl vm') rfl (Nat.mod_lt _ (by decide))
  · rw [mapPage_words hTaken hVirtual hFlags hOk hTabled hMap _ (page_div_lt hVirtual).1,
      if_pos rfl]

/-! ## Runs -/

theorem obtains_first : Obtains 3 (boot image twoFrames (fun _ => 0) fun _ => 0) := by
  refine ⟨by decide, by decide, fun k hk => ⟨_, List.mem_singleton.mpr rfl, rfl, ?_⟩,
    by decide, by decide, by decide, Or.inl (by decide), by decide⟩
  have hFrame : frameOf (allocate 4096 (boot image twoFrames (fun _ => 0) fun _ => 0).pmm).1 =
      0x100000 := by decide
  have hEntry : PmmOwnership.extentOf ((boot image twoFrames (fun _ => 0) fun _ => 0).pmm.map 0) =
      ⟨0x100000, 0x2000⟩ := by decide
  rw [hFrame, hEntry]
  simp only [Verified.Extents.Extent.Has]
  omega

end MiniKernel.Ports.PageReports
