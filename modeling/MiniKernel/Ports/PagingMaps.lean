import MiniKernel.Ports.PagingTables

/-!
# The laws of `map_page`, `get_map` and `unmap_page`

Page tables as the arrays the code addresses.  `get_map` of an address is read off the
table word of its page (`getMap_direct`), so a call that changes the word of one page
changes `get_map` on that page only.  `map_page` is such a call, also when it makes a
table: the words of a new table are `0`, as were those of the pages without one.  The
directory only gains: an entry with a table keeps it and its user bit.
-/

namespace MiniKernel.Ports.PagingMaps

open MiniKernel.Verified.ByteMemory
open MiniKernel.Verified.PageWords
open MiniKernel.Ports.Pmm
open MiniKernel.Ports.Paging
open MiniKernel.Ports.PagingTables

variable {ptr : Vm → Nat → Option Nat} {vm vm' : Vm}

/-! ## Reading -/

theorem page_div_lt {v : Nat} (hv : v < 2 ^ 32) :
    pageOf v < 2 ^ 20 ∧ pageOf v / 1024 < 1024 := by
  unfold pageOf
  omega

/-- The word `get_pte` finds, when it is reached at its own address. -/
theorem readWord_getPte {v : Nat} (hTable : HasTable vm (pageOf v / 1024))
    (hPtr : ptr vm (getPte v vm) = some (getPte v vm)) :
    readWord ptr vm (getPte v vm) = some (entryWord vm (pageOf v)) := by
  rw [readWord, hPtr, Option.map_some, entryWord, if_pos hTable, getPte_eq, if_pos hTable]

/-- **`get_map` reads the word of the page.** -/
theorem getMap_eq {v : Nat} (hPtr : getPte v vm ≠ 0 → ptr vm (getPte v vm) = some (getPte v vm)) :
    getMap ptr v vm = some (if getPte v vm ≠ 0 ∧ Present (entryWord vm (pageOf v)) then
      frameOf (entryWord vm (pageOf v)) else 0) := by
  unfold getMap
  by_cases hZero : getPte v vm = 0
  · simp only [hZero, ne_eq, not_true_eq_false, false_and, if_true, if_false]
  · have hTable : HasTable vm (pageOf v / 1024) := by
      by_contra hNone
      rw [getPte_eq, if_neg hNone] at hZero
      exact hZero rfl
    simp only [if_neg hZero, readWord_getPte hTable (hPtr hZero), Option.map_some, and_mask]
    by_cases hPresent : Present (entryWord vm (pageOf v))
    · rw [if_neg (mt and_one_eq_zero.mp (not_not.mpr hPresent)), if_pos ⟨hZero, hPresent⟩]
    · rw [if_pos (and_one_eq_zero.mpr hPresent), if_neg fun hBoth => hPresent hBoth.2]

theorem getMap_direct (v : Nat) (vm : Vm) :
    getMap direct v vm = some (if getPte v vm ≠ 0 ∧ Present (entryWord vm (pageOf v)) then
      frameOf (entryWord vm (pageOf v)) else 0) :=
  getMap_eq fun _ => rfl

/-- A page without a present word, whatever its table. -/
theorem getMap_absent {v : Nat} (h : ¬Present (entryWord vm (pageOf v))) :
    getMap direct v vm = some 0 := by
  rw [getMap_direct, if_neg fun hBoth => h hBoth.2]

/-- `get_map` depends on the table and the word of the page. -/
theorem getMap_congr {v : Nat} (hSame : SameTable vm vm' (pageOf v / 1024))
    (hWord : entryWord vm' (pageOf v) = entryWord vm (pageOf v)) :
    getMap direct v vm' = getMap direct v vm := by
  have hPte : getPte v vm' = getPte v vm := by
    rw [getPte_eq, getPte_eq, hSame.2]
    simp only [hSame.1]
  rw [getMap_direct, getMap_direct, hPte, hWord]

/-- A new table shows nothing that was not there. -/
theorem getMap_kept {v : Nat}
    (hSame : HasTable vm (pageOf v / 1024) → SameTable vm vm' (pageOf v / 1024))
    (hWord : entryWord vm' (pageOf v) = entryWord vm (pageOf v)) :
    getMap direct v vm' = getMap direct v vm := by
  by_cases hTable : HasTable vm (pageOf v / 1024)
  · exact getMap_congr (hSame hTable) hWord
  · have hAbsent : ¬Present (entryWord vm (pageOf v)) := mt entryWord_present hTable
    rw [getMap_absent hAbsent, getMap_absent (by rwa [hWord])]

/-! ## The directory -/

/-- A directory entry keeps its table and its user bit. -/
def KeepsEntry (vm vm' : Vm) (d : Nat) : Prop :=
  vm'.pageDirectory d = vm.pageDirectory d ∨
    vm'.pageDirectory d = vm.pageDirectory d ||| pageUser

theorem writeEntry_keeps {physical virtual flags : Nat}
    (h : writeEntry ptr physical virtual flags vm = some vm') (d : Nat) :
    KeepsEntry vm vm' d := by
  obtain ⟨p, -, rfl⟩ := Option.map_eq_some_iff.mp h
  unfold KeepsEntry setWord
  by_cases hd : d = virtual >>> 22
  · subst hd
    simp only [if_true]
    split
    · exact Or.inr rfl
    · exact Or.inl rfl
  · simp only [if_neg hd]
    exact Or.inl trivial

/-- **The directory only gains.** -/
theorem mapPage_keeps {physical virtual flags : Nat}
    (h : mapPage ptr physical virtual flags vm = some vm') {d : Nat} (hHas : HasTable vm d) :
    KeepsEntry vm vm' d := by
  obtain ⟨⟨ok, vm₁⟩, hTable, hRest⟩ := Option.bind_eq_some_iff.mp h
  have hSame : vm₁.pageDirectory d = vm.pageDirectory d := by
    unfold ensureTable at hTable
    split at hTable
    · next hNone =>
        have hOther : d ≠ virtual >>> 22 := fun hEq => hasTable_iff.mp hHas (hEq ▸ hNone)
        simp only at hTable
        split at hTable
        · cases hTable
          rfl
        · obtain ⟨vm₂, hClear, hEq⟩ := Option.map_eq_some_iff.mp hTable
          cases hEq
          refine (if_neg hOther).trans ?_
          rw [clearTable_directory hClear]
    · cases hTable
      rfl
  cases ok with
  | true =>
      have hKeeps := writeEntry_keeps hRest d
      unfold KeepsEntry at hKeeps ⊢
      rwa [hSame] at hKeeps
  | false =>
      cases hRest
      exact Or.inl hSame

theorem KeepsEntry.table {d : Nat} (h : KeepsEntry vm vm' d) (hHas : HasTable vm d) :
    HasTable vm' d ∧ tableOf vm' d = tableOf vm d := by
  unfold HasTable tableOf at *
  rcases h with hEq | hEq
  · rw [hEq]
    exact ⟨hHas, rfl⟩
  · rw [hEq, or_mod_two, frameOf_or _ (by decide)]
    exact ⟨Or.inl hHas, rfl⟩

theorem KeepsEntry.user {d : Nat} (h : KeepsEntry vm vm' d)
    (hUser : vm.pageDirectory d &&& pageUser ≠ 0) : vm'.pageDirectory d &&& pageUser ≠ 0 := by
  rcases h with hEq | hEq
  · rwa [hEq]
  · rw [hEq, Nat.and_or_distrib_right, Nat.and_self]
    exact fun hZero => absurd (Nat.or_eq_zero_iff.mp hZero).2 (by decide)

/-! ## Writing -/

/-- `map_page` has a table for the address, or a frame that is nobody's table. -/
def Mappable (virtual : Nat) (vm : Vm) : Prop :=
  HasTable vm (pageOf virtual / 1024) ∨
    (allocate 4096 vm.pmm).1 ≠ 0 ∧ (allocate 4096 vm.pmm).1 % 4096 = 0 ∧
      ∀ d < 1024, HasTable vm d → tableOf vm d ≠ (allocate 4096 vm.pmm).1

/-- **`map_page`** writes the word of its page, and no other. -/
theorem mapPage_direct (hD : Distinct vm) (physical : Nat) {virtual flags : Nat}
    (hVirtual : virtual < 2 ^ 32) (hFlags : flags < 2 ^ 32) (hOk : Mappable virtual vm) :
    ∃ vm', mapPage direct physical virtual flags vm = some vm' ∧ Distinct vm' ∧
      HasTable vm' (pageOf virtual / 1024) ∧
      ∀ q, q < 2 ^ 20 → entryWord vm' q =
        if q = pageOf virtual then frameOf physical ||| flags else entryWord vm q := by
  by_cases hTable : HasTable vm (pageOf virtual / 1024)
  · obtain ⟨vm', hMap, hSame, -, -, hWords⟩ := hD.mapPage direct physical hVirtual hFlags hTable
      fun _ _ _ _ _ => rfl
    exact ⟨vm', hMap, hD.congr hSame, (hSame _).1.mpr hTable, hWords⟩
  · obtain ⟨hSome, hAligned, hFresh⟩ := hOk.resolve_left hTable
    obtain ⟨vm', hMap, hAdds, hWords⟩ := hD.mapPage_adds direct physical hVirtual hFlags hTable
      rfl hSome hAligned (allocate_lt 4096 vm.pmm) hFresh fun _ _ _ _ _ => rfl
    exact ⟨vm', hMap, hD.insert hFresh hAdds.other hAdds.tableOf, hAdds.has, hWords⟩

/-- **`unmap_page`** clears the word of its page, unless `get_map` is `0` there. -/
theorem unmapPage_direct (hD : Distinct vm) {virtual : Nat} (hVirtual : virtual < 2 ^ 32) :
    ∃ vm', unmapPage direct virtual vm = some vm' ∧ (∀ d, SameTable vm vm' d) ∧
      getMap direct virtual vm' = some 0 ∧
      ∀ q, q < 2 ^ 20 → q ≠ pageOf virtual → entryWord vm' q = entryWord vm q := by
  have hPage := (page_div_lt hVirtual).1
  unfold unmapPage
  by_cases hZero : getPte virtual vm = 0
  · simp only [hZero, if_true]
    refine ⟨vm, rfl, SameTable.refl vm, ?_, fun _ _ _ => rfl⟩
    rw [getMap_direct, if_neg fun hBoth => hBoth.1 hZero]
  · have hTable : HasTable vm (pageOf virtual / 1024) := by
      by_contra hNone
      rw [getPte_eq, if_neg hNone] at hZero
      exact hZero rfl
    have hPtr : direct vm (getPte virtual vm) = some (getPte virtual vm) := rfl
    simp only [if_neg hZero, readWord_getPte hTable hPtr, Option.bind_some]
    by_cases hPresent : Present (entryWord vm (pageOf virtual))
    · rw [if_neg (mt and_one_eq_zero.mp (not_not.mpr hPresent)), writeWord, direct,
        Option.map_some, getPte_eq, if_pos hTable]
      generalize hvm' : ({ vm with
        mem := store vm.mem (tableOf vm (pageOf virtual / 1024) + 4 * (pageOf virtual % 1024))
          0 4 } : Vm) = vm'
      have hSame : ∀ d, SameTable vm vm' d := fun d => sameTable_of_eq (by rw [← hvm'])
      have hWords := hD.entryWord_write hPage hTable (show 0 < 2 ^ 32 by decide) hSame
        (by rw [← hvm'])
      refine ⟨vm', rfl, hSame, getMap_absent ?_, fun q hq hOther => ?_⟩
      · rw [hWords _ hPage, if_pos rfl]
        decide
      · rw [hWords q hq, if_neg hOther]
    · rw [if_pos (and_one_eq_zero.mpr hPresent)]
      exact ⟨vm, rfl, SameTable.refl vm, getMap_absent hPresent, fun _ _ _ => rfl⟩

/-! ## The laws -/

/-- **`map_page` and then `unmap_page`.**  The table word of the page is what was asked
for and then `get_map` is `0` there, `get_map` of every other page stays, and no directory
entry loses its table or its user bit; `get_pte` is not `NULL` unless a table is at
frame `0`. -/
theorem map_unmap_laws {vm : Vm} (hDistinct : Distinct vm) (p : Nat) {v flags : Nat}
    (hVirtual : v < 2 ^ 32) (hFlags : flags < 2 ^ 32) (hOk : Mappable v vm) :
    ∃ vm', mapPage direct p v flags vm = some vm' ∧
      readWord direct vm' (getPte v vm') = some ((p &&& 0xFFFFF000) ||| flags) ∧
      ((∀ d < 1024, HasTable vm' d → tableOf vm' d ≠ 0) → getPte v vm' ≠ 0) ∧
      (∀ w < 2 ^ 32, pageOf w ≠ pageOf v → getMap direct w vm' = getMap direct w vm) ∧
      (∀ d, HasTable vm d → HasTable vm' d ∧ tableOf vm' d = tableOf vm d ∧
        (vm.pageDirectory d &&& pageUser ≠ 0 → vm'.pageDirectory d &&& pageUser ≠ 0)) ∧
      ∃ vm'', unmapPage direct v vm' = some vm'' ∧ getMap direct v vm'' = some 0 ∧
        ∀ w < 2 ^ 32, pageOf w ≠ pageOf v → getMap direct w vm'' = getMap direct w vm' := by
  obtain ⟨hPage, hDirectory⟩ := page_div_lt hVirtual
  obtain ⟨vm', hMap, hDistinct', hTable, hWords⟩ :=
    mapPage_direct hDistinct p hVirtual hFlags hOk
  obtain ⟨vm'', hUnmap, hSame, hZero, hOthers⟩ := unmapPage_direct hDistinct' hVirtual
  refine ⟨vm', hMap, ?_, fun hNonzero => ?_, fun w hw hOther => ?_, fun d hHas => ?_,
    vm'', hUnmap, hZero, fun w hw hOther => ?_⟩
  · rw [readWord_getPte hTable rfl, hWords _ hPage, if_pos rfl, and_mask]
  · rw [getPte_eq, if_pos hTable]
    have hFrame := hNonzero _ hDirectory hTable
    omega
  · refine getMap_kept (fun hHas => ?_) ?_
    · obtain ⟨hHas', hFrame⟩ := (mapPage_keeps hMap hHas).table hHas
      exact ⟨iff_of_true hHas' hHas, hFrame⟩
    · rw [hWords _ (page_div_lt hw).1, if_neg hOther]
  · have hKeeps := mapPage_keeps hMap hHas
    exact ⟨(hKeeps.table hHas).1, (hKeeps.table hHas).2, hKeeps.user⟩
  · exact getMap_congr (hSame _) (hOthers _ (page_div_lt hw).1 hOther)

/-- A map with a page for the frame and one for its table. -/
def twoFrames : Table := Table.ofList
  [ { base := 0x100000, length := 0x2000, type := 1, acpi := 1 } ]

/-- The kernel after boot, with one of the frames taken. -/
def oneTaken : Vm :=
  { boot image twoFrames (fun _ => 0) (fun _ => 0) with pmm := (allocate 4096 twoFrames).2 }

/-- The mapping of the kernel's own test: `0xC0100000` needs a table. -/
theorem map_unmap_laws_test :
    ∃ vm', mapPage direct 0x100000 0xC0100000 3 oneTaken = some vm' ∧
      readWord direct vm' (getPte 0xC0100000 vm') = some 0x100003 := by
  have hHas : ∀ d, HasTable oneTaken d → d = 0 := fun d =>
    (@boot_hasTable image twoFrames (fun _ => 0) (fun _ => 0) d).mp
  have hFirst : tableOf oneTaken 0 = 0x22000 :=
    boot_tableOf image twoFrames (fun _ => 0) (fun _ => 0)
  have hTable : (allocate 4096 oneTaken.pmm).1 = 0x101000 := by decide
  have hDistinct : Distinct oneTaken := fun d d' _ _ hd hd' _ =>
    (hHas d hd).trans (hHas d' hd').symm
  have hOk : Mappable 0xC0100000 oneTaken := by
    rw [Mappable, hTable]
    refine Or.inr ⟨by decide, by decide, fun d _ hd => ?_⟩
    rw [hHas d hd, hFirst]
    decide
  obtain ⟨vm', hMap, hWord, -⟩ :=
    map_unmap_laws hDistinct 0x100000 (by decide) (show 3 < 2 ^ 32 by decide) hOk
  exact ⟨vm', hMap, hWord⟩

end MiniKernel.Ports.PagingMaps
