import MiniKernel.Ports.PagingIdentity

/-!
# Calls that edit one word at a time

Under the walk of the processor, and as long as the tables stay where the code
looks for them, a page call is a sequence of edits: `map_page` writes the word
of its page and `free_page` clears the word of its page.  `Calls` puts a
condition on every `map_page` and every `free_page` a call makes.  What these
keep the calls keep (`CallInvariant.step`), and so for invariants of the table
words, for which the edits are enough (`WordInvariant.step`).
-/

namespace MiniKernel.Ports.PagingCalls

open MiniKernel.Verified.ByteMemory
open MiniKernel.Verified.PageWords
open MiniKernel.Ports.Pmm
open MiniKernel.Ports.Paging
open MiniKernel.Ports.PagingTables
open MiniKernel.Ports.PagingIdentity

variable {vm vm' : Vm}

/-! ## Edits -/

/-- At most the word of one page changes, and then to this one. -/
def Edits (vm vm' : Vm) (page word : Nat) : Prop :=
  ∀ q, q < 2 ^ 20 → entryWord vm' q = entryWord vm q ∨ q = page ∧ entryWord vm' q = word

/-- `map_page` has a table for the page, or memory for one. -/
def Tabled (virtual : Nat) (vm : Vm) : Prop :=
  HasTable vm (pageOf virtual / 1024) ∨ (allocate 4096 vm.pmm).1 ≠ 0

instance (virtual : Nat) (vm : Vm) : Decidable (Tabled virtual vm) :=
  inferInstanceAs (Decidable (_ ∨ _))

/-- `map_page` with a table writes the word of its page, and no other. -/
theorem mapPage_words {physical virtual flags : Nat} (h : Identity vm)
    (hVirtual : virtual < 2 ^ 32) (hFlags : flags < 2 ^ 32)
    (hOk : MapOk physical virtual flags vm) (hTabled : Tabled virtual vm)
    (hMap : mapPage pageWalk physical virtual flags vm = some vm') :
    ∀ q, q < 2 ^ 20 → entryWord vm' q =
      if q = pageOf virtual then frameOf physical ||| flags else entryWord vm q := by
  have hDirectory : pageOf virtual / 1024 < 1024 := by
    unfold pageOf
    omega
  by_cases hTable : HasTable vm (pageOf virtual / 1024)
  · obtain ⟨vm₁, hMap₁, -, -, -, hWords⟩ :=
      Distinct.mapPage pageWalk h.tables.distinct physical hVirtual hFlags hTable
        fun _ hSame hMem _ hk => h.reach hDirectory hTable hSame hMem hk
    cases hMap₁.symm.trans hMap
    exact hWords
  · have hSome := hTabled.resolve_left hTable
    rw [MapOk, if_neg hTable] at hOk
    obtain ⟨hAligned, hFresh, hSelf⟩ := hOk hSome
    have hRange := allocate_lt 4096 vm.pmm
    obtain ⟨vm₁, hMap₁, -, hWords⟩ :=
      Distinct.mapPage_adds pageWalk h.tables.distinct physical hVirtual hFlags hTable
        rfl hSome hAligned
        hRange hFresh fun _ hOther hMem => (reach_new hAligned hRange hTable hFresh hSelf
          hOther hMem).2
    cases hMap₁.symm.trans hMap
    exact hWords

/-- `map_page` changes the word of its own page only. -/
theorem mapPage_edits {physical virtual flags : Nat} (h : Identity vm)
    (hVirtual : virtual < 2 ^ 32) (hFlags : flags < 2 ^ 32)
    (hOk : MapOk physical virtual flags vm)
    (hMap : mapPage pageWalk physical virtual flags vm = some vm') :
    Edits vm vm' (pageOf virtual) (frameOf physical ||| flags) := by
  intro q hq
  by_cases hTabled : Tabled virtual vm
  · rw [mapPage_words h hVirtual hFlags hOk hTabled hMap q hq]
    split
    · next hPage => exact Or.inr ⟨hPage, rfl⟩
    · exact Or.inl rfl
  · obtain ⟨hTable, hFull⟩ := not_or.mp hTabled
    rw [mapPage_full hTable (not_not.mp hFull)] at hMap
    cases hMap
    exact Or.inl rfl

/-- `free_page` changes the word of its own page only. -/
theorem freePage_edits {addr : Nat} (h : Identity vm) (hAddr : addr < 2 ^ 32)
    (hFree : freePage pageWalk addr vm = some vm') : Edits vm vm' (pageOf addr) 0 := by
  obtain ⟨vm₁, hFree₁, -, -, hWords⟩ := freePage_spec pageWalk h.tables hAddr
    fun hTable vm₁ hSame hMem => h.reach (by unfold pageOf; omega) hTable
      (fun d => sameTable_of_eq (by rw [hSame])) hMem (by omega)
  cases hFree₁.symm.trans hFree
  intro q hq
  rw [hWords q hq]
  split
  · next hEq => exact Or.inr ⟨hEq.1, rfl⟩
  · exact Or.inl rfl

/-! ## Conditions on calls -/

/-- `ok` at every turn of the loop of `allocate_pages_contig`. -/
def ContigMeets (ok : Nat → Nat → Nat → Vm → Prop) (start flag : Nat) : List Nat → Vm → Prop
  | [], _ => True
  | k :: ks, vm =>
      let r := allocate 4096 vm.pmm
      r.1 ≠ 0 →
        ok r.1 ((start + k * 4096) % 2 ^ 32) flag { vm with pmm := r.2 } ∧
        ∀ vm', mapPage pageWalk r.1 ((start + k * 4096) % 2 ^ 32) flag
          { vm with pmm := r.2 } = some vm' → ContigMeets ok start flag ks vm'

instance ContigMeets.decidable (ok : Nat → Nat → Nat → Vm → Prop)
    [∀ physical virtual flags vm, Decidable (ok physical virtual flags vm)]
    (start flag : Nat) :
    (ks : List Nat) → (vm : Vm) → Decidable (ContigMeets ok start flag ks vm)
  | [], _ => .isTrue trivial
  | k :: ks, vm =>
      match hMap : mapPage pageWalk (allocate 4096 vm.pmm).1 ((start + k * 4096) % 2 ^ 32) flag
          { vm with pmm := (allocate 4096 vm.pmm).2 } with
      | none =>
          decidable_of_iff ((allocate 4096 vm.pmm).1 ≠ 0 →
            ok (allocate 4096 vm.pmm).1 ((start + k * 4096) % 2 ^ 32) flag
              { vm with pmm := (allocate 4096 vm.pmm).2 })
            (by simp only [ContigMeets, hMap, reduceCtorEq, false_implies, implies_true,
              and_true])
      | some vm' =>
          have := ContigMeets.decidable ok start flag ks vm'
          decidable_of_iff ((allocate 4096 vm.pmm).1 ≠ 0 →
            ok (allocate 4096 vm.pmm).1 ((start + k * 4096) % 2 ^ 32) flag
              { vm with pmm := (allocate 4096 vm.pmm).2 } ∧ ContigMeets ok start flag ks vm')
            (by simp only [ContigMeets, hMap, Option.some.injEq, forall_eq'])

/-- `ok` at the `map_page` of `allocate_page`. -/
def PageMeets (ok : Nat → Nat → Nat → Vm → Prop) (flag : Nat) (vm : Vm) : Prop :=
  let r := allocate 4096 vm.pmm
  let v := takeVirtual { vm with pmm := r.2 }
  r.1 ≠ 0 → ok r.1 v.1 (defaultFlags flag) v.2

instance (ok : Nat → Nat → Nat → Vm → Prop)
    [∀ physical virtual flags vm, Decidable (ok physical virtual flags vm)] (flag : Nat)
    (vm : Vm) : Decidable (PageMeets ok flag vm) :=
  inferInstanceAs (Decidable (_ → ok ..))

/-- `ok` at every `map_page` of the call, and `okFree` at a `free_page`. -/
def Calls (ok : Nat → Nat → Nat → Vm → Prop) (okFree : Nat → Vm → Prop) (vm : Vm) :
    Event → Prop
  | .allocatePage flag => PageMeets ok flag vm
  | .allocatePagesContig count flag =>
      ContigMeets ok vm.nextVirtual (defaultFlags flag) (List.range count.toNat)
        { vm with nextVirtual := (((vm.nextVirtual : Int) + count * 4096) % 2 ^ 32).toNat }
  | .freePage addr => okFree addr vm
  | .mapPage physical virtual flags => ok physical virtual flags vm

instance (ok : Nat → Nat → Nat → Vm → Prop) (okFree : Nat → Vm → Prop)
    [∀ physical virtual flags vm, Decidable (ok physical virtual flags vm)]
    [∀ addr vm, Decidable (okFree addr vm)] (vm : Vm) :
    (e : Event) → Decidable (Calls ok okFree vm e)
  | .allocatePage _ => inferInstanceAs (Decidable (PageMeets ..))
  | .allocatePagesContig .. => inferInstanceAs (Decidable (ContigMeets ..))
  | .freePage addr => inferInstanceAs (Decidable (okFree addr vm))
  | .mapPage .. => inferInstanceAs (Decidable (ok ..))

/-! ## Invariants of the calls -/

/-- The `map_page` and `free_page` that meet the conditions keep `I`, which is
about memory and the directory only. -/
structure CallInvariant (ok : Nat → Nat → Nat → Vm → Prop) (okFree : Nat → Vm → Prop)
    (I : Vm → Prop) : Prop where
  map : ∀ {physical virtual flags vm vm'}, I vm → virtual < 2 ^ 32 → flags < 2 ^ 32 →
    ok physical virtual flags vm → mapPage pageWalk physical virtual flags vm = some vm' → I vm'
  free : ∀ {addr vm vm'}, I vm → addr < 2 ^ 32 → okFree addr vm →
    freePage pageWalk addr vm = some vm' → I vm'
  congr : ∀ {vm vm'}, I vm → vm'.mem = vm.mem → vm'.pageDirectory = vm.pageDirectory → I vm'

variable {ok : Nat → Nat → Nat → Vm → Prop} {okFree : Nat → Vm → Prop} {I : Vm → Prop}

/-- The loop of `allocate_pages_contig`. -/
theorem CallInvariant.mapContig (hI : CallInvariant ok okFree I) {start flag : Nat}
    {ks : List Nat} {done : Bool} (hFlag : flag < 2 ^ 32)
    (hOk : ContigMeets ok start flag ks vm) (hVm : I vm)
    (hLoop : mapContig pageWalk start flag ks vm = some (done, vm')) : I vm' := by
  induction ks generalizing vm with
  | nil =>
      cases hLoop
      exact hVm
  | cons k ks ih =>
      simp only [Paging.mapContig] at hLoop
      split at hLoop
      · cases hLoop
        exact hI.congr hVm rfl rfl
      · next hSome =>
          obtain ⟨vm₁, hMap, hRest⟩ := Option.bind_eq_some_iff.mp hLoop
          obtain ⟨hTurn, hTurns⟩ := hOk hSome
          have hTaken : I { vm with pmm := (allocate 4096 vm.pmm).2 } := hI.congr hVm rfl rfl
          exact ih (hTurns vm₁ hMap)
            (hI.map hTaken (Nat.mod_lt _ (by decide)) hFlag hTurn hMap) hRest

/-- **`allocate_page`.** -/
theorem CallInvariant.allocatePage (hI : CallInvariant ok okFree I) {flag v : Nat}
    (hBounded : Bounded vm) (hFlag : flag < 2 ^ 32) (hOk : PageMeets ok flag vm) (hVm : I vm)
    (hCall : allocatePage pageWalk flag vm = some (v, vm')) : I vm' ∧ Bounded vm' := by
  by_cases hFail : (allocate 4096 vm.pmm).1 = 0
  · unfold Paging.allocatePage at hCall
    rw [if_pos hFail] at hCall
    cases hCall
    exact ⟨hI.congr hVm rfl rfl, hBounded.same ⟨rfl, rfl, rfl⟩⟩
  · rw [allocatePage_some hFail] at hCall
    obtain ⟨vm₁, hMap, hEq⟩ := Option.map_eq_some_iff.mp hCall
    cases hEq
    have hStart : Bounded { vm with pmm := (allocate 4096 vm.pmm).2 } :=
      hBounded.same ⟨rfl, rfl, rfl⟩
    obtain ⟨hVirtual, hTaken⟩ := hStart.take
    obtain ⟨-, hMem, hDirectory, -⟩ :=
      takeVirtual_frame { vm with pmm := (allocate 4096 vm.pmm).2 }
    exact ⟨hI.map (hI.congr hVm hMem hDirectory) hVirtual (defaultFlags_lt (by decide) hFlag)
      (hOk hFail) hMap, hTaken.same (mapPage_same hMap)⟩

/-- **`allocate_pages_contig`** returns an address the allocator held. -/
theorem CallInvariant.allocatePagesContig (hI : CallInvariant ok okFree I) {count : Int}
    {flag v : Nat} (hBounded : Bounded vm) (hFlag : flag < 2 ^ 32)
    (hOk : Calls ok okFree vm (.allocatePagesContig count flag)) (hVm : I vm)
    (hCall : allocatePagesContig pageWalk count flag vm = some (v, vm')) :
    I vm' ∧ Bounded vm' ∧ v < 2 ^ 32 := by
  obtain ⟨⟨done, vm₁⟩, hLoop, hEq⟩ := Option.map_eq_some_iff.mp hCall
  cases hEq
  have hNext : (((vm.nextVirtual : Int) + count * 4096) % 2 ^ 32).toNat < 2 ^ 32 := by omega
  refine ⟨hI.mapContig (defaultFlags_lt (by decide) hFlag) hOk (hI.congr hVm rfl rfl) hLoop,
    (hBounded.bump hNext).same (mapContig_same hLoop), ?_⟩
  split
  · exact hBounded.next
  · exact Nat.two_pow_pos 32

/-- **`free_page`.** -/
theorem CallInvariant.freePage (hI : CallInvariant ok okFree I) {addr : Nat}
    (hBounded : Bounded vm) (hAddr : addr < 2 ^ 32) (hOk : okFree addr vm) (hVm : I vm)
    (hCall : freePage pageWalk addr vm = some vm') : I vm' ∧ Bounded vm' :=
  ⟨hI.free hVm hAddr hOk hCall, (hBounded.push hAddr).same (freePage_same hCall)⟩

/-- **One call**: what `map_page` and `free_page` keep, the call keeps. -/
theorem CallInvariant.step (hI : CallInvariant ok okFree I) {e : Event} (hBounded : Bounded vm)
    (hOk : Calls ok okFree vm e) (hVm : I vm) (hStep : step vm e = some vm') :
    I vm' ∧ Bounded vm' := by
  cases e with
  | allocatePage flag =>
      obtain ⟨hFlag, hStep⟩ := Option.ite_none_right_eq_some.mp hStep
      obtain ⟨⟨v, vm₁⟩, hCall, rfl⟩ := Option.map_eq_some_iff.mp hStep
      exact hI.allocatePage hBounded hFlag hOk hVm hCall
  | allocatePagesContig count flag =>
      obtain ⟨hFlag, hStep⟩ := Option.ite_none_right_eq_some.mp hStep
      obtain ⟨⟨v, vm₁⟩, hCall, rfl⟩ := Option.map_eq_some_iff.mp hStep
      obtain ⟨hKept, hNext, -⟩ := hI.allocatePagesContig hBounded hFlag hOk hVm hCall
      exact ⟨hKept, hNext⟩
  | freePage addr =>
      obtain ⟨hAddr, hCall⟩ := Option.ite_none_right_eq_some.mp hStep
      exact hI.freePage hBounded hAddr hOk hVm hCall
  | mapPage physical virtual flags =>
      obtain ⟨⟨hVirtual, hFlags⟩, hMap⟩ := Option.ite_none_right_eq_some.mp hStep
      exact ⟨hI.map hVm hVirtual hFlags hOk hMap, hBounded.same (mapPage_same hMap)⟩

/-! ## Invariants of the words -/

/-- The edits that meet the conditions keep `I`, and leave the tables where the
code looks for them. -/
structure WordInvariant (ok : Nat → Nat → Nat → Vm → Prop) (okFree : Nat → Vm → Prop)
    (I : Vm → Prop) : Prop where
  mapOk : ∀ {physical virtual flags vm}, ok physical virtual flags vm →
    MapOk physical virtual flags vm
  freeOk : ∀ {addr vm}, okFree addr vm → FreeOk addr vm
  map : ∀ {physical virtual flags vm vm'}, I vm → ok physical virtual flags vm →
    Edits vm vm' (pageOf virtual) (frameOf physical ||| flags) → I vm'
  free : ∀ {addr vm vm'}, I vm → okFree addr vm → Edits vm vm' (pageOf addr) 0 → I vm'
  congr : ∀ {vm vm'}, I vm → vm'.mem = vm.mem → vm'.pageDirectory = vm.pageDirectory → I vm'

/-- Together with the tables it is an invariant of the calls. -/
theorem WordInvariant.calls (hI : WordInvariant ok okFree I) :
    CallInvariant ok okFree fun vm => I vm ∧ Identity vm where
  map := fun ⟨hVm, h⟩ hVirtual hFlags hOk hMap =>
    ⟨hI.map hVm hOk (mapPage_edits h hVirtual hFlags (hI.mapOk hOk) hMap),
      mapPage_identity h hVirtual hFlags (hI.mapOk hOk) hMap⟩
  free := fun ⟨hVm, h⟩ hAddr hOk hFree =>
    ⟨hI.free hVm hOk (freePage_edits h hAddr hFree),
      freePage_identity h hAddr (hI.freeOk hOk) hFree⟩
  congr := fun ⟨hVm, h⟩ hMem hDirectory => ⟨hI.congr hVm hMem hDirectory, h.update hMem hDirectory⟩

/-- **`allocate_page`.** -/
theorem WordInvariant.allocatePage (hI : WordInvariant ok okFree I) {flag v : Nat}
    (h : Identity vm) (hBounded : Bounded vm) (hFlag : flag < 2 ^ 32)
    (hOk : PageMeets ok flag vm) (hVm : I vm)
    (hCall : allocatePage pageWalk flag vm = some (v, vm')) :
    I vm' ∧ Identity vm' ∧ Bounded vm' := by
  obtain ⟨⟨hKept, hTables⟩, hNext⟩ := hI.calls.allocatePage hBounded hFlag hOk ⟨hVm, h⟩ hCall
  exact ⟨hKept, hTables, hNext⟩

/-- **One call**: what the edits keep, the call keeps. -/
theorem WordInvariant.step (hI : WordInvariant ok okFree I) {e : Event}
    (h : Identity vm) (hBounded : Bounded vm) (hOk : Calls ok okFree vm e) (hVm : I vm)
    (hStep : step vm e = some vm') : I vm' ∧ Identity vm' ∧ Bounded vm' := by
  obtain ⟨⟨hKept, hTables⟩, hNext⟩ := hI.calls.step hBounded hOk ⟨hVm, h⟩ hStep
  exact ⟨hKept, hTables, hNext⟩

end MiniKernel.Ports.PagingCalls
