import MiniKernel.Ports.PagingSparing
import MiniKernel.Verified.Trace

/-!
# Page tables are edited through the identity map

The processor's translation decides what the table pointers of `map_page` and
`free_page` reach.  The tables start out in the identity map of the first
4 MiB, and the code needs them to stay there: a table is edited at its own
address exactly as long as that address translates to itself.

Two things can end this.  A new table may come to lie at a frame that does not
translate to itself, and the virtual allocator, which starts inside the
identity map, may map the page of a table to another frame.  `MapOk` and
`FreeOk` say that a call does neither, and with them the tables of every run
that spares the kernel's own memory stay where the code looks for them.
-/

namespace MiniKernel.Ports.PagingIdentity

open MiniKernel.Verified.ByteMemory
open MiniKernel.Verified.PageWords
open MiniKernel.Verified.Trace
open MiniKernel.Ports.Pmm
open MiniKernel.Ports.Paging
open MiniKernel.Ports.PagingTables
open MiniKernel.Ports.PagingSparing

/-! ## Calls -/

inductive Event
  | allocatePage (flag : Nat)
  | allocatePagesContig (count : Int) (flag : Nat)
  | freePage (addr : Nat)
  | mapPage (physical virtual flags : Nat)
  deriving Repr, DecidableEq

/-- One call; addresses and flags are 32 bits wide. -/
def stepWith (ptr : Vm → Nat → Option Nat) (vm : Vm) : Event → Option Vm
  | .allocatePage flag =>
      if flag < 2 ^ 32 then (allocatePage ptr flag vm).map Prod.snd else none
  | .allocatePagesContig count flag =>
      if flag < 2 ^ 32 then (allocatePagesContig ptr count flag vm).map Prod.snd
      else none
  | .freePage addr => if addr < 2 ^ 32 then freePage ptr addr vm else none
  | .mapPage physical virtual flags =>
      if virtual < 2 ^ 32 ∧ flags < 2 ^ 32 then mapPage ptr physical virtual flags vm
      else none

/-- One call under the processor's translation. -/
def step : Vm → Event → Option Vm := stepWith pageWalk

/-- The call leaves the kernel's own memory alone: it succeeds without it. -/
def Spares (layout : Layout) (ptr : Vm → Nat → Option Nat) (vm : Vm) (e : Event) : Prop :=
  (stepWith ptr vm e).isSome → (stepWith (sparing layout ptr) vm e).isSome

instance (layout : Layout) (ptr : Vm → Nat → Option Nat) (vm : Vm) (e : Event) :
    Decidable (Spares layout ptr vm e) :=
  inferInstanceAs (Decidable (_ → _))

/-- `map_page` leaves every table at an address that translates to itself: the
page it maps is not the page of a table, unless it is mapped to itself, and a
new table is at a page of its own that translates to itself. -/
def MapOk (physical virtual flags : Nat) (vm : Vm) : Prop :=
  if HasTable vm (pageOf virtual / 1024) then
    ∀ d < 1024, HasTable vm d → pageOf (tableOf vm d) = pageOf virtual →
      frameOf (frameOf physical ||| flags) = tableOf vm d ∧
        Present (frameOf physical ||| flags)
  else
    (allocate 4096 vm.pmm).1 ≠ 0 →
      (allocate 4096 vm.pmm).1 % 4096 = 0 ∧
      (∀ d < 1024, HasTable vm d → tableOf vm d ≠ (allocate 4096 vm.pmm).1) ∧
      pageWalk vm (allocate 4096 vm.pmm).1 = some (allocate 4096 vm.pmm).1

/-- `MapOk` at every turn of the loop of `allocate_pages_contig`. -/
def ContigOk (start flag : Nat) : List Nat → Vm → Prop
  | [], _ => True
  | k :: ks, vm =>
      let r := allocate 4096 vm.pmm
      r.1 ≠ 0 →
        MapOk r.1 ((start + k * 4096) % 2 ^ 32) flag { vm with pmm := r.2 } ∧
        ∀ vm', mapPage pageWalk r.1 ((start + k * 4096) % 2 ^ 32) flag
          { vm with pmm := r.2 } = some vm' → ContigOk start flag ks vm'

/-- `free_page` is not applied to the page of a table. -/
def FreeOk (addr : Nat) (vm : Vm) : Prop :=
  vm.freeCount < maxFreePages ∧
    ∀ d < 1024, HasTable vm d → pageOf (tableOf vm d) ≠ pageOf addr

/-- The call leaves the tables in the identity map. -/
def KeepsTables (vm : Vm) : Event → Prop
  | .allocatePage flag =>
      let r := allocate 4096 vm.pmm
      let v := takeVirtual { vm with pmm := r.2 }
      r.1 ≠ 0 → MapOk r.1 v.1 (defaultFlags flag) v.2
  | .allocatePagesContig count flag =>
      ContigOk vm.nextVirtual (defaultFlags flag) (List.range count.toNat)
        { vm with nextVirtual := (((vm.nextVirtual : Int) + count * 4096) % 2 ^ 32).toNat }
  | .freePage addr => FreeOk addr vm
  | .mapPage physical virtual flags => MapOk physical virtual flags vm

/-- It does so, and leaves the kernel's own memory alone. -/
def KeepsKernel (layout : Layout) (vm : Vm) (e : Event) : Prop :=
  KeepsTables vm e ∧ Spares layout pageWalk vm e

instance (physical virtual flags : Nat) (vm : Vm) :
    Decidable (MapOk physical virtual flags vm) := by
  unfold MapOk
  infer_instance

instance ContigOk.decidable (start flag : Nat) :
    (ks : List Nat) → (vm : Vm) → Decidable (ContigOk start flag ks vm)
  | [], _ => .isTrue trivial
  | k :: ks, vm =>
      match hMap : mapPage pageWalk (allocate 4096 vm.pmm).1 ((start + k * 4096) % 2 ^ 32) flag
          { vm with pmm := (allocate 4096 vm.pmm).2 } with
      | none =>
          decidable_of_iff ((allocate 4096 vm.pmm).1 ≠ 0 →
            MapOk (allocate 4096 vm.pmm).1 ((start + k * 4096) % 2 ^ 32) flag
              { vm with pmm := (allocate 4096 vm.pmm).2 })
            (by simp only [ContigOk, hMap, reduceCtorEq, false_implies, implies_true, and_true])
      | some vm' =>
          have := ContigOk.decidable start flag ks vm'
          decidable_of_iff ((allocate 4096 vm.pmm).1 ≠ 0 →
            MapOk (allocate 4096 vm.pmm).1 ((start + k * 4096) % 2 ^ 32) flag
              { vm with pmm := (allocate 4096 vm.pmm).2 } ∧ ContigOk start flag ks vm')
            (by simp only [ContigOk, hMap, Option.some.injEq, forall_eq'])

instance (addr : Nat) (vm : Vm) : Decidable (FreeOk addr vm) := by
  unfold FreeOk
  infer_instance

instance (vm : Vm) : (e : Event) → Decidable (KeepsTables vm e)
  | .allocatePage _ => inferInstanceAs (Decidable (_ → MapOk ..))
  | .allocatePagesContig .. => inferInstanceAs (Decidable (ContigOk ..))
  | .freePage _ => inferInstanceAs (Decidable (FreeOk ..))
  | .mapPage .. => inferInstanceAs (Decidable (MapOk ..))

instance (layout : Layout) (vm : Vm) (e : Event) : Decidable (KeepsKernel layout vm e) :=
  inferInstanceAs (Decidable (_ ∧ _))

theorem MapOk.present {physical virtual flags : Nat} {vm : Vm}
    (hTable : HasTable vm (pageOf virtual / 1024))
    (h : ∀ d < 1024, HasTable vm d → pageOf (tableOf vm d) ≠ pageOf virtual) :
    MapOk physical virtual flags vm := by
  rw [MapOk, if_pos hTable]
  exact fun d hd hHas hEq => absurd hEq (h d hd hHas)

theorem MapOk.new {physical virtual flags t : Nat} {vm : Vm}
    (hTable : ¬HasTable vm (pageOf virtual / 1024)) (ht : (allocate 4096 vm.pmm).1 = t)
    (hAligned : t % 4096 = 0) (hFresh : ∀ d < 1024, HasTable vm d → tableOf vm d ≠ t)
    (hSelf : pageWalk vm t = some t) : MapOk physical virtual flags vm := by
  rw [MapOk, if_neg hTable, ht]
  exact fun _ => ⟨hAligned, hFresh, hSelf⟩

/-! ## The invariant -/

/-- Every table is at an address that translates to itself. -/
structure Identity (vm : Vm) : Prop where
  tables : Tables vm
  own : ∀ d, d < 1024 → HasTable vm d → Present (entryWord vm (pageOf (tableOf vm d))) ∧
    frameOf (entryWord vm (pageOf (tableOf vm d))) = tableOf vm d

/-- The virtual addresses the allocator hands out are 32 bits wide. -/
structure Bounded (vm : Vm) : Prop where
  next : vm.nextVirtual < 2 ^ 32
  stack : ∀ a ∈ stack vm, a < 2 ^ 32

theorem Bounded.same {vm vm' : Vm} (h : Bounded vm) (hSame : SameVirtual vm vm') :
    Bounded vm' where
  next := by rw [hSame.nextVirtual]; exact h.next
  stack := by rw [hSame.stack]; exact h.stack

/-- A page-aligned address that translates to itself. -/
theorem pageWalk_self_iff {vm : Vm} {t : Nat} (hAligned : t % 4096 = 0) :
    pageWalk vm t = some t ↔
      Present (entryWord vm (pageOf t)) ∧ frameOf (entryWord vm (pageOf t)) = t := by
  rw [pageWalk_eq, hAligned]
  split
  · next hPresent => simp [hPresent]
  · next hPresent => simp [hPresent]

/-- With such an address, the whole page translates to itself. -/
theorem pageWalk_page {vm : Vm} {t x : Nat}
    (hPresent : Present (entryWord vm (pageOf t))) (hAligned : t % 4096 = 0)
    (hFrame : frameOf (entryWord vm (pageOf t)) = t) (hx : x < 4096) :
    pageWalk vm (t + x) = some (t + x) := by
  have hPage : pageOf (t + x) = pageOf t := by
    unfold pageOf
    omega
  rw [pageWalk_eq, hPage, if_pos hPresent, hFrame, show (t + x) % 4096 = x by omega]

variable {vm vm' : Vm}

theorem tableOf_lt (vm : Vm) (d : Nat) : tableOf vm d < 2 ^ 32 := by
  have := frameOf_le (vm.pageDirectory d)
  unfold tableOf
  omega

/-- The identity map does not depend on anything but the table words. -/
theorem Identity.congr (h : Identity vm) (hSame : ∀ d, SameTable vm vm' d)
    (hWords : ∀ d, d < 1024 → HasTable vm d →
      entryWord vm' (pageOf (tableOf vm d)) = entryWord vm (pageOf (tableOf vm d))) :
    Identity vm' where
  tables := h.tables.congr hSame
  own d hd hHas := by
    have hOld := (hSame d).1.mp hHas
    rw [(hSame d).2, hWords d hd hOld]
    exact h.own d hd hOld

/-- The variables of the allocators do not matter. -/
theorem Identity.update (h : Identity vm) (hMem : vm'.mem = vm.mem)
    (hDirectory : vm'.pageDirectory = vm.pageDirectory) : Identity vm' := by
  have hSame : ∀ d, SameTable vm vm' d := fun d => sameTable_of_eq (by rw [hDirectory])
  refine h.congr hSame fun d hd _ => ?_
  exact entryWord_congr (hSame _) fun _ x _ _ => by rw [hMem]

/-- The code reaches the tables that are there. -/
theorem Identity.reach (h : Identity vm) {d : Nat} (hd : d < 1024) (hHas : HasTable vm d)
    {vm₁ : Vm} (hSame : ∀ d, SameTable vm vm₁ d) (hMem : vm₁.mem = vm.mem) {k : Nat}
    (hk : k < 1024) :
    pageWalk vm₁ (tableOf vm d + 4 * k) = some (tableOf vm d + 4 * k) := by
  have hWord : entryWord vm₁ (pageOf (tableOf vm d)) = entryWord vm (pageOf (tableOf vm d)) :=
    entryWord_congr (hSame _) fun _ x _ _ => by rw [hMem]
  obtain ⟨hPresent, hFrame⟩ := h.own d hd hHas
  rw [← hWord] at hPresent hFrame
  exact pageWalk_page hPresent (tableOf_mod vm d) hFrame (by omega)

/-- The code reaches a new table while it clears it. -/
theorem reach_new {t directory : Nat} (hAligned : t % 4096 = 0) (ht : t < 2 ^ 32)
    (hTable : ¬HasTable vm directory)
    (hFresh : ∀ d, d < 1024 → HasTable vm d → tableOf vm d ≠ t)
    (hSelf : pageWalk vm t = some t) {vm₁ : Vm}
    (hOther : ∀ d, d ≠ directory → SameTable vm vm₁ d)
    (hMem : ∀ x, x < t ∨ t + 4096 ≤ x → vm₁.mem x = vm.mem x) :
    entryWord vm₁ (pageOf t) = entryWord vm (pageOf t) ∧
      ∀ k, k < 1024 → pageWalk vm₁ (t + 4 * k) = some (t + 4 * k) := by
  obtain ⟨hPresent, hFrame⟩ := (pageWalk_self_iff hAligned).mp hSelf
  have hHas := entryWord_present hPresent
  have hWord : entryWord vm₁ (pageOf t) = entryWord vm (pageOf t) := by
    apply entryWord_congr (hOther _ fun hEq => hTable (hEq ▸ hHas))
    intro _ x hLow hHigh
    apply hMem
    have hApart := hFresh _ (by unfold pageOf; omega) hHas
    have hMod := tableOf_mod vm (pageOf t / 1024)
    omega
  refine ⟨hWord, fun k hk => ?_⟩
  rw [← hWord] at hPresent hFrame
  exact pageWalk_page hPresent hAligned hFrame (by omega)

/-! ## One call -/

/-- **`map_page` keeps the tables in the identity map.** -/
theorem mapPage_identity {physical virtual flags : Nat} (h : Identity vm)
    (hVirtual : virtual < 2 ^ 32) (hFlags : flags < 2 ^ 32)
    (hOk : MapOk physical virtual flags vm)
    (hMap : mapPage pageWalk physical virtual flags vm = some vm') : Identity vm' := by
  have hDirectory : pageOf virtual / 1024 < 1024 := by
    unfold pageOf
    omega
  have hPage : ∀ d, pageOf (tableOf vm d) < 2 ^ 20 := by
    intro d
    have := tableOf_lt vm d
    unfold pageOf
    omega
  unfold MapOk at hOk
  by_cases hTable : HasTable vm (pageOf virtual / 1024)
  · rw [if_pos hTable] at hOk
    obtain ⟨vm₁, hMap₁, hSame, -, -, hWords⟩ :=
      Distinct.mapPage pageWalk h.tables.distinct physical hVirtual hFlags hTable
        fun _ hSame hMem _ hk => h.reach hDirectory hTable hSame hMem hk
    cases hMap₁.symm.trans hMap
    refine ⟨h.tables.congr hSame, fun d hd hHas => ?_⟩
    have hOld := (hSame d).1.mp hHas
    rw [(hSame d).2, hWords _ (hPage d)]
    split
    · next hEq => exact (hOk d hd hOld hEq).symm
    · exact h.own d hd hOld
  · rw [if_neg hTable] at hOk
    by_cases hFull : (allocate 4096 vm.pmm).1 = 0
    · rw [mapPage_full hTable hFull] at hMap
      cases hMap
      exact h.update rfl rfl
    · obtain ⟨hAligned, hFresh, hSelf⟩ := hOk hFull
      have hRange := allocate_lt 4096 vm.pmm
      generalize ht : (allocate 4096 vm.pmm).1 = t at *
      obtain ⟨vm₁, hMap₁, hNew, hWords⟩ :=
        Distinct.mapPage_adds pageWalk h.tables.distinct physical hVirtual hFlags hTable
          ht hFull hAligned
          hRange hFresh fun _ hOther hMem => (reach_new hAligned hRange hTable hFresh hSelf
            hOther hMem).2
      cases hMap₁.symm.trans hMap
      -- a page that translates has a table, so it is not the page being mapped
      have hKept : ∀ q, q < 2 ^ 20 → Present (entryWord vm q) →
          entryWord vm' q = entryWord vm q := by
        intro q hq hPresent
        rw [hWords q hq, if_neg]
        rintro rfl
        exact hTable (entryWord_present hPresent)
      refine ⟨hNew.tables h.tables, fun d hd hHas => ?_⟩
      by_cases hEq : d = pageOf virtual / 1024
      · obtain ⟨hPresent, hFrame⟩ := (pageWalk_self_iff hAligned).mp hSelf
        rw [hEq, hNew.tableOf, hKept _ (by unfold pageOf; omega) hPresent]
        exact ⟨hPresent, hFrame⟩
      · have hOld := (hNew.other d hEq).1.mp hHas
        obtain ⟨hPresent, hFrame⟩ := h.own d hd hOld
        rw [(hNew.other d hEq).2, hKept _ (hPage d) hPresent]
        exact ⟨hPresent, hFrame⟩

/-- **`free_page` keeps the tables in the identity map.** -/
theorem freePage_identity {addr : Nat} (h : Identity vm) (hAddr : addr < 2 ^ 32)
    (hOk : FreeOk addr vm) (hFree : freePage pageWalk addr vm = some vm') : Identity vm' := by
  have hDirectory : pageOf addr / 1024 < 1024 := by
    unfold pageOf
    omega
  obtain ⟨vm₁, hFree₁, hSame, -, hWords⟩ := freePage_spec pageWalk h.tables hAddr
    fun hTable vm₁ hSame hMem => h.reach hDirectory hTable
      (fun d => sameTable_of_eq (by rw [hSame])) hMem (by omega)
  cases hFree₁.symm.trans hFree
  refine h.congr (fun d => sameTable_of_eq (by rw [hSame])) fun d hd hHas => ?_
  have hRange := tableOf_lt vm d
  rw [hWords _ (by unfold pageOf; omega), if_neg]
  exact fun hEq => hOk.2 d hd hHas hEq.1

/-- The loop of `allocate_pages_contig` keeps the tables in the identity map. -/
theorem mapContig_identity {start flag : Nat} {ks : List Nat} {ok : Bool} (h : Identity vm)
    (hFlag : flag < 2 ^ 32) (hOk : ContigOk start flag ks vm)
    (hLoop : mapContig pageWalk start flag ks vm = some (ok, vm')) : Identity vm' := by
  induction ks generalizing vm with
  | nil =>
      cases hLoop
      exact h
  | cons k ks ih =>
      simp only [mapContig] at hLoop
      split at hLoop
      · cases hLoop
        exact h.update rfl rfl
      · next hSome =>
          obtain ⟨vm₁, hMap, hRest⟩ := Option.bind_eq_some_iff.mp hLoop
          obtain ⟨hMapOk, hRestOk⟩ := hOk hSome
          have hStart : Identity { vm with pmm := (allocate 4096 vm.pmm).2 } :=
            h.update rfl rfl
          have hNext := mapPage_identity hStart (Nat.mod_lt _ (by decide)) hFlag hMapOk hMap
          exact ih hNext (hRestOk vm₁ hMap) hRest

theorem Bounded.bump (h : Bounded vm) {n : Nat} (hn : n < 2 ^ 32) :
    Bounded { vm with nextVirtual := n } :=
  ⟨hn, h.stack⟩

theorem Bounded.take (h : Bounded vm) :
    (takeVirtual vm).1 < 2 ^ 32 ∧ Bounded (takeVirtual vm).2 := by
  unfold takeVirtual
  by_cases hCount : 0 < vm.freeCount
  · rw [if_pos hCount]
    have hTop : ∀ k < vm.freeCount, vm.freeVirtual k < 2 ^ 32 := fun k hk =>
      h.stack _ (List.mem_map_of_mem (List.mem_range.mpr hk))
    refine ⟨hTop _ (by omega), h.next, fun a ha => ?_⟩
    obtain ⟨k, hk, rfl⟩ := List.mem_map.mp ha
    have := List.mem_range.mp hk
    exact hTop k (by simp only at this; omega)
  · rw [if_neg hCount]
    exact ⟨h.next, h.bump (Nat.mod_lt _ (Nat.two_pow_pos 32))⟩

theorem Bounded.push {addr : Nat} (h : Bounded vm) (hAddr : addr < 2 ^ 32) :
    Bounded (pushFree addr vm) where
  next := h.next
  stack a ha := by
    obtain ⟨k, hk, rfl⟩ := List.mem_map.mp ha
    have hk := List.mem_range.mp hk
    simp only [pushFree, setWord] at hk ⊢
    split
    · exact hAddr
    · exact h.stack _ (List.mem_map_of_mem (List.mem_range.mpr (by omega)))

/-- **One call that keeps the tables.** -/
theorem step_identity (vm : Vm) (e : Event) (vm' : Vm) (h : Identity vm ∧ Bounded vm)
    (hOk : KeepsTables vm e) (hStep : step vm e = some vm') : Identity vm' ∧ Bounded vm' := by
  obtain ⟨hIdentity, hBounded⟩ := h
  cases e with
  | allocatePage flag =>
      simp only [step, stepWith] at hStep
      split at hStep
      · next hFlag =>
          obtain ⟨⟨v, vm₁⟩, hCall, rfl⟩ := Option.map_eq_some_iff.mp hStep
          unfold allocatePage at hCall
          by_cases hFail : (allocate 4096 vm.pmm).1 = 0
          · rw [if_pos hFail] at hCall
            cases hCall
            exact ⟨hIdentity.update rfl rfl, hBounded.same ⟨rfl, rfl, rfl⟩⟩
          · rw [if_neg hFail] at hCall
            obtain ⟨vm₂, hMap, hEq⟩ := Option.map_eq_some_iff.mp hCall
            cases hEq
            have hStart : Bounded { vm with pmm := (allocate 4096 vm.pmm).2 } :=
              hBounded.same ⟨rfl, rfl, rfl⟩
            obtain ⟨hVirtual, hTaken⟩ := hStart.take
            obtain ⟨-, hMem, hDirectory, -⟩ :=
              takeVirtual_frame { vm with pmm := (allocate 4096 vm.pmm).2 }
            have hTakenIdentity := hIdentity.update hMem hDirectory
            exact ⟨mapPage_identity hTakenIdentity hVirtual (defaultFlags_lt (by decide) hFlag)
              (hOk hFail) hMap, hTaken.same (mapPage_same hMap)⟩
      · simp at hStep
  | allocatePagesContig count flag =>
      simp only [step, stepWith] at hStep
      split at hStep
      · next hFlag =>
          obtain ⟨⟨v, vm₁⟩, hCall, rfl⟩ := Option.map_eq_some_iff.mp hStep
          obtain ⟨⟨ok, vm₂⟩, hLoop, hEq⟩ := Option.map_eq_some_iff.mp hCall
          cases hEq
          have hNext : (((vm.nextVirtual : Int) + count * 4096) % 2 ^ 32).toNat < 2 ^ 32 := by
            omega
          have hStartIdentity : Identity { vm with
              nextVirtual := (((vm.nextVirtual : Int) + count * 4096) % 2 ^ 32).toNat } :=
            hIdentity.update rfl rfl
          exact ⟨mapContig_identity hStartIdentity (defaultFlags_lt (by decide) hFlag) hOk hLoop,
            (hBounded.bump hNext).same (mapContig_same hLoop)⟩
      · simp at hStep
  | freePage addr =>
      simp only [step, stepWith] at hStep
      split at hStep
      · next hAddr =>
          exact ⟨freePage_identity hIdentity hAddr hOk hStep,
            (hBounded.push hAddr).same (freePage_same hStep)⟩
      · simp at hStep
  | mapPage physical virtual flags =>
      simp only [step, stepWith] at hStep
      split at hStep
      · next hWide =>
          exact ⟨mapPage_identity hIdentity hWide.1 hWide.2 hOk hStep,
            hBounded.same (mapPage_same hStep)⟩
      · simp at hStep

/-! ## The kernel's own memory -/

/-- A call that spares it is the call without it. -/
theorem stepWith_sparing {layout : Layout} {ptr : Vm → Nat → Option Nat} {e : Event}
    (h : stepWith (sparing layout ptr) vm e = some vm') :
    stepWith ptr vm e = some vm' ∧ Leaves layout vm vm' := by
  cases e with
  | allocatePage flag =>
      obtain ⟨hFlag, h⟩ := Option.ite_none_right_eq_some.mp h
      obtain ⟨⟨v, vm₁⟩, hCall, rfl⟩ := Option.map_eq_some_iff.mp h
      obtain ⟨hSame, hLeaves⟩ := allocatePage_sparing hCall
      exact ⟨by rw [stepWith, if_pos hFlag, hSame, Option.map_some], hLeaves⟩
  | allocatePagesContig count flag =>
      obtain ⟨hFlag, h⟩ := Option.ite_none_right_eq_some.mp h
      obtain ⟨⟨v, vm₁⟩, hCall, rfl⟩ := Option.map_eq_some_iff.mp h
      obtain ⟨hSame, hLeaves⟩ := allocatePagesContig_sparing hCall
      exact ⟨by rw [stepWith, if_pos hFlag, hSame, Option.map_some], hLeaves⟩
  | freePage addr =>
      obtain ⟨hAddr, h⟩ := Option.ite_none_right_eq_some.mp h
      obtain ⟨hSame, hLeaves⟩ := freePage_sparing h
      exact ⟨by rw [stepWith, if_pos hAddr, hSame], hLeaves⟩
  | mapPage physical virtual flags =>
      obtain ⟨hWide, h⟩ := Option.ite_none_right_eq_some.mp h
      obtain ⟨hSame, hLeaves⟩ := mapPage_sparing h
      exact ⟨by rw [stepWith, if_pos hWide, hSame], hLeaves⟩

theorem Spares.leaves {layout : Layout} {ptr : Vm → Nat → Option Nat} {e : Event}
    (h : Spares layout ptr vm e) (hStep : stepWith ptr vm e = some vm') :
    Leaves layout vm vm' := by
  obtain ⟨vm₁, hCall⟩ := Option.isSome_iff_exists.mp (h (hStep ▸ rfl))
  obtain ⟨hSame, hLeaves⟩ := stepWith_sparing hCall
  cases hSame.symm.trans hStep
  exact hLeaves

/-- **The kernel's own memory stays where it is and as it is** in every run whose calls
all spare it, whatever table pointers reach: its pages translate to themselves, and no
byte of it changes. -/
theorem own_memory_kept {layout : Layout} {ptr : Vm → Nat → Option Nat} {pmm : Table} {mem : Mem}
    {freeVirtual : Nat → Nat} {events : List Event}
    (hRun : exec (stepWith ptr) (boot layout pmm mem freeVirtual) events = some vm)
    (hOk : Meets (stepWith ptr) (Spares layout ptr) (boot layout pmm mem freeVirtual) events) :
    (∀ page, OwnPage layout page → ∀ x < 4096,
      pageWalk vm (page * 4096 + x) = some (page * 4096 + x)) ∧
    ∀ x, OwnByte layout x → vm.mem x = (boot layout pmm mem freeVirtual).mem x := by
  have h : Leaves layout (boot layout pmm mem freeVirtual) vm :=
    hOk.invariant (I := Leaves layout (boot layout pmm mem freeVirtual))
      (fun _ _ _ hLeaves hSpares hStep => hLeaves.trans (hSpares.leaves hStep))
      (Leaves.of_eq rfl rfl) hRun
  refine ⟨fun page hPage x hx => ?_, h.bytes⟩
  have hWord := h.entryWord ((boot_hasTable ..).mpr rfl) (boot_tableOf ..) hPage
  obtain ⟨hPresent, hFrame⟩ := boot_identity layout pmm mem freeVirtual (ownPage_lt hPage)
  rw [← hWord] at hPresent hFrame
  have hIs : pageOf (page * 4096) = page := by
    unfold pageOf
    omega
  apply pageWalk_page
  · rw [hIs]
    exact hPresent
  · exact Nat.mul_mod_left page 4096
  · rw [hIs]
    exact hFrame
  · exact hx

/-! ## Runs -/

theorem boot_invariant (layout : Layout) (pmm : Table) (mem : Mem) (freeVirtual : Nat → Nat) :
    Identity (boot layout pmm mem freeVirtual) ∧ Bounded (boot layout pmm mem freeVirtual) := by
  have hAligned := layout.aligned
  have hInside := layout.inside
  have hLow := layout.low
  refine ⟨⟨boot_tables .., fun d _ hHas => ?_⟩, ?_, ?_⟩
  · rw [(boot_hasTable ..).mp hHas, boot_tableOf]
    obtain ⟨hPresent, hFrame⟩ := boot_identity layout pmm mem freeVirtual
      (show pageOf layout.pageTable < 1024 by unfold pageOf; omega)
    refine ⟨hPresent, hFrame.trans ?_⟩
    unfold pageOf
    omega
  · simp only [boot, buildFirstPage, initVirtualAllocator, and_mask]
    have := frameOf_le (layout.kernelEnd + 4095)
    omega
  · simp [stack, boot, buildFirstPage, initVirtualAllocator]

/-- A map whose usable memory begins where the image ends. -/
def imageMap : Table := Table.ofList
  [ { base := 0x26000, length := 0x10000, type := 1, acpi := 1 } ]

end MiniKernel.Ports.PagingIdentity
